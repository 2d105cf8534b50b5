-- Simplification: passes are repeated until one changes nothing. The result is the
-- expression as it was left, whether the passes came to an end or were given up.
import SwitchingAlgebra.Event
import SwitchingAlgebra.Simplification.Config
import SwitchingAlgebra.Simplification.Pass
import SwitchingAlgebra.Simplification.Outputs

namespace SwitchingAlgebra

/-- What a simplification leaves, what it reported, and why it was given up if it was. -/
structure Simplification where
  expression : Expression
  events : List Event
  outcome : Except SimplifyError Unit

namespace Expression

/-- Adds entries to the change log. -/
def log (e : Expression) (changes : List Change) : Expression :=
  { e with journal := { e.journal with changes := e.journal.changes ++ changes } }

/-! ## The passes -/

/-- Repeats passes until one changes nothing or `extra` more have followed the first.
`done` counts those before. -/
def repeatPasses (c : SimplifyConfig) : Nat → Nat → Expression → Simplification
  | extra, done, e =>
    let p := e.pass c.maxDepth
    let e' := p.result.log p.changes
    let events := Event.passStarted (done + 1) e.text :: p.changes.map (.changeLogged · c.trace)
    match p.tooDeep with
    | some depth => ⟨e', events, .error (.tooDeeplyNested depth c.maxDepth)⟩
    | none =>
      if p.changed then
        match extra with
        | 0 => ⟨e', events, .error (.didNotConverge (done + 1) e'.journal.changes)⟩
        | extra + 1 =>
          let rest := repeatPasses c extra (done + 1) e'
          { rest with events := events ++ rest.events }
      else ⟨e', events ++ [.converged (done + 1)], .ok ()⟩

/-! ## Before and after them -/

/-- Remembers the text when an expression is simplified for the first time. -/
def startLog (e : Expression) : Expression × List Change :=
  match e.journal.firstText with
  | some _ => (e, [])
  | none =>
    let started : List Change := [⟨.start, e.text⟩]
    ({ e with journal := { e.journal with firstText := some e.text } }.log started, started)

/-- Brings the outputs up to date and drops unused inputs. -/
def finish (c : SimplifyConfig) (before e : Expression) : Expression × List Event :=
  let refreshed := refreshOutputs before e
  let renamed := refreshed.renameOutput
  let kept := renamed.dropUnused
  let removed := kept.entries (renamed.unusedInputs.map .removeInput)
  (kept.log removed,
    (match refreshedCount before e with
      | 0 => []
      | count => [.refreshed count]) ++
    (refreshed.renaming?.map (fun (old, new) => Event.renamed old new)).toList ++
    removed.map (.changeLogged · c.trace))

/-- Simplifies an expression. One that is nested too deeply is left as it is. -/
def simplify (c : SimplifyConfig) (e : Expression) : Simplification :=
  if e.depth > c.maxDepth then ⟨e, [], .error (.tooDeeplyNested e.depth c.maxDepth)⟩
  else
    let (started, first) := e.startLog
    let run := repeatPasses c (c.passBudget e.termCount - 1) 0 started
    let events := first.map (.changeLogged · c.trace) ++ run.events
    match run.outcome with
    | .error err => ⟨run.expression, events, .error err⟩
    | .ok () =>
      let (finished, last) := finish c e run.expression
      ⟨finished, events ++ last, .ok ()⟩

end Expression

end SwitchingAlgebra
