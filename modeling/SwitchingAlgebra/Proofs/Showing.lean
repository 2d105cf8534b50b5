-- The text of terms, for the shapes of terms that the parser makes: a pair, a chain that goes on,
-- a negation behind other terms, and a name by itself.
import SwitchingAlgebra.Proofs.Nesting
import SwitchingAlgebra.Rendering

namespace SwitchingAlgebra

theorem joinedText_single (op : Operator) (parens : Bool) (text : String) :
    joinedText op parens [text] none = some (if parens then "(" ++ text ++ ")" else text) := by
  rw [joinedText]
  simp only [Option.toList_none, List.nil_append, String.intercalate_singleton]

/-- Two operands that an operator joins. -/
def pairText (op : Operator) (parens : Bool) (a b : String) : String :=
  if parens then "(" ++ (a ++ op.separator ++ b) ++ ")" else a ++ op.separator ++ b

theorem joinedText_pair (op : Operator) (parens : Bool) {fragments : List String}
    {acc : Option String} {a b : String} (h : acc.toList ++ fragments = [a, b]) :
    joinedText op parens fragments acc = some (pairText op parens a b) := by
  rw [joinedText, h]
  simp only [String.intercalate_cons_cons, String.intercalate_singleton, pairText]

section

variable (scope : Bindings) (parens : Bool) (d : Nat)

/-- All terms but the last stand in parentheses. -/
theorem Term.textAll_concat (ts : List Term) (t : Term) (acc : Option String) :
    Term.textAll scope true parens d (ts ++ [t]) acc =
      Term.textAll scope true parens d [t] (Term.textAll scope true true d ts acc) := by
  induction ts generalizing acc with
  | nil => rfl
  | cons u ts ih =>
    obtain ⟨op, xs⟩ := u
    have more : (!(ts ++ [t]).isEmpty) = true := by simp
    rw [List.cons_append, Term.textAll, Term.textAll, ih, more, Bool.or_true, Bool.true_or]

theorem Term.textAll_pair {op : Operator} (hop : op ≠ .not) (a b : Operand) :
    Term.textAll scope true parens d [⟨op, [a, b]⟩] none =
      some (pairText op parens (a.textIn scope true d) (b.textIn scope true d)) := by
  rw [Term.textAll, if_neg hop, Term.textAll, Operand.textAll, Operand.textAll]
  simp only [List.isEmpty_nil, Bool.not_true, Bool.or_false]
  exact joinedText_pair op parens rfl

variable {scope d} {ts : List Term} {text : String}
  (h : Term.textAll scope true true d ts none = some text)
include h

/-- A chain goes on with one more operand. -/
theorem Term.textAll_chain {op : Operator} (hop : op ≠ .not) (b : Operand) :
    Term.textAll scope true parens d (ts ++ [⟨op, [b]⟩]) none =
      some (pairText op parens text (b.textIn scope true d)) := by
  rw [Term.textAll_concat, h, Term.textAll, if_neg hop, Term.textAll, Operand.textAll]
  simp only [List.isEmpty_nil, Bool.not_true, Bool.or_false]
  exact joinedText_pair op parens rfl

theorem Term.textAll_negated : Term.textAll scope true parens d (ts ++ [⟨.not, []⟩]) none =
    some (Operator.not.glyph.toString ++ text) := by
  rw [Term.textAll_concat, h]
  rfl

end

theorem Term.textAll_name (scope : Bindings) (parens : Bool) (d : Nat) (w : String) :
    Term.textAll scope true parens d [⟨.and, [.input w]⟩] none =
      some (if parens then "(" ++ inputText scope true w ++ ")" else inputText scope true w) := by
  rw [Term.textAll]
  simp only [List.isEmpty_nil, Bool.not_true, Bool.or_false]
  exact joinedText_single .and parens _

/-- What is nested above the deepest level is shown by its terms. -/
theorem Operand.textIn_nested {scope : Bindings} {d : Nat} {e : Expression} {text : String}
    (hd : d < maxNestingDepth)
    (h : Term.textAll (e.scopeIn scope) true true (d + 1) e.terms none = some text) :
    (Operand.nested e).textIn scope true d = text := by
  rw [Operand.textIn, if_neg (by omega)]
  obtain ⟨inputs, ts, outputs, journal⟩ := e
  rw [Expression.textIn, h]
  rfl

/-! ## Texts within the limit -/

/-- The operand has this text, unless it is nested too deep to be shown. -/
def Operand.HasText (scope : Bindings) (d : Nat) (x : Operand) (text : String) : Prop :=
  d + x.level ≤ maxNestingDepth → x.textIn scope true d = text

/-- The terms have this text, unless they are nested too deep to be shown. -/
def Term.HaveText (scope : Bindings) (parens : Bool) (d : Nat) (ts : List Term) (text : String) :
    Prop :=
  (∀ t ∈ ts, ∀ x ∈ t.operands, d + x.level ≤ maxNestingDepth) →
    Term.textAll scope true parens d ts none = some text

section

variable {scope : Bindings} {d : Nat}

theorem Operand.hasText_nested {e : Expression} {text : String}
    (h : Term.HaveText (e.scopeIn scope) true (d + 1) e.terms text) :
    (Operand.nested e).HasText scope d text := by
  intro deep
  rw [level] at deep
  refine textIn_nested (by omega) (h (fun t ht x hx => ?_))
  have := Expression.level_le_depth ht hx
  omega

variable {op : Operator} {b : Operand} {second : String} (hop : op ≠ .not)
  (hb : b.HasText scope d second)

include hop hb in
theorem Term.haveText_pair {a : Operand} {first : String} (ha : a.HasText scope d first)
    (parens : Bool) :
    Term.HaveText scope parens d [⟨op, [a, b]⟩] (pairText op parens first second) := by
  intro levels
  simp only [List.forall_mem_cons] at levels
  rw [Term.textAll_pair scope parens d hop, ha levels.1.1, hb levels.1.2.1]

variable {ts : List Term} {first : String} (h : Term.HaveText scope true d ts first)
include h

include hop hb in
theorem Term.HaveText.chain (parens : Bool) :
    Term.HaveText scope parens d (ts ++ [⟨op, [b]⟩]) (pairText op parens first second) := by
  intro levels
  simp only [List.forall_mem_append, List.forall_mem_cons] at levels
  rw [Term.textAll_chain parens (h levels.1) hop, hb levels.2.1.1]

theorem Term.HaveText.negated (parens : Bool) : Term.HaveText scope parens d (ts ++ [⟨.not, []⟩])
    (Operator.not.glyph.toString ++ first) := by
  intro levels
  rw [List.forall_mem_append] at levels
  exact Term.textAll_negated parens (h levels.1)

end

theorem Expression.text_eq {e : Expression} {text : String}
    (h : Term.textAll e.inputs true false 0 e.terms none = some text) : e.text = text := by
  obtain ⟨inputs, ts, outputs, journal⟩ := e
  change (Term.textAll inputs true false 0 ts none).getD "" = text
  rw [h]
  rfl

end SwitchingAlgebra
