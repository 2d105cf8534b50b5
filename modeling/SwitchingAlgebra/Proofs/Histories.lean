-- Whatever calls lead to binds every name that it mentions. So no evaluation, table or report
-- of it ever meets a name that is not bound.
import SwitchingAlgebra.Formula
import SwitchingAlgebra.Parsing
import SwitchingAlgebra.Report
import SwitchingAlgebra.Proofs.Places
import SwitchingAlgebra.Proofs.SelfBound

namespace SwitchingAlgebra

/-! ## Parsing -/

/-- The expression behind each placeholder is self-bound. -/
def Places.SelfBound (ps : Places) : Prop := ∀ k e, Places.Holds ps k e → e.SelfBound

namespace Expression

theorem SelfBound.foldl_setInverted (names : List String) {e : Expression} (h : e.SelfBound) :
    (names.foldl (fun e n => e.setInverted n true) e).SelfBound := by
  induction names generalizing e with
  | nil => exact h
  | cons name names ih => exact ih (h.setInverted name true)

theorem selfBound_name (w : String) : (empty.append .and [.input w]).SelfBound := by
  refine selfBound_empty.append .and (fun x hx => ?_)
  rw [List.mem_singleton.mp hx]
  exact Operand.selfBound_input w

end Expression

namespace Places

variable {ps ps' : Places}

theorem SelfBound.take (h : Places.SelfBound ps) {k : Nat} {e : Expression}
    (taken : ps.take? k = some (e, ps')) : e.SelfBound ∧ Places.SelfBound ps' :=
  ⟨h k e (holds_of_take? taken), fun j e' he => h j e' (holds_of_take?_holds taken he)⟩

theorem SelfBound.concat (h : Places.SelfBound ps) {e : Expression} (he : e.SelfBound) :
    Places.SelfBound (ps ++ [some e]) := by
  intro k e' hk
  rcases (holds_concat ps e k e').mp hk with hk | ⟨-, rfl⟩
  · exact h k e' hk
  · exact he

end Places

namespace Reduction

variable {mixed : List String} {ps ps' : Places}

theorem selfBound_operand (h : Places.SelfBound ps) {side : Side} {x : Operand}
    {inverted : List String} (read : operand mixed ps side = .ok (x, ps', inverted)) :
    x.SelfBound ∧ Places.SelfBound ps' := by
  cases side with
  | place negated k =>
    simp only [operand] at read
    split at read
    · rename_i e rest taken
      obtain ⟨he, hrest⟩ := h.take taken
      cases read
      refine ⟨Operand.selfBound_nested.mpr ?_, hrest⟩
      split
      · exact he.negate
      · exact he
    · cases read
  | name negated w =>
    simp only [operand] at read
    split at read
    · cases read
      exact ⟨Operand.selfBound_input w, h⟩
    · split at read
      · cases read
        exact ⟨Operand.selfBound_nested.mpr (Expression.selfBound_name w).negate, h⟩
      · cases read
        exact ⟨Operand.selfBound_input w, h⟩

theorem selfBound_extend {e : Expression} (he : e.SelfBound) (op : Operator) {xs : List Operand}
    (hxs : ∀ x ∈ xs, x.SelfBound) (inverted : List String) :
    (extend e op xs inverted).SelfBound :=
  (he.append op hxs).foldl_setInverted inverted

/-- What a triple is read into: the chain on its left with one more term, or a new term. -/
theorem selfBound_readTriple (h : Places.SelfBound ps) {t : Triple} {e : Expression}
    (read : readTriple mixed ps t = .ok (e, ps')) : e.SelfBound ∧ Places.SelfBound ps' := by
  simp only [readTriple] at read
  split at read
  · split at read
    · cases read
    · rename_i chain ps₁ taken
      obtain ⟨hchain, h₁⟩ := h.take taken
      split at read
      · cases read
      · rename_i y ps₂ inverted hy
        obtain ⟨right, h₂⟩ := selfBound_operand h₁ hy
        cases read
        exact ⟨selfBound_extend hchain t.op (by simpa using right) inverted, h₂⟩
  · split at read
    · cases read
    · rename_i x ps₁ inverted₁ hx
      obtain ⟨left, h₁⟩ := selfBound_operand h hx
      split at read
      · cases read
      · rename_i y ps₂ inverted₂ hy
        obtain ⟨right, h₂⟩ := selfBound_operand h₁ hy
        cases read
        refine ⟨selfBound_extend Expression.selfBound_empty t.op ?_ _, h₂⟩
        simpa using ⟨left, right⟩

theorem selfBound_reduce {r r' : Reduction} (h : Places.SelfBound r.places)
    (reduced : r.reduce mixed = .next r') : Places.SelfBound r'.places := by
  unfold reduce at reduced
  split at reduced
  · split at reduced
    · rename_i e ps taken
      obtain ⟨he, hps⟩ := h.take taken
      cases reduced
      exact hps.concat he.negate
    · cases reduced
  · split at reduced
    · split at reduced
      · rename_i e ps read
        obtain ⟨he, hps⟩ := selfBound_readTriple h read
        cases reduced
        exact hps.concat he
      · cases reduced
    · cases reduced

theorem selfBound_step {r r' : Reduction} (h : Places.SelfBound r.places)
    (stepped : r.step mixed = .next r') : Places.SelfBound r'.places := by
  unfold step at stepped
  split at stepped
  · split at stepped <;> cases stepped
  · split at stepped
    · cases stepped
      exact h
    · exact selfBound_reduce h stepped

theorem selfBound_of_done {r : Reduction} (h : Places.SelfBound r.places) {e : Expression}
    (done : r.step mixed = .done e) : e.SelfBound := by
  unfold step at done
  split at done
  · split at done
    · rename_i e' ps taken
      cases done
      exact (h.take taken).1
    · cases done
  · split at done
    · cases done
    · unfold reduce at done
      repeat' split at done
      all_goals cases done

/-- Reading by reduction ends in a self-bound expression. -/
theorem selfBound_run {r : Reduction} (h : Places.SelfBound r.places) {e : Expression}
    (ok : r.run mixed = .ok e) : e.SelfBound := by
  fun_induction run mixed r with
  | case1 r r' stepped _ ih => exact ih (selfBound_step h stepped) ok
  | case2 r e' done => cases ok; exact selfBound_of_done h done
  | case3 r stuck => cases ok
  | case4 r k dangling => cases ok

end Reduction

namespace Expression

theorem selfBound_ofLoneName? {fs : List Fragment} {e : Expression}
    (h : ofLoneName? fs = some e) : e.SelfBound := by
  unfold ofLoneName? at h
  split at h
  · cases h
    exact selfBound_name _
  · cases h
    exact (selfBound_name _).setInverted _ true
  · cases h

theorem selfBound_parse {text : String} {e : Expression} (h : parse text = .ok e) :
    e.SelfBound := by
  unfold parse at h
  split at h
  · cases h
  · cases h
  · split at h
    · rename_i read
      cases h
      simp only [ofFragments] at read
      split at read
      · rename_i lone
        cases read
        exact selfBound_ofLoneName? lone
      · split at read
        · rename_i run
          cases read
          exact Reduction.selfBound_run (by simp [Places.SelfBound, Places.Holds]) run
        · cases read
        · cases read
    · cases h

end Expression

/-! ## Formulas -/

/-- Both forms of a part of a formula are self-bound when what is put in is. -/
theorem Formula.selfBound_build {env : String → Expression} (henv : ∀ place, (env place).SelfBound)
    (mixed : List String) (negated : Bool) (f : Formula) :
    (build env mixed negated f).operand.SelfBound ∧
      (build env mixed negated f).expression.SelfBound := by
  have both : ∀ {e : Expression}, e.SelfBound →
      (Built.ofExpression e).operand.SelfBound ∧ (Built.ofExpression e).expression.SelfBound :=
    fun he => ⟨Operand.selfBound_nested.mpr he, he⟩
  induction f generalizing negated with
  | name n =>
    simp only [build]
    split
    · exact both (Expression.selfBound_name n).negate
    · exact ⟨Operand.selfBound_input n, Expression.selfBound_name n⟩
  | embedded place =>
    have operand := Operand.selfBound_nested.mpr (henv place)
    have single : (Expression.empty.append .and [.nested (env place)]).SelfBound :=
      Expression.selfBound_empty.append .and (by simpa using operand)
    simp only [build]
    split
    · exact both single.negate
    · exact ⟨operand, single⟩
  | group f ih => exact ih negated
  | not f ih => exact ih (!negated)
  | binary op left right ihl ihr =>
    have single : (Expression.empty.append op
        [(build env mixed false left).operand, (build env mixed false right).operand]).SelfBound :=
      Expression.selfBound_empty.append op (by simpa using ⟨(ihl false).1, (ihr false).1⟩)
    simp only [build]
    split
    · exact both single.negate
    · exact both single

theorem Formula.selfBound_toExpression {env : String → Expression}
    (henv : ∀ place, (env place).SelfBound) (f : Formula) : (f.toExpression env).SelfBound :=
  (selfBound_build henv f.mixedNames false f).2.foldl_setInverted f.invertedNames

/-! ## Histories -/

/-- What a history of calls can lead to. Operands are names or come from histories of their
own; only raw terms, which bind no name, are left out. -/
inductive Expression.Obtained : Expression → Prop
  | empty : Obtained .empty
  | parse {text : String} {e : Expression} : parse text = .ok e → Obtained e
  | formula {env : String → Expression} (f : Formula) : (∀ place, Obtained (env place)) →
      Obtained (f.toExpression env)
  | push {e e' : Expression} {op : Operator} {operands : List Operand} : Obtained e →
      (∀ n : Expression, .nested n ∈ operands → Obtained n) →
      e.push op operands = .ok e' → Obtained e'
  | negate {e : Expression} : Obtained e → Obtained e.negate
  | combine {left right : Expression} (op : Operator) : Obtained left → Obtained right →
      Obtained (combine op left right)
  | addLabel {e : Expression} (name : Option String) (inverted : Bool) : Obtained e →
      Obtained (e.addLabel name inverted)
  | assign {e : Expression} (name : String) (v : Bool) : Obtained e → Obtained (e.assign name v)
  | setInverted {e : Expression} (name : String) (flag : Bool) : Obtained e →
      Obtained (e.setInverted name flag)
  | invert {e : Expression} (names : List String) : Obtained e → Obtained (e.invert names)
  /-- A simplification leaves an expression whether it succeeds or is given up. -/
  | simplify {e : Expression} (c : SimplifyConfig) : Obtained e →
      Obtained (e.simplify c).expression
  /-- A request for a table leaves the outputs of the table. -/
  | prepared {e : Expression} : Obtained e → Obtained e.prepared
  | nested {e n : Expression} {t : Term} : Obtained e → t ∈ e.terms → .nested n ∈ t.operands →
      Obtained n
  | snapshot {e : Expression} {o : Output} : Obtained e → o ∈ e.outputs → Obtained o.snapshot

namespace Expression

/-- Every call keeps bindings with the terms that it moves. -/
theorem Obtained.selfBound {e : Expression} (h : e.Obtained) : e.SelfBound := by
  induction h with
  | empty => exact selfBound_empty
  | parse ok => exact selfBound_parse ok
  | formula f _ ih => exact f.selfBound_toExpression ih
  | push _ _ taken ih nested =>
    refine ih.push (fun x hx n hn => ?_) taken
    exact nested n (hn ▸ hx)
  | negate _ ih => exact ih.negate
  | combine op _ _ left right =>
    exact selfBound_empty.append op (by simpa using ⟨left, right⟩)
  | addLabel name inverted _ ih => exact ih.addLabel name inverted
  | assign name v _ ih => exact ih.assign name v
  | setInverted name flag _ ih => exact ih.setInverted name flag
  | invert names _ ih => exact ih.invert names
  | simplify c _ ih => exact ih.simplify c
  | prepared _ ih => exact ih.prepared
  | nested _ ht hn ih => exact Operand.selfBound_nested.mp (ih.operands _ ht _ hn)
  | snapshot _ ho ih => exact ih.outputs _ ho

/-! ## No unbound name -/

theorem SelfBound.valueOf_ne {e : Expression} (h : e.SelfBound) (s : Assignment) (name : String) :
    e.valueOf s ≠ .error (.unknownInput name) := by
  intro failed
  cases error_of_fold_of_binds (s.applyTo_binds h.names) failed

/-- A snapshot sees at least what it binds itself. -/
theorem SelfBound.outputValue_ne {e : Expression} {o : Output} (ho : o.snapshot.SelfBound)
    (k : Nat) (name : String) : e.outputValue o k ≠ .error (.unknownInput name) := by
  intro failed
  have names : (o.snapshot.scopeIn (e.scope (.ofRow e.inputs.names k))).Binds
      o.snapshot.mentions :=
    fun n hn => (Bindings.contains_merge _ _ n).mpr (.inr (ho.names n hn))
  cases error_of_fold_of_binds names failed

theorem SelfBound.outputColumns_ne {e : Expression} (h : e.SelfBound) (name : String) :
    e.outputColumns ≠ .error (.unknownInput name) := by
  intro failed
  obtain ⟨o, ho, column⟩ := error_of_mapM failed
  cases hvalues : (List.range e.rowCount).mapM (e.outputValue o) with
  | ok values =>
    rw [hvalues] at column
    cases column
  | error err =>
    rw [hvalues] at column
    cases column
    obtain ⟨k, -, cell⟩ := error_of_mapM hvalues
    exact (h.outputs o ho).outputValue_ne k name cell

theorem SelfBound.truthColumns_ne {e : Expression} (h : e.SelfBound) (name : String) :
    e.truthColumns ≠ .error (.unknownInput name) := by
  unfold truthColumns
  split
  · rename_i fault many
    unfold countFault? at many
    split at many <;> cases many
    rintro ⟨⟩
  · exact h.withOutputs.outputColumns_ne name

theorem SelfBound.report_ne {e : Expression} (h : e.SelfBound) (s : Assignment) (name : String) :
    e.report s ≠ .error (.unknownInput name) := by
  intro failed
  unfold report at failed
  dsimp only at failed
  split at failed
  · rename_i fault many
    unfold countFault? at many
    split at many <;> cases many
    cases failed
  · cases hlines : (List.range (Nat.pow 2 (e.missingInputs s).length)).mapM (fun k =>
        (e.valueOf (e.completion s k)).map (e.reportLine (e.completion s k))) with
    | ok lines =>
      rw [hlines] at failed
      cases failed
    | error err =>
      rw [hlines] at failed
      cases failed
      obtain ⟨k, -, line⟩ := error_of_mapM hlines
      cases hvalue : e.valueOf (e.completion s k) with
      | ok v =>
        rw [hvalue] at line
        cases line
      | error err =>
        rw [hvalue] at line
        cases line
        exact h.valueOf_ne _ name hvalue

/-- Whatever calls lead to binds every name that it mentions, at every level and in every
snapshot, so no evaluation, table or report of it fails because a name is not bound. -/
theorem obtained_never_unknownInput {e : Expression} (h : e.Obtained) : e.SelfBound ∧
    ∀ name, (∀ s, e.valueOf s ≠ .error (.unknownInput name)) ∧
      e.evaluate ≠ .error (.unknownInput name) ∧ e.truthColumns ≠ .error (.unknownInput name) ∧
      e.truthTable ≠ .error (.unknownInput name) ∧
      ∀ s, e.report s ≠ .error (.unknownInput name) := by
  have bound := h.selfBound
  refine ⟨bound, fun name => ⟨?_, ?_, ?_, ?_, ?_⟩⟩
  · exact fun s => bound.valueOf_ne s name
  · rw [evaluate_eq_valueOf]
    exact bound.valueOf_ne .empty name
  · exact bound.truthColumns_ne name
  · intro failed
    unfold truthTable at failed
    cases hcolumns : e.truthColumns with
    | ok columns =>
      rw [hcolumns] at failed
      cases failed
    | error err =>
      rw [hcolumns] at failed
      cases failed
      exact bound.truthColumns_ne name hcolumns
  · exact fun s => bound.report_ne s name

/-- `(a ∧ b) ∨ (a ∧ c)`, labelled by its negation, simplified, tabulated and inverted. -/
theorem obtained_never_unknownInput_of_distributed :
    let inner := empty.append .and [.input "a", .input "c"]
    let e := ((((((empty.append .and [.input "a", .input "b"]).append .or
      [.nested inner]).addLabel none true).simplify {}).expression.prepared).invert ["b", "d"])
    e.Obtained ∧ e.SelfBound ∧
      ∀ name, (∀ s, e.valueOf s ≠ .error (.unknownInput name)) ∧
        e.evaluate ≠ .error (.unknownInput name) ∧ e.truthColumns ≠ .error (.unknownInput name) ∧
        e.truthTable ≠ .error (.unknownInput name) ∧
        ∀ s, e.report s ≠ .error (.unknownInput name) := by
  intro inner e
  have product : ∀ x y, (empty.append .and [.input x, .input y]).Obtained := by
    intro x y
    have taken : empty.push .and [.input x, .input y] =
        .ok (empty.append .and [.input x, .input y]) := rfl
    exact .push .empty (by simp) taken
  have sum : ((empty.append .and [.input "a", .input "b"]).append .or [.nested inner]).Obtained := by
    have taken : (empty.append .and [.input "a", .input "b"]).push .or [.nested inner] =
        .ok ((empty.append .and [.input "a", .input "b"]).append .or [.nested inner]) := rfl
    refine .push (product "a" "b") (fun n hn => ?_) taken
    rw [List.mem_singleton, Operand.nested.injEq] at hn
    exact hn ▸ product "a" "c"
  have obtained : e.Obtained := .invert _ (.prepared (.simplify _ (.addLabel _ _ sum)))
  exact ⟨obtained, obtained_never_unknownInput obtained⟩

end Expression

end SwitchingAlgebra
