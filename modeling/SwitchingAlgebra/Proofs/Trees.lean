-- The expression that a formula tree stands for is built from the core of the tree, as a nested
-- tree and never as a chain. It binds the same inputs as what the parser reads, and so it has
-- the same text and the same values.
import SwitchingAlgebra.Formula
import SwitchingAlgebra.Proofs.Building
import SwitchingAlgebra.Proofs.Formulas

namespace SwitchingAlgebra

/-! ## The inputs of a core -/

namespace Core

/-- What the names of a core are bound to: none has a value, and a name is inverted when every
use of it is negated. -/
def binding? (x : Core) (n : String) : Option Binding := (x.flags n).map (⟨none, ·⟩)

/-- What a core is read into binds the names of the core, and no others. -/
theorem get?_expression (x : Core) (n : String) :
    (x.expression x.mixedNames).inputs.get? n = x.binding? n := by
  obtain ⟨carries, -⟩ := x.carries (fun _ => flags_plain) (fun _ => flags_negated)
  cases hb : (x.expression x.mixedNames).inputs.get? n with
  | some b =>
    obtain ⟨raw, flag⟩ := carries.flagged n b hb
    rw [binding?, flag, Option.map_some, ← raw]
  | none =>
    cases hflag : x.flags n with
    | none => rw [binding?, hflag, Option.map_none]
    | some flag =>
      -- a name that has a flag is used, and so it is bound
      obtain ⟨negated, used⟩ := mem_uses_of_flags hflag
      have named : n ∈ x.names := (x.mem_names n).mpr (by cases negated <;> simp [used])
      have bound := carries.bound n (((made_expression _ x).mentions n).mpr named)
      rw [Bindings.contains, hb] at bound
      cases bound

theorem binds_expression (x : Core) :
    (x.expression x.mixedNames).inputs.Binds (x.expression x.mixedNames).mentions :=
  (x.carries (fun _ => flags_plain) (fun _ => flags_negated)).1.bound

/-! ## Two expressions of one core -/

/-- Two expressions of one core with the same inputs have the same text and the same values. -/
theorem Made.alike {mixed : List String} {x : Core} {e e' : Expression} (h : x.Made mixed e)
    (h' : x.Made mixed e') (inputs : e.inputs = e'.inputs) (bound : e.inputs.Binds e.mentions)
    (deep : x.height ≤ maxNestingDepth) (binary : x.Binary) :
    e.text = e'.text ∧ ∀ s, e.valueOf s = e'.valueOf s := by
  have depth := Nat.le_trans h.depth deep
  have depth' := Nat.le_trans h'.depth deep
  have bound' : e'.inputs.Binds e'.mentions := by
    intro n hn
    rw [← inputs]
    exact bound n ((h.mentions n).mpr ((h'.mentions n).mp hn))
  constructor
  · have shows : e.inputs.Shows (inputText e.inputs true) x.names :=
      fun n hn => ⟨bound n ((h.mentions n).mpr hn), rfl⟩
    rw [h.text_eq binary shows depth, h'.text_eq binary (inputs ▸ shows) depth', inputs]
  · intro s
    have scopes : e.scope s = e'.scope s := congrArg s.applyTo inputs
    rw [Expression.valueOf_eq_meaning bound depth, Expression.valueOf_eq_meaning bound' depth',
      e.meaning_eq, e'.meaning_eq, h.run_eq, h'.run_eq, scopes]

/-! ## Trees -/

/-- A core as a tree: every pair is a term of its own. -/
def tree (mixed : List String) : Core → Expression
  | .name negated w =>
    let e := Expression.empty.append .and [.input w]
    if negated && mixed.contains w then e.negate else e
  | .pair negated op left right =>
    let e := Expression.empty.append op
      [left.operand mixed (left.tree mixed), right.operand mixed (right.tree mixed)]
    if negated then e.negate else e

theorem made_tree (mixed : List String) (x : Core) : x.Made mixed (x.tree mixed) := by
  induction x with
  | name negated w =>
    rw [tree]
    split
    · rename_i h
      rw [Bool.and_eq_true] at h
      rw [h.1]
      exact .mixed h.2 rfl
    · rename_i h
      exact .name (Bool.not_eq_true _ ▸ h) rfl
  | pair negated op left right ihl ihr =>
    have plain : Made mixed (.pair false op left right) ((pair false op left right).tree mixed) :=
      .nested ihl ihr rfl
    cases negated with
    | false => exact plain
    | true => exact .negated plain rfl

/-- The expression binds the names that it mentions, all of them among `names`, and none to a
value or with its flag set. -/
structure Unset (names : List String) (e : Expression) : Prop where
  bound : e.inputs.Binds e.mentions
  unset : ∀ n b, e.inputs.get? n = some b → b = .unresolved ∧ n ∈ names

theorem Unset.negate {names : List String} {e : Expression} (h : Unset names e) :
    Unset names e.negate where
  bound n hn := by
    rw [Expression.negate, Expression.mentions_append] at hn
    rcases hn with hn | ⟨o, ho, -⟩
    · exact h.bound n hn
    · cases ho
  unset := h.unset

theorem unset_append (op : Operator) {xs : List Operand} {names : List String}
    (bound : ∀ e : Expression, .nested e ∈ xs → e.inputs.Binds e.mentions)
    (unset : ∀ o ∈ xs, ∀ n b, o.Brings n b → b = .unresolved ∧ n ∈ names) :
    Unset names (Expression.empty.append op xs) where
  bound n hn := by
    rw [Expression.mentions_append] at hn
    rcases hn with hn | ⟨o, ho, hn⟩
    · cases hn
    · exact Operand.foldl_bindInto_binds _ bound ho n hn
  unset n b hb := by
    have hb : (xs.foldl Operand.bindInto .empty).get? n = some b := hb
    rcases Operand.get?_foldl_bindInto hb with hb | ⟨o, ho, hb⟩
    · cases hb
    · exact unset o ho n b hb

theorem Unset.brings {mixed : List String} {x : Core} {e : Expression} (h : Unset x.names e)
    {n : String} {b : Binding} (hb : (x.operand mixed e).Brings n b) :
    b = .unresolved ∧ n ∈ x.names := by
  cases x with
  | name negated w =>
    rw [operand] at hb
    split at hb
    · exact h.unset n b hb
    · exact ⟨hb.2, by simp [names, hb.1]⟩
  | pair _ _ _ _ => exact h.unset n b hb

theorem eq_of_operand_nested {mixed : List String} {x : Core} {e e' : Expression}
    (h : x.operand mixed e = .nested e') : e' = e := by
  cases x with
  | name negated w =>
    rw [operand] at h
    split at h
    · exact (Operand.nested.inj h).symm
    · cases h
  | pair _ _ _ _ => exact (Operand.nested.inj h).symm

theorem unset_tree (mixed : List String) (x : Core) : Unset x.names (x.tree mixed) := by
  induction x with
  | name negated w =>
    have plain : Unset [w] (Expression.empty.append .and [.input w]) := by
      refine unset_append .and (by simp) ?_
      rintro o ho n b hb
      rw [List.mem_singleton.mp ho] at hb
      exact ⟨hb.2, by simp [hb.1]⟩
    rw [tree]
    split
    · exact plain.negate
    · exact plain
  | pair negated op left right ihl ihr =>
    have plain : Unset (pair negated op left right).names (Expression.empty.append op
        [left.operand mixed (left.tree mixed), right.operand mixed (right.tree mixed)]) := by
      refine unset_append op ?_ ?_
      · intro e he
        rcases List.mem_cons.mp he with he | he
        · rw [eq_of_operand_nested he.symm]
          exact ihl.bound
        · rw [eq_of_operand_nested (List.mem_singleton.mp he).symm]
          exact ihr.bound
      · intro o ho n b hb
        rw [names, List.mem_append]
        rcases List.mem_cons.mp ho with rfl | ho
        · exact ⟨(ihl.brings hb).1, .inl (ihl.brings hb).2⟩
        · rw [List.mem_singleton.mp ho] at hb
          exact ⟨(ihr.brings hb).1, .inr (ihr.brings hb).2⟩
    rw [tree]
    split
    · exact plain.negate
    · exact plain

/-- A tree with the names inverted that are used negated only. -/
def invertedTree (x : Core) : Expression :=
  ((x.uses true).filter (!x.mixedNames.contains ·)).foldl (fun e n => e.setInverted n true)
    (x.tree x.mixedNames)

theorem made_invertedTree (x : Core) : x.Made x.mixedNames x.invertedTree :=
  (made_tree x.mixedNames x).of_terms (Expression.terms_foldl_setInverted _ _)

theorem get?_invertedTree (x : Core) (n : String) :
    x.invertedTree.inputs.get? n = x.binding? n := by
  have tree := x.unset_tree x.mixedNames
  have entry : (x.tree x.mixedNames).inputs.get? n =
      if n ∈ x.names then some .unresolved else none := by
    cases hb : (x.tree x.mixedNames).inputs.get? n with
    | some b =>
      obtain ⟨rfl, named⟩ := tree.unset n b hb
      rw [if_pos named]
    | none =>
      rw [if_neg]
      intro named
      have bound := tree.bound n (((made_tree _ x).mentions n).mpr named)
      rw [Bindings.contains, hb] at bound
      cases bound
  rw [invertedTree, Expression.get?_foldl_setInverted, entry, binding?, flags]
  by_cases plain : n ∈ x.uses false <;> by_cases negated : n ∈ x.uses true <;>
    simp [mem_names, mixedNames, plain, negated, Binding.unresolved, Binding.setInverted]

/-- A core as a tree and as it is read bind the same inputs, and have the same text and the
same values. -/
theorem invertedTree_alike (x : Core) (deep : x.height ≤ maxNestingDepth) (binary : x.Binary) :
    let e := x.expression x.mixedNames
    e.text = x.invertedTree.text ∧ e.inputs = x.invertedTree.inputs ∧
      ∀ s, e.valueOf s = x.invertedTree.valueOf s := by
  have inputs : (x.expression x.mixedNames).inputs = x.invertedTree.inputs :=
    Bindings.ext_get? (fun n => (x.get?_expression n).trans (x.get?_invertedTree n).symm)
  obtain ⟨text, values⟩ :=
    (made_expression _ x).alike x.made_invertedTree inputs x.binds_expression deep binary
  exact ⟨text, inputs, values⟩

end Core

/-! ## Formula trees -/

mutual

/-- A phrase as a formula tree. -/
def Phrase.formula : Phrase String → Formula
  | .atom n => .name n
  | .negated p => .not p.formula
  | .group s => .group s.formula

/-- A sentence as a formula tree, associated to the left. -/
def Sentence.formula : Sentence String → Formula
  | .single p => p.formula
  | .extend s op p => .binary op s.formula p.formula

end

/-- A core behind an odd number of negations, or an even number. -/
def Core.after (negated : Bool) (x : Core) : Core := if negated then x.negate else x

theorem Core.after_negate (negated : Bool) (x : Core) :
    x.negate.after negated = x.after (!negated) := by
  cases negated
  · rfl
  · exact x.negate_negate

mutual

theorem Phrase.namesUsed_formula (negated after : Bool) : ∀ p : Phrase String,
    p.formula.namesUsed negated after = (p.core.after after).uses negated
  | .atom n => by cases after <;> rfl
  | .negated p => (Phrase.namesUsed_formula negated (!after) p).trans
      (congrArg (Core.uses negated) (p.core.after_negate after).symm)
  | .group s => Sentence.namesUsed_formula negated after s

theorem Sentence.namesUsed_formula (negated after : Bool) : ∀ s : Sentence String,
    s.formula.namesUsed negated after = (s.core.after after).uses negated
  | .single p => Phrase.namesUsed_formula negated after p
  | .extend s op p => by
    have first := Sentence.namesUsed_formula negated false s
    have second := Phrase.namesUsed_formula negated false p
    have both : (Sentence.extend s op p).formula.namesUsed negated after =
        s.core.uses negated ++ p.core.uses negated := congrArg₂ (· ++ ·) first second
    rw [both]
    cases after <;> rfl

end

section

variable (env : String → Expression) (mixed : List String)

mutual

/-- A part of a formula is built as the tree of its core. -/
theorem Phrase.build_formula (negated : Bool) : ∀ p : Phrase String,
    let x := p.core.after negated
    Formula.build env mixed negated p.formula = ⟨x.operand mixed (x.tree mixed), x.tree mixed⟩
  | .atom n => by
    cases negated with
    | false => rfl
    | true =>
      have core : (Phrase.atom n).core.after true = .name true n := rfl
      by_cases hmixed : mixed.contains n
      · simp only [core, Phrase.formula, Formula.build, Core.operand, Core.tree, hmixed]
        rfl
      · simp only [core, Phrase.formula, Formula.build, Core.operand, Core.tree, hmixed]
        rfl
  | .negated p => by
    have inside := Phrase.build_formula (!negated) p
    rw [← p.core.after_negate negated] at inside
    exact inside
  | .group s => Sentence.build_formula negated s

theorem Sentence.build_formula (negated : Bool) : ∀ s : Sentence String,
    let x := s.core.after negated
    Formula.build env mixed negated s.formula = ⟨x.operand mixed (x.tree mixed), x.tree mixed⟩
  | .single p => Phrase.build_formula negated p
  | .extend s op p => by
    have first := Sentence.build_formula false s
    have second := Phrase.build_formula false p
    simp only [Sentence.formula, Formula.build, first, second]
    cases negated <;> rfl

end

/-- The expression of a formula tree is the tree of its core, with the inverted names. -/
theorem Sentence.toExpression_formula (s : Sentence String) :
    s.formula.toExpression env = s.core.invertedTree := by
  have mixed : s.formula.mixedNames = s.core.mixedNames := by
    rw [Formula.mixedNames, Core.mixedNames, s.namesUsed_formula, s.namesUsed_formula]
    rfl
  have inverted : s.formula.invertedNames =
      (s.core.uses true).filter (!s.core.mixedNames.contains ·) := by
    rw [Formula.invertedNames, mixed, s.namesUsed_formula]
    rfl
  have built := s.build_formula env s.core.mixedNames false
  rw [Formula.toExpression, inverted, mixed, built]
  rfl

end

/-! ## Nested operators -/

mutual

/-- How deep binary operators are nested. -/
def Phrase.operatorNesting {α : Type} : Phrase α → Nat
  | .atom _ => 0
  | .negated p => p.operatorNesting
  | .group s => s.operatorNesting

/-- How deep binary operators are nested: an operator lies a level above both its operands, of
which all that came before is the first. -/
def Sentence.operatorNesting {α : Type} : Sentence α → Nat
  | .single p => p.operatorNesting
  | .extend s _ p => max s.operatorNesting p.operatorNesting + 1

end

theorem Core.height_negate (x : Core) : x.negate.height = x.height := by
  cases x <;> rfl

mutual

theorem Phrase.height_core : ∀ p : Phrase String, p.core.height = p.operatorNesting
  | .atom _ => rfl
  | .negated p => p.core.height_negate.trans (Phrase.height_core p)
  | .group s => Sentence.height_core s

theorem Sentence.height_core : ∀ s : Sentence String, s.core.height = s.operatorNesting
  | .single p => Phrase.height_core p
  | .extend s _ p =>
    congrArg₂ (max · · + 1) (Sentence.height_core s) (Phrase.height_core p)

end

end SwitchingAlgebra
