-- What a core is read into is worth what the core is: it has its value, binds its names with
-- the flags that they should have, and is not nested deeper.
import SwitchingAlgebra.Proofs.Bound
import SwitchingAlgebra.Proofs.Core

namespace SwitchingAlgebra

/-! ## Worth -/

/-- What a formula is worth: its value for all values of the names, and the depth of the
expression that it is read into. -/
structure Worth where
  value : (String → Bool) → Bool
  level : Nat

namespace Worth

/-- The worth under a negation. -/
def negate (x : Worth) : Worth := ⟨fun v => !x.value v, x.level⟩

/-- The worth of two operands. The second lies a level below. -/
def join (op : Operator) (x y : Worth) : Worth :=
  ⟨fun v => op.apply (x.value v) (y.value v), max x.level (y.level + 1)⟩

theorem negate_negate (x : Worth) : x.negate.negate = x := by
  obtain ⟨value, level⟩ := x
  simp [negate]

end Worth

/-! ## Expressions that carry a worth -/

/-- The inversion flag of each name of a formula. -/
abbrev Flags := String → Option Bool

/-- The effective values of names that have these raw values. -/
def Flags.values (flags : Flags) (v : String → Bool) : Valuation :=
  fun n => (flags n).map (v n != ·)

/-- A name that is used plain is not inverted. -/
def Flags.Plain (flags : Flags) (w : String) : Prop := flags w = some false

/-- A name that is used negated is inverted, unless it is used plain too. -/
def Flags.Negated (flags : Flags) (mixed : List String) (w : String) : Prop :=
  flags w = some (!mixed.contains w)

/-- The expression has this worth, and its inputs are flagged as they should be. -/
structure Expression.Carries (flags : Flags) (x : Worth) (e : Expression) : Prop where
  bound : e.inputs.Binds e.mentions
  flagged : ∀ n b, e.inputs.get? n = some b → b.raw = none ∧ flags n = some b.inverted
  value : ∀ v, e.run (flags.values v) = .known (x.value v)
  depth : e.depth ≤ x.level

/-- The operand has this worth once the names `inverted` are inverted. -/
structure Operand.Carries (flags : Flags) (x : Worth) (inverted : List String) (o : Operand) :
    Prop where
  bound : ∀ e : Expression, o = .nested e → e.inputs.Binds e.mentions
  flagged : ∀ n b, o.Brings n b → b.raw = none ∧ (flags n = some b.inverted ∨ n ∈ inverted)
  inverts : ∀ n ∈ inverted, flags n = some true
  value : ∀ v, o.meaning (flags.values v) = some (x.value v)
  level : o.level ≤ x.level + 1

section

variable {flags : Flags} {x y : Worth}

theorem Expression.Carries.nested {e : Expression} (h : e.Carries flags x) :
    (Operand.nested e).Carries flags x [] where
  bound e' he' := by
    cases he'
    exact h.bound
  flagged n b hb := ⟨(h.flagged n b hb).1, .inl (h.flagged n b hb).2⟩
  inverts := by simp
  value v := by
    rw [Operand.meaning_nested, Expression.meaning_eq, h.value]
    rfl
  level := Nat.succ_le_succ h.depth

theorem Operand.Carries.mono {o : Operand} {inverted names : List String}
    (h : o.Carries flags x inverted) (sub : ∀ n ∈ inverted, n ∈ names)
    (hnames : ∀ n ∈ names, flags n = some true) : o.Carries flags x names where
  bound := h.bound
  flagged n b hb := ⟨(h.flagged n b hb).1, (h.flagged n b hb).2.imp id (sub n)⟩
  inverts := hnames
  value := h.value
  level := h.level

/-- Negating what is folded so far negates the worth. -/
theorem Expression.Carries.negate {e : Expression} (h : e.Carries flags x) :
    e.negate.Carries flags x.negate where
  bound n hn := by
    rw [Expression.negate, mentions_append] at hn
    rcases hn with hn | ⟨o, ho, _⟩
    · exact h.bound n hn
    · cases ho
  flagged := h.flagged
  value v := by
    have hrun := h.value v
    unfold Expression.run at hrun ⊢
    rw [Expression.negate, Expression.append, Term.runAll_append, hrun]
    rfl
  depth := by
    have below := (e.depth_le x.level).mp h.depth
    apply (Expression.depth_le _ _).mpr
    intro t ht o ho
    rcases List.mem_append.mp ht with ht | ht
    · exact below t ht o ho
    · rw [List.mem_singleton.mp ht] at ho
      cases ho

namespace Reduction

/-! ## One term -/

theorem bound_extend {e : Expression} {op : Operator} {xs : List Operand} {inverted : List String}
    (he : e.inputs.Binds e.mentions)
    (hxs : ∀ e' : Expression, .nested e' ∈ xs → e'.inputs.Binds e'.mentions) :
    (extend e op xs inverted).inputs.Binds (extend e op xs inverted).mentions := by
  intro n hn
  rw [Expression.mentions_of_terms (e := e.append op xs) (terms_extend e op xs inverted),
    Expression.mentions_append] at hn
  apply contains_extend
  rcases hn with hn | ⟨o, ho, hn⟩
  · exact Operand.contains_foldl_bindInto xs (he n hn)
  · exact Operand.foldl_bindInto_binds e.inputs hxs ho n hn

theorem flagged_extend {e : Expression} {op : Operator} {xs : List Operand}
    {inverted : List String} (hinv : ∀ n ∈ inverted, flags n = some true)
    (he : ∀ n b, e.inputs.get? n = some b → b.raw = none ∧ flags n = some b.inverted)
    (hxs : ∀ o ∈ xs, ∀ n b, o.Brings n b →
      b.raw = none ∧ (flags n = some b.inverted ∨ n ∈ inverted)) :
    ∀ n b, (extend e op xs inverted).inputs.get? n = some b →
      b.raw = none ∧ flags n = some b.inverted := by
  have brought : ∀ n b, (xs.foldl Operand.bindInto e.inputs).get? n = some b →
      b.raw = none ∧ (flags n = some b.inverted ∨ n ∈ inverted) := by
    intro n b hb
    rcases Operand.get?_foldl_bindInto hb with hb | ⟨o, ho, hb⟩
    · exact ⟨(he n b hb).1, .inl (he n b hb).2⟩
    · exact hxs o ho n b hb
  intro n b hb
  rw [get?_extend] at hb
  split at hb
  · rename_i hn
    cases hb
    refine ⟨?_, hinv n hn⟩
    cases hm : (xs.foldl Operand.bindInto e.inputs).get? n with
    | none => rfl
    | some b => exact (brought n b hm).1
  · rename_i hn
    obtain ⟨raw, flag⟩ := brought n b hb
    exact ⟨raw, flag.resolve_right hn⟩

theorem depth_extend (e : Expression) (op : Operator) (xs : List Operand) (inverted : List String)
    (d : Nat) : (extend e op xs inverted).depth ≤ d ↔ e.depth ≤ d ∧ ∀ o ∈ xs, o.level ≤ d := by
  rw [Expression.depth_le, Expression.depth_le, terms_extend]
  constructor
  · intro h
    refine ⟨?_, h ⟨op, xs⟩ (List.mem_append_right _ (List.mem_singleton_self _))⟩
    intro t ht
    exact h t (List.mem_append_left _ ht)
  · rintro ⟨h, hxs⟩ t ht
    rcases List.mem_append.mp ht with ht | ht
    · exact h t ht
    · rw [List.mem_singleton.mp ht]
      exact hxs

theorem run_extend (e : Expression) (op : Operator) (xs : List Operand) (inverted : List String)
    (v : Valuation) : (extend e op xs inverted).run v =
      (e.run v).step op (xs.map (Operand.meaning v)) := by
  rw [Expression.run, terms_extend, Term.runAll_append, Term.runAll_cons, Term.runAll_nil]
  rfl

theorem step_known (op : Operator) (a b : Bool) :
    Running.step op [some b] (.known a) = .known (op.apply a b) := by
  cases op <;> rfl

theorem step_blank (op : Operator) (a b : Bool) :
    Running.step op [some a, some b] .blank = .known (op.apply a b) := by
  cases op <;> rfl

/-- The next term of a chain. -/
theorem carries_chain {e : Expression} {o : Operand} {inverted : List String} (op : Operator)
    (he : e.Carries flags x) (ho : o.Carries flags y inverted) :
    (extend e op [o] inverted).Carries flags (.join op x y) where
  bound := by
    apply bound_extend he.bound
    intro e' he'
    exact ho.bound e' (List.mem_singleton.mp he').symm
  flagged := by
    apply flagged_extend ho.inverts he.flagged
    intro o' ho'
    rw [List.mem_singleton.mp ho']
    exact ho.flagged
  value v := by
    rw [run_extend, he.value, List.map_singleton, ho.value, step_known]
    rfl
  depth := by
    have first := he.depth
    have second := ho.level
    refine (depth_extend e op [o] inverted _).mpr ⟨?_, ?_⟩
    · simp only [Worth.join]
      omega
    · intro o' ho'
      rw [List.mem_singleton.mp ho']
      simp only [Worth.join]
      omega

/-- The first term of a chain. -/
theorem carries_first {a b : Operand} {inverted names : List String} (op : Operator)
    (ha : a.Carries flags x inverted) (hb : b.Carries flags y names) (low : a.level ≤ 1) :
    (extend .empty op [a, b] (inverted ++ names)).Carries flags (.join op x y) := by
  have inverts : ∀ n ∈ inverted ++ names, flags n = some true := by
    intro n hn
    exact (List.mem_append.mp hn).elim (ha.inverts n) (hb.inverts n)
  have ha' := ha.mono (fun n hn => List.mem_append_left names hn) inverts
  have hb' := hb.mono (fun n hn => List.mem_append_right inverted hn) inverts
  constructor
  · apply bound_extend (fun n hn => by cases hn)
    intro e' he'
    rcases List.mem_cons.mp he' with h | h
    · exact ha.bound e' h.symm
    · exact hb.bound e' (List.mem_singleton.mp h).symm
  · apply flagged_extend inverts (fun n b hb => by cases hb)
    intro o ho
    rcases List.mem_cons.mp ho with rfl | h
    · exact ha'.flagged
    · rw [List.mem_singleton.mp h]
      exact hb'.flagged
  · intro v
    rw [run_extend, List.map_cons, List.map_singleton, ha.value, hb.value]
    exact step_blank op _ _
  · have second := hb.level
    refine (depth_extend .empty op [a, b] _ _).mpr ⟨Nat.zero_le _, ?_⟩
    intro o ho
    rcases List.mem_cons.mp ho with rfl | h
    · simp only [Worth.join]
      omega
    · rw [List.mem_singleton.mp h]
      simp only [Worth.join]
      omega

/-! ## Single operands -/

theorem carries_input {w : String} {flag : Bool} (h : flags w = some flag) :
    (Operand.input w).Carries flags ⟨fun v => v w != flag, 0⟩ (if flag then [w] else []) where
  bound := by simp
  flagged := by
    rintro n b ⟨rfl, rfl⟩
    refine ⟨rfl, ?_⟩
    cases flag with
    | false => exact .inl h
    | true => exact .inr (by simp)
  inverts n hn := by
    cases flag with
    | false => simp at hn
    | true => rwa [List.mem_singleton.mp hn]
  value v := by
    rw [Operand.meaning_input, Flags.values, h]
    rfl
  level := Nat.zero_le _

/-- A term of one operand. -/
theorem carries_single {o : Operand} {inverted : List String} (ho : o.Carries flags y inverted)
    (low : o.level ≤ y.level) : (extend .empty .and [o] inverted).Carries flags y where
  bound := by
    apply bound_extend (fun n hn => by cases hn)
    intro e' he'
    exact ho.bound e' (List.mem_singleton.mp he').symm
  flagged := by
    apply flagged_extend ho.inverts (fun n b hb => by cases hb)
    intro o' ho'
    rw [List.mem_singleton.mp ho']
    exact ho.flagged
  value v := by
    rw [run_extend, List.map_singleton, ho.value]
    rfl
  depth := by
    refine (depth_extend .empty .and [o] inverted _).mpr ⟨Nat.zero_le _, ?_⟩
    intro o' ho'
    rw [List.mem_singleton.mp ho']
    exact low

theorem carries_name {w : String} (h : flags w = some false) :
    (Expression.empty.append .and [.input w]).Carries flags ⟨fun v => v w, 0⟩ := by
  have input : (Operand.input w).Carries flags ⟨fun v => v w, 0⟩ [] := by
    simpa using carries_input h
  exact carries_single input (Nat.zero_le _)

theorem carries_inverted_name {w : String} (h : flags w = some true) :
    ((Expression.empty.append .and [.input w]).setInverted w true).Carries flags
      ⟨fun v => !v w, 0⟩ := by
  have input : (Operand.input w).Carries flags ⟨fun v => !v w, 0⟩ [w] := by
    simpa using carries_input h
  exact carries_single input (Nat.zero_le _)

end Reduction

end

/-! ## The worth of a core -/

namespace Core

/-- What a core is worth. -/
def worth : Core → Worth
  | .name negated w => ⟨fun v => v w != negated, 0⟩
  | .pair negated op left right =>
    let x := Worth.join op left.worth right.worth
    if negated then x.negate else x

theorem worth_negate (x : Core) : x.negate.worth = x.worth.negate := by
  cases x with
  | name negated w => cases negated <;> simp [negate, worth, Worth.negate]
  | pair negated op left right =>
    cases negated with
    | false => rfl
    | true => exact (Worth.negate_negate _).symm

section

variable {flags : Flags} {mixed : List String}

/-- The expression of a core carries what the core is worth, and as an operand it does so
once its name is inverted. -/
theorem carries (x : Core) (pos : ∀ w ∈ x.uses false, flags.Plain w)
    (neg : ∀ w ∈ x.uses true, flags.Negated mixed w) :
    (x.expression mixed).Carries flags x.worth ∧
      (x.operand mixed (x.expression mixed)).Carries flags x.worth (x.inverted mixed) := by
  induction x with
  | name negated w =>
    cases negated with
    | false =>
      have flag : flags w = some false := pos w (by simp [uses])
      have input : (Operand.input w).Carries flags ⟨fun v => v w, 0⟩ [] := by
        simpa using Reduction.carries_input flag
      simpa [worth] using ⟨Reduction.carries_name flag, input⟩
    | true =>
      have flag : flags w = some (!mixed.contains w) := neg w (by simp [uses])
      by_cases hmixed : mixed.contains w
      · rw [hmixed] at flag
        have negated := (Reduction.carries_name flag).negate
        simp only [expression, operand, inverted, hmixed]
        simpa [worth, Worth.negate] using ⟨negated, negated.nested⟩
      · rw [Bool.not_eq_true] at hmixed
        rw [hmixed] at flag
        have input : (Operand.input w).Carries flags ⟨fun v => !v w, 0⟩ [w] := by
          simpa using Reduction.carries_input flag
        simp only [expression, operand, inverted, hmixed]
        simpa [worth] using ⟨Reduction.carries_inverted_name flag, input⟩
  | pair negated op left right ihl ihr =>
    simp only [uses, List.mem_append] at pos neg
    obtain ⟨hl, hl'⟩ := ihl (fun w hw => pos w (.inl hw)) (fun w hw => neg w (.inl hw))
    obtain ⟨-, hr'⟩ := ihr (fun w hw => pos w (.inr hw)) (fun w hw => neg w (.inr hw))
    have plain : ((pair false op left right).expression mixed).Carries flags
        (.join op left.worth right.worth) := by
      cases left with
      | name n w =>
        refine Reduction.carries_first op hl' hr' ?_
        simp only [operand]
        split
        · exact Nat.succ_le_succ hl.depth
        · exact Nat.zero_le _
      | pair n op' l r => exact Reduction.carries_chain op hl hr'
    have whole : ((pair negated op left right).expression mixed).Carries flags
        (pair negated op left right).worth := by
      cases negated with
      | false => exact plain
      | true => exact plain.negate
    exact ⟨whole, whole.nested⟩

end

/-- The flags of the names of a core: a name is inverted when every use of it is negated. -/
def flags (x : Core) : Flags := fun n =>
  if n ∈ x.uses false then some false
  else if n ∈ x.uses true then some true
  else none

theorem mem_uses_of_flags {x : Core} {n : String} {flag : Bool} (h : x.flags n = some flag) :
    ∃ negated, n ∈ x.uses negated := by
  unfold flags at h
  split at h
  · exact ⟨false, ‹_›⟩
  · split at h
    · exact ⟨true, ‹_›⟩
    · cases h

theorem flags_plain {x : Core} {w : String} (h : w ∈ x.uses false) : x.flags.Plain w := by
  simp [Flags.Plain, flags, h]

theorem flags_negated {x : Core} {w : String} (h : w ∈ x.uses true) :
    x.flags.Negated x.mixedNames w := by
  unfold Flags.Negated flags
  by_cases hplain : w ∈ x.uses false <;> simp [mixedNames, h, hplain]

end Core

end SwitchingAlgebra
