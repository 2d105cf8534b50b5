-- The weight of an expression, and what the laws do to it. No law makes an expression
-- heavier, and each but sorting makes it lighter where it acts. Distribution adds levels, but
-- an operand that it no longer writes twice weighs more than they do.
import Mathlib.Algebra.Order.BigOperators.Group.List
import Mathlib.Algebra.Order.Ring.Nat
import SwitchingAlgebra.Proofs.Settled

namespace SwitchingAlgebra

/-! ## Weights -/

/-- No term has an operand. -/
def Expression.isBare (e : Expression) : Bool := e.terms.all (·.operands.isEmpty)

mutual

/-- The weight of all terms. -/
def Expression.weight : Expression → Nat
  | { terms, .. } => Term.weightAll terms

/-- A term weighs one more than its operands. -/
def Term.weightAll : List Term → Nat
  | [] => 0
  | ⟨_, operands⟩ :: ts => 1 + Operand.weightAll operands + Term.weightAll ts

/-- A name weighs 4. A nested expression weighs one more than its terms, and never less than
a name. -/
def Operand.weightAll : List Operand → Nat
  | [] => 0
  | .input _ :: xs => 4 + Operand.weightAll xs
  | .nested e :: xs => 1 + e.weight + (if e.isBare then 4 else 0) + Operand.weightAll xs

end

def Operand.weight (x : Operand) : Nat := Operand.weightAll [x]

def Term.weight (t : Term) : Nat := 1 + Operand.weightAll t.operands

namespace Operand

@[simp] theorem weightAll_nil : weightAll [] = 0 := rfl

@[simp] theorem weightAll_cons (x : Operand) (xs : List Operand) :
    weightAll (x :: xs) = x.weight + weightAll xs := by
  cases x <;> simp [weight, weightAll]

theorem weightAll_eq_sum (xs : List Operand) : weightAll xs = (xs.map weight).sum := by
  induction xs with
  | nil => rfl
  | cons x xs ih => simp [ih]

@[simp] theorem weightAll_append (xs ys : List Operand) :
    weightAll (xs ++ ys) = weightAll xs + weightAll ys := by
  simp [weightAll_eq_sum]

theorem weightAll_perm {xs ys : List Operand} (h : xs.Perm ys) : weightAll xs = weightAll ys := by
  rw [weightAll_eq_sum, weightAll_eq_sum]
  exact (h.map weight).sum_nat

/-- What a check takes and what it leaves make up the whole. -/
theorem weightAll_filter (p : Operand → Bool) (xs : List Operand) :
    weightAll (xs.filter p) + weightAll (xs.filter (!p ·)) = weightAll xs := by
  rw [← weightAll_append]
  exact weightAll_perm (List.filter_append_perm p xs)

theorem weight_le_weightAll {x : Operand} {xs : List Operand} (h : x ∈ xs) :
    x.weight ≤ weightAll xs := by
  rw [weightAll_eq_sum]
  exact List.le_sum_of_mem (List.mem_map_of_mem h)

theorem weightAll_sublist {xs ys : List Operand} (h : xs.Sublist ys) :
    weightAll xs ≤ weightAll ys := by
  rw [weightAll_eq_sum, weightAll_eq_sum]
  exact (h.map weight).sum_le_sum (fun _ _ => Nat.zero_le _)

theorem weight_nested (e : Expression) :
    (nested e).weight = 1 + e.weight + if e.isBare then 4 else 0 := by
  simp [weight, weightAll]

end Operand

namespace Term

@[simp] theorem weightAll_nil : weightAll [] = 0 := rfl

@[simp] theorem weightAll_cons (t : Term) (ts : List Term) :
    weightAll (t :: ts) = t.weight + weightAll ts := by
  cases t
  rfl

theorem weightAll_eq_sum (ts : List Term) : weightAll ts = (ts.map weight).sum := by
  induction ts with
  | nil => rfl
  | cons t ts ih => simp [ih]

@[simp] theorem weightAll_append (ts us : List Term) :
    weightAll (ts ++ us) = weightAll ts + weightAll us := by
  simp [weightAll_eq_sum]

theorem weightAll_sublist {ts us : List Term} (h : ts.Sublist us) :
    weightAll ts ≤ weightAll us := by
  rw [weightAll_eq_sum, weightAll_eq_sum]
  exact (h.map weight).sum_le_sum (fun _ _ => Nat.zero_le _)

end Term

theorem Expression.weight_eq (e : Expression) : e.weight = Term.weightAll e.terms := by
  cases e
  rfl

theorem Expression.not_isBare {e : Expression} {t : Term} (ht : t ∈ e.terms)
    (h : t.operands ≠ []) : ¬ e.isBare := by
  intro bare
  exact h (List.isEmpty_iff.mp (List.all_eq_true.mp bare t ht))

/-- Nothing is lighter than a name. -/
theorem Operand.four_le_weight (x : Operand) : 4 ≤ x.weight := by
  induction x using Operand.induct with
  | input n => exact Nat.le_refl 4
  | nested e ih =>
    rw [weight_nested]
    by_cases bare : e.isBare
    · rw [if_pos bare]
      omega
    · obtain ⟨t, ht, hne⟩ : ∃ t ∈ e.terms, t.operands ≠ [] := by
        simpa [Expression.isBare] using bare
      obtain ⟨x, hx⟩ := List.exists_mem_of_ne_nil _ hne
      have operand := weight_le_weightAll hx
      have term : t.weight ≤ e.weight := by
        rw [e.weight_eq, Term.weightAll_eq_sum]
        exact List.le_sum_of_mem (List.mem_map_of_mem ht)
      have light := ih t ht x hx
      unfold Term.weight at term
      omega

/-! ## Lighter and not heavier -/

namespace Expression

/-- Not heavier, also as an operand. -/
structure NoHeavier (e' e : Expression) : Prop where
  weight : e'.weight ≤ e.weight
  bare : e'.isBare → e.isBare

theorem NoHeavier.refl (e : Expression) : e.NoHeavier e := ⟨Nat.le_refl _, id⟩

theorem NoHeavier.trans {e e' e'' : Expression} (h' : e''.NoHeavier e') (h : e'.NoHeavier e) :
    e''.NoHeavier e :=
  ⟨Nat.le_trans h'.weight h.weight, fun bare => h.bare (h'.bare bare)⟩

/-- Lighter, also as an operand. -/
structure Lighter (e' e : Expression) : Prop where
  weight : e'.weight < e.weight
  bare : e'.isBare → e.isBare

theorem Lighter.noHeavier {e e' : Expression} (h : e'.Lighter e) : e'.NoHeavier e :=
  ⟨Nat.le_of_lt h.weight, h.bare⟩

theorem NoHeavier.trans_lighter {e e' e'' : Expression} (h' : e''.NoHeavier e')
    (h : e'.Lighter e) : e''.Lighter e :=
  ⟨Nat.lt_of_le_of_lt h'.weight h.weight, fun bare => h.bare (h'.bare bare)⟩

theorem lighter_of_operands {e e' : Expression} {t : Term} (weight : e'.weight < e.weight)
    (ht : t ∈ e'.terms) (h : t.operands ≠ []) : e'.Lighter e :=
  ⟨weight, fun bare => absurd bare (not_isBare ht h)⟩

/-- A step that leaves nothing heavier, and has done nothing where the weight is the same. -/
structure Eases (e e' : Expression) (steps : List Step) : Prop where
  noHeavier : e'.NoHeavier e
  unchanged : e.weight ≤ e'.weight → e' = e ∧ steps = []

theorem Eases.same (e : Expression) : e.Eases e [] := ⟨.refl e, fun _ => ⟨rfl, rfl⟩⟩

theorem Lighter.eases {e e' : Expression} (h : e'.Lighter e) (steps : List Step) :
    e.Eases e' steps := by
  refine ⟨h.noHeavier, fun same => ?_⟩
  have less := h.weight
  omega

theorem Eases.andThen {e e' e'' : Expression} {steps steps' : List Step}
    (h : e.Eases e' steps) (h' : e'.Eases e'' steps') : e.Eases e'' (steps ++ steps') := by
  refine ⟨h'.noHeavier.trans h.noHeavier, fun same => ?_⟩
  obtain ⟨rfl, rfl⟩ := h.unchanged (Nat.le_trans same h'.noHeavier.weight)
  exact h'.unchanged same

/-! ## Splicing -/

theorem unnest?_lighter {e e' : Expression} (h : e.unnest? = some e') : e'.Lighter e := by
  obtain ⟨op, n, xs, rest, first, others, he, hn, full, rfl⟩ := unnest?_eq_some h
  refine lighter_of_operands (t := first) ?_ (by simp [hn]) full
  have nested : ¬ n.isBare := not_isBare (t := first) (by simp [hn]) full
  simp only [weight_eq, he, Term.weightAll_append, Term.weightAll_cons, Term.weight,
    Operand.weightAll_cons, Operand.weight_nested, if_neg nested]
  omega

theorem unnest_noHeavier (e : Expression) : e.unnest.NoHeavier e := by
  unfold unnest
  cases h : e.unnest? with
  | none => exact .refl e
  | some e' => exact (unnest?_lighter h).noHeavier

theorem unnest?_of_weight {e : Expression} (h : e.weight ≤ e.unnest.weight) : e.unnest? = none := by
  unfold unnest at h
  cases hu : e.unnest? with
  | none => rfl
  | some e' =>
    have less := (unnest?_lighter hu).weight
    rw [hu, Option.getD_some] at h
    omega

/-! ## Laws that act on one term -/

end Expression

theorem Term.sort_perm (t : Term) : t.sort.1.operands.Perm t.operands := by
  unfold Term.sort
  split
  · exact .refl _
  · exact List.mergeSort_perm _ _

theorem Term.sort_weight (t : Term) : t.sort.1.weight = t.weight := by
  rw [weight, weight, Operand.weightAll_perm t.sort_perm]

theorem Operand.weightAll_distinct (seen xs : List Operand) :
    weightAll (distinct seen xs) + weightAll (repeated seen xs) = weightAll xs := by
  induction xs generalizing seen with
  | nil => rfl
  | cons x xs ih =>
    simp only [distinct, repeated]
    split
    · have rest := ih seen
      simp only [weightAll_cons]
      omega
    · have rest := ih (x :: seen)
      simp only [weightAll_cons]
      omega

theorem Operand.weightAll_eq_zero {xs : List Operand} (h : weightAll xs = 0) : xs = [] := by
  cases xs with
  | nil => rfl
  | cons x xs =>
    have light := x.four_le_weight
    rw [weightAll_cons] at h
    omega

theorem Operand.distinct_eq_nil {xs : List Operand} (h : distinct [] xs = []) : xs = [] := by
  cases xs with
  | nil => rfl
  | cons x xs => simp [distinct, isAmong] at h

/-- Dropping repeated operands leaves a term as it is or makes it lighter. -/
theorem Term.dropRepeated_weight (t : Term) : t.dropRepeated.1.weight ≤ t.weight ∧
    (t.weight ≤ t.dropRepeated.1.weight → t.dropRepeated = (t, [])) := by
  have whole := Operand.weightAll_distinct [] t.operands
  by_cases hop : t.operator = .and || t.operator = .or
  · have dropped : t.dropRepeated.1 = ⟨t.operator, Operand.distinct [] t.operands⟩ := by
      rw [dropRepeated, if_pos hop]
    simp only [dropped, weight]
    refine ⟨by omega, fun same => dropRepeated_of_distinct (fun _ => ?_)⟩
    exact Operand.weightAll_eq_zero (by omega)
  · have unchanged : t.dropRepeated = (t, []) := by rw [dropRepeated, if_neg hop]
    rw [unchanged]
    exact ⟨Nat.le_refl _, fun _ => rfl⟩

theorem Term.dropRepeated_operands {t : Term} (h : t.dropRepeated.1.operands = []) :
    t.operands = [] := by
  unfold dropRepeated at h
  split at h
  · exact Operand.distinct_eq_nil h
  · exact h

/-- Sums that are the same when no summand is greater have the same summands. -/
theorem le_of_sum_map_le {α : Type} {f g : α → Nat} {xs : List α} (h : ∀ x ∈ xs, g x ≤ f x)
    (same : (xs.map f).sum ≤ (xs.map g).sum) : ∀ x ∈ xs, f x ≤ g x := by
  induction xs with
  | nil => simp
  | cons x xs ih =>
    simp only [List.map_cons, List.sum_cons] at same
    have rest := List.sum_le_sum (fun y hy => h y (List.mem_cons_of_mem x hy))
    have here := h x (by simp)
    intro y hy
    rcases List.mem_cons.mp hy with rfl | hy
    · omega
    · exact ih (fun y hy => h y (List.mem_cons_of_mem x hy)) (by omega) y hy

theorem Term.weightAll_map {f : Term → Term} {ts : List Term}
    (h : ∀ t ∈ ts, (f t).weight ≤ t.weight) : weightAll (ts.map f) ≤ weightAll ts ∧
      (weightAll ts ≤ weightAll (ts.map f) → ∀ t ∈ ts, t.weight ≤ (f t).weight) := by
  rw [weightAll_eq_sum, weightAll_eq_sum, List.map_map]
  exact ⟨List.sum_le_sum h, le_of_sum_map_le h⟩

namespace Expression

/-- Terms that change one by one, none of which becomes heavier or loses all its operands. -/
theorem noHeavier_of_map {e e' : Expression} {f : Term → Term} (he' : e'.terms = e.terms.map f)
    (weight : ∀ t ∈ e.terms, (f t).weight ≤ t.weight)
    (operands : ∀ t ∈ e.terms, (f t).operands = [] → t.operands = []) : e'.NoHeavier e := by
  constructor
  · rw [weight_eq, weight_eq, he']
    exact (Term.weightAll_map weight).1
  · simp only [isBare, he', List.all_eq_true, List.isEmpty_iff, List.mem_map]
    exact fun bare t ht => operands t ht (bare _ ⟨t, ht, rfl⟩)

theorem sortOperands_noHeavier (e : Expression) : e.sortOperands.1.NoHeavier e := by
  apply noHeavier_of_map (f := fun t => t.sort.1) rfl
  · exact fun t _ => Nat.le_of_eq t.sort_weight
  · exact fun t _ none => (none ▸ t.sort_perm).nil_eq.symm

theorem sortOperands_weight (e : Expression) : e.sortOperands.1.weight = e.weight := by
  rw [weight_eq, weight_eq, Term.weightAll_eq_sum, Term.weightAll_eq_sum]
  change ((e.terms.map (fun t => t.sort.1)).map Term.weight).sum = _
  simp [Function.comp_def, Term.sort_weight]

theorem eases_dropRepeated (e : Expression) : e.Eases e.dropRepeated.1 e.dropRepeated.2 where
  noHeavier := noHeavier_of_map (f := fun t => t.dropRepeated.1) rfl
    (fun t _ => t.dropRepeated_weight.1) (fun _ _ => Term.dropRepeated_operands)
  unchanged same := by
    rw [weight_eq, weight_eq] at same
    have terms := (Term.weightAll_map (fun t _ => t.dropRepeated_weight.1)).2 same
    have unchanged : e.dropRepeated = (e, []) :=
      mapTerms_of_unchanged (fun t ht => t.dropRepeated_weight.2 (terms t ht))
    exact Prod.mk.inj unchanged

/-! ## Laws that act between terms -/

theorem eases_mergeTerms (op : Operator) (e : Expression) :
    e.Eases (e.mergeTerms op).1 (e.mergeTerms op).2 := by
  unfold mergeTerms
  split
  · rename_i us hus
    obtain ⟨before, xs, ys, rest, he, rfl⟩ := Term.mergeFirst?_eq_some hus
    refine Lighter.eases ⟨?_, ?_⟩ _
    · simp only [weight_eq, he, Term.weightAll_append, Term.weightAll_cons, Term.weight,
        Operand.weightAll_append]
      omega
    · simp only [isBare, he, List.all_append, List.all_cons, Bool.and_eq_true, List.isEmpty_iff,
        List.append_eq_nil_iff]
      rintro ⟨first, ⟨left, right⟩, last⟩
      exact ⟨first, left, right, last⟩
  · exact .same e

theorem eases_associate (e : Expression) : e.Eases e.associate.1 e.associate.2 := by
  simp only [associate]
  exact ((eases_mergeTerms .and e).andThen (eases_mergeTerms .or _)).andThen
    (eases_mergeTerms .xor _)

theorem absorbShared?_lighter {e e' : Expression} {step : Step}
    (h : e.absorbShared? = some (e', step)) : e'.Lighter e := by
  obtain ⟨before, t, u, rest, he, -, shared, rfl⟩ := absorbShared?_eq_some h
  refine lighter_of_operands (t := u) ?_ (by simp) ?_
  · simp only [weight_eq, he, Term.weightAll_append, Term.weightAll_cons, Term.weight]
    omega
  · intro none
    simp [Operand.anyAmong, Operand.isAmong, none] at shared

theorem absorbIntoNested?_lighter {e e' : Expression} {step : Step}
    (h : e.absorbIntoNested? = some (e', step)) : e'.Lighter e := by
  obtain ⟨op, op', xs, n, inner, rest, he, hn, full, -, rfl⟩ := absorbIntoNested?_eq_some h
  refine lighter_of_operands (t := ⟨op, inner⟩) ?_ (by simp) full
  simp only [weight_eq, he, hn, Term.weightAll_cons, Term.weightAll_nil, Term.weight,
    Operand.weightAll_cons, Operand.weightAll_nil, Operand.weight_nested]
  omega

theorem absorbNested?_lighter {e e' : Expression} {step : Step} (hd : e.headIsDual)
    (h : e.absorbNested? = some (e', step)) : e'.Lighter e := by
  obtain ⟨op, op', xs, before, n, inner, behind, rest, he, -, -, rfl⟩ := absorbNested?_eq_some h
  have full : xs ≠ [] := by
    simp only [headIsDual, he, Bool.and_eq_true] at hd
    simpa using hd.2
  refine lighter_of_operands (t := ⟨op, xs⟩) ?_ (by simp) full
  have nested := Operand.four_le_weight (.nested n)
  simp only [weight_eq, he, Term.weightAll_cons, Term.weight, Operand.weightAll_append,
    Operand.weightAll_cons]
  split
  · omega
  · simp only [Term.weightAll_cons, Term.weight, Operand.weightAll_append]
    omega

theorem eases_absorb (e : Expression) : e.Eases e.absorb.1 e.absorb.2 := by
  unfold absorb
  cases h : e.absorb? with
  | none => exact .same e
  | some p =>
    obtain ⟨e', step⟩ := p
    rcases absorb?_eq_some h with shared | ⟨dual, into | nested⟩
    · exact (absorbShared?_lighter shared).eases _
    · exact (absorbIntoNested?_lighter into).eases _
    · exact (absorbNested?_lighter dual nested).eases _

/-! ## Distribution -/

theorem weight_group (e : Expression) (op : Operator) {xs : List Operand} (h : xs ≠ []) :
    (Operand.nested (e.group op xs)).weight = 2 + Operand.weightAll xs := by
  have terms := e.terms_group op xs
  have full : ¬ (e.group op xs).isBare := not_isBare (t := ⟨op, xs⟩) (by simp [terms]) h
  rw [Operand.weight_nested, if_neg full, weight_eq, terms]
  simp only [Term.weightAll_cons, Term.weightAll_nil, Term.weight]
  omega

theorem weight_factor (e : Expression) (op : Operator) {xs : List Operand} (h : xs ≠ []) :
    (e.factor op xs).weight ≤ 2 + Operand.weightAll xs := by
  unfold factor
  split
  · simp
  · exact Nat.le_of_eq (e.weight_group op h)

/-- Operands that are taken out of a list, and those that are not the same as one of them. -/
theorem weightAll_without {common xs : List Operand} (h : common.Sublist xs) :
    Operand.weightAll common + Operand.weightAll (xs.filter (!·.isAmong common)) ≤
      Operand.weightAll xs := by
  have parts := Operand.weightAll_filter (·.isAmong common) xs
  have kept := h.filter (·.isAmong common)
  rw [List.filter_eq_self.mpr (fun x hx => Operand.isAmong_of_mem hx)] at kept
  have light := Operand.weightAll_sublist kept
  omega

/-- A list that shares an operand with `common` loses at least the weight of a name. -/
theorem weightAll_without_shared {common xs : List Operand} {c : Operand} (hc : c ∈ common)
    (shared : c.isAmong xs) :
    4 + Operand.weightAll (xs.filter (!·.isAmong common)) ≤ Operand.weightAll xs := by
  have parts := Operand.weightAll_filter (·.isAmong common) xs
  obtain ⟨y, hy, same⟩ := List.any_eq_true.mp shared
  have again : y ∈ xs.filter (·.isAmong common) :=
    List.mem_filter.mpr ⟨hy, List.any_eq_true.mpr ⟨c, hc, Operand.same_symm same⟩⟩
  have heavy := Nat.le_trans y.four_le_weight (Operand.weight_le_weightAll again)
  omega

/-- Distribution makes groups of what is left on both sides, and one around them. These weigh 2
each, but the term that it opens, with its group, and the factor that it drops weigh 7 at
least. -/
theorem distribute?_lighter {e e' : Expression} (h : e.distribute? = some e') : e'.Lighter e := by
  obtain ⟨op, op', xs, n, inner, rest, common, left, right, he, -, hn, hcommon, hleft, hright,
    common_ne, left_ne, right_ne, rfl⟩ := distribute?_eq_some h
  refine lighter_of_operands (t := ⟨op, common ++ _⟩) ?_ List.mem_cons_self (by simp)
  have inner_ne : inner ≠ [] := by
    rintro rfl
    exact right_ne hright
  have full : ¬ n.isBare := not_isBare (t := ⟨op, inner⟩) (by simp [hn]) inner_ne
  have first : Operand.weightAll common + Operand.weightAll left ≤ Operand.weightAll xs := by
    rw [hleft]
    apply weightAll_without
    rw [hcommon]
    exact (Operand.distinct_sublist _ _).trans List.filter_sublist
  have second : 4 + Operand.weightAll right ≤ Operand.weightAll inner := by
    obtain ⟨c, hc⟩ := List.exists_mem_of_ne_nil _ common_ne
    have shared := (List.mem_filter.mp (Operand.mem_distinct (hcommon ▸ hc))).2
    rw [hright]
    exact weightAll_without_shared hc shared
  have alternatives : [e.factor op left, e.factor op right] ≠ [] := by simp
  have grouped := e.weight_group op' alternatives
  have left_factor := e.weight_factor op left_ne
  have right_factor := e.weight_factor op right_ne
  simp only [weight_eq, he, hn, Term.weightAll_cons, Term.weightAll_nil, Term.weight,
    Operand.weightAll_append, Operand.weightAll_cons, Operand.weightAll_nil,
    Operand.weight_nested, if_neg full] at grouped ⊢
  omega

theorem clean_noHeavier (e : Expression) : e.clean.NoHeavier e := by
  have fewer : e.clean.NoHeavier e.unnest := by
    constructor
    · rw [weight_eq, weight_eq]
      exact Term.weightAll_sublist List.filter_sublist
    · -- What is dropped has no operands either.
      intro bare
      apply List.all_eq_true.mpr
      intro t ht
      by_cases kept : t.operator = .not || !t.operands.isEmpty
      · exact List.all_eq_true.mp bare t (List.mem_filter.mpr ⟨ht, kept⟩)
      · simp only [Bool.or_eq_true, not_or, Bool.not_eq_true, Bool.not_eq_false'] at kept
        exact kept.2
  exact fewer.trans e.unnest_noHeavier

theorem eases_distribute (e : Expression) : e.Eases e.distribute.1 e.distribute.2 := by
  unfold distribute
  cases h : e.distribute? with
  | none => exact .same e
  | some e' => exact (e'.clean_noHeavier.trans_lighter (distribute?_lighter h)).eases _

/-! ## One level -/

/-- The laws that follow sorting. -/
theorem eases_laws (e : Expression) :
    e.Eases e.dropRepeated.1.associate.1.absorb.1.distribute.1
      (e.dropRepeated.2 ++ e.dropRepeated.1.associate.2 ++
        e.dropRepeated.1.associate.1.absorb.2 ++
        e.dropRepeated.1.associate.1.absorb.1.distribute.2) :=
  ((e.eases_dropRepeated.andThen (eases_associate _)).andThen (eases_absorb _)).andThen
    (eases_distribute _)

theorem simplifyLevel_noHeavier (e : Expression) : e.simplifyLevel.result.NoHeavier e := by
  rw [simplifyLevel_result]
  exact (eases_laws _).noHeavier.trans ((unnest_noHeavier _).trans
    ((sortOperands_noHeavier _).trans e.unnest_noHeavier))

/-- A level that is not lighter afterwards has been sorted and nothing else. -/
theorem simplifyLevel_of_weight {e : Expression}
    (same : e.weight ≤ e.simplifyLevel.result.weight) :
    e.simplifyLevel.result = e.sortOperands.1 ∧
      (e.sortOperands.2 = [] → e.simplifyLevel.changed = false) := by
  have laws := eases_laws e.unnest.sortOperands.1.unnest
  rw [simplifyLevel_result] at same ⊢
  have later := Nat.le_trans same laws.noHeavier.weight
  have sorted := e.unnest.sortOperands_weight
  have spliced := e.unnest.sortOperands.1.unnest_noHeavier.weight
  have unspliced : e.unnest? = none := unnest?_of_weight (by omega)
  rw [unnest_of_none unspliced] at same sorted spliced later laws ⊢
  have unspliced' : e.sortOperands.1.unnest? = none := unnest?_of_weight (by omega)
  rw [unnest_of_none unspliced', ← sorted] at same
  rw [unnest_of_none unspliced'] at laws ⊢
  obtain ⟨result, silent⟩ := laws.unchanged same
  refine ⟨result, fun inOrder => ?_⟩
  simp only [List.append_eq_nil_iff] at silent
  obtain ⟨⟨⟨dropped, merged⟩, absorbed⟩, distributed⟩ := silent
  simp [simplifyLevel, unnest_of_none unspliced, unnest_of_none unspliced', unspliced, unspliced',
    inOrder, dropped, merged, absorbed, distributed, entries]

end Expression

end SwitchingAlgebra
