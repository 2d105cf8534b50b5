-- The normal form of a simplification. Where no law acts any more the operands are sorted and
-- without repetition, neighbours are neither merged nor share what can be absorbed, and this
-- at every level.
import SwitchingAlgebra.Proofs.Coupling
import SwitchingAlgebra.Proofs.Settled
import SwitchingAlgebra.Proofs.Soundness

namespace SwitchingAlgebra

/-! ## Normal forms -/

/-- Names in ascending order, and nested expressions after them. -/
def Operand.NamesFirst (xs : List Operand) : Prop :=
  ∃ (names : List String) (nested : List Expression),
    names.Pairwise (· ≤ ·) ∧ xs = names.map .input ++ nested.map .nested

/-- No operand of one list is the same as one of the other. -/
def Operand.Apart (xs ys : List Operand) : Prop := ∀ x ∈ xs, ∀ y ∈ ys, ¬ x.same y

/-- Nothing is left to splice, to sort, to drop, to merge, to absorb or to distribute. -/
structure Expression.IsNormal (e : Expression) : Prop where
  spliced : ∀ op n xs rest, e.terms = ⟨op, .nested n :: xs⟩ :: rest →
    ∀ first ∈ n.terms.head?, first.operands = []
  sorted : ∀ t ∈ e.terms, Operand.NamesFirst t.operands
  distinct : ∀ t ∈ e.terms, t.operator = .and ∨ t.operator = .or →
    t.operands.Pairwise (fun x y => ¬ x.same y)
  merged : ∀ op, op = .and ∨ op = .or ∨ op = .xor →
    e.terms.IsChain (fun t u => ¬ (t.operator = op ∧ u.operator = op))
  unshared : e.terms.IsChain (fun t u => t.operator.isDual u.operator →
    Operand.Apart t.operands u.operands)
  undistributed : ∀ first outer n inner rest,
    e.terms = first :: ⟨outer, [.nested n]⟩ :: rest → n.terms = [⟨first.operator, inner⟩] →
    first.operator.isDual outer → Operand.Apart first.operands inner

/-! ## One term -/

theorem Operand.namesFirst_of_inOrder {xs : List Operand} (h : Operand.inOrder xs) :
    NamesFirst xs := by
  induction xs with
  | nil => exact ⟨[], [], .nil, rfl⟩
  | cons x xs ih =>
    cases xs with
    | nil =>
      cases x with
      | input n => exact ⟨[n], [], List.pairwise_singleton _ n, rfl⟩
      | nested e => exact ⟨[], [e], .nil, rfl⟩
    | cons y rest =>
      rw [inOrder, Bool.and_eq_true] at h
      obtain ⟨names, nested, ascending, split⟩ := ih h.2
      rw [split]
      cases x with
      | input n =>
        refine ⟨n :: names, nested, List.pairwise_cons.mpr ⟨fun m hm => ?_, ascending⟩, rfl⟩
        -- The first of the names is the one that `n` was compared with.
        cases names with
        | nil => cases hm
        | cons first others =>
          obtain ⟨rfl, -⟩ := List.cons.inj split
          have least : n ≤ first := by simpa [mayPrecede] using h.1
          rcases List.mem_cons.mp hm with rfl | hm
          · exact least
          · exact String.le_trans least ((List.pairwise_cons.mp ascending).1 m hm)
      | nested e =>
        have none_named : names = [] := by
          cases names with
          | nil => rfl
          | cons first others =>
            obtain ⟨rfl, -⟩ := List.cons.inj split
            simp [mayPrecede] at h
        subst none_named
        exact ⟨[], e :: nested, .nil, rfl⟩

theorem Operand.pairwise_of_repeated {seen xs : List Operand} (h : Operand.repeated seen xs = []) :
    xs.Pairwise (fun x y => ¬ x.same y) ∧ Apart seen xs := by
  induction xs generalizing seen with
  | nil => exact ⟨.nil, by simp [Apart]⟩
  | cons x xs ih =>
    rw [repeated] at h
    split at h
    · cases h
    · rename_i fresh
      obtain ⟨pairwise, apart⟩ := ih h
      rw [Apart, List.forall_mem_cons] at apart
      refine ⟨List.pairwise_cons.mpr ⟨apart.1, pairwise⟩, fun s hs => ?_⟩
      refine List.forall_mem_cons.mpr ⟨fun same => ?_, apart.2 s hs⟩
      exact fresh (List.any_eq_true.mpr ⟨s, hs, same⟩)

/-! ## Neighbouring terms -/

theorem Term.isChain_of_mergeFirst? {op : Operator} {ts : List Term}
    (h : Term.mergeFirst? op ts = none) :
    ts.IsChain (fun t u => ¬ (t.operator = op ∧ u.operator = op)) := by
  induction ts with
  | nil => exact .nil
  | cons t ts ih =>
    cases ts with
    | nil => exact .singleton t
    | cons u rest =>
      rw [mergeFirst?] at h
      split at h
      · cases h
      · rename_i different
        rw [Option.map_eq_none_iff] at h
        exact List.isChain_cons_cons.mpr ⟨by simpa using different, ih h⟩

theorem Operand.apart_of_not_anyAmong {xs ys : List Operand} (h : Operand.anyAmong xs ys = false) :
    Apart xs ys := by
  intro x hx y hy same
  have among : x.isAmong ys := List.any_eq_true.mpr ⟨y, hy, same_symm same⟩
  have any : Operand.anyAmong xs ys := List.any_eq_true.mpr ⟨x, hx, among⟩
  rw [h] at any
  cases any

theorem Term.isChain_of_absorbed? {ts : List Term} (h : Term.absorbed? ts = none) :
    ts.IsChain (fun t u => t.operator.isDual u.operator →
      Operand.Apart t.operands u.operands) := by
  induction ts with
  | nil => exact .nil
  | cons t ts ih =>
    cases ts with
    | nil => exact .singleton t
    | cons u rest =>
      rw [absorbed?] at h
      split at h
      · cases h
      · rename_i unshared
        rw [Option.map_eq_none_iff] at h
        refine List.isChain_cons_cons.mpr ⟨fun dual => Operand.apart_of_not_anyAmong ?_, ih h⟩
        simpa [dual] using unshared

/-! ## The head -/

theorem Operand.distinct_ne_nil {x : Operand} {xs : List Operand} (h : x ∈ xs) :
    Operand.distinct [] xs ≠ [] := by
  cases xs with
  | nil => cases h
  | cons y ys => simp [distinct, isAmong]

/-- Operands that are all among those in common are all among the others. -/
theorem Operand.allAmong_of_common {xs ys common : List Operand}
    (h : xs.filter (!·.isAmong common) = []) (among : ∀ c ∈ common, c.isAmong ys) :
    Operand.allAmong xs ys := by
  refine List.all_eq_true.mpr (fun x hx => ?_)
  have found : x.isAmong common := by simpa using List.filter_eq_nil_iff.mp h x hx
  obtain ⟨c, hc, same⟩ := List.any_eq_true.mp found
  obtain ⟨y, hy, same'⟩ := List.any_eq_true.mp (among c hc)
  exact List.any_eq_true.mpr ⟨y, hy, same_trans same' same⟩

namespace Expression

theorem head_of_unnest? {e : Expression} (h : e.unnest? = none) {op : Operator} {n : Expression}
    {xs : List Operand} {rest : List Term} (terms : e.terms = ⟨op, .nested n :: xs⟩ :: rest) :
    ∀ first ∈ n.terms.head?, first.operands = [] := by
  intro first hfirst
  rw [unnest?, terms] at h
  dsimp only at h
  cases hn : n.terms with
  | nil => rw [hn] at hfirst; cases hfirst
  | cons t ts =>
    rw [hn] at hfirst h
    obtain rfl : t = first := Option.some.inj hfirst
    simpa using h

section

variable {e n : Expression} {first : Term} {outer : Operator} {inner : List Operand}
  {rest : List Term}

theorem soleOperands?_of_terms {op : Operator} (sole : n.terms = [⟨op, inner⟩]) :
    n.soleOperands? op = some inner := by
  simp [soleOperands?, sole]

variable (terms : e.terms = first :: ⟨outer, [.nested n]⟩ :: rest)
  (sole : n.terms = [⟨first.operator, inner⟩])
include terms sole

theorem not_allAmong_of_absorbIntoNested? (h : e.absorbIntoNested? = none)
    (some_inner : inner ≠ []) : Operand.allAmong inner first.operands = false := by
  rw [absorbIntoNested?, terms] at h
  simp only [soleOperands?_of_terms sole] at h
  simpa [some_inner] using h

theorem not_allAmong_of_absorbNested? (h : e.absorbNested? = none) :
    Operand.allAmong first.operands inner = false := by
  rw [absorbNested?, terms] at h
  have nested : (Operand.nested n).nested?.bind (·.soleOperands? first.operator) = some inner :=
    soleOperands?_of_terms sole
  simp only [Option.map_eq_none_iff, Operand.takeSuperset?, nested] at h
  simpa using h

/-- Distribution does not apply where nothing is in common, and where nothing is left besides. -/
theorem cases_of_distribute? (dual : first.operator.isDual outer) (h : e.distribute? = none) :
    let common := Operand.distinct [] (first.operands.filter (·.isAmong inner))
    common = [] ∨ first.operands.filter (!·.isAmong common) = [] ∨
      inner.filter (!·.isAmong common) = [] := by
  intro common
  rw [distribute?, terms] at h
  simp only [dual, if_true, soleOperands?_of_terms sole] at h
  split at h
  · rename_i unmet
    simpa only [Bool.or_eq_true, List.isEmpty_iff, or_assoc] using unmet
  · cases h

/-- Operands in common are taken out, unless all of one side are in common: then that side is
absorbed. So there are none. -/
theorem Still.apart (h : e.Still) (dual : first.operator.isDual outer) :
    Operand.Apart first.operands inner := by
  intro x hx y hy same
  have some_first : first.operands ≠ [] := List.ne_nil_of_mem hx
  have headIsDual : e.headIsDual := by simp [Expression.headIsDual, terms, dual, some_first]
  obtain ⟨-, absorbing⟩ := (absorb?_eq_none_iff e).mp h.unabsorbed
  obtain ⟨into, away⟩ := absorbing headIsDual
  let shared := first.operands.filter (·.isAmong inner)
  have common : ∀ c ∈ Operand.distinct [] shared, c ∈ first.operands ∧ c.isAmong inner :=
    fun c hc => List.mem_filter.mp (Operand.mem_distinct hc)
  rcases cases_of_distribute? terms sole dual h.undistributed with none_common | left | right
  · have hx' : x ∈ shared :=
      List.mem_filter.mpr ⟨hx, List.any_eq_true.mpr ⟨y, hy, Operand.same_symm same⟩⟩
    exact Operand.distinct_ne_nil hx' none_common
  · have all := Operand.allAmong_of_common left (fun c hc => (common c hc).2)
    rw [not_allAmong_of_absorbNested? terms sole away] at all
    cases all
  · have all := Operand.allAmong_of_common right
      (fun c hc => Operand.isAmong_of_mem (common c hc).1)
    rw [not_allAmong_of_absorbIntoNested? terms sole into (List.ne_nil_of_mem hy)] at all
    cases all

end

theorem Still.isNormal {e : Expression} (h : e.Still) : e.IsNormal where
  spliced op n xs rest terms := head_of_unnest? h.unspliced terms
  sorted t ht := Operand.namesFirst_of_inOrder (h.inOrder t ht)
  distinct t ht hop := (Operand.pairwise_of_repeated (h.distinct t ht hop)).1
  merged op hop := by
    refine Term.isChain_of_mergeFirst? (h.unmerged op ?_)
    rcases hop with rfl | rfl | rfl <;> rfl
  unshared := Term.isChain_of_absorbed? ((absorb?_eq_none_iff e).mp h.unabsorbed).1
  undistributed first outer n inner rest terms sole dual := h.apart terms sole dual

end Expression

/-! ## All levels -/

theorem Operand.Settled.throughout {x : Operand} (h : x.Settled) :
    x.Throughout Expression.IsNormal := by
  induction h with
  | input n => exact .input n
  | nested still _ ih => exact .nested still.isNormal ih

namespace Expression

theorem Settled.throughout {e : Expression} (h : e.Settled) : e.Throughout IsNormal :=
  ⟨h.still.isNormal, fun t ht x hx => (h.operands t ht x hx).throughout⟩

/-- A simplification that succeeds leaves a normal form at every level. -/
theorem isNormal_simplify {c : SimplifyConfig} {e : Expression}
    (ok : (e.simplify c).outcome = .ok ()) :
    (e.simplify c).expression.Throughout IsNormal := by
  obtain ⟨-, run, result⟩ := passes_of_ok ok
  have settled := settled_of_repeatPasses run
  rw [result]
  exact (settled.of_terms (finish_terms c e (e.passes c).expression)).throughout

/-- `(a ∧ a ∧ b) ∨ (a ∧ c ∧ (d ∨ d))` loses the repetitions at both levels, and `a` is taken
out. -/
theorem isNormal_simplify_of_nested :
    let sum := empty.append .or [.input "d", .input "d"]
    let e := (empty.append .and [.input "a", .input "a", .input "b"]).append .or
      [.nested (empty.append .and [.input "a", .input "c", .nested sum])]
    (e.simplify {}).outcome = .ok () ∧ (e.simplify {}).expression.text = "a ∧ (b ∨ (c ∧ (d)))" ∧
      (e.simplify {}).expression.Throughout IsNormal := by
  intro sum e
  have ok : (e.simplify {}).outcome = .ok () := by decide +kernel
  exact ⟨ok, by decide +kernel, isNormal_simplify ok⟩

end Expression

end SwitchingAlgebra
