-- Operands and operators take turns in whatever a reduction brings to an end. A step may take
-- parentheses and negations away, but it never changes where a formula stands behind what it
-- rewrites, so that what comes to a single operand was a formula from the start.
import SwitchingAlgebra.Parsing
import SwitchingAlgebra.Proofs.Shrinking

namespace SwitchingAlgebra

/-! ## Where a formula stands -/

/-- Where a formula stands: whether an operand has just ended, and how many parentheses are
open. -/
structure Turn where
  ended : Bool
  opened : Nat
  deriving DecidableEq, Repr

namespace Turn

/-- The turn after one fragment, unless it is not the fragment's turn. A negation may stand
anywhere, because double negations are cancelled wherever they stand. -/
def next? (t : Turn) : Fragment → Option Turn
  | .name _ | .place _ => if t.ended then none else some ⟨true, t.opened⟩
  | .negation => some t
  | .operator _ => if t.ended then some ⟨false, t.opened⟩ else none
  | .opening => if t.ended then none else some ⟨false, t.opened + 1⟩
  | .closing => if t.ended && 0 < t.opened then some ⟨true, t.opened - 1⟩ else none
  | .stray _ => none

/-- The turn after fragments, unless one of them comes out of turn. -/
def run? (t : Turn) (fs : List Fragment) : Option Turn := fs.foldlM next? t

theorem run?_cons (t : Turn) (f : Fragment) (fs : List Fragment) :
    t.run? (f :: fs) = (t.next? f).bind (·.run? fs) := rfl

theorem run?_append (t : Turn) (fs gs : List Fragment) :
    t.run? (fs ++ gs) = (t.run? fs).bind (·.run? gs) := List.foldlM_append

theorem run?_cons_congr {fs gs : List Fragment} (h : ∀ t : Turn, t.run? fs = t.run? gs)
    (f : Fragment) (t : Turn) : t.run? (f :: fs) = t.run? (f :: gs) := by
  rw [run?_cons, run?_cons]
  exact Option.bind_congr (fun t' _ => h t')

/-- An operand leads to the same turn, whatever it is. -/
theorem run?_place (k : Nat) (t : Turn) :
    t.run? [.place k] = if t.ended then none else some ⟨true, t.opened⟩ := by
  rw [run?_cons, next?]
  split <;> rfl

theorem run?_side (side : Side) (t : Turn) :
    t.run? side.fragments = if t.ended then none else some ⟨true, t.opened⟩ := by
  rcases side with ⟨_ | _, w⟩ | ⟨_ | _, k⟩ <;> exact run?_place 0 t

/-- Parentheses around an operand count for nothing. -/
theorem run?_group {fs : List Fragment}
    (h : ∀ t : Turn, t.run? fs = if t.ended then none else some ⟨true, t.opened⟩) (t : Turn) :
    t.run? (.opening :: (fs ++ [.closing])) = if t.ended then none else some ⟨true, t.opened⟩ := by
  rw [run?_cons, next?]
  split
  · rfl
  · rw [Option.bind_some, run?_append, h]
    simp [run?_cons, next?]
    rfl

/-- A triple is an operand. -/
theorem run?_triple (left : Side) (op : Operator) (right : Side) (t : Turn) :
    t.run? (left.fragments ++ .operator op :: right.fragments) =
      if t.ended then none else some ⟨true, t.opened⟩ := by
  rw [run?_append, run?_side]
  split
  · rfl
  · rw [Option.bind_some, run?_cons, next?, if_pos rfl, Option.bind_some, run?_side]
    rfl

end Turn

/-! ## Steps keep the turns -/

/-- What is rewritten leads to the same turn as before. -/
theorem Fragment.Shrinks.run?_eq {fs gs : List Fragment} (h : Shrinks fs gs) (t : Turn) :
    t.run? gs = t.run? fs := by
  -- an operand may stand in the place of another one
  have swap : ∀ {xs ys fs gs : List Fragment},
      (∀ t : Turn, t.run? xs = if t.ended then none else some ⟨true, t.opened⟩) →
      (∀ t : Turn, t.run? ys = if t.ended then none else some ⟨true, t.opened⟩) →
      (∀ t : Turn, t.run? gs = t.run? fs) → ∀ t : Turn, t.run? (ys ++ gs) = t.run? (xs ++ fs) := by
    intro xs ys fs gs hxs hys ih t
    rw [Turn.run?_append, Turn.run?_append, hxs, hys]
    exact Option.bind_congr (fun t' _ => ih t')
  induction h generalizing t with
  | nil => rfl
  | cons f _ ih => exact Turn.run?_cons_congr ih f t
  | group side _ ih =>
    have same := swap (Turn.run?_group (Turn.run?_side side)) (Turn.run?_side side) ih t
    simpa using same
  | cancel _ ih => exact ih t
  | negated k k' _ ih => exact swap (Turn.run?_side (.place true k)) (Turn.run?_place k') ih t
  | triple left op right k _ ih =>
    have same := swap (Turn.run?_triple left op right) (Turn.run?_place k) ih t
    simpa using same
  | grouped left op right k _ ih =>
    have same := swap (Turn.run?_group (Turn.run?_triple left op right)) (Turn.run?_place k) ih t
    simpa using same

theorem Fragment.run?_settle (fs : List Fragment) (t : Turn) : t.run? (settle fs) = t.run? fs :=
  settle_of_shrinks (P := fun gs => t.run? gs = t.run? fs)
    (fun shrinks same => (shrinks.run?_eq t).trans same) rfl

namespace Reduction

/-- A step leads to the same turn as before. -/
theorem run?_step {mixed : List String} {r r' : Reduction} (h : r.step mixed = .next r')
    (t : Turn) : t.run? r'.fragments = t.run? r.fragments :=
  (shrinks_of_step h).run?_eq t

/-- What a reduction brings to an end is an operand by itself. -/
theorem run?_of_run {mixed : List String} {r : Reduction} {e : Expression}
    (h : r.run mixed = .ok e) : Turn.run? ⟨false, 0⟩ r.fragments = some ⟨true, 0⟩ := by
  -- every step shortens the fragments
  induction hn : r.fragments.length using Nat.strongRecOn generalizing r with
  | ind n ih =>
    unfold run at h
    split at h
    · rename_i r' hstep
      have shorter := length_step hstep
      rw [← run?_step hstep]
      exact ih _ (by omega) h rfl
    · rename_i e' hdone
      unfold step at hdone
      split at hdone
      · rename_i k hfs
        rw [hfs, Turn.run?_place]
        rfl
      · split at hdone
        · cases hdone
        · unfold reduce at hdone
          split at hdone
          · split at hdone <;> cases hdone
          · split at hdone
            · split at hdone <;> cases hdone
            · cases hdone
    · cases h
    · cases h

end Reduction

/-- What is read to its end takes turns. -/
theorem Expression.run?_of_ofFragments {fs : List Fragment} {e : Expression}
    (h : ofFragments fs = .ok e) : Turn.run? ⟨false, 0⟩ fs = some ⟨true, 0⟩ := by
  rw [← Fragment.run?_settle]
  unfold ofFragments at h
  simp only at h
  split at h
  · rename_i e' hlone
    unfold ofLoneName? at hlone
    split at hlone
    · rename_i w hfs
      rw [hfs]
      rfl
    · rename_i w hfs
      rw [hfs]
      rfl
    · cases hlone
  · split at h
    · rename_i e' hrun
      exact Reduction.run?_of_run hrun
    · cases h
    · cases h

end SwitchingAlgebra
