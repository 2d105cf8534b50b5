-- What a reduction rewrites. Groups around one operand and double negations go, wherever they
-- stand, and a placeholder comes for a negated one or for an operator with its two sides.
import SwitchingAlgebra.Proofs.Places

namespace SwitchingAlgebra

namespace Fragment

/-- The second fragments are the first, with some parts rewritten that do not overlap. -/
inductive Shrinks : List Fragment → List Fragment → Prop
  | nil : Shrinks [] []
  | cons (f : Fragment) {fs gs : List Fragment} : Shrinks fs gs → Shrinks (f :: fs) (f :: gs)
  | group (side : Side) {fs gs : List Fragment} : Shrinks fs gs →
      Shrinks (.opening :: (side.fragments ++ .closing :: fs)) (side.fragments ++ gs)
  | cancel {fs gs : List Fragment} : Shrinks fs gs → Shrinks (.negation :: .negation :: fs) gs
  | negated (k k' : Nat) {fs gs : List Fragment} : Shrinks fs gs →
      Shrinks (.negation :: .place k :: fs) (.place k' :: gs)
  | triple (left : Side) (op : Operator) (right : Side) (k : Nat) {fs gs : List Fragment} :
      Shrinks fs gs →
      Shrinks (left.fragments ++ .operator op :: (right.fragments ++ fs)) (.place k :: gs)
  | grouped (left : Side) (op : Operator) (right : Side) (k : Nat) {fs gs : List Fragment} :
      Shrinks fs gs →
      Shrinks (.opening :: (left.fragments ++ .operator op :: (right.fragments ++ .closing :: fs)))
        (.place k :: gs)

namespace Shrinks

theorem refl (fs : List Fragment) : Shrinks fs fs := by
  induction fs with
  | nil => exact .nil
  | cons f fs ih => exact .cons f ih

theorem append (before : List Fragment) {fs gs : List Fragment} (h : Shrinks fs gs) :
    Shrinks (before ++ fs) (before ++ gs) := by
  induction before with
  | nil => exact h
  | cons f before ih => exact .cons f ih

end Shrinks

theorem shrinks_stripGroups (fs : List Fragment) : Shrinks fs (stripGroups fs) := by
  induction fs using stripGroups.induct with
  | case1 => exact .nil
  | case2 w rest ih => exact .group (.name false w) ih
  | case3 k rest ih => exact .group (.place false k) ih
  | case4 w rest ih => exact .group (.name true w) ih
  | case5 k rest ih => exact .group (.place true k) ih
  | case6 f rest h₁ h₂ h₃ h₄ ih =>
    rw [stripGroups]
    · exact .cons f ih
    all_goals assumption

theorem shrinks_cancelNegations (fs : List Fragment) : Shrinks fs (cancelNegations fs) := by
  induction fs using cancelNegations.induct with
  | case1 => exact .nil
  | case2 rest ih => exact .cancel ih
  | case3 f rest h ih =>
    rw [cancelNegations]
    · exact .cons f ih
    · exact h

theorem shrinks_of_tidy? {fs fs' : List Fragment} (h : tidy? fs = some fs') : Shrinks fs fs' := by
  unfold tidy? at h
  simp only at h
  split at h
  · cases h
    exact shrinks_stripGroups fs
  · split at h
    · cases h
      exact shrinks_cancelNegations fs
    · cases h

/-- What rewriting keeps, tidying keeps. -/
theorem settle_of_shrinks {P : List Fragment → Prop}
    (keeps : ∀ {fs gs : List Fragment}, Shrinks fs gs → P fs → P gs) {fs : List Fragment}
    (h : P fs) : P (settle fs) := by
  -- each tidying shortens the fragments
  induction hn : fs.length using Nat.strongRecOn generalizing fs with
  | ind n ih =>
    unfold settle
    split
    · rename_i fs' htidy
      have shorter := length_tidy? htidy
      exact ih _ (by omega) (keeps (shrinks_of_tidy? htidy) h) rfl
    · exact h

end Fragment

open Fragment

theorem Triple.shrinks_replaceBy_unwrap (t : Triple) (k : Nat) :
    Shrinks t.fragments (t.unwrap.replaceBy k) := by
  obtain ⟨before, left, op, right, behind⟩ := t
  unfold unwrap
  split
  · rename_i behind' hlast hbehind
    obtain ⟨before', rfl⟩ := List.getLast?_eq_some_iff.mp hlast
    obtain rfl : behind = .closing :: behind' := hbehind
    have grouped := (Shrinks.grouped left op right k (.refl behind')).append before'
    simpa [replaceBy, fragments] using grouped
  · exact (Shrinks.triple left op right k (.refl behind)).append before

namespace Reduction

variable {mixed : List String} {r r' : Reduction}

theorem shrinks_of_reduce (h : r.reduce mixed = .next r') : Shrinks r.fragments r'.fragments := by
  unfold reduce at h
  split at h
  · rename_i before k behind hfound
    split at h
    · cases h
      rw [findNegatedPlace?_eq_some hfound]
      exact (Shrinks.negated k _ (.refl behind)).append before
    · cases h
  · split at h
    · rename_i t hfound
      split at h
      · cases h
        rw [Triple.find?_eq_some hfound]
        exact t.shrinks_replaceBy_unwrap _
      · cases h
    · cases h

/-- Whatever a step does, it rewrites fragments. -/
theorem shrinks_of_step (h : r.step mixed = .next r') : Shrinks r.fragments r'.fragments := by
  unfold step at h
  split at h
  · split at h <;> cases h
  · split at h
    · rename_i fs' htidy
      cases h
      exact shrinks_of_tidy? htidy
    · exact shrinks_of_reduce h

end Reduction

end SwitchingAlgebra
