-- Operands that count as the same mention the same names and have the same value, whatever
-- their nested expressions bind: what they see is bound around them.
import SwitchingAlgebra.Proofs.Running
import SwitchingAlgebra.Simplification.Pass

namespace SwitchingAlgebra

/-! ## Sameness of lists -/

theorem Operand.sameAll_iff (xs ys : List Operand) :
    Operand.sameAll xs ys ↔ List.Forall₂ (fun x y => x.same y) xs ys := by
  induction xs generalizing ys with
  | nil => cases ys <;> simp [Operand.sameAll]
  | cons x xs ih => cases ys <;> simp [Operand.sameAll, ih]

theorem Term.same_iff (t u : Term) :
    t.same u ↔ t.operator = u.operator ∧ Operand.sameAll t.operands u.operands := by
  obtain ⟨_, _⟩ := t
  obtain ⟨_, _⟩ := u
  simp [Term.same]

theorem Term.sameAll_iff (ts us : List Term) :
    Term.sameAll ts us ↔ List.Forall₂ (fun t u => t.same u) ts us := by
  induction ts generalizing us with
  | nil => cases us <;> simp [Term.sameAll]
  | cons t ts ih => cases us <;> simp [Term.sameAll, ih]

theorem Operand.same_nested_iff (e f : Expression) :
    (Operand.nested e).same (.nested f) ↔ Term.sameAll e.terms f.terms := by
  obtain ⟨_, _, _, _⟩ := e
  obtain ⟨_, _, _, _⟩ := f
  rfl

/-- What holds along two steps holds of lists that are related one by one in two steps. -/
theorem forall₂_comp {α β γ : Type} {R : α → β → Prop} {S : β → γ → Prop} {T : α → γ → Prop}
    (h : ∀ x y z, R x y → S y z → T x z) {xs : List α} {ys : List β} {zs : List γ}
    (hxy : List.Forall₂ R xs ys) (hyz : List.Forall₂ S ys zs) : List.Forall₂ T xs zs := by
  induction hxy generalizing zs with
  | nil =>
    cases hyz
    exact .nil
  | cons first _ ih =>
    cases hyz with
    | cons second rest => exact .cons (h _ _ _ first second) (ih rest)

/-! ## Same and the same again -/

theorem Operand.same_refl (x : Operand) : x.same x := by
  induction x using Operand.induct with
  | input n => simp [Operand.same]
  | nested e ih =>
    rw [same_nested_iff, Term.sameAll_iff, List.forall₂_same]
    intro t ht
    rw [Term.same_iff, sameAll_iff, List.forall₂_same]
    exact ⟨rfl, ih t ht⟩

theorem Term.sameAll_refl (ts : List Term) : Term.sameAll ts ts :=
  (Operand.same_nested_iff { terms := ts } { terms := ts }).mp (Operand.same_refl _)

/-- One operator over operands that are related one by one. -/
def Term.Alike (R : Operand → Operand → Prop) (t u : Term) : Prop :=
  t.operator = u.operator ∧ List.Forall₂ R t.operands u.operands

/-- What holds of a name and itself, and of nested expressions as soon as it holds of their
operands one by one, holds of operands that are the same. -/
theorem Operand.rel_of_same {R : Operand → Operand → Prop} (input : ∀ n, R (.input n) (.input n))
    (nested : ∀ e f : Expression, List.Forall₂ (Term.Alike R) e.terms f.terms →
      R (.nested e) (.nested f))
    (x : Operand) : ∀ y, x.same y → R x y := by
  induction x using Operand.induct with
  | input n =>
    intro y h
    cases y with
    | input m =>
      simp only [Operand.same, beq_iff_eq] at h
      exact h ▸ input n
    | nested f => simp [Operand.same] at h
  | nested e ih =>
    intro y h
    cases y with
    | input m => simp [Operand.same] at h
    | nested f =>
      rw [same_nested_iff, Term.sameAll_iff] at h
      refine nested e f ((List.forall₂_and_left _ _ |>.mpr ⟨ih, h⟩).imp ?_)
      rintro t u ⟨operands, htu⟩
      obtain ⟨hop, hxs⟩ := (Term.same_iff t u).mp htu
      exact ⟨hop, (List.forall₂_and_left _ _ |>.mpr ⟨operands, (sameAll_iff _ _).mp hxs⟩).imp
        (fun x y hxy => hxy.1 y hxy.2)⟩

theorem Operand.same_symm {x y : Operand} (h : x.same y) : y.same x := by
  refine rel_of_same (R := fun x y => y.same x) (fun n => same_refl _) (fun e f h => ?_) x y h
  have flipped : List.Forall₂ (fun u t => Term.same u t) f.terms e.terms := by
    refine List.Forall₂.flip (h.imp (fun t u htu => ?_))
    exact (Term.same_iff u t).mpr ⟨htu.1.symm, (sameAll_iff _ _).mpr htu.2.flip⟩
  exact (same_nested_iff f e).mpr ((Term.sameAll_iff _ _).mpr flipped)

theorem Operand.same_trans {x y z : Operand} (h : x.same y) (h' : y.same z) : x.same z := by
  refine rel_of_same (R := fun x y => ∀ z, y.same z → x.same z) (fun n z h => h)
    (fun e f h z h' => ?_) x y h z h'
  cases z with
  | input n => simp [same] at h'
  | nested g =>
    rw [same_nested_iff, Term.sameAll_iff] at h' ⊢
    refine forall₂_comp (fun t u w htu huw => ?_) h h'
    obtain ⟨hop, operands⟩ := (Term.same_iff u w).mp huw
    refine (Term.same_iff t w).mpr ⟨htu.1.trans hop, (sameAll_iff _ _).mpr ?_⟩
    exact forall₂_comp (fun x y z hxy => hxy z) htu.2 ((sameAll_iff _ _).mp operands)

/-- Operands that are the same mention the same names. -/
theorem Operand.mentions_of_same {x y : Operand} (h : x.same y) : x.mentions = y.mentions := by
  have operands : ∀ {xs ys : List Operand}, List.Forall₂ (fun x y => x.mentions = y.mentions) xs ys →
      Operand.mentionsAll xs = Operand.mentionsAll ys := by
    intro xs ys hxs
    induction hxs with
    | nil => rfl
    | cons hxy _ ih => rw [mentionsAll_cons, mentionsAll_cons, hxy, ih]
  have terms : ∀ {ts us : List Term},
      List.Forall₂ (Term.Alike (fun x y => x.mentions = y.mentions)) ts us →
      Term.mentionsAll ts = Term.mentionsAll us := by
    intro ts us hts
    induction hts with
    | nil => rfl
    | cons htu _ ih => rw [Term.mentionsAll_cons, Term.mentionsAll_cons, operands htu.2, ih]
  refine rel_of_same (R := fun x y => x.mentions = y.mentions) (fun _ => rfl) (fun e f h => ?_) x y h
  obtain ⟨_, _, _, _⟩ := e
  obtain ⟨_, _, _, _⟩ := f
  exact terms h

/-! ## Same operands, same value -/

theorem Term.runAll_of_operands {v : Valuation} {ts us : List Term} (acc : Running)
    (h : List.Forall₂ (Term.Alike (fun x y => x.meaning v = y.meaning v)) ts us) :
    Term.runAll v ts acc = Term.runAll v us acc := by
  induction h generalizing acc with
  | nil => rfl
  | @cons t u ts us htu _ ih =>
    have operands : t.operands.map (Operand.meaning v) = u.operands.map (Operand.meaning v) := by
      rw [← List.forall₂_eq_eq_eq, List.forall₂_map_left_iff, List.forall₂_map_right_iff]
      exact htu.2
    rw [runAll_cons, runAll_cons, Term.run, Term.run, htu.1, operands]
    exact ih _

theorem Operand.meaning_eq_of_same (v : Valuation) (x y : Operand) (h : x.same y) :
    x.meaning v = y.meaning v := by
  refine rel_of_same (R := fun x y => x.meaning v = y.meaning v) (fun _ => rfl)
    (fun e f operands => ?_) x y h
  rw [meaning_nested, meaning_nested, Expression.meaning_eq, Expression.meaning_eq]
  exact congrArg Running.value (Term.runAll_of_operands _ operands)

theorem Term.runAll_of_sameAll {v : Valuation} {ts us : List Term} (acc : Running)
    (h : Term.sameAll ts us) : Term.runAll v ts acc = Term.runAll v us acc := by
  apply Term.runAll_of_operands
  refine ((Term.sameAll_iff ts us).mp h).imp (fun t u htu => ?_)
  obtain ⟨operator, operands⟩ := (Term.same_iff t u).mp htu
  exact ⟨operator, ((Operand.sameAll_iff _ _).mp operands).imp (Operand.meaning_eq_of_same v)⟩

/-! ## Operands among others -/

theorem Operand.isAmong_of_mem {x : Operand} {xs : List Operand} (h : x ∈ xs) : x.isAmong xs :=
  List.any_eq_true.mpr ⟨x, h, x.same_refl⟩

theorem Operand.exists_of_isAmong {x : Operand} {xs : List Operand} (h : x.isAmong xs)
    (v : Valuation) : ∃ y ∈ xs, y.meaning v = x.meaning v := by
  obtain ⟨y, hy, hs⟩ := List.any_eq_true.mp h
  exact ⟨y, hy, y.meaning_eq_of_same v x hs⟩

theorem Operand.mem_values_of_isAmong {x : Operand} {xs : List Operand} (h : x.isAmong xs)
    (v : Valuation) : x.meaning v ∈ xs.map (Operand.meaning v) := by
  obtain ⟨y, hy, hm⟩ := Operand.exists_of_isAmong h v
  exact List.mem_map.mpr ⟨y, hy, hm⟩

theorem Operand.values_subset_of_allAmong {xs ys : List Operand} (h : Operand.allAmong xs ys)
    (v : Valuation) : xs.map (Operand.meaning v) ⊆ ys.map (Operand.meaning v) := by
  intro w hw
  obtain ⟨x, hx, rfl⟩ := List.mem_map.mp hw
  exact Operand.mem_values_of_isAmong (List.all_eq_true.mp h x hx) v

theorem Operand.distinct_sublist (seen xs : List Operand) :
    (Operand.distinct seen xs).Sublist xs := by
  induction xs generalizing seen with
  | nil => exact .slnil
  | cons x xs ih =>
    simp only [Operand.distinct]
    split
    · exact (ih seen).cons x
    · exact (ih (x :: seen)).cons_cons x

theorem Operand.mem_distinct {x : Operand} {seen xs : List Operand}
    (h : x ∈ Operand.distinct seen xs) : x ∈ xs :=
  (Operand.distinct_sublist seen xs).subset h

/-- Dropping repeated operands drops no value. -/
theorem Operand.mem_values_distinct {v : Valuation} {x : Operand} {xs : List Operand}
    (seen : List Operand) (h : x ∈ xs) : x.meaning v ∈ seen.map (Operand.meaning v) ∨
      x.meaning v ∈ (Operand.distinct seen xs).map (Operand.meaning v) := by
  induction xs generalizing seen with
  | nil => simp at h
  | cons y xs ih =>
    simp only [Operand.distinct]
    rcases List.mem_cons.mp h with rfl | h
    · split
      · exact .inl (Operand.mem_values_of_isAmong ‹_› v)
      · right; simp
    · split
      · exact ih seen h
      · rcases ih (y :: seen) h with hs | hd
        · rw [List.map_cons, List.mem_cons] at hs
          rcases hs with hs | hs
          · right; rw [hs]; simp
          · exact .inl hs
        · right; rw [List.map_cons]; exact List.mem_cons_of_mem _ hd

theorem Operand.mem_values_distinct_iff (v : Valuation) (xs : List Operand) (w : Option Bool) :
    w ∈ (Operand.distinct [] xs).map (Operand.meaning v) ↔ w ∈ xs.map (Operand.meaning v) := by
  constructor
  · intro h
    obtain ⟨x, hx, rfl⟩ := List.mem_map.mp h
    exact List.mem_map.mpr ⟨x, Operand.mem_distinct hx, rfl⟩
  · intro h
    obtain ⟨x, hx, rfl⟩ := List.mem_map.mp h
    rcases Operand.mem_values_distinct [] hx (v := v) with h | h
    · simp at h
    · exact h

end SwitchingAlgebra
