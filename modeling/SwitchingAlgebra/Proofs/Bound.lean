-- What a term binds: what was bound stays bound, and what is new was brought along by an
-- operand or by an inversion flag.
import SwitchingAlgebra.Parsing.Reduction
import SwitchingAlgebra.Proofs.Meaning

namespace SwitchingAlgebra

/-! ## Bound names stay bound -/

namespace Bindings

theorem contains_update (m : Bindings) (name : String) (f : Option Binding → Binding) {x : String}
    (h : m.contains x) : (m.update name f).contains x := by
  unfold contains at h ⊢
  rw [get?_update]
  split
  · rfl
  · exact h

theorem contains_toggle (m : Bindings) (name : String) {x : String} (h : m.contains x) :
    (m.toggle name).contains x := by
  unfold toggle
  split
  · exact m.contains_update name _ h
  · exact h

theorem contains_merge (m other : Bindings) (x : String) :
    (m.merge other).contains x ↔ m.contains x ∨ other.contains x := by
  unfold contains
  rw [get?_merge]
  cases m.get? x <;> simp

theorem contains_insertNew (m : Bindings) (name : String) (b : Binding) (x : String) :
    (m.insertNew name b).contains x ↔ m.contains x ∨ x = name := by
  unfold contains
  rw [get?_insertNew]
  by_cases hx : x = name
  · cases m.get? x <;> simp [hx]
  · cases m.get? x <;> simp [hx]

end Bindings

namespace Operand

theorem contains_bindInto {m : Bindings} (x : Operand) {n : String} (h : m.contains n) :
    (x.bindInto m).contains n := by
  cases x with
  | input name => exact (m.contains_insertNew name _ n).mpr (.inl h)
  | nested e => exact (m.contains_merge e.inputs n).mpr (.inl h)

/-- An operand brings along the names that it mentions. -/
theorem bindInto_binds (m : Bindings) {x : Operand}
    (hx : ∀ e : Expression, x = .nested e → e.inputs.Binds e.mentions) :
    (x.bindInto m).Binds x.mentions := by
  intro n hn
  cases x with
  | input name => exact (m.contains_insertNew name _ n).mpr (.inr (by simpa [mentions] using hn))
  | nested e => exact (m.contains_merge e.inputs n).mpr (.inr (hx e rfl n hn))

theorem contains_foldl_bindInto {m : Bindings} (xs : List Operand) {n : String}
    (h : m.contains n) : (xs.foldl bindInto m).contains n := by
  induction xs generalizing m with
  | nil => exact h
  | cons x xs ih => exact ih (x.contains_bindInto h)

theorem foldl_bindInto_binds (m : Bindings) {xs : List Operand}
    (hxs : ∀ e : Expression, .nested e ∈ xs → e.inputs.Binds e.mentions) {x : Operand}
    (hx : x ∈ xs) : (xs.foldl bindInto m).Binds x.mentions := by
  induction xs generalizing m with
  | nil => simp at hx
  | cons y xs ih =>
    rcases List.mem_cons.mp hx with rfl | hx
    · intro n hn
      exact contains_foldl_bindInto xs
        (bindInto_binds m (fun e he => hxs e (by simp [he])) n hn)
    · exact ih _ (fun e he => hxs e (List.mem_cons_of_mem _ he)) hx

/-- The operand brings along this binding of a name. -/
def Brings (n : String) (b : Binding) : Operand → Prop
  | .input name => n = name ∧ b = .unresolved
  | .nested e => e.inputs.get? n = some b

/-- A name is bound as it was before, or as an operand brings it along. -/
theorem get?_foldl_bindInto {m : Bindings} {xs : List Operand} {n : String} {b : Binding}
    (h : (xs.foldl bindInto m).get? n = some b) :
    m.get? n = some b ∨ ∃ x ∈ xs, x.Brings n b := by
  induction xs generalizing m with
  | nil => exact .inl h
  | cons x xs ih =>
    rcases ih h with h | ⟨y, hy, hb⟩
    · cases x with
      | input name =>
        rw [bindInto, Bindings.get?_insertNew, Option.or_eq_some_iff] at h
        rcases h with h | ⟨-, h⟩
        · exact .inl h
        · split at h
          · rename_i hn
            exact .inr ⟨.input name, by simp, hn, (Option.some.inj h).symm⟩
          · cases h
      | nested e =>
        rw [bindInto, Bindings.get?_merge, Option.or_eq_some_iff] at h
        rcases h with h | ⟨-, h⟩
        · exact .inl h
        · exact .inr ⟨.nested e, by simp, h⟩
    · exact .inr ⟨y, List.mem_cons_of_mem _ hy, hb⟩

end Operand

theorem Expression.mentions_append (e : Expression) (op : Operator) (xs : List Operand)
    (n : String) :
    n ∈ (e.append op xs).mentions ↔ n ∈ e.mentions ∨ ∃ x ∈ xs, n ∈ x.mentions := by
  rw [mem_mentions, mem_mentions]
  constructor
  · rintro ⟨t, ht, x, hx, hn⟩
    rcases List.mem_append.mp ht with ht | ht
    · exact .inl ⟨t, ht, x, hx, hn⟩
    · exact .inr ⟨x, by rwa [List.mem_singleton.mp ht] at hx, hn⟩
  · rintro (⟨t, ht, x, hx, hn⟩ | ⟨x, hx, hn⟩)
    · exact ⟨t, List.mem_append_left _ ht, x, hx, hn⟩
    · exact ⟨⟨op, xs⟩, List.mem_append_right _ (by simp), x, hx, hn⟩

/-- A term brings along the names that it mentions. -/
theorem Expression.binds_append {e : Expression} (names : e.inputs.Binds e.mentions) (op : Operator)
    {xs : List Operand} (hxs : ∀ n : Expression, .nested n ∈ xs → n.inputs.Binds n.mentions) :
    (e.append op xs).inputs.Binds (e.append op xs).mentions := by
  intro n hn
  rcases (e.mentions_append op xs n).mp hn with hn | ⟨x, hx, hn⟩
  · exact Operand.contains_foldl_bindInto xs (names n hn)
  · exact Operand.foldl_bindInto_binds e.inputs hxs hx n hn

/-! ## Inversion flags -/

theorem Expression.terms_foldl_setInverted (names : List String) (e : Expression) :
    (names.foldl (fun e n => e.setInverted n true) e).terms = e.terms := by
  induction names generalizing e with
  | nil => rfl
  | cons n names ih => exact ih (e.setInverted n true)

/-- Just the inverted inputs have their flag set. -/
theorem Expression.get?_foldl_setInverted (names : List String) (e : Expression) (n : String) :
    (names.foldl (fun e n => e.setInverted n true) e).inputs.get? n =
      if n ∈ names then some (((e.inputs.get? n).getD .unresolved).setInverted true)
      else e.inputs.get? n := by
  induction names generalizing e with
  | nil => simp
  | cons name names ih =>
    rw [List.foldl_cons, ih, Expression.setInverted, Bindings.setInverted, Bindings.get?_update]
    by_cases hn : n = name
    · subst hn
      simp [Binding.setInverted]
    · simp [hn]

namespace Reduction

theorem terms_extend (e : Expression) (op : Operator) (xs : List Operand)
    (inverted : List String) : (extend e op xs inverted).terms = e.terms ++ [⟨op, xs⟩] :=
  Expression.terms_foldl_setInverted inverted (e.append op xs)

theorem get?_extend (e : Expression) (op : Operator) (xs : List Operand) (inverted : List String)
    (n : String) : (extend e op xs inverted).inputs.get? n =
      if n ∈ inverted then
        some ((((xs.foldl Operand.bindInto e.inputs).get? n).getD .unresolved).setInverted true)
      else (xs.foldl Operand.bindInto e.inputs).get? n :=
  Expression.get?_foldl_setInverted inverted (e.append op xs) n

theorem contains_extend (e : Expression) (op : Operator) (xs : List Operand)
    (inverted : List String) {n : String}
    (h : (xs.foldl Operand.bindInto e.inputs).contains n) :
    (extend e op xs inverted).inputs.contains n := by
  unfold Bindings.contains at h ⊢
  rw [get?_extend]
  split
  · rfl
  · exact h

end Reduction

end SwitchingAlgebra
