-- The inputs of an expression: names in ascending order, each with its binding.
-- A name stands at most once, and two maps that answer alike are equal.
import SwitchingAlgebra.Binding

namespace SwitchingAlgebra

/-- Names bound to values, in ascending order of names. -/
structure Bindings where
  entries : List (String × Binding)
  ascending : entries.Pairwise (fun x y => x.1 < y.1)

namespace Bindings

/-! ## Reading -/

/-- No name is bound. -/
def empty : Bindings := ⟨[], List.Pairwise.nil⟩

instance : Inhabited Bindings := ⟨empty⟩

/-- The binding of a name. -/
def get? (m : Bindings) (name : String) : Option Binding := m.entries.lookup name

/-- A name is bound. -/
def contains (m : Bindings) (name : String) : Bool := (m.get? name).isSome

/-- The bound names, in ascending order. -/
def names (m : Bindings) : List String := m.entries.map (·.1)

instance : DecidableEq Bindings := fun m n =>
  decidable_of_iff (m.entries = n.entries) (by cases m; cases n; simp)

/-! ## Writing -/

/-- Writes one entry into an ascending list; the new binding may depend on the old. -/
def updateEntries (name : String) (f : Option Binding → Binding) :
    List (String × Binding) → List (String × Binding)
  | [] => [(name, f none)]
  | (n, b) :: rest =>
    if name < n then (name, f none) :: (n, b) :: rest
    else if name = n then (n, f (some b)) :: rest
    else (n, b) :: updateEntries name f rest

/-- An entry after the write is the written one or was there before. -/
theorem mem_updateEntries {name : String} {f : Option Binding → Binding}
    {es : List (String × Binding)} {e : String × Binding} (h : e ∈ updateEntries name f es) :
    e.1 = name ∨ e ∈ es := by
  induction es with
  | nil => simp [updateEntries] at h; simp [h]
  | cons x rest ih =>
    obtain ⟨n, b⟩ := x
    simp only [updateEntries] at h
    split at h
    · rcases List.mem_cons.mp h with h | h
      · simp [h]
      · exact Or.inr h
    · split at h
      · rename_i he
        rcases List.mem_cons.mp h with h | h
        · simp [h, he]
        · exact Or.inr (List.mem_cons_of_mem _ h)
      · rcases List.mem_cons.mp h with h | h
        · simp [h]
        · exact (ih h).imp id (List.mem_cons_of_mem _)

theorem updateEntries_ascending {name : String} {f : Option Binding → Binding}
    {es : List (String × Binding)} (h : es.Pairwise (fun x y => x.1 < y.1)) :
    (updateEntries name f es).Pairwise (fun x y => x.1 < y.1) := by
  induction es with
  | nil => simp [updateEntries]
  | cons x rest ih =>
    obtain ⟨n, b⟩ := x
    obtain ⟨hn, hrest⟩ := List.pairwise_cons.mp h
    simp only [updateEntries]
    split
    · rename_i hlt
      refine List.pairwise_cons.mpr ⟨?_, h⟩
      intro e he
      rcases List.mem_cons.mp he with he | he
      · simpa [he] using hlt
      · exact String.lt_trans hlt (hn e he)
    · split
      · exact List.pairwise_cons.mpr ⟨hn, hrest⟩
      · rename_i hlt hne
        refine List.pairwise_cons.mpr ⟨?_, ih hrest⟩
        intro e he
        rcases mem_updateEntries he with he | he
        · rw [he]
          rcases String.le_total n name with hle | hle
          · refine String.not_le.mp (fun hge => hne ?_)
            exact String.le_antisymm hge hle
          · exact absurd (String.not_le.mp (fun hge => hne (String.le_antisymm hle hge))) hlt
        · exact hn e he

/-- Writes the binding of one name; the new binding may depend on the old. -/
def update (m : Bindings) (name : String) (f : Option Binding → Binding) : Bindings :=
  ⟨updateEntries name f m.entries, updateEntries_ascending m.ascending⟩

/-- Binds a name that is not bound yet. -/
def insertNew (m : Bindings) (name : String) (b : Binding) : Bindings :=
  m.update name (·.getD b)

/-- Assigns a raw value to a name, which is bound first when it is new. -/
def assign (m : Bindings) (name : String) (v : Bool) : Bindings :=
  m.update name (fun b => (b.getD .unresolved).assign v)

/-- Gives the inversion flag of a name, which is bound first when it is new. -/
def setInverted (m : Bindings) (name : String) (flag : Bool) : Bindings :=
  m.update name (fun b => (b.getD .unresolved).setInverted flag)

/-- Flips the inversion flag of a bound name. -/
def toggle (m : Bindings) (name : String) : Bindings :=
  if m.contains name then m.update name (fun b => (b.getD .unresolved).toggle) else m

/-- Adds the bindings of `other` whose names are not bound yet. -/
def merge (m other : Bindings) : Bindings :=
  other.entries.foldl (fun acc e => acc.insertNew e.1 e.2) m

/-- Keeps the names that pass the test. -/
def keep (m : Bindings) (p : String → Bool) : Bindings :=
  ⟨m.entries.filter (fun e => p e.1), m.ascending.filter _⟩

/-- Replaces every binding by the one that `outer` has for its name, where it has one. -/
def refineBy (m outer : Bindings) : Bindings :=
  ⟨m.entries.map (fun e => (e.1, (outer.get? e.1).getD e.2)), by
    rw [List.pairwise_map]; exact m.ascending⟩

/-! ## What a look-up answers after a write -/

@[simp] theorem get?_empty (name : String) : empty.get? name = none := rfl

theorem lookup_cons_entry (n : String) (b : Binding) (rest : List (String × Binding)) (x : String) :
    List.lookup x ((n, b) :: rest) = if x = n then some b else rest.lookup x := by
  by_cases h : x = n
  · simp [h]
  · simp [List.lookup_cons, h, beq_false_of_ne h]

/-- A name below every entry is not among them. -/
theorem lookup_eq_none_of_below {es : List (String × Binding)} {x : String}
    (h : ∀ e ∈ es, x < e.1) : es.lookup x = none := by
  rw [List.lookup_eq_none_iff]
  intro e he
  simp only [bne_iff_ne, ne_eq]
  intro heq
  exact String.lt_irrefl _ (heq ▸ h e he)

theorem lookup_updateEntries (name : String) (f : Option Binding → Binding)
    (es : List (String × Binding)) (h : es.Pairwise (fun x y => x.1 < y.1)) (x : String) :
    (updateEntries name f es).lookup x =
      if x = name then some (f (es.lookup name)) else es.lookup x := by
  induction es with
  | nil => simp [updateEntries, lookup_cons_entry]
  | cons e rest ih =>
    obtain ⟨n, b⟩ := e
    obtain ⟨hn, hrest⟩ := List.pairwise_cons.mp h
    simp only [updateEntries]
    split
    · rename_i hlt
      have hne : name ≠ n := fun he => String.lt_irrefl _ (he ▸ hlt)
      have absent : rest.lookup name = none :=
        lookup_eq_none_of_below (fun e he => String.lt_trans hlt (hn e he))
      simp [lookup_cons_entry, hne, absent]
    · split
      · rename_i he
        subst he
        by_cases hx : x = name <;> simp [lookup_cons_entry, hx]
      · rename_i hne
        by_cases hx : x = name
        · subst hx
          simp [lookup_cons_entry, hne, ih hrest]
        · simp [lookup_cons_entry, hx, ih hrest]

theorem get?_update (m : Bindings) (name : String) (f : Option Binding → Binding) (x : String) :
    (m.update name f).get? x = if x = name then some (f (m.get? name)) else m.get? x :=
  lookup_updateEntries name f m.entries m.ascending x

theorem get?_insertNew (m : Bindings) (name : String) (b : Binding) (x : String) :
    (m.insertNew name b).get? x = (m.get? x).or (if x = name then some b else none) := by
  rw [insertNew, get?_update]
  by_cases h : x = name
  · subst h; cases m.get? x <;> simp
  · simp [h]

theorem get?_merge (m other : Bindings) (x : String) :
    (m.merge other).get? x = (m.get? x).or (other.get? x) := by
  have step : ∀ (es : List (String × Binding)) (acc : Bindings),
      (es.foldl (fun acc e => acc.insertNew e.1 e.2) acc).get? x =
        (acc.get? x).or (es.lookup x) := by
    intro es
    induction es with
    | nil => simp
    | cons e rest ih =>
      intro acc
      obtain ⟨n, b⟩ := e
      rw [List.foldl_cons, ih, get?_insertNew, lookup_cons_entry, Option.or_assoc]
      split <;> simp
  exact step other.entries m

/-! ## Maps that answer alike are equal -/

theorem entries_eq_of_lookup_eq {es fs : List (String × Binding)}
    (he : es.Pairwise (fun x y => x.1 < y.1)) (hf : fs.Pairwise (fun x y => x.1 < y.1))
    (h : ∀ x, es.lookup x = fs.lookup x) : es = fs := by
  induction es generalizing fs with
  | nil =>
    cases fs with
    | nil => rfl
    | cons y fs => have := h y.1; rw [lookup_cons_entry y.1 y.2 fs] at this; simp at this
  | cons x es ih =>
    obtain ⟨n, b⟩ := x
    cases fs with
    | nil => have := h n; simp at this
    | cons y fs =>
      obtain ⟨m, c⟩ := y
      obtain ⟨hn, hes⟩ := List.pairwise_cons.mp he
      obtain ⟨hm, hfs⟩ := List.pairwise_cons.mp hf
      have first : n = m := by
        rcases String.le_total n m with hle | hle
        · refine Decidable.byContradiction (fun hne => ?_)
          have hlt : n < m := String.not_le.mp (fun hge => hne (String.le_antisymm hle hge))
          have := h n
          rw [lookup_cons_entry, if_pos rfl, lookup_cons_entry, if_neg hne,
            lookup_eq_none_of_below (fun e he => String.lt_trans hlt (hm e he))] at this
          simp at this
        · refine Decidable.byContradiction (fun hne => ?_)
          have hlt : m < n := String.not_le.mp (fun hge => hne (String.le_antisymm hge hle))
          have := h m
          rw [lookup_cons_entry, if_neg (Ne.symm hne), lookup_cons_entry, if_pos rfl,
            lookup_eq_none_of_below (fun e he => String.lt_trans hlt (hn e he))] at this
          simp at this
      subst first
      have value := h n
      simp only [lookup_cons_entry, if_true, Option.some.injEq] at value
      subst value
      refine congrArg _ (ih hes hfs (fun x => ?_))
      by_cases hx : x = n
      · subst hx
        rw [lookup_eq_none_of_below hn, lookup_eq_none_of_below hm]
      · have := h x
        simpa [lookup_cons_entry, hx] using this

theorem ext_get? {m n : Bindings} (h : ∀ x, m.get? x = n.get? x) : m = n := by
  obtain ⟨es, he⟩ := m
  obtain ⟨fs, hf⟩ := n
  simp only [mk.injEq]
  exact entries_eq_of_lookup_eq he hf h

end Bindings

end SwitchingAlgebra
