-- Inverting inputs is flipping their values. What an evaluation sees of a name is whether it is
-- bound, and to which effective value; so both lead to the same result, or to the same error.
import SwitchingAlgebra.Proofs.Inverting
import SwitchingAlgebra.Proofs.Outputs

namespace SwitchingAlgebra

/-! ## What an evaluation sees -/

/-- The effective value of a name, if it is bound. -/
def Bindings.seen (m : Bindings) (n : String) : Option (Option Bool) := (m.get? n).map Binding.value

section

variable {m m' : Bindings} {d : Nat}

theorem Operand.valuesOf_congr {xs : List Operand}
    (h : ∀ x ∈ xs, x.valueIn m d = x.valueIn m' d) :
    Operand.valuesOf m d xs = Operand.valuesOf m' d xs := by
  induction xs with
  | nil => rfl
  | cons x xs ih =>
    rw [List.forall_mem_cons] at h
    rw [valuesOf, valuesOf, h.1, ih h.2]

theorem Term.foldAll_congr {ts : List Term} (acc : Running)
    (h : ∀ t ∈ ts, ∀ x ∈ t.operands, x.valueIn m d = x.valueIn m' d) :
    Term.foldAll m d ts acc = Term.foldAll m' d ts acc := by
  induction ts generalizing acc with
  | nil => rfl
  | cons t ts ih =>
    obtain ⟨op, xs⟩ := t
    rw [List.forall_mem_cons] at h
    simp only [foldAll, Operand.valuesOf_congr h.1, ih _ h.2]

theorem Expression.fold_congr_operands {e : Expression}
    (h : ∀ t ∈ e.terms, ∀ x ∈ t.operands, x.valueIn m d = x.valueIn m' d) :
    e.fold m d = e.fold m' d := by
  obtain ⟨_, ts, _, _⟩ := e
  simp only [fold, Term.foldAll_congr _ h]

/-- What is seen of a name in a nested expression is what is seen of it around, where it is
bound there. -/
theorem Expression.seen_scopeIn (e : Expression) (m : Bindings) (n : String) :
    (e.scopeIn m).seen n = (m.seen n).or (e.inputs.seen n) := by
  rw [Bindings.seen, scopeIn, Bindings.get?_merge, Option.map_or]
  rfl

theorem Operand.valueIn_congr (x : Operand) (h : ∀ n ∈ x.mentions, m.seen n = m'.seen n) :
    x.valueIn m d = x.valueIn m' d := by
  induction x using Operand.induct generalizing m m' d with
  | input n =>
    have same : m.seen n = m'.seen n := h n (by simp [mentions])
    unfold Bindings.seen at same
    simp only [valueIn]
    cases hm : m.get? n <;> cases hm' : m'.get? n <;> simp_all
  | nested e ih =>
    rw [valueIn, valueIn]
    refine Expression.fold_congr_operands (fun t ht x hx => ih t ht x hx (fun n hn => ?_))
    rw [e.seen_scopeIn, e.seen_scopeIn, h n ((e.mem_mentions n).mpr ⟨t, ht, x, hx, hn⟩)]

/-- An evaluation comes to the same, and fails in the same way, where the same is seen of every
name that is mentioned. -/
theorem Expression.fold_congr {e : Expression} (h : ∀ n ∈ e.mentions, m.seen n = m'.seen n) :
    e.fold m d = e.fold m' d :=
  fold_congr_operands (fun t ht x hx => x.valueIn_congr
    (fun n hn => h n ((e.mem_mentions n).mpr ⟨t, ht, x, hx, hn⟩)))

end

/-! ## Names that are listed several times -/

/-- The name stands in the list an odd number of times. -/
def oddlyListed (names : List String) (n : String) : Bool := names.count n % 2 == 1

theorem oddlyListed_cons (name : String) (names : List String) (n : String) :
    oddlyListed (name :: names) n = (oddlyListed names n != (name == n)) := by
  unfold oddlyListed
  rw [List.count_cons]
  rcases Nat.mod_two_eq_zero_or_one (names.count n) with even | odd
  · cases name == n <;> simp [Nat.add_mod, even]
  · cases name == n <;> simp [Nat.add_mod, odd]

theorem oddlyListed_of_not_mem {names : List String} {n : String} (h : n ∉ names) :
    oddlyListed names n = false := by
  rw [oddlyListed, List.count_eq_zero_of_not_mem h]
  rfl

/-- The values of the names that are listed an odd number of times are flipped. -/
def Assignment.flip (s : Assignment) (names : List String) : Assignment :=
  ⟨s.values.map (fun (n, v) => (n, v != oddlyListed names n))⟩

theorem Assignment.get?_flip (s : Assignment) (names : List String) (n : String) :
    (s.flip names).get? n = (s.get? n).map (· != oddlyListed names n) := by
  obtain ⟨values⟩ := s
  simp only [get?, flip]
  induction values with
  | nil => rfl
  | cons entry rest ih =>
    obtain ⟨name, v⟩ := entry
    rw [List.map_cons, List.lookup_cons, List.lookup_cons]
    cases hn : n == name with
    | false => exact ih
    | true =>
      rw [beq_iff_eq] at hn
      subst hn
      rfl

/-! ## Names that are inverted one after the other -/

/-- Each name has its flag flipped as often as it is listed. -/
theorem Bindings.get?_foldl_toggle (m : Bindings) (names : List String) (n : String) :
    (names.foldl toggle m).get? n =
      (m.get? n).map (fun b => { b with inverted := b.inverted != oddlyListed names n }) := by
  induction names generalizing m with
  | nil =>
    have even : oddlyListed [] n = false := rfl
    simp [even]
  | cons name names ih =>
    rw [List.foldl_cons, ih, get?_toggle, oddlyListed_cons]
    by_cases same : n = name
    · subst same
      rw [if_pos rfl, Option.map_map]
      congr 1
      funext b
      simp only [Function.comp_apply, Binding.toggle, beq_self_eq_true]
      cases b.inverted <;> cases oddlyListed names n <;> rfl
    · rw [if_neg same, beq_false_of_ne (Ne.symm same), Bool.bne_false]

theorem Output.foldl_invertInput (o : Output) (names : List String) :
    let o' := names.foldl (fun o n => o.invertInput n) o
    o'.snapshot.terms = o.snapshot.terms ∧
      o'.snapshot.inputs = names.foldl Bindings.toggle o.snapshot.inputs := by
  induction names generalizing o with
  | nil => exact ⟨rfl, rfl⟩
  | cons name names ih => exact ih (o.invertInput name)

namespace Expression

/-- Bound names are inverted at the top and in every output. -/
theorem invert_eq {e : Expression} {names : List String}
    (bound : ∀ n ∈ names, e.inputs.contains n) : e.invert names =
      { e with
        inputs := names.foldl Bindings.toggle e.inputs
        outputs := e.outputs.map (fun o => names.foldl (fun o n => o.invertInput n) o) } := by
  induction names generalizing e with
  | nil =>
    cases e
    simp [invert]
  | cons name names ih =>
    rw [List.forall_mem_cons] at bound
    have still : ∀ n ∈ names, (e.inputs.toggle name).contains n :=
      fun n hn => e.inputs.contains_toggle name (bound.2 n hn)
    have step : e.invert (name :: names) = (e.invertInput name).invert names := rfl
    rw [step, invertInput, if_pos bound.1, ih still, List.map_map]
    rfl

section

variable {e : Expression} {names : List String} {s : Assignment}
  (bound : ∀ n ∈ names, e.inputs.contains n) (assigned : ∀ n ∈ names, s.contains n)
include bound assigned

/-- The flag that is flipped and the value that is flipped look alike. -/
theorem seen_scope_invert (n : String) :
    ((e.invert names).scope s).seen n = (e.scope (s.flip names)).seen n := by
  rw [Bindings.seen, Bindings.seen, scope, scope, Assignment.get?_applyTo, Assignment.get?_applyTo,
    Assignment.get?_flip, invert_eq bound]
  simp only [Bindings.get?_foldl_toggle]
  by_cases listed : n ∈ names
  · obtain ⟨b, hb⟩ := Option.isSome_iff_exists.mp (bound n listed)
    obtain ⟨v, hv⟩ := Option.isSome_iff_exists.mp (assigned n listed)
    simp only [hb, hv, Option.map_some, Option.getD_some, Binding.value_assign]
    cases v <;> cases b.inverted <;> cases oddlyListed names n <;> rfl
  · simp only [oddlyListed_of_not_mem listed, Bool.bne_false, Option.map_id_fun', id]

/-- The names that a snapshot binds otherwise than before are bound around it. -/
theorem seen_snapshot_invert (o : Output) (n : String) :
    let o' := names.foldl (fun o n => o.invertInput n) o
    (o'.snapshot.scopeIn ((e.invert names).scope s)).seen n =
      (o.snapshot.scopeIn (e.scope (s.flip names))).seen n := by
  intro o'
  have inputs : o'.snapshot.inputs = _ := (o.foldl_invertInput names).2
  rw [seen_scopeIn, seen_scopeIn, seen_scope_invert bound assigned, inputs]
  by_cases listed : n ∈ names
  · have outer := (s.flip names).contains_applyTo (bound n listed)
    obtain ⟨b, hb⟩ := Option.isSome_iff_exists.mp outer
    have seen : (e.scope (s.flip names)).seen n = some b.value := congrArg (Option.map _) hb
    rw [seen, Option.some_or, Option.some_or]
  · congr 1
    simp only [Bindings.seen, Bindings.get?_foldl_toggle, oddlyListed_of_not_mem listed,
      Bool.bne_false, Option.map_id_fun', id]

/-- Inverting bound names that have a value comes to the same as flipping the value of each as
often as it is listed: for the expression, and for its outputs one by one. -/
theorem valueOf_invert :
    (e.invert names).valueOf s = e.valueOf (s.flip names) ∧
      (e.invert names).outputs.map (fun o => (e.invert names).valueOfOutput o s) =
        e.outputs.map (fun o => e.valueOfOutput o (s.flip names)) := by
  have terms : (e.invert names).terms = e.terms := by rw [invert_eq bound]
  have outputs : (e.invert names).outputs =
      e.outputs.map (fun o => names.foldl (fun o n => o.invertInput n) o) := by rw [invert_eq bound]
  constructor
  · rw [valueOf, valueOf, fold_of_terms terms]
    exact fold_congr (fun n _ => seen_scope_invert bound assigned n)
  · rw [outputs, List.map_map]
    refine List.map_congr_left (fun o _ => ?_)
    simp only [Function.comp_apply, valueOfOutput]
    rw [fold_of_terms (o.foldl_invertInput names).1]
    exact fold_congr (fun n _ => seen_snapshot_invert bound assigned o n)

end

/-- `a` is inverted three times and `b` once, which is inverted in the nested sum already and is
not there where it counts. The output is the negation of it all. -/
theorem valueOf_invert_of_repeated :
    let sum := (empty.append .or [.input "b", .input "c"]).setInverted "b" true
    let e := ((empty.append .xor [.input "a", .nested sum]).setInverted "b" false).addLabel
      (some "q") true
    let names := ["a", "b", "a", "a"]
    let s : Assignment := ⟨[("a", true), ("b", false), ("c", false)]⟩
    (∀ n ∈ names, e.inputs.contains n) ∧ (∀ n ∈ names, s.contains n) ∧
      s.flip names = ⟨[("a", false), ("b", true), ("c", false)]⟩ ∧
      (e.invert names).valueOf s = .ok (some true) ∧
      (e.invert names).outputs.map (fun o => (e.invert names).valueOfOutput o s) =
        [.ok (some false)] := by
  intro sum e names s
  have bound : ∀ n ∈ names, e.inputs.contains n := by decide
  have assigned : ∀ n ∈ names, s.contains n := by decide
  obtain ⟨value, outputs⟩ := valueOf_invert bound assigned
  refine ⟨bound, assigned, by decide, value.trans ?_, outputs.trans ?_⟩
  · decide
  · decide

end Expression

end SwitchingAlgebra
