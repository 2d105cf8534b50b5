-- How the result so far takes a term. An operator other than NOT gathers the result so far
-- and the operand values into one list; AND and OR look only at which values occur in it.
import Mathlib.Data.List.Perm.Basic
import SwitchingAlgebra.Proofs.Meaning

namespace SwitchingAlgebra

/-! ## Gathering -/

namespace Running

/-- The result so far as the first operand of the next term. -/
def operands : Running → List (Option Bool)
  | .blank => []
  | .known b => [some b]
  | .unknown => [none]

/-- The result of an operator over operand values, blank when there are none. -/
def gather (op : Operator) (vs : List (Option Bool)) : Running :=
  if vs.isEmpty then .blank else .ofValue (op.reduce vs)

end Running

theorem Operator.reduce_eq_none {op : Operator} {vs : List (Option Bool)} (h : none ∈ vs) :
    op.reduce vs = none := by
  have absent : vs.mapM id = none := by
    induction vs with
    | nil => simp at h
    | cons v vs ih =>
      rcases List.mem_cons.mp h with hv | hvs
      · subst hv
        rfl
      · cases v <;> simp [ih hvs]
  simp [Operator.reduce, absent]

theorem Operator.reduce_map_some (op : Operator) (bs : List Bool) :
    op.reduce (bs.map some) = op.combine bs := by
  have present : (bs.map some).mapM id = some bs := by
    induction bs with
    | nil => rfl
    | cons b bs ih => simp [ih]
  simp [Operator.reduce, present]

/-- Values of which none is missing. -/
theorem exists_map_some {vs : List (Option Bool)} (h : none ∉ vs) :
    ∃ bs : List Bool, vs = bs.map some := by
  induction vs with
  | nil => exact ⟨[], rfl⟩
  | cons v vs ih =>
    obtain ⟨bs, rfl⟩ := ih (fun hn => h (List.mem_cons_of_mem _ hn))
    cases v with
    | none => simp at h
    | some b => exact ⟨b :: bs, rfl⟩

namespace Running

theorem step_eq_gather {op : Operator} (h : op ≠ .not) (acc : Running)
    (vs : List (Option Bool)) : acc.step op vs = gather op (acc.operands ++ vs) := by
  cases acc with
  | blank => cases op <;> first | rfl | exact absurd rfl h
  | known b => cases op <;> first | rfl | exact absurd rfl h
  | unknown =>
    have missing : op.reduce (none :: vs) = none := Operator.reduce_eq_none (by simp)
    cases op <;> first | exact absurd rfl h | simp [step, gather, operands, missing, ofValue]

theorem gather_eq_unknown {op : Operator} {vs : List (Option Bool)} (h : none ∈ vs) :
    gather op vs = .unknown := by
  cases vs with
  | nil => simp at h
  | cons v vs => simp [gather, Operator.reduce_eq_none h, ofValue]

/-- A result that is not blank is one operand of the next term. -/
theorem operands_of_ne_blank {acc : Running} (h : acc ≠ .blank) : acc.operands = [acc.value] := by
  cases acc with
  | blank => exact absurd rfl h
  | known b => rfl
  | unknown => rfl

theorem gather_ne_blank {op : Operator} {vs : List (Option Bool)} (h : vs ≠ []) :
    gather op vs ≠ .blank := by
  cases vs with
  | nil => exact absurd rfl h
  | cons v vs => cases hr : op.reduce (v :: vs) <;> simp [gather, hr, ofValue]

/-- A single value passes every operator but NOT. -/
theorem gather_singleton {op : Operator} (h : op ≠ .not) (acc : Running) :
    gather op acc.operands = acc := by
  cases acc with
  | blank => rfl
  | unknown => exact gather_eq_unknown (by simp [operands])
  | known b =>
    have passed : op.reduce ([b].map some) = some b := by
      rw [Operator.reduce_map_some]
      cases op <;> first | rfl | exact absurd rfl h
    simpa [gather, operands, ofValue] using congrArg ofValue passed

/-! ## Results never become blank again -/

theorem step_ne_blank_of_values {op : Operator} {vs : List (Option Bool)} (h : vs ≠ [])
    (acc : Running) : acc.step op vs ≠ .blank := by
  by_cases hop : op = .not
  · subst hop
    cases vs with
    | nil => exact absurd rfl h
    | cons v vs => cases acc <;> cases v <;> simp [step, ofValue]
  · rw [step_eq_gather hop]
    exact gather_ne_blank (by simp [h])

theorem step_ne_blank {op : Operator} {vs : List (Option Bool)} {acc : Running}
    (h : acc ≠ .blank) : acc.step op vs ≠ .blank := by
  by_cases hop : op = .not
  · subst hop
    cases acc with
    | blank => exact absurd rfl h
    | known b => simp [step]
    | unknown => simp [step]
  · rw [step_eq_gather hop, operands_of_ne_blank h]
    exact gather_ne_blank (by simp)

end Running

theorem Term.runAll_ne_blank {v : Valuation} {ts : List Term} {acc : Running}
    (h : acc ≠ .blank) : Term.runAll v ts acc ≠ .blank := by
  induction ts generalizing acc with
  | nil => exact h
  | cons t ts ih => rw [runAll_cons]; exact ih (Running.step_ne_blank h)

/-- Terms of which the first has operands give a result. -/
theorem Term.runAll_ne_blank_of_operands {v : Valuation} {t : Term} (ts : List Term)
    (h : t.operands ≠ []) (acc : Running) : Term.runAll v (t :: ts) acc ≠ .blank := by
  rw [runAll_cons]
  exact Term.runAll_ne_blank (Running.step_ne_blank_of_values (by simpa using h) acc)

/-! ## AND and OR -/

/-- The value that decides an AND or an OR whatever else it is applied to. -/
def Operator.absorbing? : Operator → Option Bool
  | .and => some false
  | .or => some true
  | _ => none

theorem Operator.ne_not_of_absorbing {op : Operator} {z : Bool} (h : op.absorbing? = some z) :
    op ≠ .not := by
  rintro rfl
  cases h

theorem Operator.isDual_iff {op op' : Operator} :
    op.isDual op' ↔ ∃ z, op.absorbing? = some z ∧ op'.absorbing? = some (!z) := by
  cases op <;> cases op' <;> simp [isDual, complement?, absorbing?]

theorem Operator.combine_of_absorbing {op : Operator} {z : Bool} (h : op.absorbing? = some z)
    {bs : List Bool} (hb : bs ≠ []) : op.combine bs = some (if z ∈ bs then z else !z) := by
  have fold : ∀ (bs : List Bool) (b : Bool),
      bs.foldl op.apply b = if z ∈ b :: bs then z else !z := by
    intro bs
    induction bs with
    | nil => intro b; cases op <;> cases h <;> cases b <;> rfl
    | cons c bs ih =>
      intro b
      rw [List.foldl_cons, ih]
      cases op <;> cases h <;> cases b <;> cases c <;> simp [apply]
  obtain ⟨b, bs, rfl⟩ := List.exists_cons_of_ne_nil hb
  cases op <;> cases h <;> exact congrArg some (fold bs b)

namespace Running

/-- AND and OR look only at which values occur. -/
theorem gather_of_absorbing {op : Operator} {z : Bool} (h : op.absorbing? = some z)
    {vs : List (Option Bool)} (hn : vs ≠ []) :
    gather op vs = if none ∈ vs then .unknown else .known (if some z ∈ vs then z else !z) := by
  split
  · exact gather_eq_unknown ‹_›
  · obtain ⟨bs, rfl⟩ := exists_map_some ‹_›
    have hb : bs ≠ [] := by simpa using hn
    simp [gather, Operator.reduce_map_some, Operator.combine_of_absorbing h hb, ofValue, hb]

theorem gather_congr_mem {op : Operator} {z : Bool} (h : op.absorbing? = some z)
    {vs ws : List (Option Bool)} (hm : ∀ v, v ∈ vs ↔ v ∈ ws) : gather op vs = gather op ws := by
  by_cases hv : vs = []
  · subst hv
    have hw : ws = [] := List.eq_nil_iff_forall_not_mem.mpr (fun v hvw => by simpa using (hm v).mpr hvw)
    rw [hw]
  · have hw : ws ≠ [] := by
      obtain ⟨v, hvs⟩ := List.exists_mem_of_ne_nil vs hv
      exact List.ne_nil_of_mem ((hm v).mp hvs)
    rw [gather_of_absorbing h hv, gather_of_absorbing h hw]
    simp only [hm]

end Running

/-! ## Order does not count -/

/-- XOR starts from false as well as from its first value. -/
theorem Operator.combine_xor {bs : List Bool} (h : bs ≠ []) :
    Operator.combine .xor bs = some (bs.foldl (· != ·) false) := by
  obtain ⟨b, bs, rfl⟩ := List.exists_cons_of_ne_nil h
  simp only [combine, List.foldl_cons, Bool.false_bne]
  rfl

theorem Operator.combine_binary_perm {op : Operator} (h : op.isBinaryOnly) {bs cs : List Bool}
    (hp : bs.Perm cs) : op.combine bs = op.combine cs := by
  have hlen := hp.length_eq
  match bs, cs with
  | [], [] => rfl
  | [a], [c] =>
    rw [List.singleton_perm_singleton.mp hp]
  | [a, b], [c, d] =>
    have first := hp.mem_iff (a := true)
    have second := hp.mem_iff (a := false)
    cases op <;> cases a <;> cases b <;> cases c <;> cases d <;> simp_all [combine, apply, isBinaryOnly]
  | _ :: _ :: _ :: _, _ :: _ :: _ :: _ => cases op <;> simp_all [combine, isBinaryOnly]

theorem Operator.combine_perm {op : Operator} (h : op ≠ .not) {bs cs : List Bool}
    (hp : bs.Perm cs) : op.combine bs = op.combine cs := by
  by_cases hb : bs = []
  · rw [hb] at hp ⊢
    rw [List.nil_perm.mp hp]
  have hc : cs ≠ [] := by
    intro hc
    exact hb (List.perm_nil.mp (hc ▸ hp))
  cases op with
  | and => rw [combine_of_absorbing rfl hb, combine_of_absorbing rfl hc]; simp only [hp.mem_iff]
  | or => rw [combine_of_absorbing rfl hb, combine_of_absorbing rfl hc]; simp only [hp.mem_iff]
  | xor =>
    have : Std.Commutative (α := Bool) (· != ·) := ⟨by decide⟩
    have : Std.Associative (α := Bool) (· != ·) := ⟨by decide⟩
    rw [combine_xor hb, combine_xor hc, hp.foldl_op_eq]
  | not => exact absurd rfl h
  | nand => exact combine_binary_perm rfl hp
  | nor => exact combine_binary_perm rfl hp
  | xnor => exact combine_binary_perm rfl hp

theorem Running.gather_perm {op : Operator} (h : op ≠ .not) {vs ws : List (Option Bool)}
    (hp : vs.Perm ws) : gather op vs = gather op ws := by
  by_cases hn : none ∈ vs
  · rw [gather_eq_unknown hn, gather_eq_unknown (hp.mem_iff.mp hn)]
  · obtain ⟨bs, rfl⟩ := exists_map_some hn
    obtain ⟨cs, rfl⟩ := exists_map_some (fun hw => hn (hp.mem_iff.mpr hw))
    have hbool : bs.Perm cs := by simpa [List.filterMap_map] using hp.filterMap id
    simp only [gather, Operator.reduce_map_some, Operator.combine_perm h hbool]
    simp [hbool.isEmpty_eq]

/-! ## Terms in a row -/

/-- An operator that any number of operands may follow. -/
def Operator.isUnbounded (op : Operator) : Bool := op.maxOperands?.isNone

theorem Operator.combine_cons {op : Operator} (h : op.isUnbounded) (b : Bool) (bs : List Bool) :
    op.combine (b :: bs) = some (bs.foldl op.apply b) := by
  cases op <;> first | rfl | exact absurd h (by decide)

theorem Operator.ne_not_of_isUnbounded {op : Operator} (h : op.isUnbounded) : op ≠ .not := by
  rintro rfl
  exact absurd h (by decide)

/-- What was gathered before is gathered further. -/
theorem Running.gather_gather {op : Operator} (h : op.isUnbounded) (vs ws : List (Option Bool)) :
    gather op ((gather op vs).operands ++ ws) = gather op (vs ++ ws) := by
  by_cases hv : none ∈ vs
  · rw [gather_eq_unknown hv, gather_eq_unknown (List.mem_append_left ws hv)]
    exact gather_eq_unknown (by simp [operands])
  by_cases hw : none ∈ ws
  · rw [gather_eq_unknown (List.mem_append_right vs hw)]
    exact gather_eq_unknown (List.mem_append_right _ hw)
  obtain ⟨bs, rfl⟩ := exists_map_some hv
  obtain ⟨cs, rfl⟩ := exists_map_some hw
  cases bs with
  | nil => rfl
  | cons b bs =>
    have first : gather op ((b :: bs).map some) = .known (bs.foldl op.apply b) := by
      simp [gather, Operator.reduce_map_some, Operator.combine_cons h, ofValue, -List.map_cons]
    have joined : some (bs.foldl op.apply b) :: cs.map some
        = (bs.foldl op.apply b :: cs).map some := rfl
    rw [first, operands, ← List.map_append, List.singleton_append, joined, gather, gather,
      Operator.reduce_map_some, Operator.reduce_map_some, List.cons_append,
      Operator.combine_cons h, Operator.combine_cons h, List.foldl_append]
    rfl

/-! ## Knowing less -/

/-- The second result is the first one, or the first one was unknown. -/
def Running.AtMost (acc acc' : Running) : Prop := acc = .unknown ∨ acc = acc'

/-- The second value is the first one, or the first one was missing. -/
def ValueAtMost (v w : Option Bool) : Prop := v = none ∨ v = w

theorem ValueAtMost.refl_all (vs : List (Option Bool)) : List.Forall₂ ValueAtMost vs vs :=
  List.forall₂_same.mpr (fun _ _ => .inr rfl)

theorem Running.AtMost.refl (acc : Running) : acc.AtMost acc := .inr rfl

theorem Running.AtMost.trans {a b c : Running} (h : a.AtMost b) (h' : b.AtMost c) :
    a.AtMost c := by
  rcases h with rfl | rfl
  · exact .inl rfl
  · exact h'

theorem Running.AtMost.eq_of_ne_unknown {a b : Running} (h : a.AtMost b) (ha : a ≠ .unknown) :
    b = a := (h.resolve_left ha).symm

theorem Running.AtMost.value {a b : Running} (h : a.AtMost b) : ValueAtMost a.value b.value := by
  rcases h with rfl | rfl
  · exact .inl rfl
  · exact .inr rfl

theorem Running.gather_atMost {op : Operator} {vs ws : List (Option Bool)}
    (h : List.Forall₂ ValueAtMost vs ws) : (gather op vs).AtMost (gather op ws) := by
  by_cases hn : none ∈ vs
  · exact .inl (gather_eq_unknown hn)
  · have same : vs = ws := by
      induction h with
      | nil => rfl
      | cons h _ ih =>
        rcases h with rfl | rfl
        · simp at hn
        · rw [ih (fun hm => hn (List.mem_cons_of_mem _ hm))]
    exact .inr (by rw [same])

/-- A term over values that are known better gives a result that is known better. -/
theorem Running.step_atMost {op : Operator} {acc acc' : Running} {vs ws : List (Option Bool)}
    (hacc : acc.AtMost acc') (h : List.Forall₂ ValueAtMost vs ws) :
    (acc.step op vs).AtMost (acc'.step op ws) := by
  rcases hacc with rfl | rfl
  · left
    cases op <;> rfl
  by_cases hop : op = .not
  · subst hop
    cases acc with
    | known b => exact .refl _
    | unknown => exact .refl _
    | blank =>
      cases h with
      | nil => exact .refl _
      | cons h _ =>
        rcases h with rfl | rfl
        · exact .inl rfl
        · exact .refl _
  · rw [step_eq_gather hop, step_eq_gather hop]
    exact gather_atMost (List.rel_append (ValueAtMost.refl_all _) h)

theorem Term.runAll_atMost {v : Valuation} (ts : List Term) {acc acc' : Running}
    (h : acc.AtMost acc') : (Term.runAll v ts acc).AtMost (Term.runAll v ts acc') := by
  induction ts generalizing acc acc' with
  | nil => exact h
  | cons t ts ih =>
    rw [runAll_cons, runAll_cons]
    exact ih (Running.step_atMost h (ValueAtMost.refl_all _))

end SwitchingAlgebra
