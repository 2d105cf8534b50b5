-- A simplification that succeeds keeps every known value, under any assignment. What it
-- does after its passes touches neither the terms nor the bindings of mentioned names.
import SwitchingAlgebra.Proofs.Passes

namespace SwitchingAlgebra

/-! ## Assignments -/

theorem Bindings.get?_assign (m : Bindings) (name : String) (v : Bool) (x : String) :
    (m.assign name v).get? x =
      if x = name then some (((m.get? name).getD .unresolved).assign v) else m.get? x :=
  m.get?_update name _ x

namespace Assignment

/-- An assigned name keeps its flag and takes the value; all others stay as they are. -/
theorem get?_applyTo (s : Assignment) (m : Bindings) (x : String) :
    (s.applyTo m).get? x = match s.get? x with
      | some b => some (((m.get? x).getD .unresolved).assign b)
      | none => m.get? x := by
  obtain ⟨values⟩ := s
  simp only [applyTo, get?]
  induction values with
  | nil => rfl
  | cons entry rest ih =>
    obtain ⟨name, b⟩ := entry
    rw [List.foldr_cons, Bindings.get?_assign]
    by_cases hx : x = name
    · subst hx
      rw [if_pos rfl, ih]
      simp only [List.lookup_cons_self]
      cases rest.lookup x <;> rfl
    · rw [if_neg hx, ih, List.lookup_cons, beq_false_of_ne hx]

/-- Bound alike before, bound alike under the assignment. -/
theorem applyTo_congr (s : Assignment) {m m' : Bindings} {x : String} (h : m.get? x = m'.get? x) :
    (s.applyTo m).get? x = (s.applyTo m').get? x := by
  rw [get?_applyTo, get?_applyTo, h]

theorem contains_applyTo (s : Assignment) {m : Bindings} {x : String} (h : m.contains x) :
    (s.applyTo m).contains x := by
  unfold Bindings.contains at h ⊢
  rw [get?_applyTo]
  cases s.get? x with
  | none => exact h
  | some b => rfl

theorem applyTo_binds (s : Assignment) {m : Bindings} {names : List String} (h : m.Binds names) :
    (s.applyTo m).Binds names := fun n hn => s.contains_applyTo (h n hn)

end Assignment

theorem Bindings.values_congr {m m' : Bindings} {x : String} (h : m.get? x = m'.get? x) :
    m.values x = m'.values x := by
  unfold Bindings.values
  rw [h]

/-- Among the entries that pass a test on their names a look-up finds what it found before, for a
name that passes, and nothing for any other. -/
theorem lookup_filter {β : Type} (p : String → Bool) (entries : List (String × β)) (x : String) :
    (entries.filter (fun entry => p entry.1)).lookup x =
      if p x then entries.lookup x else none := by
  induction entries with
  | nil => simp
  | cons entry rest ih =>
    obtain ⟨n, b⟩ := entry
    rw [List.filter_cons, List.lookup_cons]
    by_cases hx : x = n
    · subst hx
      cases hp : p x <;> simp [hp, ih]
    · cases p n <;> simp [ih, List.lookup_cons, beq_false_of_ne hx]

theorem Bindings.get?_keep (m : Bindings) (p : String → Bool) (x : String) :
    (m.keep p).get? x = if p x then m.get? x else none :=
  lookup_filter p m.entries x

namespace Expression

/-- Where every name is bound and nothing is nested too deeply, the value under an
assignment is the meaning. -/
theorem valueOf_eq_meaning {e : Expression} (names : e.inputs.Binds e.mentions)
    (hd : e.depth ≤ maxNestingDepth) (s : Assignment) :
    e.valueOf s = .ok (e.meaning (e.scope s).values) :=
  e.fold_eq_meaning (s.applyTo_binds names) (by omega)

/-- With every name bound an expression that is nested too deeply has no value, for this
reason. -/
theorem valueOf_eq_error {e : Expression} (names : e.inputs.Binds e.mentions)
    (hd : maxNestingDepth < e.depth) (s : Assignment) :
    e.valueOf s = .error (.tooDeeplyNested maxNestingDepth) :=
  e.fold_eq_error (s.applyTo_binds names) (by omega)

theorem evaluate_eq_valueOf (e : Expression) : e.evaluate = e.valueOf .empty := rfl

theorem depth_of_terms {e e' : Expression} (h : e'.terms = e.terms) : e'.depth = e.depth := by
  cases e
  cases e'
  cases h
  rfl

theorem fold_of_terms {e e' : Expression} (h : e'.terms = e.terms) (m : Bindings) (d : Nat) :
    e'.fold m d = e.fold m d := by
  cases e
  cases e'
  cases h
  rfl

theorem run_of_terms {e e' : Expression} (h : e'.terms = e.terms) (v : Valuation) :
    e'.run v = e.run v := by
  rw [run, run, h]

/-- The names that terms mention decide their value, as they are bound. -/
theorem valueOf_congr {e e' : Expression} (names : e.inputs.Binds e.mentions)
    (terms : e'.terms = e.terms) (inputs : ∀ n ∈ e.mentions, e'.inputs.get? n = e.inputs.get? n)
    (s : Assignment) : e'.valueOf s = e.valueOf s := by
  have depth := depth_of_terms terms
  have mentions := mentions_of_terms terms
  have names' : e'.inputs.Binds e'.mentions := by
    intro n hn
    rw [mentions] at hn
    rw [Bindings.contains, inputs n hn]
    exact names n hn
  by_cases hd : e.depth ≤ maxNestingDepth
  · rw [valueOf_eq_meaning names hd, valueOf_eq_meaning names' (depth ▸ hd), meaning_eq, meaning_eq,
      run_of_terms terms]
    refine congrArg (fun r => Except.ok (Running.value r)) (e.run_congr (fun n hn => ?_))
    exact Bindings.values_congr (s.applyTo_congr (inputs n hn))
  · rw [valueOf_eq_error names (by omega), valueOf_eq_error names' (by omega)]

/-! ## What stands for an expression -/

theorem StandsFor.get?_inputs {e e' : Expression} (stands : e'.StandsFor e)
    (names : e.inputs.Binds e.mentions) {n : String} (hn : n ∈ e'.mentions) :
    e'.inputs.get? n = e.inputs.get? n := by
  obtain ⟨b, hb⟩ := Option.isSome_iff_exists.mp (names n (stands.mentions n hn))
  rw [hb, stands.bindings n b hb]

theorem StandsFor.names {e e' : Expression} (stands : e'.StandsFor e)
    (names : e.inputs.Binds e.mentions) : e'.inputs.Binds e'.mentions := by
  intro n hn
  rw [Bindings.contains, stands.get?_inputs names hn]
  exact names n (stands.mentions n hn)

/-- What stands for an expression may be evaluated in its scope. -/
theorem StandsFor.meaning_scope {e e' : Expression} (stands : e'.StandsFor e)
    (names : e.inputs.Binds e.mentions) (s : Assignment) :
    e'.meaning (e'.scope s).values = e'.meaning (e.scope s).values := by
  apply e'.meaning_congr
  intro n hn
  exact Bindings.values_congr (s.applyTo_congr (stands.get?_inputs names hn))

/-- What stands for an expression has its known values, as long as it can be evaluated. -/
theorem StandsFor.valueOf {e e' : Expression} (stands : e'.StandsFor e)
    (names : e.inputs.Binds e.mentions) (nots : e.Everywhere Term.NegatesOne) {s : Assignment}
    {v : Bool} (hv : e.valueOf s = .ok (some v)) :
    e'.valueOf s = if e'.depth ≤ maxNestingDepth then .ok (some v)
      else .error (.tooDeeplyNested maxNestingDepth) := by
  split
  · rename_i hd
    have deep := depth_of_fold hv
    rw [valueOf_eq_meaning names (by omega)] at hv
    have known : e.meaning (e.scope s).values = some v := Except.ok.inj hv
    have kept := (stands.value nots (e.scope s).values).value
    rw [← meaning_eq, ← meaning_eq, known] at kept
    rw [valueOf_eq_meaning (stands.names names) hd, stands.meaning_scope names]
    rcases kept with absent | kept
    · cases absent
    · exact congrArg Except.ok kept.symm
  · exact valueOf_eq_error (stands.names names) (by omega) s

/-! ## Before and after the passes -/

theorem startLog_standsFor (e : Expression) : e.startLog.1.StandsFor e := by
  unfold startLog
  split
  · exact .refl e
  · rename_i first
    exact ⟨fun _ _ h => h, fun _ _ h => h, fun _ _ => .refl _, rfl,
      fun text h => absurd (first.symm.trans h) (by simp)⟩

/-- From then on the text of the first simplification is remembered. -/
theorem startLog_firstText (e : Expression) :
    e.startLog.1.journal.firstText = some (e.journal.firstText.getD e.text) := by
  unfold startLog
  split
  · rename_i first
    simp [first]
  · rename_i first
    simp [first, log]

theorem passes_standsFor (c : SimplifyConfig) (e : Expression) :
    (e.passes c).expression.StandsFor e :=
  (repeatPasses_standsFor c _ 0 e.startLog.1).trans e.startLog_standsFor

theorem passes_firstText (c : SimplifyConfig) (e : Expression) :
    (e.passes c).expression.journal.firstText = some (e.journal.firstText.getD e.text) :=
  (repeatPasses_standsFor c _ 0 e.startLog.1).remembers _ e.startLog_firstText

theorem renameOutput_terms (e : Expression) : e.renameOutput.terms = e.terms := by
  unfold renameOutput
  split <;> rfl

theorem renameOutput_inputs (e : Expression) : e.renameOutput.inputs = e.inputs := by
  unfold renameOutput
  split <;> rfl

theorem finish_terms (c : SimplifyConfig) (before e : Expression) :
    (finish c before e).1.terms = e.terms :=
  renameOutput_terms (refreshOutputs before e)

theorem isUsed_of_mentions {e : Expression} {n : String} (hn : n ∈ e.mentions) : e.isUsed n := by
  simp [isUsed, hn]

theorem isUsed_of_output {e : Expression} {o : Output} {n : String} (ho : o ∈ e.outputs)
    (hn : n ∈ o.snapshot.mentions) : e.isUsed n := by
  simp only [isUsed, Bool.or_eq_true, List.any_eq_true, List.contains_iff_mem]
  exact .inr ⟨o, ho, hn⟩

theorem get?_dropUnused {e : Expression} {n : String} (used : e.isUsed n) :
    e.dropUnused.inputs.get? n = e.inputs.get? n := by
  rw [dropUnused, Bindings.get?_keep, used, if_pos rfl]

/-- Only inputs that nothing mentions are dropped. -/
theorem finish_inputs (c : SimplifyConfig) (before : Expression) {e : Expression} {n : String}
    (hn : n ∈ e.mentions) : (finish c before e).1.inputs.get? n = e.inputs.get? n := by
  have same : (refreshOutputs before e).renameOutput.mentions = e.mentions :=
    mentions_of_terms (renameOutput_terms (refreshOutputs before e))
  have kept := get?_dropUnused (isUsed_of_mentions (same ▸ hn))
  rw [renameOutput_inputs] at kept
  exact kept

/-! ## The whole simplification -/

/-- What a successful simplification did: its passes left an expression that stands for
the one before, is nested no deeper than allowed and remembers the first text, and the rest
was put in order. -/
theorem simplify_of_ok {c : SimplifyConfig} {e : Expression} (ok : (e.simplify c).outcome = .ok ()) :
    e.depth ≤ c.maxDepth ∧ ∃ passed : Expression, passed.StandsFor e ∧ passed.depth ≤ c.maxDepth ∧
      passed.journal.firstText = some (e.journal.firstText.getD e.text) ∧
      (e.simplify c).expression = (finish c e passed).1 := by
  obtain ⟨hd, run, result⟩ := passes_of_ok ok
  exact ⟨hd, _, passes_standsFor c e, depth_repeatPasses run, passes_firstText c e, result⟩

/-- The value that an expression is known to have under an assignment is still its value
after a simplification. -/
theorem valueOf_simplify {c : SimplifyConfig} (hc : c.maxDepth ≤ maxNestingDepth) {e : Expression}
    (names : e.inputs.Binds e.mentions) (nots : e.Everywhere Term.NegatesOne)
    (ok : (e.simplify c).outcome = .ok ()) (s : Assignment) {v : Bool}
    (hv : e.valueOf s = .ok (some v)) : (e.simplify c).expression.valueOf s = .ok (some v) := by
  obtain ⟨-, passed, stands, hdp, -, result⟩ := simplify_of_ok ok
  have kept := stands.valueOf names nots hv
  rw [if_pos (Nat.le_trans hdp hc)] at kept
  rw [result, ← kept]
  exact valueOf_congr (stands.names names) (finish_terms c e passed)
    (fun n hn => finish_inputs c e hn) s

/-- A simplification that succeeds keeps the value of an expression wherever it was known:
under every assignment, partial or complete, and for the stored values. -/
theorem simplify_keeps_known_values {c : SimplifyConfig} (hc : c.maxDepth ≤ maxNestingDepth)
    {e : Expression} (names : e.inputs.Binds e.mentions) (nots : e.Everywhere Term.NegatesOne)
    (ok : (e.simplify c).outcome = .ok ()) :
    (∀ (s : Assignment) (v : Bool), e.valueOf s = .ok (some v) →
      (e.simplify c).expression.valueOf s = .ok (some v)) ∧
    (∀ v : Bool, e.evaluate = .ok (some v) →
      (e.simplify c).expression.evaluate = .ok (some v)) := by
  constructor
  · intro s v hv
    exact valueOf_simplify hc names nots ok s hv
  · intro v hv
    rw [evaluate_eq_valueOf] at hv ⊢
    exact valueOf_simplify hc names nots ok .empty hv

/-- `(a ∧ b) ∨ b` is absorbed to `b` and keeps its value. -/
theorem simplify_keeps_known_values_of_absorbed :
    let e := (empty.append .and [.input "a", .input "b"]).append .or [.input "b"]
    e.valueOf ⟨[("a", false), ("b", true)]⟩ = .ok (some true) ∧
      (e.simplify {}).expression.valueOf ⟨[("a", false), ("b", true)]⟩ = .ok (some true) := by
  intro e
  have names : e.inputs.Binds e.mentions := by decide
  have nots : e.Everywhere Term.NegatesOne := by
    intro t ht
    refine ⟨?_, fun x hx => ?_⟩
    · intro hop
      simp [e, append, empty] at ht
      rcases ht with rfl | rfl <;> cases hop
    · simp [e, append, empty] at ht
      rcases ht with rfl | rfl <;> simp at hx <;> rcases hx with rfl | rfl <;> exact .input _
  have ok : (e.simplify {}).outcome = .ok () := by decide +kernel
  have value : e.valueOf ⟨[("a", false), ("b", true)]⟩ = .ok (some true) := by rfl
  exact ⟨value, (simplify_keeps_known_values (by decide) names nots ok).1 _ _ value⟩

end Expression

end SwitchingAlgebra
