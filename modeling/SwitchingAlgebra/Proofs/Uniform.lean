-- Which names have values, and not what these are, decides whether an evaluation has a result.
-- So a column of a table is known in every row or in none, and there is a warning for each of
-- its rows or for none.
import SwitchingAlgebra.Proofs.Columns
import SwitchingAlgebra.Proofs.Coupling

namespace SwitchingAlgebra

/-! ## Scopes that know the same names -/

/-- The assignments have values for the same names. -/
def Assignment.SameNames (s s' : Assignment) : Prop := ∀ n, s.contains n = s'.contains n

/-- The same names are bound, and the same of them to a value. -/
def Bindings.KnownAlike (m m' : Bindings) : Prop :=
  ∀ n, (m.get? n).map (·.value.isSome) = (m'.get? n).map (·.value.isSome)

/-- The rows of a table assign the same names. -/
theorem Assignment.ofRow_sameNames (names : List String) (k k' : Nat) :
    (ofRow names k).SameNames (ofRow names k') := by
  intro n
  induction names with
  | nil => rfl
  | cons name rest ih =>
    simp only [contains, get?, ofRow, rowValues, List.lookup_cons] at ih ⊢
    cases n == name with
    | false => exact ih
    | true => rfl

theorem Bindings.KnownAlike.exists_get? {m m' : Bindings} (h : m.KnownAlike m') {n : String}
    {b : Binding} (hb : m.get? n = some b) :
    ∃ b', m'.get? n = some b' ∧ b.value.isSome = b'.value.isSome := by
  have same := h n
  rw [hb, Option.map_some] at same
  obtain ⟨b', hb', known⟩ := Option.map_eq_some_iff.mp same.symm
  exact ⟨b', hb', known.symm⟩

/-- An assigned name has a value, whichever it is; all others are as they were. -/
theorem Expression.scope_knownAlike (e : Expression) {s s' : Assignment} (h : s.SameNames s') :
    (e.scope s).KnownAlike (e.scope s') := by
  intro n
  have assigned : (s.get? n).isSome = (s'.get? n).isSome := h n
  rw [scope, scope, Assignment.get?_applyTo, Assignment.get?_applyTo]
  cases hs : s.get? n <;> cases hs' : s'.get? n
  case none.none => rfl
  case some.some => rfl
  all_goals
    rw [hs, hs'] at assigned
    cases assigned

theorem Expression.scopeIn_knownAlike (e : Expression) {m m' : Bindings} (h : m.KnownAlike m') :
    (e.scopeIn m).KnownAlike (e.scopeIn m') := by
  intro n
  rw [scopeIn, scopeIn, Bindings.get?_merge, Bindings.get?_merge, Option.map_or, Option.map_or, h n]

/-! ## Evaluations that are known alike -/

theorem map_isSome_eq_of_forall₂ {vs ws : List (Option Bool)}
    (h : List.Forall₂ (fun v w => v.isSome = w.isSome) vs ws) :
    vs.map Option.isSome = ws.map Option.isSome := by
  induction h with
  | nil => rfl
  | cons first _ ih => rw [List.map_cons, List.map_cons, first, ih]

theorem coupling_knownAlike :
    Coupling (fun v w => v.isSome = w.isSome) (fun acc acc' => acc.shape = acc'.shape)
      Bindings.KnownAlike (fun _ => True) where
  blank := rfl
  step op _ _ _ _ hacc h := Running.shape_step op hacc (map_isSome_eq_of_forall₂ h)
  value := Running.isSome_value
  look hs hb := hs.exists_get? hb
  enter _ hs := Expression.scopeIn_knownAlike _ hs

namespace Expression

/-- Evaluations succeed alike, and are known alike, where the same names are known. -/
theorem exists_fold_of_knownAlike {e : Expression} {m m' : Bindings} (h : m.KnownAlike m') {d : Nat}
    {v : Option Bool} (hv : e.fold m d = .ok v) :
    ∃ w, e.fold m' d = .ok w ∧ v.isSome = w.isSome :=
  coupling_knownAlike.exists_fold (fun _ _ x _ => x.throughout_true) h hv

/-! ## Columns -/

/-- Two cells of one column are known alike. -/
theorem isSome_outputValue_eq {e : Expression} {o : Output} {k k' : Nat} {v w : Option Bool}
    (hv : e.outputValue o k = .ok v) (hw : e.outputValue o k' = .ok w) : v.isSome = w.isSome := by
  have rows := e.scope_knownAlike (Assignment.ofRow_sameNames e.inputs.names k k')
  obtain ⟨w', hw', same⟩ := exists_fold_of_knownAlike (o.snapshot.scopeIn_knownAlike rows) hv
  have : w' = w := Except.ok.inj (hw'.symm.trans hw)
  exact this ▸ same

end Expression

/-! ## Warnings -/

/-- The warning is for a cell of the output with this label. -/
def Warning.isAbout (label : String) : Warning → Bool
  | .unresolvedCell output _ => output == label
  | .impreciseNot _ => false

namespace OutputColumn

/-- Every cell holds a value, or none does. -/
def Uniform (c : OutputColumn) : Prop := (∀ v ∈ c.values, v.isSome) ∨ ∀ v ∈ c.values, v = none

/-- There is a warning for each cell without a value. -/
theorem length_warnings (c : OutputColumn) :
    c.warnings.length = c.values.countP Option.isNone := by
  have cell : ∀ x : Option Bool × Nat, (if x.1.isNone then
      some (Warning.unresolvedCell c.label x.2) else none).isSome = x.1.isNone := by
    rintro ⟨_ | _, _⟩ <;> rfl
  rw [warnings, List.length_filterMap_eq_countP]
  simp only [cell]
  conv => rhs; rw [← List.zipIdx_map_fst 0 c.values, List.countP_map]
  rfl

theorem isAbout_of_mem_warnings {c : OutputColumn} {w : Warning} (h : w ∈ c.warnings)
    (label : String) : w.isAbout label = (c.label == label) := by
  obtain ⟨⟨v, row⟩, -, made⟩ := List.mem_filterMap.mp h
  dsimp only at made
  split at made
  · cases made
    rfl
  · cases made

/-- All warnings of a column are about its own label. -/
theorem countP_warnings (c : OutputColumn) (label : String) :
    c.warnings.countP (·.isAbout label) = if c.label = label then c.warnings.length else 0 := by
  split
  · rename_i own
    exact List.countP_eq_length.mpr (fun w hw => by simp [isAbout_of_mem_warnings hw, own])
  · rename_i other
    exact List.countP_eq_zero.mpr (fun w hw => by simp [isAbout_of_mem_warnings hw, other])

theorem Uniform.length_warnings {c : OutputColumn} (h : c.Uniform) :
    c.warnings.length = 0 ∨ c.warnings.length = c.values.length := by
  rw [c.length_warnings]
  rcases h with known | missing
  · left
    exact List.countP_eq_zero.mpr (fun v hv => by simp [Option.isSome_iff_ne_none.mp (known v hv)])
  · right
    exact List.countP_eq_length.mpr (fun v hv => by simp [missing v hv])

/-- The warnings about a label are those of some of the columns that bear it, all of them. -/
theorem exists_countP_warnings {columns : List OutputColumn} {rows : Nat}
    (uniform : ∀ c ∈ columns, c.values.length = rows ∧ c.Uniform) (label : String) :
    ∃ m ≤ (columns.map (·.label)).count label,
      (columns.flatMap (·.warnings)).countP (·.isAbout label) = m * rows := by
  induction columns with
  | nil => exact ⟨0, Nat.le_refl _, by simp⟩
  | cons c columns ih =>
    rw [List.forall_mem_cons] at uniform
    obtain ⟨⟨height, here⟩, others⟩ := uniform
    obtain ⟨m, hm, counted⟩ := ih others
    rw [List.flatMap_cons, List.countP_append, counted, c.countP_warnings, List.map_cons,
      List.count_cons]
    by_cases own : c.label = label
    · simp only [own, if_true, beq_self_eq_true]
      rcases here.length_warnings with none_here | all_here
      · exact ⟨m, by omega, by rw [none_here, Nat.zero_add]⟩
      · exact ⟨m + 1, by omega, by rw [all_here, height, Nat.succ_mul, Nat.add_comm]⟩
    · exact ⟨m, by omega, by rw [if_neg own, Nat.zero_add]⟩

end OutputColumn

namespace Expression

theorem uniform_of_truthColumns {e : Expression} {columns : List OutputColumn}
    (h : e.truthColumns = .ok columns) {c : OutputColumn} (hc : c ∈ columns) :
    c.values.length = e.rowCount ∧ c.Uniform := by
  obtain ⟨o, -, -, cells⟩ := exists_output_of_column h hc
  have cells := forall₂_of_mapM cells
  have alike : ∀ v ∈ c.values, ∀ w ∈ c.values, v.isSome = w.isSome := by
    intro v hv w hw
    obtain ⟨k, -, hk⟩ := exists_of_forall₂ cells hv
    obtain ⟨k', -, hk'⟩ := exists_of_forall₂ cells hw
    exact isSome_outputValue_eq hk hk'
  refine ⟨by rw [← cells.length_eq, List.length_range], ?_⟩
  by_cases missing : none ∈ c.values
  · right
    intro v hv
    exact Option.isNone_iff_eq_none.mp (Option.isSome_eq_false_iff.mp (alike v hv none missing))
  · left
    intro v hv
    exact Option.isSome_iff_ne_none.mpr (fun h => missing (h ▸ hv))

/-- Whatever an expression is made of and stores, a column of its table holds a value in every
row or in none. So an output has a warning for each of the rows or no warning. -/
theorem columns_uniform {e : Expression} {columns : List OutputColumn}
    (h : e.truthColumns = .ok columns) :
    (∀ c ∈ columns, c.values.length = 2 ^ e.inputs.names.length ∧
      ((∀ v ∈ c.values, v.isSome) ∨ ∀ v ∈ c.values, v = none)) ∧
    ∃ t, e.truthTable = .ok t ∧ t.outputs = columns.map (·.label) ∧
      t.warnings = columns.flatMap (·.warnings) ∧
      (∀ c ∈ columns, c.warnings.length = 0 ∨ c.warnings.length = 2 ^ e.inputs.names.length) ∧
      ∀ label, t.outputs.count label = 1 →
        t.warnings.countP (·.isAbout label) = 0 ∨
          t.warnings.countP (·.isAbout label) = 2 ^ e.inputs.names.length := by
  have uniform := fun c hc => uniform_of_truthColumns h (c := c) hc
  refine ⟨uniform, _, truthTable_eq h, rfl, rfl, ?_, ?_⟩
  · intro c hc
    obtain ⟨height, here⟩ := uniform c hc
    exact here.length_warnings.imp_right (fun all => all.trans height)
  · intro label once
    obtain ⟨m, hm, counted⟩ := OutputColumn.exists_countP_warnings uniform label
    rw [once] at hm
    rcases Nat.le_one_iff_eq_zero_or_eq_one.mp hm with rfl | rfl
    · exact .inl (counted.trans (Nat.zero_mul _))
    · exact .inr (counted.trans (Nat.one_mul _))

/-- The label of `a ⊼ (b)`, where only the nested expression binds `b` and stores a value for it,
and beside it a chain of `⊼` that has no value, although `a` has one stored. -/
theorem columns_uniform_of_chain :
    let stored := (empty.append .and [.input "b"]).assign "b" true
    let pair := (ofTerms [⟨.nand, [.input "a", .nested stored]⟩]).assign "a" true
    let e := ((pair.addLabel (some "q") false).append .nand [.input "c", .input "a"]).addLabel
      none false
    ∃ t, e.truthTable = .ok t ∧ t.outputs = ["q", "(a ⊼ (b)) ⊼ c ⊼ a"] ∧ t.warnings.length = 4 ∧
      ∀ label ∈ t.outputs, t.warnings.countP (·.isAbout label) = 0 ∨
        t.warnings.countP (·.isAbout label) = 4 := by
  intro stored pair e
  have columns : e.truthColumns = .ok
      [⟨"q", [some true, some true, some false, some false]⟩,
        ⟨"(a ⊼ (b)) ⊼ c ⊼ a", List.replicate 4 none⟩] := by decide
  have names : e.inputs.names = ["a", "c"] := by decide
  obtain ⟨-, t, ok, outputs, warnings, -, counts⟩ := columns_uniform columns
  have listed : t.outputs = ["q", "(a ⊼ (b)) ⊼ c ⊼ a"] := outputs
  refine ⟨t, ok, listed, by rw [warnings]; rfl, fun label hl => ?_⟩
  have once : ∀ l ∈ ["q", "(a ⊼ (b)) ⊼ c ⊼ a"], ["q", "(a ⊼ (b)) ⊼ c ⊼ a"].count l = 1 := by decide
  rw [names] at counts
  exact counts label (listed ▸ once label (listed ▸ hl))

end Expression

end SwitchingAlgebra
