-- A table lists every assignment of the inputs once, and the column of an expression without
-- labels of its own holds what evaluation gives. A warning stands for each cell without a value.
import Mathlib.Algebra.Group.Nat.Defs
import Mathlib.Data.Nat.Init
import SwitchingAlgebra.Proofs.Outputs

namespace SwitchingAlgebra

/-! ## The assignments of the rows -/

theorem Bindings.names_ascending (m : Bindings) : m.names.Pairwise (· < ·) := by
  rw [names, List.pairwise_map]
  exact m.ascending

/-- No name is bound twice. -/
theorem Bindings.names_nodup (m : Bindings) : m.names.Nodup :=
  m.names_ascending.imp (fun h => String.ne_of_lt h)

theorem Bindings.mem_names_of_contains {m : Bindings} {n : String} (h : m.contains n) :
    n ∈ m.names := by
  obtain ⟨entries, ascending⟩ := m
  simp only [contains, get?, names] at h ⊢
  clear ascending
  induction entries with
  | nil => cases h
  | cons entry rest ih =>
    rw [lookup_cons_entry] at h
    rw [List.map_cons]
    split at h
    · rename_i same
      exact same ▸ List.mem_cons_self
    · exact List.mem_cons_of_mem _ (ih h)

namespace Assignment

/-- Where no name stands twice, the value of a name is its bit. -/
theorem get?_ofRow {names : List String} (distinct : names.Nodup) (k : Nat) {i : Nat}
    {name : String} (h : names[i]? = some name) :
    (ofRow names k).get? name = some (k.testBit (names.length - 1 - i)) := by
  induction names generalizing i with
  | nil => cases h
  | cons first rest ih =>
    rw [List.nodup_cons] at distinct
    cases i with
    | zero =>
      cases h
      exact List.lookup_cons_self
    | succ i =>
      rw [List.getElem?_cons_succ] at h
      have apart : name ≠ first := by
        rintro rfl
        exact distinct.1 (List.mem_of_getElem? h)
      have later := ih distinct.2 h
      simp only [get?, ofRow, rowValues] at later ⊢
      rw [List.lookup_cons, beq_false_of_ne apart]
      have place : rest.length + 1 - 1 - (i + 1) = rest.length - 1 - i := by omega
      simp only [later, List.length_cons, place]

theorem get?_ofRow_of_not_mem {names : List String} (k : Nat) {name : String}
    (h : name ∉ names) : (ofRow names k).get? name = none := by
  induction names with
  | nil => rfl
  | cons first rest ih =>
    rw [List.mem_cons, not_or] at h
    have later := ih h.2
    simp only [get?, ofRow, rowValues] at later ⊢
    rw [List.lookup_cons, beq_false_of_ne h.1]
    exact later

/-- A row holds these raw values when they are its bits. -/
theorem rowValues_eq_zip_iff (names : List String) {raw : List Bool}
    (h : raw.length = names.length) (k : Nat) : rowValues names k = names.zip raw ↔
      ∀ i < names.length, k.testBit i = raw.getD (names.length - 1 - i) false := by
  induction names generalizing raw with
  | nil => simp [rowValues]
  | cons name rest ih =>
    cases raw with
    | nil => cases h
    | cons b raw =>
      have inner : ∀ i < rest.length,
          (b :: raw).getD (rest.length - i) false = raw.getD (rest.length - 1 - i) false := by
        intro i hi
        have place : rest.length - i = rest.length - 1 - i + 1 := by omega
        rw [place, List.getD_cons_succ]
      rw [rowValues, List.zip_cons_cons, List.cons.injEq, Prod.mk.injEq, eq_self, true_and,
        ih (Nat.succ.inj h)]
      constructor
      · rintro ⟨top, low⟩ i hi
        rcases Nat.lt_succ_iff_lt_or_eq.mp hi with hi | rfl
        · exact (low i hi).trans (inner i hi).symm
        · simpa using top
      · intro bits
        refine ⟨by simpa using bits rest.length (Nat.lt_succ_self _), ?_⟩
        intro i hi
        exact (bits i (Nat.lt_succ_of_lt hi)).trans (inner i hi)

/-- Every list of raw values is that of just one row. -/
theorem existsUnique_ofRow (names : List String) {raw : List Bool}
    (h : raw.length = names.length) :
    ∃! k, k < 2 ^ names.length ∧ ofRow names k = ⟨names.zip raw⟩ := by
  have spelled : ∀ k, ofRow names k = ⟨names.zip raw⟩ ↔
      ∀ i < names.length, k.testBit i = raw.getD (names.length - 1 - i) false := by
    intro k
    rw [ofRow, mk.injEq]
    exact rowValues_eq_zip_iff names h k
  refine ⟨Nat.ofBits (fun i : Fin names.length => raw.getD (names.length - 1 - i) false), ?_, ?_⟩
  · refine ⟨Nat.ofBits_lt_two_pow _, (spelled _).mpr ?_⟩
    intro i hi
    exact Nat.testBit_ofBits_lt _ i hi
  · rintro k ⟨hk, hrow⟩
    apply Nat.eq_of_testBit_eq
    intro i
    by_cases hi : i < names.length
    · rw [(spelled k).mp hrow i hi, Nat.testBit_ofBits_lt _ i hi]
    · have high : 2 ^ names.length ≤ 2 ^ i := Nat.pow_le_pow_right (by decide) (by omega)
      rw [Nat.testBit_lt_two_pow (Nat.lt_of_lt_of_le hk high),
        Nat.testBit_lt_two_pow (Nat.lt_of_lt_of_le (Nat.ofBits_lt_two_pow _) high)]

end Assignment

/-! ## Computing the elements of a list -/

section

variable {α β ε : Type} {f : α → Except ε β} {xs : List α}

theorem mapM_eq_ok {g : α → β} (h : ∀ x ∈ xs, f x = .ok (g x)) :
    xs.mapM f = .ok (xs.map g) := by
  induction xs with
  | nil => rfl
  | cons x xs ih =>
    rw [List.forall_mem_cons] at h
    rw [List.mapM_cons, h.1, ih h.2]
    rfl

theorem forall₂_of_mapM {ys : List β} (h : xs.mapM f = .ok ys) :
    List.Forall₂ (fun x y => f x = .ok y) xs ys := by
  induction xs generalizing ys with
  | nil =>
    cases h
    exact .nil
  | cons x xs ih =>
    rw [List.mapM_cons] at h
    cases hx : f x with
    | error err =>
      rw [hx] at h
      cases h
    | ok y =>
      cases hxs : xs.mapM f with
      | error err =>
        rw [hx, hxs] at h
        cases h
      | ok zs =>
        rw [hx, hxs] at h
        cases h
        exact .cons hx (ih hxs)

theorem error_of_mapM {err : ε} (h : xs.mapM f = .error err) :
    ∃ x ∈ xs, f x = .error err := by
  induction xs with
  | nil => cases h
  | cons x xs ih =>
    rw [List.mapM_cons] at h
    cases hx : f x with
    | error err' =>
      rw [hx] at h
      cases h
      exact ⟨x, by simp, hx⟩
    | ok y =>
      rw [hx] at h
      cases hxs : xs.mapM f with
      | error err' =>
        rw [hxs] at h
        cases h
        obtain ⟨z, hz, failed⟩ := ih hxs
        exact ⟨z, List.mem_cons_of_mem _ hz, failed⟩
      | ok ys =>
        rw [hxs] at h
        cases h

end

/-! ## The outputs of a table -/

theorem Output.mem_foldl_addNew {o : Output} {os news : List Output}
    (h : o ∈ news.foldl addNew os) : o ∈ os ∨ o ∈ news := by
  induction news generalizing os with
  | nil => exact .inl h
  | cons p news ih =>
    rcases ih h with h | h
    · unfold addNew at h
      split at h
      · exact .inl h
      · rcases List.mem_append.mp h with h | h
        · exact .inl h
        · exact .inr (by simp [List.mem_singleton.mp h])
    · exact .inr (List.mem_cons_of_mem _ h)

/-- What is added has a label that was not taken. -/
theorem Output.fresh_of_mem_foldl_addNew {o : Output} {os news : List Output}
    (h : o ∈ news.foldl addNew os) (new : o ∉ os) : ∀ p ∈ os, p.label ≠ o.label := by
  induction news generalizing os with
  | nil => exact absurd h new
  | cons q news ih =>
    by_cases added : o ∈ addNew os q
    · unfold addNew at added
      split at added
      · exact absurd added new
      · rename_i free
        rcases List.mem_append.mp added with old | here
        · exact absurd old new
        · obtain rfl := List.mem_singleton.mp here
          intro p hp same
          exact free (List.any_eq_true.mpr ⟨p, hp, beq_iff_eq.mpr same⟩)
    · intro p hp
      refine ih h added p ?_
      unfold addNew
      split
      · exact hp
      · exact List.mem_append_left _ hp

/-- The first output stays the first. -/
theorem Output.foldl_addNew_cons (o : Output) (os news : List Output) :
    ∃ rest, news.foldl addNew (o :: os) = o :: rest := by
  induction news generalizing os with
  | nil => exact ⟨os, rfl⟩
  | cons p news ih =>
    rw [List.foldl_cons, addNew]
    split
    · exact ih os
    · exact ih (os ++ [p])

namespace Expression

/-- Without labels of its own an expression is listed by its text, before the labels of
nested expressions. -/
theorem withOutputs_of_unlabelled {e : Expression} (h : e.outputs = []) :
    ∃ others, e.withOutputs = { e with outputs := ⟨e.text, e.snapshot⟩ :: others } ∧
      ∀ o ∈ others, o = ⟨e.text, e.snapshot⟩ ∨ o ∈ e.nestedOutputs := by
  obtain ⟨inputs, terms, outputs, journal⟩ := e
  cases h
  generalize he : Expression.mk inputs terms [] journal = e
  obtain ⟨others, hothers⟩ := Output.foldl_addNew_cons ⟨e.text, e.snapshot⟩ [] e.nestedOutputs
  refine ⟨others, ?_, ?_⟩
  · subst he
    exact congrArg (Expression.mk inputs terms · journal) hothers
  · intro o ho
    have mem := Output.mem_foldl_addNew (hothers ▸ List.mem_cons_of_mem _ ho)
    exact mem.imp List.mem_singleton.mp id

/-- What is bound already adds nothing. -/
theorem scopeIn_scope (e : Expression) (s : Assignment) : e.scopeIn (e.scope s) = e.scope s := by
  apply Bindings.ext_get?
  intro n
  rw [scopeIn, Bindings.get?_merge, scope, Assignment.get?_applyTo]
  cases s.get? n with
  | none => cases e.inputs.get? n <;> rfl
  | some b => rfl

/-- Behind its own label an expression has the value that evaluation gives. -/
theorem valueOfOutput_snapshot (e : Expression) (label : String) (s : Assignment) :
    e.valueOfOutput ⟨label, e.snapshot⟩ s = e.valueOf s := by
  have same : e.snapshot.scopeIn (e.scope s) = e.scope s := e.scopeIn_scope s
  have terms : e.snapshot.terms = e.terms := rfl
  rw [valueOfOutput, same, fold_of_terms terms, valueOf]

theorem outputValue_eq_ok {e : Expression} {o : Output}
    (names : e.inputs.Binds o.snapshot.mentions) (hd : o.snapshot.depth ≤ maxNestingDepth)
    (k : Nat) : ∃ v, e.outputValue o k = .ok v :=
  ⟨_, o.snapshot.fold_eq_meaning (scopeIn_binds (Assignment.applyTo_binds _ names)) (by omega)⟩

/-- Where every cell has a value or is known to have none, there is a column for each
output. -/
theorem outputColumns_eq {e : Expression} {cell : Output → Nat → Option Bool}
    (h : ∀ o ∈ e.outputs, ∀ k, e.outputValue o k = .ok (cell o k)) :
    e.outputColumns = .ok (e.outputs.map (fun o =>
      { label := o.label, values := (List.range e.rowCount).map (cell o) })) := by
  apply mapM_eq_ok
  intro o ho
  rw [mapM_eq_ok (fun k _ => h o ho k)]
  rfl

end Expression

/-! ## Cells and warnings -/

theorem flatMap_eq_flatMap_zipIdx {α β : Type} {xs : List α} {f : α → List β}
    {g : α × Nat → List β} (h : ∀ (j : Nat) (x : α), xs[j]? = some x → f x = g (x, j)) :
    xs.flatMap f = xs.zipIdx.flatMap g := by
  conv => lhs; rw [← List.zipIdx_map_fst 0 xs, List.flatMap_map]
  apply List.flatMap_congr
  rintro ⟨x, j⟩ hx
  exact h j x (List.mem_zipIdx_iff_getElem?.mp hx)

/-- The cells of a table without a value, as warnings: column after column, each from the
first row to the last. -/
def TruthTable.unresolvedCells (t : TruthTable) : List Warning :=
  t.outputs.zipIdx.flatMap (fun (label, j) => t.rows.filterMap (fun row =>
    if row.cells[t.inputs.length + j]? = some (label, none) then
      some (.unresolvedCell label row.index)
    else none))

namespace Expression

theorem tableRow_input (inputs : List InputColumn) (columns : List OutputColumn) (k : Nat) {i : Nat}
    {c : InputColumn} (h : inputs[i]? = some c) : (tableRow inputs columns k).cells[i]? =
      some (c.heading, ((Assignment.ofRow (inputs.map (·.name)) k).get? c.name).map
        (· != c.inverted)) := by
  have hi := (List.getElem?_eq_some_iff.mp h).1
  rw [tableRow, List.getElem?_append_left (by simpa using hi), List.getElem?_map, h]
  rfl

theorem tableRow_output (inputs : List InputColumn) (columns : List OutputColumn) (k : Nat)
    {j : Nat} {c : OutputColumn} (h : columns[j]? = some c) :
    (tableRow inputs columns k).cells[inputs.length + j]? =
      some (c.label, (c.values[k]?).join) := by
  rw [tableRow, List.getElem?_append_right (by simp), List.length_map, Nat.add_sub_cancel_left,
    List.getElem?_map, h]
  rfl

end Expression

theorem OutputColumn.warnings_eq (label : String) (cell : Nat → Option Bool) (n : Nat) :
    OutputColumn.warnings ⟨label, (List.range n).map cell⟩ = (List.range n).filterMap (fun k =>
      if (cell k).isNone then some (.unresolvedCell label k) else none) := by
  have numbered : ((List.range n).map cell).zipIdx = (List.range n).map (fun k => (cell k, k)) := by
    apply List.ext_getElem
    · simp
    · intro i hi hi'
      simp
  rw [warnings, numbered, List.filterMap_map]
  rfl

namespace Expression

theorem truthTable_eq {e : Expression} {columns : List OutputColumn}
    (h : e.truthColumns = .ok columns) : e.truthTable = .ok
      { inputs := e.inputColumns
        outputs := columns.map (·.label)
        rows := (List.range e.rowCount).map (tableRow e.inputColumns columns)
        warnings := columns.flatMap (·.warnings) } := by
  rw [truthTable, h]
  rfl

theorem names_inputColumns (e : Expression) : e.inputColumns.map (·.name) = e.inputs.names := by
  rw [inputColumns, List.map_map]
  rfl

/-- The inputs stand in the order of their names. -/
theorem ascending_inputColumns (e : Expression) :
    (e.inputColumns.map (·.name)).Pairwise (· < ·) :=
  e.names_inputColumns ▸ e.inputs.names_ascending

/-- The table of an expression whose columns are known. -/
theorem truthTable_of_columns {e : Expression} {outputs : List Output}
    {cell : Output → Nat → Option Bool}
    (h : e.truthColumns = .ok (outputs.map (fun o =>
      { label := o.label, values := (List.range e.rowCount).map (cell o) }))) :
    ∃ t, e.truthTable = .ok t ∧ t.inputs = e.inputColumns ∧ t.outputs = outputs.map (·.label) ∧
      t.rows.length = e.rowCount ∧ t.warnings = t.unresolvedCells ∧
      t.warnings = outputs.flatMap (fun o => (List.range e.rowCount).filterMap (fun k =>
        if (cell o k).isNone then some (.unresolvedCell o.label k) else none)) ∧
      ∀ k < e.rowCount, ∃ row, t.rows[k]? = some row ∧ row.index = k ∧
        row.cells.length = t.inputs.length + t.outputs.length ∧
        (∀ (i : Nat) (c : InputColumn), e.inputColumns[i]? = some c → row.cells[i]? =
          some (c.heading, ((Assignment.ofRow e.inputs.names k).get? c.name).map
            (· != c.inverted))) ∧
        ∀ (j : Nat) (o : Output), outputs[j]? = some o →
          row.cells[e.inputColumns.length + j]? = some (o.label, cell o k) := by
  have made := truthTable_eq h
  have output : ∀ k < e.rowCount, ∀ (j : Nat) (o : Output), outputs[j]? = some o →
      (tableRow e.inputColumns (outputs.map (fun o => OutputColumn.mk o.label
        ((List.range e.rowCount).map (cell o)))) k).cells[e.inputColumns.length + j]? =
          some (o.label, cell o k) := by
    intro k hk j o ho
    rw [tableRow_output _ _ k (by rw [List.getElem?_map, ho]; rfl), List.getElem?_map,
      List.getElem?_range hk]
    rfl
  refine ⟨_, made, rfl, by simp, by simp, ?_, ?_, ?_⟩
  · -- column by column, and in a column row by row
    simp only [TruthTable.unresolvedCells, List.map_map, List.zipIdx_map, List.flatMap_map]
    apply flatMap_eq_flatMap_zipIdx
    intro j o ho
    rw [OutputColumn.warnings_eq, List.filterMap_map]
    apply List.filterMap_congr
    intro k hk
    have shown := output k (List.mem_range.mp hk) j o ho
    simp only [Function.comp_apply, Prod.map, id, shown, Prod.mk.injEq, true_and,
      Option.some.injEq, Option.isNone_iff_eq_none]
    rfl
  · simp only [List.flatMap_map, OutputColumn.warnings_eq]
  · intro k hk
    refine ⟨_, by rw [List.getElem?_map, List.getElem?_range hk]; rfl, rfl, by simp [tableRow], ?_,
      output k hk⟩
    intro i c hc
    rw [tableRow_input _ _ k hc, names_inputColumns]

/-- Every output that the table of an expression without labels shows has its column, and the first
of them is the expression itself. -/
theorem exists_truthColumns {e : Expression} (unlabelled : e.outputs = [])
    (few : e.inputs.names.length ≤ maxTableInputs) (names : e.inputs.Binds e.mentions)
    (shallow : e.depth ≤ maxNestingDepth)
    (labels : ∀ o ∈ e.nestedOutputs,
      e.inputs.Binds o.snapshot.mentions ∧ o.snapshot.depth ≤ maxNestingDepth) :
    ∃ (others : List Output) (cell : Output → Nat → Option Bool),
      e.withOutputs.outputs = ⟨e.text, e.snapshot⟩ :: others ∧
      e.truthColumns = .ok (e.withOutputs.outputs.map (fun o =>
        { label := o.label, values := (List.range e.rowCount).map (cell o) })) ∧
      ∀ o ∈ e.withOutputs.outputs, ∀ k,
        e.valueOfOutput o (.ofRow e.inputs.names k) = .ok (cell o k) := by
  obtain ⟨others, hlisted, from_nested⟩ := withOutputs_of_unlabelled unlabelled
  have listed : e.withOutputs.outputs = ⟨e.text, e.snapshot⟩ :: others := by rw [hlisted]
  let cell : Output → Nat → Option Bool := fun o k => (e.outputValue o k).toOption.join
  have known : ∀ o ∈ e.withOutputs.outputs, ∀ k, e.outputValue o k = .ok (cell o k) := by
    intro o ho k
    have own : ∃ v, e.outputValue ⟨e.text, e.snapshot⟩ k = .ok v := by
      apply outputValue_eq_ok
      · rwa [mentions_snapshot]
      · rwa [depth_of_terms (show e.snapshot.terms = e.terms from rfl)]
    have ok : ∃ v, e.outputValue o k = .ok v := by
      rcases List.mem_cons.mp (listed ▸ ho) with rfl | ho
      · exact own
      · rcases from_nested o ho with rfl | ho
        · exact own
        · exact outputValue_eq_ok (labels o ho).1 (labels o ho).2 k
    obtain ⟨v, hv⟩ := ok
    rw [hv]
    simp only [cell, hv]
    rfl
  refine ⟨others, cell, listed, ?_, fun o ho k => ?_⟩
  · have fits : countFault? e.inputs.names.length = none := if_neg (Nat.not_lt.mpr few)
    rw [truthColumns, fits, listed]
    rw [listed] at known
    simp only [hlisted]
    exact outputColumns_eq known
  · rw [← outputValue_eq]
    exact known o ho k

/-- A table has the inputs by ascending names and lists the expression itself first, by its text.
It has a row for each assignment of the inputs, whatever values they hold, and shows in it the
effective values of the inputs, the value of the expression under the assignment and those of the
other outputs. Just the cells without a value have a warning, output after output. -/
theorem truthTable_lists_assignments {e : Expression} (unlabelled : e.outputs = [])
    (few : e.inputs.names.length ≤ maxTableInputs) (names : e.inputs.Binds e.mentions)
    (shallow : e.depth ≤ maxNestingDepth)
    (labels : ∀ o ∈ e.nestedOutputs,
      e.inputs.Binds o.snapshot.mentions ∧ o.snapshot.depth ≤ maxNestingDepth) :
    ∃ t, e.truthTable = .ok t ∧ t.inputs = e.inputColumns ∧
      (t.inputs.map (·.name)).Pairwise (· < ·) ∧
      t.outputs = e.withOutputs.outputs.map (·.label) ∧ t.outputs.head? = some e.text ∧
      t.rows.length = 2 ^ e.inputs.names.length ∧
      (∀ k < 2 ^ e.inputs.names.length, ∃ row, t.rows[k]? = some row ∧ row.index = k ∧
        row.cells.length = t.inputs.length + t.outputs.length ∧
        (∀ i name b, e.inputs.entries[i]? = some (name, b) →
          let raw := k.testBit (e.inputs.names.length - 1 - i)
          (Assignment.ofRow e.inputs.names k).get? name = some raw ∧
            row.cells[i]? =
              some (if b.inverted then Text.bar name else name, some (raw != b.inverted))) ∧
        (∃ v, row.cells[e.inputs.names.length]? = some (e.text, v) ∧
          e.valueOf (.ofRow e.inputs.names k) = .ok v) ∧
        ∀ j o, e.withOutputs.outputs[j]? = some o → ∃ v,
          row.cells[e.inputs.names.length + j]? = some (o.label, v) ∧
            e.valueOfOutput o (.ofRow e.inputs.names k) = .ok v) ∧
      (∀ raw : List Bool, raw.length = e.inputs.names.length →
        ∃! k, k < 2 ^ e.inputs.names.length ∧
          Assignment.ofRow e.inputs.names k = ⟨e.inputs.names.zip raw⟩) ∧
      t.warnings = t.unresolvedCells ∧
      t.warnings = e.withOutputs.outputs.flatMap (fun o =>
        (List.range (2 ^ e.inputs.names.length)).filterMap (fun k =>
          if e.valueOfOutput o (.ofRow e.inputs.names k) = .ok none then
            some (.unresolvedCell o.label k)
          else none)) := by
  obtain ⟨others, cell, listed, columns, value⟩ :=
    exists_truthColumns unlabelled few names shallow labels
  obtain ⟨t, made, hinputs, houtputs, hrows, hcells, hwarnings, shown⟩ :=
    truthTable_of_columns columns
  have width : e.inputColumns.length = e.inputs.names.length := by
    rw [← e.names_inputColumns, List.length_map]
  refine ⟨t, made, hinputs, hinputs ▸ e.ascending_inputColumns, houtputs, ?_, hrows, ?_,
    fun raw => Assignment.existsUnique_ofRow e.inputs.names, hcells, ?_⟩
  · rw [houtputs, listed]
    rfl
  · intro k hk
    obtain ⟨row, hrow, hindex, full, inputs, outputs⟩ := shown k hk
    have output : ∀ j o, e.withOutputs.outputs[j]? = some o → ∃ v,
        row.cells[e.inputs.names.length + j]? = some (o.label, v) ∧
          e.valueOfOutput o (.ofRow e.inputs.names k) = .ok v := fun j o ho =>
      ⟨cell o k, width ▸ outputs j o ho, value o (List.mem_of_getElem? ho) k⟩
    refine ⟨row, hrow, hindex, full, ?_, ?_, output⟩
    · intro i name b hentry
      have hname : e.inputs.names[i]? = some name := by
        rw [Bindings.names, List.getElem?_map, hentry]
        rfl
      have raw := Assignment.get?_ofRow e.inputs.names_nodup k hname
      have hcolumn : e.inputColumns[i]? = some {
          name
          heading := if b.inverted then Text.bar name else name
          inverted := b.inverted } := by
        rw [inputColumns, List.getElem?_map, hentry]
        rfl
      exact ⟨raw, by rw [inputs i _ hcolumn, raw]; rfl⟩
    · rw [← e.valueOfOutput_snapshot e.text]
      exact output 0 _ (by rw [listed]; rfl)
  · rw [hwarnings]
    apply List.flatMap_congr
    intro o ho
    apply List.filterMap_congr
    intro k _
    simp only [value o ho k, Except.ok.injEq, Option.isNone_iff_eq_none]

/-- The table of `a ⊼ (c ∨ a) ⊼ b̅`, where three operands give no value, with the label of the
nested sum. -/
theorem truthTable_of_unresolved :
    let sum := (empty.append .or [.input "c", .input "a"]).addLabel (some "q") false
    let e := (empty.append .nand [.input "a", .nested sum, .input "b"]).invertInput "b"
    ∃ t, e.truthTable = .ok t ∧ t.rows.length = 8 ∧
      t.inputs.map (·.heading) = ["a", Text.bar "b", "c"] ∧ t.outputs = [e.text, "q"] ∧
      (∃ row, t.rows[5]? = some row ∧ row.cells.length = 5 ∧
        row.cells[1]? = some (Text.bar "b", some true) ∧ row.cells[3]? = some (e.text, none) ∧
        row.cells[4]? = some ("q", some true)) ∧
      t.warnings = t.unresolvedCells ∧
      t.warnings = (List.range 8).map (.unresolvedCell e.text) := by
  intro sum e
  have labels : ∀ o ∈ e.nestedOutputs,
      e.inputs.Binds o.snapshot.mentions ∧ o.snapshot.depth ≤ maxNestingDepth := by
    decide
  obtain ⟨t, ok, hinputs, -, houtputs, -, rows, shown, -, cells, warnings⟩ :=
    truthTable_lists_assignments (e := e) rfl (by decide) (by decide) (by decide) labels
  have listed : t.outputs = [e.text, "q"] := houtputs.trans (by decide)
  obtain ⟨row, at_five, -, full, inputs, ⟨v, output, value⟩, outputs⟩ := shown 5 (by decide)
  have barred : row.cells[1]? = some (Text.bar "b", some true) :=
    (inputs 1 "b" (Binding.unresolved.toggle) rfl).2.trans (by decide)
  have missing : e.valueOf (.ofRow e.inputs.names 5) = .ok none := by decide
  rw [missing] at value
  cases value
  obtain ⟨w, nested, value⟩ := outputs 1 ⟨"q", sum.snapshot⟩ rfl
  have one : e.valueOfOutput ⟨"q", sum.snapshot⟩ (.ofRow e.inputs.names 5) = .ok (some true) := by
    decide
  rw [one] at value
  cases value
  refine ⟨t, ok, rows, hinputs ▸ by decide, listed, ⟨row, at_five, ?_, barred, output, nested⟩,
    cells, warnings.trans (by decide)⟩
  rw [full, hinputs, listed]
  rfl

end Expression

end SwitchingAlgebra
