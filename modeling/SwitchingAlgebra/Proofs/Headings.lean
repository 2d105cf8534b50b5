-- Looking up a column by its heading. A row is searched from its first cell on, and inputs stand
-- first: a heading stands for the first input that has it, and only then for an output.
import Mathlib.Data.List.Nodup
import SwitchingAlgebra.Proofs.Labelling
import SwitchingAlgebra.Proofs.Uniform
import SwitchingAlgebra.Proofs.Writing

namespace SwitchingAlgebra

/-! ## The first that has a key -/

section

variable {α β : Type} {key : α → String} {xs : List α}

theorem lookup_map (value : α → β) (k : String) :
    (xs.map (fun x => (key x, value x))).lookup k = (xs.find? (key · == k)).map value := by
  induction xs with
  | nil => rfl
  | cons x xs ih =>
    rw [List.map_cons, List.lookup_cons, List.find?_cons, ih]
    by_cases same : k = key x
    · simp [same]
    · simp [beq_false_of_ne same, beq_false_of_ne (Ne.symm same)]

theorem find?_of_nodup (apart : (xs.map key).Nodup) {x : α} (hx : x ∈ xs) :
    xs.find? (key · == key x) = some x := by
  induction xs with
  | nil => cases hx
  | cons y xs ih =>
    obtain ⟨fresh, rest⟩ := List.nodup_cons.mp apart
    rcases List.mem_cons.mp hx with rfl | hx
    · simp
    · have other : key y ≠ key x := fun same => fresh (same ▸ List.mem_map_of_mem hx)
      rw [List.find?_cons, beq_false_of_ne other]
      exact ih rest hx

theorem find?_of_not_mem {k : String} (absent : k ∉ xs.map key) :
    xs.find? (key · == k) = none :=
  List.find?_eq_none.mpr (fun _ hx same => absent (eq_of_beq same ▸ List.mem_map_of_mem hx))

theorem mapM_eq_some {f : α → Option β} {g : α → β} (h : ∀ x ∈ xs, f x = some (g x)) :
    xs.mapM f = some (xs.map g) := by
  induction xs with
  | nil => rfl
  | cons x xs ih =>
    rw [List.forall_mem_cons] at h
    rw [List.mapM_cons, h.1, ih h.2]
    rfl

end

theorem Bindings.get?_of_mem {m : Bindings} {n : String} {b : Binding} (h : (n, b) ∈ m.entries) :
    m.get? n = some b := by
  have first : m.entries.find? (·.1 == n) = some (n, b) := find?_of_nodup m.names_nodup h
  have found := @lookup_map _ _ Prod.fst m.entries Prod.snd n
  rw [first, List.map_id''] at found
  · exact found
  · exact fun _ => rfl

/-! ## Headings of inputs -/

/-- A bare name can be read off its heading, barred or not. -/
theorem InputColumn.name_of_heading {c : InputColumn}
    (made : c.heading = if c.inverted then Text.bar c.name else c.name)
    (bare : ∀ ch ∈ c.name.toList, Text.isBarMark ch = false) :
    Text.stripBars c.heading.toList = c.name.toList := by
  have unmarked : c.name.toList.any Text.isBarMark = false := by simpa using bare
  rw [made]
  cases c.inverted with
  | false => exact List.filter_eq_self.mpr (fun ch hch => by simp [bare ch hch])
  | true => simp [Text.bar, unmarked, Text.stripBars_putBar bare]

namespace Expression

theorem heading_of_mem {e : Expression} {c : InputColumn} (hc : c ∈ e.inputColumns) :
    c.heading = if c.inverted then Text.bar c.name else c.name := by
  obtain ⟨⟨n, b⟩, -, rfl⟩ := List.mem_map.mp hc
  rfl

/-- Bare names have headings of their own. -/
theorem nodup_headings {e : Expression}
    (bare : ∀ c ∈ e.inputColumns, ∀ ch ∈ c.name.toList, Text.isBarMark ch = false) :
    (e.inputColumns.map (·.heading)).Nodup := by
  have names : (e.inputColumns.map (·.name)).Nodup := e.names_inputColumns ▸ e.inputs.names_nodup
  refine List.Nodup.map_on (fun c hc d hd same => ?_) (List.Nodup.of_map _ names)
  have named : c.name = d.name := by
    rw [← String.toList_inj, ← c.name_of_heading (heading_of_mem hc) (bare c hc),
      ← d.name_of_heading (heading_of_mem hd) (bare d hd), same]
  exact List.inj_on_of_nodup_map names hc hd named

/-! ## Cells of a row -/

/-- The effective values of an input, from the first row to the last. -/
def inputValues (e : Expression) (name : String) : List (Option Bool) :=
  (List.range e.rowCount).map (fun k => (e.scope (.ofRow e.inputs.names k)).values name)

/-- The cell of an input holds what an evaluation sees of it in this row. -/
theorem cell_of_input {e : Expression} {c : InputColumn} (hc : c ∈ e.inputColumns) (k : Nat) :
    ((Assignment.ofRow (e.inputColumns.map (·.name)) k).get? c.name).map (· != c.inverted) =
      (e.scope (.ofRow e.inputs.names k)).values c.name := by
  obtain ⟨⟨n, b⟩, entry, rfl⟩ := List.mem_map.mp hc
  obtain ⟨i, hi⟩ := List.mem_iff_getElem?.mp (List.mem_map_of_mem entry : n ∈ e.inputs.names)
  have raw := Assignment.get?_ofRow e.inputs.names_nodup k hi
  have bound := Bindings.get?_of_mem entry
  rw [names_inputColumns, Bindings.values, scope, Assignment.get?_applyTo]
  simp only [raw, bound]
  rfl

/-- A heading stands for the first input that has it, or else for the first output. -/
theorem get?_tableRow (inputs : List InputColumn) (columns : List OutputColumn) (k : Nat)
    (heading : String) : (tableRow inputs columns k).get? heading =
      ((inputs.find? (·.heading == heading)).map (fun c =>
        ((Assignment.ofRow (inputs.map (·.name)) k).get? c.name).map (· != c.inverted))).or
      ((columns.find? (·.label == heading)).map (fun c => (c.values[k]?).join)) := by
  rw [TruthRow.get?, tableRow, List.lookup_append, lookup_map, lookup_map]

end Expression

/-! ## Columns of a table -/

/-- What is looked up under a heading: these values, as a column and row by row. -/
structure TruthTable.Shows (t : TruthTable) (heading : String) (values : List (Option Bool)) :
    Prop where
  column : t.column? heading = some values
  cell : ∀ (k : Nat) (row : TruthRow), t.rows[k]? = some row → row.get? heading = values[k]?

theorem TruthTable.shows_of_rows {t : TruthTable} {n : Nat} {row : Nat → TruthRow}
    (rows : t.rows = (List.range n).map row) {heading : String} {cell : Nat → Option Bool}
    (cells : ∀ k < n, (row k).get? heading = some (cell k)) :
    t.Shows heading ((List.range n).map cell) := by
  constructor
  · rw [column?, rows, List.mapM_map]
    exact mapM_eq_some (fun k hk => cells k (List.mem_range.mp hk))
  · intro k r hr
    rw [rows, List.getElem?_map] at hr
    by_cases hk : k < n
    · rw [List.getElem?_range hk] at hr
      cases hr
      rw [cells k hk, List.getElem?_map, List.getElem?_range hk]
      rfl
    · rw [List.getElem?_eq_none (by simpa using hk)] at hr
      cases hr

namespace Expression

theorem labels_truthColumns {e : Expression} {columns : List OutputColumn}
    (h : e.truthColumns = .ok columns) :
    columns.map (·.label) = e.withOutputs.outputs.map (·.label) := by
  have labels := (forall₂_truthColumns h).imp (fun _ _ made => made.1)
  rw [← List.forall₂_eq_eq_eq, List.forall₂_map_left_iff, List.forall₂_map_right_iff]
  exact labels.flip

/-- A label that is no heading of an input finds the values of its output. -/
theorem get?_tableRow_of_output {inputs : List InputColumn} {columns : List OutputColumn}
    (apart : (columns.map (·.label)).Nodup) {c : OutputColumn} (hc : c ∈ columns)
    (unshared : c.label ∉ inputs.map (·.heading)) (k : Nat) :
    (tableRow inputs columns k).get? c.label = some (c.values[k]?).join := by
  rw [get?_tableRow, find?_of_not_mem unshared, find?_of_nodup apart hc]
  rfl

/-- A heading finds the effective value of the first input that has it. -/
theorem get?_tableRow_of_input {e : Expression} (columns : List OutputColumn) {heading : String}
    {c : InputColumn} (first : e.inputColumns.find? (·.heading == heading) = some c) (k : Nat) :
    (tableRow e.inputColumns columns k).get? heading =
      some ((e.scope (.ofRow e.inputs.names k)).values c.name) := by
  rw [get?_tableRow, first, Option.map_some, Option.some_or,
    cell_of_input (List.mem_of_find?_eq_some first)]

/-- A table has the inputs of the expression, by ascending names. Where labels are distinct, a
label shows the values of its output, unless an input has it for a heading. A heading of inputs
shows the effective values of the first input that has it. Bare names have headings of their own,
and then every input shows its values. -/
theorem truthTable_shows {e : Expression} {t : TruthTable} (apart : Output.Apart e.outputs)
    (ok : e.truthTable = .ok t) : ∃ columns, e.truthColumns = .ok columns ∧
      t.inputs = e.inputColumns ∧ (t.inputs.map (·.name)).Pairwise (· < ·) ∧
      t.outputs = columns.map (·.label) ∧
      (∀ c ∈ columns, c.label ∉ t.inputs.map (·.heading) → t.Shows c.label c.values) ∧
      (∀ heading input, t.inputs.find? (·.heading == heading) = some input →
        t.Shows heading (e.inputValues input.name)) ∧
      ((∀ input ∈ t.inputs, ∀ ch ∈ input.name.toList, Text.isBarMark ch = false) →
        ∀ input ∈ t.inputs, t.Shows input.heading (e.inputValues input.name)) := by
  cases made : e.truthColumns with
  | error err =>
    rw [truthTable, made] at ok
    cases ok
  | ok columns =>
    obtain rfl := Except.ok.inj ((truthTable_eq made).symm.trans ok)
    have labels : (columns.map (·.label)).Nodup :=
      labels_truthColumns made ▸ apart_withOutputs apart
    refine ⟨columns, rfl, rfl, e.ascending_inputColumns, rfl, fun c hc unshared => ?_,
      fun heading input first => ?_, fun bare input hinput => ?_⟩
    · have height := (uniform_of_truthColumns made hc).1
      have cells : c.values = (List.range e.rowCount).map (fun k => (c.values[k]?).join) := by
        refine List.ext_getElem (by simp [height]) (fun k hk _ => ?_)
        simp [hk]
      rw [cells]
      exact TruthTable.shows_of_rows rfl (fun k _ => get?_tableRow_of_output labels hc unshared k)
    · exact TruthTable.shows_of_rows rfl (fun k _ => get?_tableRow_of_input columns first k)
    · have first := find?_of_nodup (nodup_headings bare) hinput
      exact TruthTable.shows_of_rows rfl (fun k _ => get?_tableRow_of_input columns first k)

/-- The table of `ā ∨ (b ∧ c)`, named `p`, with the nested product named `q`. -/
theorem truthTable_shows_of_named :
    let product := (empty.append .and [.input "b", .input "c"]).addLabel (some "q") false
    let e := ((empty.append .or [.input "a", .nested product]).invertInput "a").addLabel
      (some "p") false
    Output.Apart e.outputs ∧ ∃ t, e.truthTable = .ok t ∧
      t.inputs.map (fun c => (c.name, c.heading)) =
        [("a", Text.bar "a"), ("b", "b"), ("c", "c")] ∧
      t.column? "q" =
        some ((List.replicate 2 [some false, some false, some false, some true]).flatten) ∧
      t.column? (Text.bar "a") =
        some (List.replicate 4 (some true) ++ List.replicate 4 (some false)) := by
  intro product e
  have apart : Output.Apart e.outputs := by decide
  have columns : e.truthColumns = .ok [
      ⟨"p", List.replicate 4 (some true) ++ [some false, some false, some false, some true]⟩,
      ⟨"q", (List.replicate 2 [some false, some false, some false, some true]).flatten⟩] := by
    decide
  have first : e.inputColumns.find? (·.heading == Text.bar "a") =
      some ⟨"a", Text.bar "a", true⟩ := by decide
  obtain ⟨_, made, listed, -, -, outputs, inputs, -⟩ := truthTable_shows apart
    (truthTable_eq columns)
  obtain rfl := Except.ok.inj (columns.symm.trans made)
  refine ⟨apart, _, truthTable_eq columns, listed ▸ by decide, ?_, ?_⟩
  · exact (outputs ⟨"q", _⟩ (by simp) (by decide)).column
  · exact (inputs _ _ first).column.trans (by decide)

/-- The label `b` finds the input `b`, and the name that has a bar of its own finds the inverted
`a` under its heading. -/
theorem truthTable_can_shadow :
    let e := ((empty.append .and [.input "a", .input "b", .input (Text.bar "a")]).invertInput
      "a").addLabel (some "b") false
    Output.Apart e.outputs ∧ ∃ t columns, e.truthTable = .ok t ∧ e.truthColumns = .ok columns ∧
      (∃ c ∈ columns, t.column? c.label ≠ some c.values) ∧
      ∃ input ∈ t.inputs, t.column? input.heading ≠ some (e.inputValues input.name) := by
  intro e
  have columns : e.truthColumns = .ok [⟨"b", [some false, some false, some false, some true,
      some false, some false, some false, some false]⟩] := by decide
  refine ⟨by decide, _, _, truthTable_eq columns, columns, ?_, ?_⟩
  · exact ⟨_, List.mem_singleton_self _, by decide⟩
  · decide

end Expression

end SwitchingAlgebra
