-- Labels tell outputs apart. Whatever sets a label looks at those that are there; only an
-- inversion rewrites labels one by one, and keeps them apart where it can be taken back.
import SwitchingAlgebra.Proofs.Mentioning
import SwitchingAlgebra.Proofs.Repeating

namespace SwitchingAlgebra

/-- No label stands twice. -/
def Output.Apart (os : List Output) : Prop := (os.map (·.label)).Nodup

instance (os : List Output) : Decidable (Output.Apart os) :=
  inferInstanceAs (Decidable (os.map (·.label)).Nodup)

namespace Output

variable {os : List Output}

theorem apart_cons {o : Output} : Apart (o :: os) ↔ (∀ p ∈ os, p.label ≠ o.label) ∧ Apart os := by
  simp [Apart]

/-- A label that is there already is taken over by the new output. -/
theorem Apart.put (h : Apart os) (o : Output) : Apart (o.put os) := by
  induction os with
  | nil => simp [Apart, Output.put]
  | cons p os ih =>
    obtain ⟨hp, hos⟩ := apart_cons.mp h
    simp only [Output.put]
    split
    · rename_i same
      exact apart_cons.mpr ⟨same ▸ hp, hos⟩
    · rename_i other
      refine apart_cons.mpr ⟨fun q hq => ?_, ih hos⟩
      rcases Expression.mem_put hq with rfl | hq
      · exact Ne.symm other
      · exact hp q hq

theorem Apart.addNew (h : Apart os) (o : Output) : Apart (addNew os o) := by
  unfold Output.addNew
  split
  · exact h
  · rename_i fresh
    have missing : ∀ p ∈ os, p.label ≠ o.label := by
      intro p hp same
      exact fresh (List.any_eq_true.mpr ⟨p, hp, by simpa using same⟩)
    rw [Apart, List.map_append, List.nodup_append]
    refine ⟨h, by simp, ?_⟩
    rintro l hl l' hl' rfl
    obtain ⟨p, hp, rfl⟩ := List.mem_map.mp hl
    exact missing p hp (by simpa using hl')

theorem Apart.foldl_addNew (h : Apart os) (news : List Output) :
    Apart (news.foldl Output.addNew os) := by
  induction news generalizing os with
  | nil => exact h
  | cons o news ih => exact ih (h.addNew o)

/-- A new name that no output has keeps the labels apart. -/
theorem Apart.rename (h : Apart os) {old new : String} (snapshot : Expression)
    (fresh : ∀ o ∈ os, o.label ≠ new) : Apart (Output.rename old new snapshot os) := by
  induction os with
  | nil => exact h
  | cons o os ih =>
    obtain ⟨ho, hos⟩ := apart_cons.mp h
    have later : ∀ p ∈ os, p.label ≠ new := fun p hp => fresh p (List.mem_cons_of_mem _ hp)
    simp only [Output.rename]
    split
    · exact apart_cons.mpr ⟨later, hos⟩
    · refine apart_cons.mpr ⟨fun p hp => ?_, ih hos later⟩
      rcases mem_rename hp with rfl | hp
      · exact Ne.symm (fresh o (by simp))
      · exact ho p hp

/-- Labels that toggle back stay apart when they are all toggled. -/
theorem Apart.invertInput (h : Apart os) {name : String}
    (back : ∀ o ∈ os, Text.TogglesBack name o.label) :
    Apart (os.map (Output.invertInput name)) := by
  induction os with
  | nil => exact h
  | cons o os ih =>
    obtain ⟨ho, hos⟩ := apart_cons.mp h
    refine apart_cons.mpr ⟨fun q hq same => ?_, ih hos (fun p hp => back p (List.mem_cons_of_mem _ hp))⟩
    obtain ⟨p, hp, rfl⟩ := List.mem_map.mp hq
    exact ho p hp ((back p (List.mem_cons_of_mem _ hp)).eq_of_toggleBarIn (back o (by simp)) same)

end Output

namespace Expression

variable {e : Expression}

/-! ## One call -/

theorem apart_withOutputs (h : Output.Apart e.outputs) : Output.Apart e.withOutputs.outputs := by
  unfold withOutputs gatherLabels
  apply Output.Apart.foldl_addNew
  split
  · exact h.put _
  · exact h

theorem apart_prepared (h : Output.Apart e.outputs) : Output.Apart e.prepared.outputs := by
  unfold prepared
  split
  · exact h
  · exact apart_withOutputs h

theorem apart_renameOutput (h : Output.Apart e.outputs) : Output.Apart e.renameOutput.outputs := by
  unfold renameOutput
  split
  · rename_i old new _
    have kept : Output.Apart (e.outputs.filter (·.label ≠ new)) :=
      h.sublist (List.filter_sublist.map _)
    exact kept.rename _ (fun o ho => by simpa using (List.mem_filter.mp ho).2)
  · exact h

/-- A simplification renames one output at most, and drops what had its new name. -/
theorem apart_simplify (c : SimplifyConfig) (h : Output.Apart e.outputs) :
    Output.Apart (e.simplify c).expression.outputs := by
  have stands := passes_standsFor c e
  have passed : Output.Apart (e.passes c).expression.outputs := by rwa [stands.outputs]
  have refreshed : Output.Apart (refreshOutputs e (e.passes c).expression).outputs := by
    rw [Output.Apart, labels_refreshOutputs]
    exact passed
  exact simplify_holds (P := fun e => Output.Apart e.outputs) h passed (apart_renameOutput refreshed)

/-! ## Histories -/

/-- What a history of calls leads from an expression without labels to, if each inversion
meets only labels that a second one gives back. Terms may have any operands. -/
inductive Inscribed : Expression → Prop
  | unlabelled {e : Expression} : e.outputs = [] → Inscribed e
  | push {e e' : Expression} {op : Operator} {operands : List Operand} : Inscribed e →
      e.push op operands = .ok e' → Inscribed e'
  | negate {e : Expression} : Inscribed e → Inscribed e.negate
  | addLabel {e : Expression} (name : Option String) (inverted : Bool) : Inscribed e →
      Inscribed (e.addLabel name inverted)
  | assign {e : Expression} (name : String) (v : Bool) : Inscribed e → Inscribed (e.assign name v)
  | setInverted {e : Expression} (name : String) (flag : Bool) : Inscribed e →
      Inscribed (e.setInverted name flag)
  | invertInput {e : Expression} {name : String} : Inscribed e →
      (e.inputs.contains name → ∀ o ∈ e.outputs, Text.TogglesBack name o.label) →
      Inscribed (e.invertInput name)
  | simplify {e : Expression} (c : SimplifyConfig) : Inscribed e →
      Inscribed (e.simplify c).expression
  | prepared {e : Expression} : Inscribed e → Inscribed e.prepared

/-- Labels that bar a word at its first mention at most can be inverted in it. -/
theorem Inscribed.invertWord (h : e.Inscribed) {name : String}
    (first : ∀ o ∈ e.outputs, Text.barsOnlyFirst name o.label) : (e.invertInput name).Inscribed :=
  h.invertInput (fun _ o ho => Text.togglesBack_of_barsOnlyFirst (first o ho))

/-- No two outputs have one label, as long as each inversion can be taken back in the labels
that it meets. -/
theorem labels_apart (h : e.Inscribed) : Output.Apart e.outputs := by
  induction h with
  | unlabelled none =>
    rw [none]
    exact List.nodup_nil
  | push _ taken ih =>
    obtain ⟨-, -, -, outputs⟩ := push_eq_ok taken
    rw [outputs]
    exact ih
  | negate _ ih => exact ih
  | addLabel name inverted _ ih => exact ih.put _
  | assign name v _ ih => exact ih
  | setInverted name flag _ ih => exact ih
  | @invertInput e name _ back ih =>
    unfold invertInput
    split
    · rename_i bound
      exact ih.invertInput (back bound)
    · exact ih
  | simplify c _ ih => exact apart_simplify c ih
  | prepared _ ih => exact apart_prepared ih

/-- `a ∧ b` under its text and under `q`, inverted in `a` and simplified. -/
theorem labels_apart_of_inverted :
    let e := (((((empty.append .and [.input "a", .input "b"]).addLabel none false).addLabel
      (some "q") false).invertInput "a").simplify {}).expression
    e.Inscribed ∧ e.outputs.map (·.label) = ["a\u0304 ∧ b", "q"] ∧ Output.Apart e.outputs := by
  intro e
  have inscribed : e.Inscribed := by
    refine .simplify _ (.invertWord (.addLabel _ _ (.addLabel _ _ (.unlabelled rfl))) ?_)
    decide +kernel
  exact ⟨inscribed, by decide +kernel, labels_apart inscribed⟩

/-- Each label is rewritten by itself, and the barred name is looked for first. So two labels
with both forms of the name, in either order, are rewritten to one text. -/
theorem labels_can_coincide :
    let e := (((empty.append .and [.input "a"]).addLabel (some "a\u0304 ∧ a") false).addLabel
      (some "a ∧ a\u0304") false).invertInput "a"
    e.Reachable ∧ ¬ Output.Apart e.outputs := by
  intro e
  refine ⟨?_, by decide⟩
  exact .invertInput _ (.addLabel _ _ (.addLabel _ _ (.pushNames .and ["a"] .empty rfl)))

end Expression

end SwitchingAlgebra
