-- An input that is inverted twice is as it was, and so is all that a label keeps. The text of a
-- label is not always: what becomes of it shows in the mentions of the name.
import SwitchingAlgebra.Proofs.Mentioning
import SwitchingAlgebra.Proofs.Reachable

namespace SwitchingAlgebra

namespace Text

/-! ## The first mention in one form -/

section

variable {form : Bool → List Char}

/-- A form is mentioned here, or later. -/
theorem mem_mentionsFrom_cons (forms : Forms form) {before : Bool} {c : Char} {rest : List Char}
    {m : Bool} : m ∈ mentionsFrom form before (c :: rest) ↔
      isWordAt (form m) before (c :: rest) ∨ m ∈ mentionsFrom form (isWordChar c) rest := by
  constructor
  · intro h
    rw [mentionsFrom, List.mem_append] at h
    refine h.imp_left (fun here => ?_)
    split at here
    · rwa [List.mem_singleton.mp here]
    · split at here
      · rwa [List.mem_singleton.mp here]
      · cases here
  · rintro (here | later)
    · exact mem_mentionsFrom forms here
    · rw [mentionsFrom]
      exact List.mem_append_right _ later

/-- Where a form is mentioned, it has a first mention. -/
theorem exists_of_mem_mentionsFrom (forms : Forms form) {before m : Bool} {cs : List Char}
    (h : m ∈ mentionsFrom form before cs) :
    ∃ p q, cs = p ++ (form m ++ q) ∧ endsInWord before p = false ∧ startsWithWord q = false ∧
      m ∉ mentionsFrom form before p := by
  induction cs generalizing before with
  | nil => cases h
  | cons c rest ih =>
    by_cases here : isWordAt (form m) before (c :: rest) = true
    · obtain ⟨rfl, q, heq, stops⟩ := ((forms.word m).isWordAt_iff _ _).mp here
      exact ⟨[], q, heq, rfl, stops, List.not_mem_nil⟩
    · have later := ((mem_mentionsFrom_cons forms).mp h).resolve_left here
      obtain ⟨p, q, rfl, ends, stops, hp⟩ := ih later
      rw [← endsInWord_cons before c p] at ends
      refine ⟨c :: p, q, rfl, ends, stops, fun found => ?_⟩
      rcases (mem_mentionsFrom_cons forms).mp found with found | later
      · rw [← (forms.word m).isWordAt_append (List.cons_ne_nil c p) ends (form m ++ q)] at found
        exact here found
      · exact hp later

/-- Replacing a form by the other one changes the first of its mentions, and no other. -/
theorem exists_replaceWordFrom (forms : Forms form) {before m : Bool} {cs : List Char}
    (h : m ∈ mentionsFrom form before cs) :
    ∃ cs', replaceWordFrom (form m) (form (!m)) before cs = some cs' ∧
      mentionsFrom form before cs' = (mentionsFrom form before cs).replace m (!m) := by
  obtain ⟨p, q, rfl, ends, stops, hp⟩ := exists_of_mem_mentionsFrom forms h
  refine ⟨_, replaceWordFrom_form forms _ ends stops hp, ?_⟩
  rw [mentionsFrom_append forms ends, mentionsFrom_append forms ends, mentionsFrom_form forms _ stops,
    mentionsFrom_form forms _ stops, List.replace_append_right hp, List.replace_cons_self]

end

/-! ## What toggling does to the mentions -/

/-- The first barred mention loses its bar; where none is barred, the first plain one gets a
bar. -/
def toggledMentions (ms : List Bool) : List Bool :=
  if true ∈ ms then ms.replace true false else ms.replace false true

theorem mentions_toggleBarIn {name : String} (word : isWordName name) (label : String) :
    mentions name (toggleBarIn name label) = toggledMentions (mentions name label) := by
  have forms := forms_of_isWordName word
  unfold toggledMentions
  split
  · rename_i barred
    obtain ⟨cs, replaced, changed⟩ := exists_replaceWordFrom forms barred
    have toggled : toggleBarIn name label = String.ofList cs := by
      simp only [formOf, Bool.not_true] at replaced
      rw [toggleBarIn, replaceWord?, replaced]
      rfl
    rw [toggled, mentions, String.toList_ofList]
    exact changed
  · rename_i unbarred
    have kept : replaceWord? (bar name) name label = none := by
      rw [replaceWord?]
      exact congrArg (Option.map String.ofList) (replaceWordFrom_eq_none forms _ unbarred)
    by_cases plain : false ∈ mentions name label
    · obtain ⟨cs, replaced, changed⟩ := exists_replaceWordFrom forms plain
      have toggled : toggleBarIn name label = String.ofList cs := by
        simp only [formOf, Bool.not_false] at replaced
        rw [toggleBarIn, kept, replaceWord?, replaced]
        rfl
      rw [toggled, mentions, String.toList_ofList]
      exact changed
    · have same : toggleBarIn name label = label := by
        have absent := replaceWordFrom_eq_none forms (bar name).toList plain
        simp only [formOf] at absent
        rw [toggleBarIn, kept, replaceWord?, absent]
        rfl
      rw [same, List.replace_of_not_mem plain]

theorem toggledMentions_false (ms : List Bool) : toggledMentions (false :: ms) =
    if true ∈ ms then false :: ms.replace true false else true :: ms := by
  simp [toggledMentions, List.replace_cons]

/-- Bars that are taken away one by one do not come back. -/
theorem replace_replace_ne {ms : List Bool} (h : true ∈ ms) :
    (ms.replace true false).replace true false ≠ ms := by
  induction ms with
  | nil => cases h
  | cons m ms ih =>
    cases m with
    | true => simp [List.replace_cons]
    | false => simpa [List.replace_cons] using ih (by simpa using h)

/-- Mentions that are toggled back are plain behind the first. -/
theorem not_mem_tail_of_toggledMentions {ms : List Bool}
    (back : toggledMentions (toggledMentions ms) = ms) : true ∉ ms.tail := by
  intro later
  cases ms with
  | nil => cases later
  | cons m ms =>
    rw [List.tail_cons] at later
    cases m with
    | true =>
      -- the second toggling takes another bar away
      have once : toggledMentions (true :: ms) = false :: ms := by
        simp [toggledMentions]
      rw [once, toggledMentions_false, if_pos later] at back
      cases (List.cons.inj back).1
    | false =>
      rw [toggledMentions_false, if_pos later, toggledMentions_false] at back
      split at back
      · exact replace_replace_ne later (List.cons.inj back).2
      · cases (List.cons.inj back).1

/-- Toggling twice gives back the labels that bar the name at its first mention at most, and
no others. -/
theorem togglesBack_iff {name label : String} (word : isWordName name) :
    TogglesBack name label ↔ barsOnlyFirst name label := by
  refine ⟨fun back => ?_, togglesBack_of_barsOnlyFirst⟩
  have same : toggledMentions (toggledMentions (mentions name label)) = mentions name label := by
    rw [← mentions_toggleBarIn word, ← mentions_toggleBarIn word, back]
  have plain := not_mem_tail_of_toggledMentions same
  rw [barsOnlyFirst, word, Bool.true_and, List.all_eq_true]
  intro m hm
  cases m with
  | false => rfl
  | true => exact absurd hm plain

end Text

/-! ## Inverting twice -/

theorem Bindings.get?_toggle (m : Bindings) (name x : String) : (m.toggle name).get? x =
    if x = name then (m.get? name).map Binding.toggle else m.get? x := by
  unfold toggle
  split
  · rename_i bound
    obtain ⟨b, hb⟩ := Option.isSome_iff_exists.mp bound
    rw [get?_update, hb]
    rfl
  · rename_i unbound
    rw [contains, Bool.not_eq_true, Option.isSome_eq_false_iff, Option.isNone_iff_eq_none] at unbound
    split
    · rename_i same
      rw [same, unbound]
      rfl
    · rfl

theorem Bindings.toggle_toggle (m : Bindings) (name : String) :
    (m.toggle name).toggle name = m := by
  apply ext_get?
  intro x
  rw [get?_toggle, get?_toggle, get?_toggle, if_pos rfl]
  split
  · rename_i same
    subst same
    cases m.get? x <;> simp
  · rfl

theorem Output.invertInput_invertInput (name : String) (o : Output) :
    (o.invertInput name).invertInput name =
      { o with label := toggleBarIn name (toggleBarIn name o.label) } := by
  obtain ⟨label, ⟨inputs, terms, outputs, journal⟩⟩ := o
  simp only [invertInput, Bindings.toggle_toggle]

theorem Output.map_label_eq_self_iff {os : List Output} {f : String → String} :
    os.map (fun o => { o with label := f o.label }) = os ↔ ∀ o ∈ os, f o.label = o.label := by
  conv => lhs; rhs; rw [← List.map_id os]
  rw [List.map_inj_left]
  refine forall₂_congr (fun o _ => ?_)
  obtain ⟨label, snapshot⟩ := o
  simp

namespace Expression

/-- Only labels can change when a bound name is inverted twice. -/
theorem invert_twice_eq {e : Expression} {name : String} (bound : e.inputs.contains name) :
    (e.invert [name]).invert [name] = { e with outputs := e.outputs.map (fun o =>
      { o with label := toggleBarIn name (toggleBarIn name o.label) }) } := by
  have still : (e.inputs.toggle name).contains name := e.inputs.contains_toggle name bound
  have twice : Output.invertInput name ∘ Output.invertInput name =
      fun o => { o with label := toggleBarIn name (toggleBarIn name o.label) } :=
    funext (Output.invertInput_invertInput name)
  simp only [invert, List.foldl_cons, List.foldl_nil, invertInput, if_pos bound, if_pos still,
    Bindings.toggle_toggle, List.map_map, twice]

/-- A second inversion of a bound name gives back all but the labels: terms, inputs, journal and
snapshots are as they were. So is the whole expression if each label toggles back, and only
then; for a name of one word that is where no label bars a mention of it but the first. -/
theorem invert_twice {e : Expression} {name : String} (bound : e.inputs.contains name) :
    let e' := (e.invert [name]).invert [name]
    e'.terms = e.terms ∧ e'.inputs = e.inputs ∧ e'.journal = e.journal ∧
      e'.outputs.map (·.snapshot) = e.outputs.map (·.snapshot) ∧
      (e' = e ↔ ∀ o ∈ e.outputs, Text.TogglesBack name o.label) ∧
      (Text.isWordName name → (e' = e ↔ ∀ o ∈ e.outputs, Text.barsOnlyFirst name o.label)) := by
  intro e'
  have twice : e' = _ := invert_twice_eq bound
  have back : e' = e ↔ ∀ o ∈ e.outputs, Text.TogglesBack name o.label := by
    refine Iff.trans ?_ (Output.map_label_eq_self_iff
      (f := fun label => toggleBarIn name (toggleBarIn name label)))
    rw [twice]
    cases e
    simp
  refine ⟨by rw [twice], by rw [twice], by rw [twice], ?_, back, fun word => ?_⟩
  · rw [twice, List.map_map]
    rfl
  · rw [back]
    exact forall₂_congr (fun o _ => Text.togglesBack_iff word)

/-- The labels of `a ∧ b ∧ (c ∨ a)`, one of words and one that is negated, are given back. -/
theorem invert_twice_of_words :
    let e := ((empty.append .and [.input "a", .input "b",
      .nested (empty.append .or [.input "c", .input "a"])]).addLabel (some "a and b") false).addLabel
        (some "sum of a") true
    e.inputs.contains "a" ∧
      (e.invert ["a"]).outputs.map (·.label) = ["a\u0304 and b", "¬(sum of a\u0304)"] ∧
      (e.invert ["a"]).invert ["a"] = e := by
  intro e
  have bound : e.inputs.contains "a" := by decide
  have word : Text.isWordName "a" := by decide
  have first : ∀ o ∈ e.outputs, Text.barsOnlyFirst "a" o.label := by decide
  obtain ⟨-, -, -, -, -, back⟩ := invert_twice bound
  exact ⟨bound, by decide, (back word).mpr first⟩

/-- One mention of the name is rewritten at a time, and barred ones go first. So the text of
`(a ∧ b) ∨ a` with `a` inverted loses both its bars, although `a` is inverted still. -/
theorem invert_twice_can_change_label :
    let e := (((empty.append .and [.input "a", .input "b"]).append .or [.input "a"]).setInverted "a"
      true).addLabel none false
    let e' := (e.invert ["a"]).invert ["a"]
    e.Reachable ∧ e.inputs.contains "a" ∧ e'.inputs = e.inputs ∧
      e.outputs.map (·.label) = ["(a\u0304 ∧ b) ∨ a\u0304"] ∧
      e'.outputs.map (·.label) = ["(a ∧ b) ∨ a"] := by
  intro e e'
  refine ⟨?_, by decide⟩
  have sum := Expression.Reachable.pushNames .or ["a"] (.pushNames .and ["a", "b"] .empty rfl) rfl
  exact .addLabel _ _ (.setInverted _ _ sum)

end Expression

end SwitchingAlgebra
