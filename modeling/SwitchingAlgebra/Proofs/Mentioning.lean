-- Names that stand in a text as whole words, plain or barred. Toggling the bar changes one of
-- them. It changes the first, and can be taken back, as long as no later one is barred.
import Mathlib.Data.List.Basic
import SwitchingAlgebra.Labels

namespace SwitchingAlgebra.Text

/-! ## Mentions -/

/-- How often a word stands in a text as a whole word, in either of its two forms, and in
which one each time. -/
def mentionsFrom (form : Bool → List Char) (before : Bool) : List Char → List Bool
  | [] => []
  | c :: rest =>
    (if isWordAt (form true) before (c :: rest) then [true]
      else if isWordAt (form false) before (c :: rest) then [false] else []) ++
      mentionsFrom form (isWordChar c) rest

/-- A name, plain or barred. -/
def formOf (name : String) : Bool → List Char
  | false => name.toList
  | true => (bar name).toList

/-- The mentions of a name in a label, in their order; the barred ones are `true`. -/
def mentions (name label : String) : List Bool := mentionsFrom (formOf name) false label.toList

/-- One word, and not of bars alone. -/
def isWordName (name : String) : Bool :=
  name.toList.all isWordChar && name.toList.any (!isBarMark ·)

/-- The name is a word, and no mention of it in the label but the first is barred. -/
def barsOnlyFirst (name label : String) : Bool :=
  isWordName name && (mentions name label).tail.all (!·)

/-- Toggling a second time gives the label back. -/
def TogglesBack (name label : String) : Prop := toggleBarIn name (toggleBarIn name label) = label

instance (name label : String) : Decidable (TogglesBack name label) :=
  inferInstanceAs (Decidable (_ = _))

/-! ## Where a word stands -/

/-- Word characters only, and at least one. -/
structure IsWord (u : List Char) : Prop where
  ne_nil : u ≠ []
  word : ∀ c ∈ u, isWordChar c = true

/-- Two words that are told apart. -/
structure Forms (form : Bool → List Char) : Prop where
  word : ∀ m, IsWord (form m)
  apart : form true ≠ form false

@[simp] theorem endsInWord_nil (before : Bool) : endsInWord before [] = before := rfl

@[simp] theorem endsInWord_cons (before : Bool) (c : Char) (cs : List Char) :
    endsInWord before (c :: cs) = endsInWord (isWordChar c) cs := by
  unfold endsInWord
  rw [List.getLast?_cons]
  cases cs.getLast? <;> rfl

theorem endsInWord_of_word {cs : List Char} (h : ∀ c ∈ cs, isWordChar c = true) :
    endsInWord true cs = true := by
  induction cs with
  | nil => rfl
  | cons c cs ih =>
    rw [endsInWord_cons, h c (by simp)]
    exact ih (fun d hd => h d (List.mem_cons_of_mem _ hd))

namespace IsWord

variable {u v : List Char}

theorem endsInWord (hu : IsWord u) (before : Bool) : endsInWord before u = true := by
  obtain ⟨c, cs, rfl⟩ := List.exists_cons_of_ne_nil hu.ne_nil
  rw [endsInWord_cons, hu.word c (by simp)]
  exact endsInWord_of_word (fun d hd => hu.word d (List.mem_cons_of_mem _ hd))

theorem startsWithWord (hu : IsWord u) (rest : List Char) : startsWithWord (u ++ rest) = true := by
  obtain ⟨c, cs, rfl⟩ := List.exists_cons_of_ne_nil hu.ne_nil
  exact hu.word c (by simp)

/-- Part of a word is a word. -/
theorem of_append_left {cs : List Char} (hu : IsWord (u ++ cs)) (hne : u ≠ []) : IsWord u :=
  ⟨hne, fun c hc => hu.word c (List.mem_append_left _ hc)⟩

theorem of_append_right {cs : List Char} (hu : IsWord (cs ++ u)) (hne : u ≠ []) : IsWord u :=
  ⟨hne, fun c hc => hu.word c (List.mem_append_right _ hc)⟩

/-- A word that leads a text is as long as the run of word characters there. -/
theorem eq_of_append_eq (hu : IsWord u) (hv : IsWord v) {rest rest' : List Char}
    (h : u ++ rest = v ++ rest') (stops : Text.startsWithWord rest = false)
    (stops' : Text.startsWithWord rest' = false) : u = v ∧ rest = rest' := by
  rcases List.append_eq_append_iff.mp h with ⟨more, hv', hrest⟩ | ⟨more, hu', hrest⟩
  · by_cases hne : more = []
    · subst hne
      exact ⟨by simpa using hv'.symm, by simpa using hrest⟩
    · subst hv' hrest
      rw [(hv.of_append_right hne).startsWithWord] at stops
      cases stops
  · by_cases hne : more = []
    · subst hne
      exact ⟨by simpa using hu', by simpa using hrest.symm⟩
    · subst hu' hrest
      rw [(hu.of_append_right hne).startsWithWord] at stops'
      cases stops'

theorem isWordAt_iff (hu : IsWord u) (before : Bool) (cs : List Char) :
    isWordAt u before cs ↔
      before = false ∧ ∃ rest, cs = u ++ rest ∧ Text.startsWithWord rest = false := by
  unfold isWordAt
  rw [hu.endsInWord, Bool.and_eq_true, Bool.and_eq_true, bne_iff_ne, bne_iff_ne,
    List.isPrefixOf_iff_prefix]
  constructor
  · rintro ⟨⟨⟨rest, rfl⟩, starts⟩, stops⟩
    rw [hu.startsWithWord] at starts
    rw [List.drop_left] at stops
    exact ⟨by simpa using starts, rest, rfl, by simpa using stops.symm⟩
  · rintro ⟨rfl, rest, rfl, stops⟩
    rw [hu.startsWithWord, List.drop_left, stops]
    exact ⟨⟨⟨rest, rfl⟩, by decide⟩, by decide⟩

/-- In front of a place where no word can go on, a word stands in a text as it stands in the
part before the place. -/
theorem isWordAt_append (hu : IsWord u) {before : Bool} {p : List Char} (hp : p ≠ [])
    (ends : Text.endsInWord before p = false) (r : List Char) :
    isWordAt u before (p ++ r) = isWordAt u before p := by
  have within : ∀ {more : List Char}, p = u ++ more → more ≠ [] := by
    rintro more rfl rfl
    rw [List.append_nil, hu.endsInWord] at ends
    cases ends
  have starts : ∀ {more : List Char}, more ≠ [] →
      Text.startsWithWord (more ++ r) = Text.startsWithWord more := by
    intro more hne
    obtain ⟨c, cs, rfl⟩ := List.exists_cons_of_ne_nil hne
    rfl
  rw [Bool.eq_iff_iff, hu.isWordAt_iff, hu.isWordAt_iff]
  refine and_congr_right (fun _ => ⟨?_, ?_⟩)
  · rintro ⟨rest, heq, stops⟩
    rcases List.append_eq_append_iff.mp heq with ⟨more, hu', -⟩ | ⟨more, hp', hrest⟩
    · subst hu'
      rw [(hu.of_append_left hp).endsInWord] at ends
      cases ends
    · rw [hrest, starts (within hp')] at stops
      exact ⟨more, hp', stops⟩
  · rintro ⟨more, hp', stops⟩
    refine ⟨more ++ r, by rw [hp', List.append_assoc], ?_⟩
    rwa [starts (within hp')]

end IsWord

/-! ## Mentions part by part -/

section Mentions

variable {form : Bool → List Char}

theorem mentionsFrom_append (forms : Forms form) {before : Bool} {p : List Char}
    (ends : endsInWord before p = false) (r : List Char) :
    mentionsFrom form before (p ++ r) = mentionsFrom form before p ++ mentionsFrom form false r := by
  induction p generalizing before with
  | nil =>
    obtain rfl : before = false := ends
    rfl
  | cons c p ih =>
    have here : ∀ m, isWordAt (form m) before (c :: (p ++ r)) = isWordAt (form m) before (c :: p) :=
      fun m => (forms.word m).isWordAt_append (List.cons_ne_nil c p) ends r
    rw [endsInWord_cons] at ends
    rw [List.cons_append, mentionsFrom, mentionsFrom, here, here, ih ends, List.append_assoc]

/-- Behind a word nothing changes until the word has ended. -/
theorem mentionsFrom_run (forms : Forms form) {cs : List Char}
    (h : ∀ c ∈ cs, isWordChar c = true) (q : List Char) :
    mentionsFrom form true (cs ++ q) = mentionsFrom form true q := by
  induction cs with
  | nil => rfl
  | cons c cs ih =>
    have here : ∀ m, isWordAt (form m) true (c :: (cs ++ q)) = false := by
      intro m
      rw [Bool.eq_false_iff, Ne, (forms.word m).isWordAt_iff]
      rintro ⟨inside, -⟩
      cases inside
    rw [List.cons_append, mentionsFrom, here, here, h c (by simp)]
    simpa using ih (fun d hd => h d (List.mem_cons_of_mem _ hd))

theorem mentionsFrom_of_stops (forms : Forms form) (before : Bool) {q : List Char}
    (stops : startsWithWord q = false) :
    mentionsFrom form before q = mentionsFrom form false q := by
  cases q with
  | nil => rfl
  | cons c q =>
    have here : ∀ m b, isWordAt (form m) b (c :: q) = false := by
      intro m b
      rw [Bool.eq_false_iff, Ne, (forms.word m).isWordAt_iff]
      rintro ⟨-, rest, heq, -⟩
      rw [heq, (forms.word m).startsWithWord] at stops
      cases stops
    rw [mentionsFrom, mentionsFrom, here, here, here, here]

/-- At the start of a word it is decided which form stands there. -/
theorem isWordAt_form (forms : Forms form) {m : Bool} {q : List Char}
    (stops : startsWithWord q = false) (m' : Bool) :
    isWordAt (form m') false (form m ++ q) = (m' == m) := by
  rw [Bool.eq_iff_iff, (forms.word m').isWordAt_iff, beq_iff_eq]
  constructor
  · rintro ⟨-, rest, heq, stops'⟩
    have same := ((forms.word m).eq_of_append_eq (forms.word m') heq stops stops').1
    cases m <;> cases m' <;> first | rfl | exact absurd same forms.apart | exact absurd same.symm forms.apart
  · rintro rfl
    exact ⟨rfl, q, rfl, stops⟩

theorem mentionsFrom_form (forms : Forms form) (m : Bool) {q : List Char}
    (stops : startsWithWord q = false) :
    mentionsFrom form false (form m ++ q) = m :: mentionsFrom form false q := by
  have here := isWordAt_form forms (m := m) stops
  obtain ⟨c, cs, hm⟩ := List.exists_cons_of_ne_nil (forms.word m).ne_nil
  have word := (forms.word m).word
  rw [hm] at here word
  rw [hm, List.cons_append, mentionsFrom, ← List.cons_append, here, here, word c (by simp),
    mentionsFrom_run forms (fun d hd => word d (List.mem_cons_of_mem _ hd)),
    mentionsFrom_of_stops forms true stops]
  cases m <;> rfl

/-- The first mention, and what stands before and behind it. -/
theorem exists_of_mentionsFrom (forms : Forms form) {before m : Bool} {ms : List Bool}
    {cs : List Char} (h : mentionsFrom form before cs = m :: ms) :
    ∃ p q, cs = p ++ (form m ++ q) ∧ endsInWord before p = false ∧ startsWithWord q = false ∧
      mentionsFrom form before p = [] ∧ mentionsFrom form false q = ms := by
  induction cs generalizing before with
  | nil => cases h
  | cons c rest ih =>
    by_cases found : ∃ m', isWordAt (form m') before (c :: rest)
    · obtain ⟨m', found⟩ := found
      obtain ⟨rfl, q, heq, stops⟩ := ((forms.word m').isWordAt_iff _ _).mp found
      rw [heq, mentionsFrom_form forms m' stops] at h
      cases h
      exact ⟨[], q, heq, rfl, stops, rfl, rfl⟩
    · have nowhere : ∀ m', isWordAt (form m') before (c :: rest) = false := by
        intro m'
        rw [Bool.eq_false_iff]
        exact fun hm => found ⟨m', hm⟩
      rw [mentionsFrom, nowhere, nowhere] at h
      obtain ⟨p, q, rfl, ends, stops, hp, hq⟩ := ih h
      rw [← endsInWord_cons before c p] at ends
      refine ⟨c :: p, q, rfl, ends, stops, ?_, hq⟩
      have here : ∀ m', isWordAt (form m') before (c :: p) = false := by
        intro m'
        rw [← (forms.word m').isWordAt_append (List.cons_ne_nil c p) ends]
        exact nowhere m'
      rw [mentionsFrom, here, here]
      exact hp

/-! ## Replacing a mention -/

theorem mem_mentionsFrom (forms : Forms form) {before : Bool} {c : Char} {rest : List Char}
    {m : Bool} (h : isWordAt (form m) before (c :: rest)) :
    m ∈ mentionsFrom form before (c :: rest) := by
  obtain ⟨rfl, q, heq, stops⟩ := ((forms.word m).isWordAt_iff _ _).mp h
  rw [heq, mentionsFrom_form forms m stops]
  simp

/-- A form that is not mentioned is not replaced. -/
theorem replaceWordFrom_eq_none (forms : Forms form) {m : Bool} (new : List Char) {before : Bool}
    {cs : List Char} (h : m ∉ mentionsFrom form before cs) :
    replaceWordFrom (form m) new before cs = none := by
  induction cs generalizing before with
  | nil =>
    obtain ⟨c, cs, hm⟩ := List.exists_cons_of_ne_nil (forms.word m).ne_nil
    rw [replaceWordFrom, hm]
    rfl
  | cons c rest ih =>
    have here : ¬ isWordAt (form m) before (c :: rest) = true :=
      fun found => h (mem_mentionsFrom forms found)
    have later : m ∉ mentionsFrom form (isWordChar c) rest := by
      rw [mentionsFrom] at h
      exact fun hm => h (List.mem_append_right _ hm)
    rw [replaceWordFrom, if_neg here, ih later]
    rfl

/-- A form that is mentioned is replaced where it stands first. -/
theorem replaceWordFrom_form (forms : Forms form) {m : Bool} (new : List Char) {before : Bool}
    {p q : List Char} (ends : endsInWord before p = false) (stops : startsWithWord q = false)
    (hp : m ∉ mentionsFrom form before p) :
    replaceWordFrom (form m) new before (p ++ (form m ++ q)) = some (p ++ (new ++ q)) := by
  induction p generalizing before with
  | nil =>
    obtain rfl : before = false := ends
    have here := isWordAt_form forms (m := m) stops m
    obtain ⟨c, cs, hm⟩ := List.exists_cons_of_ne_nil (forms.word m).ne_nil
    rw [beq_self_eq_true, hm] at here
    rw [List.nil_append, List.nil_append, hm, List.cons_append, replaceWordFrom,
      ← List.cons_append, if_pos here, List.drop_left]
  | cons c p ih =>
    have here : ¬ isWordAt (form m) before (c :: (p ++ (form m ++ q))) = true := by
      have same := (forms.word m).isWordAt_append (List.cons_ne_nil c p) ends (form m ++ q)
      rw [List.cons_append] at same
      rw [same]
      exact fun found => hp (mem_mentionsFrom forms found)
    have later : m ∉ mentionsFrom form (isWordChar c) p := by
      rw [mentionsFrom] at hp
      exact fun hm => hp (List.mem_append_right _ hm)
    rw [endsInWord_cons] at ends
    rw [List.cons_append, replaceWordFrom, if_neg here, ih ends later]
    rfl

end Mentions

/-! ## Toggling the bar -/

theorem putBar_isWord {cs : List Char} (h : IsWord cs) : IsWord (putBar cs) := by
  have overlined : isWordChar overline = true := by decide
  match cs with
  | [] => exact absurd rfl h.ne_nil
  | [c] =>
    refine ⟨by simp [putBar], fun d hd => ?_⟩
    rcases List.mem_cons.mp hd with rfl | hd
    · exact h.word d (by simp)
    · rw [List.mem_singleton.mp hd]
      decide
  | c :: c' :: cs =>
    refine ⟨by simp [putBar], fun d hd => ?_⟩
    obtain ⟨c'', hc'', hd⟩ := List.mem_flatMap.mp hd
    rcases List.mem_cons.mp hd with rfl | hd
    · exact h.word d hc''
    · rw [List.mem_singleton.mp hd]
      exact overlined

theorem exists_isBarMark_putBar {cs : List Char} (h : cs ≠ []) :
    ∃ d ∈ putBar cs, isBarMark d = true := by
  match cs with
  | [] => exact absurd rfl h
  | [c] => exact ⟨macron, by simp [putBar], rfl⟩
  | c :: c' :: cs => exact ⟨overline, by simp [putBar], rfl⟩

theorem stripBars_isWord {cs : List Char} (h : ∀ c ∈ cs, isWordChar c = true)
    (some_bare : ∃ c ∈ cs, isBarMark c = false) : IsWord (stripBars cs) := by
  obtain ⟨c, hc, bare⟩ := some_bare
  refine ⟨?_, fun d hd => h d (List.mem_filter.mp hd).1⟩
  exact List.ne_nil_of_mem (List.mem_filter.mpr ⟨hc, by simp [bare]⟩)

/-- A name and its other form are two words that are told apart: just one of them has bars. -/
theorem forms_of_isWordName {name : String} (h : isWordName name) : Forms (formOf name) := by
  simp only [isWordName, Bool.and_eq_true, List.all_eq_true, List.any_eq_true,
    Bool.not_eq_true'] at h
  obtain ⟨word, some_bare⟩ := h
  obtain ⟨c, hc, -⟩ := id some_bare
  have plain : IsWord name.toList := ⟨List.ne_nil_of_mem hc, word⟩
  suffices IsWord (bar name).toList ∧ (bar name).toList ≠ name.toList by
    exact ⟨fun m => by cases m; exacts [plain, this.1], this.2⟩
  by_cases marked : name.toList.any isBarMark = true
  · have stripped : (bar name).toList = stripBars name.toList := by simp [bar, marked]
    rw [stripped]
    refine ⟨stripBars_isWord word some_bare, fun same => ?_⟩
    obtain ⟨d, hd, mark⟩ := List.any_eq_true.mp marked
    have bare := (List.mem_filter.mp (same.symm ▸ hd : d ∈ stripBars name.toList)).2
    simp [mark] at bare
  · have barred : (bar name).toList = putBar name.toList := by simp [bar, marked]
    rw [barred]
    refine ⟨putBar_isWord plain, fun same => ?_⟩
    obtain ⟨d, hd, mark⟩ := exists_isBarMark_putBar plain.ne_nil
    exact marked (List.any_eq_true.mpr ⟨d, same ▸ hd, mark⟩)

/-- Toggling changes the form of the first mention, if none behind it is barred. -/
theorem toggleBarIn_ofList {name : String} (forms : Forms (formOf name)) {p q : List Char}
    (ends : endsInWord false p = false) (stops : startsWithWord q = false)
    (hp : mentionsFrom (formOf name) false p = [])
    (hq : true ∉ mentionsFrom (formOf name) false q) (m : Bool) :
    toggleBarIn name (String.ofList (p ++ (formOf name m ++ q))) =
      String.ofList (p ++ (formOf name (!m) ++ q)) := by
  have first := fun new => replaceWordFrom_form forms (m := m) new ends stops (by simp [hp])
  unfold toggleBarIn replaceWord?
  simp only [String.toList_ofList]
  cases m with
  | true =>
    have replaced := first name.toList
    simp only [formOf] at replaced ⊢
    rw [replaced]
    rfl
  | false =>
    have absent : true ∉ mentionsFrom (formOf name) false (p ++ (formOf name false ++ q)) := by
      rw [mentionsFrom_append forms ends, hp, mentionsFrom_form forms false stops]
      simpa using hq
    have unchanged := replaceWordFrom_eq_none forms name.toList absent
    have replaced := first (bar name).toList
    simp only [formOf] at unchanged replaced ⊢
    rw [unchanged, replaced]
    rfl

/-- Such a label does not mention the name, or splits at its first mention. -/
theorem exists_of_barsOnlyFirst {name label : String} (h : barsOnlyFirst name label) :
    toggleBarIn name label = label ∨ ∃ p q m, Forms (formOf name) ∧
      label = String.ofList (p ++ (formOf name m ++ q)) ∧ endsInWord false p = false ∧
      startsWithWord q = false ∧ mentionsFrom (formOf name) false p = [] ∧
      true ∉ mentionsFrom (formOf name) false q := by
  rw [barsOnlyFirst, Bool.and_eq_true] at h
  have forms := forms_of_isWordName h.1
  have later := h.2
  cases hm : mentions name label with
  | nil =>
    left
    have absent : ∀ m, m ∉ mentionsFrom (formOf name) false label.toList := by
      intro m
      rw [mentions] at hm
      simp [hm]
    have barred := replaceWordFrom_eq_none forms (formOf name false) (absent true)
    have plain := replaceWordFrom_eq_none forms (formOf name true) (absent false)
    simp only [formOf] at barred plain
    rw [toggleBarIn, replaceWord?, replaceWord?, barred, plain]
    rfl
  | cons m ms =>
    right
    obtain ⟨p, q, heq, ends, stops, hp, hq⟩ := exists_of_mentionsFrom forms hm
    refine ⟨p, q, m, forms, ?_, ends, stops, hp, ?_⟩
    · rw [← heq, String.ofList_toList]
    · rw [hm, List.tail_cons, List.all_eq_true] at later
      rw [hq]
      exact fun ht => absurd (later true ht) (by decide)

/-- Toggling twice gives back such a label. -/
theorem togglesBack_of_barsOnlyFirst {name label : String} (h : barsOnlyFirst name label) :
    TogglesBack name label := by
  unfold TogglesBack
  rcases exists_of_barsOnlyFirst h with same | ⟨p, q, m, forms, rfl, ends, stops, hp, hq⟩
  · rw [same, same]
  · rw [toggleBarIn_ofList forms ends stops hp hq, toggleBarIn_ofList forms ends stops hp hq,
      Bool.not_not]

/-- Of two labels that toggle back and are toggled to one text, both are the same. -/
theorem TogglesBack.eq_of_toggleBarIn {name label label' : String} (h : TogglesBack name label)
    (h' : TogglesBack name label') (heq : toggleBarIn name label = toggleBarIn name label') :
    label = label' := by
  rw [← h, heq, h']

end SwitchingAlgebra.Text
