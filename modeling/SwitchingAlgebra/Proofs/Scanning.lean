-- What a text that passes the first look is made of. Once it is taken apart without a stray
-- character, every one of its fragments is spelled somewhere in the text, and nothing else is.
import SwitchingAlgebra.Proofs.Checking
import SwitchingAlgebra.Proofs.Turns

namespace SwitchingAlgebra

open Fragment

/-! ## What passes the first look -/

namespace Validation

/-- What is known of a character that passes behind another one, with so many parentheses
open. -/
structure Follows (before : Option Char) (opened : Nat) (c : Char) : Prop where
  /-- Only the rest of a name goes on where an operand has ended. -/
  turn : startsOperand c = true → ended before = true →
    Text.isNameChar c = true ∧ ∃ b ∈ before, Text.isNameChar b = true
  bar : Text.isBarMark c = true → ∃ b ∈ before, Text.isNameChar b = true
  known : Text.isBarMark c = true ∨ Text.isNameChar c = true ∨ ∃ f : Fragment, c ∈ f.signs
  opening : c = '(' → opened < maxNestingDepth
  closing : c = ')' → 0 < opened

/-- The number of open parentheses after a character. -/
def openedAfter (opened : Nat) (c : Char) : Nat :=
  if c = '(' then opened + 1 else if c = ')' then opened - 1 else opened

/-- Every character may follow the one before it, and all parentheses are closed. -/
def Passes : Option Char → Nat → List Char → Prop
  | _, opened, [] => opened = 0
  | before, opened, c :: cs =>
    Follows before opened c ∧ Passes (some c) (openedAfter opened c) cs

theorem Passes.known_of_mem {before : Option Char} {opened : Nat} {cs : List Char}
    (h : Passes before opened cs) : ∀ c ∈ cs,
      Text.isBarMark c = true ∨ Text.isNameChar c = true ∨ ∃ f : Fragment, c ∈ f.signs := by
  induction cs generalizing before opened with
  | nil => exact fun _ => nofun
  | cons d cs ih => exact List.forall_mem_cons.mpr ⟨h.1.known, ih h.2⟩

theorem mem_signs_of_operatorOf? {c : Char} (h : (operatorOf? c).isSome) :
    ∃ f : Fragment, c ∈ f.signs := by
  unfold operatorOf? at h
  split at h
  all_goals first
    | exact ⟨.operator .and, by decide⟩
    | exact ⟨.operator .or, by decide⟩
    | exact ⟨.operator .xor, by decide⟩
    | exact ⟨.operator .nand, by decide⟩
    | exact ⟨.operator .nor, by decide⟩
    | exact ⟨.operator .xnor, by decide⟩
    | cases h

theorem mem_signs_of_isNegation {c : Char} (h : isNegation c = true) :
    c ∈ Fragment.negation.signs := by
  simp only [isNegation, Bool.or_eq_true, beq_iff_eq] at h
  rcases h with (rfl | rfl) | rfl <;> decide

/-- A character opens a parenthesis, closes the last one, or leaves them as they are. -/
theorem openAfter_cases {before : Option Char} {gap : Bool} {position : Nat} {c : Char}
    {opened opened' : List Nat} (h : openAfter before gap position c opened = .ok opened') :
    (c = '(' ∧ opened.length < maxNestingDepth ∧ opened' = position :: opened) ∨
    (c = ')' ∧ ∃ last, opened = last :: opened') ∨
    (c ≠ '(' ∧ c ≠ ')' ∧ opened' = opened ∧
      (Text.isBarMark c = true ∧ (∃ b ∈ before, Text.isNameChar b = true) ∨
        Text.isBarMark c = false ∧ (Text.isNameChar c = true ∨ ∃ f : Fragment, c ∈ f.signs))) := by
  unfold openAfter at h
  split at h
  · rename_i hc
    split at h
    · cases h
    · cases h
      exact .inl ⟨beq_iff_eq.mp hc, by omega, rfl⟩
  rename_i notOpening
  rw [beq_iff_eq] at notOpening
  split at h
  · rename_i hc
    split at h
    · cases h
    · split at h
      · cases h
      · cases h
        exact .inr (.inl ⟨beq_iff_eq.mp hc, _, rfl⟩)
  rename_i notClosing
  rw [beq_iff_eq] at notClosing
  refine .inr (.inr ⟨notOpening, notClosing, ?_⟩)
  split at h
  · rename_i bar
    split at h
    · rename_i name
      cases h
      rw [Bool.and_eq_true] at name
      refine ⟨rfl, .inl ⟨bar, ?_⟩⟩
      cases before with
      | none => cases name.1
      | some b => exact ⟨b, rfl, name.1⟩
    · cases h
  · rename_i bare
    split at h
    · rename_i known
      cases h
      refine ⟨rfl, .inr ⟨Bool.not_eq_true _ ▸ bare, ?_⟩⟩
      rw [Bool.or_eq_true, Bool.or_eq_true] at known
      rcases known with (known | known) | known
      · exact .inl known
      · exact .inr (mem_signs_of_operatorOf? known)
      · exact .inr ⟨.negation, mem_signs_of_isNegation known⟩
    · cases h

/-- What a character must be for the parentheses to go on. -/
theorem openAfter_eq_ok {before : Option Char} {gap : Bool} {position : Nat} {c : Char}
    {opened opened' : List Nat} (h : openAfter before gap position c opened = .ok opened') :
    opened'.length = openedAfter opened.length c ∧
      (Text.isBarMark c = true → ∃ b ∈ before, Text.isNameChar b = true) ∧
      (Text.isBarMark c = true ∨ Text.isNameChar c = true ∨ ∃ f : Fragment, c ∈ f.signs) ∧
      (c = '(' → opened.length < maxNestingDepth) ∧ (c = ')' → 0 < opened.length) := by
  rcases openAfter_cases h with
    ⟨rfl, room, rfl⟩ | ⟨rfl, last, rfl⟩ | ⟨notOpening, notClosing, rfl, known⟩
  · exact ⟨rfl, fun bar => absurd bar (by decide), .inr (.inr ⟨.opening, by decide⟩),
      fun _ => room, fun hc => absurd hc (by decide)⟩
  · exact ⟨rfl, fun bar => absurd bar (by decide), .inr (.inr ⟨.closing, by decide⟩),
      fun hc => absurd hc (by decide), fun _ => Nat.succ_pos _⟩
  · have same : openedAfter opened'.length c = opened'.length := by
      rw [openedAfter, if_neg notOpening, if_neg notClosing]
    refine ⟨same.symm, ?_, ?_, fun hc => absurd hc notOpening, fun hc => absurd hc notClosing⟩
    · rcases known with ⟨-, behind⟩ | ⟨bare, -⟩
      · exact fun _ => behind
      · exact fun bar => absurd bar (by simp [bare])
    · exact known.imp And.left And.right

/-- Without its blanks, a text that was checked passes character by character. -/
theorem passes_of_check {before : Option Char} {gap : Bool} {position : Nat} {opened : List Nat}
    {cs : List Char} (h : check before gap position opened cs = .ok ()) :
    Passes before opened.length (cs.filter (!Text.isBlank ·)) := by
  induction cs generalizing before gap position opened with
  | nil =>
    cases opened with
    | nil => rfl
    | cons last opened => cases h
  | cons c cs ih =>
    rw [check] at h
    split at h
    · rename_i blank
      rw [List.filter_cons_of_neg (by simp [blank])]
      exact ih h
    · rename_i blank
      split at h
      · cases h
      · rename_i lacks
        split at h
        · cases h
        · rename_i opened' opens
          obtain ⟨count, bar, known, opening, closing⟩ := openAfter_eq_ok opens
          rw [List.filter_cons_of_pos (by simp [blank])]
          refine ⟨⟨?_, bar, known, opening, closing⟩, count ▸ ih h⟩
          intro starts hended
          cases before with
          | none => cases hended
          | some b =>
            have hb : endsOperand b = true := hended
            simp only [Option.map_some, Option.getD_some, lacksOperator, hb, starts,
              Bool.true_and, Bool.not_eq_true, Bool.not_eq_false', Bool.and_eq_true] at lacks
            exact ⟨lacks.1.2, b, rfl, lacks.1.1⟩

theorem passes_of_validate {text : String} (h : validate text = .ok ()) :
    Passes none 0 (text.toList.filter (!Text.isBlank ·)) := by
  unfold validate at h
  split at h
  · cases h
  · exact passes_of_check h

/-! ## The characters that pass -/

theorem isBlank_of_known {c : Char}
    (h : Text.isBarMark c = true ∨ Text.isNameChar c = true ∨ ∃ f : Fragment, c ∈ f.signs) :
    Text.isBlank c = false := by
  rcases h with bar | name | ⟨f, sign⟩
  · exact (isBarMark_apart bar).1
  · cases blank : Text.isBlank c with
    | false => rfl
    | true =>
      rw [(isBlank_apart blank).2] at name
      cases name
  · exact (signOf_of_mem sign).blank

/-- A name character that is a word character. -/
theorem wordLike_of_name {c : Char} (word : Text.isWordChar c = true)
    (name : Text.isNameChar c = true) : WordLike c where
  word := word
  name := name
  blank := isBlank_of_known (.inr (.inl name))
  bar := by
    cases bar : Text.isBarMark c with
    | false => rfl
    | true =>
      rw [(isBarMark_apart bar).2.1] at name
      cases name
  apart := by
    have sign : ∀ {f : Fragment} {d : Char}, d ∈ f.signs → c ≠ d := by
      rintro f d hd rfl
      rw [(signOf_of_mem hd).name] at name
      cases name
    exact ⟨sign (f := .operator .and) (by decide), sign (f := .operator .or) (by decide),
      sign (f := .opening) (by decide), sign (f := .closing) (by decide)⟩

variable {before : Option Char} {opened : Nat} {b c : Char} {cs : List Char}

/-- A bar goes over a name only. -/
theorem Passes.unmarked (h : Passes (some b) opened cs) (hb : Text.isNameChar b = false) :
    Unmarked cs := by
  intro c hc
  obtain ⟨cs, rfl⟩ := List.head?_eq_some_iff.mp hc
  cases bar : Text.isBarMark c with
  | false => rfl
  | true =>
    obtain ⟨d, hd, name⟩ := h.1.bar bar
    cases hd
    rw [hb] at name
    cases name

/-- Behind an operand that is no bare name no word begins. -/
theorem Passes.wordless (h : Passes (some b) opened cs) (hb : Text.isNameChar b = false)
    (hended : endsOperand b = true) : ∀ c ∈ cs.head?, Text.isWordChar c = false := by
  intro c hc
  have bare := h.unmarked hb c hc
  obtain ⟨cs, rfl⟩ := List.head?_eq_some_iff.mp hc
  rcases h.1.known with bar | name | ⟨f, sign⟩
  · rw [bare] at bar
    cases bar
  · obtain ⟨-, d, hd, name'⟩ := h.1.turn (by simp [startsOperand, name]) hended
    cases hd
    rw [hb] at name'
    cases name'
  · exact (signOf_of_mem sign).word

end Validation

open Validation

/-! ## Every fragment is spelled in the text -/

/-- The fragments in some spelling, without blanks. -/
inductive Lexed : List Fragment → List Char → Prop
  | nil : Lexed [] []
  | cons {gs fs : List Fragment} {ds cs : List Char} : Spelling gs ds → Lexed fs cs →
      Lexed (gs ++ fs) (ds ++ cs)

/-- A word character in front begins a name, or goes on with one. -/
theorem Lexed.consWord {c : Char} (hc : WordLike c) {fs : List Fragment} {cs : List Char}
    (h : Lexed fs cs) : Lexed (consWord c fs) (c :: cs) := by
  have alone : ∀ {fs : List Fragment} {cs : List Char}, Lexed fs cs →
      Lexed (.name c.toString :: fs) (c :: cs) := by
    intro fs cs h
    have name : Spelling [.name (String.ofList [c])] [c] := .name (by simp) (by simpa using hc)
    rw [Char.toString, String.singleton_eq_ofList]
    exact .cons name h
  cases h with
  | nil => exact alone .nil
  | @cons gs fs ds cs spelling h =>
    cases spelling with
    | name hne hw =>
      have text : c.toString ++ String.ofList ds = String.ofList (c :: ds) := by
        rw [Char.toString, String.singleton_eq_ofList, ← String.ofList_append]
        rfl
      have name : Spelling [.name (String.ofList (c :: ds))] (c :: ds) :=
        .name (by simp) (List.forall_mem_cons.mpr ⟨hc, hw⟩)
      rw [List.singleton_append, Fragment.consWord, text]
      exact .cons name h
    | @sign f d hd =>
      have other : Fragment.consWord c ([f] ++ fs) = .name c.toString :: ([f] ++ fs) := by
        cases f <;> first | rfl | cases hd
      rw [other]
      exact alone (.cons (.sign hd) h)
    | doubledAnd => exact alone (.cons .doubledAnd h)
    | doubledOr => exact alone (.cons .doubledOr h)
    | barred hd hmark => exact alone (.cons (.barred hd hmark) h)

/-- No character is left over as a fragment of its own. -/
def Fragment.Strayless (fs : List Fragment) : Prop := ∀ c, .stray c ∉ fs

theorem Fragment.Strayless.of_consWord {c : Char} {fs : List Fragment}
    (h : Strayless (Fragment.consWord c fs)) : Strayless fs := by
  intro d hd
  unfold Fragment.consWord at h
  split at h
  · rename_i word rest
    refine h d (List.mem_cons_of_mem _ ?_)
    simpa using hd
  · exact h d (List.mem_cons_of_mem _ hd)

/-- A name character that makes no word is left over. -/
theorem ofChars_stray {c : Char} (word : Text.isWordChar c = false)
    (name : Text.isNameChar c = true) (cs : List Char) :
    ofChars (c :: cs) = .stray c :: ofChars cs := by
  have sign : ∀ {f : Fragment} {d : Char}, d ∈ f.signs → c ≠ d := by
    rintro f d hd rfl
    rw [(signOf_of_mem hd).name] at name
    cases name
  have fragment : ofChar c = .stray c := by
    have op : operatorOf? c = none := by
      cases hop : operatorOf? c with
      | none => rfl
      | some op =>
        obtain ⟨f, hf⟩ := mem_signs_of_operatorOf? (c := c) (by simp [hop])
        exact absurd rfl (sign hf)
    have negation : isNegation c = false := by
      cases hneg : isNegation c with
      | false => rfl
      | true => exact absurd rfl (sign (mem_signs_of_isNegation hneg))
    have opening : c ≠ '(' := sign (f := .opening) (by decide)
    have closing : c ≠ ')' := sign (f := .closing) (by decide)
    simp [ofChar, op, negation, opening, closing]
  rw [ofChars, if_neg (by simp [word]), fragment]
  · rintro rest rfl
    exact absurd rfl (sign (f := .operator .and) (by decide))
  · rintro rest rfl
    exact absurd rfl (sign (f := .operator .or) (by decide))

/-- The sign of a bar is no operator, so that what comes first then came first before. -/
theorem head?_of_unbarFrom {c : Char} (hc : c ≠ '~') {cs : List Char}
    (h : (Text.unbarFrom ['~'] false cs).head? = some c) : cs.head? = some c := by
  rcases cs with _ | ⟨d, _ | ⟨mark, cs⟩⟩
  · cases h
  · exact h
  · rw [Text.unbarFrom] at h
    split at h
    · exact absurd (Option.some.inj h).symm hc
    · split at h
      · exact absurd (Option.some.inj h).symm hc
      · exact h

theorem fragmentsOf_stray {c : Char} (word : Text.isWordChar c = false)
    (name : Text.isNameChar c = true) (cs : List Char) :
    fragmentsOf (c :: cs) = .stray c :: fragmentsOf cs := by
  have bare : fragmentsOf (c :: cs) = ofChars (c :: Text.unbarFrom ['~'] false cs) := by
    cases cs with
    | nil => rfl
    | cons mark cs => simp [fragmentsOf, Text.unbarFrom, word]
  rw [bare, ofChars_stray word name, fragmentsOf]

theorem isWordChar_of_strayless {c : Char} {cs : List Char} (name : Text.isNameChar c = true)
    (strayless : Strayless (fragmentsOf (c :: cs))) : Text.isWordChar c = true := by
  cases word : Text.isWordChar c with
  | true => rfl
  | false =>
    rw [fragmentsOf_stray word name] at strayless
    exact absurd (List.mem_cons_self ..) (strayless c)

theorem fragmentsOf_word {c : Char} (word : Text.isWordChar c = true) {cs : List Char}
    (unmarked : Unmarked cs) : fragmentsOf (c :: cs) = consWord c (fragmentsOf cs) := by
  rw [fragmentsOf, unbarFrom_cons _ _ unmarked, ofChars_word word, fragmentsOf]

/-- A sign is taken by itself, or together with one that doubles it. -/
theorem fragmentsOf_sign_cases {f : Fragment} {c : Char} (hc : c ∈ f.signs) {opened : Nat}
    {cs : List Char} (rest : Passes (some c) opened cs) :
    fragmentsOf (c :: cs) = f :: fragmentsOf cs ∨ ∃ op ds, f = .operator op ∧ cs = c :: ds ∧
      Spelling [f] [c, c] ∧ fragmentsOf (c :: cs) = f :: fragmentsOf ds := by
  have sign := signOf_of_mem hc
  have bare : fragmentsOf (c :: cs) = ofChars (c :: Text.unbarFrom ['~'] false cs) :=
    congrArg ofChars (unbarFrom_cons _ _ (rest.unmarked sign.name))
  have doubled : ∀ {d : Char} {op : Operator}, d ∈ op.signs → Spelling [.operator op] [d, d] →
      (∀ ds, ofChars (d :: d :: ds) = .operator op :: ofChars ds) → c = d →
      (Text.unbarFrom ['~'] false cs).head? = some d → ∃ op ds, f = .operator op ∧ cs = c :: ds ∧
        Spelling [f] [c, c] ∧ fragmentsOf (c :: cs) = f :: fragmentsOf ds := by
    rintro d op hd spelling taken rfl hhead
    have sign' : SignOf (.operator op) c := signOf_of_mem hd
    obtain rfl : f = .operator op := sign.fragment.symm.trans sign'.fragment
    have other : c ≠ '~' := by
      rintro rfl
      cases sign'.fragment
    obtain ⟨ds, rfl⟩ := List.head?_eq_some_iff.mp (head?_of_unbarFrom other hhead)
    refine ⟨op, ds, rfl, rfl, spelling, ?_⟩
    rw [bare, unbarFrom_cons _ _ (rest.2.unmarked sign.name), taken, fragmentsOf]
  by_cases hand : c = '&' ∧ (Text.unbarFrom ['~'] false cs).head? = some '&'
  · exact .inr (@doubled '&' .and (by decide) .doubledAnd (fun ds => by rw [ofChars])
      hand.1 hand.2)
  by_cases hor : c = '|' ∧ (Text.unbarFrom ['~'] false cs).head? = some '|'
  · exact .inr (@doubled '|' .or (by decide) .doubledOr (fun ds => by rw [ofChars]) hor.1 hor.2)
  rw [bare, ofChars_sign sign (fun h h' => hand ⟨h, h'⟩) (fun h h' => hor ⟨h, h'⟩)]
  exact .inl rfl

section

variable {c : Char} {cs : List Char} {opened : Nat} (rest : Passes (some c) opened cs)
  (strayless : Strayless (fragmentsOf (c :: cs)))
  (ih : ∀ {before : Option Char} {opened : Nat} {ds : List Char}, ds.length ≤ cs.length →
    Passes before opened ds → Unmarked ds → Strayless (fragmentsOf ds) → Lexed (fragmentsOf ds) ds)
include rest strayless ih

/-- A name comes first, with a bar over it or without. -/
theorem lexed_name (name : Text.isNameChar c = true) : Lexed (fragmentsOf (c :: cs)) (c :: cs) := by
  have hc := wordLike_of_name (isWordChar_of_strayless name strayless) name
  by_cases hmark : ∃ mark ∈ cs.head?, Text.isBarMark mark = true
  · obtain ⟨mark, hhead, hmark⟩ := hmark
    obtain ⟨cs, rfl⟩ := List.head?_eq_some_iff.mp hhead
    have bare : Text.isNameChar mark = false := (isBarMark_apart hmark).2.1
    have wordless := rest.2.wordless bare (by simp [endsOperand, hmark])
    rw [fragmentsOf_barred hc hmark wordless] at strayless ⊢
    have below := ih (Nat.le_succ _) rest.2 (rest.2.unmarked bare)
      (fun d hd => strayless d (List.mem_cons_of_mem _ (List.mem_cons_of_mem _ hd)))
    exact .cons (.barred hc hmark) below
  · have unmarked : Unmarked cs := by
      intro d hd
      rw [← Bool.not_eq_true]
      exact fun bar => hmark ⟨d, hd, bar⟩
    rw [fragmentsOf_word hc.word unmarked] at strayless ⊢
    exact (ih (Nat.le_refl _) rest unmarked strayless.of_consWord).consWord hc

/-- A sign comes first, by itself or doubled. -/
theorem lexed_sign {f : Fragment} (hc : c ∈ f.signs) : Lexed (fragmentsOf (c :: cs)) (c :: cs) := by
  have bare := (signOf_of_mem hc).name
  rcases fragmentsOf_sign_cases hc rest with single | ⟨op, ds, rfl, rfl, spelling, doubled⟩
  · rw [single] at strayless ⊢
    have below := ih (Nat.le_refl _) rest (rest.unmarked bare)
      (fun d hd => strayless d (List.mem_cons_of_mem _ hd))
    exact .cons (.sign hc) below
  · rw [doubled] at strayless ⊢
    have below := ih (Nat.le_succ _) rest.2 (rest.2.unmarked bare)
      (fun d hd => strayless d (List.mem_cons_of_mem _ hd))
    exact .cons spelling below

end

/-- What passes and leaves nothing over is lexed. -/
theorem Validation.Passes.lexed {before : Option Char} {opened : Nat} {cs : List Char}
    (h : Passes before opened cs) (unmarked : Unmarked cs)
    (strayless : Strayless (fragmentsOf cs)) : Lexed (fragmentsOf cs) cs := by
  induction hn : cs.length using Nat.strongRecOn generalizing before opened cs with
  | ind n ih =>
    cases cs with
    | nil => exact .nil
    | cons c cs =>
      have below : ∀ {before : Option Char} {opened : Nat} {ds : List Char},
          ds.length ≤ cs.length → Passes before opened ds → Unmarked ds →
          Strayless (fragmentsOf ds) → Lexed (fragmentsOf ds) ds :=
        fun short h unmarked strayless =>
          ih _ (hn ▸ Nat.lt_succ_of_le short) h unmarked strayless rfl
      obtain ⟨follows, rest⟩ := h
      rcases follows.known with bar | name | ⟨f, hc⟩
      · rw [unmarked c rfl] at bar
        cases bar
      · exact lexed_name rest strayless below name
      · exact lexed_sign rest strayless below hc

/-! ## Operands and operators take turns -/

theorem Turn.strayless {t t' : Turn} {fs : List Fragment} (h : t.run? fs = some t') :
    Strayless fs := by
  induction fs generalizing t with
  | nil => exact fun _ => List.not_mem_nil
  | cons f fs ih =>
    rw [Turn.run?_cons, Option.bind_eq_some_iff] at h
    obtain ⟨t'', hnext, hrun⟩ := h
    intro c hc
    rcases List.mem_cons.mp hc with rfl | hc
    · cases hnext
    · exact ih hrun c hc

namespace Validation

theorem openedAfter_eq {c : Char} (h : c ≠ '(') (h' : c ≠ ')') (opened : Nat) :
    openedAfter opened c = opened := by
  rw [openedAfter, if_neg h, if_neg h']

theorem Passes.of_name {w : List Char} (hw : ∀ c ∈ w, WordLike c) {c : Char} (hc : WordLike c)
    {opened : Nat} {cs : List Char} (h : Passes (some c) opened (w ++ cs)) :
    ∃ last, Text.isNameChar last = true ∧ Passes (some last) opened cs := by
  induction w generalizing c with
  | nil => exact ⟨c, hc.name, h⟩
  | cons d w ih =>
    rw [List.forall_mem_cons] at hw
    have next := h.2
    rw [openedAfter_eq hw.1.apart.2.2.1 hw.1.apart.2.2.2] at next
    exact ih hw.2 hw.1 next

/-- A sign that comes in turn leaves the turn that its fragment does. -/
theorem Passes.of_sign {f : Fragment} {c : Char} (hc : c ∈ f.signs) {before : Option Char}
    {opened : Nat} {cs : List Char} (h : Passes before opened (c :: cs)) {t : Turn}
    (hnext : Turn.next? ⟨ended before, opened⟩ f = some t) :
    f.starts = !ended before ∧ t = ⟨f.ends, openedAfter opened c⟩ ∧
      (∀ fs, Balanced (openedAfter opened c) fs → Balanced opened (f :: fs)) := by
  have sign := signOf_of_mem hc
  obtain ⟨follows, -⟩ := h
  cases f with
  | name w => cases hc
  | place k => cases hc
  | stray d => cases hc
  | operator op =>
    obtain ⟨opening, closing⟩ := sign.apart (by simp) rfl
    rw [openedAfter_eq opening closing]
    rw [Turn.next?] at hnext
    split at hnext
    · rename_i hended
      cases hnext
      have hended : ended before = true := hended
      exact ⟨by rw [hended]; rfl, rfl, fun _ balanced => balanced⟩
    · cases hnext
  | negation =>
    obtain ⟨opening, closing⟩ := sign.apart (by simp) rfl
    rw [openedAfter_eq opening closing]
    have hended : ended before = false := by
      cases hended : ended before with
      | false => rfl
      | true =>
        have name := (follows.turn (startsOperand_sign sign) hended).1
        rw [sign.name] at name
        cases name
    rw [hended] at hnext ⊢
    cases hnext
    exact ⟨rfl, rfl, fun _ balanced => balanced⟩
  | opening =>
    obtain rfl := List.mem_singleton.mp hc
    rw [Turn.next?] at hnext
    split at hnext
    · cases hnext
    · rename_i hended
      cases hnext
      have hended : ended before = false := Bool.not_eq_true _ ▸ hended
      exact ⟨by rw [hended]; rfl, rfl, fun _ balanced => ⟨follows.opening rfl, balanced⟩⟩
  | closing =>
    obtain rfl := List.mem_singleton.mp hc
    rw [Turn.next?] at hnext
    split at hnext
    · rename_i hended
      cases hnext
      have hended : ended before = true := (Bool.and_eq_true_iff.mp hended).1
      exact ⟨by rw [hended]; rfl, rfl, fun _ balanced => ⟨follows.closing rfl, balanced⟩⟩
    · cases hnext

end Validation

theorem Turn.run?_name {after : Bool} {opened : Nat} {w : String} {fs : List Fragment} {t : Turn}
    (h : Turn.run? ⟨after, opened⟩ (.name w :: fs) = some t) :
    after = false ∧ Turn.run? ⟨true, opened⟩ fs = some t := by
  rw [Turn.run?_cons, Turn.next?] at h
  split at h
  · cases h
  · rename_i hafter
    exact ⟨Bool.not_eq_true _ ▸ hafter, h⟩

/-- A sign that comes in turn and in balance comes before fragments that do. -/
theorem alternates_sign {f : Fragment} {c : Char} (hc : c ∈ f.signs) {before : Option Char}
    {opened : Nat} {fs : List Fragment} {cs : List Char} (passes : Passes before opened (c :: cs))
    (turns : Turn.run? ⟨ended before, opened⟩ (f :: fs) = some ⟨true, 0⟩)
    (rest : Turn.run? ⟨f.ends, openedAfter opened c⟩ fs = some ⟨true, 0⟩ →
      Alternates f.ends fs ∧ Balanced (openedAfter opened c) fs) :
    Alternates (ended before) (f :: fs) ∧ Balanced opened (f :: fs) := by
  rw [Turn.run?_cons, Option.bind_eq_some_iff] at turns
  obtain ⟨t, hnext, hrun⟩ := turns
  obtain ⟨starts, rfl, balanced⟩ := Passes.of_sign hc passes hnext
  obtain ⟨turns, balanced'⟩ := rest hrun
  exact ⟨⟨starts, turns⟩, balanced fs balanced'⟩

/-- What passes and takes turns is a formula in turn and in balance. -/
theorem Lexed.alternates {fs : List Fragment} {cs : List Char} (h : Lexed fs cs)
    {before : Option Char} {opened : Nat} (passes : Passes before opened cs)
    (turns : Turn.run? ⟨ended before, opened⟩ fs = some ⟨true, 0⟩) :
    Alternates (ended before) fs ∧ Balanced opened fs := by
  induction h generalizing before opened with
  | nil =>
    obtain ⟨hended, hopened⟩ := Turn.mk.inj (Option.some.inj turns)
    exact ⟨hended, hopened⟩
  | @cons gs fs ds cs spelling _ ih =>
    -- the two characters of a doubled sign leave the turn that one of them does
    have doubled : ∀ {op : Operator} {c : Char}, c ∈ op.signs →
        Passes before opened (c :: c :: cs) →
        Turn.run? ⟨ended before, opened⟩ (.operator op :: fs) = some ⟨true, 0⟩ →
        Alternates (ended before) (.operator op :: fs) ∧ Balanced opened (.operator op :: fs) := by
      intro op c hc passes turns
      have sign : SignOf (.operator op) c := signOf_of_mem hc
      obtain ⟨opening, closing⟩ := sign.apart (by simp) rfl
      have hended : ended (some c) = false := endsOperand_sign sign
      refine alternates_sign (f := .operator op) hc passes turns (fun turns => ?_)
      have passed := passes.2.2
      rw [openedAfter_eq opening closing] at passed
      have alternates := ih passed (by rw [hended]; exact turns)
      rwa [hended] at alternates
    cases spelling with
    | name hne hw =>
      cases ds with
      | nil => exact absurd rfl hne
      | cons c w =>
        rw [List.forall_mem_cons] at hw
        have passed := passes.2
        rw [openedAfter_eq hw.1.apart.2.2.1 hw.1.apart.2.2.2] at passed
        obtain ⟨last, hlast, passed⟩ := Passes.of_name hw.2 hw.1 passed
        have hended' : ended (some last) = true := by
          simp [ended, endsOperand, hlast]
        obtain ⟨hended, turns⟩ := Turn.run?_name turns
        obtain ⟨alternates, balanced⟩ := ih passed (by rw [hended']; exact turns)
        rw [hended'] at alternates
        exact ⟨⟨by rw [hended]; rfl, alternates⟩, balanced⟩
    | @sign f c hc =>
      have hended : ended (some c) = f.ends := endsOperand_sign (signOf_of_mem hc)
      refine alternates_sign hc passes turns (fun turns => ?_)
      have alternates := ih passes.2 (by rw [hended]; exact turns)
      rwa [hended] at alternates
    | doubledAnd => exact doubled (by decide) passes turns
    | doubledOr => exact doubled (by decide) passes turns
    | @barred c mark hc hmark =>
      have passed := passes.2.2
      obtain ⟨-, -, opening, closing⟩ := isBarMark_apart hmark
      rw [openedAfter_eq hc.apart.2.2.1 hc.apart.2.2.2, openedAfter_eq opening closing] at passed
      have hended' : ended (some mark) = true := by
        simp [ended, endsOperand, hmark]
      obtain ⟨hended, turns⟩ := Turn.run?_name turns
      obtain ⟨alternates, balanced⟩ := ih passed (by rw [hended']; exact turns)
      rw [hended'] at alternates
      exact ⟨⟨by rw [hended]; rfl, rfl, alternates⟩, balanced⟩

end SwitchingAlgebra
