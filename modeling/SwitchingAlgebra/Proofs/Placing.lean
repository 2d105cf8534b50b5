-- How the fragments of a reduction are written. The placeholders are read back from the text, each
-- by its digits, as long as words and characters that are left over stand where a text has them.
import SwitchingAlgebra.Proofs.Neighbours

namespace SwitchingAlgebra

open Fragment

/-! ## The text of fragments -/

namespace Fragment

/-- A decimal digit of any script. -/
def isDigit (c : Char) : Bool := Text.inRanges c.toNat Text.decimalRanges && !Text.isNewest c

/-- The placeholders in a text, without their `@`: the digits behind each, where there are some. -/
def placeholders : List Char → List String
  | [] => []
  | c :: cs =>
    let digits := cs.takeWhile isDigit
    if c = '@' ∧ digits ≠ [] then String.ofList digits :: placeholders cs else placeholders cs

/-- What a fragment holds fits its kind: words are of word characters, and what is left over is
none. -/
def Proper : Fragment → Prop
  | .name w => w.toList ≠ [] ∧ ∀ c ∈ w.toList, Text.isWordChar c = true
  | .stray c => Text.isWordChar c = false ∧ c ≠ '@'
  | .operator op => op ≠ .not
  | _ => True

theorem toList_textAll_cons (f : Fragment) (fs : List Fragment) :
    (textAll (f :: fs)).toList = f.text.toList ++ (textAll fs).toList := by
  simp [textAll]

theorem toList_text_place (k : Nat) :
    (Fragment.place k).text.toList = '@' :: (toString k).toList := by
  simp [text, toString]

theorem isWordChar_of_isDigit {c : Char} (h : isDigit c = true) : Text.isWordChar c = true := by
  simp only [isDigit, Bool.and_eq_true] at h
  simp [Text.isWordChar, h.1, h.2]

/-- The character in front of a place belongs to no word and to no name. -/
theorem at_apart : Text.isWordChar '@' = false ∧ Text.isNameChar '@' = false := by
  decide

theorem not_isDigit_at : isDigit '@' = false := by
  rw [← Bool.not_eq_true]
  intro digit
  have word := isWordChar_of_isDigit digit
  rw [at_apart.1] at word
  cases word

theorem isDigit_of_mem_toString {k : Nat} {c : Char} (h : c ∈ (toString k).toList) :
    isDigit c = true := by
  have table : ∀ n < 128, (Char.ofNat n).isDigit → isDigit (Char.ofNat n) = true := by
    decide
  have digit : c.isDigit :=
    Nat.isDigit_of_mem_toDigits (b := 10) (by decide) (by decide) (by simpa using h)
  have small : c.toNat < 128 := by
    simp only [Char.isDigit, Bool.and_eq_true, decide_eq_true_eq, UInt32.le_iff_toNat_le] at digit
    exact Nat.lt_of_le_of_lt digit.2 (by decide)
  have entry := table c.toNat small
  rw [Char.ofNat_toNat] at entry
  exact entry digit

theorem operatorText_of_ne_not {op : Operator} (h : op ≠ .not) :
    ∃ sign ∈ op.signs, operatorText op = String.singleton sign ∧ operatorOf? sign = some op := by
  cases op
  case and => exact ⟨'*', by decide, rfl, rfl⟩
  case or => exact ⟨'+', by decide, rfl, rfl⟩
  case xor => exact ⟨'^', by decide, rfl, rfl⟩
  case nand => exact ⟨'⊼', by decide, by decide, rfl⟩
  case nor => exact ⟨'⊽', by decide, by decide, rfl⟩
  case xnor => exact ⟨'⊻', by decide, by decide, rfl⟩
  case not => exact absurd rfl h

theorem at_notMem_signs (f : Fragment) : '@' ∉ f.signs := by
  intro mem
  have fragment : .stray '@' = f := (signOf_of_mem mem).fragment
  subst fragment
  cases mem

/-- All but names and placeholders are written as one character that belongs to neither. -/
theorem Proper.text_cases {f : Fragment} (h : f.Proper) :
    (∃ w, f = .name w) ∨ (∃ k, f = .place k) ∨
      f.place? = none ∧ ∃ c, f.text.toList = [c] ∧ Text.isWordChar c = false ∧ c ≠ '@' := by
  have sign : ∀ {g : Fragment} {c : Char}, c ∈ g.signs →
      Text.isWordChar c = false ∧ c ≠ '@' :=
    fun {g c} hc => ⟨(signOf_of_mem hc).word, fun same => g.at_notMem_signs (same ▸ hc)⟩
  cases f with
  | name w => exact .inl ⟨w, rfl⟩
  | place k => exact .inr (.inl ⟨k, rfl⟩)
  | negation => exact .inr (.inr ⟨rfl, '~', rfl, sign (g := .negation) (by decide)⟩)
  | opening => exact .inr (.inr ⟨rfl, '(', rfl, sign (g := .opening) (by decide)⟩)
  | closing => exact .inr (.inr ⟨rfl, ')', rfl, sign (g := .closing) (by decide)⟩)
  | stray c => exact .inr (.inr ⟨rfl, c, by simp [text], h⟩)
  | operator op =>
    obtain ⟨c, hc, written, -⟩ := operatorText_of_ne_not h
    exact .inr (.inr ⟨rfl, c, by simp [text, written], sign (g := .operator op) hc⟩)

/-! ## Placeholders in a text -/

theorem placeholders_append {cs : List Char} (h : '@' ∉ cs) (rest : List Char) :
    placeholders (cs ++ rest) = placeholders rest := by
  induction cs with
  | nil => rfl
  | cons c cs ih =>
    rw [List.mem_cons, not_or] at h
    rw [List.cons_append, placeholders, if_neg (fun at_sign => h.1 at_sign.1.symm), ih h.2]

/-- The number of a place is read back where no digit follows it. -/
theorem placeholders_place (k : Nat) {rest : List Char}
    (h : ∀ c ∈ rest.head?, isDigit c = false) :
    placeholders ('@' :: ((toString k).toList ++ rest)) = toString k :: placeholders rest := by
  have digits : ((toString k).toList ++ rest).takeWhile isDigit = (toString k).toList := by
    rw [List.takeWhile_append_of_pos (fun c hc => isDigit_of_mem_toString hc)]
    cases rest with
    | nil => simp
    | cons c rest => simp [h c rfl]
  have filled : (toString k).toList ≠ [] := by
    simp [Nat.toDigits_ne_nil]
  have no_sign : '@' ∉ (toString k).toList := by
    intro mem
    have digit := isDigit_of_mem_toString mem
    rw [not_isDigit_at] at digit
    cases digit
  rw [placeholders, digits, if_pos ⟨rfl, filled⟩, String.ofList_toList, placeholders_append no_sign]

theorem placeholders_word {w : List Char} (h : ∀ c ∈ w, Text.isWordChar c = true)
    (rest : List Char) : placeholders (w ++ rest) = placeholders rest := by
  refine placeholders_append (fun at_sign => ?_) rest
  have word := h '@' at_sign
  rw [at_apart.1] at word
  cases word

/-- What stands behind a placeholder does not begin with a digit. -/
theorem head?_textAll_of_ended {fs : List Fragment} (h : Stands .ended fs)
    (proper : ∀ f ∈ fs, f.Proper) : ∀ c ∈ (textAll fs).toList.head?, isDigit c = false := by
  intro c hc
  cases fs with
  | nil => cases hc
  | cons f fs =>
    rw [toList_textAll_cons] at hc
    rw [List.forall_mem_cons] at proper
    rcases proper.1.text_cases with ⟨w, rfl⟩ | ⟨k, rfl⟩ | ⟨-, d, written, bare, -⟩
    · exact absurd rfl h.1.1
    · rw [toList_text_place] at hc
      cases hc
      exact not_isDigit_at
    · rw [written] at hc
      cases hc
      rw [← Bool.not_eq_true]
      exact fun digit => by simp [isWordChar_of_isDigit digit] at bare

/-- The placeholders in the text are the placeholders among the fragments. -/
theorem placeholders_textAll {s : Spot} {fs : List Fragment} (h : Stands s fs)
    (proper : ∀ f ∈ fs, f.Proper) :
    placeholders (textAll fs).toList = (places fs).map toString := by
  induction fs generalizing s with
  | nil => rfl
  | cons f fs ih =>
    rw [List.forall_mem_cons] at proper
    obtain ⟨s', behind⟩ := h.tail
    rw [toList_textAll_cons]
    rcases proper.1.text_cases with ⟨w, rfl⟩ | ⟨k, rfl⟩ | ⟨no_place, c, written, -, apart⟩
    · rw [text, placeholders_word proper.1.2, ih behind proper.2, places_name]
    · rw [toList_text_place, List.cons_append,
        placeholders_place k (head?_textAll_of_ended h.2 proper.2), ih behind proper.2,
        places_place, List.map_cons]
    · rw [written, placeholders_append (by simpa using apart.symm), ih behind proper.2]
      exact congrArg (List.map toString) (List.filterMap_cons_none no_place).symm

theorem toString_injective {j k : Nat} (h : toString j = toString k) : j = k := by
  have digits : Nat.toDigits 10 j = Nat.toDigits 10 k := by
    simpa using congrArg String.toList h
  rw [← Nat.ofDigitChars_ten_toDigits (n := j), digits, Nat.ofDigitChars_ten_toDigits]

theorem Proper.text_ne_nil {f : Fragment} (h : f.Proper) : f.text.toList ≠ [] := by
  rcases h.text_cases with ⟨w, rfl⟩ | ⟨k, rfl⟩ | ⟨-, c, written, -⟩
  · exact h.1
  · simp [toList_text_place]
  · simp [written]

/-- Where one placeholder is written and nothing else, there is nothing else. -/
theorem eq_place_of_textAll {s : Spot} {fs : List Fragment} (h : Stands s fs)
    (proper : ∀ f ∈ fs, f.Proper) {k : Nat}
    (written : (textAll fs).toList = '@' :: (toString k).toList) : fs = [.place k] := by
  cases fs with
  | nil => cases written
  | cons f rest =>
    rw [toList_textAll_cons] at written
    rw [List.forall_mem_cons] at proper
    rcases proper.1.text_cases with ⟨w, rfl⟩ | ⟨j, rfl⟩ | ⟨-, c, single, -, apart⟩
    · -- a word begins with another character
      have word : Text.isWordChar '@' = true := by
        apply proper.1.2
        obtain ⟨c, cs, hw⟩ := List.exists_cons_of_ne_nil proper.1.1
        rw [text, hw, List.cons_append] at written
        rw [hw, (List.cons.inj written).1]
        exact List.mem_cons_self
      rw [at_apart.1] at word
      cases word
    · rw [toList_text_place, List.cons_append, List.cons.injEq, eq_self, true_and] at written
      -- what follows the digits would be a digit
      have ends : (textAll rest).toList = [] := by
        cases behind : (textAll rest).toList with
        | nil => rfl
        | cons c cs =>
          have bare := head?_textAll_of_ended h.2 proper.2 c (by rw [behind]; rfl)
          rw [behind] at written
          have digit : isDigit c = true := by
            apply isDigit_of_mem_toString (k := k)
            rw [← written]
            simp
          rw [digit] at bare
          cases bare
      rw [ends, List.append_nil] at written
      rw [toString_injective (String.toList_inj.mp written)]
      cases rest with
      | nil => rfl
      | cons g rest =>
        rw [toList_textAll_cons, List.append_eq_nil_iff] at ends
        rw [List.forall_mem_cons] at proper
        exact absurd ends.1 proper.2.1.text_ne_nil
    · rw [single] at written
      exact absurd (List.cons.inj written).1 apart

/-! ## What a text is taken apart into is proper -/

theorem proper_consWord {c : Char} (hc : Text.isWordChar c = true) {fs : List Fragment}
    (h : ∀ f ∈ fs, f.Proper) : ∀ f ∈ consWord c fs, f.Proper := by
  unfold consWord
  split
  · rename_i w rest
    rw [List.forall_mem_cons] at h ⊢
    refine ⟨⟨by simp, ?_⟩, h.2⟩
    simpa using ⟨hc, h.1.2⟩
  · rw [List.forall_mem_cons]
    exact ⟨⟨by simp, by simpa using hc⟩, h⟩

theorem proper_ofChar {c : Char} (word : Text.isWordChar c = false) (apart : c ≠ '@') :
    (ofChar c).Proper := by
  unfold ofChar
  split
  · rename_i op hop
    rintro rfl
    unfold operatorOf? at hop
    split at hop <;> cases hop
  · split
    · trivial
    · split
      · trivial
      · split
        · trivial
        · exact ⟨word, apart⟩

theorem proper_ofChars {cs : List Char} (h : '@' ∉ cs) : ∀ f ∈ ofChars cs, f.Proper := by
  induction cs using ofChars.induct with
  | case1 => simp [ofChars]
  | case2 rest ih =>
    rw [ofChars, List.forall_mem_cons]
    exact ⟨(by decide : Operator.and ≠ .not), ih (by simpa using h)⟩
  | case3 rest ih =>
    rw [ofChars, List.forall_mem_cons]
    exact ⟨(by decide : Operator.or ≠ .not), ih (by simpa using h)⟩
  | case4 c rest hand hor word ih =>
    rw [ofChars, if_pos word]
    · exact proper_consWord word (ih (fun mem => h (List.mem_cons_of_mem _ mem)))
    all_goals assumption
  | case5 c rest hand hor word ih =>
    rw [ofChars, if_neg word, List.forall_mem_cons]
    · refine ⟨proper_ofChar (Bool.not_eq_true _ ▸ word) ?_,
        ih (fun mem => h (List.mem_cons_of_mem _ mem))⟩
      rintro rfl
      exact h List.mem_cons_self
    all_goals assumption

/-- A bar becomes one of the characters of its sign, and all others stay or go. -/
theorem mem_unbarFrom {sign cs : List Char} {inRun : Bool} {c : Char}
    (h : c ∈ Text.unbarFrom sign inRun cs) : c ∈ sign ∨ c ∈ cs := by
  have bare : ∀ {d : Char}, c ∈ Text.stripBars [d] → c = d :=
    fun mem => List.mem_singleton.mp (List.mem_filter.mp mem).1
  induction inRun, cs using Text.unbarFrom.induct with
  | case1 => cases h
  | case2 => exact .inr h
  | case3 inRun d mark rest overline ih =>
    rw [Text.unbarFrom, if_pos overline, List.mem_append, List.mem_append] at h
    rcases h with (h | h) | h
    · split at h
      · cases h
      · exact .inl h
    · exact .inr (by simp [bare h])
    · exact (ih h).imp_right (fun mem => by simp [mem])
  | case4 inRun d mark rest overline single ih =>
    rw [Text.unbarFrom, if_neg overline, if_pos single, List.mem_append, List.mem_append] at h
    rcases h with (h | h) | h
    · exact .inl h
    · exact .inr (by simp [bare h])
    · exact (ih h).imp_right (fun mem => by simp [mem])
  | case5 inRun d mark rest overline single ih =>
    rw [Text.unbarFrom, if_neg overline, if_neg single, List.mem_cons] at h
    rcases h with rfl | h
    · exact .inr List.mem_cons_self
    · exact (ih h).imp_right (List.mem_cons_of_mem _)

theorem proper_ofText {text : String} (h : Validation.validate text = .ok ()) :
    ∀ f ∈ ofText text, f.Proper := by
  refine proper_ofChars (fun at_sign => ?_)
  rcases mem_unbarFrom at_sign with at_sign | at_sign
  · exact absurd at_sign (by decide)
  · rcases (Validation.passes_of_validate h).known_of_mem '@' at_sign with bar | name | ⟨f, sign⟩
    · exact absurd bar (by decide)
    · rw [at_apart.2] at name
      cases name
    · exact f.at_notMem_signs sign

/-- What is rewritten stays proper. -/
theorem Shrinks.proper {fs gs : List Fragment} (h : Shrinks fs gs) (proper : ∀ f ∈ fs, f.Proper) :
    ∀ f ∈ gs, f.Proper := by
  induction h with
  | nil => exact proper
  | cons f _ ih =>
    rw [List.forall_mem_cons] at proper ⊢
    exact ⟨proper.1, ih proper.2⟩
  | group side _ ih =>
    simp only [List.forall_mem_cons, List.forall_mem_append] at proper ⊢
    exact ⟨proper.2.1, ih proper.2.2.2⟩
  | cancel _ ih =>
    simp only [List.forall_mem_cons] at proper
    exact ih proper.2.2
  | negated k k' _ ih =>
    simp only [List.forall_mem_cons] at proper ⊢
    exact ⟨trivial, ih proper.2.2⟩
  | triple left op right k _ ih =>
    simp only [List.forall_mem_cons, List.forall_mem_append] at proper ⊢
    exact ⟨trivial, ih proper.2.2.2⟩
  | grouped left op right k _ ih =>
    simp only [List.forall_mem_cons, List.forall_mem_append] at proper ⊢
    exact ⟨trivial, ih proper.2.2.2.2.2⟩

/-! ## The normalised text -/

/-- The one spelling of a sign that may be spelled in several ways. -/
def oneSpelling : Char → Char
  | '&' | '∧' => '*'
  | '|' | '∨' => '+'
  | '⊕' => '^'
  | '!' | '¬' => '~'
  | c => c

/-- The text without blanks and bars and with one spelling for each sign. -/
def normalised (text : String) : List Char :=
  (Text.replaceFrom ['|', '|'] ['+'] 0 (Text.replaceFrom ['&', '&'] ['*'] 0
    (Text.unbar ['~'] (text.toList.filter (!Text.isBlank ·))))).map oneSpelling

theorem toList_textAll_consWord (c : Char) (fs : List Fragment) :
    (textAll (consWord c fs)).toList = c :: (textAll fs).toList := by
  unfold consWord
  split
  · simp [toList_textAll_cons, text]
  · simp [toList_textAll_cons, text]

theorem toList_text_ofChar (c : Char) : (ofChar c).text.toList = [oneSpelling c] := by
  unfold ofChar
  split
  · rename_i op hop
    unfold operatorOf? at hop
    split at hop <;> cases hop <;> decide
  · rename_i no_operator
    split
    · rename_i negation
      simp only [isNegation, Bool.or_eq_true, beq_iff_eq] at negation
      rcases negation with (rfl | rfl) | rfl <;> decide
    · rename_i no_negation
      split
      · rename_i opening
        rw [beq_iff_eq.mp opening]
        decide
      · split
        · rename_i closing
          rw [beq_iff_eq.mp closing]
          decide
        · have same : oneSpelling c = c := by
            unfold oneSpelling
            split <;> first | rfl | exact absurd rfl no_negation | cases no_operator
          simp [text, same]

theorem oneSpelling_of_word {c : Char} (word : Text.isWordChar c = true) : oneSpelling c = c := by
  have unsigned : ∀ f : Fragment, c ∉ f.signs := by
    intro f sign
    rw [(signOf_of_mem sign).word] at word
    cases word
  unfold oneSpelling
  split
  · exact absurd (by decide) (unsigned (.operator .and))
  · exact absurd (by decide) (unsigned (.operator .and))
  · exact absurd (by decide) (unsigned (.operator .or))
  · exact absurd (by decide) (unsigned (.operator .or))
  · exact absurd (by decide) (unsigned (.operator .xor))
  · exact absurd (by decide) (unsigned .negation)
  · exact absurd (by decide) (unsigned .negation)
  · rfl

/-- A character that does not double the next one stays. -/
theorem replaceFrom_doubled {d : Char} (new : List Char) {c : Char} {rest : List Char}
    (h : c = d → rest.head? ≠ some d) :
    Text.replaceFrom [d, d] new 0 (c :: rest) = c :: Text.replaceFrom [d, d] new 0 rest := by
  have no_prefix : [d, d].isPrefixOf (c :: rest) = false := by
    rw [← Bool.not_eq_true, List.isPrefixOf_iff_prefix]
    rintro ⟨behind, same⟩
    cases same
    exact h rfl rfl
  simp only [Text.replaceFrom, no_prefix]
  rfl

/-- What is written for the fragments of characters: one character for each doubled sign, and
each sign in its one spelling. -/
theorem toList_textAll_ofChars (cs : List Char) : (textAll (ofChars cs)).toList =
    (Text.replaceFrom ['|', '|'] ['+'] 0
      (Text.replaceFrom ['&', '&'] ['*'] 0 cs)).map oneSpelling := by
  have single : ∀ {c : Char} {rest : List Char},
      (∀ behind, c = '&' → rest = '&' :: behind → False) →
      (∀ behind, c = '|' → rest = '|' :: behind → False) →
      Text.replaceFrom ['|', '|'] ['+'] 0 (Text.replaceFrom ['&', '&'] ['*'] 0 (c :: rest)) =
        c :: Text.replaceFrom ['|', '|'] ['+'] 0 (Text.replaceFrom ['&', '&'] ['*'] 0 rest) := by
    intro c rest hand hor
    rw [replaceFrom_doubled, replaceFrom_doubled]
    · rintro rfl hhead
      -- a sign that was not doubled comes first in the rest too
      cases rest with
      | nil => cases hhead
      | cons d rest =>
        rw [Text.replaceFrom] at hhead
        split at hhead
        · cases hhead
        · cases hhead
          exact hor rest rfl rfl
    · rintro rfl hhead
      obtain ⟨behind, rfl⟩ := List.head?_eq_some_iff.mp hhead
      exact hand behind rfl rfl
  induction cs using ofChars.induct with
  | case1 => rfl
  | case2 rest ih =>
    rw [ofChars, toList_textAll_cons, ih]
    rfl
  | case3 rest ih =>
    rw [ofChars, toList_textAll_cons, ih]
    rfl
  | case4 c rest hand hor word ih =>
    rw [single hand hor, ofChars, if_pos word, toList_textAll_consWord, ih, List.map_cons,
      oneSpelling_of_word word]
    all_goals assumption
  | case5 c rest hand hor word ih =>
    rw [single hand hor, ofChars, if_neg word, toList_textAll_cons, toList_text_ofChar, ih]
    · rfl
    all_goals assumption

theorem toList_textAll_ofText (text : String) : (textAll (ofText text)).toList = normalised text :=
  toList_textAll_ofChars _

end Fragment

end SwitchingAlgebra
