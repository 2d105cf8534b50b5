-- How fragments are spelled: each in one of its spellings, with blanks in between. Whatever
-- spelling is chosen, taking the text apart gives the fragments again.
import SwitchingAlgebra.Proofs.Grammar

namespace SwitchingAlgebra

/-! ## Spellings -/

/-- An ASCII letter, a digit or an underscore. -/
def isAsciiWordChar (c : Char) : Bool := c.isAlphanum || c == '_'

/-- A name of ASCII letters, digits and underscores. -/
def isAsciiName (w : String) : Bool := !w.toList.isEmpty && w.toList.all isAsciiWordChar

/-- The signs of an operator that are one character long. -/
def Operator.signs : Operator → List Char
  | .and => ['*', '&', '∧']
  | .or => ['+', '|', '∨']
  | .xor => ['^', '⊕']
  | .nand => ['⊼']
  | .nor => ['⊽']
  | .xnor => ['⊻']
  | .not => []

/-- The signs of a fragment that are one character long. -/
def Fragment.signs : Fragment → List Char
  | .operator op => op.signs
  | .negation => ['~', '!', '¬']
  | .opening => ['(']
  | .closing => [')']
  | _ => []

/-- What is written without a blank inside, and the fragments that it is. A name of one
character may be negated by a bar. -/
inductive Lexeme : List Fragment → List Char → Prop
  | name {w : String} : isAsciiName w → Lexeme [.name w] w.toList
  | sign {f : Fragment} {c : Char} : c ∈ f.signs → Lexeme [f] [c]
  | doubledAnd : Lexeme [.operator .and] ['&', '&']
  | doubledOr : Lexeme [.operator .or] ['|', '|']
  | barred {c : Char} : isAsciiWordChar c →
      Lexeme [.negation, .name (String.singleton c)] [c, Text.macron]

/-- The fragments in some spelling, with any blanks before, between and behind them. -/
inductive Written : List Fragment → List Char → Prop
  | done {blanks : List Char} : blanks.all Text.isBlank → Written [] blanks
  | next {blanks cs rest : List Char} {gs fs : List Fragment} : blanks.all Text.isBlank →
      Lexeme gs cs → Written fs rest → Written (gs ++ fs) (blanks ++ cs ++ rest)

/-! ## Classes of characters -/

/-- What is used of a word character. -/
structure WordLike (c : Char) : Prop where
  word : Text.isWordChar c = true
  name : Text.isNameChar c = true
  blank : Text.isBlank c = false
  bar : Text.isBarMark c = false
  apart : c ≠ '&' ∧ c ≠ '|' ∧ c ≠ '(' ∧ c ≠ ')'

theorem toNat_lt_of_isAsciiWordChar {c : Char} (h : isAsciiWordChar c) : c.toNat < 128 := by
  have ranges : (decide ('A'.val ≤ c.val ∧ c.val ≤ 'Z'.val) ||
      decide ('a'.val ≤ c.val) && decide (c.val ≤ 'z'.val) ||
      decide ('0'.val ≤ c.val) && decide (c.val ≤ '9'.val) || c == '_') = true := h
  simp only [Bool.or_eq_true, Bool.and_eq_true, decide_eq_true_eq, beq_iff_eq,
    UInt32.le_iff_toNat_le] at ranges
  unfold Char.toNat
  rcases ranges with ((⟨_, h⟩ | ⟨_, h⟩) | ⟨_, h⟩) | rfl
  · exact Nat.lt_of_le_of_lt h (by decide)
  · exact Nat.lt_of_le_of_lt h (by decide)
  · exact Nat.lt_of_le_of_lt h (by decide)
  · decide

/-- ASCII word characters are word characters, and no other sign. -/
theorem wordLike_of_ascii {c : Char} (h : isAsciiWordChar c) : WordLike c := by
  have table : ∀ n < 128, isAsciiWordChar (Char.ofNat n) →
      Text.isWordChar (Char.ofNat n) = true ∧ Text.isNameChar (Char.ofNat n) = true ∧
        Text.isBlank (Char.ofNat n) = false ∧ Text.isBarMark (Char.ofNat n) = false ∧
        Char.ofNat n ≠ '&' ∧ Char.ofNat n ≠ '|' ∧ Char.ofNat n ≠ '(' ∧ Char.ofNat n ≠ ')' := by
    decide +kernel
  have entry := table c.toNat (toNat_lt_of_isAsciiWordChar h)
  rw [Char.ofNat_toNat] at entry
  obtain ⟨word, name, blank, bar, apart⟩ := entry h
  exact ⟨word, name, blank, bar, apart⟩

/-- What may be written for fragments where names need not be ASCII, and where either mark
negates a name of one character. -/
inductive Spelling : List Fragment → List Char → Prop
  | name {w : List Char} : w ≠ [] → (∀ c ∈ w, WordLike c) → Spelling [.name (String.ofList w)] w
  | sign {f : Fragment} {c : Char} : c ∈ f.signs → Spelling [f] [c]
  | doubledAnd : Spelling [.operator .and] ['&', '&']
  | doubledOr : Spelling [.operator .or] ['|', '|']
  | barred {c mark : Char} : WordLike c → Text.isBarMark mark →
      Spelling [.negation, .name (String.singleton c)] [c, mark]

/-- The fragments in some spelling of this wider kind, with any blanks around them. -/
inductive Spelled : List Fragment → List Char → Prop
  | done {blanks : List Char} : blanks.all Text.isBlank → Spelled [] blanks
  | next {blanks cs rest : List Char} {gs fs : List Fragment} : blanks.all Text.isBlank →
      Spelling gs cs → Spelled fs rest → Spelled (gs ++ fs) (blanks ++ cs ++ rest)

theorem isAsciiName_iff {w : String} :
    isAsciiName w ↔ w.toList ≠ [] ∧ ∀ c ∈ w.toList, isAsciiWordChar c := by
  simp [isAsciiName]

theorem Lexeme.spelling {gs : List Fragment} {cs : List Char} (h : Lexeme gs cs) :
    Spelling gs cs := by
  cases h with
  | @name w hw =>
    obtain ⟨hne, hall⟩ := isAsciiName_iff.mp hw
    have name := Spelling.name hne (fun c hc => wordLike_of_ascii (hall c hc))
    rwa [String.ofList_toList] at name
  | sign hc => exact .sign hc
  | doubledAnd => exact .doubledAnd
  | doubledOr => exact .doubledOr
  | barred hc => exact .barred (wordLike_of_ascii hc) (by decide)

theorem Written.spelled {fs : List Fragment} {cs : List Char} (h : Written fs cs) :
    Spelled fs cs := by
  induction h with
  | done hblanks => exact .done hblanks
  | next hblanks lexeme _ ih => exact .next hblanks lexeme.spelling ih

theorem bounds_of_inRanges {n : Nat} {ranges : List (Nat × Nat)} (h : Text.inRanges n ranges) :
    ∃ r ∈ ranges, r.1 ≤ n ∧ n ≤ r.2 := by
  induction ranges with
  | nil => cases h
  | cons r rest ih =>
    obtain ⟨first, last⟩ := r
    rw [Text.inRanges] at h
    split at h
    · cases h
    · split at h
      · exact ⟨(first, last), by simp, by omega, by omega⟩
      · obtain ⟨r, hr, bounds⟩ := ih h
        exact ⟨r, List.mem_cons_of_mem _ hr, bounds⟩

/-- A blank is part of no word and of no name. -/
theorem isBlank_apart {c : Char} (h : Text.isBlank c) :
    Text.isWordChar c = false ∧ Text.isNameChar c = false := by
  have table : ∀ r ∈ Text.blankRanges, ∀ k < r.2 + 1 - r.1,
      Text.isWordChar (Char.ofNat (r.1 + k)) = false ∧
        Text.isNameChar (Char.ofNat (r.1 + k)) = false := by
    decide +kernel
  obtain ⟨r, hr, lower, upper⟩ := bounds_of_inRanges h
  have entry := table r hr (c.toNat - r.1) (by omega)
  rwa [Nat.add_sub_cancel' lower, Char.ofNat_toNat] at entry

/-- Before this fragment no operand is open, and an operand begins with it. -/
def Fragment.starts : Fragment → Bool
  | .name _ | .place _ | .negation | .opening => true
  | _ => false

/-- An operand ends with this fragment. -/
def Fragment.ends : Fragment → Bool
  | .name _ | .place _ | .closing => true
  | _ => false

/-- What is used of a sign of a fragment. -/
structure SignOf (f : Fragment) (c : Char) : Prop where
  fragment : Fragment.ofChar c = f
  word : Text.isWordChar c = false
  name : Text.isNameChar c = false
  blank : Text.isBlank c = false
  bar : Text.isBarMark c = false
  opening : (c == '(') = decide (f = .opening)
  starts : (c == '(' || Fragment.isNegation c) = f.starts
  ends : (c == ')') = f.ends

/-- The fragments that have signs. -/
def Fragment.signified : List Fragment :=
  Operator.all.map Fragment.operator ++ [.negation, .opening, .closing]

theorem signOf_of_mem {f : Fragment} {c : Char} (h : c ∈ f.signs) : SignOf f c := by
  have table : Fragment.signified.all
      (fun f => f.signs.all (fun c => Fragment.ofChar c = f ∧ Text.isWordChar c = false ∧
        Text.isNameChar c = false ∧ Text.isBlank c = false ∧ Text.isBarMark c = false ∧
        (c == '(') = decide (f = .opening) ∧
        (c == '(' || Fragment.isNegation c) = f.starts ∧ (c == ')') = f.ends)) := by
    decide +kernel
  have listed : f ∈ Fragment.signified := by
    cases f with
    | operator op => exact List.mem_append_left _ (List.mem_map_of_mem op.mem_all)
    | negation => simp [Fragment.signified]
    | opening => simp [Fragment.signified]
    | closing => simp [Fragment.signified]
    | name w => cases h
    | place k => cases h
    | stray c => cases h
  have entry := List.all_eq_true.mp (List.all_eq_true.mp table f listed) c h
  obtain ⟨fragment, word, name, blank, bar, opening, starts, ends⟩ := of_decide_eq_true entry
  exact ⟨fragment, word, name, blank, bar, opening, starts, ends⟩

/-- A sign other than a parenthesis. -/
theorem SignOf.apart {f : Fragment} {c : Char} (h : SignOf f c) (hopening : f ≠ .opening)
    (hends : f.ends = false) : c ≠ '(' ∧ c ≠ ')' := by
  have opening := h.opening
  have closing := h.ends
  rw [decide_eq_false hopening, beq_eq_false_iff_ne] at opening
  rw [hends, beq_eq_false_iff_ne] at closing
  exact ⟨opening, closing⟩

/-! ## Operands and operators in turn -/

/-- Operands and operators take turns. `after` says that an operand has just ended. -/
def Alternates : Bool → List Fragment → Prop
  | after, [] => after = true
  | after, f :: fs => f.starts = !after ∧ Alternates f.ends fs

mutual

theorem Phrase.alternates : ∀ (p : Phrase Atom) {rest : List Fragment}, Alternates true rest →
    Alternates false (p.fragments ++ rest)
  | .atom (.name _), _, h => ⟨rfl, h⟩
  | .atom (.place _), _, h => ⟨rfl, h⟩
  | .negated p, _, h => ⟨rfl, Phrase.alternates p h⟩
  | .group s, rest, h => by
    have closed : Alternates true (.closing :: rest) := ⟨rfl, h⟩
    have inside := Sentence.alternates s closed
    rw [Phrase.fragments, List.cons_append, List.append_assoc]
    exact ⟨rfl, inside⟩

theorem Sentence.alternates : ∀ (s : Sentence Atom) {rest : List Fragment}, Alternates true rest →
    Alternates false (s.fragments ++ rest)
  | .single p, _, h => Phrase.alternates p h
  | .extend s op p, rest, h => by
    have next : Alternates true (.operator op :: (p.fragments ++ rest)) :=
      ⟨rfl, Phrase.alternates p h⟩
    rw [Sentence.fragments, List.append_assoc, List.cons_append]
    exact Sentence.alternates s next

end

/-! ## Taking a text apart -/

/-- No bar mark comes first. -/
def Unmarked (cs : List Char) : Prop := ∀ c ∈ cs.head?, Text.isBarMark c = false

theorem unbarFrom_cons (sign : List Char) (inRun : Bool) {c : Char} {cs : List Char}
    (h : Unmarked cs) :
    Text.unbarFrom sign inRun (c :: cs) = c :: Text.unbarFrom sign false cs := by
  cases cs with
  | nil => rfl
  | cons mark cs =>
    have unmarked := h mark rfl
    simp only [Text.isBarMark, Bool.or_eq_false_iff] at unmarked
    simp [Text.unbarFrom, unmarked.1, unmarked.2]

theorem unbarFrom_append (sign : List Char) {cs rest : List Char}
    (h : ∀ c ∈ cs, Text.isBarMark c = false) (hrest : Unmarked rest) :
    Text.unbarFrom sign false (cs ++ rest) = cs ++ Text.unbarFrom sign false rest := by
  induction cs with
  | nil => rfl
  | cons c cs ih =>
    rw [List.forall_mem_cons] at h
    have next : Unmarked (cs ++ rest) := by
      cases cs with
      | nil => exact hrest
      | cons d cs =>
        intro c hc
        cases hc
        exact h.2 d (by simp)
    rw [List.cons_append, unbarFrom_cons sign false next, ih h.2, List.cons_append]

namespace Fragment

/-- The first fragment is no name. -/
def Nameless (fs : List Fragment) : Prop := ∀ w, fs.head? ≠ some (.name w)

theorem ofChars_word {c : Char} (h : Text.isWordChar c = true) (cs : List Char) :
    ofChars (c :: cs) = consWord c (ofChars cs) := by
  rw [ofChars, if_pos h]
  · rintro rest rfl
    exact absurd h (by decide +kernel)
  · rintro rest rfl
    exact absurd h (by decide +kernel)

/-- What a word character comes first in begins with a name. -/
theorem head?_consWord (c : Char) (fs : List Fragment) :
    ∃ w rest, consWord c fs = .name w :: rest := by
  unfold consWord
  split
  · exact ⟨_, _, rfl⟩
  · exact ⟨_, _, rfl⟩

theorem ofChars_name {w : List Char} (hw : w ≠ []) (h : ∀ c ∈ w, WordLike c) {rest : List Char}
    (hrest : Nameless (ofChars rest)) :
    ofChars (w ++ rest) = .name (String.ofList w) :: ofChars rest := by
  induction w with
  | nil => exact absurd rfl hw
  | cons c w ih =>
    rw [List.forall_mem_cons] at h
    rw [List.cons_append, ofChars_word h.1.word]
    cases w with
    | nil =>
      unfold consWord
      split
      · rename_i word fs heq
        rw [List.nil_append] at heq
        exact absurd (by rw [heq]; rfl) (hrest word)
      · rw [Char.toString, String.singleton_eq_ofList]
        rfl
    | cons d w =>
      rw [ih (by simp) h.2, consWord]
      rw [Char.toString, String.singleton_eq_ofList, ← String.ofList_append]
      rfl

/-- A sign is a fragment of its own, unless it is doubled. -/
theorem ofChars_sign {f : Fragment} {c : Char} (h : SignOf f c) {cs : List Char}
    (hand : c = '&' → cs.head? ≠ some '&') (hor : c = '|' → cs.head? ≠ some '|') :
    ofChars (c :: cs) = f :: ofChars cs := by
  rw [ofChars, h.word, h.fragment]
  · rfl
  · rintro rest rfl rfl
    exact hand rfl rfl
  · rintro rest rfl rfl
    exact hor rfl rfl

theorem ofChars_and (cs : List Char) : ∃ fs, ofChars ('&' :: cs) = .operator .and :: fs := by
  have sign : SignOf (.operator .and) '&' := signOf_of_mem (by simp [signs, Operator.signs])
  by_cases h : cs.head? = some '&'
  · obtain ⟨rest, rfl⟩ := List.head?_eq_some_iff.mp h
    exact ⟨ofChars rest, by rw [ofChars]⟩
  · exact ⟨ofChars cs, ofChars_sign sign (fun _ => h) (by simp)⟩

theorem ofChars_or (cs : List Char) : ∃ fs, ofChars ('|' :: cs) = .operator .or :: fs := by
  have sign : SignOf (.operator .or) '|' := signOf_of_mem (by simp [signs, Operator.signs])
  by_cases h : cs.head? = some '|'
  · obtain ⟨rest, rfl⟩ := List.head?_eq_some_iff.mp h
    exact ⟨ofChars rest, by rw [ofChars]⟩
  · exact ⟨ofChars cs, ofChars_sign sign (by simp) (fun _ => h)⟩

end Fragment

open Fragment

/-- Where an operand has ended, no name follows. -/
theorem Alternates.nameless {fs : List Fragment} (h : Alternates true fs) : Nameless fs := by
  intro w hw
  obtain ⟨rest, rfl⟩ := List.head?_eq_some_iff.mp hw
  cases h.1

/-- Where an operand has to follow, no operator does. -/
theorem Alternates.head_ne {fs : List Fragment} (h : Alternates false fs) {cs : List Char}
    (hcs : ofChars cs = fs) : cs.head? ≠ some '&' ∧ cs.head? ≠ some '|' := by
  constructor
  · intro hc
    obtain ⟨rest, rfl⟩ := List.head?_eq_some_iff.mp hc
    obtain ⟨gs, hgs⟩ := ofChars_and rest
    rw [← hcs, hgs] at h
    cases h.1
  · intro hc
    obtain ⟨rest, rfl⟩ := List.head?_eq_some_iff.mp hc
    obtain ⟨gs, hgs⟩ := ofChars_or rest
    rw [← hcs, hgs] at h
    cases h.1

/-! ## Spellings one by one -/

/-- The fragments of characters whose blanks are gone. -/
def fragmentsOf (cs : List Char) : List Fragment := ofChars (Text.unbarFrom ['~'] false cs)

/-- A mark that is a bar is none of the other characters. -/
theorem isBarMark_apart {mark : Char} (h : Text.isBarMark mark) :
    Text.isBlank mark = false ∧ Text.isNameChar mark = false ∧ mark ≠ '(' ∧ mark ≠ ')' := by
  have known : mark = Text.macron ∨ mark = Text.overline := by
    simpa [Text.isBarMark] using h
  rcases known with rfl | rfl
  · decide +kernel
  · decide +kernel

theorem Spelling.blankless {gs : List Fragment} {cs : List Char} (h : Spelling gs cs) :
    ∀ c ∈ cs, Text.isBlank c = false := by
  cases h with
  | name _ hw => exact fun c hc => (hw c hc).blank
  | sign hc => simpa using (signOf_of_mem hc).blank
  | doubledAnd => simpa using (by decide : Text.isBlank '&' = false)
  | doubledOr => simpa using (by decide : Text.isBlank '|' = false)
  | barred hc hmark =>
    simp only [List.forall_mem_cons]
    exact ⟨hc.blank, (isBarMark_apart hmark).1, by simp⟩

theorem Spelling.unmarked {gs : List Fragment} {cs : List Char} (h : Spelling gs cs)
    (rest : List Char) : Unmarked (cs ++ rest) := by
  cases h with
  | name hne hw =>
    cases cs with
    | nil => exact absurd rfl hne
    | cons c cs =>
      intro d hd
      cases hd
      exact (hw c (by simp)).bar
  | sign hc =>
    intro d hd
    cases hd
    exact (signOf_of_mem hc).bar
  | doubledAnd =>
    intro d hd
    cases hd
    rfl
  | doubledOr =>
    intro d hd
    cases hd
    rfl
  | barred hc _ =>
    intro d hd
    cases hd
    exact hc.bar

section

variable {rest : List Char}

theorem fragmentsOf_name {w : List Char} (hne : w ≠ []) (hw : ∀ c ∈ w, WordLike c)
    (hrest : Unmarked rest) (nameless : Nameless (fragmentsOf rest)) :
    fragmentsOf (w ++ rest) = .name (String.ofList w) :: fragmentsOf rest := by
  unfold fragmentsOf at nameless ⊢
  rw [unbarFrom_append _ (fun c hc => (hw c hc).bar) hrest, ofChars_name hne hw nameless]

theorem fragmentsOf_sign {f : Fragment} {c : Char} (hc : c ∈ f.signs) (hrest : Unmarked rest)
    (turn : f.ends = false → Alternates false (fragmentsOf rest)) :
    fragmentsOf (c :: rest) = f :: fragmentsOf rest := by
  have sign := signOf_of_mem hc
  unfold fragmentsOf at turn ⊢
  rw [unbarFrom_cons _ _ hrest, ofChars_sign sign]
  · rintro rfl
    exact (Alternates.head_ne (turn sign.ends.symm) rfl).1
  · rintro rfl
    exact (Alternates.head_ne (turn sign.ends.symm) rfl).2

/-- Where an operand has ended, no run of overlined characters goes on. -/
theorem unbarFrom_inRun (sign : List Char) (h : ∀ c ∈ rest.head?, Text.isWordChar c = false) :
    Text.unbarFrom sign true rest = Text.unbarFrom sign false rest := by
  rcases rest with _ | ⟨c, _ | ⟨mark, rest⟩⟩
  · rfl
  · rfl
  · have word := h c rfl
    simp [Text.unbarFrom, word]

/-- A bar becomes a sign in front, and the name is bare behind it. -/
theorem unbarFrom_barred {c mark : Char} (hc : WordLike c) (hmark : Text.isBarMark mark)
    (sign : List Char) (h : ∀ c ∈ rest.head?, Text.isWordChar c = false) :
    Text.unbarFrom sign false (c :: mark :: rest) =
      sign ++ c :: Text.unbarFrom sign false rest := by
  have bare : Text.stripBars [c] = [c] := by
    simp [Text.stripBars, hc.bar]
  by_cases overlined : mark = Text.overline
  · subst overlined
    simp [Text.unbarFrom, hc.word, bare, unbarFrom_inRun sign h]
  · have macron : mark = Text.macron := by
      simpa [Text.isBarMark, overlined] using hmark
    subst macron
    simp [Text.unbarFrom, hc.word, bare, overlined]

/-- Where an operand has ended, no word begins. -/
theorem Alternates.wordless (h : Alternates true (fragmentsOf rest)) :
    ∀ c ∈ rest.head?, Text.isWordChar c = false := by
  intro c hc
  obtain ⟨cs, rfl⟩ := List.head?_eq_some_iff.mp hc
  cases word : Text.isWordChar c with
  | false => rfl
  | true =>
    -- it would be a name, or the sign of a barred one
    have sign : SignOf .negation '~' := signOf_of_mem (by simp [signs])
    have signed : ∀ cs, ¬ Alternates true (ofChars ('~' :: cs)) := by
      intro cs turns
      rw [ofChars_sign sign (by simp) (by simp)] at turns
      cases turns.1
    have named : ∀ cs, ¬ Alternates true (ofChars (c :: cs)) := by
      intro cs turns
      obtain ⟨w, fs, heq⟩ := head?_consWord c (ofChars cs)
      rw [ofChars_word word, heq] at turns
      cases turns.1
    unfold fragmentsOf at h
    cases cs with
    | nil => exact absurd h (named [])
    | cons mark cs =>
      rw [Text.unbarFrom] at h
      split at h
      · exact absurd h (signed _)
      · split at h
        · exact absurd h (signed _)
        · exact absurd h (named _)

theorem ofChar_ne_name (c : Char) (w : String) : ofChar c ≠ .name w := by
  unfold ofChar
  repeat' split
  all_goals simp

/-- Where no word begins, no name does. -/
theorem nameless_of_wordless (h : ∀ c ∈ rest.head?, Text.isWordChar c = false) :
    Nameless (fragmentsOf rest) := by
  have first : ∀ {c : Char} (cs : List Char), Text.isWordChar c = false →
      Nameless (ofChars (c :: cs)) := by
    intro c cs hc w hw
    rw [ofChars.eq_def] at hw
    split at hw
    · cases hw
    · cases hw
    · cases hw
    · rename_i heq
      cases heq
      rw [hc] at hw
      exact ofChar_ne_name c w (Option.some.inj hw)
  rcases rest with _ | ⟨c, _ | ⟨mark, rest⟩⟩
  · rintro w ⟨⟩
  · exact first [] (h c rfl)
  · have word := h c rfl
    have bare : fragmentsOf (c :: mark :: rest) =
        ofChars (c :: Text.unbarFrom ['~'] false (mark :: rest)) := by
      simp [fragmentsOf, Text.unbarFrom, word]
    rw [bare]
    exact first _ word

/-- A barred name is taken for a negated one. -/
theorem fragmentsOf_barred {c mark : Char} (hc : WordLike c) (hmark : Text.isBarMark mark)
    (wordless : ∀ c ∈ rest.head?, Text.isWordChar c = false) : fragmentsOf (c :: mark :: rest) =
      .negation :: .name (String.singleton c) :: fragmentsOf rest := by
  have sign : SignOf .negation '~' := signOf_of_mem (by simp [signs])
  have name := ofChars_name (w := [c]) (by simp) (by simpa using hc)
    (nameless_of_wordless wordless)
  rw [List.singleton_append, ← String.singleton_eq_ofList] at name
  unfold fragmentsOf
  rw [unbarFrom_barred hc hmark _ wordless, List.singleton_append,
    ofChars_sign sign (by simp) (by simp), name]

end

/-- A spelling before other spellings is taken apart by itself. -/
theorem Spelling.fragmentsOf_append {gs fs : List Fragment} {cs rest : List Char} {after : Bool}
    (h : Spelling gs cs) (hrest : Unmarked rest) (hfs : fragmentsOf rest = fs)
    (turns : Alternates after (gs ++ fs)) : fragmentsOf (cs ++ rest) = gs ++ fs := by
  subst hfs
  cases h with
  | name hne hw => exact fragmentsOf_name hne hw hrest (Alternates.nameless turns.2)
  | @sign f c hc =>
    apply fragmentsOf_sign hc hrest
    intro ends
    exact ends ▸ turns.2
  | doubledAnd =>
    have next : Unmarked ('&' :: rest) :=
      Spelling.unmarked (.sign (f := .operator .and) (by simp [signs, Operator.signs])) rest
    unfold fragmentsOf
    rw [List.cons_append, List.singleton_append, unbarFrom_cons _ _ next,
      unbarFrom_cons _ _ hrest, ofChars]
    rfl
  | doubledOr =>
    have next : Unmarked ('|' :: rest) :=
      Spelling.unmarked (.sign (f := .operator .or) (by simp [signs, Operator.signs])) rest
    unfold fragmentsOf
    rw [List.cons_append, List.singleton_append, unbarFrom_cons _ _ next,
      unbarFrom_cons _ _ hrest, ofChars]
    rfl
  | barred hc hmark => exact fragmentsOf_barred hc hmark (Alternates.wordless turns.2.2)

/-! ## Spelled formulas -/

theorem filter_blanks {blanks : List Char} (h : blanks.all Text.isBlank) :
    blanks.filter (!Text.isBlank ·) = [] := by
  simpa [List.filter_eq_nil_iff] using h

theorem Spelled.unmarked {fs : List Fragment} {cs : List Char} (h : Spelled fs cs) :
    Unmarked (cs.filter (!Text.isBlank ·)) := by
  cases h with
  | done hblanks =>
    rw [filter_blanks hblanks]
    intro c hc
    cases hc
  | @next blanks ds rest gs fs hblanks spelling _ =>
    have kept : ds.filter (!Text.isBlank ·) = ds := by
      simpa [List.filter_eq_self] using spelling.blankless
    rw [List.filter_append, List.filter_append, filter_blanks hblanks, kept]
    exact spelling.unmarked _

theorem Alternates.of_spelling {gs fs : List Fragment} {cs : List Char} (h : Spelling gs cs)
    {after : Bool} (turns : Alternates after (gs ++ fs)) : ∃ after', Alternates after' fs := by
  cases h with
  | name _ _ => exact ⟨_, turns.2⟩
  | sign _ => exact ⟨_, turns.2⟩
  | doubledAnd => exact ⟨_, turns.2⟩
  | doubledOr => exact ⟨_, turns.2⟩
  | barred _ _ => exact ⟨_, turns.2.2⟩

theorem Spelled.fragmentsOf_eq {fs : List Fragment} {cs : List Char} (h : Spelled fs cs)
    {after : Bool} (turns : Alternates after fs) :
    fragmentsOf (cs.filter (!Text.isBlank ·)) = fs := by
  induction h generalizing after with
  | done hblanks =>
    rw [filter_blanks hblanks]
    rfl
  | @next blanks ds rest gs fs hblanks spelling hrest ih =>
    have kept : ds.filter (!Text.isBlank ·) = ds := by
      simpa [List.filter_eq_self] using spelling.blankless
    obtain ⟨after', turns'⟩ := Alternates.of_spelling spelling turns
    rw [List.filter_append, List.filter_append, filter_blanks hblanks, kept]
    exact spelling.fragmentsOf_append hrest.unmarked (ih turns') turns

/-- No binary operator is spelled as a `NOT`. -/
theorem Spelling.binary {gs : List Fragment} {cs : List Char} (h : Spelling gs cs) {op : Operator}
    (hop : .operator op ∈ gs) : op ≠ .not := by
  cases h with
  | name _ _ => simp at hop
  | sign hc =>
    cases List.mem_singleton.mp hop
    rintro rfl
    cases hc
  | doubledAnd =>
    cases List.mem_singleton.mp hop
    simp
  | doubledOr =>
    cases List.mem_singleton.mp hop
    simp
  | barred _ _ => simp at hop

theorem Spelled.binary {fs : List Fragment} {cs : List Char} (h : Spelled fs cs) {op : Operator}
    (hop : .operator op ∈ fs) : op ≠ .not := by
  induction h with
  | done _ => cases hop
  | next _ spelling _ ih => exact (List.mem_append.mp hop).elim spelling.binary ih

/-- Whatever spelling is chosen, taking the text apart gives the fragments. -/
theorem Spelled.ofText_eq {fs : List Fragment} {text : String} (h : Spelled fs text.toList)
    {after : Bool} (turns : Alternates after fs) : Fragment.ofText text = fs :=
  h.fragmentsOf_eq turns

end SwitchingAlgebra
