-- Rendered text in the notation of another dialect. A respelled text is what the dialect writes
-- for the fragments one by one, and that can be read as the same formula, with each `XNOR` as the
-- `XOR` of a negation.
import SwitchingAlgebra.Dialect
import SwitchingAlgebra.Proofs.Rendered

namespace SwitchingAlgebra

/-! ## Characters -/

theorem Operator.ofGlyph?_eq_none {c : Char} (h : ∀ op : Operator, op.glyph ≠ c) :
    Operator.ofGlyph? c = none :=
  List.find?_eq_none.mpr (fun op _ => by simpa using h op)

namespace Dialect

theorem writeChar_plain {c : Char} (h : ∀ op : Operator, op.glyph ≠ c) (d : Dialect) :
    d.writeChar c = [c] := by
  rw [writeChar, Operator.ofGlyph?_eq_none h]

theorem writeChar_glyph (d : Dialect) (op : Operator) :
    d.writeChar op.glyph = (d.word op).toList := by
  rw [writeChar, Operator.ofGlyph?_glyph]

/-- Names stay as they are. -/
theorem flatMap_writeChar_word {w : List Char} (h : ∀ c ∈ w, WordLike c) (d : Dialect) :
    w.flatMap d.writeChar = w := by
  induction w with
  | nil => rfl
  | cons c w ih =>
    rw [List.forall_mem_cons] at h
    have plain : ∀ op : Operator, op.glyph ≠ c := by
      rintro op rfl
      have apart : Text.isWordChar op.glyph = false := by cases op <;> decide +kernel
      cases apart.symm.trans h.1.word
    rw [List.flatMap_cons, writeChar_plain plain, ih h.2]
    rfl

end Dialect

/-! ## Bars of any length -/

section

/-- An overlined character is bare, and a sign stands before the first of a run. -/
theorem unbarFrom_overline (sign : List Char) (inRun : Bool) {c : Char} (hc : WordLike c)
    (rest : List Char) :
    Text.unbarFrom sign inRun (c :: Text.overline :: rest) =
      (if inRun then [] else sign) ++ c :: Text.unbarFrom sign true rest := by
  have bare : Text.stripBars [c] = [c] := by simp [Text.stripBars, hc.bar]
  simp [Text.unbarFrom, hc.word, bare]

variable {rest : List Char}

theorem unbarFrom_overlined (sign : List Char) {w : List Char} (hw : ∀ c ∈ w, WordLike c)
    (h : ∀ c ∈ rest.head?, Text.isWordChar c = false) :
    Text.unbarFrom sign true (w.flatMap (fun c => [c, Text.overline]) ++ rest) =
      w ++ Text.unbarFrom sign false rest := by
  induction w with
  | nil => exact unbarFrom_inRun sign h
  | cons c w ih =>
    rw [List.forall_mem_cons] at hw
    have first := unbarFrom_overline sign true hw.1
      (w.flatMap (fun c => [c, Text.overline]) ++ rest)
    rw [ih hw.2] at first
    exact first

/-- A bar over a name becomes one sign in front of it. -/
theorem unbarFrom_putBar (sign : List Char) {w : List Char} (hne : w ≠ [])
    (hw : ∀ c ∈ w, WordLike c) (h : ∀ c ∈ rest.head?, Text.isWordChar c = false) :
    Text.unbarFrom sign false (Text.putBar w ++ rest) =
      sign ++ w ++ Text.unbarFrom sign false rest := by
  rw [List.append_assoc]
  match w, hne with
  | [c], _ => exact unbarFrom_barred (hw c (by simp)) (by decide) sign h
  | c :: c' :: w, _ =>
    rw [List.forall_mem_cons] at hw
    have first := unbarFrom_overline sign false hw.1
      ((c' :: w).flatMap (fun c => [c, Text.overline]) ++ rest)
    rw [unbarFrom_overlined sign hw.2 h] at first
    exact first

end

/-! ## Fragment by fragment -/

namespace Dialect

/-- How a dialect writes a fragment of rendered text. -/
def writeFragment (d : Dialect) : Fragment → List Char
  | .name w => w.toList
  | .negation => (d.word .not).toList
  | .operator op => ' ' :: ((d.word op).toList ++ [' '])
  | .opening => ['(']
  | .closing => [')']
  | .place _ => []
  | .stray c => [c]

/-- How a dialect writes the fragments of rendered text. -/
def write (d : Dialect) (fs : List Fragment) : List Char := fs.flatMap d.writeFragment

/-- Rendered characters in the notation of a dialect that has no bars. -/
def respellChars (d : Dialect) (cs : List Char) : List Char :=
  (Text.unbarFrom (d.word .not).toList false cs).flatMap d.writeChar

theorem toList_respell {d : Dialect} (hd : d ≠ .unicode) (text : String) :
    (d.respell text).toList = d.respellChars text.toList := by
  cases d with
  | unicode => exact absurd rfl hd
  | math => exact String.toList_ofList
  | logic => exact String.toList_ofList

end Dialect

section

variable {σ : Style} {d : Dialect} {fs gs : List Fragment} {cs rest : List Char}

/-- The signs of negation that dialects without bars use stay as they are. -/
theorem Dialect.flatMap_writeChar_not (hd : d ≠ .unicode) :
    (d.word .not).toList.flatMap d.writeChar = (d.word .not).toList := by
  cases d with
  | unicode => exact absurd rfl hd
  | math => decide
  | logic => decide

theorem Piece.respellChars_append (hd : d ≠ .unicode) (h : Piece σ gs cs) (hrest : Unmarked rest)
    (wordless : Alternates true fs → ∀ c ∈ rest.head?, Text.isWordChar c = false) {after : Bool}
    (turns : Alternates after (gs ++ fs)) :
    d.respellChars (cs ++ rest) = d.write gs ++ d.respellChars rest := by
  unfold Dialect.respellChars
  cases h with
  | @name w ascii =>
    obtain ⟨-, word⟩ := wordLike_of_isAsciiName ascii
    rw [unbarFrom_append _ (fun c hc => (word c hc).bar) hrest, List.flatMap_append,
      Dialect.flatMap_writeChar_word word]
    simp [Dialect.write, Dialect.writeFragment]
  | @barred w ascii _ =>
    obtain ⟨hne, word⟩ := wordLike_of_isAsciiName ascii
    rw [unbarFrom_putBar _ hne word (wordless turns.2.2), List.flatMap_append,
      List.flatMap_append, Dialect.flatMap_writeChar_not hd, Dialect.flatMap_writeChar_word word]
    simp [Dialect.write, Dialect.writeFragment]
  | @sign f c hsign =>
    rw [List.singleton_append, unbarFrom_cons _ _ hrest, List.flatMap_cons]
    congr 1
    cases f with
    | negation =>
      cases hsign
      simp [Dialect.write, Dialect.writeFragment, Dialect.writeChar_glyph]
    | opening => cases hsign; cases d <;> rfl
    | closing => cases hsign; cases d <;> rfl
    | name w => cases hsign
    | place k => cases hsign
    | operator op => cases hsign
    | stray c => cases hsign
  | @operator op _ _ =>
    have unmarked : Text.isBarMark ' ' = false ∧ Text.isBarMark op.glyph = false :=
      ⟨rfl, by cases op <;> rfl⟩
    have all_unmarked : ∀ c ∈ [' ', op.glyph, ' '], Text.isBarMark c = false := by
      simp [unmarked]
    have blank : d.writeChar ' ' = [' '] := by
      refine Dialect.writeChar_plain (fun op => ?_) d
      cases op <;> decide
    rw [unbarFrom_append _ all_unmarked hrest, List.flatMap_append]
    simp [Dialect.write, Dialect.writeFragment, Dialect.writeChar_glyph, blank]

/-- Respelling writes the fragments in the words of the dialect. -/
theorem Rendered.respellChars_eq (hd : d ≠ .unicode) (h : Rendered σ fs cs) {after : Bool}
    (turns : Alternates after fs) : d.respellChars cs = d.write fs := by
  induction h generalizing after with
  | done => rfl
  | @next gs fs cs rest piece hrest ih =>
    obtain ⟨after', later⟩ := Alternates.of_piece piece turns
    rw [piece.respellChars_append hd hrest.unmarked hrest.wordless turns, ih later, Dialect.write,
      Dialect.write, Dialect.write, List.flatMap_append]

end

end SwitchingAlgebra
