-- Formula notation and the parser give one sentence the same expression, up to the shape in
-- which it is built: the same text, the same inputs and the same values.
import SwitchingAlgebra.Formula.Read
import SwitchingAlgebra.Proofs.Parses
import SwitchingAlgebra.Proofs.Trees

namespace SwitchingAlgebra.Formula

/-! ## Spellings in formula notation -/

/-- A name that needs no quotes: it does not begin with a digit. This lets more pass than a source
file can hold: `_` alone and reserved words are names here. -/
def isIdentifier (w : String) : Bool := isAsciiName w && !(w.toList.head?.any Char.isDigit)

/-- The signs of a token that are one character long. -/
def Token.signs : Token → List Char
  | .operator .and => ['*', '&']
  | .operator .or => ['+', '|']
  | .operator .xor => ['^']
  | .negation => ['!', '~']
  | .opening => ['(']
  | .closing => [')']
  | _ => []

/-- What is written without a blank inside, and the token that it is. -/
inductive Lexeme : Token → List Char → Prop
  | name {w : String} : isIdentifier w → Lexeme (.name w) w.toList
  | sign {t : Token} {c : Char} : c ∈ t.signs → Lexeme t [c]
  | doubledAnd : Lexeme (.operator .and) ['&', '&']
  | doubledOr : Lexeme (.operator .or) ['|', '|']

/-- The tokens in some spelling, with any blanks before, between and behind them. Blanks are those
of all scripts, more than may stand between the tokens of a source file: U+00A0 is one here. -/
inductive Notated : List Token → List Char → Prop
  | done {blanks : List Char} : blanks.all Text.isBlank → Notated [] blanks
  | next {blanks cs rest : List Char} {t : Token} {ts : List Token} : blanks.all Text.isBlank →
      Lexeme t cs → Notated ts rest → Notated (t :: ts) (blanks ++ cs ++ rest)

end Formula

mutual

/-- The tokens of a phrase, from left to right. -/
def Phrase.tokens : Phrase String → List Formula.Token
  | .atom n => [.name n]
  | .negated p => .negation :: p.tokens
  | .group s => .opening :: (s.tokens ++ [.closing])

/-- The tokens of a sentence, from left to right. -/
def Sentence.tokens : Sentence String → List Formula.Token
  | .single p => p.tokens
  | .extend s op p => s.tokens ++ .operator op :: p.tokens

end

namespace Formula

/-! ## The same text for the parser -/

/-- The fragment that a token is for the parser, which knows no braces. -/
def Token.fragment : Token → Fragment
  | .name n => .name n
  | .embedded _ => .stray '\x7b'
  | .negation => .negation
  | .operator op => .operator op
  | .opening => .opening
  | .closing => .closing

theorem Token.mem_signs {t : Token} {c : Char} (h : c ∈ t.signs) : c ∈ t.fragment.signs := by
  cases t with
  | operator op =>
    cases op with
    | and => exact List.mem_of_mem_take (i := 2) h
    | or => exact List.mem_of_mem_take (i := 2) h
    | xor => exact List.mem_of_mem_take (i := 1) h
    | nand => cases h
    | nor => cases h
    | xnor => cases h
    | not => cases h
  | negation =>
    simp only [signs, fragment, Fragment.signs, List.mem_cons] at h ⊢
    tauto
  | opening => exact h
  | closing => exact h
  | name n => cases h
  | embedded p => cases h

theorem Lexeme.lexeme {t : Token} {cs : List Char} (h : Lexeme t cs) :
    SwitchingAlgebra.Lexeme [t.fragment] cs := by
  cases h with
  | name hw => exact .name (Bool.and_eq_true_iff.mp hw).1
  | sign hc => exact .sign (Token.mem_signs hc)
  | doubledAnd => exact .doubledAnd
  | doubledOr => exact .doubledOr

theorem Notated.written {ts : List Token} {cs : List Char} (h : Notated ts cs) :
    Written (ts.map Token.fragment) cs := by
  induction h with
  | done hblanks => exact .done hblanks
  | next hblanks lexeme _ ih => exact .next hblanks lexeme.lexeme ih

end Formula

mutual

theorem Phrase.fragments_tokens : ∀ p : Phrase String,
    p.tokens.map Formula.Token.fragment = (p.map Atom.name).fragments
  | .atom _ => rfl
  | .negated p => congrArg (List.cons Fragment.negation) (Phrase.fragments_tokens p)
  | .group s => by
    rw [Phrase.tokens, List.map_cons, List.map_append, Sentence.fragments_tokens s]
    rfl

theorem Sentence.fragments_tokens : ∀ s : Sentence String,
    s.tokens.map Formula.Token.fragment = (s.map Atom.name).fragments
  | .single p => Phrase.fragments_tokens p
  | .extend s op p => by
    rw [Sentence.tokens, List.map_append, List.map_cons, Sentence.fragments_tokens s,
      Phrase.fragments_tokens p]
    rfl

end

namespace Formula

/-! ## The first character of a spelling -/

theorem Lexeme.word_false {t : Token} {c : Char} {cs : List Char} (h : Lexeme t (c :: cs))
    (starts : t.fragment.starts = false) : Text.isWordChar c = false ∧ c ≠ '#' := by
  have sign : ∀ {f : Fragment}, c ∈ f.signs → Text.isWordChar c = false ∧ c ≠ '#' := by
    intro f hc
    have sign := signOf_of_mem hc
    refine ⟨sign.word, ?_⟩
    rintro rfl
    rw [← sign.fragment] at hc
    simp [Fragment.ofChar, Fragment.operatorOf?, Fragment.isNegation, Fragment.signs] at hc
  generalize hds : c :: cs = ds at h
  cases h with
  | name _ => cases starts
  | sign hc =>
    cases hds
    exact sign (Token.mem_signs hc)
  | doubledAnd =>
    cases hds
    exact sign (f := .operator .and) (by decide)
  | doubledOr =>
    cases hds
    exact sign (f := .operator .or) (by decide)

theorem Lexeme.apart {t : Token} {c : Char} {cs : List Char} (h : Lexeme t (c :: cs))
    (starts : t.fragment.starts = true) : c ≠ '&' ∧ c ≠ '|' := by
  generalize hds : c :: cs = ds at h
  cases h with
  | name hw =>
    have ascii := (isAsciiName_iff.mp (Bool.and_eq_true_iff.mp hw).1).2 c (by simp [← hds])
    exact ⟨(wordLike_of_ascii ascii).apart.1, (wordLike_of_ascii ascii).apart.2.1⟩
  | sign hc =>
    cases hds
    have sign := signOf_of_mem (Token.mem_signs hc)
    constructor
    · rintro rfl
      rw [← sign.fragment] at starts
      cases starts
    · rintro rfl
      rw [← sign.fragment] at starts
      cases starts
  | doubledAnd => cases starts
  | doubledOr => cases starts

theorem Notated.head {ts : List Token} {cs : List Char} (h : Notated ts cs) {c : Char}
    (hc : c ∈ cs.head?) :
    Text.isBlank c ∨ ∃ t ts' ds, ts = t :: ts' ∧ Lexeme t (c :: ds) := by
  cases h with
  | done hblanks => exact .inl (List.all_eq_true.mp hblanks c (List.mem_of_head? hc))
  | @next blanks ds rest t ts' hblanks lexeme _ =>
    cases blanks with
    | cons b blanks =>
      cases hc
      exact .inl (List.all_eq_true.mp hblanks _ (by simp))
    | nil =>
      cases ds with
      | nil =>
        -- nothing is written without a character
        generalize hds : ([] : List Char) = ds at lexeme
        cases lexeme with
        | name hw => exact absurd hds.symm (isAsciiName_iff.mp (Bool.and_eq_true_iff.mp hw).1).1
        | sign _ => cases hds
        | doubledAnd => cases hds
        | doubledOr => cases hds
      | cons d ds =>
        cases hc
        exact .inr ⟨t, ts', ds, rfl, lexeme⟩

/-- Where an operand has ended, no character goes on with a name. -/
theorem Notated.stops {ts : List Token} {cs : List Char} (h : Notated ts cs)
    (turns : Alternates true (ts.map Token.fragment)) :
    ∀ c ∈ cs.head?, Text.isWordChar c = false ∧ c ≠ '#' := by
  intro c hc
  rcases h.head hc with blank | ⟨t, ts', ds, rfl, lexeme⟩
  · refine ⟨(isBlank_apart blank).1, ?_⟩
    rintro rfl
    exact absurd blank (by decide)
  · exact lexeme.word_false turns.1

/-- Where an operand has to follow, no character doubles a sign. -/
theorem Notated.apart {ts : List Token} {cs : List Char} (h : Notated ts cs)
    (turns : Alternates false (ts.map Token.fragment)) :
    ∀ c ∈ cs.head?, c ≠ '&' ∧ c ≠ '|' := by
  intro c hc
  rcases h.head hc with blank | ⟨t, ts', ds, rfl, lexeme⟩
  · constructor
    · rintro rfl
      exact absurd blank (by decide)
    · rintro rfl
      exact absurd blank (by decide)
  · exact lexeme.apart turns.1

/-! ## Tokens of a text -/

namespace Token

theorem ofChars_blanks {blanks : List Char} (h : blanks.all Text.isBlank) (rest : List Char) :
    ofChars .between (blanks ++ rest) = ofChars .between rest := by
  induction blanks with
  | nil => rfl
  | cons c blanks ih =>
    rw [List.all_cons, Bool.and_eq_true] at h
    rw [List.cons_append, ofChars, next, start, if_pos h.1]
    simp [ih h.2]

/-- The rest of a name goes with its first character. -/
theorem ofChars_word {w rest : List Char} (hw : ∀ c ∈ w, Text.isWordChar c)
    (stops : ∀ c ∈ rest.head?, Text.isWordChar c = false ∧ c ≠ '#') (read : String) :
    ofChars (.word read) (w ++ rest) =
      (ofChars .between rest).map (.name (read ++ String.ofList w) :: ·) := by
  induction w generalizing read with
  | nil =>
    cases rest with
    | nil => simp [ofChars, finish]
    | cons c rest =>
      obtain ⟨word, sharp⟩ := stops c rfl
      rw [List.nil_append, ofChars, ofChars]
      cases hstart : start c with
      | none => simp [next, word, sharp, hstart]
      | some entry =>
        obtain ⟨ts, mode⟩ := entry
        have hnext : next (.word read) c = some (.name read :: ts, mode) := by
          simp [next, word, sharp, hstart]
        have hfirst : next .between c = some (ts, mode) := hstart
        simp only [hnext, hfirst, String.ofList_nil, String.append_empty]
        cases ofChars mode rest <;> rfl
  | cons c w ih =>
    rw [List.forall_mem_cons] at hw
    have hnext : next (.word read) c = some ([], .word (read.push c)) := by
      simp [next, hw.1]
    have text : read.push c ++ String.ofList w = read ++ String.ofList (c :: w) := by
      apply String.toList_injective
      simp
    rw [List.cons_append, ofChars, hnext]
    simp only [ih hw.2, text, List.nil_append]
    cases ofChars .between rest <;> rfl

/-- A sign by itself. -/
theorem ofChars_alone {t : Token} {c : Char} (h : start c = some ([t], .between))
    (rest : List Char) :
    ofChars .between (c :: rest) = (ofChars .between rest).map (t :: ·) := by
  rw [ofChars, next, h]
  rfl

/-- A sign that is not doubled, although it might be. -/
theorem ofChars_half {c : Char} (h : start c = some ([], .half c)) {rest : List Char}
    (hrest : rest.head? ≠ some c) :
    ofChars .between (c :: rest) = (ofChars .between rest).map (ofHalf c :: ·) := by
  rw [ofChars, next, h]
  cases rest with
  | nil => rfl
  | cons d rest =>
    have single : (d == c) = false := by
      simpa using hrest
    simp only [ofChars, next, single, Bool.false_eq_true, if_false]
    cases start d with
    | none => rfl
    | some entry =>
      obtain ⟨ts, mode⟩ := entry
      simp only [Option.map_some]
      cases ofChars mode rest <;> rfl

/-- A doubled sign is one operator. -/
theorem ofChars_doubled {c : Char} (h : start c = some ([], .half c)) (rest : List Char) :
    ofChars .between (c :: c :: rest) = (ofChars .between rest).map (ofHalf c :: ·) := by
  have hnext : next (.half c) c = some ([ofHalf c], .between) := by
    simp [next]
  rw [ofChars, next, h]
  simp only [ofChars, hnext]
  cases ofChars .between rest <;> rfl

theorem start_of_ascii {c : Char} (h : isAsciiWordChar c) :
    start c = some ([], .word c.toString) := by
  have table : ∀ n < 128, isAsciiWordChar (Char.ofNat n) →
      start (Char.ofNat n) = some ([], .word (Char.ofNat n).toString) := by
    decide +kernel
  have entry := table c.toNat (toNat_lt_of_isAsciiWordChar h)
  rw [Char.ofNat_toNat] at entry
  exact entry h

end Token

/-- A spelling is taken for the token that it spells. -/
theorem Lexeme.ofChars_append {t : Token} {cs : List Char} (h : Lexeme t cs) {rest : List Char}
    (stops : t.fragment.ends = true → ∀ c ∈ rest.head?, Text.isWordChar c = false ∧ c ≠ '#')
    (apart : t.fragment.ends = false → ∀ c ∈ rest.head?, c ≠ '&' ∧ c ≠ '|') :
    Token.ofChars .between (cs ++ rest) = (Token.ofChars .between rest).map (t :: ·) := by
  cases h with
  | @name w hw =>
    obtain ⟨ascii, -⟩ := Bool.and_eq_true_iff.mp hw
    obtain ⟨hne, hall⟩ := isAsciiName_iff.mp ascii
    cases hcs : w.toList with
    | nil => exact absurd hcs hne
    | cons c cs =>
      rw [hcs, List.forall_mem_cons] at hall
      have text : c.toString ++ String.ofList cs = w := by
        apply String.toList_injective
        rw [hcs]
        simp [Char.toString]
      have word := Token.ofChars_word (fun d hd => (wordLike_of_ascii (hall.2 d hd)).word)
        (stops rfl) c.toString
      rw [text] at word
      rw [List.cons_append, Token.ofChars, Token.next, Token.start_of_ascii hall.1]
      simp only [word]
      cases Token.ofChars .between rest <;> rfl
  | @sign t c hc =>
    cases t with
    | operator op =>
      have notDoubled := apart rfl
      cases op with
      | and =>
        simp only [Token.signs, List.mem_cons, List.not_mem_nil, or_false] at hc
        rcases hc with rfl | rfl
        · exact Token.ofChars_alone rfl rest
        · exact Token.ofChars_half rfl (fun h => (notDoubled _ h).1 rfl)
      | or =>
        simp only [Token.signs, List.mem_cons, List.not_mem_nil, or_false] at hc
        rcases hc with rfl | rfl
        · exact Token.ofChars_alone rfl rest
        · exact Token.ofChars_half rfl (fun h => (notDoubled _ h).2 rfl)
      | xor =>
        rw [List.mem_singleton.mp hc]
        exact Token.ofChars_alone rfl rest
      | nand => cases hc
      | nor => cases hc
      | xnor => cases hc
      | not => cases hc
    | negation =>
      simp only [Token.signs, List.mem_cons, List.not_mem_nil, or_false] at hc
      rcases hc with rfl | rfl
      · exact Token.ofChars_alone rfl rest
      · exact Token.ofChars_alone rfl rest
    | opening =>
      rw [List.mem_singleton.mp hc]
      exact Token.ofChars_alone rfl rest
    | closing =>
      rw [List.mem_singleton.mp hc]
      exact Token.ofChars_alone rfl rest
    | name n => cases hc
    | embedded p => cases hc
  | doubledAnd => exact Token.ofChars_doubled rfl rest
  | doubledOr => exact Token.ofChars_doubled rfl rest

/-- A text in formula notation is taken apart into its tokens. -/
theorem Notated.ofChars_eq {ts : List Token} {cs : List Char} (h : Notated ts cs) {after : Bool}
    (turns : Alternates after (ts.map Token.fragment)) :
    Token.ofChars .between cs = some ts := by
  induction h generalizing after with
  | done hblanks =>
    have skipped := Token.ofChars_blanks hblanks []
    rw [List.append_nil] at skipped
    rw [skipped]
    rfl
  | next hblanks lexeme hrest ih =>
    rw [List.append_assoc, Token.ofChars_blanks hblanks, lexeme.ofChars_append, ih turns.2]
    · rfl
    · intro ends
      exact hrest.stops (ends ▸ turns.2)
    · intro ends
      exact hrest.apart (ends ▸ turns.2)

/-! ## The tree of a text -/

theorem Waiting.negate_not (n : Nat) (f : Formula) :
    negate n (.not f) = .not (negate n f) := by
  induction n with
  | zero => rfl
  | succ n ih => exact congrArg Formula.not ih

end Formula

section

open Formula

mutual

/-- A phrase is read as the operand that was waited for. -/
theorem Phrase.foldlM_tokens : ∀ (p : Phrase String) (w : Waiting) (around : List Waiting)
    (rest : List Token), (p.tokens ++ rest).foldlM Reading.step (.before w around) =
      rest.foldlM Reading.step (.behind (w.take p.formula) around)
  | .atom _, _, _, _ => rfl
  | .negated p, w, around, rest => by
    have inside := Phrase.foldlM_tokens p { w with negations := w.negations + 1 } around rest
    have same : Waiting.take { w with negations := w.negations + 1 } p.formula =
        w.take (.not p.formula) := by
      simp only [Waiting.take, Waiting.negate_not]
      rfl
    rw [same] at inside
    exact inside
  | .group s, w, around, rest => by
    have inside := Sentence.foldlM_tokens s (w :: around) (.closing :: rest)
    rw [Phrase.tokens, List.cons_append, List.append_assoc]
    exact inside

theorem Sentence.foldlM_tokens : ∀ (s : Sentence String) (around : List Waiting)
    (rest : List Token), (s.tokens ++ rest).foldlM Reading.step (.before .fresh around) =
      rest.foldlM Reading.step (.behind s.formula around)
  | .single p, around, rest => Phrase.foldlM_tokens p .fresh around rest
  | .extend s op p, around, rest => by
    have first := Sentence.foldlM_tokens s around (.operator op :: (p.tokens ++ rest))
    have second := Phrase.foldlM_tokens p ⟨some (s.formula, op), 0⟩ around rest
    rw [Sentence.tokens, List.append_assoc]
    exact first.trans second

end

/-- The tokens of a sentence are read as its tree. -/
theorem Sentence.ofTokens?_tokens (s : Sentence String) : ofTokens? s.tokens = some s.formula := by
  have read := s.foldlM_tokens [] []
  rw [List.append_nil] at read
  rw [ofTokens?, read]
  rfl

end

/-! ## Formula notation and the parser -/

namespace Formula

/-- A text in formula notation stands for an expression with the text, the inputs and the
values of what the parser makes of the same text. -/
theorem ofText?_agrees_with_parse (s : Sentence String) {text : String}
    (deep : s.nesting ≤ maxNestingDepth) (operators : s.operatorNesting ≤ maxNestingDepth)
    (notated : Notated s.tokens text.toList) (env : String → Expression) :
    ∃ f e, ofText? text = some f ∧ Expression.parse text = .ok e ∧
      (f.toExpression env).text = e.text ∧ (f.toExpression env).inputs = e.inputs ∧
      ∀ a, (f.toExpression env).valueOf a = e.valueOf a := by
  have written : Written (s.map Atom.name).fragments text.toList :=
    s.fragments_tokens ▸ notated.written
  have turns : Alternates false (s.tokens.map Token.fragment) :=
    s.fragments_tokens ▸ (s.map Atom.name).alternates_fragments
  have read : ofText? text = some s.formula := by
    rw [ofText?, Token.ofText?, notated.ofChars_eq turns]
    exact s.ofTokens?_tokens
  have parsed := Expression.parse_eq_of_written written (by rw [s.nesting_map]; exact deep)
    (Expression.ofFragments_core s)
  obtain ⟨same, inputs, values⟩ := s.core.invertedTree_alike
    (by rw [s.height_core]; exact operators) (s.binary_core (fun _ => written.spelled.binary))
  refine ⟨_, _, read, parsed, ?_, ?_, ?_⟩
  · rw [s.toExpression_formula, same]
  · rw [s.toExpression_formula, inputs]
  · intro a
    rw [s.toExpression_formula, values]

/-- A negated group of a chain, with a name in both polarities. -/
theorem ofText?_agrees_with_parse_of_select :
    ∃ f e, ofText? "!(s + a) & ~ ~b | s" = some f ∧
      Expression.parse "!(s + a) & ~ ~b | s" = .ok e ∧
      (f.toExpression fun _ => .empty).text = e.text ∧
      (f.toExpression fun _ => .empty).inputs = e.inputs ∧
      ∀ a, (f.toExpression fun _ => .empty).valueOf a = e.valueOf a := by
  have name : ∀ w, isIdentifier w → Lexeme (.name w) w.toList := by
    intro _ h
    exact .name h
  have notated : Notated [.negation, .opening, .name "s", .operator .or, .name "a", .closing,
      .operator .and, .negation, .negation, .name "b", .operator .or, .name "s"]
      "!(s + a) & ~ ~b | s".toList :=
    @Notated.next [] ['!'] _ _ _ rfl (.sign (by decide)) <|
    @Notated.next [] ['('] _ _ _ rfl (.sign (by decide)) <|
    @Notated.next [] ['s'] _ _ _ rfl (name "s" (by decide)) <|
    @Notated.next [' '] ['+'] _ _ _ rfl (.sign (by decide)) <|
    @Notated.next [' '] ['a'] _ _ _ rfl (name "a" (by decide)) <|
    @Notated.next [] [')'] _ _ _ rfl (.sign (by decide)) <|
    @Notated.next [' '] ['&'] _ _ _ rfl (.sign (by decide)) <|
    @Notated.next [' '] ['~'] _ _ _ rfl (.sign (by decide)) <|
    @Notated.next [' '] ['~'] _ _ _ rfl (.sign (by decide)) <|
    @Notated.next [] ['b'] _ _ _ rfl (name "b" (by decide)) <|
    @Notated.next [' '] ['|'] _ _ _ rfl (.sign (by decide)) <|
    @Notated.next [' '] ['s'] _ _ _ rfl (name "s" (by decide)) (@Notated.done [] rfl)
  exact ofText?_agrees_with_parse
    (.extend (.extend (.single (.negated (.group (.extend (.single (.atom "s")) .or (.atom "a")))))
      .and (.negated (.negated (.atom "b")))) .or (.atom "s"))
    (by decide) (by decide) notated (fun _ => .empty)

end Formula

end SwitchingAlgebra
