-- What the renderer writes for the fragments of a formula, and how it puts such texts together.
-- Other than in what is written for the parser, a bar may go over a name of any length.
import SwitchingAlgebra.Proofs.Writing

namespace SwitchingAlgebra

/-! ## Rendered fragments -/

/-- What a rendered text may hold: the names that may be barred, and the operators that may
join phrases. -/
structure Style where
  bars : String → Prop
  joins : Operator → Prop

/-- The sign that is rendered for a fragment. -/
def Fragment.sign? : Fragment → Option Char
  | .negation => some Operator.not.glyph
  | .opening => some '('
  | .closing => some ')'
  | _ => none

/-- What is rendered in one piece, and the fragments that it is. -/
inductive Piece (σ : Style) : List Fragment → List Char → Prop
  | name {w : String} : isAsciiName w → Piece σ [.name w] w.toList
  | barred {w : String} : isAsciiName w → σ.bars w →
      Piece σ [.negation, .name w] (Text.putBar w.toList)
  | sign {f : Fragment} {c : Char} : f.sign? = some c → Piece σ [f] [c]
  | operator {op : Operator} : op ≠ .not → σ.joins op →
      Piece σ [.operator op] [' ', op.glyph, ' ']

/-- The fragments as they are rendered, piece by piece. -/
inductive Rendered (σ : Style) : List Fragment → List Char → Prop
  | done : Rendered σ [] []
  | next {gs fs : List Fragment} {cs rest : List Char} : Piece σ gs cs → Rendered σ fs rest →
      Rendered σ (gs ++ fs) (cs ++ rest)

theorem Fragment.mem_signs_of_sign? {f : Fragment} {c : Char} (h : f.sign? = some c) :
    c ∈ f.signs := by
  cases f <;> cases h <;> decide

section

variable {σ τ : Style} {fs gs : List Fragment} {cs ds rest : List Char}

theorem Piece.rendered (h : Piece σ gs cs) : Rendered σ gs cs := by
  have alone := Rendered.next h .done
  simpa using alone

theorem Rendered.append (h : Rendered σ fs cs) (h' : Rendered σ gs ds) :
    Rendered σ (fs ++ gs) (cs ++ ds) := by
  induction h with
  | done => exact h'
  | next piece _ ih =>
    rw [List.append_assoc, List.append_assoc]
    exact .next piece ih

theorem Piece.restyle (h : Piece σ gs cs) (bars : ∀ w, σ.bars w → τ.bars w)
    (joins : ∀ op, .operator op ∈ gs → σ.joins op → τ.joins op) : Piece τ gs cs := by
  cases h with
  | name ascii => exact .name ascii
  | barred ascii barred => exact .barred ascii (bars _ barred)
  | sign hsign => exact .sign hsign
  | operator binary joined => exact .operator binary (joins _ (by simp) joined)

/-- A text is in any style that allows its bars and its operators. -/
theorem Rendered.restyle (h : Rendered σ fs cs) (bars : ∀ w, σ.bars w → τ.bars w)
    (joins : ∀ op, .operator op ∈ fs → σ.joins op → τ.joins op) : Rendered τ fs cs := by
  induction h with
  | done => exact .done
  | next piece _ ih =>
    refine .next (piece.restyle bars (fun op hop => joins op (List.mem_append_left _ hop))) ?_
    exact ih (fun op hop => joins op (List.mem_append_right _ hop))

/-- Every operator is seen by its glyph. -/
theorem Rendered.glyph_mem (h : Rendered σ fs cs) {op : Operator} (hop : .operator op ∈ fs) :
    op.glyph ∈ cs := by
  induction h with
  | done => cases hop
  | next piece _ ih =>
    rcases List.mem_append.mp hop with hop | hop
    · refine List.mem_append_left _ ?_
      cases piece with
      | name _ => simp at hop
      | barred _ _ => simp at hop
      | sign hsign =>
        cases List.mem_singleton.mp hop
        cases hsign
      | operator _ _ =>
        cases List.mem_singleton.mp hop
        simp
    · exact List.mem_append_right _ (ih hop)

/-! ## Bare and barred names -/

theorem wordLike_of_isAsciiName {w : String} (h : isAsciiName w) :
    w.toList ≠ [] ∧ ∀ c ∈ w.toList, WordLike c := by
  obtain ⟨hne, hall⟩ := isAsciiName_iff.mp h
  exact ⟨hne, fun c hc => wordLike_of_ascii (hall c hc)⟩

/-- Text in which only names of one character are barred can be read. -/
theorem Piece.written (short : ∀ w, σ.bars w → w.length ≤ 1) (h : Piece σ gs cs) :
    Written gs cs := by
  cases h with
  | name ascii => exact Lexeme.written (.name ascii)
  | @barred w ascii barred =>
    obtain ⟨hne, hall⟩ := isAsciiName_iff.mp ascii
    obtain ⟨c, rfl⟩ := exists_eq_singleton hne (short w barred)
    rw [String.toList_singleton] at hall ⊢
    exact Lexeme.written (.barred (hall c (by simp)))
  | sign hsign => exact Fragment.written_sign (Fragment.mem_signs_of_sign? hsign)
  | @operator op binary _ =>
    rw [← op.toList_separator]
    exact Operator.written_separator binary

theorem Rendered.written (short : ∀ w, σ.bars w → w.length ≤ 1) (h : Rendered σ fs cs) :
    Written fs cs := by
  induction h with
  | done => exact .done rfl
  | next piece _ ih => exact (piece.written short).append ih

/-! ## What comes first -/

theorem Text.head?_putBar (cs : List Char) : (Text.putBar cs).head? = cs.head? := by
  obtain ⟨mark, -, barred⟩ := Text.exists_putBar_eq cs
  rw [barred]
  cases cs <;> rfl

theorem Piece.unmarked (h : Piece σ gs cs) (rest : List Char) : Unmarked (cs ++ rest) := by
  -- what comes first in the piece comes first in all of it
  have first : cs ≠ [] ∧ Unmarked cs := by
    cases h with
    | name ascii =>
      obtain ⟨hne, word⟩ := wordLike_of_isAsciiName ascii
      exact ⟨hne, fun c hc => (word c (List.mem_of_mem_head? hc)).bar⟩
    | @barred w ascii _ =>
      obtain ⟨hne, word⟩ := wordLike_of_isAsciiName ascii
      refine ⟨fun none => hne ?_, fun c hc => ?_⟩
      · have head := Text.head?_putBar w.toList
        rw [none] at head
        exact List.head?_eq_none_iff.mp head.symm
      · rw [Text.head?_putBar] at hc
        exact (word c (List.mem_of_mem_head? hc)).bar
    | sign hsign =>
      refine ⟨by simp, fun c hc => ?_⟩
      cases hc
      exact (signOf_of_mem (Fragment.mem_signs_of_sign? hsign)).bar
    | operator _ _ =>
      refine ⟨by simp, fun c hc => ?_⟩
      cases hc
      decide
  intro c hc
  rw [List.head?_append_of_ne_nil _ first.1] at hc
  exact first.2 c hc

theorem Alternates.of_piece {after : Bool} (h : Piece σ gs cs)
    (turns : Alternates after (gs ++ fs)) : ∃ after', Alternates after' fs := by
  cases h with
  | name _ => exact ⟨_, turns.2⟩
  | barred _ _ => exact ⟨_, turns.2.2⟩
  | sign _ => exact ⟨_, turns.2⟩
  | operator _ _ => exact ⟨_, turns.2⟩

/-- No text begins with a mark. -/
theorem Rendered.unmarked (h : Rendered σ fs cs) : Unmarked cs := by
  cases h with
  | done => exact fun c hc => by cases hc
  | next piece _ => exact piece.unmarked _

/-- Where an operand has ended, no word begins. -/
theorem Rendered.wordless (h : Rendered σ fs cs) (turns : Alternates true fs) :
    ∀ c ∈ cs.head?, Text.isWordChar c = false := by
  cases h with
  | done => exact fun c hc => by cases hc
  | next piece _ =>
    cases piece with
    | name _ => cases turns.1
    | barred _ _ => cases turns.1
    | sign hsign =>
      intro c hc
      cases hc
      exact (signOf_of_mem (Fragment.mem_signs_of_sign? hsign)).word
    | operator _ _ =>
      intro c hc
      cases hc
      decide

/-! ## Parentheses -/

theorem Piece.nestingFrom_append (h : Piece σ gs cs)
    (hrest : ∀ opened, Text.nestingFrom opened rest = Fragment.nestingFrom opened fs)
    (opened : Nat) :
    Text.nestingFrom opened (cs ++ rest) = Fragment.nestingFrom opened (gs ++ fs) := by
  cases h with
  | name ascii =>
    obtain ⟨-, word⟩ := wordLike_of_isAsciiName ascii
    rw [Text.nestingFrom_append (fun c hc => (word c hc).apart.2.2), hrest]
    rfl
  | @barred w ascii _ =>
    obtain ⟨-, word⟩ := wordLike_of_isAsciiName ascii
    obtain ⟨mark, hmark, barred⟩ := Text.exists_putBar_eq w.toList
    have apart : ∀ d ∈ Text.putBar w.toList, d ≠ '(' ∧ d ≠ ')' := by
      intro d hd
      rw [barred] at hd
      obtain ⟨c, hc, hd⟩ := List.mem_flatMap.mp hd
      rcases List.mem_cons.mp hd with rfl | hd
      · exact (word d hc).apart.2.2
      · rw [List.mem_singleton.mp hd]
        exact (isBarMark_apart hmark).2.2
    rw [Text.nestingFrom_append apart, hrest]
    rfl
  | @sign f c hsign =>
    exact Spelling.nestingFrom_append (.sign (Fragment.mem_signs_of_sign? hsign)) hrest opened
  | @operator op _ _ =>
    have apart : ∀ d ∈ [' ', op.glyph, ' '], d ≠ '(' ∧ d ≠ ')' := by
      cases op <;> simp [Operator.glyph]
    rw [Text.nestingFrom_append apart, hrest]
    rfl

theorem Rendered.nestingFrom_eq (h : Rendered σ fs cs) (opened : Nat) :
    Text.nestingFrom opened cs = Fragment.nestingFrom opened fs := by
  induction h generalizing opened with
  | done => rfl
  | next piece _ ih => exact piece.nestingFrom_append ih opened

/-- A rendered sentence is nested as deep as its text. -/
theorem Rendered.nesting_eq {s : Sentence Atom} {text : String}
    (h : Rendered σ s.fragments text.toList) : s.nesting = Text.nesting text := by
  rw [Text.nesting, h.nestingFrom_eq, s.nestingFrom_eq]

end

/-! ## Phrases and sentences of a value -/

/-- The text renders a phrase with this value, whose names are among `names`. -/
def RendersPhrase (σ : Style) (v : String → Bool) (names : List String) (text : String)
    (b : Bool) : Prop :=
  ∃ p : Phrase String, Rendered σ (p.map Atom.name).fragments text.toList ∧ p.value v = b ∧
    ∀ n ∈ p.atoms, n ∈ names

/-- The text renders a sentence with this value, whose names are among `names`. -/
def RendersSentence (σ : Style) (v : String → Bool) (names : List String) (text : String)
    (b : Bool) : Prop :=
  ∃ s : Sentence String, Rendered σ (s.map Atom.name).fragments text.toList ∧ s.value v = b ∧
    ∀ n ∈ s.atoms, n ∈ names

section

variable {σ : Style} {v : String → Bool} {names : List String} {text text' : String} {a b : Bool}

theorem RendersPhrase.sentence (h : RendersPhrase σ v names text b) :
    RendersSentence σ v names text b := by
  obtain ⟨p, rendered, value, atoms⟩ := h
  exact ⟨.single p, rendered, value, atoms⟩

theorem RendersPhrase.name {n : String} (hn : n ∈ names) (ascii : isAsciiName n) :
    RendersPhrase σ v names n (v n) := by
  refine ⟨.atom n, Piece.rendered (.name ascii), rfl, ?_⟩
  intro m hm
  rwa [List.mem_singleton.mp hm]

/-- A bar over a name negates it. -/
theorem RendersPhrase.barred {n : String} (hn : n ∈ names) (ascii : isAsciiName n)
    (hbar : σ.bars n) : RendersPhrase σ v names (Text.bar n) (!v n) := by
  obtain ⟨hne, word⟩ := wordLike_of_isAsciiName ascii
  refine ⟨.negated (.atom n), ?_, rfl, ?_⟩
  · rw [(Text.bar_bare hne (fun c hc => (word c hc).bar)).1, String.toList_ofList]
    exact Piece.rendered (.barred ascii hbar)
  · intro m hm
    rwa [List.mem_singleton.mp hm]

theorem RendersPhrase.negated (h : RendersPhrase σ v names text b) :
    RendersPhrase σ v names (Operator.not.glyph.toString ++ text) (!b) := by
  obtain ⟨p, rendered, value, atoms⟩ := h
  refine ⟨.negated p, ?_, congrArg (!·) value, atoms⟩
  have sign : Rendered σ [.negation] [Operator.not.glyph] := Piece.rendered (.sign rfl)
  rw [String.toList_append, Char.toString, String.toList_singleton]
  exact sign.append rendered

theorem RendersSentence.grouped (h : RendersSentence σ v names text b) :
    RendersPhrase σ v names ("(" ++ text ++ ")") b := by
  obtain ⟨s, rendered, value, atoms⟩ := h
  refine ⟨.group s, ?_, value, atoms⟩
  have opening : Rendered σ [.opening] ['('] := Piece.rendered (.sign rfl)
  have closing : Rendered σ [.closing] [')'] := Piece.rendered (.sign rfl)
  rw [String.toList_append, String.toList_append]
  have whole := (opening.append rendered).append closing
  simpa [Phrase.map, Phrase.fragments] using whole

theorem RendersSentence.extended {op : Operator} (hop : op ≠ .not) (joins : σ.joins op)
    (h : RendersSentence σ v names text a) (h' : RendersPhrase σ v names text' b) :
    RendersSentence σ v names (text ++ op.separator ++ text') (op.apply a b) := by
  obtain ⟨s, rendered, value, atoms⟩ := h
  obtain ⟨p, rendered', value', atoms'⟩ := h'
  have sign : Rendered σ [.operator op] op.separator.toList := by
    rw [op.toList_separator]
    exact Piece.rendered (.operator hop joins)
  refine ⟨.extend s op p, ?_, ?_, ?_⟩
  · rw [String.toList_append, String.toList_append]
    have whole := (rendered.append sign).append rendered'
    simpa [Sentence.map, Sentence.fragments] using whole
  · rw [Sentence.value, value, value']
  · intro n hn
    exact (List.mem_append.mp hn).elim (atoms n) (atoms' n)

/-! ## Joined texts -/

/-- Where an operator has a result for several values, it takes them from left to right. -/
theorem Operator.combine_cons_eq_some {op : Operator} (hop : op ≠ .not) {r : Bool} {bs : List Bool}
    (h : op.combine (b :: bs) = some r) : bs.foldl op.apply b = r := by
  cases op with
  | and => exact Option.some.inj h
  | or => exact Option.some.inj h
  | xor => exact Option.some.inj h
  | nand => rcases bs with _ | ⟨c, _ | ⟨d, bs⟩⟩ <;> cases h <;> rfl
  | nor => rcases bs with _ | ⟨c, _ | ⟨d, bs⟩⟩ <;> cases h <;> rfl
  | xnor => rcases bs with _ | ⟨c, _ | ⟨d, bs⟩⟩ <;> cases h <;> rfl
  | not => exact absurd rfl hop

theorem RendersSentence.extendedBy {op : Operator} (hop : op ≠ .not) (joins : σ.joins op)
    {pieces : List String} {bs : List Bool} (h : RendersSentence σ v names text a)
    (hp : List.Forall₂ (RendersPhrase σ v names) pieces bs) :
    RendersSentence σ v names (op.separator.intercalate (text :: pieces))
      (bs.foldl op.apply a) := by
  induction hp generalizing text a with
  | nil =>
    rw [String.intercalate_singleton]
    exact h
  | cons piece _ ih =>
    rw [String.intercalate_cons_cons, ← String.intercalate_cons_append]
    exact ih (h.extended hop joins piece)

/-- Phrases joined by an operator are a sentence, where the operator has a result. -/
theorem rendersSentence_intercalate {op : Operator} (hop : op ≠ .not) (joins : σ.joins op)
    {pieces : List String} {bs : List Bool} {r : Bool}
    (h : List.Forall₂ (RendersPhrase σ v names) pieces bs) (hr : op.combine bs = some r) :
    RendersSentence σ v names (op.separator.intercalate pieces) r := by
  cases h with
  | nil => cases op <;> cases hr
  | cons piece rest =>
    rw [← Operator.combine_cons_eq_some hop hr]
    exact piece.sentence.extendedBy hop joins rest

end

end SwitchingAlgebra
