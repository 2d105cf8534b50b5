-- What the parser accepts is derived by its grammar: a formula of operands that binary operators
-- join from left to right. Behind every accepted text there is a sentence whose core it is read
-- into.
import SwitchingAlgebra.Proofs.Parses
import SwitchingAlgebra.Proofs.Scanning
import SwitchingAlgebra.Proofs.Tokens

namespace SwitchingAlgebra

/-! ## Sentences in front of fragments -/

/-- Fragments, each in a token that spells it; the one of a barred name spells two. -/
inductive Tokenized : List Fragment → List (List Char) → Prop
  | nil : Tokenized [] []
  | cons {gs fs : List Fragment} {t : List Char} {ts : List (List Char)} : Spelling gs t →
      Tokenized fs ts → Tokenized (gs ++ fs) (t :: ts)

theorem Lexed.exists_tokens {fs : List Fragment} {cs : List Char} (h : Lexed fs cs) :
    ∃ ts, Tokenized fs ts ∧ ts.flatten = cs := by
  induction h with
  | nil => exact ⟨[], .nil, rfl⟩
  | cons spelling _ ih =>
    obtain ⟨ts, tokenized, rfl⟩ := ih
    exact ⟨_ :: ts, .cons spelling tokenized, rfl⟩

/-- A phrase stands in front of the fragments `fs'`, which take their turns behind it with so
many parentheses open. It is an operand of the grammar, with as many parentheses as may still
be opened. -/
structure PhraseAhead (opened : Nat) (fs : List Fragment) (ts : List (List Char))
    (p : Phrase String) (us : List (List Char)) (fs' : List Fragment) (ts' : List (List Char)) :
    Prop where
  fragments : fs = (p.map Atom.name).fragments ++ fs'
  tokens : ts = us ++ ts'
  tokenized : Tokenized fs' ts'
  turns : Alternates true fs'
  balanced : Balanced opened fs'
  nesting : opened + p.nesting ≤ maxNestingDepth
  unary : UnaryTokens (maxNestingDepth - opened) us

/-- A sentence stands in front of the fragments `fs'`. -/
structure SentenceAhead (opened : Nat) (fs : List Fragment) (ts : List (List Char))
    (s : Sentence String) (us : List (List Char)) (fs' : List Fragment)
    (ts' : List (List Char)) : Prop where
  fragments : fs = (s.map Atom.name).fragments ++ fs'
  tokens : ts = us ++ ts'
  tokenized : Tokenized fs' ts'
  turns : Alternates true fs'
  balanced : Balanced opened fs'
  nesting : opened + s.nesting ≤ maxNestingDepth
  formula : FormulaTokens (maxNestingDepth - opened) us

section

variable {opened : Nat} {fs fs' : List Fragment} {ts us ts' : List (List Char)}

theorem PhraseAhead.single {p : Phrase String} (h : PhraseAhead opened fs ts p us fs' ts') :
    SentenceAhead opened fs ts (.single p) us fs' ts' :=
  ⟨h.fragments, h.tokens, h.tokenized, h.turns, h.balanced, h.nesting, .single h.unary⟩

/-- One more operand joins a sentence. -/
theorem SentenceAhead.extend {s : Sentence String} {op : Operator} {gs : List Fragment}
    {sign : List Char} {vs vs' ts'' : List (List Char)} {p : Phrase String}
    (h : SentenceAhead opened fs ts s us (.operator op :: gs) (sign :: vs))
    (hsign : sign ∈ binarySigns) (next : PhraseAhead opened gs vs p vs' fs' ts'') :
    SentenceAhead opened fs ts (.extend s op p) (us ++ sign :: vs') fs' ts'' where
  fragments := by
    rw [h.fragments, next.fragments, Sentence.map, Sentence.fragments, List.append_assoc]
    rfl
  tokens := by
    rw [h.tokens, next.tokens]
    simp
  tokenized := next.tokenized
  turns := next.turns
  balanced := next.balanced
  nesting := by
    have first := h.nesting
    have second := next.nesting
    rw [Sentence.nesting]
    omega
  formula := .extend h.formula hsign next.unary

/-- A negation joins a phrase. -/
theorem PhraseAhead.negated {p : Phrase String} {sign : Char}
    (h : PhraseAhead opened fs ts p us fs' ts') (hsign : sign ∈ ['~', '!', '¬']) :
    PhraseAhead opened (.negation :: fs) ([sign] :: ts) (.negated p) ([sign] :: us) fs' ts' where
  fragments := by
    rw [h.fragments]
    rfl
  tokens := by
    rw [h.tokens]
    rfl
  tokenized := h.tokenized
  turns := h.turns
  balanced := h.balanced
  nesting := h.nesting
  unary := .negated hsign h.unary

/-- A sentence between parentheses is a phrase. -/
theorem SentenceAhead.group {s : Sentence String}
    (h : SentenceAhead (opened + 1) fs ts s us (.closing :: fs') ([')'] :: ts'))
    (room : opened < maxNestingDepth) (tokenized : Tokenized fs' ts') :
    PhraseAhead opened (.opening :: fs) (['('] :: ts) (.group s) (['('] :: (us ++ [[')']])) fs'
      ts' where
  fragments := by
    rw [h.fragments, Phrase.map, Phrase.fragments]
    simp
  tokens := by
    rw [h.tokens]
    simp
  tokenized := tokenized
  turns := h.turns.2
  balanced := h.balanced.2
  nesting := by
    have := h.nesting
    rw [Phrase.nesting]
    omega
  unary := by
    have depth : maxNestingDepth - opened = maxNestingDepth - (opened + 1) + 1 := by omega
    rw [depth]
    exact .group h.formula

/-- An operator that comes next stands in front of what is spelled behind it. -/
theorem Tokenized.of_operator {op : Operator} (h : Tokenized (.operator op :: fs) ts) :
    ∃ sign ts', sign ∈ binarySigns ∧ ts = sign :: ts' ∧ Tokenized fs ts' := by
  generalize hgs : Fragment.operator op :: fs = gs at h
  cases h with
  | nil => cases hgs
  | @cons gs fs' t ts' spelling rest =>
    cases spelling with
    | name _ _ => cases hgs
    | @sign f c hc =>
      cases hgs
      exact ⟨[c], ts', mem_binarySigns hc, rfl, rest⟩
    | doubledAnd =>
      cases hgs
      exact ⟨['&', '&'], ts', by decide, rfl, rest⟩
    | doubledOr =>
      cases hgs
      exact ⟨['|', '|'], ts', by decide, rfl, rest⟩
    | barred _ _ => cases hgs

theorem Tokenized.of_closing (h : Tokenized (.closing :: fs) ts) :
    ∃ ts', ts = [')'] :: ts' ∧ Tokenized fs ts' := by
  generalize hgs : Fragment.closing :: fs = gs at h
  cases h with
  | nil => cases hgs
  | @cons gs fs' t ts' spelling rest =>
    cases spelling with
    | name _ _ => cases hgs
    | @sign f c hc =>
      cases hgs
      obtain rfl := List.mem_singleton.mp hc
      exact ⟨ts', rfl, rest⟩
    | doubledAnd => cases hgs
    | doubledOr => cases hgs
    | barred _ _ => cases hgs

theorem Tokenized.of_nil (h : Tokenized [] ts) : ts = [] := by
  generalize hfs : ([] : List Fragment) = fs at h
  cases h with
  | nil => rfl
  | cons spelling _ => cases spelling <;> cases hfs

/-- What follows an operand is nothing, an operator or a closing parenthesis. -/
theorem Tokenized.behind_operand (h : Tokenized fs ts) (turns : Alternates true fs) :
    fs = [] ∨ (∃ op gs, fs = .operator op :: gs) ∨ ∃ gs, fs = .closing :: gs := by
  cases h with
  | nil => exact .inl rfl
  | cons spelling rest =>
    cases spelling with
    | name _ _ => cases turns.1
    | @sign f c hc =>
      cases f with
      | operator op => exact .inr (.inl ⟨op, _, rfl⟩)
      | closing => exact .inr (.inr ⟨_, rfl⟩)
      | negation => cases turns.1
      | opening => cases turns.1
      | name w => cases hc
      | place k => cases hc
      | stray d => cases hc
    | doubledAnd => exact .inr (.inl ⟨.and, _, rfl⟩)
    | doubledOr => exact .inr (.inl ⟨.or, _, rfl⟩)
    | barred _ _ => cases turns.1

/-- Where phrases can be read, a sentence is read on until no operator follows. -/
theorem SentenceAhead.exists_end {n : Nat}
    (phrase : ∀ {fs : List Fragment} {ts : List (List Char)}, fs.length < n → Tokenized fs ts →
      Alternates false fs → Balanced opened fs →
      ∃ p us fs' ts', PhraseAhead opened fs ts p us fs' ts')
    {s : Sentence String} (h : SentenceAhead opened fs ts s us fs' ts') (short : fs'.length ≤ n) :
    ∃ s us fs' ts', SentenceAhead opened fs ts s us fs' ts' ∧
      (fs' = [] ∨ ∃ gs, fs' = .closing :: gs) := by
  induction hn : fs'.length using Nat.strongRecOn generalizing s us fs' ts' with
  | ind m ih =>
    rcases h.tokenized.behind_operand h.turns with rfl | ⟨op, gs, rfl⟩ | ⟨gs, rfl⟩
    · exact ⟨s, us, [], ts', h, .inl rfl⟩
    · obtain ⟨sign, vs, hsign, rfl, tokenized⟩ := h.tokenized.of_operator
      rw [List.length_cons] at hn short
      obtain ⟨p, vs', fs'', ts'', next⟩ := phrase (by omega) tokenized h.turns.2 h.balanced
      have shorter : fs''.length ≤ gs.length := by
        rw [next.fragments, List.length_append]
        omega
      exact ih _ (by omega) (h.extend hsign next) (by omega) rfl
    · exact ⟨s, us, _, ts', h, .inr ⟨gs, rfl⟩⟩

/-- Fragments in turn and in balance begin with a phrase. -/
theorem Tokenized.exists_phrase (h : Tokenized fs ts) (turns : Alternates false fs)
    (balanced : Balanced opened fs) (deep : opened ≤ maxNestingDepth) :
    ∃ p us fs' ts', PhraseAhead opened fs ts p us fs' ts' := by
  induction hn : fs.length using Nat.strongRecOn generalizing opened fs ts with
  | ind n ih =>
    cases h with
    | nil => cases turns
    | @cons gs fs t ts spelling rest =>
      cases spelling with
      | name hne hw =>
        exact ⟨.atom _, [t], fs, ts, rfl, rfl, rest, turns.2, balanced, deep,
          .name hne (fun c hc => (hw c hc).name)⟩
      | @barred c mark hc hmark =>
        exact ⟨.negated (.atom _), _, fs, ts, rfl, rfl, rest, turns.2.2, balanced, deep,
          .barred hc.name hmark⟩
      | doubledAnd => cases turns.1
      | doubledOr => cases turns.1
      | @sign f c hc =>
        rw [List.singleton_append, List.length_cons] at hn
        cases f with
        | name w => cases hc
        | place k => cases hc
        | stray d => cases hc
        | operator op => cases turns.1
        | closing => cases turns.1
        | negation =>
          obtain ⟨p, us, fs', ts', ahead⟩ := ih _ (by omega) rest turns.2 balanced deep rfl
          exact ⟨.negated p, [c] :: us, fs', ts', ahead.negated hc⟩
        | opening =>
          obtain rfl := List.mem_singleton.mp hc
          obtain ⟨room, balanced⟩ := balanced
          have inside : ∀ {fs : List Fragment} {ts : List (List Char)}, fs.length < n →
              Tokenized fs ts → Alternates false fs → Balanced (opened + 1) fs →
              ∃ p us fs' ts', PhraseAhead (opened + 1) fs ts p us fs' ts' :=
            fun short tokenized turns balanced => ih _ short tokenized turns balanced room rfl
          obtain ⟨p, us, fs', ts', first⟩ := inside (by omega) rest turns.2 balanced
          have shorter : fs'.length ≤ fs.length := by
            rw [first.fragments, List.length_append]
            omega
          obtain ⟨s, us, fs', ts', ahead, hend⟩ := first.single.exists_end inside (by omega)
          rcases hend with rfl | ⟨gs, rfl⟩
          · -- the parenthesis is never closed
            cases ahead.balanced
          · obtain ⟨ts', rfl, tokenized⟩ := ahead.tokenized.of_closing
            exact ⟨.group s, _, gs, ts', ahead.group room tokenized⟩

/-- Fragments in turn and in balance are a sentence. -/
theorem Tokenized.exists_sentence (h : Tokenized fs ts) (turns : Alternates false fs)
    (balanced : Balanced 0 fs) : ∃ s : Sentence String, fs = (s.map Atom.name).fragments ∧
      s.nesting ≤ maxNestingDepth ∧ FormulaTokens maxNestingDepth ts := by
  obtain ⟨p, us, fs', ts', first⟩ := h.exists_phrase turns balanced (Nat.zero_le _)
  obtain ⟨s, us, fs', ts', ahead, hend⟩ := first.single.exists_end
    (fun _ tokenized turns balanced => tokenized.exists_phrase turns balanced (Nat.zero_le _))
    (Nat.le_refl _)
  rcases hend with rfl | ⟨gs, rfl⟩
  · refine ⟨s, by rw [ahead.fragments, List.append_nil], by simpa using ahead.nesting, ?_⟩
    rw [ahead.tokens, ahead.tokenized.of_nil, List.append_nil]
    exact ahead.formula
  · -- no parenthesis is open that could be closed
    cases ahead.balanced.1

end

/-! ## What the parser accepts -/

theorem Lexed.wordLike_of_mem {fs : List Fragment} {cs : List Char} (h : Lexed fs cs) {w : String}
    (hw : .name w ∈ fs) : w.toList ≠ [] ∧ ∀ c ∈ w.toList, WordLike c := by
  induction h with
  | nil => cases hw
  | @cons gs fs ds cs spelling _ ih =>
    rcases List.mem_append.mp hw with hw | hw
    · cases spelling with
      | name hne hall =>
        cases List.mem_singleton.mp hw
        rw [String.toList_ofList]
        exact ⟨hne, hall⟩
      | sign hc =>
        cases List.mem_singleton.mp hw
        cases hc
      | doubledAnd => simp at hw
      | doubledOr => simp at hw
      | @barred c mark hc _ =>
        have single : w = String.singleton c := by simpa using hw
        rw [single, String.toList_singleton]
        exact ⟨by simp, by simpa using hc⟩
    · exact ih hw

mutual

theorem Phrase.mem_fragments {w : String} : ∀ p : Phrase String, w ∈ p.atoms →
    .name w ∈ (p.map Atom.name).fragments
  | .atom _, h => by
    obtain rfl := List.mem_singleton.mp h
    exact List.mem_singleton_self _
  | .negated p, h => List.mem_cons_of_mem _ (Phrase.mem_fragments p h)
  | .group s, h => List.mem_cons_of_mem _ (List.mem_append_left _ (Sentence.mem_fragments s h))

theorem Sentence.mem_fragments {w : String} : ∀ s : Sentence String, w ∈ s.atoms →
    .name w ∈ (s.map Atom.name).fragments
  | .single p, h => Phrase.mem_fragments p h
  | .extend s _ p, h => (List.mem_append.mp h).elim
    (fun h => List.mem_append_left _ (Sentence.mem_fragments s h))
    (fun h => List.mem_append_right _ (List.mem_cons_of_mem _ (Phrase.mem_fragments p h)))

end

namespace Expression

/-- The text was written as this sentence, and the expression was read from its core. -/
structure IsReadFrom (e : Expression) (s : Sentence String) (text : String) : Prop where
  fragments : Fragment.ofText text = (s.map Atom.name).fragments
  lexed : Lexed (s.map Atom.name).fragments (text.toList.filter (!Text.isBlank ·))
  nesting : s.nesting ≤ maxNestingDepth
  gapless : (Text.spaced false text.toList).IsChain Text.Gapless
  tokens : ∃ ts, FormulaTokens maxNestingDepth ts ∧
    ts.flatten = text.toList.filter (!Text.isBlank ·)
  read : e = s.core.expression s.core.mixedNames

/-- Whatever is read was written as a sentence. -/
theorem exists_isReadFrom {text : String} {e : Expression} (h : parse text = .ok e) :
    ∃ s : Sentence String, e.IsReadFrom s text := by
  unfold parse at h
  split at h
  · cases h
  · cases h
  · rename_i valid
    split at h
    · rename_i e' hread
      cases h
      have turns := run?_of_ofFragments hread
      have passes := Validation.passes_of_validate valid
      have unmarked : Unmarked (text.toList.filter (!Text.isBlank ·)) := by
        intro c hc
        obtain ⟨cs, hcs⟩ := List.head?_eq_some_iff.mp hc
        rw [hcs] at passes
        cases bar : Text.isBarMark c with
        | false => rfl
        | true =>
          obtain ⟨b, hb, -⟩ := passes.1.bar bar
          cases hb
      have lexed : Lexed (Fragment.ofText text) (text.toList.filter (!Text.isBlank ·)) :=
        passes.lexed unmarked (Turn.strayless turns)
      obtain ⟨alternates, balanced⟩ := lexed.alternates passes turns
      obtain ⟨ts, tokenized, flatten⟩ := lexed.exists_tokens
      obtain ⟨s, fragments, nesting, formula⟩ := tokenized.exists_sentence alternates balanced
      have read := ofFragments_core s
      rw [← fragments, hread] at read
      exact ⟨s, fragments, fragments ▸ lexed, nesting, Validation.gapless_of_validate valid,
        ⟨ts, formula, flatten⟩, Except.ok.inj read⟩
    · cases h

/-- The parser accepts only what its grammar derives. The tokens of an accepted text are those of
a formula, so that no operand and no operator is missing between them. Blanks divide tokens here,
but for the two characters of a doubled sign: these may stand apart. -/
theorem formulaTokens_of_parse {text : String} {e : Expression} (h : parse text = .ok e) :
    (Text.tokens true text).flatten = text.toList.filter (!Text.isBlank ·) ∧
      FormulaTokens maxNestingDepth (Text.tokens true text) ∧
      InTurn false (Text.tokens true text) ∧
      (Text.Undivided text → Text.tokens false text = Text.tokens true text) := by
  obtain ⟨_, readFrom⟩ := exists_isReadFrom h
  obtain ⟨ts, formula, flatten⟩ := readFrom.tokens
  have cut : ∀ {loose : Bool}, (loose = false → Text.Undivided text) →
      Text.tokens loose text = ts := by
    intro loose whole
    rw [Text.tokens_eq readFrom.gapless whole, ← flatten, formula.splitBy_flatten]
  have loose : Text.tokens true text = ts := cut nofun
  refine ⟨Text.flatten_tokens true text, ?_⟩
  rw [loose]
  exact ⟨formula, formula.inTurn_false, fun undivided => cut (fun _ => undivided)⟩

/-- A barred name in a group, and a double negation behind a doubled sign. -/
theorem formulaTokens_of_parse_of_barred :
    ∃ e, parse "(a\u0305 + bc) && ¬ ¬d" = .ok e ∧
      Text.tokens false "(a\u0305 + bc) && ¬ ¬d" = [['('], ['a', '\u0305'], ['+'], ['b', 'c'],
        [')'], ['&', '&'], ['¬'], ['¬'], ['d']] ∧
      FormulaTokens maxNestingDepth (Text.tokens false "(a\u0305 + bc) && ¬ ¬d") ∧
      InTurn false (Text.tokens false "(a\u0305 + bc) && ¬ ¬d") := by
  have name : ∀ w, isAsciiName w → Spelling [.name w] w.toList :=
    fun _ h => (Lexeme.name h).spelling
  have barred : Spelling [.negation, .name "a"] ['a', '\u0305'] :=
    @Spelling.barred 'a' '\u0305' (wordLike_of_ascii (by decide)) (by decide)
  have spelled : Spelled [.opening, .negation, .name "a", .operator .or, .name "bc", .closing,
      .operator .and, .negation, .negation, .name "d"] "(a\u0305 + bc) && ¬ ¬d".toList :=
    @Spelled.next [] ['('] _ [_] _ rfl (.sign (by decide)) <|
    @Spelled.next [] ['a', '\u0305'] _ [_, _] _ rfl barred <|
    @Spelled.next [' '] ['+'] _ [_] _ rfl (.sign (by decide)) <|
    @Spelled.next [' '] ['b', 'c'] _ [_] _ rfl (name "bc" (by decide)) <|
    @Spelled.next [] [')'] _ [_] _ rfl (.sign (by decide)) <|
    @Spelled.next [' '] ['&', '&'] _ [_] _ rfl .doubledAnd <|
    @Spelled.next [' '] ['¬'] _ [_] _ rfl (.sign (by decide)) <|
    @Spelled.next [' '] ['¬'] _ [_] _ rfl (.sign (by decide)) <|
    @Spelled.next [] ['d'] _ [_] _ rfl (name "d" (by decide)) (@Spelled.done [] rfl)
  let f : Sentence String := .extend
    (.single (.group (.extend (.single (.negated (.atom "a"))) .or (.atom "bc")))) .and
    (.negated (.negated (.atom "d")))
  have parsed := @parse_eq_of_spelled (f.map Atom.name) _ _ spelled (by decide) (ofFragments_core f)
  obtain ⟨-, formula, turns, whole⟩ := formulaTokens_of_parse parsed
  have undivided : Text.Undivided "(a\u0305 + bc) && ¬ ¬d" := by
    unfold Text.Undivided
    decide
  rw [← whole undivided] at formula turns
  exact ⟨_, parsed, by decide, formula, turns⟩

/-- Blanks are dropped before the signs are read, so that two signs with an operand missing between
them are read as a doubled one. -/
theorem parse_can_join_signs :
    ∃ e, parse "a & & b" = .ok e ∧
      Text.tokens false "a & & b" = [['a'], ['&'], ['&'], ['b']] ∧
      ¬ FormulaTokens maxNestingDepth (Text.tokens false "a & & b") ∧
      ¬ InTurn false (Text.tokens false "a & & b") := by
  have cut : Text.tokens false "a & & b" = [['a'], ['&'], ['&'], ['b']] := by decide
  have outOfTurn : ¬ InTurn false (Text.tokens false "a & & b") := by
    rw [cut]
    rintro ⟨-, -, turn, -⟩
    exact absurd turn (by decide)
  have valid : Validation.validate "a & & b" = .ok () := by decide
  let f : Sentence String := .extend (.single (.atom "a")) .and (.atom "b")
  have fragments : Fragment.ofText "a & & b" = (f.map Atom.name).fragments := by decide
  have parsed : parse "a & & b" = .ok (f.core.expression f.core.mixedNames) := by
    rw [parse, valid, fragments, ofFragments_core]
  exact ⟨_, parsed, cut, fun formula => outOfTurn formula.inTurn_false, outOfTurn⟩

end Expression

end SwitchingAlgebra
