-- Written and spelled texts one after the other, bars over names, and how deep the parentheses
-- of a text are nested.
import SwitchingAlgebra.Proofs.Running
import SwitchingAlgebra.Proofs.Spelling
import SwitchingAlgebra.Rendering

namespace SwitchingAlgebra

/-! ## Texts one after the other -/

theorem Written.blanks_append {blanks cs : List Char} {fs : List Fragment}
    (h : blanks.all Text.isBlank) (hw : Written fs cs) : Written fs (blanks ++ cs) := by
  cases hw with
  | done hblanks => exact .done (by rw [List.all_append, h, hblanks]; rfl)
  | next hblanks lexeme rest =>
    rw [← List.append_assoc, ← List.append_assoc]
    exact .next (by rw [List.all_append, h, hblanks]; rfl) lexeme rest

theorem Written.append {cs ds : List Char} {fs gs : List Fragment} (h : Written fs cs)
    (h' : Written gs ds) : Written (fs ++ gs) (cs ++ ds) := by
  induction h with
  | done hblanks => exact h'.blanks_append hblanks
  | next hblanks lexeme _ ih =>
    rw [List.append_assoc, List.append_assoc (_ ++ _)]
    exact .next hblanks lexeme ih

theorem Spelled.blanks_append {blanks cs : List Char} {fs : List Fragment}
    (h : blanks.all Text.isBlank) (hs : Spelled fs cs) : Spelled fs (blanks ++ cs) := by
  cases hs with
  | done hblanks => exact .done (by rw [List.all_append, h, hblanks]; rfl)
  | next hblanks spelling rest =>
    rw [← List.append_assoc, ← List.append_assoc]
    exact .next (by rw [List.all_append, h, hblanks]; rfl) spelling rest

theorem Spelled.append {cs ds : List Char} {fs gs : List Fragment} (h : Spelled fs cs)
    (h' : Spelled gs ds) : Spelled (fs ++ gs) (cs ++ ds) := by
  induction h with
  | done hblanks => exact h'.blanks_append hblanks
  | next hblanks spelling _ ih =>
    rw [List.append_assoc, List.append_assoc (_ ++ _)]
    exact .next hblanks spelling ih

theorem Spelling.spelled {fs : List Fragment} {cs : List Char} (h : Spelling fs cs) :
    Spelled fs cs := by
  have alone := @Spelled.next [] cs [] fs [] rfl h (.done rfl)
  simpa using alone

theorem Lexeme.written {fs : List Fragment} {cs : List Char} (h : Lexeme fs cs) :
    Written fs cs := by
  have alone := @Written.next [] cs [] fs [] rfl h (.done rfl)
  simpa using alone

theorem Fragment.written_sign {f : Fragment} {c : Char} (h : c ∈ f.signs) : Written [f] [c] :=
  Lexeme.written (.sign h)

/-! ## Bars over names -/

theorem exists_eq_singleton {w : String} (hne : w.toList ≠ []) (short : w.length ≤ 1) :
    ∃ c, w = String.singleton c := by
  rw [← String.length_toList] at short
  rcases hcs : w.toList with _ | ⟨c, _ | ⟨d, cs⟩⟩
  · exact absurd hcs hne
  · exact ⟨c, by rw [← String.ofList_toList (s := w), hcs, String.singleton_eq_ofList]⟩
  · rw [hcs] at short
    simp at short

namespace Text

/-- A bar is one mark, over each character. -/
theorem exists_putBar_eq (cs : List Char) :
    ∃ mark, isBarMark mark = true ∧ putBar cs = cs.flatMap (fun c => [c, mark]) := by
  match cs with
  | [] => exact ⟨macron, by decide, rfl⟩
  | [c] => exact ⟨macron, by decide, rfl⟩
  | c :: d :: cs => exact ⟨overline, by decide, rfl⟩

theorem stripBars_putBar {cs : List Char} (bare : ∀ c ∈ cs, isBarMark c = false) :
    stripBars (putBar cs) = cs := by
  obtain ⟨mark, hmark, barred⟩ := exists_putBar_eq cs
  rw [barred]
  clear barred
  induction cs with
  | nil => rfl
  | cons c cs ih =>
    rw [List.forall_mem_cons] at bare
    have rest := ih bare.2
    simp only [stripBars] at rest
    simp [stripBars, bare.1, hmark, rest]

/-- A bar goes over a bare name, and comes off again. -/
theorem bar_bare {w : String} (hne : w.toList ≠ []) (bare : ∀ c ∈ w.toList, isBarMark c = false) :
    bar w = String.ofList (putBar w.toList) ∧ bar (String.ofList (putBar w.toList)) = w := by
  have unmarked : w.toList.any isBarMark = false := by simpa using bare
  have marked : (putBar w.toList).any isBarMark = true := by
    obtain ⟨mark, hmark, barred⟩ := exists_putBar_eq w.toList
    obtain ⟨c, hc⟩ := List.exists_mem_of_ne_nil _ hne
    rw [barred]
    exact List.any_eq_true.mpr ⟨mark, List.mem_flatMap.mpr ⟨c, hc, by simp⟩, hmark⟩
  constructor
  · simp [bar, unmarked]
  · rw [bar, String.toList_ofList]
    simp [marked, stripBars_putBar bare]

end Text

/-- A bar goes over a name of one character, and comes off again. -/
theorem Text.bar_singleton {c : Char} (bare : Text.isBarMark c = false) :
    Text.bar (String.singleton c) = String.ofList [c, Text.macron] ∧
      Text.bar (String.ofList [c, Text.macron]) = String.singleton c := by
  have whole := Text.bar_bare (w := String.singleton c) (by simp) (by simpa using bare)
  rwa [String.toList_singleton] at whole

/-! ## Signs of operators -/

theorem Operator.toList_separator (op : Operator) :
    op.separator.toList = [' ', op.glyph, ' '] := by
  rw [separator, String.toList_append, String.toList_append, Char.toString,
    String.toList_singleton]
  rfl

theorem Operator.written_separator {op : Operator} (h : op ≠ .not) :
    Written [.operator op] op.separator.toList := by
  have sign : op.glyph ∈ op.signs := by
    cases op <;> first | exact absurd rfl h | decide
  have lexeme : Lexeme [.operator op] [op.glyph] := .sign sign
  have spaced := @Written.next [' '] [op.glyph] [' '] [.operator op] [] rfl lexeme (.done rfl)
  rw [op.toList_separator]
  exact spaced

/-! ## Parentheses in a text -/

namespace Text

/-- The most parentheses that are open at once, `opened` of them from before. -/
def nestingFrom (opened : Nat) : List Char → Nat
  | [] => opened
  | '(' :: cs => nestingFrom (opened + 1) cs
  | ')' :: cs => max opened (nestingFrom (opened - 1) cs)
  | _ :: cs => nestingFrom opened cs

/-- How deep parentheses are nested in a text. -/
def nesting (text : String) : Nat := nestingFrom 0 text.toList

theorem nestingFrom_cons {c : Char} (h : c ≠ '(') (h' : c ≠ ')') (opened : Nat) (cs : List Char) :
    nestingFrom opened (c :: cs) = nestingFrom opened cs := by
  rw [nestingFrom]
  · rintro rfl
    exact h rfl
  · rintro rfl
    exact h' rfl

theorem nestingFrom_append {cs : List Char} (h : ∀ c ∈ cs, c ≠ '(' ∧ c ≠ ')') (opened : Nat)
    (rest : List Char) : nestingFrom opened (cs ++ rest) = nestingFrom opened rest := by
  induction cs with
  | nil => rfl
  | cons c cs ih =>
    rw [List.forall_mem_cons] at h
    rw [List.cons_append, nestingFrom_cons h.1.1 h.1.2, ih h.2]

end Text

/-- The most parentheses that are open at once, `opened` of them from before. -/
def Fragment.nestingFrom (opened : Nat) : List Fragment → Nat
  | [] => opened
  | .opening :: fs => nestingFrom (opened + 1) fs
  | .closing :: fs => max opened (nestingFrom (opened - 1) fs)
  | _ :: fs => nestingFrom opened fs

theorem Fragment.le_nestingFrom (fs : List Fragment) (opened : Nat) :
    opened ≤ nestingFrom opened fs := by
  induction fs generalizing opened with
  | nil => exact Nat.le_refl _
  | cons f fs ih =>
    cases f with
    | opening => exact Nat.le_trans (Nat.le_succ _) (ih (opened + 1))
    | closing => exact Nat.le_max_left _ _
    | name w => exact ih opened
    | place k => exact ih opened
    | negation => exact ih opened
    | operator op => exact ih opened
    | stray c => exact ih opened

theorem Spelling.nestingFrom_append {gs fs : List Fragment} {cs rest : List Char}
    (h : Spelling gs cs)
    (hrest : ∀ opened, Text.nestingFrom opened rest = Fragment.nestingFrom opened fs)
    (opened : Nat) :
    Text.nestingFrom opened (cs ++ rest) = Fragment.nestingFrom opened (gs ++ fs) := by
  cases h with
  | name _ hw =>
    have word : ∀ c ∈ cs, c ≠ '(' ∧ c ≠ ')' := fun c hc => (hw c hc).apart.2.2
    rw [Text.nestingFrom_append word, hrest]
    rfl
  | @sign f c hc =>
    have sign := signOf_of_mem hc
    cases f with
    | opening =>
      rw [List.mem_singleton.mp hc]
      exact hrest (opened + 1)
    | closing =>
      rw [List.mem_singleton.mp hc]
      exact congrArg (max opened) (hrest (opened - 1))
    | negation =>
      obtain ⟨opening, closing⟩ := sign.apart (by simp) rfl
      rw [List.singleton_append, Text.nestingFrom_cons opening closing, hrest]
      rfl
    | operator op =>
      obtain ⟨opening, closing⟩ := sign.apart (by simp) rfl
      rw [List.singleton_append, Text.nestingFrom_cons opening closing, hrest]
      rfl
    | name w => cases hc
    | place k => cases hc
    | stray d => cases hc
  | doubledAnd =>
    rw [Text.nestingFrom_append (by simp), hrest]
    rfl
  | doubledOr =>
    rw [Text.nestingFrom_append (by simp), hrest]
    rfl
  | @barred c mark hc hmark =>
    have apart : ∀ d ∈ [c, mark], d ≠ '(' ∧ d ≠ ')' := by
      simp only [List.forall_mem_cons]
      exact ⟨hc.apart.2.2, (isBarMark_apart hmark).2.2, by simp⟩
    rw [Text.nestingFrom_append apart, hrest]
    rfl

/-- Blanks and spellings do not change how deep parentheses are nested. -/
theorem Spelled.nestingFrom_eq {fs : List Fragment} {cs : List Char} (h : Spelled fs cs)
    (opened : Nat) : Text.nestingFrom opened cs = Fragment.nestingFrom opened fs := by
  have blank : ∀ c, Text.isBlank c → c ≠ '(' ∧ c ≠ ')' := by
    intro c hc
    constructor
    · rintro rfl
      exact absurd hc (by decide)
    · rintro rfl
      exact absurd hc (by decide)
  induction h generalizing opened with
  | done hblanks =>
    have apart := Text.nestingFrom_append (fun c hc => blank c (List.all_eq_true.mp hblanks c hc))
      opened []
    rw [List.append_nil] at apart
    exact apart
  | next hblanks spelling _ ih =>
    rw [List.append_assoc,
      Text.nestingFrom_append (fun c hc => blank c (List.all_eq_true.mp hblanks c hc))]
    exact spelling.nestingFrom_append ih opened

mutual

theorem Phrase.nestingFrom_fragments : ∀ (p : Phrase Atom) (opened : Nat) (rest : List Fragment),
    Fragment.nestingFrom opened (p.fragments ++ rest) =
      max (opened + p.nesting) (Fragment.nestingFrom opened rest)
  | .atom (.name _), opened, rest =>
    (Nat.max_eq_right (Fragment.le_nestingFrom rest opened)).symm
  | .atom (.place _), opened, rest =>
    (Nat.max_eq_right (Fragment.le_nestingFrom rest opened)).symm
  | .negated p, opened, rest => Phrase.nestingFrom_fragments p opened rest
  | .group s, opened, rest => by
    have inside := Sentence.nestingFrom_fragments s (opened + 1) (.closing :: rest)
    rw [Phrase.fragments, List.cons_append, List.append_assoc, Fragment.nestingFrom,
      List.singleton_append, inside, Fragment.nestingFrom, Phrase.nesting, Nat.add_sub_cancel]
    omega

theorem Sentence.nestingFrom_fragments : ∀ (s : Sentence Atom) (opened : Nat)
    (rest : List Fragment), Fragment.nestingFrom opened (s.fragments ++ rest) =
      max (opened + s.nesting) (Fragment.nestingFrom opened rest)
  | .single p, opened, rest => Phrase.nestingFrom_fragments p opened rest
  | .extend s op p, opened, rest => by
    rw [Sentence.fragments, List.append_assoc, Sentence.nestingFrom_fragments s, List.cons_append,
      Fragment.nestingFrom, Phrase.nestingFrom_fragments p, Sentence.nesting]
    · omega
    · simp
    · simp

end

theorem Sentence.nestingFrom_eq (s : Sentence Atom) :
    Fragment.nestingFrom 0 s.fragments = s.nesting := by
  have whole := s.nestingFrom_fragments 0 []
  rw [List.append_nil, Fragment.nestingFrom] at whole
  omega

/-- A spelled sentence is nested as deep as its text. -/
theorem Spelled.nesting_eq {s : Sentence Atom} {text : String}
    (h : Spelled s.fragments text.toList) : s.nesting = Text.nesting text := by
  rw [Text.nesting, h.nestingFrom_eq, s.nestingFrom_eq]

theorem Written.nesting_eq {s : Sentence Atom} {text : String}
    (h : Written s.fragments text.toList) : s.nesting = Text.nesting text :=
  h.spelled.nesting_eq

end SwitchingAlgebra
