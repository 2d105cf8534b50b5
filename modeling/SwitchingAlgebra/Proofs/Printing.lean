-- What is read can be printed and read back. The text of an expression that was read spells a
-- sentence with the same core, so that the same expression is read from it, as long as the
-- parser lets so many parentheses in.
import SwitchingAlgebra.Proofs.Deriving
import SwitchingAlgebra.Proofs.Parentheses
import SwitchingAlgebra.Proofs.RoundTrip
import SwitchingAlgebra.Proofs.Trees

namespace SwitchingAlgebra

/-! ## The sentence of a core -/

/-- A name, negated when `flag` is set. -/
def Phrase.ofName (flag : Bool) (w : String) : Phrase String :=
  if flag then .negated (.atom w) else .atom w

namespace Core

/-- A core as the phrase that is printed for it: every pair is a group. -/
def phrase (mixed : List String) : Core → Phrase String
  | .name negated w =>
    if negated && mixed.contains w then .negated (.group (.single (.atom w)))
    else .ofName negated w
  | .pair negated op left right =>
    let joined := .group (.extend (.single (left.phrase mixed)) op (right.phrase mixed))
    if negated then .negated joined else joined

/-- A core as the sentence that is printed for it, without parentheses around all of it. -/
def sentence (mixed : List String) : Core → Sentence String
  | .pair false op left right => .extend (.single (left.phrase mixed)) op (right.phrase mixed)
  | x => .single (x.phrase mixed)

theorem core_phrase (mixed : List String) (x : Core) : (x.phrase mixed).core = x := by
  induction x with
  | name negated w =>
    rw [phrase]
    split
    · rename_i h
      rw [Bool.and_eq_true] at h
      rw [h.1]
      rfl
    · cases negated <;> rfl
  | pair negated op left right ihl ihr =>
    have joined : (Sentence.extend (.single (left.phrase mixed)) op (right.phrase mixed)).core =
        .pair false op left right := congrArg₂ (pair false op) ihl ihr
    cases negated with
    | false => exact joined
    | true => exact congrArg negate joined

theorem core_sentence (mixed : List String) (x : Core) : (x.sentence mixed).core = x := by
  match x with
  | .name negated w => exact core_phrase mixed (.name negated w)
  | .pair false op left right =>
    exact congrArg₂ (pair false op) (core_phrase mixed left) (core_phrase mixed right)
  | .pair true op left right => exact core_phrase mixed (.pair true op left right)

end Core

/-! ## Spelled texts -/

section

variable {fs gs : List Fragment} {a b : String}

theorem Spelled.negated (h : Spelled fs a.toList) :
    Spelled (.negation :: fs) (Operator.not.glyph.toString ++ a).toList := by
  have sign : Spelled [.negation] [Operator.not.glyph] := (Spelling.sign (by decide)).spelled
  rw [String.toList_append, Char.toString, String.toList_singleton]
  exact sign.append h

theorem Spelled.grouped (h : Spelled fs a.toList) :
    Spelled (.opening :: (fs ++ [.closing])) ("(" ++ a ++ ")").toList := by
  have opening : Spelled [.opening] ['('] := (Spelling.sign (by decide)).spelled
  have closing : Spelled [.closing] [')'] := (Spelling.sign (by decide)).spelled
  rw [String.toList_append, String.toList_append]
  have whole := (opening.append h).append closing
  simpa using whole

theorem Spelled.joined {op : Operator} (hop : op ≠ .not) (h : Spelled fs a.toList)
    (h' : Spelled gs b.toList) :
    Spelled (fs ++ .operator op :: gs) (a ++ op.separator ++ b).toList := by
  have whole := (h.append (Operator.written_separator hop).spelled).append h'
  rw [String.toList_append, String.toList_append]
  simpa using whole

end

/-- Every name is shown as it is used: plain, or negated where all its uses are negated. -/
def Core.SpellsNames (mixed : List String) (shown : String → String) (x : Core) : Prop :=
  ∀ negated, ∀ w ∈ x.uses negated,
    Spelled ((Phrase.ofName (negated && !mixed.contains w) w).map Atom.name).fragments
      (shown w).toList

namespace Core

variable {mixed : List String} {shown : String → String}

theorem SpellsNames.left {negated : Bool} {op : Operator} {left right : Core}
    (h : (pair negated op left right).SpellsNames mixed shown) : left.SpellsNames mixed shown :=
  fun negated w hw => h negated w (List.mem_append_left _ hw)

theorem SpellsNames.right {negated : Bool} {op : Operator} {left right : Core}
    (h : (pair negated op left right).SpellsNames mixed shown) : right.SpellsNames mixed shown :=
  fun negated w hw => h negated w (List.mem_append_right _ hw)

/-- The text of a core as an operand spells its phrase. -/
theorem spelled_text {x : Core} (binary : x.Binary) (names : x.SpellsNames mixed shown) :
    Spelled ((x.phrase mixed).map Atom.name).fragments (x.text shown mixed).toList := by
  induction x with
  | name negated w =>
    have name := names negated w (by simp [uses])
    cases negated with
    | false => exact name
    | true =>
      rw [phrase, text]
      by_cases hmixed : mixed.contains w
      · rw [hmixed] at name ⊢
        exact name.grouped.negated
      · rw [Bool.not_eq_true] at hmixed
        rw [hmixed] at name ⊢
        exact name
  | pair negated op left right ihl ihr =>
    have joined :=
      ((ihl binary.2.1 names.left).joined binary.1 (ihr binary.2.2 names.right)).grouped
    cases negated with
    | false => exact joined
    | true => exact joined.negated

/-- The text of a core by itself spells its sentence. -/
theorem spelled_termsText {x : Core} (binary : x.Binary) (names : x.SpellsNames mixed shown) :
    Spelled ((x.sentence mixed).map Atom.name).fragments
      (x.termsText shown mixed false).toList := by
  match x with
  | .name negated w => exact spelled_text binary names
  | .pair false op left right =>
    exact (spelled_text binary.2.1 names.left).joined binary.1
      (spelled_text binary.2.2 names.right)
  | .pair true op left right => exact spelled_text binary names

end Core

/-! ## The names of what was read -/

theorem inputText_names (m : Bindings) (n : String) :
    inputText m true n = if m.isInverted n then Text.bar n else n := rfl

/-- A name is inverted where it is used negated, unless it is used plain too. -/
theorem Core.isInverted_expression {x : Core} {negated : Bool} {w : String}
    (h : w ∈ x.uses negated) : (x.expression x.mixedNames).inputs.isInverted w =
      (negated && !x.mixedNames.contains w) := by
  have flag : x.flags w = some (negated && !x.mixedNames.contains w) := by
    cases negated with
    | false => exact flags_plain h
    | true => exact flags_negated h
  rw [Bindings.isInverted, get?_expression, binding?, flag]
  rfl

/-- A name of word characters is spelled by itself, or under a bar when it is short. -/
theorem spelled_name {w : String} (hne : w.toList ≠ []) (hw : ∀ c ∈ w.toList, WordLike c)
    {flag : Bool} (short : flag = true → w.length ≤ 1) :
    Spelled ((Phrase.ofName flag w).map Atom.name).fragments
      (if flag then Text.bar w else w).toList := by
  cases flag with
  | false =>
    have name := (Spelling.name hne hw).spelled
    rwa [String.ofList_toList] at name
  | true =>
    obtain ⟨c, rfl⟩ := exists_eq_singleton hne (short rfl)
    have hc : WordLike c := hw c (by simp)
    rw [if_pos rfl, (Text.bar_singleton hc.bar).1, String.toList_ofList]
    exact (Spelling.barred hc (by decide)).spelled

theorem Lexed.spelled {fs : List Fragment} {cs : List Char} (h : Lexed fs cs) : Spelled fs cs := by
  induction h with
  | nil => exact .done rfl
  | cons spelling _ ih => exact spelling.spelled.append ih

namespace Expression

section

variable {e : Expression} {s : Sentence String} {text : String}

theorem IsReadFrom.binary (h : e.IsReadFrom s text) : s.core.Binary :=
  s.binary_core (fun _ hop => h.lexed.spelled.binary hop)

theorem IsReadFrom.made (h : e.IsReadFrom s text) : s.core.Made s.core.mixedNames e := by
  rw [h.read]
  exact Core.made_expression _ _

theorem IsReadFrom.bound (h : e.IsReadFrom s text) : e.inputs.Binds e.mentions := by
  rw [h.read]
  exact s.core.binds_expression

/-- The sentence nests what the parentheses of the text do. -/
theorem IsReadFrom.nesting_eq (h : e.IsReadFrom s text) : s.nesting = Text.nesting text := by
  have kept := h.lexed.spelled
  rw [← String.toList_ofList (l := text.toList.filter _)] at kept
  have nesting := kept.nesting_eq
  rwa [s.nesting_map, Text.nesting, String.toList_ofList, Text.nestingFrom_filter] at nesting

theorem IsReadFrom.wordLike (h : e.IsReadFrom s text) {n : String} (hn : n ∈ s.core.names) :
    n.toList ≠ [] ∧ ∀ c ∈ n.toList, WordLike c := by
  have used : n ∈ s.atoms := ((s.core.mem_names n).mp hn).elim s.mem_atoms_of_uses
    s.mem_atoms_of_uses
  exact h.lexed.wordLike_of_mem (s.mem_fragments used)

/-- Every name is shown by its name, or by its name under a bar. -/
theorem IsReadFrom.shows (h : e.IsReadFrom s text) :
    e.inputs.Shows (inputText e.inputs true) s.core.names := by
  intro n hn
  exact ⟨h.bound n ((h.made.mentions n).mpr hn), rfl⟩

theorem IsReadFrom.spellsNames (h : e.IsReadFrom s text)
    (short : ∀ n ∈ e.mentions, e.inputs.isInverted n = true → n.length ≤ 1) :
    s.core.SpellsNames s.core.mixedNames (inputText e.inputs true) := by
  intro negated w hw
  have named : w ∈ s.core.names := (s.core.mem_names w).mpr (by cases negated <;> simp [hw])
  have flag := Core.isInverted_expression hw
  rw [← h.read] at flag
  obtain ⟨hne, hall⟩ := h.wordLike named
  rw [inputText_names, ← flag]
  exact spelled_name hne hall (short w ((h.made.mentions w).mpr named))

theorem IsReadFrom.bare (h : e.IsReadFrom s text)
    (short : ∀ n ∈ e.mentions, e.inputs.isInverted n = true → n.length ≤ 1) :
    s.core.Bare (inputText e.inputs true) := by
  intro n hn
  obtain ⟨hne, hall⟩ := h.wordLike hn
  rw [inputText_names]
  split
  · rename_i inverted
    obtain ⟨c, rfl⟩ := exists_eq_singleton hne (short n ((h.made.mentions n).mpr hn) inverted)
    have hc : WordLike c := hall c (by simp)
    rw [(Text.bar_singleton hc.bar).1]
    refine Text.nests_of_bare ?_
    rw [String.toList_ofList]
    simp only [List.forall_mem_cons]
    exact ⟨hc.apart.2.2, (isBarMark_apart (by decide)).2.2, by simp⟩
  · exact Text.nests_of_bare (fun c hc => (hall c hc).apart.2.2)

end

end Expression

/-! ## The texts of chains -/

/-- A chain of names that `n` operators join. -/
def Sentence.sum : Nat → Sentence String
  | 0 => .single (.atom "a")
  | n + 1 => .extend (sum n) .or (.atom "a")

/-- The chain as it is written. -/
def sumText : Nat → String
  | 0 => "a"
  | n + 1 => sumText n ++ "+a"

theorem spelled_sum (n : Nat) : Spelled ((Sentence.sum n).map Atom.name).fragments
    (sumText n).toList := by
  have name : Spelled [.name "a"] ['a'] := (Lexeme.name (w := "a") (by decide)).spelling.spelled
  have plus : Spelled [.operator .or] ['+'] := (Spelling.sign (by decide)).spelled
  induction n with
  | zero => exact name
  | succ n ih =>
    rw [sumText, String.toList_append]
    exact ih.append (plus.append name)

theorem Sentence.nesting_sum (n : Nat) : (Sentence.sum n).nesting = 0 := by
  induction n with
  | zero => rfl
  | succ n ih =>
    rw [sum, nesting, ih]
    rfl

theorem Sentence.uses_sum (n : Nat) :
    (Sentence.sum n).core.uses false = (Sentence.sum n).core.names := by
  induction n with
  | zero => rfl
  | succ n ih => exact congrArg (· ++ ["a"]) ih

/-- As an operand, a chain has parentheses behind each of its operators. -/
theorem nests_text_sum (n : Nat) (mixed : List String) :
    Text.Nests ((Sentence.sum n).core.text (fun w => w) mixed) n := by
  have name : Text.Nests "a" 0 := Text.nests_of_all (by decide)
  induction n with
  | zero => exact name
  | succ n ih =>
    have joined := nests_pairText (by decide : Operator.or ≠ .not) true ih name
    rwa [Nat.max_zero] at joined

namespace Expression

/-- A chain is read whatever its length, but its text nests parentheses, one for each operator
but the last. -/
theorem exists_parse_sum (n : Nat) :
    ∃ e, parse (sumText (n + 1)) = .ok e ∧ Text.nesting e.text = n := by
  let f := Sentence.sum (n + 1)
  have level : f.core.worth.level ≤ 1 := by
    have level := f.level_worth_le
    rwa [Sentence.nesting_sum] at level
  have shallow : (f.map Atom.name).nesting ≤ maxNestingDepth := by
    rw [f.nesting_map, Sentence.nesting_sum]
    exact Nat.zero_le _
  refine ⟨_, parse_eq_of_spelled (spelled_sum (n + 1)) shallow (ofFragments_core f), ?_⟩
  obtain ⟨carries, -⟩ := f.core.carries (fun _ => Core.flags_plain) (fun _ => Core.flags_negated)
  have made := Core.made_expression f.core.mixedNames f.core
  have binary : f.core.Binary := f.binary_core (fun _ hop => (spelled_sum (n + 1)).binary hop)
  have shows : (f.core.expression f.core.mixedNames).inputs.Shows (fun w => w) f.core.names := by
    intro w hw
    refine ⟨carries.bound w ((made.mentions w).mpr hw), ?_⟩
    have plain : w ∈ f.core.uses false := by
      rw [Sentence.uses_sum]
      exact hw
    rw [inputText_names, Core.isInverted_expression plain]
    rfl
  have depth : (f.core.expression f.core.mixedNames).depth ≤ maxNestingDepth :=
    Nat.le_trans carries.depth (Nat.le_trans level (by decide))
  have name : Text.Nests "a" 0 := Text.nests_of_all (by decide)
  have joined := nests_pairText (by decide : Operator.or ≠ .not) false
    (nests_text_sum n f.core.mixedNames) name
  rw [Nat.max_zero] at joined
  rw [made.text_eq binary shows depth]
  exact joined.nesting_eq

/-- No text that is read nests parentheses deeper than the limit. -/
theorem nesting_le_of_parse {text : String} {e : Expression} (h : parse text = .ok e) :
    Text.nesting text ≤ maxNestingDepth := by
  obtain ⟨s, source⟩ := exists_isReadFrom h
  rw [← source.nesting_eq]
  exact source.nesting

/-! ## Texts that are read back -/

/-- What was read is read back from its text, as long as its text nests parentheses no deeper
than the limit. -/
theorem parse_text_eq_ok_iff {text : String} {e : Expression} (h : parse text = .ok e)
    (short : ∀ n ∈ e.mentions, e.inputs.isInverted n = true → n.length ≤ 1) :
    parse e.text = .ok e ↔ Text.nesting e.text ≤ maxNestingDepth := by
  obtain ⟨s, source⟩ := exists_isReadFrom h
  refine ⟨nesting_le_of_parse, fun shallow => ?_⟩
  have depth := source.made.depth_le_of_nesting source.binary source.shows (source.bare short)
    shallow
  have spelled := Core.spelled_termsText source.binary (source.spellsNames short)
  rw [← source.made.text_eq source.binary source.shows depth] at spelled
  have read := ofFragments_core (s.core.sentence s.core.mixedNames)
  rw [Core.core_sentence, ← source.read] at read
  refine parse_eq_of_spelled spelled ?_ read
  rw [spelled.nesting_eq]
  exact shallow

/-- A chain of two, of which one is nested, with a name that is inverted, and one that is used
both plain and negated. -/
theorem parse_text_eq_ok_iff_of_mixed : ∃ e, parse "~a+b*(~b^cd)" = .ok e ∧
    e.text = "(a\u0304 ∨ b) ∧ (¬(b) ⊕ cd)" ∧ parse e.text = .ok e := by
  have name : ∀ w : String, isAsciiName w → Spelling [.name w] w.toList :=
    fun _ h => (Lexeme.name h).spelling
  have spelled : Spelled [.negation, .name "a", .operator .or, .name "b", .operator .and, .opening,
      .negation, .name "b", .operator .xor, .name "cd", .closing] "~a+b*(~b^cd)".toList :=
    @Spelled.next [] ['~'] _ [_] _ rfl (.sign (by decide)) <|
    @Spelled.next [] ['a'] _ [_] _ rfl (name "a" (by decide)) <|
    @Spelled.next [] ['+'] _ [_] _ rfl (.sign (by decide)) <|
    @Spelled.next [] ['b'] _ [_] _ rfl (name "b" (by decide)) <|
    @Spelled.next [] ['*'] _ [_] _ rfl (.sign (by decide)) <|
    @Spelled.next [] ['('] _ [_] _ rfl (.sign (by decide)) <|
    @Spelled.next [] ['~'] _ [_] _ rfl (.sign (by decide)) <|
    @Spelled.next [] ['b'] _ [_] _ rfl (name "b" (by decide)) <|
    @Spelled.next [] ['^'] _ [_] _ rfl (.sign (by decide)) <|
    @Spelled.next [] ['c', 'd'] _ [_] _ rfl (name "cd" (by decide)) <|
    @Spelled.next [] [')'] _ [_] _ rfl (.sign (by decide)) (@Spelled.done [] rfl)
  let f : Sentence String := .extend
    (.extend (.single (.negated (.atom "a"))) .or (.atom "b")) .and
    (.group (.extend (.single (.negated (.atom "b"))) .xor (.atom "cd")))
  have parsed := @parse_eq_of_spelled (f.map Atom.name) _ _ spelled (by decide) (ofFragments_core f)
  exact ⟨_, parsed, by decide,
    (parse_text_eq_ok_iff parsed (by decide)).mpr (by decide)⟩

/-- A chain of 259 names is read, and its text is not; nor is a longer name under a bar, which
is the text of a negated one. -/
theorem parse_text_can_fail :
    (∃ e, parse (sumText 258) = .ok e ∧ ∀ e', parse e.text ≠ .ok e') ∧
      ∃ e, parse "~ab" = .ok e ∧ ∀ e', parse e.text ≠ .ok e' := by
  constructor
  · obtain ⟨e, parsed, nesting⟩ := exists_parse_sum 257
    refine ⟨e, parsed, fun e' h => ?_⟩
    have limit := nesting_le_of_parse h
    rw [nesting] at limit
    exact absurd limit (by decide)
  · let f : Sentence String := .single (.negated (.atom "ab"))
    have spelled : Spelled (f.map Atom.name).fragments "~ab".toList :=
      @Spelled.next [] ['~'] _ [_] _ rfl (.sign (by decide)) <|
      @Spelled.next [] ['a', 'b'] _ [_] _ rfl (Lexeme.name (w := "ab") (by decide)).spelling
        (@Spelled.done [] rfl)
    refine ⟨_, parse_eq_of_spelled spelled (by decide) (ofFragments_core f), fun e' h => ?_⟩
    have text : (f.core.expression f.core.mixedNames).text = "a\u0305b\u0305" := by
      decide
    have refused : Validation.validate "a\u0305b\u0305" =
        .error (.fault .missingOperator (some 2)) := by
      decide
    rw [text, parse, refused] at h
    cases h

end Expression

end SwitchingAlgebra
