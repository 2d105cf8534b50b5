-- Reading respelled text back. What a dialect writes for an operator is read as this operator,
-- unless it stands for `NAND` or `NOR` in the signs of arithmetic: these are read as the `AND` or
-- the `OR` of a negation. The words that logic has for them, and for `XNOR`, are never read.
import SwitchingAlgebra.Proofs.Legible
import SwitchingAlgebra.Proofs.Printing
import SwitchingAlgebra.Proofs.Respelling

namespace SwitchingAlgebra

/-! ## Formulas without `XNOR` -/

section

variable {α : Type}

/-- Joins a phrase by an operator, by `XNOR` as the `XOR` of its negation. -/
def Sentence.extendPlain (s : Sentence α) : Operator → Phrase α → Sentence α
  | .xnor, p => .extend s .xor (.negated p)
  | op, p => .extend s op p

mutual

/-- The phrase with each `XNOR` as the `XOR` of a negation. -/
def Phrase.withoutXnor : Phrase α → Phrase α
  | .atom a => .atom a
  | .negated p => .negated p.withoutXnor
  | .group s => .group s.withoutXnor

/-- The sentence with each `XNOR` as the `XOR` of a negation. -/
def Sentence.withoutXnor : Sentence α → Sentence α
  | .single p => .single p.withoutXnor
  | .extend s op p => s.withoutXnor.extendPlain op p.withoutXnor

end

theorem Sentence.value_extendPlain (v : α → Bool) (s : Sentence α) (op : Operator) (p : Phrase α) :
    (s.extendPlain op p).value v = op.apply (s.value v) (p.value v) := by
  cases op with
  | xnor =>
    simp only [extendPlain, value, Phrase.value, Operator.apply]
    cases s.value v <;> cases p.value v <;> rfl
  | _ => rfl

theorem Sentence.nesting_extendPlain (s : Sentence α) (op : Operator) (p : Phrase α) :
    (s.extendPlain op p).nesting = max s.nesting p.nesting := by
  cases op <;> rfl

theorem Sentence.atoms_extendPlain (s : Sentence α) (op : Operator) (p : Phrase α) :
    (s.extendPlain op p).atoms = s.atoms ++ p.atoms := by
  cases op <;> rfl

mutual

theorem Phrase.value_withoutXnor (v : α → Bool) : ∀ p : Phrase α,
    p.withoutXnor.value v = p.value v
  | .atom _ => rfl
  | .negated p => congrArg (!·) (Phrase.value_withoutXnor v p)
  | .group s => Sentence.value_withoutXnor v s

theorem Sentence.value_withoutXnor (v : α → Bool) : ∀ s : Sentence α,
    s.withoutXnor.value v = s.value v
  | .single p => Phrase.value_withoutXnor v p
  | .extend s op p => by
    rw [Sentence.withoutXnor, Sentence.value_extendPlain, Sentence.value_withoutXnor v s,
      Phrase.value_withoutXnor v p, Sentence.value]

end

mutual

theorem Phrase.nesting_withoutXnor : ∀ p : Phrase α, p.withoutXnor.nesting = p.nesting
  | .atom _ => rfl
  | .negated p => Phrase.nesting_withoutXnor p
  | .group s => congrArg (· + 1) (Sentence.nesting_withoutXnor s)

theorem Sentence.nesting_withoutXnor : ∀ s : Sentence α, s.withoutXnor.nesting = s.nesting
  | .single p => Phrase.nesting_withoutXnor p
  | .extend s op p => by
    rw [Sentence.withoutXnor, Sentence.nesting_extendPlain, Sentence.nesting_withoutXnor s,
      Phrase.nesting_withoutXnor p, Sentence.nesting]

end

mutual

theorem Phrase.atoms_withoutXnor : ∀ p : Phrase α, p.withoutXnor.atoms = p.atoms
  | .atom _ => rfl
  | .negated p => Phrase.atoms_withoutXnor p
  | .group s => Sentence.atoms_withoutXnor s

theorem Sentence.atoms_withoutXnor : ∀ s : Sentence α, s.withoutXnor.atoms = s.atoms
  | .single p => Phrase.atoms_withoutXnor p
  | .extend s op p => by
    rw [Sentence.withoutXnor, Sentence.atoms_extendPlain, Sentence.atoms_withoutXnor s,
      Phrase.atoms_withoutXnor p, Sentence.atoms]

end

end

/-- `XNOR` as the fragments of the `XOR` of a negation. -/
def Fragment.withoutXnor : Fragment → List Fragment
  | .operator .xnor => [.operator .xor, .negation]
  | f => [f]

theorem Sentence.fragments_extendPlain (s : Sentence String) (op : Operator) (p : Phrase String) :
    ((s.extendPlain op p).map Atom.name).fragments = (s.map Atom.name).fragments ++
      ((Fragment.operator op).withoutXnor ++ (p.map Atom.name).fragments) := by
  cases op <;> rfl

mutual

theorem Phrase.fragments_withoutXnor : ∀ p : Phrase String,
    (p.withoutXnor.map Atom.name).fragments =
      (p.map Atom.name).fragments.flatMap Fragment.withoutXnor
  | .atom _ => rfl
  | .negated p => congrArg (Fragment.negation :: ·) (Phrase.fragments_withoutXnor p)
  | .group s => by
    simp only [Phrase.withoutXnor, Phrase.map, Phrase.fragments, List.flatMap_cons,
      List.flatMap_append, Sentence.fragments_withoutXnor s]
    rfl

theorem Sentence.fragments_withoutXnor : ∀ s : Sentence String,
    (s.withoutXnor.map Atom.name).fragments =
      (s.map Atom.name).fragments.flatMap Fragment.withoutXnor
  | .single p => Phrase.fragments_withoutXnor p
  | .extend s op p => by
    rw [Sentence.withoutXnor, Sentence.fragments_extendPlain, Sentence.fragments_withoutXnor s,
      Phrase.fragments_withoutXnor p, Sentence.map, Sentence.fragments, List.flatMap_append,
      List.flatMap_cons]

end

/-! ## Operators that are read back -/

namespace Dialect

/-- What the dialect writes for the operator is read as the same function. -/
def readsBack : Dialect → Operator → Bool
  | .unicode, _ => true
  | .math, op => op != .nand && op != .nor
  | .logic, op => !op.isBinaryOnly

/-- Texts in which all that is rendered can be read back from the dialect. -/
def style (d : Dialect) : Style := ⟨fun _ => True, fun op => d.readsBack op = true⟩

variable {d : Dialect}

theorem written_operator (hd : d ≠ .unicode) {op : Operator} (hop : op ≠ .not)
    (back : d.readsBack op = true) :
    Written (Fragment.operator op).withoutXnor (d.word op).toList := by
  have xor : Written [.operator .xor] ['^'] := Fragment.written_sign (by decide)
  have negation : Written [.negation] ['~'] := Fragment.written_sign (by decide)
  cases d with
  | unicode => exact absurd rfl hd
  | math =>
    cases op with
    | and => exact Fragment.written_sign (by decide)
    | or => exact Fragment.written_sign (by decide)
    | xor => exact xor
    | nand => cases back
    | nor => cases back
    | xnor => exact xor.append negation
    | not => exact absurd rfl hop
  | logic =>
    cases op with
    | and => exact Lexeme.written .doubledAnd
    | or => exact Lexeme.written .doubledOr
    | xor => exact xor
    | nand => cases back
    | nor => cases back
    | xnor => cases back
    | not => exact absurd rfl hop

end Dialect

section

variable {d : Dialect} {fs gs : List Fragment} {cs : List Char}

theorem Dialect.written_negation (hd : d ≠ .unicode) :
    Written [.negation] (d.word .not).toList := by
  cases d with
  | unicode => exact absurd rfl hd
  | math => exact Fragment.written_sign (by decide)
  | logic => exact Fragment.written_sign (by decide)

theorem Piece.written_write (hd : d ≠ .unicode) (h : Piece d.style gs cs) :
    Written (gs.flatMap Fragment.withoutXnor) (d.write gs) := by
  have negation := Dialect.written_negation hd
  cases h with
  | name ascii =>
    have name := Lexeme.written (.name ascii)
    simpa [Dialect.write, Dialect.writeFragment, Fragment.withoutXnor] using name
  | barred ascii _ =>
    have whole := negation.append (Lexeme.written (.name ascii))
    simpa [Dialect.write, Dialect.writeFragment, Fragment.withoutXnor] using whole
  | @sign f c hsign =>
    cases f with
    | negation => simpa [Dialect.write, Dialect.writeFragment, Fragment.withoutXnor] using negation
    | opening => exact Fragment.written_sign (by decide)
    | closing => exact Fragment.written_sign (by decide)
    | name w => cases hsign
    | place k => cases hsign
    | operator op => cases hsign
    | stray c => cases hsign
  | operator binary back =>
    have blank : Written [] [' '] := .done rfl
    have whole := (blank.append (Dialect.written_operator hd binary back)).append blank
    simpa [Dialect.write, Dialect.writeFragment] using whole

theorem Rendered.written_write (hd : d ≠ .unicode) (h : Rendered d.style fs cs) :
    Written (fs.flatMap Fragment.withoutXnor) (d.write fs) := by
  induction h with
  | done => exact .done rfl
  | next piece _ ih =>
    rw [Dialect.write, List.flatMap_append, List.flatMap_append]
    exact (piece.written_write hd).append ih

/-- A respelled sentence is written as the sentence without `XNOR`. -/
theorem Rendered.written_respell (hd : d ≠ .unicode) {s : Sentence String} {text : String}
    (h : Rendered d.style (s.map Atom.name).fragments text.toList) :
    Written (s.withoutXnor.map Atom.name).fragments (d.respell text).toList := by
  rw [d.toList_respell hd, h.respellChars_eq hd (Sentence.alternates_fragments _),
    s.fragments_withoutXnor]
  exact h.written_write hd

end

/-! ## Words that are never read -/

/-- What stands before a fragment that begins no operand ends one. -/
theorem Alternates.exists_ends {pre post : List Fragment} {f : Fragment} (hf : f.starts = false)
    (turns : Alternates false (pre ++ f :: post)) :
    ∃ pre' g, pre = pre' ++ [g] ∧ g.ends = true := by
  have before : ∀ (pre' : List Fragment) (g : Fragment) {after : Bool},
      Alternates after (pre' ++ g :: f :: post) → g.ends = true := by
    intro pre' g
    induction pre' with
    | nil =>
      intro after turns
      have turn := turns.2.1
      rw [hf] at turn
      simpa using turn.symm
    | cons h pre' ih => exact fun turns => ih turns.2
  rcases List.eq_nil_or_concat' pre with rfl | ⟨pre', g, rfl⟩
  · cases hf.symm.trans turns.1
  · rw [List.append_assoc, List.singleton_append] at turns
    exact ⟨pre', g, rfl, before pre' g turns⟩

theorem Piece.exists_last {σ : Style} {gs : List Fragment} {cs : List Char} {g : Fragment}
    (h : Piece σ gs cs) (hg : g ∈ gs) (ends : g.ends = true) (d : Dialect) :
    ∃ w x, d.writeFragment g = w ++ [x] ∧ Text.isBlank x = false ∧
      Validation.endsOperand x = true := by
  have name : ∀ {w : String}, isAsciiName w → ∃ w' x, w.toList = w' ++ [x] ∧
      Text.isBlank x = false ∧ Validation.endsOperand x = true := by
    intro w ascii
    obtain ⟨hne, word⟩ := wordLike_of_isAsciiName ascii
    have last := word _ (List.getLast_mem hne)
    refine ⟨_, _, (List.dropLast_append_getLast hne).symm, last.blank, ?_⟩
    simp [Validation.endsOperand, last.name]
  cases h with
  | name ascii =>
    rw [List.mem_singleton.mp hg]
    exact name ascii
  | barred ascii _ =>
    rcases List.mem_cons.mp hg with rfl | hg
    · cases ends
    · rw [List.mem_singleton.mp hg]
      exact name ascii
  | @sign f c hsign =>
    obtain rfl := List.mem_singleton.mp hg
    cases g with
    | closing => exact ⟨[], ')', rfl, by decide, by decide⟩
    | name w => cases hsign
    | place k => cases hsign
    | negation => cases ends
    | operator op => cases ends
    | opening => cases ends
    | stray c => cases ends
  | operator _ _ =>
    rw [List.mem_singleton.mp hg] at ends
    cases ends

/-- What ends an operand is written with a character that ends an operand. -/
theorem Rendered.exists_last {σ : Style} {fs : List Fragment} {cs : List Char} {g : Fragment}
    (h : Rendered σ fs cs) (hg : g ∈ fs) (ends : g.ends = true) (d : Dialect) :
    ∃ w x, d.writeFragment g = w ++ [x] ∧ Text.isBlank x = false ∧
      Validation.endsOperand x = true := by
  induction h with
  | done => cases hg
  | next piece _ ih => exact (List.mem_append.mp hg).elim (piece.exists_last · ends d) ih

/-- The words of logic for `NAND`, `NOR` and `XNOR` begin with a letter. -/
theorem Dialect.exists_nameChar {op : Operator} (h : op.isBinaryOnly) :
    ∃ c rest, Dialect.logic.writeFragment (.operator op) = ' ' :: c :: rest ∧
      Text.isNameChar c = true := by
  cases op with
  | nand => exact ⟨'n', _, rfl, by decide⟩
  | nor => exact ⟨'n', _, rfl, by decide⟩
  | xnor => exact ⟨'x', _, rfl, by decide⟩
  | and => cases h
  | or => cases h
  | xor => cases h
  | not => cases h

namespace Expression

theorem check_of_parse {text : String} {e : Expression} (h : parse text = .ok e) :
    Validation.check none false 0 [] text.toList = .ok () := by
  unfold parse at h
  split at h
  · cases h
  · cases h
  · rename_i valid
    unfold Validation.validate at valid
    split at valid
    · cases valid
    · exact valid

/-- Text is not read from logic in which two phrases were joined by a word. -/
theorem not_isBinaryOnly_of_parse {σ : Style} {fs : List Fragment} {text : String}
    (rendered : Rendered σ fs text.toList) (turns : Alternates false fs) {e : Expression}
    (h : parse (Dialect.logic.respell text) = .ok e) {op : Operator} (hop : .operator op ∈ fs) :
    ¬ op.isBinaryOnly := by
  intro binary
  have passes := check_of_parse h
  rw [Dialect.toList_respell (by decide), rendered.respellChars_eq (by decide) turns] at passes
  obtain ⟨pre, post, rfl⟩ := List.append_of_mem hop
  obtain ⟨pre, g, rfl, ends⟩ := turns.exists_ends rfl
  obtain ⟨w, x, last, blank, hx⟩ := rendered.exists_last (g := g) (by simp) ends .logic
  obtain ⟨c, rest, word, hc⟩ := Dialect.exists_nameChar binary
  have gap : Dialect.logic.write (pre ++ [g] ++ .operator op :: post) =
      (Dialect.logic.write pre ++ w) ++ x :: ' ' :: c :: (rest ++ Dialect.logic.write post) := by
    simp [Dialect.write, last, word]
  rw [gap] at passes
  exact Validation.check_ne_ok_of_gap blank hx hc passes

end Expression

/-! ## Reading back -/

theorem Assignment.get?_of_contains {s : Assignment} {n : String} (h : s.contains n) :
    s.get? n = some ((s.get? n).getD false) := by
  obtain ⟨b, hb⟩ := Option.isSome_iff_exists.mp h
  rw [hb]
  rfl

/-- The operator of the term is `AND`, `OR`, `XOR` or `NOT`. -/
def Term.IsBasic (t : Term) : Prop := ¬ t.operator.isBinaryOnly

namespace Expression

/-- Both dialects without bars are read back where all operators are `AND`, `OR`, `XOR` and
`NOT`: the value of the expression is the value of what is read. -/
theorem parse_respell_keeps_value {d : Dialect} (hd : d ≠ .unicode) {e : Expression}
    (names : e.inputs.Binds e.mentions) (ascii : ∀ n ∈ e.mentions, isAsciiName n)
    (basic : e.Everywhere Term.IsBasic)
    (shallow : Text.nesting e.text < maxNestingDepth) {s : Assignment}
    (hs : ∀ n ∈ e.mentions, s.contains n) {b : Bool} (h : e.valueOf s = .ok (some b)) :
    ∃ p, parse (d.respell e.text) = .ok p ∧ p.valueOf s = .ok (some b) := by
  have values : ∀ n ∈ e.mentions, s.get? n = some ((s.get? n).getD false) :=
    fun n hn => Assignment.get?_of_contains (hs n hn)
  have legible : Legible d.style e.inputs.isInverted e.mentions := ⟨ascii, fun _ _ _ => trivial⟩
  have back : ∀ {op : Operator}, ¬ op.isBinaryOnly → d.readsBack op = true := by
    intro op plain
    cases d <;> cases op <;> first | rfl | exact absurd rfl plain
  have follows : e.Everywhere (Term.Follows d.style) :=
    basic.imp (fun _ plain => ⟨fun _ _ _ => trivial, fun _ => back plain⟩)
  obtain ⟨f, rendered, value, atoms⟩ := rendersSentence_text names legible follows values h
  have written := rendered.written_respell hd
  have deep : f.withoutXnor.nesting < maxNestingDepth := by
    rw [f.nesting_withoutXnor, ← f.nesting_map Atom.name, rendered.nesting_eq]
    exact shallow
  obtain ⟨p, read, value'⟩ := ofFragments_formula f.withoutXnor deep
  refine ⟨p, parse_eq_of_written written (by rw [Sentence.nesting_map]; omega) read, ?_⟩
  rw [value' s _ (fun n hn => values n (atoms n (f.atoms_withoutXnor ▸ hn))),
    f.value_withoutXnor, value]

/-- Names of several characters, one of them inverted and one negated. -/
def barredWords : Expression :=
  (((empty.append .and [.input "in1", .nested (empty.append .not [.input "b2"])]).append .not
    []).append .xor [.input "c"]).setInverted "in1" true

theorem barredWords_basic : barredWords.Everywhere Term.IsBasic := by
  have name : ∀ n, (Operand.input n).Everywhere Term.IsBasic := .input
  have basic : ∀ op ∈ [Operator.and, .xor, .not], ∀ xs, Term.IsBasic ⟨op, xs⟩ := by
    have listed : ∀ op ∈ [Operator.and, .xor, .not], ¬ op.isBinaryOnly := by decide
    exact fun op hop _ => listed op hop
  have inside : (Operand.nested (empty.append .not [.input "b2"])).Everywhere Term.IsBasic := by
    have terms : (empty.append .not [.input "b2"]).terms = [⟨.not, [.input "b2"]⟩] := rfl
    refine Operand.everywhere_nested.mpr ?_
    simp [Everywhere, Term.Everywhere, terms, name, basic]
  have terms : barredWords.terms =
      [⟨.and, [.input "in1", .nested (empty.append .not [.input "b2"])]⟩, ⟨.not, []⟩,
        ⟨.xor, [.input "c"]⟩] := rfl
  simp [Everywhere, Term.Everywhere, terms, name, inside, basic]

theorem parse_respell_keeps_value_of_barredWords :
    let s : Assignment := ⟨[("in1", true), ("b2", false), ("c", false)]⟩
    Dialect.math.respell barredWords.text = "~(~in1 * ~b2) ^ c" ∧
      Dialect.logic.respell barredWords.text = "!(!in1 && !b2) ^ c" ∧
      (∃ p, parse "~(~in1 * ~b2) ^ c" = .ok p ∧ p.valueOf s = .ok (some true)) ∧
      ∃ p, parse "!(!in1 && !b2) ^ c" = .ok p ∧ p.valueOf s = .ok (some true) := by
  intro s
  have math : Dialect.math.respell barredWords.text = "~(~in1 * ~b2) ^ c" := by decide +kernel
  have logic : Dialect.logic.respell barredWords.text = "!(!in1 && !b2) ^ c" := by decide +kernel
  have back := fun {d : Dialect} (hd : d ≠ .unicode) =>
    parse_respell_keeps_value (e := barredWords) (s := s) hd (by decide +kernel)
      (by decide +kernel) barredWords_basic (by decide +kernel) (by decide +kernel)
      (b := true) (by decide +kernel)
  exact ⟨math, logic, math ▸ back (d := .math) (by decide), logic ▸ back (d := .logic) (by decide)⟩

/-- Whatever is read from a dialect has the value of the expression, where neither `NAND` nor
`NOR` is respelled by the signs of arithmetic, and unless it is nested too deep to have one. -/
theorem valueOf_parse_respell {d : Dialect} (hd : d ≠ .unicode) {e : Expression}
    (names : e.inputs.Binds e.mentions) (ascii : ∀ n ∈ e.mentions, isAsciiName n)
    (plain : d = .math → '⊼' ∉ e.text.toList ∧ '⊽' ∉ e.text.toList) {p : Expression}
    (parsed : parse (d.respell e.text) = .ok p) {s : Assignment}
    (hs : ∀ n ∈ e.mentions, s.contains n) {b : Bool} (h : e.valueOf s = .ok (some b)) :
    p.valueOf s = if p.depth ≤ maxNestingDepth then .ok (some b)
      else .error (.tooDeeplyNested maxNestingDepth) := by
  have values : ∀ n ∈ e.mentions, s.get? n = some ((s.get? n).getD false) :=
    fun n hn => Assignment.get?_of_contains (hs n hn)
  let any : Style := ⟨fun _ => True, fun _ => True⟩
  have legible : Legible any e.inputs.isInverted e.mentions := ⟨ascii, fun _ _ _ => trivial⟩
  have follows : e.Everywhere (Term.Follows any) :=
    e.everywhere_of_forall (fun _ => ⟨fun _ _ _ => trivial, fun _ => trivial⟩)
  obtain ⟨f, rendered, value, atoms⟩ := rendersSentence_text names legible follows values h
  have back : ∀ op, .operator op ∈ (f.map Atom.name).fragments → d.readsBack op = true := by
    intro op hop
    cases d with
    | unicode => rfl
    | math =>
      obtain ⟨no_nand, no_nor⟩ := plain rfl
      have shown := rendered.glyph_mem hop
      cases op with
      | nand => exact absurd shown no_nand
      | nor => exact absurd shown no_nor
      | _ => rfl
    | logic =>
      have read := not_isBinaryOnly_of_parse rendered (Sentence.alternates_fragments _) parsed hop
      simpa [Dialect.readsBack] using read
  have readable : Rendered d.style (f.map Atom.name).fragments e.text.toList :=
    rendered.restyle (fun _ _ => trivial) (fun op hop _ => back op hop)
  have written := readable.written_respell hd
  have shallow : (f.withoutXnor.map Atom.name).nesting ≤ maxNestingDepth := by
    rw [written.nesting_eq]
    exact nesting_le_of_parse parsed
  have read := ofFragments_core f.withoutXnor
  obtain rfl := Except.ok.inj ((parse_eq_of_written written shallow read).symm.trans parsed)
  rw [valueOf_of_ofFragments read (fun n hn => values n (atoms n (f.atoms_withoutXnor ▸ hn))),
    f.value_withoutXnor, value]

/-- The `XNOR` of an inverted name and a sum is read back from the signs of arithmetic. -/
theorem valueOf_parse_respell_of_xnor :
    let sum := empty.append .or [.input "b", .input "cd"]
    let e := (empty.append .xnor [.input "a", .nested sum]).setInverted "a" true
    let s : Assignment := ⟨[("a", false), ("b", true), ("cd", false)]⟩
    Dialect.math.respell e.text = "~a ^~ (b + cd)" ∧ e.valueOf s = .ok (some true) ∧
      ∃ p, parse "~a ^~ (b + cd)" = .ok p ∧ p.valueOf s = .ok (some true) := by
  intro sum e s
  let f : Sentence String := .extend (.single (.negated (.atom "a"))) .xor
    (.negated (.group (.extend (.single (.atom "b")) .or (.atom "cd"))))
  have name : ∀ w, isAsciiName w → Lexeme [.name w] w.toList := fun _ h => .name h
  have written : Written (f.map Atom.name).fragments "~a ^~ (b + cd)".toList :=
    @Written.next [] ['~'] _ [_] _ rfl (.sign (by decide)) <|
    @Written.next [] ['a'] _ [_] _ rfl (name "a" (by decide)) <|
    @Written.next [' '] ['^'] _ [_] _ rfl (.sign (by decide)) <|
    @Written.next [] ['~'] _ [_] _ rfl (.sign (by decide)) <|
    @Written.next [' '] ['('] _ [_] _ rfl (.sign (by decide)) <|
    @Written.next [] ['b'] _ [_] _ rfl (name "b" (by decide)) <|
    @Written.next [' '] ['+'] _ [_] _ rfl (.sign (by decide)) <|
    @Written.next [' '] ['c', 'd'] _ [_] _ rfl (name "cd" (by decide)) <|
    @Written.next [] [')'] _ [_] _ rfl (.sign (by decide)) (@Written.done [] rfl)
  have parsed := parse_eq_of_written written (by decide) (ofFragments_core f)
  have text : Dialect.math.respell e.text = "~a ^~ (b + cd)" := by decide +kernel
  have known : e.valueOf s = .ok (some true) := by decide +kernel
  have read := valueOf_parse_respell (d := .math) (e := e) (s := s) (by decide)
    (by decide +kernel) (by decide +kernel) (by decide +kernel) (text.symm ▸ parsed)
    (by decide +kernel) known
  rw [if_pos (by decide +kernel)] at read
  exact ⟨text, known, _, parsed, read⟩

/-- `a ⊼ b` is respelled as `a *~ b`, and that is read as `a ∧ ¬b`. -/
theorem parse_respell_can_change_value :
    let e := empty.append .nand [.input "a", .input "b"]
    let s : Assignment := ⟨[("a", false), ("b", false)]⟩
    e.inputs.Binds e.mentions ∧ (∀ n ∈ e.mentions, isAsciiName n) ∧
      (∀ n ∈ e.mentions, s.contains n) ∧ e.valueOf s = .ok (some true) ∧
      ∃ p, parse (Dialect.math.respell e.text) = .ok p ∧ p.valueOf s = .ok (some false) := by
  intro e s
  let f : Sentence String := .extend (.single (.atom "a")) .and (.negated (.atom "b"))
  have written : Written (f.map Atom.name).fragments "a *~ b".toList :=
    @Written.next [] ['a'] _ [_] _ rfl (Lexeme.name (w := "a") (by decide)) <|
    @Written.next [' '] ['*'] _ [_] _ rfl (.sign (by decide)) <|
    @Written.next [] ['~'] _ [_] _ rfl (.sign (by decide)) <|
    @Written.next [' '] ['b'] _ [_] _ rfl (Lexeme.name (w := "b") (by decide))
      (@Written.done [] rfl)
  have parsed := parse_eq_of_written written (by decide) (ofFragments_core f)
  have text : Dialect.math.respell e.text = "a *~ b" := by decide +kernel
  rw [text]
  exact ⟨by decide +kernel, by decide +kernel, by decide +kernel, by decide +kernel, _, parsed,
    by decide +kernel⟩

end Expression

end SwitchingAlgebra
