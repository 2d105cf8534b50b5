-- The text of an expression is a formula of its value, so that reading the text gives the
-- value back. A bar can only be read over a name of one character, so that no longer name
-- may be inverted or negated by itself.
import SwitchingAlgebra.Proofs.Legible
import SwitchingAlgebra.Proofs.Parses

namespace SwitchingAlgebra

/-! ## Short bars -/

/-- A `NOT` negates no name that is longer than one character. -/
def Term.NegatesShort (t : Term) : Prop :=
  t.operator = .not → ∀ n, .input n ∈ t.operands → n.length ≤ 1

/-- The style in which no name is barred that is longer than one character. -/
def Style.shortBars : Style := ⟨fun n => n.length ≤ 1, fun _ => True⟩

theorem Term.NegatesShort.follows {t : Term} (h : t.NegatesShort) : t.Follows .shortBars :=
  ⟨h, fun _ => trivial⟩

namespace Expression

/-- Where an expression has a value, its text is written as a sentence of this value. -/
theorem isSentence_text {e : Expression} (names : e.inputs.Binds e.mentions)
    (ascii : ∀ n ∈ e.mentions, isAsciiName n)
    (inverted : ∀ n ∈ e.mentions, e.inputs.isInverted n = true → n.length ≤ 1)
    (short : e.Everywhere Term.NegatesShort) {s : Assignment} {v : String → Bool}
    (hs : ∀ n ∈ e.mentions, s.get? n = some (v n)) {b : Bool} (h : e.valueOf s = .ok (some b)) :
    ∃ f : Sentence String, Written (f.map Atom.name).fragments e.text.toList ∧ f.value v = b ∧
      ∀ n ∈ f.atoms, n ∈ e.mentions := by
  have legible : Legible .shortBars e.inputs.isInverted e.mentions := ⟨ascii, inverted⟩
  obtain ⟨f, rendered, value, atoms⟩ :=
    rendersSentence_text names legible (short.imp (fun _ ht => ht.follows)) hs h
  exact ⟨f, rendered.written (fun _ hn => hn), value, atoms⟩

/-- Reading the text of an expression gives an expression of the same value, wherever all
names have a value and the expression has one. -/
theorem parse_text_keeps_value {e : Expression} (names : e.inputs.Binds e.mentions)
    (ascii : ∀ n ∈ e.mentions, isAsciiName n)
    (inverted : ∀ n ∈ e.mentions, e.inputs.isInverted n = true → n.length ≤ 1)
    (short : e.Everywhere Term.NegatesShort) (shallow : Text.nesting e.text < maxNestingDepth)
    {s : Assignment} (hs : ∀ n ∈ e.mentions, s.contains n) {b : Bool}
    (h : e.valueOf s = .ok (some b)) :
    ∃ e', parse e.text = .ok e' ∧ e'.valueOf s = .ok (some b) := by
  have values : ∀ n ∈ e.mentions, s.get? n = some ((s.get? n).getD false) := by
    intro n hn
    obtain ⟨b, hb⟩ := Option.isSome_iff_exists.mp (hs n hn)
    rw [hb]
    rfl
  obtain ⟨f, written, value, atoms⟩ := isSentence_text names ascii inverted short values h
  have deep : f.nesting < maxNestingDepth := by
    rw [← f.nesting_map Atom.name, written.nesting_eq]
    exact shallow
  obtain ⟨e', he', value'⟩ := ofFragments_formula f deep
  refine ⟨e', parse_eq_of_written written (by rw [f.nesting_map]; omega) he', ?_⟩
  rw [value' s _ (fun n hn => values n (atoms n hn)), value]

/-- An inverted name, negated once more below a `NOT` without operands. -/
def barredTwice : Expression :=
  (((Expression.empty.append .nand [.input "a", .input "bc"]).append .not []).append .or
    [.nested (Expression.empty.append .not [.input "a"])]).setInverted "a" true

theorem barredTwice_negatesShort : barredTwice.Everywhere Term.NegatesShort := by
  have name : ∀ n, (Operand.input n).Everywhere Term.NegatesShort := .input
  have inside : (Operand.nested (Expression.empty.append .not [.input "a"])).Everywhere
      Term.NegatesShort := by
    apply Operand.everywhere_nested.mpr
    intro t ht
    rw [List.mem_singleton.mp ht]
    constructor
    · intro _ n hn
      rw [Operand.input.inj (List.mem_singleton.mp hn)]
      decide
    · intro x hx
      rw [List.mem_singleton.mp hx]
      exact name "a"
  intro t ht
  have terms : barredTwice.terms = [⟨.nand, [.input "a", .input "bc"]⟩, ⟨.not, []⟩,
      ⟨.or, [.nested (Expression.empty.append .not [.input "a"])]⟩] := rfl
  rw [terms] at ht
  simp only [List.mem_cons, List.not_mem_nil, or_false] at ht
  rcases ht with rfl | rfl | rfl
  · exact ⟨(by rintro ⟨⟩), by simp [name]⟩
  · exact ⟨(by rintro - n ⟨⟩), by simp⟩
  · exact ⟨(by rintro ⟨⟩), by simp [inside]⟩

theorem parse_text_keeps_value_of_barredTwice :
    ∃ e, parse barredTwice.text = .ok e ∧
      e.valueOf ⟨[("a", true), ("bc", false)]⟩ = .ok (some true) :=
  parse_text_keeps_value (e := barredTwice) (s := ⟨[("a", true), ("bc", false)]⟩)
    (by decide) (by decide) (by decide) barredTwice_negatesShort
    (by decide) (by decide) (by decide)

end Expression

end SwitchingAlgebra
