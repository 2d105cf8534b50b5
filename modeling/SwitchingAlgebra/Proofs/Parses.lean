-- The parser gives every formula its value from left to right, whatever its spelling.
import SwitchingAlgebra.Proofs.Checking
import SwitchingAlgebra.Proofs.Formulas

namespace SwitchingAlgebra

/-! ## Spelled formulas are let in -/

theorem Sentence.alternates_fragments (s : Sentence Atom) : Alternates false s.fragments := by
  have h : Alternates false (s.fragments ++ []) := s.alternates rfl
  rwa [List.append_nil] at h

theorem Spelled.not_blank {fs : List Fragment} {cs : List Char} (h : Spelled fs cs)
    (turns : Alternates false fs) : cs.all Text.isBlank = false := by
  by_contra hblank
  rw [Bool.not_eq_false] at hblank
  have taken := h.fragmentsOf_eq turns
  rw [filter_blanks hblank] at taken
  rw [← taken] at turns
  cases turns

/-- A spelled sentence passes the first look, and taking it apart gives its fragments. -/
theorem Spelled.of_sentence {s : Sentence Atom} {text : String}
    (h : Spelled s.fragments text.toList) (deep : s.nesting ≤ maxNestingDepth) :
    Validation.validate text = .ok () ∧ Fragment.ofText text = s.fragments := by
  have turns := s.alternates_fragments
  have balanced : Balanced 0 s.fragments := by
    have h : Balanced 0 (s.fragments ++ []) := s.balanced (by omega) rfl
    rwa [List.append_nil] at h
  refine ⟨?_, h.ofText_eq turns⟩
  rw [Validation.validate, h.not_blank turns]
  exact @Validation.check_spelled _ _ h none [] turns balanced false 0

namespace Expression

theorem parse_eq_of_spelled {s : Sentence Atom} {text : String} {e : Expression}
    (h : Spelled s.fragments text.toList) (deep : s.nesting ≤ maxNestingDepth)
    (he : ofFragments s.fragments = .ok e) : parse text = .ok e := by
  obtain ⟨valid, taken⟩ := h.of_sentence deep
  rw [parse, valid, taken, he]

theorem parse_eq_of_written {s : Sentence Atom} {text : String} {e : Expression}
    (h : Written s.fragments text.toList) (deep : s.nesting ≤ maxNestingDepth)
    (he : ofFragments s.fragments = .ok e) : parse text = .ok e :=
  parse_eq_of_spelled h.spelled deep he

/-! ## The value of a formula -/

/-- Every formula whose parentheses are nested less deep than the limit is read, and what
is read has the value of the formula wherever all its names have one. -/
theorem parse_keeps_meaning (f : Sentence String) {text : String}
    (deep : f.nesting < maxNestingDepth)
    (written : Written (f.map Atom.name).fragments text.toList) :
    ∃ e, parse text = .ok e ∧ ∀ s : Assignment, (∀ n ∈ f.atoms, s.contains n) →
      e.valueOf s = .ok (some (f.value (fun n => (s.get? n).getD false))) := by
  obtain ⟨e, he, value⟩ := ofFragments_formula f deep
  refine ⟨e, parse_eq_of_written written (by rw [f.nesting_map]; omega) he, ?_⟩
  intro s hs
  apply value s _
  intro n hn
  obtain ⟨b, hb⟩ := Option.isSome_iff_exists.mp (hs n hn)
  rw [hb]
  rfl

/-- A name in both polarities, negated by a sign and plain in a group. -/
theorem parse_keeps_meaning_of_mixed :
    ∃ e, parse "~a && (b|a)" = .ok e ∧ ∀ s : Assignment, (∀ n ∈ ["a", "b", "a"], s.contains n) →
      e.valueOf s = .ok (some ((!(s.get? "a").getD false) &&
        ((s.get? "b").getD false || (s.get? "a").getD false))) := by
  have name : ∀ w, isAsciiName w → Lexeme [.name w] w.toList := by
    intro _ h
    exact .name h
  have written : Written [.negation, .name "a", .operator .and, .opening, .name "b",
      .operator .or, .name "a", .closing] "~a && (b|a)".toList :=
    @Written.next [] ['~'] _ [_] _ rfl (.sign (by decide)) <|
    @Written.next [] ['a'] _ [_] _ rfl (name "a" (by decide)) <|
    @Written.next [' '] ['&', '&'] _ [_] _ rfl .doubledAnd <|
    @Written.next [' '] ['('] _ [_] _ rfl (.sign (by decide)) <|
    @Written.next [] ['b'] _ [_] _ rfl (name "b" (by decide)) <|
    @Written.next [] ['|'] _ [_] _ rfl (.sign (by decide)) <|
    @Written.next [] ['a'] _ [_] _ rfl (name "a" (by decide)) <|
    @Written.next [] [')'] _ [_] _ rfl (.sign (by decide)) (@Written.done [] rfl)
  exact parse_keeps_meaning
    (.extend (.single (.negated (.atom "a"))) .and
      (.group (.extend (.single (.atom "b")) .or (.atom "a"))))
    (by decide) written

end Expression

end SwitchingAlgebra
