-- The first look at a formula lets every spelling of a formula pass, as long as its
-- parentheses are not nested too deep.
import SwitchingAlgebra.Parsing.Validation
import SwitchingAlgebra.Proofs.Spelling

namespace SwitchingAlgebra

/-! ## Balance -/

/-- With `opened` parentheses open the fragments close them all, and never are too many
open. -/
def Balanced : Nat → List Fragment → Prop
  | opened, [] => opened = 0
  | opened, .opening :: fs => opened < maxNestingDepth ∧ Balanced (opened + 1) fs
  | opened, .closing :: fs => 0 < opened ∧ Balanced (opened - 1) fs
  | opened, _ :: fs => Balanced opened fs

mutual

theorem Phrase.balanced : ∀ (p : Phrase Atom) {opened : Nat} {rest : List Fragment},
    opened + p.nesting ≤ maxNestingDepth → Balanced opened rest →
      Balanced opened (p.fragments ++ rest)
  | .atom (.name _), _, _, _, h => h
  | .atom (.place _), _, _, _, h => h
  | .negated p, _, _, deep, h => Phrase.balanced p deep h
  | .group s, opened, rest, deep, h => by
    rw [Phrase.nesting] at deep
    have closed : Balanced (opened + 1) (.closing :: rest) := ⟨by omega, h⟩
    have inside := Sentence.balanced s (by omega) closed
    rw [Phrase.fragments, List.cons_append, List.append_assoc]
    exact ⟨by omega, inside⟩

theorem Sentence.balanced : ∀ (s : Sentence Atom) {opened : Nat} {rest : List Fragment},
    opened + s.nesting ≤ maxNestingDepth → Balanced opened rest →
      Balanced opened (s.fragments ++ rest)
  | .single p, _, _, deep, h => Phrase.balanced p deep h
  | .extend s op p, opened, rest, deep, h => by
    rw [Sentence.nesting] at deep
    have next : Balanced opened (.operator op :: (p.fragments ++ rest)) :=
      Phrase.balanced p (by omega) h
    rw [Sentence.fragments, List.append_assoc, List.cons_append]
    exact Sentence.balanced s (by omega) next

end

/-! ## One character -/

theorem Operator.operatorOf?_of_mem {op : Operator} {c : Char} (h : c ∈ op.signs) :
    (Fragment.operatorOf? c).isSome := by
  have known : op.signs.all (fun c => (Fragment.operatorOf? c).isSome) := by
    cases op <;> decide
  exact List.all_eq_true.mp known c h

namespace Validation

/-- An operand has just ended. -/
def ended (before : Option Char) : Bool := (before.map endsOperand).getD false

theorem check_blanks {blanks : List Char} (h : blanks.all Text.isBlank) (before : Option Char)
    (gap : Bool) (position : Nat) (opened : List Nat) (rest : List Char) :
    ∃ gap' position', check before gap position opened (blanks ++ rest) =
      check before gap' position' opened rest := by
  induction blanks generalizing gap position with
  | nil => exact ⟨gap, position, rfl⟩
  | cons c blanks ih =>
    rw [List.all_cons, Bool.and_eq_true] at h
    obtain ⟨gap', position', same⟩ := ih h.2 true (position + 1)
    refine ⟨gap', position', ?_⟩
    rw [List.cons_append, check, if_pos h.1, same]

/-- A character passes when no operator is missing before it. -/
theorem check_char {c : Char} {before : Option Char} {gap : Bool} {position : Nat}
    {opened opened' : List Nat} (rest : List Char) (blank : Text.isBlank c = false)
    (turn : (before.map (lacksOperator · c gap)).getD false = false)
    (opens : openAfter before gap position c opened = .ok opened') :
    check before gap position opened (c :: rest) =
      check (some c) false (position + 1) opened' rest := by
  rw [check, if_neg (by simp [blank]), if_neg (by simp [turn]), opens]

theorem lacks_of_not_ended {before : Option Char} {c : Char} {gap : Bool}
    (h : ended before = false ∨ startsOperand c = false) :
    (before.map (lacksOperator · c gap)).getD false = false := by
  cases before with
  | none => rfl
  | some d =>
    rcases h with h | h
    · have hd : endsOperand d = false := h
      simp [lacksOperator, hd]
    · simp [lacksOperator, h]

theorem openAfter_word {c : Char} (h : WordLike c) (before : Option Char) (gap : Bool)
    (position : Nat) (opened : List Nat) : openAfter before gap position c opened = .ok opened := by
  simp [openAfter, h.apart.2.2.1, h.apart.2.2.2, h.bar, h.name]

/-- The rest of a name goes with its first character. -/
theorem check_word {w : List Char} (h : ∀ c ∈ w, WordLike c) {before : Char}
    (hbefore : Text.isNameChar before = true) (position : Nat) (opened : List Nat)
    (rest : List Char) :
    ∃ last position', Text.isNameChar last = true ∧
      check (some before) false position opened (w ++ rest) =
        check (some last) false position' opened rest := by
  induction w generalizing before position with
  | nil => exact ⟨before, position, hbefore, rfl⟩
  | cons c w ih =>
    rw [List.forall_mem_cons] at h
    have turn : ((some before).map (lacksOperator · c false)).getD false = false := by
      simp [lacksOperator, hbefore, h.1.name]
    obtain ⟨last, position', hlast, same⟩ := ih h.2 h.1.name (position + 1)
    refine ⟨last, position', hlast, ?_⟩
    rw [List.cons_append, check_char _ h.1.blank turn (openAfter_word h.1 _ _ _ _), same]

theorem openAfter_plain {c : Char} (opening : (c == '(') = false) (closing : (c == ')') = false)
    (bar : Text.isBarMark c = false)
    (known : ((Fragment.operatorOf? c).isSome || Fragment.isNegation c) = true)
    (before : Option Char) (gap : Bool) (position : Nat) (opened : List Nat) :
    openAfter before gap position c opened = .ok opened := by
  simp only [Bool.or_eq_true] at known
  unfold openAfter
  rw [opening, closing, bar]
  rcases known with known | known <;> simp [known]

theorem ended_ne_opening {before : Option Char} (h : ended before = true) :
    (before == some '(') = false := by
  cases before with
  | none => rfl
  | some d =>
    rw [beq_eq_false_iff_ne]
    rintro heq
    cases heq
    exact absurd h (by decide)

/-- What a sign does to the open parentheses keeps them balanced. -/
theorem openAfter_sign {f : Fragment} {c : Char} (hc : c ∈ f.signs) {before : Option Char}
    {fs : List Fragment} {opened : List Nat} (turn : f.starts = !ended before)
    (balanced : Balanced opened.length (f :: fs)) (gap : Bool) (position : Nat) :
    ∃ opened', openAfter before gap position c opened = .ok opened' ∧
      Balanced opened'.length fs := by
  have sign := signOf_of_mem hc
  cases f with
  | name w => cases hc
  | place k => cases hc
  | stray d => cases hc
  | operator op =>
    exact ⟨opened, openAfter_plain sign.opening sign.ends sign.bar
      (by simp [Operator.operatorOf?_of_mem hc]) _ _ _ _, balanced⟩
  | negation =>
    have opening : (c == '(') = false := sign.opening
    have known : Fragment.isNegation c = true := by
      simpa [opening, Fragment.starts] using sign.starts
    exact ⟨opened, openAfter_plain opening sign.ends sign.bar (by simp [known]) _ _ _ _, balanced⟩
  | opening =>
    rw [List.mem_singleton.mp hc]
    refine ⟨position :: opened, ?_, balanced.2⟩
    have room := balanced.1
    simp only [openAfter, beq_self_eq_true, if_true]
    rw [if_neg (by omega)]
  | closing =>
    rw [List.mem_singleton.mp hc]
    have hended : ended before = true := by
      simpa [Fragment.starts] using turn.symm
    obtain ⟨nonempty, balanced⟩ := balanced
    cases opened with
    | nil => cases nonempty
    | cons last opened =>
      refine ⟨opened, ?_, balanced⟩
      simp [openAfter, ended_ne_opening hended]

theorem startsOperand_sign {f : Fragment} {c : Char} (h : SignOf f c) :
    startsOperand c = f.starts := by
  rw [startsOperand, h.name, Bool.false_or, h.starts]

theorem endsOperand_sign {f : Fragment} {c : Char} (h : SignOf f c) : endsOperand c = f.ends := by
  rw [endsOperand, h.name, h.bar, Bool.false_or, Bool.false_or, h.ends]

/-- An operator passes wherever it stands. -/
theorem check_operator {op : Operator} {c : Char} (hc : c ∈ op.signs) (before : Option Char)
    (gap : Bool) (position : Nat) (opened : List Nat) (rest : List Char) :
    check before gap position opened (c :: rest) =
      check (some c) false (position + 1) opened rest := by
  have sign : SignOf (.operator op) c := signOf_of_mem hc
  apply check_char rest sign.blank (lacks_of_not_ended (.inr (startsOperand_sign sign)))
  exact openAfter_plain sign.opening sign.ends sign.bar
    (by simp [Operator.operatorOf?_of_mem hc]) _ _ _ _

/-- A sign passes where its turn is. -/
theorem check_sign {f : Fragment} {c : Char} (hc : c ∈ f.signs) {before : Option Char}
    {fs : List Fragment} {opened : List Nat} (turn : f.starts = !ended before)
    (balanced : Balanced opened.length (f :: fs)) (gap : Bool) (position : Nat)
    (rest : List Char) :
    ∃ opened', Balanced opened'.length fs ∧ check before gap position opened (c :: rest) =
      check (some c) false (position + 1) opened' rest := by
  have sign := signOf_of_mem hc
  obtain ⟨opened', opens, balanced'⟩ := openAfter_sign hc turn balanced gap position
  refine ⟨opened', balanced', check_char rest sign.blank (lacks_of_not_ended ?_) opens⟩
  rw [startsOperand_sign sign, turn]
  cases ended before with
  | false => exact .inl rfl
  | true => exact .inr rfl

/-- A name passes where an operand may start. -/
theorem check_name {w : List Char} (hw : w ≠ []) (h : ∀ c ∈ w, WordLike c) {before : Option Char}
    (turn : ended before = false) (gap : Bool) (position : Nat) (opened : List Nat)
    (rest : List Char) :
    ∃ last position', Text.isNameChar last = true ∧
      check before gap position opened (w ++ rest) =
        check (some last) false position' opened rest := by
  cases w with
  | nil => exact absurd rfl hw
  | cons c w =>
    rw [List.forall_mem_cons] at h
    obtain ⟨last, position', hlast, same⟩ := check_word h.2 h.1.name (position + 1) opened rest
    refine ⟨last, position', hlast, ?_⟩
    rw [List.cons_append, check_char _ h.1.blank (lacks_of_not_ended (.inl turn))
      (openAfter_word h.1 _ _ _ _), same]

theorem check_bar {c mark : Char} (h : WordLike c) (hmark : Text.isBarMark mark) (position : Nat)
    (opened : List Nat) (rest : List Char) :
    check (some c) false position opened (mark :: rest) =
      check (some mark) false (position + 1) opened rest := by
  obtain ⟨blank, name, opening, closing⟩ := isBarMark_apart hmark
  have starts : startsOperand mark = false := by
    have known : mark = Text.macron ∨ mark = Text.overline := by
      simpa [Text.isBarMark] using hmark
    rcases known with rfl | rfl <;> decide
  apply check_char rest blank (lacks_of_not_ended (.inr starts))
  simp [openAfter, opening, closing, hmark, h.name]

/-! ## A spelled formula -/

/-- A spelling passes, and leaves the check where its fragments do. -/
theorem check_spelling {gs fs : List Fragment} {cs : List Char} (h : Spelling gs cs)
    {before : Option Char} {opened : List Nat} (turns : Alternates (ended before) (gs ++ fs))
    (balanced : Balanced opened.length (gs ++ fs)) (gap : Bool) (position : Nat)
    (rest : List Char) :
    ∃ before' position' opened', Alternates (ended before') fs ∧ Balanced opened'.length fs ∧
      check before gap position opened (cs ++ rest) =
        check before' false position' opened' rest := by
  cases h with
  | name hne hw =>
    have turn : ended before = false := by
      simpa [Fragment.starts] using turns.1
    obtain ⟨last, position', hlast, same⟩ := check_name hne hw turn gap position opened rest
    refine ⟨some last, position', opened, ?_, balanced, same⟩
    have hended : ended (some last) = true := by
      simp [ended, endsOperand, hlast]
    rw [hended]
    exact turns.2
  | @sign f c hc =>
    obtain ⟨opened', balanced', same⟩ := check_sign hc turns.1 balanced gap position rest
    refine ⟨some c, position + 1, opened', ?_, balanced', same⟩
    have hended : ended (some c) = f.ends := endsOperand_sign (signOf_of_mem hc)
    rw [hended]
    exact turns.2
  | doubledAnd =>
    have sign : '&' ∈ Operator.and.signs := by simp [Operator.signs]
    refine ⟨some '&', position + 1 + 1, opened, ?_, balanced, ?_⟩
    · have hended : ended (some '&') = false := by decide
      rw [hended]
      exact turns.2
    · rw [List.cons_append, check_operator sign, List.cons_append, check_operator sign]
      rfl
  | doubledOr =>
    have sign : '|' ∈ Operator.or.signs := by simp [Operator.signs]
    refine ⟨some '|', position + 1 + 1, opened, ?_, balanced, ?_⟩
    · have hended : ended (some '|') = false := by decide
      rw [hended]
      exact turns.2
    · rw [List.cons_append, check_operator sign, List.cons_append, check_operator sign]
      rfl
  | @barred c mark hc hmark =>
    have turn : ended before = false := by
      simpa [Fragment.starts] using turns.1
    refine ⟨some mark, position + 1 + 1, opened, ?_, balanced, ?_⟩
    · have hended : ended (some mark) = true := by
        simp [ended, endsOperand, hmark]
      rw [hended]
      exact turns.2.2
    · rw [List.cons_append, check_char _ hc.blank (lacks_of_not_ended (.inl turn))
        (openAfter_word hc _ _ _ _), List.cons_append, check_bar hc hmark]
      rfl

/-- Every spelling of fragments in turn and in balance passes. -/
theorem check_spelled {fs : List Fragment} {cs : List Char} (h : Spelled fs cs)
    {before : Option Char} {opened : List Nat} (turns : Alternates (ended before) fs)
    (balanced : Balanced opened.length fs) (gap : Bool) (position : Nat) :
    check before gap position opened cs = .ok () := by
  induction h generalizing before opened gap position with
  | @done blanks hblanks =>
    obtain ⟨gap', position', same⟩ := check_blanks hblanks before gap position opened []
    rw [List.append_nil] at same
    rw [same, List.eq_nil_of_length_eq_zero balanced]
    rfl
  | @next blanks cs rest gs fs hblanks spelling hrest ih =>
    obtain ⟨gap', position', skip⟩ := check_blanks hblanks before gap position opened (cs ++ rest)
    obtain ⟨before', position'', opened', turns', balanced', same⟩ :=
      check_spelling spelling turns balanced gap' position' rest
    rw [List.append_assoc, skip, same]
    exact ih turns' balanced' false position''

/-! ## What does not pass -/

/-- Where a text passes, what stands behind one of its characters passes behind it. -/
theorem check_behind {xs rest : List Char} {x : Char} (hx : Text.isBlank x = false)
    {before : Option Char} {gap : Bool} {position : Nat} {opened : List Nat}
    (h : check before gap position opened (xs ++ x :: rest) = .ok ()) :
    ∃ position' opened', check (some x) false position' opened' rest = .ok () := by
  induction xs generalizing before gap position opened with
  | nil =>
    rw [List.nil_append, check, if_neg (by simp [hx])] at h
    split at h
    · cases h
    · split at h
      · cases h
      · exact ⟨_, _, h⟩
  | cons c xs ih =>
    rw [List.cons_append, check] at h
    split at h
    · exact ih h
    · split at h
      · cases h
      · split at h
        · cases h
        · exact ih h

/-- A name that follows an operand behind a gap lacks an operator. -/
theorem check_ne_ok_of_gap {xs rest : List Char} {x c : Char} (hx : Text.isBlank x = false)
    (ends : endsOperand x = true) (hc : Text.isNameChar c = true) {before : Option Char}
    {gap : Bool} {position : Nat} {opened : List Nat} :
    check before gap position opened (xs ++ x :: ' ' :: c :: rest) ≠ .ok () := by
  intro h
  have blank : Text.isBlank c = false := by
    cases hb : Text.isBlank c with
    | false => rfl
    | true => cases (isBlank_apart hb).2.symm.trans hc
  obtain ⟨position', opened', behind⟩ := check_behind hx h
  rw [check, if_pos (by decide), check, if_neg (by simp [blank]),
    if_pos (by simp [lacksOperator, ends, startsOperand, hc])] at behind
  cases behind

end Validation

end SwitchingAlgebra
