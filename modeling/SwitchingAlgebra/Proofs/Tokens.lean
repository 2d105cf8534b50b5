-- The grammar of formulas, as lists of tokens. Operands and operators take turns in them, so that
-- their tokens are told apart even where no blanks divide them.
import SwitchingAlgebra.Proofs.Cutting

namespace SwitchingAlgebra

/-! ## The grammar of formulas -/

/-- The spellings of the binary operators. -/
def binarySigns : List (List Char) :=
  [['*'], ['&'], ['&', '&'], ['∧'], ['+'], ['|'], ['|', '|'], ['∨'], ['^'], ['⊕'], ['⊼'], ['⊽'],
    ['⊻']]

mutual

/-- The tokens of an operand, with parentheses at most so deep: a name, a name of one character
under a bar, a formula in parentheses, or one of these behind negations. -/
inductive UnaryTokens : Nat → List (List Char) → Prop
  | name {depth : Nat} {cs : List Char} : cs ≠ [] → (∀ c ∈ cs, Text.isNameChar c) →
      UnaryTokens depth [cs]
  | barred {depth : Nat} {c mark : Char} : Text.isNameChar c → Text.isBarMark mark →
      UnaryTokens depth [[c, mark]]
  | group {depth : Nat} {ts : List (List Char)} : FormulaTokens depth ts →
      UnaryTokens (depth + 1) (['('] :: (ts ++ [[')']]))
  | negated {depth : Nat} {sign : Char} {ts : List (List Char)} : sign ∈ ['~', '!', '¬'] →
      UnaryTokens depth ts → UnaryTokens depth ([sign] :: ts)

/-- The tokens of a formula: operands that binary operators join. -/
inductive FormulaTokens : Nat → List (List Char) → Prop
  | single {depth : Nat} {ts : List (List Char)} : UnaryTokens depth ts → FormulaTokens depth ts
  | extend {depth : Nat} {ts us : List (List Char)} {sign : List Char} : FormulaTokens depth ts →
      sign ∈ binarySigns → UnaryTokens depth us → FormulaTokens depth (ts ++ sign :: us)

end

/-- Operands and operators take turns. `ended` says that an operand has just ended: then no
token may start one, and otherwise the next token has to. The last token ends an operand. -/
def InTurn : Bool → List (List Char) → Prop
  | ended, [] => ended = true
  | ended, t :: ts => t.head?.any Validation.startsOperand = !ended ∧
    InTurn (t.getLast?.any Validation.endsOperand) ts

/-! ## The tokens of a formula -/

/-- What makes characters one token, whatever stands around them. -/
structure IsToken (t : List Char) : Prop where
  nonempty : t ≠ []
  joined : t.IsChain (fun c d => Text.touches c d)
  unmarked : Unmarked t

theorem unmarked_of_name {c : Char} (hc : Text.isNameChar c = true) (cs : List Char) :
    Unmarked (c :: cs) := by
  intro d hd
  cases hd
  cases bar : Text.isBarMark c with
  | false => rfl
  | true =>
    rw [(isBarMark_apart bar).2.1] at hc
    cases hc

theorem IsToken.name {cs : List Char} (hne : cs ≠ []) (h : ∀ c ∈ cs, Text.isNameChar c) :
    IsToken cs where
  nonempty := hne
  joined := by
    rw [List.isChain_iff_getElem]
    intro i hi
    have first := h cs[i] (List.getElem_mem _)
    have second := h cs[i + 1] (List.getElem_mem _)
    simp [Text.touches, Text.goesOn, first, second]
  unmarked := by
    cases cs with
    | nil => exact absurd rfl hne
    | cons c cs => exact unmarked_of_name (h c (List.mem_cons_self ..)) cs

theorem IsToken.barred {c mark : Char} (hc : Text.isNameChar c) (hmark : Text.isBarMark mark) :
    IsToken [c, mark] where
  nonempty := by simp
  joined := by simp [Text.touches, Text.goesOn, hc, hmark]
  unmarked := unmarked_of_name hc _

theorem IsToken.sign {f : Fragment} {c : Char} (hc : c ∈ f.signs) : IsToken [c] where
  nonempty := by simp
  joined := .singleton c
  unmarked := by
    intro d hd
    cases hd
    exact (signOf_of_mem hc).bar

theorem IsToken.doubled {c : Char} (hc : c = '&' ∨ c = '|') : IsToken [c, c] where
  nonempty := by simp
  joined := by
    rcases hc with rfl | rfl
    · simp [Text.touches, Text.doubles]
    · simp [Text.touches, Text.doubles]
  unmarked := by
    intro d hd
    cases hd
    rcases hc with rfl | rfl <;> decide

theorem mem_binarySigns {op : Operator} {c : Char} (h : c ∈ op.signs) : [c] ∈ binarySigns := by
  have known : op.signs.all (fun c => [c] ∈ binarySigns) := by
    cases op <;> decide
  exact of_decide_eq_true (List.all_eq_true.mp known c h)

/-- A binary operator is spelled by one of its signs, or by a sign that is doubled. -/
theorem binarySigns_cases {sign : List Char} (h : sign ∈ binarySigns) :
    ∃ op c, c ∈ Operator.signs op ∧ (sign = [c] ∨ (c = '&' ∨ c = '|') ∧ sign = [c, c]) := by
  have table : binarySigns.all (fun sign => Operator.all.any (fun op => op.signs.any (fun c =>
      sign = [c] ∨ (c = '&' ∨ c = '|') ∧ sign = [c, c]))) := by
    decide
  obtain ⟨op, -, entry⟩ := List.any_eq_true.mp (List.all_eq_true.mp table sign h)
  obtain ⟨c, hc, known⟩ := List.any_eq_true.mp entry
  exact ⟨op, c, hc, of_decide_eq_true known⟩

theorem isToken_of_mem_binarySigns {sign : List Char} (h : sign ∈ binarySigns) : IsToken sign := by
  obtain ⟨op, c, hc, rfl | ⟨double, rfl⟩⟩ := binarySigns_cases h
  · exact .sign (f := .operator op) hc
  · exact .doubled double

mutual

theorem UnaryTokens.isToken {depth : Nat} {ts : List (List Char)} :
    UnaryTokens depth ts → ∀ t ∈ ts, IsToken t
  | .name hne hall => by simpa using IsToken.name hne hall
  | .barred hc hmark => by simpa using IsToken.barred hc hmark
  | .group inner => by
    have opening : IsToken ['('] := .sign (f := .opening) (by decide)
    have closing : IsToken [')'] := .sign (f := .closing) (by decide)
    simp only [List.mem_cons, List.mem_append, List.not_mem_nil, or_false]
    rintro t (rfl | ht | rfl)
    · exact opening
    · exact inner.isToken t ht
    · exact closing
  | .negated hsign inner =>
    List.forall_mem_cons.mpr ⟨.sign (f := .negation) hsign, inner.isToken⟩

theorem FormulaTokens.isToken {depth : Nat} {ts : List (List Char)} :
    FormulaTokens depth ts → ∀ t ∈ ts, IsToken t
  | .single unary => unary.isToken
  | .extend formula hsign unary => by
    rw [List.forall_mem_append, List.forall_mem_cons]
    exact ⟨formula.isToken, isToken_of_mem_binarySigns hsign, unary.isToken⟩

end

/-- A name stands where an operand is due, and ends it. -/
theorem InTurn.name {cs : List Char} (hne : cs ≠ []) (h : ∀ c ∈ cs, Text.isNameChar c)
    {rest : List (List Char)} (turns : InTurn true rest) : InTurn false (cs :: rest) := by
  have first := h _ (List.head_mem hne)
  have last := h _ (List.getLast_mem hne)
  have ended : cs.getLast?.any Validation.endsOperand = true := by
    rw [List.getLast?_eq_some_getLast hne]
    simp [Validation.endsOperand, last]
  refine ⟨?_, ended.symm ▸ turns⟩
  rw [List.head?_eq_some_head hne]
  simp [Validation.startsOperand, first]

theorem InTurn.barred {c mark : Char} (hc : Text.isNameChar c) (hmark : Text.isBarMark mark)
    {rest : List (List Char)} (turns : InTurn true rest) : InTurn false ([c, mark] :: rest) := by
  have ended : [c, mark].getLast?.any Validation.endsOperand = true := by
    simp [Validation.endsOperand, hmark]
  exact ⟨by simp [Validation.startsOperand, hc], ended.symm ▸ turns⟩

/-- A sign is in turn where its fragment is. -/
theorem inTurn_sign {f : Fragment} {c : Char} (hc : c ∈ f.signs) {ended : Bool}
    {rest : List (List Char)} :
    InTurn ended ([c] :: rest) ↔ f.starts = !ended ∧ InTurn f.ends rest := by
  have sign := signOf_of_mem hc
  simp [InTurn, Validation.startsOperand_sign sign, Validation.endsOperand_sign sign]

theorem InTurn.binary {sign : List Char} (hsign : sign ∈ binarySigns) {rest : List (List Char)}
    (turns : InTurn false rest) : InTurn true (sign :: rest) := by
  obtain ⟨op, c, hc, rfl | ⟨double, rfl⟩⟩ := binarySigns_cases hsign
  · exact (inTurn_sign (f := .operator op) hc).mpr ⟨rfl, turns⟩
  · exact (inTurn_sign (f := .operator op) hc).mpr ⟨rfl, turns⟩

mutual

theorem UnaryTokens.inTurn {depth : Nat} {ts rest : List (List Char)} :
    UnaryTokens depth ts → InTurn true rest → InTurn false (ts ++ rest)
  | .name hne hall, turns => .name hne hall turns
  | .barred hc hmark, turns => .barred hc hmark turns
  | .group inner, turns => by
    have closed : InTurn true ([')'] :: rest) :=
      (inTurn_sign (f := .closing) (by decide)).mpr ⟨rfl, turns⟩
    rw [List.cons_append, List.append_assoc]
    exact (inTurn_sign (f := .opening) (by decide)).mpr ⟨rfl, inner.inTurn closed⟩
  | .negated hsign inner, turns =>
    (inTurn_sign (f := .negation) hsign).mpr ⟨rfl, inner.inTurn turns⟩

theorem FormulaTokens.inTurn {depth : Nat} {ts rest : List (List Char)} :
    FormulaTokens depth ts → InTurn true rest → InTurn false (ts ++ rest)
  | .single unary, turns => unary.inTurn turns
  | .extend formula hsign unary, turns => by
    rw [List.append_assoc]
    exact formula.inTurn (.binary hsign (unary.inTurn turns))

end

theorem FormulaTokens.inTurn_false {depth : Nat} {ts : List (List Char)}
    (h : FormulaTokens depth ts) : InTurn false ts := by
  have turns : InTurn false (ts ++ []) := h.inTurn rfl
  rwa [List.append_nil] at turns

/-- Where an operand ends and none starts, or the other way round, one token does not go on. -/
theorem touches_eq_false {c d : Char} (turn : Validation.startsOperand d = !Validation.endsOperand c)
    (unmarked : Text.isBarMark d = false) : Text.touches c d = false := by
  have goes : Text.goesOn c d = false := by
    cases hc : Text.isNameChar c with
    | false => simp [Text.goesOn, hc]
    | true =>
      -- a name may be ending here, so that no other one begins
      have starts : Validation.startsOperand d = false := by
        simpa [Validation.endsOperand, hc] using turn
      rw [Validation.startsOperand, Bool.or_assoc, Bool.or_eq_false_iff] at starts
      simp [Text.goesOn, starts.1, unmarked]
  have double : Text.doubles c d = false := by
    rw [← Bool.not_eq_true]
    intro double
    simp only [Text.doubles, Bool.and_eq_true, beq_iff_eq, Bool.or_eq_true] at double
    obtain ⟨rfl, rfl | rfl⟩ := double
    · exact absurd turn (by decide)
    · exact absurd turn (by decide)
  rw [Text.touches, goes, double, Bool.or_false]

/-- Tokens in turn stand apart, even where no blanks stand between them. -/
theorem InTurn.apart {ended : Bool} {ts : List (List Char)} (turns : InTurn ended ts)
    (h : ∀ t ∈ ts, IsToken t) :
    ts.IsChain (fun t u => ∃ ht hu, Text.touches (t.getLast ht) (u.head hu) = false) := by
  induction ts generalizing ended with
  | nil => exact .nil
  | cons t ts ih =>
    rw [List.forall_mem_cons] at h
    refine List.isChain_cons.mpr ⟨?_, ih turns.2 h.2⟩
    intro u hu
    obtain ⟨us, rfl⟩ := List.head?_eq_some_iff.mp hu
    have second := h.2 u (List.mem_cons_self ..)
    refine ⟨h.1.nonempty, second.nonempty, touches_eq_false ?_ ?_⟩
    · have turn := turns.2.1
      rw [List.getLast?_eq_some_getLast h.1.nonempty, List.head?_eq_some_head second.nonempty] at turn
      exact turn
    · exact second.unmarked _ (List.head_mem_head? _)

/-- The tokens of a formula are what the text of it is cut into. -/
theorem FormulaTokens.splitBy_flatten {depth : Nat} {ts : List (List Char)}
    (h : FormulaTokens depth ts) : ts.flatten.splitBy Text.touches = ts := by
  refine List.splitBy_flatten ?_ (fun t ht => (h.isToken t ht).joined)
    (h.inTurn_false.apart h.isToken)
  exact fun hnil => (h.isToken [] hnil).nonempty rfl

end SwitchingAlgebra
