-- The first look at a written formula, character by character: only known characters,
-- an operator between operands, and parentheses that match.
import SwitchingAlgebra.Limits
import SwitchingAlgebra.Error
import SwitchingAlgebra.Parsing.Fragment

namespace SwitchingAlgebra

/-- Why a formula is refused at first sight. -/
inductive Refusal where
  | fault (fault : SyntaxFault) (position : Option Nat)
  /-- So many parentheses are open at once. -/
  | tooDeep (depth : Nat)
  deriving DecidableEq, Repr

namespace Validation

/-- An operand may end with this character. -/
def endsOperand (c : Char) : Bool := Text.isNameChar c || Text.isBarMark c || c == ')'

/-- An operand may start with this character. -/
def startsOperand (c : Char) : Bool :=
  Text.isNameChar c || c == '(' || Fragment.isNegation c

/-- An operand starts right behind another. Name characters without a gap between them
belong to one name. -/
def lacksOperator (before c : Char) (gap : Bool) : Bool :=
  endsOperand before && startsOperand c &&
    !(Text.isNameChar before && Text.isNameChar c && !gap)

/-- The positions of the open parentheses after a character, the last one first. -/
def openAfter (before : Option Char) (gap : Bool) (position : Nat) (c : Char)
    (opened : List Nat) : Except Refusal (List Nat) :=
  if c == '(' then
    if opened.length + 1 > maxNestingDepth then .error (.tooDeep (opened.length + 1))
    else .ok (position :: opened)
  else if c == ')' then
    if before == some '(' then .error (.fault .emptyParentheses (some position))
    else
      match opened with
      | [] => .error (.fault .unbalancedClosing (some position))
      | _ :: rest => .ok rest
  else if Text.isBarMark c then
    if (before.map Text.isNameChar).getD false && !gap then .ok opened
    else .error (.fault .barWithoutName (some position))
  else if Text.isNameChar c || (Fragment.operatorOf? c).isSome || Fragment.isNegation c then
    .ok opened
  else .error (.fault (.unexpectedCharacter c) (some position))

/-- Goes over the characters that remain. `before` is the last character that is no
blank, and `gap` says that blanks came after it. -/
def check (before : Option Char) (gap : Bool) (position : Nat) (opened : List Nat) :
    List Char → Except Refusal Unit
  | [] =>
    match opened with
    | [] => .ok ()
    | last :: _ => .error (.fault .unclosedOpening (some last))
  | c :: rest =>
    if Text.isBlank c then check before true (position + 1) opened rest
    else if (before.map (lacksOperator · c gap)).getD false then
      .error (.fault .missingOperator (some position))
    else
      match openAfter before gap position c opened with
      | .error refusal => .error refusal
      | .ok opened' => check (some c) false (position + 1) opened' rest

/-- The first look at a formula. -/
def validate (text : String) : Except Refusal Unit :=
  if text.toList.all Text.isBlank then .error (.fault .emptyFormula none)
  else check none false 0 [] text.toList

end Validation

end SwitchingAlgebra
