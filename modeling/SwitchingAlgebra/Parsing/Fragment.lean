-- The fragments of a written formula: names, signs and parentheses, and placeholders
-- for parts that were read already.
import SwitchingAlgebra.Operator
import SwitchingAlgebra.Text.Bar

namespace SwitchingAlgebra

/-- A fragment of a formula. -/
inductive Fragment where
  /-- A run of word characters. -/
  | name (word : String)
  /-- A part that was read already, by its place. -/
  | place (k : Nat)
  | negation
  | operator (op : Operator)
  | opening
  | closing
  /-- A character that belongs to no other fragment. -/
  | stray (c : Char)
  deriving DecidableEq, Repr

namespace Fragment

/-! ## Spellings -/

/-- The operator that a single character stands for. -/
def operatorOf? : Char → Option Operator
  | '*' | '&' | '∧' => some .and
  | '+' | '|' | '∨' => some .or
  | '^' | '⊕' => some .xor
  | '⊼' => some .nand
  | '⊽' => some .nor
  | '⊻' => some .xnor
  | _ => none

/-- A character that negates what follows. -/
def isNegation (c : Char) : Bool := c == '~' || c == '!' || c == '¬'

/-- The one spelling that an operator has once a formula is taken apart. -/
def operatorText : Operator → String
  | .and => "*"
  | .or => "+"
  | .xor => "^"
  | op => op.glyph.toString

/-- How a fragment is written. -/
def text : Fragment → String
  | .name word => word
  | .place k => s!"@{k}"
  | .negation => "~"
  | .operator op => operatorText op
  | .opening => "("
  | .closing => ")"
  | .stray c => c.toString

/-- How fragments are written, one after the other. -/
def textAll (fs : List Fragment) : String := String.join (fs.map text)

/-! ## Taking a formula apart -/

/-- The fragment of a single character that is no word character. -/
def ofChar (c : Char) : Fragment :=
  match operatorOf? c with
  | some op => .operator op
  | none =>
    if isNegation c then .negation
    else if c == '(' then .opening
    else if c == ')' then .closing
    else .stray c

/-- Puts a word character in front: it joins a name that follows. -/
def consWord (c : Char) : List Fragment → List Fragment
  | .name word :: rest => .name (c.toString ++ word) :: rest
  | fs => .name c.toString :: fs

/-- Takes characters apart. A doubled `&` or `|` is one operator. -/
def ofChars : List Char → List Fragment
  | [] => []
  | '&' :: '&' :: rest => .operator .and :: ofChars rest
  | '|' :: '|' :: rest => .operator .or :: ofChars rest
  | c :: rest => if Text.isWordChar c then consWord c (ofChars rest) else ofChar c :: ofChars rest

/-- Takes a formula apart. Blanks are dropped, and a barred name is read as a negated
one. -/
def ofText (text : String) : List Fragment :=
  ofChars (Text.unbar ['~'] (text.toList.filter (!Text.isBlank ·)))

end Fragment

end SwitchingAlgebra
