-- Notations that rendered text can be spelled in.
import SwitchingAlgebra.Operator
import SwitchingAlgebra.Text.Bar

namespace SwitchingAlgebra

/-- A notation for expressions. -/
inductive Dialect where
  /-- Signs of logic, with bars over inverted names. -/
  | unicode
  /-- Signs of arithmetic. -/
  | math
  /-- Signs and words of programming. -/
  | logic
  deriving DecidableEq, Repr

namespace Dialect

/-- How an operator is written. -/
def word : Dialect → Operator → String
  | .unicode, op => op.glyph.toString
  | .math, .and => "*"
  | .math, .or => "+"
  | .math, .xor => "^"
  | .math, .nand => "*~"
  | .math, .nor => "+~"
  | .math, .xnor => "^~"
  | .math, .not => "~"
  | .logic, .and => "&&"
  | .logic, .or => "||"
  | .logic, .xor => "^"
  | .logic, .nand => "nand"
  | .logic, .nor => "nor"
  | .logic, .xnor => "xnor"
  | .logic, .not => "!"

/-- Writes one character of rendered text: a sign becomes the dialect's word, all
else stays. -/
def writeChar (d : Dialect) (c : Char) : List Char :=
  match Operator.ofGlyph? c with
  | some op => (d.word op).toList
  | none => [c]

/-- Spells text that was rendered with the signs of logic in another notation. Barred
names become negated names first. -/
def respell (d : Dialect) (text : String) : String :=
  match d with
  | .unicode => text
  | d => String.ofList ((Text.unbar (d.word .not).toList text.toList).flatMap d.writeChar)

end Dialect

end SwitchingAlgebra
