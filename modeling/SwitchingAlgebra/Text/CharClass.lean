-- The classes of characters that reading and writing go by.
import SwitchingAlgebra.Text.Property.Alphabetic
import SwitchingAlgebra.Text.Property.Number
import SwitchingAlgebra.Text.Property.Decimal
import SwitchingAlgebra.Text.Property.Mark
import SwitchingAlgebra.Text.Property.GraphemeExtend
import SwitchingAlgebra.Text.Property.Unprintable
import SwitchingAlgebra.Text.Property.Age

namespace SwitchingAlgebra.Text

/-! ## Tables -/

/-- Looks a code point up in ranges that ascend. The search ends at the first
range that starts above the point. -/
def inRanges (n : Nat) : List (Nat × Nat) → Bool
  | [] => false
  | (first, last) :: rest =>
    if n < first then false else if n ≤ last then true else inRanges n rest

/-- The characters that space text: the blanks of all scripts and the line ends. -/
def blankRanges : List (Nat × Nat) :=
  [(0x9, 0xd), (0x20, 0x20), (0x85, 0x85), (0xa0, 0xa0), (0x1680, 0x1680), (0x2000, 0x200a),
   (0x2028, 0x2029), (0x202f, 0x202f), (0x205f, 0x205f), (0x3000, 0x3000)]

/-- The punctuation that joins words, the underscore first. -/
def connectorRanges : List (Nat × Nat) :=
  [(0x5f, 0x5f), (0x203f, 0x2040), (0x2054, 0x2054), (0xfe33, 0xfe34), (0xfe4d, 0xfe4f),
   (0xff3f, 0xff3f)]

/-- The two invisible characters that join letters or keep them apart. -/
def joinerRanges : List (Nat × Nat) := [(0x200c, 0x200d)]

/-! ## Classes -/

/-- A blank or a line end. -/
def isBlank (c : Char) : Bool := inRanges c.toNat blankRanges

/-- A letter, or a mark that counts as one. -/
def isAlphabetic (c : Char) : Bool := inRanges c.toNat alphabeticRanges

/-- A digit or another number sign. -/
def isNumber (c : Char) : Bool := inRanges c.toNat numberRanges

/-- A character that a name in a formula may hold: a letter, a number or `_`. -/
def isNameChar (c : Char) : Bool := isAlphabetic c || isNumber c || c == '_'

/-- A combining mark. -/
def isMark (c : Char) : Bool := inRanges c.toNat markRanges

/-- A character that the newest version of the standard added. -/
def isNewest (c : Char) : Bool := inRanges c.toNat newestRanges

/-- A character of a word. The combining marks are word characters, and of the
numbers only digits and letter-like ones are. Words go by the version before the
newest: what the newest one added may stand in a name, but it makes no word. -/
def isWordChar (c : Char) : Bool :=
  (isAlphabetic c || inRanges c.toNat decimalRanges || isMark c ||
    inRanges c.toNat connectorRanges || inRanges c.toNat joinerRanges) && !isNewest c

/-- A character that joins the one before it. -/
def extendsGrapheme (c : Char) : Bool := inRanges c.toNat graphemeExtendRanges

/-- A combining mark that joins the character before it. The few letters that join,
such as the halfwidth sound marks, have a look of their own and are left out. -/
def isJoiningMark (c : Char) : Bool := isMark c && extendsGrapheme c

/-- A character that can be seen, or the plain space. -/
def isPrintable (c : Char) : Bool := c == ' ' || !inRanges c.toNat unprintableRanges

/-- A text that is one word, all of it name characters. -/
def isSingleWord (text : String) : Bool := !text.isEmpty && text.toList.all isNameChar

end SwitchingAlgebra.Text
