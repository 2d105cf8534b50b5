-- Quoted text in messages. Quotes, backslashes and line controls are escaped by a
-- letter; what cannot be seen by itself is escaped by its number.
import SwitchingAlgebra.Text.CharClass

namespace SwitchingAlgebra.Text

/-- A code point in hexadecimal, between braces. -/
def numberEscape (c : Char) : String :=
  "\\u\x7b" ++ String.ofList (Nat.toDigits 16 c.toNat) ++ "\x7d"

/-- One character between quotes. A mark that joins the character before it is given
by its number, so that it cannot change the look of the quote. -/
def quoteChar (c : Char) : String :=
  if c == '\x00' then "\\0"
  else if c == '\t' then "\\t"
  else if c == '\r' then "\\r"
  else if c == '\n' then "\\n"
  else if c == '"' then "\\\""
  else if c == '\\' then "\\\\"
  else if isJoiningMark c || !isPrintable c then numberEscape c
  else c.toString

/-- A text in double quotes. -/
def quoted (text : String) : String :=
  "\"" ++ String.join (text.toList.map quoteChar) ++ "\""

end SwitchingAlgebra.Text
