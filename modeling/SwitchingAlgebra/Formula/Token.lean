-- The tokens of formula notation: names, quoted names, places in braces, signs and
-- parentheses. More texts have tokens here than a source file can hold: words that are reserved
-- there, `_` alone and the blanks of all scripts are let through.
import SwitchingAlgebra.Operator
import SwitchingAlgebra.Text.CharClass

namespace SwitchingAlgebra.Formula

/-- A token. -/
inductive Token where
  | name (n : String)
  | embedded (place : String)
  | negation
  | operator (op : Operator)
  | opening
  | closing
  deriving DecidableEq, Repr

namespace Token

/-- What is being read when a character arrives. Texts are kept as they were read so
far. -/
inductive Mode where
  | between
  | word (read : String)
  /-- One `&` or `|`, which a second one may follow. -/
  | half (c : Char)
  | quotes (read : String)
  | escape (read : String)
  /-- A character given by its number in hexadecimal; `left` counts the digits to come,
  and without a count a brace ends them. -/
  | number (read : String) (left : Option Nat) (code : Nat)
  | braces (read : String)
  deriving DecidableEq, Repr

/-- The operator of `&` or `|`. -/
def ofHalf (c : Char) : Token := .operator (if c == '&' then .and else .or)

/-- A character that starts a token. -/
def start (c : Char) : Option (List Token × Mode) :=
  if Text.isBlank c then some ([], .between)
  else if c == '!' || c == '~' then some ([.negation], .between)
  else if c == '(' then some ([.opening], .between)
  else if c == ')' then some ([.closing], .between)
  else if c == '*' then some ([.operator .and], .between)
  else if c == '+' then some ([.operator .or], .between)
  else if c == '^' then some ([.operator .xor], .between)
  else if c == '&' || c == '|' then some ([], .half c)
  else if c == '"' then some ([], .quotes "")
  else if c == '\x7b' then some ([], .braces "")
  else if Text.isWordChar c then some ([], .word c.toString)
  else none

/-- The value of a hexadecimal digit. -/
def hexValue? (c : Char) : Option Nat :=
  if '0' ≤ c && c ≤ '9' then some (c.toNat - 48)
  else if 'a' ≤ c && c ≤ 'f' then some (c.toNat - 87)
  else if 'A' ≤ c && c ≤ 'F' then some (c.toNat - 55)
  else none

/-- The character behind a backslash. -/
def escaped (read : String) (c : Char) : Option Mode :=
  if c == 'n' then some (.quotes (read.push '\n'))
  else if c == 't' then some (.quotes (read.push '\t'))
  else if c == 'r' then some (.quotes (read.push '\r'))
  else if c == '0' then some (.quotes (read.push '\x00'))
  else if c == '\\' || c == '"' || c == '\'' then some (.quotes (read.push c))
  else if c == 'x' then some (.number read (some 2) 0)
  else if c == 'u' then some (.number read none 0)
  else none

/-- A digit of a character's number, or the brace around it. -/
def numbered (read : String) (left : Option Nat) (code : Nat) (c : Char) : Option Mode :=
  match hexValue? c with
  | some d =>
    let code := 16 * code + d
    match left with
    | some (n + 2) => some (.number read (some (n + 1)) code)
    | some _ => some (.quotes (read.push (Char.ofNat code)))
    | none => some (.number read none code)
  | none =>
    if left.isSome then none
    else if c == '\x7b' || c == '_' then some (.number read none code)
    else if c == '\x7d' then some (.quotes (read.push (Char.ofNat code)))
    else none

/-- The tokens that a character completes, and what is being read after it. -/
def next (mode : Mode) (c : Char) : Option (List Token × Mode) :=
  match mode with
  | .between => start c
  | .word read =>
    if Text.isWordChar c || (read == "r" && c == '#') then some ([], .word (read.push c))
    else (start c).map (fun (ts, m) => (.name read :: ts, m))
  | .half first =>
    if c == first then some ([ofHalf first], .between)
    else (start c).map (fun (ts, m) => (ofHalf first :: ts, m))
  | .quotes read =>
    if c == '"' then some ([.name read], .between)
    else if c == '\\' then some ([], .escape read)
    else some ([], .quotes (read.push c))
  | .escape read => (escaped read c).map (fun m => ([], m))
  | .number read left code => (numbered read left code c).map (fun m => ([], m))
  | .braces read =>
    if c == '\x7d' then some ([.embedded read], .between)
    else if Text.isBlank c then some ([], .braces read)
    else some ([], .braces (read.push c))

/-- The tokens that the end of the text completes. -/
def finish : Mode → Option (List Token)
  | .between => some []
  | .word read => some [.name read]
  | .half c => some [ofHalf c]
  | .quotes _ | .escape _ | .number _ _ _ | .braces _ => none

/-- The tokens of the characters that remain. -/
def ofChars : Mode → List Char → Option (List Token)
  | mode, [] => finish mode
  | mode, c :: rest =>
    match next mode c with
    | some (ts, mode') => (ofChars mode' rest).map (ts ++ ·)
    | none => none

/-- The tokens of a text, unless a character starts none or a token has no end. -/
def ofText? (text : String) : Option (List Token) := ofChars .between text.toList

end Token

end SwitchingAlgebra.Formula
