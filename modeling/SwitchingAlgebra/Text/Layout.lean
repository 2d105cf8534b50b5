-- Small rules of layout: joined texts, padded texts and replaced texts. Widths
-- count characters.

namespace SwitchingAlgebra.Text

/-- Fills a text with blanks on the right up to a width. -/
def padRight (width : Nat) (text : String) : String :=
  text ++ String.ofList (List.replicate (width - text.length) ' ')

/-- Sets a text in single quotes. -/
def inQuotes (text : String) : String := "'" ++ text ++ "'"

/-- The ending of a noun that stands for `count` things. -/
def pluralEnding (count : Nat) : String := if count > 1 then "s" else ""

/-- Replaces every occurrence of a text that is not empty, from left to right.
`skip` counts the characters of the last occurrence that are still to be passed. -/
def replaceFrom (old new : List Char) : Nat → List Char → List Char
  | _, [] => []
  | skip + 1, _ :: rest => replaceFrom old new skip rest
  | 0, c :: rest =>
    if old.isPrefixOf (c :: rest) then new ++ replaceFrom old new (old.length - 1) rest
    else c :: replaceFrom old new 0 rest

/-- Replaces every occurrence of a text that is not empty, from left to right. -/
def replaceAll (old new text : String) : String :=
  String.ofList (replaceFrom old.toList new.toList 0 text.toList)

end SwitchingAlgebra.Text
