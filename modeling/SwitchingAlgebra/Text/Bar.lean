-- Negation bars: marks over a name that say it is inverted. One character takes a
-- macron, a longer name takes an overline over every character.
import SwitchingAlgebra.Text.CharClass

namespace SwitchingAlgebra.Text

/-- The mark over a name of one character. -/
def macron : Char := '\u0304'

/-- The mark over each character of a longer name. -/
def overline : Char := '\u0305'

/-- One of the two marks. -/
def isBarMark (c : Char) : Bool := c == macron || c == overline

/-- Takes every bar mark away. -/
def stripBars (cs : List Char) : List Char := cs.filter (!isBarMark ·)

/-- Puts a bar over a text that has none. -/
def putBar : List Char → List Char
  | [] => []
  | [c] => [c, macron]
  | cs => cs.flatMap (fun c => [c, overline])

/-- Toggles the bar: a text with marks loses them all, any other gets a bar. -/
def bar (text : String) : String :=
  let cs := text.toList
  String.ofList (if cs.any isBarMark then stripBars cs else putBar cs)

/-! ## Bars inside a longer text -/

/-- Writes `sign` and the bare name in place of every barred name. A barred name is
a word character with a macron, or a longest run of word characters with overlines;
`inRun` says that such a run has begun. -/
def unbarFrom (sign : List Char) : Bool → List Char → List Char
  | _, [] => []
  | _, [c] => [c]
  | inRun, c :: mark :: rest =>
    if isWordChar c && mark == overline then
      (if inRun then [] else sign) ++ stripBars [c] ++ unbarFrom sign true rest
    else if isWordChar c && mark == macron then
      sign ++ stripBars [c] ++ unbarFrom sign false rest
    else
      c :: unbarFrom sign false (mark :: rest)

/-- Writes `sign` in front of every barred name and takes its bar away. -/
def unbar (sign : List Char) (cs : List Char) : List Char := unbarFrom sign false cs

end SwitchingAlgebra.Text
