-- Whole words inside a text: a word starts and ends where word characters meet
-- other characters or the ends of the text.
import SwitchingAlgebra.Text.CharClass

namespace SwitchingAlgebra.Text

/-- The text begins with a word character. -/
def startsWithWord : List Char → Bool
  | [] => false
  | c :: _ => isWordChar c

/-- The last character is a word character; `before` stands for what precedes the text. -/
def endsInWord (before : Bool) (cs : List Char) : Bool :=
  match cs.getLast? with
  | some c => isWordChar c
  | none => before

/-- `word` stands at the front of a text as a whole word. `before` says whether a word
character precedes the text. -/
def isWordAt (word : List Char) (before : Bool) (cs : List Char) : Bool :=
  word.isPrefixOf cs && before != startsWithWord cs &&
    endsInWord before word != startsWithWord (cs.drop word.length)

/-- Replaces the first place where `old` stands as a whole word. `before` says whether
a word character precedes the text. -/
def replaceWordFrom (old new : List Char) (before : Bool) : List Char → Option (List Char)
  | [] => if isWordAt old before [] then some new else none
  | c :: rest =>
    if isWordAt old before (c :: rest) then some (new ++ (c :: rest).drop old.length)
    else (replaceWordFrom old new (isWordChar c) rest).map (c :: ·)

/-- Replaces the first place where `old` stands as a whole word in `text`. -/
def replaceWord? (old new text : String) : Option String :=
  (replaceWordFrom old.toList new.toList false text.toList).map String.ofList

end SwitchingAlgebra.Text
