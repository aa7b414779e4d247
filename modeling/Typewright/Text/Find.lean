import Typewright.Text.Classes

/-!
# Finding declarations in text

Small patterns over characters: a pattern takes a beginning of the text and gives what is left.
-/

namespace Typewright.Text

def afterWord (word s : List Char) : Option (List Char) :=
  if word.isPrefixOf s then some (s.drop word.length) else none

def afterBlanks (s : List Char) : List Char :=
  s.dropWhile isBlank

def afterSomeBlanks (s : List Char) : Option (List Char) :=
  match s with
  | c :: rest => if isBlank c then some (afterBlanks rest) else none
  | [] => none

/-- A name of the given characters at the beginning, which must not be empty, and what is left. -/
def nameAtStart (isNameChar : Char → Bool) (s : List Char) : Option (String × List Char) :=
  let name := s.takeWhile isNameChar
  if name.isEmpty then none else some (String.ofList name, s.dropWhile isNameChar)

def findAll {α : Type} (pattern : List Char → Option α) : List Char → List α
  | [] => []
  | c :: rest =>
    match pattern (c :: rest) with
    | some x => x :: findAll pattern rest
    | none => findAll pattern rest

end Typewright.Text
