import Typewright.Document.Access
import Typewright.Text.Case

/-!
# Words of a name

Names are cut into words at underscores, hyphens and humps, and put together again in the case that
a target asks for.
-/

namespace Typewright.Naming

def isCapital (c : Char) : Bool :=
  c.isUpper

def isSmallOrDigit (c : Char) : Bool :=
  c.isLower || c.isDigit

/-- The name in Pascal case: the words between underscores and hyphens, each with its first letter
raised, the rest untouched. -/
def pascal (name : String) : String :=
  let pieces := Text.splitChars '_' (name.toList.map fun c => if c = '-' then '_' else c)
  String.ofList (pieces.flatMap Text.upperFirstChars)

def capitalWords (name : String) : String :=
  String.ofList ((Text.splitChars '_' name.toList).flatMap Text.capitalizeChars)

/-- The words between underscores, each with its first letter raised. An empty word is a fault. -/
def raisedWords (name : String) : Except Fault String := do
  let words ← (Text.splitChars '_' name.toList).mapM fun
    | [] => .error (.outOfRange .str)
    | word => .ok (Text.upperFirstChars word)
  return String.ofList words.flatten

/-- Puts an underscore before each capital that is followed by small letters and preceded by any character but a line
end. -/
def breakHumps (s : List Char) : List Char :=
  match s with
  | c :: u :: l :: rest =>
    if c ≠ '\n' ∧ isCapital u ∧ l.isLower then
      c :: '_' :: u :: l :: (rest.takeWhile Char.isLower ++ breakHumps (rest.dropWhile Char.isLower))
    else c :: breakHumps (u :: l :: rest)
  | s => s
termination_by s.length
decreasing_by
  · have := (List.dropWhile_sublist (p := Char.isLower) (l := rest)).length_le
    simp only [List.length_cons]
    omega
  · simp

/-- Puts an underscore between a small letter or digit and the capital after it. -/
def breakJoints : List Char → List Char
  | a :: b :: rest =>
    if isSmallOrDigit a ∧ isCapital b then a :: '_' :: b :: breakJoints rest
    else a :: breakJoints (b :: rest)
  | s => s

def snakeChars (name : List Char) : List Char :=
  Text.lowerFrom [] (breakJoints (breakHumps name))

def snake (name : String) : String :=
  String.ofList (snakeChars name.toList)

/-- The name in camel case: its snake case with the words after the first capitalised. -/
def camel (name : String) : String :=
  match Text.splitChars '_' (snakeChars name.toList) with
  | [] => ""
  | word :: words => String.ofList (word ++ words.flatMap Text.capitalizeChars)

/-- The Pascal case of a value; a value that counts as false has the empty name. -/
def pascalOf (v : Value) : Except Fault String :=
  if !v.truthy then .ok "" else return pascal (← v.replaceable)

def camelOf (v : Value) : Except Fault String :=
  if !v.truthy then .ok "" else return camel (← v.matchable)

def snakeOf (v : Value) : Except Fault String :=
  return snake (← v.matchable)

def capitalWordsOf (v : Value) : Except Fault String :=
  return capitalWords (← v.textFor "split")

def raisedWordsOf (v : Value) : Except Fault String := do
  raisedWords (← v.textFor "split")

end Typewright.Naming
