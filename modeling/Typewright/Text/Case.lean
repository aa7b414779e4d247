import Typewright.Text.CaseTable

/-!
# Changing case

Upper, lower and capitalised text.
-/

namespace Typewright.Text

def longCase (table : List (Nat × List Nat)) (n : Nat) : Option (List Char) :=
  (table.find? (·.1 == n)).map fun e => e.2.map Char.ofNat

def upperChar (c : Char) : List Char :=
  if c.toNat < 128 then [c.toUpper]
  else
    match longCase upperLong c.toNat with
    | some cs => cs
    | none => [((CaseRun.lookup upperRuns c.toNat).map Char.ofNat).getD c]

def titleChar (c : Char) : List Char :=
  if c.toNat < 128 then [c.toUpper]
  else (longCase titleLong c.toNat).getD (upperChar c)

def lowerChar (c : Char) : List Char :=
  if c.toNat < 128 then [c.toLower]
  else
    match longCase lowerLong c.toNat with
    | some cs => cs
    | none => [((CaseRun.lookup lowerRuns c.toNat).map Char.ofNat).getD c]

def nextIsCased (cs : List Char) : Bool :=
  match cs.dropWhile fun c => inRanges caseIgnorableRanges c.toNat with
  | [] => false
  | c :: _ => inRanges casedRanges c.toNat

/-- The lower case of `c` between the characters before it, nearest first, and those after it. -/
def lowerAmid (before : List Char) (c : Char) (after : List Char) : List Char :=
  if c = 'Σ' then [if nextIsCased before && !nextIsCased after then 'ς' else 'σ']
  else lowerChar c

/-- The lower case of the rest of a text, `before` being what precedes it, nearest first. -/
def lowerFrom (before : List Char) : List Char → List Char
  | [] => []
  | c :: rest => lowerAmid before c rest ++ lowerFrom (c :: before) rest

def capitalizeChars : List Char → List Char
  | [] => []
  | c :: rest => titleChar c ++ lowerFrom [c] rest

def upperFirstChars : List Char → List Char
  | [] => []
  | c :: rest => upperChar c ++ rest

def upper (s : String) : String :=
  String.ofList (s.toList.flatMap upperChar)

def lower (s : String) : String :=
  String.ofList (lowerFrom [] s.toList)

def upperFirst (s : String) : String :=
  String.ofList (upperFirstChars s.toList)

end Typewright.Text
