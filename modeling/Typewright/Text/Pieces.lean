/-!
# Cutting and joining text

Splitting at a mark, searching, replacing and trimming.
-/

namespace Typewright.Text

def hasInfix (pat : List Char) : List Char → Bool
  | [] => pat.isEmpty
  | c :: rest => pat.isPrefixOf (c :: rest) || hasInfix pat rest

/-- The pieces between the marks; a text without the mark is one piece. -/
def splitChars (mark : Char) : List Char → List (List Char)
  | [] => [[]]
  | c :: rest =>
    if c = mark then [] :: splitChars mark rest
    else
      match splitChars mark rest with
      | [] => [[c]]
      | piece :: pieces => (c :: piece) :: pieces

/-- Replaces `pat`, from left to right and without overlap, by `new`. An empty `pat` changes
nothing. -/
def replaceChars (pat new : List Char) (s : List Char) : List Char :=
  match s with
  | [] => []
  | c :: rest =>
    if pat.isPrefixOf (c :: rest) && !pat.isEmpty then
      new ++ replaceChars pat new (rest.drop (pat.length - 1))
    else c :: replaceChars pat new rest
termination_by s.length
decreasing_by
  · simp only [List.length_drop, List.length_cons]; omega
  · simp

def trimChars (p : Char → Bool) (s : List Char) : List Char :=
  ((s.dropWhile p).reverse.dropWhile p).reverse

def contains (s pat : String) : Bool :=
  hasInfix pat.toList s.toList

def startsWith (s pat : String) : Bool :=
  pat.toList.isPrefixOf s.toList

def endsWith (s pat : String) : Bool :=
  pat.toList.isSuffixOf s.toList

def split (mark : Char) (s : String) : List String :=
  (splitChars mark s.toList).map String.ofList

def lastPiece (mark : Char) (s : String) : String :=
  (split mark s).getLastD ""

def replace (pat new s : String) : String :=
  String.ofList (replaceChars pat.toList new.toList s.toList)

def without (mark : Char) (s : String) : String :=
  String.ofList (s.toList.filter (· != mark))

def dropFirst (n : Nat) (s : String) : String :=
  String.ofList (s.toList.drop n)

def join (sep : String) (parts : List String) : String :=
  sep.intercalate parts

def blanks (n : Nat) : String :=
  String.ofList (List.replicate n ' ')

end Typewright.Text
