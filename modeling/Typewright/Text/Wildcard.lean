/-!
# Wildcards

Patterns for names: `*` stands for any text, `?` for one character, and brackets for one character of
those between them, or of all others after `!`. A bracket that is not closed stands for itself.
-/

namespace Typewright.Text

inductive Wildcard where
  | anyText
  | anyChar
  | char (c : Char)
  | oneOf (negated : Bool) (ranges : List (Char × Char))
deriving DecidableEq, Repr

namespace Wildcard

/-- The ranges between brackets: two characters with a hyphen between them, or one character. -/
def ranges : List Char → List (Char × Char)
  | a :: '-' :: b :: rest => (a, b) :: ranges rest
  | a :: rest => (a, a) :: ranges rest
  | [] => []

/-- What stands after an opening bracket: whether it is negated, what is between the brackets, and what follows. -/
def bracket? (cs : List Char) : Option (Bool × List Char × List Char) :=
  let (negated, body) :=
    match cs with
    | '!' :: rest => (true, rest)
    | rest => (false, rest)
  let first := if body.head? = some ']' then [']'] else []
  let rest := body.drop first.length
  match rest.dropWhile (· != ']') with
  | _ :: after => some (negated, first ++ rest.takeWhile (· != ']'), after)
  | [] => none

/-- The parts of a pattern. Each of them takes one of the `fuel`. -/
def partsWithin (fuel : Nat) (cs : List Char) : List Wildcard :=
  match fuel, cs with
  | fuel + 1, c :: rest =>
    match c with
    | '*' => .anyText :: partsWithin fuel rest
    | '?' => .anyChar :: partsWithin fuel rest
    | '[' =>
      match bracket? rest with
      | some (negated, inner, after) => .oneOf negated (ranges inner) :: partsWithin fuel after
      | none => .char '[' :: partsWithin fuel rest
    | c => .char c :: partsWithin fuel rest
  | _, _ => []

def ofPattern (pattern : String) : List Wildcard :=
  partsWithin pattern.length pattern.toList

/-- Whether a part that stands for one character stands for this one. -/
def accepts (w : Wildcard) (c : Char) : Bool :=
  match w with
  | .anyText => false
  | .anyChar => true
  | .char d => c == d
  | .oneOf negated ranges => (ranges.any fun r => r.1 ≤ c && c ≤ r.2) != negated

def allow : List Wildcard → List Char → Bool
  | [], cs => cs.isEmpty
  | .anyText :: rest, cs => (List.range (cs.length + 1)).any fun n => allow rest (cs.drop n)
  | w :: rest, c :: cs => w.accepts c && allow rest cs
  | _ :: _, [] => false

def isPattern (s : String) : Bool :=
  s.toList.any fun c => c == '*' || c == '?' || c == '['

end Wildcard

/-- Whether a name fits a pattern. Only a pattern that starts with a point fits hidden names. -/
def nameFits (pattern name : String) : Bool :=
  (pattern.toList.head? = some '.' || name.toList.head? ≠ some '.') &&
    Wildcard.allow (Wildcard.ofPattern pattern) name.toList

end Typewright.Text
