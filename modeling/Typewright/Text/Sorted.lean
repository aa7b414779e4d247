/-!
# Sorted texts

Lists of texts in the order of their characters, and lists of texts as sets.
-/

namespace Typewright.Text

def sorted (xs : List String) : List String :=
  xs.mergeSort fun a b => decide (a ≤ b)

def add (xs : List String) (x : String) : List String :=
  if xs.contains x then xs else xs ++ [x]

def sortedSet (xs : List String) : List String :=
  sorted (xs.foldl add [])

end Typewright.Text
