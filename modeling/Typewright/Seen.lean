import Typewright.Reference.Tables

/-!
# Types that were seen

The names of the types that were already declared, so that no type is declared twice.
-/

namespace Typewright

/-- Work that keeps the names of the types that were seen. -/
abbrev SeenM := StateT (List Scalar) RefM

namespace Seen

/-- Whether a name is among those seen: the very name, or one that equals it. -/
def has (seen : List Scalar) (name : Scalar) : Bool :=
  seen.any fun x => decide (x = name) || x.same name

def add (seen : List Scalar) (name : Scalar) : List Scalar :=
  if has seen name then seen else seen ++ [name]

end Seen

namespace SeenM

def isSeen (name : Scalar) : SeenM Bool :=
  return Seen.has (← get) name

def mark (name : Scalar) : SeenM Unit :=
  modify (Seen.add · name)

end SeenM

end Typewright
