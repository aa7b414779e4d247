import Typewright.Text.Squeeze

/-!
# Constant case

Names of capitals, digits and single underscores, as protocol buffer enumerations have them.
-/

namespace Typewright.Naming

def isConstantChar (c : Char) : Bool :=
  c.isUpper || c.isDigit || c == '_'

/-- The name with every other character made an underscore, underscores single and none at either end. -/
def constantCase (name : String) : String :=
  let marked := name.toList.map fun c => if isConstantChar c then c else '_'
  let led := if marked.head?.any Char.isDigit then "VALUE_".toList ++ marked else marked
  String.ofList (Text.trimChars (· == '_') (Text.squeeze '_' led))

end Typewright.Naming
