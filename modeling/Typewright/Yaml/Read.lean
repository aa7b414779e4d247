import Typewright.Yaml.Scan
import Typewright.Yaml.FirstFault

/-!
# Reading YAML

The value of a YAML text.
-/

namespace Typewright.Yaml

def documentValue (n : Node) : Except Fault Value :=
  match valueOf n with
  | .ok v => .ok v
  | .error f => .error (n.firstFault?.getD f)

def read (text : String) : Except Fault Value := do
  let ts ← tokens (Text.joinLineEnds text.toList)
  match ← document ts with
  | some n => documentValue n
  | none => return .null

end Typewright.Yaml
