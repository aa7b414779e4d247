import Typewright.Files.Tree
import Typewright.Yaml.Read

/-!
# Loading documents

A document is YAML if its file name says so, and JSON otherwise.
-/

namespace Typewright

inductive YamlSupport where
  | on | off | incomplete
deriving DecidableEq, Repr

namespace Load

def isYaml (path : String) : Bool :=
  [".yaml", ".yml"].contains (Path.extension (Text.lower path))

def notices (support : YamlSupport) (path : String) : List String :=
  if !isYaml path then []
  else
    match support with
    | .on => []
    | .off =>
      ["Warning: YAML support requires PyYAML. Install with 'pip install pyyaml'",
        "Attempting to parse as JSON instead..."]
    | .incomplete => ["YAML support incomplete. Parsing as JSON instead..."]

def complaints (path : String) : Fault → List String
  | .yaml => ["Error: " ++ path ++ " is not a valid YAML file"]
  | .json _ _ => ["Error: " ++ path ++ " is not a valid JSON file"]
  | .file .missing _ => ["Error: Schema file '" ++ path ++ "' not found"]
  | _ => []

def checkMap (path : String) (v : Value) : Except Fault Value :=
  if v.isMap then .ok v
  else .error (.content ("Error: " ++ path ++ " does not contain a valid object schema"))

def document (t : FileTree) (support : YamlSupport) (path : String) : Except Fault Value := do
  let bytes ← t.read path
  if isYaml path then
    match support with
    | .on => checkMap path (← Yaml.read (← decodeText false bytes))
    | _ => Json.read (← decodeText true bytes)
  else checkMap path (← Json.read (← decodeText true bytes))

/-- Loads a document: what is reported on the way, and the outcome. A document that can be read is
read twice. -/
def load (t : FileTree) (support : YamlSupport) (path : String) :
    List String × Except Fault Value :=
  let before := notices support path
  match document t support path with
  | .ok v => (before ++ before, .ok v)
  | .error e => (before ++ complaints path e, .error e)

end Load

end Typewright
