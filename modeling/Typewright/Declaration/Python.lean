import Typewright.Naming.EnumMember
import Typewright.PropertyType.Python

/-!
# Python declarations

A schema becomes a class: a model in one of the two styles, or an enumeration.
-/

namespace Typewright.Python

def docLine (text : String) : List String :=
  if text.isEmpty then [] else ["    \"\"\"" ++ text ++ "\"\"\""]

structure Member where
  name : String
  value : String
  doc : String
deriving DecidableEq, Repr

def Member.lines (m : Member) : List String :=
  ("    " ++ m.name ++ " = " ++ m.value) :: docLine m.doc

def members (title : String) (names descriptions : Value) (i : Nat) :
    List Value → Except Fault (List Member)
  | [] => return []
  | value :: rest => do
    let name ← Naming.memberName names value i (.str title)
    let description ← Naming.memberDescription descriptions value i
    let written := if value.isText then "'" ++ value.text ++ "'" else value.text
    return ⟨name.text, written, description.saying⟩ ::
      (← members title names descriptions (i + 1) rest)

def enumLines (style : PythonStyle) (title : String) (schema : Value) :
    Except Fault (List String) := do
  let description ← schema.fieldD "description" (.str "")
  let values ← schema.fieldD "enum" (.list [])
  let descriptions ← schema.fieldD "enumDescriptions" .empty
  let names ← schema.fieldD "enumNames" .empty
  let ofTexts := style = .pydantic && ((← schema.field? "type").getD .null).isStr "string"
  let head := ("class " ++ title ++ (if ofTexts then "(str, Enum):" else "(Enum):")) ::
    docLine description.saying
  if !values.truthy then return head ++ ["    pass"]
  let members ← members title names descriptions 0 (← values.items)
  return head ++ members.flatMap Member.lines

/-- The bounds that a property puts on its value; nothing where there is none. -/
structure Bounds where
  minimum : Value
  maximum : Value
  exclusiveMinimum : Value
  exclusiveMaximum : Value

def Bounds.ofSchema (schema : Value) : Except Fault Bounds := do
  let bound (name : String) : Except Fault Value := return (← schema.field? name).getD .null
  return ⟨← bound "minimum", ← bound "maximum", ← bound "exclusiveMinimum",
    ← bound "exclusiveMaximum"⟩

def Bounds.labelled (b : Bounds) (minimum maximum exclusiveMinimum exclusiveMaximum : String) :
    List String :=
  [(minimum, b.minimum), (maximum, b.maximum), (exclusiveMinimum, b.exclusiveMinimum),
    (exclusiveMaximum, b.exclusiveMaximum)].filterMap fun (label, v) =>
      if v.isNull then none else some (label ++ v.text)

/-- A field of a model. Its default is nothing if there is none. -/
structure Field where
  name : String
  type : String
  required : Bool
  default : Value
  description : String
  bounds : Bounds

/-- Whether a default is a list or a map, of which every object needs one of its own. -/
def isShared : Value → Bool
  | .list _ => true
  | .map _ => true
  | _ => false

def defaultText (v : Value) : String :=
  if v.isText then v.quoted else v.text

def Field.escaped (f : Field) : String :=
  Text.replace "\"" "\\\"" f.description

def Field.defaultParam (f : Field) : String :=
  if f.default.isNull then (if f.required then "..." else "default=None")
  else if isShared f.default then "default_factory=lambda: " ++ f.default.quoted
  else "default=" ++ defaultText f.default

def Field.params (f : Field) : String :=
  Text.join ", " (f.defaultParam ::
    (if f.description.isEmpty then [] else ["description=\"" ++ f.escaped ++ "\""]) ++
    f.bounds.labelled "ge=" "le=" "gt=" "lt=")

def Field.assigned (f : Field) : String :=
  if f.required || isShared f.default then ""
  else if f.default.isNull then " = None"
  else " = " ++ defaultText f.default

def Field.modelLines (f : Field) : List String :=
  ("    " ++ f.name ++ ": Annotated[" ++
    (if f.required then f.type else "Optional[" ++ f.type ++ "]") ++ ", Field(" ++ f.params ++ ")]" ++
    f.assigned) :: docLine (Text.replace "\n" " " f.escaped)

def Field.boundsNote (f : Field) : String :=
  let said := Text.join ", "
    (f.bounds.labelled "minimum: " "maximum: " "exclusive minimum: " "exclusive maximum: ")
  if said.isEmpty then "" else " (" ++ said ++ ")"

def Field.dataLine (f : Field) : String :=
  "    " ++ f.name ++ ": " ++
    (if f.default.isNull then
      (if f.required then f.type else "Optional[" ++ f.type ++ "] = None")
    else if isShared f.default then
      f.type ++ " = field(default_factory=lambda: " ++ f.default.quoted ++ ")"
    else f.type ++ " = " ++ defaultText f.default)

def Field.dataLines (f : Field) : List String :=
  f.dataLine :: docLine (Text.replace "\n" " " f.description ++ f.boundsNote)

def Field.lines (style : PythonStyle) (f : Field) : List String :=
  match style with
  | .pydantic => f.modelLines
  | .dataclass => f.dataLines

/-- The text of a description, which has to be text if it says anything. -/
def descriptionText (v : Value) : Except Fault String :=
  if v.truthy then v.replaceable else return ""

def field (scope : Option RefScope) (style : PythonStyle) (required : Value) (name : Scalar)
    (schema : Value) : RefM Field := do
  let type ← PythonType.ofSchema scope style schema name
  let description ← schema.fieldD "description" (.str "")
  let isRequired ← required.holds name
  let bounds ← Bounds.ofSchema schema
  let default := (← schema.field? "default").getD .null
  return ⟨name.text, type.text, isRequired, default, ← descriptionText description, bounds⟩

def fields (scope : Option RefScope) (style : PythonStyle) (required : Value) :
    Entries → RefM (List Field)
  | [] => return []
  | (name, schema) :: rest => do
    let first ← field scope style required name schema
    return first :: (← fields scope style required rest)

def classHead (style : PythonStyle) (title : String) : List String :=
  match style with
  | .pydantic => ["class " ++ title ++ "(BaseModel):"]
  | .dataclass => ["@dataclass", "class " ++ title ++ ":"]

def classTail : PythonStyle → List String
  | .pydantic => ["", "    class Config:", "        extra = \"ignore\""]
  | .dataclass => []

def declaration (scope : Option RefScope) (style : PythonStyle) (schema : Value) : RefM String := do
  let title ← schema.titleOrRoot
  let description ← schema.fieldD "description" (.str "")
  let required ← schema.fieldD "required" (.list [])
  if ← schema.has "enum" then return Text.join "\n" (← enumLines style title schema)
  let head := classHead style title ++ docLine description.saying
  let properties ← schema.fieldD "properties" .null
  if !properties.truthy then return Text.join "\n" (head ++ ["    pass"])
  let fields ← fields scope style required (← properties.entries)
  return Text.join "\n" (head ++ fields.flatMap (Field.lines style) ++ classTail style)

end Typewright.Python
