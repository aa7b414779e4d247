import Typewright.Naming.EnumMember
import Typewright.Naming.FieldName
import Typewright.PropertyType.Go
import Typewright.Seen

/-!
# Go declarations

A schema becomes a struct, or a named constant type if it is an enumeration.
-/

namespace Typewright.Go

structure Tag where
  key : String
  value : String
deriving DecidableEq, Repr

def Tag.text (t : Tag) : String :=
  t.key ++ ":\"" ++ t.value ++ "\""

structure Field where
  name : String
  type : GoType
  /-- Whether the field holds a pointer to its type. -/
  pointer : Bool
  tags : List Tag
  comment : String
deriving DecidableEq, Repr

def Field.typeText (f : Field) : String :=
  if f.pointer then "*" ++ f.type.text else f.type.text

def Field.tagText (f : Field) : String :=
  "`" ++ Text.join " " (f.tags.map Tag.text) ++ "`"

def Field.line (f : Field) (nameWidth typeWidth : Nat) : String :=
  "\t" ++ f.name ++ Text.blanks (nameWidth - f.name.length) ++ " " ++
    f.typeText ++ Text.blanks (typeWidth - f.typeText.length) ++ " " ++ f.tagText ++
    (if f.comment.isEmpty then "" else " // " ++ f.comment)

structure Struct where
  title : String
  description : String
  fields : List Field
  nameWidth : Nat
  typeWidth : Nat
deriving DecidableEq, Repr

def commentLine (title description : String) : List String :=
  if description.isEmpty then [] else ["// " ++ title ++ " " ++ description]

def Struct.lines (s : Struct) : List String :=
  commentLine s.title s.description ++ ("type " ++ s.title ++ " struct \x7b") ::
    s.fields.map (·.line s.nameWidth s.typeWidth) ++ ["\x7d\n"]

structure Constant where
  name : String
  value : String
  comment : String
deriving DecidableEq, Repr

structure Enumeration where
  title : String
  description : String
  ofTexts : Bool
  constants : List Constant
deriving DecidableEq, Repr

def Constant.line (c : Constant) (title : String) (quoted : Bool) : String :=
  "\t" ++ c.name ++ " " ++ title ++ " = " ++ (if quoted then "\"" ++ c.value ++ "\"" else c.value) ++
    (if c.comment.isEmpty then "" else " // " ++ c.comment)

def Enumeration.lines (e : Enumeration) : List String :=
  commentLine e.title e.description ++
    ["type " ++ e.title ++ " " ++ (if e.ofTexts then "string" else "int"), "", "const ("] ++
    e.constants.map (·.line e.title e.ofTexts) ++ [")"]

def constants (title : String) (names descriptions : Value) (i : Nat) :
    List Value → Except Fault (List Constant)
  | [] => return []
  | value :: rest => do
    let name ← Naming.constantName title names value i
    let description ← Naming.memberDescription descriptions value i
    return ⟨name, value.text, description.saying⟩ ::
      (← constants title names descriptions (i + 1) rest)

def enumeration (title : String) (schema : Value) : Except Fault Enumeration := do
  let description ← schema.fieldD "description" (.str "")
  let values ← schema.fieldD "enum" (.list [])
  let descriptions ← schema.fieldD "enumDescriptions" .empty
  let names ← schema.fieldD "enumNames" .empty
  let ofTexts := ((← schema.field? "type").getD .null).isStr "string"
  return ⟨title, description.saying, ofTexts,
    ← constants title names descriptions 0 (← values.items)⟩

def bounds (schema : Value) : List (String × String) → Except Fault (List String)
  | [] => return []
  | (key, name) :: rest => do
    let more ← bounds schema rest
    match ← schema.field? key with
    | some v => return (name ++ "=" ++ v.text) :: more
    | none => return more

def defaultConstraint (schema : Value) : Except Fault (List String) := do
  match ← schema.field? "default" with
  | none => return []
  | some (.str s) => return ["default=\"" ++ s ++ "\""]
  | some v => return ["default=" ++ v.text]

def constraints (schema : Value) (required : Bool) : Except Fault (List String) := do
  let limits ←
    if ((← schema.field? "type").getD .null).isOneOf ["integer", "number"] then
      bounds schema [("minimum", "min"), ("maximum", "max"), ("exclusiveMinimum", "gt"),
        ("exclusiveMaximum", "lt")]
    else pure []
  return limits ++ (← defaultConstraint schema) ++ (if required then ["required"] else [])

def tags (yaml : Bool) (name : String) (constraints : List String) : List Tag :=
  ⟨"json", name⟩ :: (if yaml then [⟨"yaml", name⟩] else []) ++
    (if constraints.isEmpty then [] else [⟨"validate", Text.join "," constraints⟩])

/-- Whether a type already has an empty value, so that an optional field needs no pointer. -/
def hasEmpty (type : GoType) : Bool :=
  Text.startsWith type.text "[]" || Text.startsWith type.text "map[" || type.text == GoType.any.text

/-- The type of a field: the enumeration that is declared for it, or the type of its property. -/
def fieldType (scope : Option RefScope) (title fieldName : String) (schema : Value) (name : Scalar) :
    RefM GoType := do
  if ← schema.has "enum" then return .name (title ++ fieldName)
  return (← GoType.ofSchema scope schema name).1

def field (scope : Option RefScope) (yaml : Bool) (title : String) (required : Value)
    (name : Scalar) (schema : Value) : RefM Field := do
  let fieldName ← Naming.fieldName (.scalar name)
  let type ← fieldType scope title fieldName schema name
  let isRequired ← required.holds name
  let limits ← constraints schema isRequired
  let description ← schema.fieldD "description" (.str "")
  return {
    name := fieldName
    type := type
    pointer := !(isRequired || hasEmpty type)
    tags := tags yaml name.text limits
    comment := description.saying }

def fields (scope : Option RefScope) (yaml : Bool) (title : String) (required : Value) :
    Entries → RefM (List Field)
  | [] => return []
  | (name, schema) :: rest => do
    let first ← field scope yaml title required name schema
    return first :: (← fields scope yaml title required rest)

def nameWidth : Entries → Except Fault Nat
  | [] => return 0
  | (name, _) :: rest => do
    let first ← Naming.fieldName (.scalar name)
    return max first.length (← nameWidth rest)

def typeWidth (scope : Option RefScope) : Entries → RefM Nat
  | [] => return 0
  | (name, schema) :: rest => do
    let first := (← GoType.ofSchema scope schema name).1.text
    return max first.length (← typeWidth scope rest)

def struct (scope : Option RefScope) (yaml : Bool) (title : String) (schema : Value) :
    RefM Struct := do
  let description ← schema.fieldD "description" (.str "")
  let properties ← schema.entriesAt "properties"
  let nameWidth ← nameWidth properties
  let typeWidth ← typeWidth scope properties
  let required ← schema.fieldD "required" (.list [])
  let fields ← fields scope yaml title required properties
  return ⟨title, description.saying, fields, nameWidth, typeWidth⟩

def samePlace (scope : RefScope) (a b : String) : Bool :=
  Path.absolute scope.files.cwdPath a == Path.absolute scope.files.cwdPath b

def typesElsewhere (scope : RefScope) (file : Option String) (t : Tables) : List String :=
  t.refs.filterMap fun r =>
    if file.any (fun f => !f.isEmpty && samePlace scope r.2 f) then none
    else some ((t.types.get? r.2).getD "")

/-- Whether the file is known and differs in name from a reference. -/
def otherFile (file : Option String) (ref : String) : Bool :=
  file.any fun f => !f.isEmpty && Path.fileName f != Path.fileName ref

def isElsewhere (scope : Option RefScope) (file : Option String) (title : String) (schema : Value) :
    RefM Bool := do
  match scope with
  | none => return false
  | some scope =>
    let t ← RefM.tables
    if file.any (!·.isEmpty) && (typesElsewhere scope file t).contains title then return true
    if ← schema.has "$ref" then
      let ref ← Reference.textOf (← schema.field "$ref")
      if !Reference.isInner ref && otherFile file ref then return true
    return (t.definitions.get? title).any (otherFile file)

/-- What a schema is declared as: a constant type, or a struct after the constant types of its
properties. A property whose constant type was declared before, or is declared in another file, leaves an
empty place. -/
inductive Declaration where
  | enumeration (e : Enumeration)
  | struct (enums : List (Option Enumeration)) (s : Struct)
deriving DecidableEq, Repr

def enumText : Option Enumeration → String
  | none => ""
  | some e => Text.join "\n" e.lines

def Declaration.text : Declaration → String
  | .enumeration e => enumText (some e)
  | .struct enums s => Text.join "\n" (enums.map enumText ++ s.lines)

def declarationText : Option Declaration → String
  | none => ""
  | some d => d.text

/-- The title under which a schema is declared, which then counts as seen. There is none if the type
was declared before or is declared in another file. -/
def claimTitle (scope : Option RefScope) (file : Option String) (schema : Value) :
    SeenM (Option String) := do
  let title ← schema.titleOrRoot
  let rawTitle ← schema.fieldD "title" (.str "")
  if !rawTitle.isStr title then
    if ← SeenM.isSeen (.str title) then return none
  if ← isElsewhere scope file title schema then return none
  SeenM.mark (.str title)
  return some title

/-- Declares the enumerations among properties, each under the title of the struct and its own field
name, unless that name was seen. -/
def enumDeclarations (title : String) (owner : Value)
    (declare : Below owner → SeenM (Option Enumeration)) :
    List (Scalar × Below owner) → SeenM (List (Option Enumeration))
  | [] => return []
  | (name, ⟨schema, below⟩) :: rest => do
    if !(← schema.has "enum") then return ← enumDeclarations title owner declare rest
    let typeName := title ++ (← Naming.fieldName (.scalar name))
    if ← SeenM.isSeen (.str typeName) then return ← enumDeclarations title owner declare rest
    SeenM.mark (.str typeName)
    let ⟨enumSchema, within⟩ ← schema.withTitle (.str typeName)
    let first ← declare ⟨enumSchema, Nat.lt_of_le_of_lt within below⟩
    return first :: (← enumDeclarations title owner declare rest)

def propertyEnums (title : String) (schema : Value)
    (declare : Below schema → SeenM (Option Enumeration)) : SeenM (List (Option Enumeration)) := do
  match ← schema.part? "properties" with
  | none => return []
  | some ⟨properties, below⟩ =>
    enumDeclarations title properties (fun e => declare ⟨e.val, Nat.lt_trans e.property below⟩)
      (← properties.entriesBelow)

/-- The declaration of a schema that is an enumeration. Enumerations among its own properties count as
seen, but are not declared. -/
def enumDeclaration (scope : Option RefScope) (file : Option String) (schema : Value) :
    SeenM (Option Enumeration) := do
  match ← claimTitle scope file schema with
  | none => return none
  | some title =>
    discard (propertyEnums title schema fun ⟨e, _⟩ => enumDeclaration scope file e)
    return some (← enumeration title schema)
termination_by schema.depth

def declaration (scope : Option RefScope) (file : Option String) (yaml : Bool) (schema : Value) :
    SeenM (Option Declaration) := do
  match ← claimTitle scope file schema with
  | none => return none
  | some title =>
    let enums ← propertyEnums title schema fun e => enumDeclaration scope file e.val
    if ← schema.has "enum" then return some (.enumeration (← enumeration title schema))
    return some (.struct enums (← struct scope yaml title schema))

end Typewright.Go
