import Typewright.Naming.ConstantCase
import Typewright.Naming.EnumMember
import Typewright.Reference.Resolve
import Typewright.Seen

/-!
# Protocol buffer declarations

Messages and enumerations.
-/

namespace Typewright.Proto

structure Member where
  comment : String
  name : String
  number : Nat
deriving DecidableEq, Repr

structure Enumeration where
  comment : String
  name : String
  members : List Member
deriving DecidableEq, Repr

structure Field where
  comment : String
  repeated : Bool
  type : String
  name : String
  number : Nat
deriving DecidableEq, Repr

mutual

/-- A message: its fields in order, each with the type that is declared for it. -/
inductive Message where
  | mk (comment name : String) (slots : List Slot)

inductive Slot where
  | mk (nested : Option Declaration) (field : Field)

inductive Declaration where
  | enumeration (enumeration : Enumeration)
  | message (message : Message)
  | listOf (name item : String)
  | hollow (comment name : String)
  | object (comment : String) (message : Message)

end

def Message.name : Message → String
  | .mk _ name _ => name

structure FieldType where
  type : String
  repeated : Bool := false
  nested : Option Declaration := none

def anyField : FieldType := { type := "google.protobuf.Any" }

/-! ## Lines -/

def commentLine (indent text : String) : List String :=
  if text.isEmpty then [] else [indent ++ "// " ++ text]

def Member.lines (m : Member) : List String :=
  commentLine "  " m.comment ++ ["  " ++ m.name ++ " = " ++ toString m.number ++ ";"]

/-- The lines of an enumeration. Its first member stands for no value at all. -/
def Enumeration.lines (e : Enumeration) : List String :=
  commentLine "" e.comment ++
    ["enum " ++ e.name ++ " \x7b", "  " ++ Text.upper e.name ++ "_UNSPECIFIED = 0;"] ++
    e.members.flatMap Member.lines ++ ["\x7d", ""]

def Field.line (f : Field) : String :=
  "  " ++ (if f.repeated then "repeated " else "") ++ f.type ++ " " ++ f.name ++ " = " ++
    toString f.number ++ ";"

def Field.lines (f : Field) : List String :=
  commentLine "  " f.comment ++ [f.line]

def headLine (name : String) : String :=
  "message " ++ name ++ " \x7b"

def innerLines (lines : List String) : List String :=
  (lines.drop 1).dropLast.dropLast

mutual

def Message.lines : Message → List String
  | .mk comment name slots =>
    commentLine "" comment ++ headLine name :: (slotLines slots ++ ["\x7d", ""])

def slotLines : List Slot → List String
  | [] => []
  | slot :: rest => slot.lines ++ slotLines rest

def Slot.lines : Slot → List String
  | .mk nested field => nestedLines nested ++ field.lines

def nestedLines : Option Declaration → List String
  | none => []
  | some declaration => declaration.lines.map ("  " ++ ·) ++ [""]

def Declaration.lines : Declaration → List String
  | .enumeration e => e.lines
  | .message m => m.lines
  | .listOf name item => [headLine name, "  repeated " ++ item ++ " values = 1;", "\x7d", ""]
  | .hollow comment name =>
    commentLine "" comment ++ [headLine name,
      "  // This message intentionally left empty or will be extended later", "  reserved 1;", "\x7d", ""]
  | .object comment message =>
    commentLine "" comment ++ headLine message.name :: innerLines message.lines ++ ["\x7d", ""]

end

/-! ## Types of fields -/

/-- The type of a value that is neither a list nor a message. -/
def plainType (type format : Value) : String :=
  if type.isStr "string" then
    if format.isOneOf ["date-time", "date"] then "google.protobuf.Timestamp"
    else if format.isStr "duration" then "google.protobuf.Duration"
    else if format.isStr "byte" then "bytes"
    else "string"
  else if type.isStr "integer" then
    if format.isOneOf ["int64", "long"] then "int64" else "int32"
  else if type.isStr "number" then
    if format.isStr "float" then "float" else "double"
  else if type.isStr "boolean" then "bool"
  else if type.isStr "null" then "google.protobuf.StringValue"
  else "string"

def members (names descriptions : Value) (typeName : String) (i : Nat) :
    List Value → Except Fault (List Member)
  | [] => return []
  | value :: rest => do
    let name ← Naming.memberName names value i (.str typeName)
    let name := Naming.constantCase (Text.upper (← name.textFor "upper"))
    let description ← Naming.memberDescription descriptions value i
    let more ← members names descriptions typeName (i + 1) rest
    return ⟨description.saying, name, i + 1⟩ :: more

def enumeration (schema : Value) (typeName : String) : Except Fault Enumeration := do
  let description ← (← schema.fieldD "description" (.str "")).trimmed
  let values ← schema.fieldD "enum" (.list [])
  let names ← schema.fieldD "enumNames" (.list [])
  let descriptions ← schema.fieldD "enumDescriptions" (.list [])
  return ⟨description, typeName, ← members names descriptions typeName 0 (← values.items)⟩

def enumLines (schema : Value) (typeName : String) : Except Fault (List String) :=
  return (← enumeration schema typeName).lines

def isSchemaFile (name : String) : Bool :=
  [".yaml", ".yml", ".json"].any (Text.endsWith name)

def beforeLastPoint (name : String) : String :=
  String.ofList ((name.toList.reverse.dropWhile (· != '.')).drop 1).reverse

/-- The field type that a reference stands for. An enumeration in another file is declared in place
unless it is one of texts. -/
def ofRef (scope : RefScope) (ref : Value) (name : Scalar) : RefM FieldType := do
  let target ← scope.resolve ref
  let ref ← Reference.textOf ref
  let last := Reference.lastName ref
  if Reference.isInner ref then return { type := Naming.pascal last }
  let type ←
    if isSchemaFile last then
      if target.isMapWith "title" then
        Naming.pascalOf (← target.field "title")
      else pure (Naming.pascal (beforeLastPoint last))
    else pure (Naming.pascal last)
  if !target.isMapWith "enum" then return { type := type }
  if ((← target.field? "type").getD .null).isStr "string" then return { type := type }
  let enumName := (← Naming.pascalOf (.scalar name)) ++ "Enum"
  return { type := enumName, nested := some (.enumeration (← enumeration target enumName)) }

/-- The field type that the reference on a schema stands for, if there is one that is followed. -/
def ofOwnRef (scope : Option RefScope) (schema : Value) (name : Scalar) :
    RefM (Option FieldType) := do
  if !(← schema.has "$ref") then return none
  match scope with
  | none => return none
  | some scope => return some (← ofRef scope (← schema.field "$ref") name)

def itemName : Scalar → Except Fault Scalar
  | .str name => .ok (.str (name ++ "Item"))
  | name => .error (.misuse (.appendText name.kind))

def enumNameOf (name : Scalar) : Except Fault String := do
  let base ← Naming.pascalOf (.scalar name)
  return if Text.endsWith base "Enum" then base else base ++ "Enum"

def additionalField (valueType : String) (number : Nat) : Field where
  comment := "Additional properties as key-value pairs"
  repeated := false
  type := "map<string, " ++ valueType ++ ">"
  name := "additional_properties"
  number := number

/-- The fields for properties, numbered from `number` on. Each has the type that `typeOf` gives it. -/
def slots {owner : Value} (typeOf : Below owner → Scalar → SeenM FieldType) (number : Nat) :
    List (Scalar × Below owner) → SeenM (List Slot)
  | [] => return []
  | (name, property) :: rest => do
    let type ← typeOf property name
    let description ← (← property.val.fieldD "description" (.str "")).trimmed
    let snake ← Naming.snakeOf (.scalar name)
    let more ← slots typeOf (number + 1) rest
    return .mk type.nested ⟨description, type.repeated, type.type, snake, number⟩ :: more

mutual

def fieldType (scope : Option RefScope) (schema : Value) (name : Scalar) : SeenM FieldType := do
  if ← schema.has "oneOf" then
    let ⟨options, _⟩ ← schema.part "oneOf"
    if !options.truthy then return anyField
    let ⟨option, _⟩ ← options.first
    return ← fieldType scope option name
  if ← schema.has "anyOf" then
    let ⟨options, _⟩ ← schema.part "anyOf"
    if !options.truthy then return anyField
    let ⟨option, _⟩ ← options.first
    return ← fieldType scope option name
  if ← schema.has "allOf" then
    let ⟨parts, _⟩ ← schema.part "allOf"
    if !parts.truthy then return anyField
    let ⟨last, _⟩ ← parts.last
    return ← fieldType scope last name
  if ← schema.has "not" then return anyField
  match ← ofOwnRef scope schema name with
  | some found => return found
  | none =>
    let type := (← schema.field? "type").getD .null
    if type.isStr "array" then
      match ← schema.part? "items" with
      | none =>
        discard (itemName name)
        return { type := "string", repeated := true }
      | some ⟨items, _⟩ =>
        if ((← items.field? "type").getD .null).isStr "array" then
          let listName := (← Naming.pascalOf (.scalar name)) ++ "List"
          match ← items.part? "items" with
          | none => return ⟨listName, true, some (.listOf listName "string")⟩
          | some ⟨inner, _⟩ =>
            let item ← fieldType scope inner (.str "Value")
            return ⟨listName, true, some (.listOf listName item.type)⟩
        let item ← fieldType scope items (← itemName name)
        return { item with repeated := true }
    if ← schema.has "enum" then
      let enumName ← enumNameOf name
      return { type := enumName, nested := some (.enumeration (← enumeration schema enumName)) }
    if type.isStr "object" then
      let typeName ← Naming.pascalOf (.scalar name)
      let hasProperties := ((← schema.field? "properties").getD .empty).truthy
      if ← SeenM.isSeen (.str typeName) then return { type := typeName }
      let description ← schema.fieldD "description" (.str "")
      let nested ←
        if hasProperties then pure (.object description.saying (← message scope schema typeName))
        else pure (.hollow description.saying typeName)
      return { type := typeName, nested := some nested }
    return { type := plainType type (← schema.fieldD "format" (.str "")) }
termination_by 3 * schema.depth + 2

def message (scope : Option RefScope) (schema : Value) (typeName : String) : SeenM Message := do
  SeenM.mark (.str typeName)
  let description ← (← schema.fieldD "description" (.str "")).trimmed
  discard (← schema.fieldD "required" (.list [])).members
  let own ← ownSlots scope schema
  let more ← moreSlots scope schema (own.length + 1)
  return .mk description typeName (own ++ more)
termination_by 3 * schema.depth + 1

def ownSlots (scope : Option RefScope) (schema : Value) : SeenM (List Slot) := do
  match ← schema.part? "properties" with
  | none => return []
  | some ⟨properties, _⟩ =>
    slots (fun ⟨property, _⟩ name => fieldType scope property name) 1 (← properties.entriesBelow)
termination_by 3 * schema.depth

def moreSlots (scope : Option RefScope) (schema : Value) (number : Nat) : SeenM (List Slot) := do
  match ← schema.part? "additionalProperties" with
  | none => return []
  | some ⟨more, _⟩ =>
    if more.isTrue then return [.mk none (additionalField "string" number)]
    if more.isMap && more.truthy then
      let value ← fieldType scope more (.str "value")
      return [.mk value.nested (additionalField value.type number)]
    return []
termination_by 3 * schema.depth

end

def messageLines (scope : Option RefScope) (schema : Value) (typeName : String) :
    SeenM (List String) :=
  return (← message scope schema typeName).lines

end Typewright.Proto
