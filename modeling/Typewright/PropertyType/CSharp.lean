import Typewright.Reference.Resolve

/-!
# C# types of properties

The C# type that a property schema stands for.
-/

namespace Typewright

inductive CSharpType where
  | name (text : String)
  | list (item : CSharpType)
  | dictionary (value : CSharpType)
deriving DecidableEq, Repr

namespace CSharpType

def text : CSharpType → String
  | .name t => t
  | .list item => "List<" ++ item.text ++ ">"
  | .dictionary value => "Dictionary<string, " ++ value.text ++ ">"

def any : CSharpType := .name "object"

def ofFormat (format : Value) : CSharpType :=
  if format.isStr "date-time" then .name "DateTime"
  else if format.isStr "date" then .name "DateOnly"
  else if format.isStr "time" then .name "TimeOnly"
  else if format.isStr "duration" then .name "TimeSpan"
  else if format.isStr "uuid" then .name "Guid"
  else if format.isOneOf ["uri", "url"] then .name "Uri"
  else .name "string"

def ofName (name : Scalar) : Except Fault CSharpType :=
  return .name (← Naming.pascalOf (.scalar name))

def ofRef (scope : RefScope) (ref : Value) (name : Scalar) : RefM CSharpType := do
  let text ← Reference.textOf ref
  if Reference.isDefinition text then return .name (Reference.lastName text)
  if Reference.isInner text then
    discard (scope.resolve ref)
    return ← ofName name
  let tables ← RefM.tables
  let known ← tables.typeOf ref
  if !known.isEmpty then return .name known
  match tables.types.get? (scope.path text) with
  | some known => return .name known
  | none => return .name (Naming.pascal (Path.stem text))

/-- The type that the reference on a schema stands for, if it has one that is followed and leads somewhere. -/
def ofOwnRef (scope : Option RefScope) (schema : Value) (name : Scalar) :
    RefM (Option CSharpType) := do
  if !(← schema.has "$ref") then return none
  match scope with
  | none => return none
  | some scope =>
    tryCatch (do return some (← ofRef scope (← schema.field "$ref") name)) fun _ => return none

def ofSchema (scope : Option RefScope) (schema : Value) (name : Scalar) : RefM CSharpType := do
  match ← ofOwnRef scope schema name with
  | some found => return found
  | none =>
    if ← schema.has "oneOf" then return any
    if ← schema.has "anyOf" then return any
    if ← schema.has "allOf" then
      let ⟨all, _⟩ ← schema.part "allOf"
      let ⟨last, _⟩ ← all.last
      return ← ofSchema scope last name
    if ← schema.has "not" then return any
    if ← schema.has "enum" then return ← ofName name
    let type ← schema.fieldD "type" (.str "string")
    let format ← schema.fieldD "format" (.str "")
    if type.isStr "string" then return ofFormat format
    if type.isStr "integer" then return .name "long"
    if type.isStr "number" then return .name "double"
    if type.isStr "boolean" then return .name "bool"
    if type.isStr "array" then
      match ← schema.part? "items" with
      | none => return .list (.name "string")
      | some ⟨items, _⟩ => return .list (← ofSchema scope items (.str (name.text ++ "Item")))
    if type.isStr "object" then
      if ← schema.has "properties" then return ← ofName name
      match ← schema.part? "additionalProperties" with
      | some ⟨more, _⟩ =>
        if more.isMapWith "type" then
          return .dictionary (← ofSchema scope more (.str "value"))
        return .dictionary any
      | none => return .dictionary any
    return any
termination_by schema.depth
decreasing_by all_goals omega

end CSharpType

end Typewright
