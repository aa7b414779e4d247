import Typewright.Reference.Resolve

/-!
# Go types of properties

The Go type that a property schema stands for.
-/

namespace Typewright

inductive GoType where
  | name (text : String)
  | slice (item : GoType)
  | map (value : GoType)
deriving DecidableEq, Repr

namespace GoType

def text : GoType → String
  | .name t => t
  | .slice item => "[]" ++ item.text
  | .map value => "map[string]" ++ value.text

def any : GoType := .name "interface\x7b\x7d"

def ofFormat (format : Value) : GoType :=
  if format.isOneOf ["date-time", "date", "time"] then .name "time.Time"
  else if format.isStr "duration" then .name "time.Duration"
  else if format.isStr "uuid" then .name "uuid.UUID"
  else if format.isOneOf ["uri", "url"] then .name "url.URL"
  else .name "string"

def ofName (name : Scalar) : Except Fault GoType :=
  return .name (← Naming.capitalWordsOf (.scalar name))

/-- The type of this name, or of the property if the name is empty. -/
def ofNameOr (text : String) (name : Scalar) : Except Fault GoType :=
  if text.isEmpty then ofName name else return .name text

/-- The type that a reference stands for, with the schema behind it. The schema of a file whose type
is known is left out. -/
def ofRef (scope : RefScope) (ref : Value) (name : Scalar) : RefM (GoType × Value) := do
  let target ← scope.resolve ref
  let ref ← Reference.textOf ref
  if Reference.isDefinition ref then return (← ofNameOr (Reference.lastName ref) name, target)
  if Reference.isInner ref then return (← ofName name, target)
  let words := Naming.capitalWords (Path.stem ref)
  if (← RefM.tables).types.has (scope.path ref) then return (.name words, .empty)
  return (← ofNameOr words name, target)

/-- The type that the reference on a schema stands for, if it has one that is followed and leads somewhere. -/
def ofOwnRef (scope : Option RefScope) (schema : Value) (name : Scalar) :
    RefM (Option (GoType × Value)) := do
  if !(← schema.has "$ref") then return none
  match scope with
  | none => return none
  | some scope =>
    RefM.recover (do return some (← ofRef scope (← schema.field "$ref") name)) fun e => do
      RefM.report ["Warning: " ++ e.message]
      return none

def ofSchema (scope : Option RefScope) (schema : Value) (name : Scalar) :
    RefM (GoType × Value) := do
  match ← ofOwnRef scope schema name with
  | some found => return found
  | none =>
    if ← schema.has "oneOf" then return (any, schema)
    if ← schema.has "anyOf" then return (any, schema)
    if ← schema.has "allOf" then
      let ⟨all, _⟩ ← schema.part "allOf"
      let ⟨last, _⟩ ← all.last
      return ← ofSchema scope last name
    if ← schema.has "not" then return (any, schema)
    let type ← schema.fieldD "type" (.str "string")
    let format ← schema.fieldD "format" (.str "")
    if type.isStr "string" then return (ofFormat format, schema)
    if type.isStr "integer" then return (.name "int", schema)
    if type.isStr "number" then return (.name "float32", schema)
    if type.isStr "boolean" then return (.name "bool", schema)
    if type.isStr "array" then
      match ← schema.part? "items" with
      | none => return (.slice (.name "string"), schema)
      | some ⟨items, _⟩ =>
        let (item, _) ← ofSchema scope items (.str (name.text ++ "Item"))
        return (.slice item, schema)
    if type.isStr "object" then
      if ← schema.has "properties" then return (← ofName name, schema)
      match ← schema.part? "additionalProperties" with
      | some ⟨more, _⟩ =>
        if more.isMapWith "type" then
          let (value, _) ← ofSchema scope more (.str "value")
          return (.map value, schema)
        return (.map any, schema)
      | none => return (.map any, schema)
    return (any, schema)
termination_by schema.depth
decreasing_by all_goals omega

end GoType

end Typewright
