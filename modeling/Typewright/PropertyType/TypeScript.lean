import Typewright.Reference.Resolve

/-!
# TypeScript types of properties

The TypeScript type that a property schema stands for.
-/

namespace Typewright

inductive TypeScriptType where
  | name (text : String)
  | literal (value : String)
  | array (item : TypeScriptType)
  | arrayOf (options : List TypeScriptType)
  | record (value : TypeScriptType)
  | union (options : List TypeScriptType)
  | intersection (parts : List TypeScriptType)
deriving Repr

/-- Where the references of a property are looked up. In the body of a type that is not the root type,
only the name of that type is at hand. -/
inductive TypeScriptScope where
  | none
  | resolver (scope : RefScope)
  | body (typeName : Scalar)

namespace TypeScriptScope

def ofResolver : Option RefScope → TypeScriptScope
  | some scope => .resolver scope
  | .none => .none

def ofBody (typeName : Scalar) : TypeScriptScope :=
  if typeName.truthy then .body typeName else .none

end TypeScriptScope

namespace TypeScriptType

mutual

def text : TypeScriptType → String
  | .name t => t
  | .literal value => "'" ++ value ++ "'"
  | .array item => item.text ++ "[]"
  | .arrayOf options => "(" ++ Text.join " | " (texts options) ++ ")[]"
  | .record value => "Record<string, " ++ value.text ++ ">"
  | .union options => Text.join " | " (texts options)
  | .intersection parts => Text.join " & " (texts parts)

def texts : List TypeScriptType → List String
  | [] => []
  | t :: rest => t.text :: texts rest

end

/-- The types without those that are written like an earlier one. -/
def distinct (types : List TypeScriptType) : List TypeScriptType :=
  types.foldl (fun kept t => if kept.any (·.text == t.text) then kept else kept ++ [t]) []

def ofFormat (format : Value) : TypeScriptType :=
  if format.isOneOf ["date-time", "date"] then .name "Date"
  else if format.isOneOf ["uri", "url"] then .name "URL"
  else .name "string"

def ofKind (kind : Value) : TypeScriptType :=
  if kind.isStr "null" then .name "null"
  else if kind.isStr "string" then .name "string"
  else if kind.isOneOf ["integer", "number"] then .name "number"
  else if kind.isStr "boolean" then .name "boolean"
  else if kind.isStr "array" then .array (.name "any")
  else if kind.isStr "object" then .record (.name "unknown")
  else .name "unknown"

def ofName (name : Scalar) : Except Fault TypeScriptType :=
  return .name (← Naming.raisedWordsOf (.scalar name))

def ofFile (ref : String) : TypeScriptType :=
  .name (Naming.capitalWords (Path.stem ref))

def ofRef (scope : RefScope) (ref : Value) (name : Scalar) : RefM TypeScriptType := do
  let text ← Reference.textOf ref
  let tables ← RefM.tables
  if Reference.isDefinition text then
    match tables.definitions.get? (Reference.lastName text) with
    | some file => return ((tables.types.get? file).map .name).getD (ofFile file)
    | none => return .name (Reference.lastName text)
  if Reference.isInner text then
    discard (scope.resolve ref)
    return ← ofName name
  let known ← tables.typeOf ref
  if !known.isEmpty then return .name known
  return ((tables.types.get? (scope.path text)).map .name).getD (ofFile text)

/-- The type that a reference stands for in the body of a type, where only definitions are known. -/
def ofBodyRef (typeName : Scalar) (ref : Value) : Except Fault TypeScriptType := do
  let text ← Reference.textOf ref
  if Reference.isDefinition text then return .name (Reference.lastName text)
  if Reference.isInner text then throw (.missingMember typeName.kind "resolve_ref")
  throw (.missingMember typeName.kind "base_path")

/-- The type that the reference on a schema stands for, if it has one that is followed and leads somewhere. -/
def ofOwnRef (scope : TypeScriptScope) (schema : Value) (name : Scalar) :
    RefM (Option TypeScriptType) := do
  if !(← schema.has "$ref") then return none
  match scope with
  | .none => return none
  | .body typeName => return some (← ofBodyRef typeName (← schema.field "$ref"))
  | .resolver scope =>
    RefM.recover (do return some (← ofRef scope (← schema.field "$ref") name)) fun e => do
      RefM.report ["Warning: " ++ e.message]
      return none

/-- The union of the texts that an enumeration lists; none if it lists something else. -/
def ofEnum (schema : Value) : Except Fault (Option TypeScriptType) := do
  if !(← schema.has "enum") then return none
  let values ← (← schema.fieldD "enum" (.list [])).items
  if values.all Value.isText then return some (.union (values.map fun v => .literal v.text))
  return none

def optionName (name : Scalar) (suffix : String) (i : Nat) : Scalar :=
  .str (name.text ++ suffix ++ toString i)

def ofOptions {options : Value} (ofOption : Within options → Scalar → RefM TypeScriptType) (name : Scalar)
    (suffix : String) (i : Nat) : List (Within options) → RefM (List TypeScriptType)
  | [] => return []
  | option :: rest => do
    let first ← ofOption option (optionName name suffix i)
    return first :: (← ofOptions ofOption name suffix (i + 1) rest)

def ofSchema (scope : TypeScriptScope) (schema : Value) (name : Scalar) : RefM TypeScriptType := do
  match ← ofOwnRef scope schema name with
  | some found => return found
  | none =>
    if ← schema.has "oneOf" then
      let ⟨options, _⟩ ← schema.part "oneOf"
      return .union (distinct
        (← ofOptions (fun ⟨option, _⟩ => ofSchema scope option) name "Option" 0 (← options.itemsWithin)))
    if ← schema.has "anyOf" then
      let ⟨options, _⟩ ← schema.part "anyOf"
      return .union (distinct
        (← ofOptions (fun ⟨option, _⟩ => ofSchema scope option) name "Option" 0 (← options.itemsWithin)))
    if ← schema.has "allOf" then
      let ⟨parts, _⟩ ← schema.part "allOf"
      return .intersection (distinct
        (← ofOptions (fun ⟨option, _⟩ => ofSchema scope option) name "Option" 0 (← parts.itemsWithin)))
    if ← schema.has "not" then return .name "unknown"
    let type ← schema.fieldD "type" (.str "string")
    let format ← schema.fieldD "format" (.str "")
    if let .list kinds := type then return .union (kinds.map ofKind)
    if type.isStr "string" then return (← ofEnum schema).getD (ofFormat format)
    if type.isOneOf ["integer", "number"] then return .name "number"
    if type.isStr "boolean" then return .name "boolean"
    if type.isStr "array" then
      match ← schema.part? "items" with
      | none => return .array (.name "string")
      | some ⟨items, _⟩ =>
        if ← items.has "oneOf" then
          let ⟨options, _⟩ ← items.part "oneOf"
          return .arrayOf (distinct
            (← ofOptions (fun ⟨option, _⟩ => ofSchema scope option) name "Item" 0 (← options.itemsWithin)))
        return .array (← ofSchema scope items (.str (name.text ++ "Item")))
    if type.isStr "object" then
      if ← schema.has "properties" then return ← ofName name
      match ← schema.part? "additionalProperties" with
      | some ⟨more, _⟩ =>
        if more.isMapWith "type" then
          return .record (← ofSchema scope more (.str "value"))
        return .record (.name "unknown")
      | none => return .record (.name "unknown")
    return .name "unknown"
termination_by schema.depth

end TypeScriptType

end Typewright
