import Typewright.Reference.Resolve

/-!
# Python types of properties

The Python type that a property schema stands for, in the two styles of classes.
-/

namespace Typewright

inductive PythonStyle where
  | pydantic | dataclass
deriving DecidableEq, Repr

inductive PythonType where
  | name (text : String)
  | list (item : PythonType)
  | dict (value : PythonType)
  | union (options : List PythonType)
  | literal (values : List String)
deriving Repr

namespace PythonType

mutual

def text : PythonType → String
  | .name t => t
  | .list item => "List[" ++ item.text ++ "]"
  | .dict value => "Dict[str, " ++ value.text ++ "]"
  | .union options => "Union[" ++ Text.join ", " (texts options) ++ "]"
  | .literal values => "Literal[" ++ Text.join ", " values ++ "]"

def texts : List PythonType → List String
  | [] => []
  | t :: rest => t.text :: texts rest

end

/-- A value inside a literal type: numbers and truth values stand bare, all else between quotes. -/
def literalValue (value : Value) : String :=
  match value with
  | .scalar (.bool _) => value.text
  | .scalar (.int _) => value.text
  | .scalar (.float _) => value.text
  | v => "\"" ++ v.text ++ "\""

def ofFormat (style : PythonStyle) (format : Value) : PythonType :=
  if format.isStr "date-time" then .name "datetime"
  else if format.isStr "date" then .name "date"
  else if format.isStr "time" then .name "time"
  else if format.isStr "duration" then .name "timedelta"
  else if format.isStr "uuid" then .name "uuid.UUID"
  else if format.isOneOf ["uri", "url"] && style = .pydantic then .name "AnyUrl"
  else if format.isStr "email" && style = .pydantic then .name "EmailStr"
  else .name "str"

def ofName (name : Scalar) : Except Fault PythonType :=
  return .name (← Naming.capitalWordsOf (.scalar name))

/-- The type that a reference stands for: the title behind it, or the name that is known for it. -/
def ofRef (scope : RefScope) (ref : Value) (name : Scalar) : RefM PythonType := do
  let target ← scope.resolve ref
  if target.isMap then
    let title ← target.fieldD "title" (.str "")
    if title.truthy then return .name (← title.withoutBlanks)
  let ref ← Reference.textOf ref
  if Reference.isDefinition ref then return .name (Reference.lastName ref)
  if Reference.isInner ref then return ← ofName name
  match (← RefM.tables).types.get? (scope.path ref) with
  | some known => return .name known
  | none => return .name (Naming.capitalWords (Path.stem ref))

/-- The type that the reference on a schema stands for, if it has one that is followed and leads somewhere. -/
def ofOwnRef (scope : Option RefScope) (schema : Value) (name : Scalar) :
    RefM (Option PythonType) := do
  if !(← schema.has "$ref") then return none
  match scope with
  | none => return none
  | some scope =>
    let ref ← schema.field "$ref"
    RefM.recover (do return some (← ofRef scope ref name)) fun _ => do
      RefM.report ["Warning: Unable to resolve reference " ++ ref.text]
      return none

/-- The type of items that are a reference whose name is known without following it. -/
def ofItemRef (scope : Option RefScope) (items : Value) : RefM (Option PythonType) := do
  if !(← items.has "$ref") then return none
  match scope with
  | none => return none
  | some scope =>
    let ref ← Reference.textOf (← items.field "$ref")
    if Reference.isDefinition ref then return some (.name (Reference.lastName ref))
    if Reference.isInner ref then return none
    return ((← RefM.tables).types.get? (scope.path ref)).map .name

/-- The type of the values that an enumeration lists; none if it lists nothing. -/
def ofEnum (schema : Value) : Except Fault (Option PythonType) := do
  if !(← schema.has "enum") then return none
  let values ← schema.field "enum"
  if !values.truthy then return none
  return some (.literal ((← values.items).map literalValue))

def optionName (name : Scalar) (i : Nat) : Scalar :=
  .str (name.text ++ "Option" ++ toString i)

def ofOptions {options : Value} (ofOption : Within options → Scalar → RefM PythonType) (name : Scalar)
    (i : Nat) : List (Within options) → RefM (List PythonType)
  | [] => return []
  | option :: rest => do
    let first ← ofOption option (optionName name i)
    return first :: (← ofOptions ofOption name (i + 1) rest)

def ofSchema (scope : Option RefScope) (style : PythonStyle) (schema : Value) (name : Scalar) :
    RefM PythonType := do
  match ← ofOwnRef scope schema name with
  | some found => return found
  | none =>
    if ← schema.has "oneOf" then
      let ⟨options, _⟩ ← schema.part "oneOf"
      return .union
        (← ofOptions (fun ⟨option, _⟩ => ofSchema scope style option) name 0 (← options.itemsWithin))
    if ← schema.has "anyOf" then
      let ⟨options, _⟩ ← schema.part "anyOf"
      return .union
        (← ofOptions (fun ⟨option, _⟩ => ofSchema scope style option) name 0 (← options.itemsWithin))
    if ← schema.has "allOf" then
      let ⟨all, _⟩ ← schema.part "allOf"
      let ⟨last, _⟩ ← all.last
      return ← ofSchema scope style last name
    if ← schema.has "not" then return .name "Any"
    let type ← schema.fieldD "type" (.str "string")
    let format ← schema.fieldD "format" (.str "")
    match ← ofEnum schema with
    | some values => return values
    | none =>
      if type.isStr "string" then return ofFormat style format
      if type.isStr "integer" then return .name "int"
      if type.isStr "number" then return .name "float"
      if type.isStr "boolean" then return .name "bool"
      if type.isStr "array" then
        match ← schema.part? "items" with
        | none => return .list (.name "str")
        | some ⟨items, _⟩ =>
          match ← ofItemRef scope items with
          | some item => return .list item
          | none => return .list (← ofSchema scope style items (.str (name.text ++ "Item")))
      if type.isStr "object" then
        if ← schema.has "properties" then return ← ofName name
        match ← schema.part? "additionalProperties" with
        | some ⟨more, _⟩ =>
          if more.isMapWith "type" then
            return .dict (← ofSchema scope style more (.str "value"))
          return .dict (.name "Any")
        | none => return .dict (.name "Any")
      return .name "Any"
termination_by schema.depth

end PythonType

end Typewright
