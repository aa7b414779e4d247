import Typewright.Reference.Resolve
import Typewright.Seen

/-!
# Types inside a schema

The definitions of a schema, and the objects among its properties, are types of their own.
-/

namespace Typewright.Nested

def keep {α : Type} : Option α → List α → List α
  | some x, xs => x :: xs
  | none, xs => xs

def standsForFile (scope : Option RefScope) (name : Scalar) : RefM Bool := do
  match scope, name with
  | some _, .str name => return (← RefM.tables).definitions.has name
  | _, _ => return false

/-- The schema that a definition stands for: what its reference leads to, if it does, or else the
definition itself. -/
def definitionTarget (scope : Option RefScope) (schema : Value) : RefM Value := do
  match scope with
  | none => return schema
  | some scope =>
    match ← RefM.attempt (do scope.resolve (← schema.field "$ref")) with
    | .ok target => return target
    | .error _ => return schema

/-- Visits a definition, unless it was seen or stands for a file. -/
def visitDefinition {α : Type} (scope : Option RefScope)
    (visit : Value → Scalar → SeenM (Option α)) (name : Scalar) (schema : Value) :
    SeenM (Option α) := do
  if ← SeenM.isSeen name then return none
  SeenM.mark name
  if ← schema.has "$ref" then
    if ← standsForFile scope name then return none
    visit (← (← definitionTarget scope schema).withTitle name) name
  else visit (← schema.withTitle name) name

def visitDefinitions {α : Type} (scope : Option RefScope)
    (visit : Value → Scalar → SeenM (Option α)) : Entries → SeenM (List α)
  | [] => return []
  | (name, schema) :: rest => do
    let first ← visitDefinition scope visit name schema
    return keep first (← visitDefinitions scope visit rest)

def refName (ref : String) : String :=
  if Reference.isDefinition ref then Reference.lastName ref
  else if Reference.isInner ref then ""
  else Naming.pascal (Path.stem ref)

/-- The schema behind a property, and the name of its type if a reference gives it one. -/
def propertyTarget (scope : Option RefScope) (schema : Value) : RefM (Value × Option String) := do
  if !(← schema.has "$ref") then return (schema, none)
  match scope with
  | none => return (schema, none)
  | some scope =>
    match ← RefM.attempt (do
      let ref ← schema.field "$ref"
      return (← scope.resolve ref, refName (← Reference.textOf ref))) with
    | .ok (target, name) => return (target, some name)
    | .error _ => return (schema, none)

/-- A schema with the name of its type as title, unless it has a title. -/
def entitled (schema : Value) (name : Scalar) : Except Fault Value := do
  if ← schema.has "title" then return schema
  return (← schema.withTitle name).val

/-- Visits the type of a property, if it is an object with properties and was not seen. -/
def visitProperty {α : Type} (scope : Option RefScope)
    (visit : Value → Scalar → SeenM (Option α)) (name : Scalar) (schema : Value) :
    SeenM (Option α) := do
  let (target, refName) ← propertyTarget scope schema
  if let some known := refName then
    if ← SeenM.isSeen (.str known) then return none
  discard (target.field? "type")
  if !(← target.has "properties") then return none
  let typeName ←
    match refName with
    | some known => if known.isEmpty then Naming.pascalOf (.scalar name) else pure known
    | none => Naming.pascalOf (.scalar name)
  if ← SeenM.isSeen (.str typeName) then return none
  let nested ← entitled target (.str typeName)
  SeenM.mark (.str typeName)
  visit nested (.str typeName)

def visitProperties {α : Type} (scope : Option RefScope)
    (visit : Value → Scalar → SeenM (Option α)) : Entries → SeenM (List α)
  | [] => return []
  | (name, schema) :: rest => do
    let first ← visitProperty scope visit name schema
    return keep first (← visitProperties scope visit rest)

def visitTypes {α : Type} (scope : Option RefScope)
    (visit : Value → Scalar → SeenM (Option α)) (schema : Value) : SeenM (List α) := do
  let definitions ←
    if ← schema.has "definitions" then
      visitDefinitions scope visit (← (← schema.field "definitions").entries)
    else pure []
  return definitions ++ (← visitProperties scope visit (← schema.entriesAt "properties"))

end Typewright.Nested
