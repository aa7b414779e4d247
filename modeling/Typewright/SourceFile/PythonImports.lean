import Typewright.Reference.Prepare
import Typewright.Reference.Walk

/-!
# Imports between Python files

The types of other files that a schema uses, and the statements that import them.
-/

namespace Typewright.Python

def addKnown (used : List String) (t : Tables) (ref : String) : List String :=
  match t.refs.get? ref with
  | none => used
  | some path =>
    match t.types.get? path with
    | none => used
    | some name => if name.isEmpty then used else Text.add used name

/-- The types that a reference to a file brings in: the one that is known for it, the title of its
schema, and what `next` finds in that schema. -/
def usedInFile (scope : RefScope) (next : List String → Value → RefM (List String))
    (used : List String) (ref : String) : RefM (List String) := do
  let used := addKnown used (← RefM.tables) ref
  match ← scope.resolve? (.str ref) with
  | none => return used
  | some schema =>
    if !schema.truthy then return used
    let title ← schema.fieldD "title" (.str "")
    let used ← if title.truthy then pure (Text.add used (← title.withoutBlanks)) else pure used
    next used schema

/-- The types that a reference brings in; a definition counts if it is known to stand for a file. -/
def usedByRef (scope : RefScope) (next : List String → Value → RefM (List String))
    (used : List String) (ref : Value) : RefM (List String) := do
  let ref ← Reference.textOf ref
  if !Reference.isInner ref then return ← usedInFile scope next used ref
  if !Reference.isDefinition ref then return used
  match (← RefM.tables).definitions.get? (Reference.lastName ref) with
  | some file => usedInFile scope next used file
  | none => return used

/-- Collects the types of other files, over at most `fuel` files below each other. -/
def usedVisitor (scope : RefScope) : Nat → Reference.Visitor (List String)
  | 0 => ⟨fun _ _ => throw .tooDeep, fun _ _ => throw .tooDeep, some fun _ _ => throw .tooDeep⟩
  | fuel + 1 =>
    let onRef := usedByRef scope (Reference.walk (usedVisitor scope fuel))
    ⟨onRef, onRef, some onRef⟩

def usedTypes (scope : RefScope) (schema : Value) : RefM (List String) :=
  Reference.walk (usedVisitor scope Reference.nestingLimit) [] schema

def importStatement (ref typeName : String) : String :=
  let place := Text.replace "../" "" (Text.replace "./" "" ref)
  "from ." ++ Path.stem place ++ " import " ++ typeName

/-- The statements with the one for a type, if the type has a name and is used. -/
def addImport (used : Option (List String)) (statements : List String) (ref typeName : String) :
    List String :=
  if typeName.isEmpty || used.any (!·.contains typeName) then statements
  else Text.add statements (importStatement ref typeName)

def importByRef (scope : RefScope) (used : Option (List String))
    (next : List String → Value → RefM (List String)) (statements : List String) (ref : Value) :
    RefM (List String) := do
  let text ← Reference.textOf ref
  if Reference.isInner text then return statements
  let known := ((← RefM.tables).types.get? (scope.path text)).getD ""
  let statements := addImport used statements text known
  match ← scope.resolve? ref with
  | none => return statements
  | some schema =>
    if !schema.truthy then return statements
    let statements := addImport used statements text (← schema.title)
    next statements schema

/-- Collects statements, over at most `fuel` files below each other. The schema behind a property is
gone over once more after its file. -/
def importVisitor (scope : RefScope) (used : Option (List String)) :
    Nat → Reference.Visitor (List String)
  | 0 => ⟨fun _ _ => throw .tooDeep, fun _ _ => throw .tooDeep, none⟩
  | fuel + 1 =>
    let next := Reference.walk (importVisitor scope used fuel)
    let onItem := importByRef scope used next
    { onProperty := fun statements ref => do
        let statements ← onItem statements ref
        match ← scope.resolve? ref with
        | some schema =>
          if schema.truthy && schema.isMap then next statements schema else return statements
        | none => return statements
      onItem := onItem }

/-- Collects the statements for documents. They come from a table that must not grow meanwhile. -/
def importsOfDocuments (visitor : Reference.Visitor (List String)) (size : Nat)
    (statements : List String) : Table Value → RefM (List String)
  | [] => return statements
  | (_, schema) :: rest => do
    let statements ← Reference.walk visitor statements schema
    if (← RefM.tables).loaded.length ≠ size then throw .grownTable
    importsOfDocuments visitor size statements rest

/-- The statements that import the used types, or all types if `used` is none, in order. -/
def importStatements (scope : RefScope) (used : Option (List String)) : RefM (List String) := do
  let t ← RefM.tables
  let statements := t.refs.foldl (fun found (ref, path) =>
    addImport used found ref ((t.types.get? path).getD "")) []
  let visitor := importVisitor scope used Reference.nestingLimit
  let statements ←
    if scope.root.truthy then Reference.walk visitor statements scope.root else pure statements
  let loaded := (← RefM.tables).loaded
  return Text.sorted (← importsOfDocuments visitor loaded.length statements loaded)

end Typewright.Python
