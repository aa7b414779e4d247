import Typewright.Declaration.TypeScript
import Typewright.Header
import Typewright.Nested
import Typewright.SourceFile.Request

/-!
# TypeScript source files

The imports of the types that the schema refers to, the declarations of the types inside the schema,
and the declaration of the schema itself.
-/

namespace Typewright.TypeScript

/-- The references to files with what the reference on a map says. The file is loaded if it can be. -/
def addRef (scope : Option RefScope) (used : List String) (ref : Value) : RefM (List String) := do
  let text ← Reference.textOf ref
  match scope with
  | none => return if Reference.isInner text then used else Text.add used text
  | some scope =>
    if !Reference.isInner text then
      discard (RefM.attempt (scope.resolve ref))
      return Text.add used text
    if !Reference.isDefinition text then return used
    match (← RefM.tables).definitions.get? (Reference.lastName text) with
    | some file => return Text.add used file
    | none => return used

def addOwnRef (scope : Option RefScope) (used : List String) (entries : Entries) :
    RefM (List String) :=
  match Entries.find? entries (.str "$ref") with
  | some ref => addRef scope used ref
  | none => return used

mutual

def refsIn (scope : Option RefScope) (used : List String) : Value → RefM (List String)
  | .map entries => do refsInEntries scope (← addOwnRef scope used entries) entries
  | .list items => refsInItems scope used items
  | _ => return used

def refsInItems (scope : Option RefScope) (used : List String) : List Value → RefM (List String)
  | [] => return used
  | v :: rest => do refsInItems scope (← refsIn scope used v) rest

def refsInEntries (scope : Option RefScope) (used : List String) :
    List (Scalar × Value) → RefM (List String)
  | [] => return used
  | e :: rest => do refsInEntries scope (← refsInEntry scope used e) rest

def refsInEntry (scope : Option RefScope) (used : List String) :
    Scalar × Value → RefM (List String)
  | (_, v) => refsIn scope used v

end

def usedRefs (scope : Option RefScope) (schema : Value) : RefM (List String) := do
  let used ← refsInEntries scope [] (← schema.entriesAt "properties")
  if !(← schema.has "definitions") then return used
  refsInEntries scope used (← (← schema.field "definitions").entries)

def addPropertyRefs (scope : RefScope) (used : List String) : Entries → RefM (List String)
  | [] => return used
  | (_, schema) :: rest => do
    if !(← schema.has "$ref") then return ← addPropertyRefs scope used rest
    let ref ← schema.field "$ref"
    let text ← Reference.textOf ref
    if Reference.isInner text then return ← addPropertyRefs scope used rest
    discard (RefM.attempt (scope.resolve ref))
    addPropertyRefs scope (Text.add used text) rest

def importPath (cwd dir ref name : String) : String :=
  let refDir := Path.directory (Path.join dir ref)
  if refDir = dir then "./" ++ name
  else
    let path := Text.replace "\\" "/" (Path.join (Path.relative cwd refDir dir) name)
    if Text.startsWith path "." then path else "./" ++ path

structure Import where
  typeName : String
  path : String
deriving DecidableEq, Repr

def Import.line (i : Import) : String :=
  "import \x7b " ++ i.typeName ++ " \x7d from '" ++ i.path ++ "';"

/-- The import of the type of a reference. There is none for the file itself. -/
def importOf (scope : RefScope) (t : Tables) (file ref path : String) : Option Import :=
  let words := Naming.capitalWords (Path.stem ref)
  let known := (t.types.get? path).getD ""
  let typeName := if known.isEmpty then words else known
  if typeName.isEmpty then none
  else if Path.stem ref = Path.stem file || words = Naming.capitalWords (Path.stem file) then none
  else some ⟨typeName, importPath scope.files.cwdPath (Path.directory file) ref words⟩

/-- The imports of a file for the references that are used, or for all if `used` is none. -/
def importsOf (scope : RefScope) (t : Tables) (file : String) (used : Option (List String)) :
    List Import :=
  t.refs.filterMap fun (ref, path) =>
    if used.any (!·.contains ref) then none else importOf scope t file ref path

def importStatements (scope : RefScope) (t : Tables) (file : String) (used : Option (List String)) :
    List String :=
  (importsOf scope t file used).map Import.line

def imports (r : Request) : RefM (List Import) := do
  match r.scope, r.file with
  | some scope, some file =>
    let used ← usedRefs (some scope) r.schema
    let used ← addPropertyRefs scope used (← r.schema.entriesAt "properties")
    return importsOf scope (← RefM.tables) file (some used)
  | _, _ => return []

def declared (scope : TypeScriptScope) (schema : Value) : RefM Declared :=
  return ⟨← schema.titleOrRoot, ← declaration scope schema⟩

def definitionDeclarations (scope : Option RefScope) : Entries → SeenM (List Declared)
  | [] => return []
  | (name, schema) :: rest => do
    if ← SeenM.isSeen name then return ← definitionDeclarations scope rest
    let isFile ← Reference.isFileRef schema
    SeenM.mark name
    if isFile then return ← definitionDeclarations scope rest
    if ← Nested.standsForFile scope name then return ← definitionDeclarations scope rest
    let first ← declared (.ofBody name) (← schema.withTitle name)
    return first :: (← definitionDeclarations scope rest)

/-- The declarations of the types of properties, of those that are not in another file. -/
def propertyDeclarations (scope : Option RefScope) : Entries → SeenM (List Declared)
  | [] => return []
  | (name, schema) :: rest => do
    if ← Reference.isFileRef schema then return ← propertyDeclarations scope rest
    let visit (schema : Value) (typeName : Scalar) : SeenM (Option Declared) :=
      return some (← declared (.ofBody typeName) schema)
    let first ← Nested.visitProperty scope visit name schema
    return Nested.keep first (← propertyDeclarations scope rest)

def nestedDeclarations (scope : Option RefScope) (schema : Value) : SeenM (List Declared) := do
  let definitions ←
    if ← schema.has "definitions" then
      definitionDeclarations scope (← (← schema.field "definitions").entries)
    else pure []
  return definitions ++ (← propertyDeclarations scope (← schema.entriesAt "properties"))

structure SourceFile where
  stamp : String
  imports : List Import
  exported : List Declared
deriving DecidableEq, Repr

def SourceFile.text (f : SourceFile) : String :=
  Text.join "\n\n" (Header.line "typescript" f.stamp ::
    (if f.imports.isEmpty then [] else f.imports.map Import.line ++ [""]) ++ f.exported.map (·.text))

def fileOf (r : Request) : RefM SourceFile := do
  let imports ← imports r
  let (nested, _) ← (nestedDeclarations r.scope r.schema).run []
  let root ← declared (.ofResolver r.scope) r.schema
  return ⟨r.stamp, imports, nested ++ [root]⟩

def sourceFile (r : Request) : RefM String :=
  return (← fileOf r).text

end Typewright.TypeScript
