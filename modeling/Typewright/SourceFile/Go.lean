import Typewright.Declaration.Go
import Typewright.Header
import Typewright.Nested
import Typewright.SourceFile.Request

/-!
# Go source files

A package clause, the imports that the types need, the types inside the schema, and the type of the schema itself.
-/

namespace Typewright.Go

structure Imports where
  uuid : Bool := false
  url : Bool := false
  time : Bool := false
deriving DecidableEq, Repr

def uuidPackage : String := "github.com/google/uuid"

def Imports.paths (i : Imports) : List String :=
  (if i.uuid then [uuidPackage] else []) ++ (if i.url then ["net/url"] else []) ++
    (if i.time then ["time"] else [])

def Imports.addFormat (i : Imports) (schema : Value) : Except Fault Imports := do
  let type ← schema.fieldD "type" (.str "")
  let format ← schema.fieldD "format" (.str "")
  if !type.isStr "string" then return i
  if format.isOneOf ["date-time", "date", "time"] then return { i with time := true }
  if format.isStr "uuid" then return { i with uuid := true }
  if format.isOneOf ["uri", "url"] then return { i with url := true }
  return i

def Imports.addProperty (i : Imports) (schema : Value) : Except Fault Imports := do
  let i ← i.addFormat schema
  if !((← schema.field? "type").getD .null).isStr "array" then return i
  match ← schema.field? "items" with
  | some items => i.addFormat items
  | none => return i

/-- Follows the reference on a property, if there is one; a reference that leads nowhere is left. -/
def followRef (scope : Option RefScope) (schema : Value) : RefM Unit := do
  if !(← schema.has "$ref") then return
  match scope with
  | none => return
  | some scope => discard (scope.resolve? (← schema.field "$ref"))

def Imports.addProperties (scope : Option RefScope) (i : Imports) : Entries → RefM Imports
  | [] => return i
  | (_, schema) :: rest => do
    let i ← i.addProperty schema
    followRef scope schema
    i.addProperties scope rest

/-- The imports with what the properties of definitions need, of those that are declared here if it
is known which these are. -/
def Imports.addDefinitions (declared : Option (List Scalar)) (i : Imports) :
    Entries → Except Fault Imports
  | [] => return i
  | (name, schema) :: rest => do
    if declared.any (fun seen => !Seen.has seen name) then i.addDefinitions declared rest
    else
      let i ← (← schema.entriesAt "properties").foldlM (fun i p => i.addProperty p.2) i
      i.addDefinitions declared rest

def imports (scope : Option RefScope) (declared : Option (List Scalar)) (schema : Value) :
    RefM Imports := do
  let i ← Imports.addProperties scope {} (← schema.entriesAt "properties")
  return ← i.addDefinitions declared (← schema.entriesAt "definitions")

/-- Which types a file declares and which it finds elsewhere, with the imports that its definitions
ask for. -/
structure Plan where
  declared : List Scalar
  elsewhere : List String
  imports : List String := []

def Plan.declare (p : Plan) (name : Scalar) : Plan :=
  { p with declared := Seen.add p.declared name }

def Plan.addFile (p : Plan) (scope : RefScope) (t : Tables) (ref : String) : Plan :=
  match t.types.get? (scope.path ref) with
  | some name => { p with elsewhere := Text.add p.elsewhere name }
  | none => p

def Plan.addRef (p : Plan) (scope : Option RefScope) (t : Tables) (standalone : Bool)
    (schema : Value) : Except Fault Plan := do
  if !(← schema.has "$ref") then return p
  match scope with
  | none => return p
  | some scope =>
    let ref ← Reference.textOf (← schema.field "$ref")
    if !Reference.isInner ref then return p.addFile scope t ref
    if Reference.isDefinition ref && standalone then
      return p.declare (.str (Reference.lastName ref))
    return p

def Plan.addProperty (p : Plan) (scope : Option RefScope) (t : Tables) (standalone : Bool)
    (title : String) (name : Scalar) (schema : Value) : Except Fault Plan := do
  let p ←
    if ← schema.has "enum" then
      pure (p.declare (.str (title ++ (← Naming.fieldName (.scalar name)))))
    else pure p
  let isObject := ((← schema.field? "type").getD .null).isStr "object"
  let p ←
    if isObject && schema.isMapWith "properties" then
      pure (p.declare (.str (← Naming.capitalWordsOf (.scalar name))))
    else pure p
  p.addRef scope t standalone schema

def definitionFile (scope : Option RefScope) (t : Tables) (name : Scalar) (schema : Value) :
    Except Fault (Option (RefScope × String)) := do
  if !(← schema.has "$ref") then return none
  match scope, name with
  | some scope, .str name => return (t.definitions.get? name).map fun ref => (scope, ref)
  | _, _ => return none

def isUuid (schema : Value) : Except Fault Bool :=
  return ((← schema.field? "format").getD .null).isStr "uuid"

def Plan.addDefinition (p : Plan) (scope : Option RefScope) (t : Tables) (name : Scalar)
    (schema : Value) : Except Fault Plan := do
  match ← definitionFile scope t name schema with
  | some (scope, ref) => return p.addFile scope t ref
  | none =>
    let p := p.declare name
    if !(← schema.has "properties") then return p
    (← schema.entriesAt "properties").foldlM (fun p e => do
      if ← isUuid e.2 then return { p with imports := Text.add p.imports uuidPackage }
      return p) p

def Plan.addSchema (p : Plan) (scope : Option RefScope) (t : Tables) (isMain standalone : Bool)
    (schema : Value) : Except Fault Plan := do
  let title ← schema.titleOrRoot
  let p ← (← schema.entriesAt "properties").foldlM
    (fun p e => p.addProperty scope t standalone title e.1 e.2) p
  if !(← schema.has "definitions") then return p
  if !(isMain || standalone) then return p
  (← (← schema.field "definitions").entries).foldlM (fun p e => p.addDefinition scope t e.1 e.2) p

/-- The references to files on the properties and definitions of a schema, also those behind a
definition. -/
def usedRefs (t : Tables) (schema : Value) : Except Fault (List String) := do
  let used ← (← schema.entriesAt "properties").foldlM (fun used e => do
    if !(← e.2.has "$ref") then return used
    let ref ← Reference.textOf (← e.2.field "$ref")
    if !Reference.isInner ref then return Text.add used ref
    if !Reference.isDefinition ref then return used
    match t.definitions.get? (Reference.lastName ref) with
    | some file => return Text.add used file
    | none => return used) []
  if !(← schema.has "definitions") then return used
  (← (← schema.field "definitions").entries).foldlM (fun used e => do
    if !(← e.2.has "$ref") then return used
    let ref ← Reference.textOf (← e.2.field "$ref")
    return if Reference.isInner ref then used else Text.add used ref) used

def titleStandsForFile (scope : Option RefScope) (schema : Value) : RefM Bool := do
  if scope.isNone then return false
  match ← schema.field? "title" with
  | some (.scalar title) => Nested.standsForFile scope title
  | _ => return false

def isLeftOut (r : Request) (title : String) (elsewhere : List String) (schema : Value) :
    RefM Bool := do
  let own ← schema.title
  if elsewhere.contains own then return true
  if r.isMain then
    if ← schema.has "$ref" then
      if !Reference.isInner (← Reference.textOf (← schema.field "$ref")) then return true
    if ← titleStandsForFile r.scope schema then return true
  return r.isStandalone && own != title && !Text.startsWith own title

def nestedDeclaration (r : Request) (title : String) (elsewhere : List String) (schema : Value) :
    SeenM (Option Declaration) := do
  if ← isLeftOut r title elsewhere schema then return none
  declaration r.scope r.file true schema

def importLines (paths : List String) : List String :=
  if paths.isEmpty then ["\n"]
  else "\nimport (" :: paths.map (fun p => "\t\"" ++ p ++ "\"") ++ [")\n"]

def analyse (r : Request) (title : String) : RefM (List String × Imports) := do
  match r.scope with
  | none => return ([], ← imports none none r.schema)
  | some scope =>
    let t ← RefM.tables
    let elsewhere := ((typesElsewhere scope r.file t).filter (· ≠ "")).foldl Text.add []
    let plan : Plan := ⟨[.str title], elsewhere, []⟩
    let plan ← plan.addSchema (some scope) t r.isMain r.isStandalone r.schema
    return (plan.elsewhere, ← imports (some scope) (some plan.declared) r.schema)

/-- A Go source file. A type that is not declared here leaves an empty place. -/
structure SourceFile where
  stamp : String
  package : String
  imports : Imports
  declarations : List (Option Declaration)
deriving DecidableEq, Repr

def SourceFile.text (f : SourceFile) : String :=
  Text.join "\n" ([Header.line "go" f.stamp, "package " ++ f.package] ++
    importLines f.imports.paths ++ f.declarations.map declarationText)

/-- The declarations of the types inside a schema, and of the schema itself unless its type is declared
elsewhere. -/
def declarations (r : Request) (title : String) (elsewhere : List String) :
    SeenM (List (Option Declaration)) := do
  let visit (schema : Value) (_ : Scalar) : SeenM (Option (Option Declaration)) :=
    return some (← nestedDeclaration r title elsewhere schema)
  let nested ← Nested.visitTypes r.scope visit r.schema
  let root ← declaration r.scope r.file true r.schema
  return nested ++ (if elsewhere.contains title then [] else [root])

def fileOf (package : String) (r : Request) : RefM SourceFile := do
  let title ← r.schema.titleOrRoot
  let (elsewhere, imports) ← analyse r title
  let (declarations, _) ← (declarations r title elsewhere).run [.str title]
  return ⟨r.stamp, package, imports, declarations⟩

def sourceFile (package : String) (r : Request) : RefM String :=
  return (← fileOf package r).text

end Typewright.Go
