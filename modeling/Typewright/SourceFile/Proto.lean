import Typewright.Declaration.Proto
import Typewright.SourceFile.Request

/-!
# Protocol buffer source files

The imports that the fields of the schema need, the message or enumeration for the schema, and those
for its definitions.
-/

namespace Typewright.Proto

def wrapperFormats : List String :=
  ["google.protobuf.StringValue", "google.protobuf.BoolValue", "google.protobuf.Int32Value",
    "google.protobuf.Int64Value", "google.protobuf.UInt32Value", "google.protobuf.UInt64Value",
    "google.protobuf.FloatValue", "google.protobuf.DoubleValue"]

def formatImport (format : Value) : List String :=
  if format.isOneOf ["date-time", "date", "time"] then ["google/protobuf/timestamp.proto"]
  else if format.isStr "duration" then ["google/protobuf/duration.proto"]
  else if format.isStr "any" then ["google/protobuf/any.proto"]
  else []

def schemaImport (ref : String) : List String :=
  let file := Reference.lastName ref
  if isSchemaFile file then [beforeLastPoint file ++ ".proto"] else []

def definitionImport (schema : Value) (ref : String) : Except Fault (List String) := do
  let name := Reference.lastName ref
  let definitions ← schema.fieldD "definitions" .empty
  if !(← definitions.has name) then return []
  let definition ← definitions.field name
  if !definition.isMapWith "$ref" then return []
  let ref ← Reference.textOf (← definition.field "$ref")
  return if Reference.isInner ref then [] else schemaImport ref

def refImport (schema property : Value) : Except Fault (List String) := do
  let ref ← Reference.textOf (← property.field "$ref")
  if !Reference.isInner ref then
    let file := Reference.lastName ref
    return if Text.endsWith file ".proto" then [file] else schemaImport ref
  if Reference.isDefinition ref then definitionImport schema ref else return []

def propertyImports (hasScope : Bool) (schema : Value) : Entries → Except Fault (List String)
  | [] => return []
  | (_, property) :: rest => do
    let format := formatImport ((← property.field? "format").getD .null)
    let ref ←
      if (← property.has "$ref") then
        if hasScope then refImport schema property else pure []
      else pure []
    return format ++ ref ++ (← propertyImports hasScope schema rest)

def isWrapped (property : Value) : Except Fault Bool :=
  return ((← property.field? "format").getD .null).isOneOf wrapperFormats

/-- The import for the first property with the type of a wrapped value. -/
def wrapperImports : Entries → Except Fault (List String)
  | [] => return []
  | (_, property) :: rest => do
    if ← isWrapped property then return ["google/protobuf/wrappers.proto"]
    wrapperImports rest

def requiredImports (hasScope : Bool) (schema : Value) : Except Fault (List String) := do
  let properties ← schema.entriesAt "properties"
  return Text.sortedSet ((← propertyImports hasScope schema properties) ++ (← wrapperImports properties))

def itemImport (schema property : Value) : Except Fault (List String) := do
  if !((← property.field? "type").getD .null).isStr "array" then return []
  let ref := (← (← property.fieldD "items" .empty).field? "$ref").getD .null
  if !ref.truthy then return []
  let ref ← Reference.textOf ref
  if !Reference.isInner ref then return schemaImport ref
  if Reference.isDefinition ref then definitionImport schema ref else return []

def fileImports (hasScope : Bool) (schema : Value) : Entries → Except Fault (List String)
  | [] => return []
  | (_, property) :: rest => do
    let own ←
      if ← property.has "$ref" then
        if hasScope then
          let ref ← Reference.textOf (← property.field "$ref")
          pure (if Reference.isInner ref then [] else schemaImport ref)
        else pure []
      else pure []
    let items ← itemImport schema property
    return own ++ items ++ (← fileImports hasScope schema rest)

def allImports (hasScope : Bool) (schema : Value) (more : List String) :
    Except Fault (List String) := do
  let required ← requiredImports hasScope schema
  let properties ← schema.fieldD "properties" .null
  let files ←
    if properties.truthy then fileImports hasScope schema (← properties.entries) else pure []
  return Text.sortedSet (required ++ more ++ files)

def rootName (schema : Value) : Except Fault String := do
  let title := (← schema.field? "title").getD .null
  Naming.pascalOf (if title.truthy then title else .str "Root")

def rootDeclaration (scope : Option RefScope) (schema : Value) : SeenM (Option Declaration) := do
  let name ← rootName schema
  if ← schema.has "enum" then return some (.enumeration (← enumeration schema name))
  if ((← schema.field? "type").getD .null).isStr "object" then
    return some (.message (← message scope schema name))
  return none

def definition (scope : Option RefScope) (schema : Value) (name : String) :
    SeenM (Option Declaration) := do
  if ((← schema.field? "type").getD .null).isStr "object" then
    return some (.message (← message scope schema name))
  if schema.isMapWith "enum" then return some (.enumeration (← enumeration schema name))
  return none

/-- The declarations for the definitions of a schema. A definition with the name of a message is left
out. -/
def definitions (scope : Option RefScope) : Entries → SeenM (List Declaration)
  | [] => return []
  | (name, schema) :: rest => do
    let typeName ← Naming.pascalOf (.scalar name)
    if ← SeenM.isSeen (.str typeName) then return ← definitions scope rest
    let own ← definition scope schema typeName
    return own.toList ++ (← definitions scope rest)

def declarations (scope : Option RefScope) (schema : Value) : SeenM (List Declaration) := do
  let root ← rootDeclaration scope schema
  if !(← schema.has "definitions") then return root.toList
  return root.toList ++ (← definitions scope (← schema.entriesAt "definitions"))

/-- The line with the Go package, which needs a point or a slash in its path. -/
def goPackageLines (goPackage : Option String) : List String :=
  match goPackage with
  | none => []
  | some path =>
    if path.isEmpty then []
    else
      let path := if path.contains '.' || path.contains '/' then path
        else "github.com/example/" ++ path
      ["option go_package = \"" ++ path ++ "\";", ""]

structure SourceFile where
  package : String
  goPackage : Option String
  imports : List String
  declarations : List Declaration

def SourceFile.header (f : SourceFile) : List String :=
  ["// GENERATED CODE - DO NOT EDIT", "// Generated by schema2code proto generator", "",
    "syntax = \"proto3\";", "", "package " ++ f.package ++ ";", ""] ++ goPackageLines f.goPackage ++
    f.imports.map (fun i => "import \"" ++ i ++ "\";") ++ (if f.imports.isEmpty then [] else [""])

def SourceFile.text (f : SourceFile) : String :=
  Text.join "\n" (f.header ++ f.declarations.flatMap Declaration.lines)

def fileOf (package : String) (goPackage : Option String) (moreImports : List String)
    (r : Request) : RefM SourceFile := do
  let imports ← allImports r.scope.isSome r.schema moreImports
  let (declarations, _) ← (declarations r.scope r.schema).run []
  return ⟨package, goPackage, imports, declarations⟩

def sourceFile (package : String) (goPackage : Option String) (moreImports : List String)
    (r : Request) : RefM String :=
  return (← fileOf package goPackage moreImports r).text

end Typewright.Proto
