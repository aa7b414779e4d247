import Typewright.SourceFile.CSharp
import Typewright.SourceFile.Go
import Typewright.SourceFile.Proto
import Typewright.SourceFile.Python
import Typewright.SourceFile.TypeScript

/-!
# Generating all files

A schema and the documents that its references lead to become one source file each.
-/

namespace Typewright

inductive Language where
  | go | python | typescript | csharp | proto
deriving DecidableEq, Repr

namespace Language

/-- The language of a name. Two languages have a second name. -/
def ofName? (name : String) : Option Language :=
  if name = "go" then some .go
  else if name = "python" then some .python
  else if name = "typescript" then some .typescript
  else if name = "csharp" || name = "dotnet" then some .csharp
  else if name = "proto" || name = "protobuf" then some .proto
  else none

def extension : Language → String
  | .go => ".go"
  | .python => ".py"
  | .typescript => ".ts"
  | .csharp => ".cs"
  | .proto => ".proto"

def namesInPascalCase : Language → Bool
  | .typescript => true
  | .csharp => true
  | _ => false

def fileStem (l : Language) (stem : String) : String :=
  if l.namesInPascalCase then Naming.pascal stem else stem

end Language

structure Options where
  package : Option String := none
  namespaceName : String := "SchemaTypes"
  style : PythonStyle := .pydantic
  goPackage : Option String := none
  output : String := "output"
deriving DecidableEq, Repr

namespace Generate

def sourceFile (language : Language) (o : Options) (r : Request) : RefM String :=
  match language with
  | .go => Go.sourceFile (o.package.getD "main") r
  | .python => Python.sourceFile o.style r
  | .typescript => TypeScript.sourceFile r
  | .csharp => CSharp.sourceFile o.namespaceName r
  | .proto => Proto.sourceFile (o.package.getD "schema") o.goPackage [] r

def mainPath (language : Language) (output : String) : String :=
  if language.namesInPascalCase then
    let (stem, extension) := Path.splitExtension (Path.fileName output)
    Path.join (Path.directory output) (Naming.pascal stem ++ extension)
  else output

def documentPath (language : Language) (main document : String) : String :=
  Path.join (Path.directory main) (language.fileStem (Path.stem document) ++ language.extension)

def addDocuments (language : Language) (o : Options) (scope : RefScope) (stamp main : String)
    (found : Table String) : Table (Value × String) → RefM (Table String)
  | [] => return found
  | (path, schema, _) :: rest => do
    let text ← sourceFile language o {
      files := scope.files, schema := schema, file := some path, given := some scope,
      isMain := false, referencedBy := some main, stamp := stamp }
    addDocuments language o scope stamp main
      (found.put (documentPath language main path) text) rest

def sourceFiles (languageName : String) (o : Options) (stamp : String) (scope : RefScope) :
    RefM (Table String) := do
  Reference.prepare scope scope.root
  match Language.ofName? languageName with
  | none => throw (.content ("Unsupported language: " ++ languageName))
  | some language =>
    let text ← sourceFile language o {
      files := scope.files, schema := scope.root, file := some scope.base, given := some scope,
      stamp := stamp }
    let main := mainPath language o.output
    let documents ← (← RefM.tables).documents
    addDocuments language o scope stamp main [(main, text)] documents

end Generate

end Typewright
