import Typewright.Declaration.Python
import Typewright.Header
import Typewright.Nested
import Typewright.SourceFile.PythonImports
import Typewright.SourceFile.Request

/-!
# Python source files

The import statements, the classes for the types inside the schema, and the class for the schema itself.
-/

namespace Typewright.Python

def commonImports : List String :=
  ["from typing import List, Dict, Optional, Any, Union, Annotated, Literal",
    "from datetime import datetime, date, time, timedelta"]

def hasUuid : Entries → Except Fault Bool
  | [] => return false
  | (_, schema) :: rest => do
    if (← schema.fieldD "format" (.str "")).isStr "uuid" then return true
    hasUuid rest

def styleImports (style : PythonStyle) (schema : Value) : Except Fault (List String) := do
  if ← schema.has "enum" then
    return ["from enum import Enum",
      match style with
      | .pydantic => "from pydantic import BaseModel, Field, AnyUrl, EmailStr, constr"
      | .dataclass => "from dataclasses import dataclass, field"]
  let uuid := if ← hasUuid (← schema.entriesAt "properties") then ["import uuid"] else []
  return uuid ++
    [match style with
      | .pydantic => "from pydantic import BaseModel, Field, AnyUrl, EmailStr, conint, confloat"
      | .dataclass => "from dataclasses import dataclass, field"]

def fileImports (r : Request) : RefM (List String) := do
  match r.scope, r.file with
  | some scope, some _ =>
    let used ← usedTypes scope r.schema
    if used.isEmpty then return []
    importStatements scope (some used)
  | _, _ => return []

def importedTypes (imports : List String) : List String :=
  (imports.filter fun i => Text.startsWith i "from ." && Text.contains i " import ").map
    (Text.lastPiece ' ')

/-- Whether a property that refers to a file has this name in Pascal case. -/
def namesFileProperty (name : Scalar) : Entries → Except Fault Bool
  | [] => return false
  | (property, schema) :: rest => do
    if ← Reference.isFileRef schema then
      if name.isStr (← Naming.pascalOf (.scalar property)) then return true
    namesFileProperty name rest

/-- Whether a type inside the schema is left out, because another file has it. -/
def isLeftOut (r : Request) (imported : List String) (name : Scalar) : Except Fault Bool := do
  if r.scope.isNone then return false
  match Entries.find? (← r.schema.entriesAt "definitions") name with
  | some definition =>
    if ← Reference.isFileRef definition then return true
  | none => pure ()
  if imported.any name.isStr then return true
  namesFileProperty name (← r.schema.entriesAt "properties")

def declared (scope : Option RefScope) (style : PythonStyle) (schema : Value) : RefM Declared :=
  return ⟨← schema.titleOrRoot, ← declaration scope style schema⟩

/-- What is done with a type inside the schema: it is declared, unless it is left out. -/
def visit (style : PythonStyle) (r : Request) (imported : List String) (schema : Value) (name : Scalar) :
    SeenM (Option Declared) := do
  if ← isLeftOut r imported name then return none
  return some (← declared r.scope style schema)

structure SourceFile where
  stamp : String
  imports : List String
  classes : List Declared
deriving DecidableEq, Repr

def SourceFile.text (f : SourceFile) : String :=
  Text.join "\n\n" ([Header.line "python" f.stamp, Text.join "\n" f.imports, ""] ++
    f.classes.map (·.text))

def fileOf (style : PythonStyle) (r : Request) : RefM SourceFile := do
  let fromFiles ← fileImports r
  let imports := commonImports ++ fromFiles ++ (← styleImports style r.schema)
  let imported := importedTypes imports
  let (nested, _) ← (Nested.visitTypes r.scope (visit style r imported) r.schema).run []
  let title ← r.schema.titleOrRoot
  let root ← if imported.contains title then pure [] else pure [← declared r.scope style r.schema]
  return ⟨r.stamp, imports, nested ++ root⟩

def sourceFile (style : PythonStyle) (r : Request) : RefM String :=
  return (← fileOf style r).text

mutual

def definitionTitles (found : List String) (schema : Value) : Except Fault (List String) := do
  if !(← schema.has "definitions") then return found
  let ⟨definitions, _⟩ ← schema.part "definitions"
  titlesOfDefinitions definitions found (← definitions.entriesBelow)
termination_by (schema.depth, 0)
decreasing_by exact Prod.Lex.left _ _ (by omega)

def titlesOfDefinitions (owner : Value) (found : List String) :
    List (Scalar × Below owner) → Except Fault (List String)
  | [] => return found
  | (_, ⟨definition, _⟩) :: rest => do
    let title ← definition.titleOrRoot
    let found ← definitionTitles (Text.add found title) definition
    titlesOfDefinitions owner found rest
termination_by rest => (owner.depth, rest.length)
decreasing_by
  · exact Prod.Lex.left _ _ (by omega)
  · exact Prod.Lex.right _ (Nat.lt_succ_self _)

end

def classImport (title : String) : String :=
  "from ." ++ Text.lower (String.ofList (Naming.breakJoints title.toList)) ++ " import " ++ title

def packageFile (schema : Value) (stamp : String) : RefM String := do
  let titles ← definitionTitles [] schema
  let t ← RefM.tables
  let files := t.refs.filterMap fun (ref, path) =>
    match t.types.get? path with
    | some name => if name.isEmpty then none else some ("from ." ++ Path.stem ref ++ " import " ++ name)
    | none => none
  return Text.join "\n" [Header.line "python" stamp,
    Text.join "\n" (Text.sortedSet (titles.map classImport ++ files))]

end Typewright.Python
