import Typewright.Output
import Typewright.Text.Find

/-!
# The package file of Python models

Lists the modules of a directory and the classes that they declare, found by the look of their
declarations.
-/

namespace Typewright.Exports.Python

def classStart (s : List Char) : Option (String × List Char) := do
  let s ← Text.afterWord "class".toList s
  let s ← Text.afterSomeBlanks s
  Text.nameAtStart Text.isAsciiWord s

/-- A class whose bases between brackets end in a word, after what `before` takes. -/
def classWithBase (before : List Char → List Char) (base : String) (s : List Char) :
    Option String := do
  let (name, s) ← classStart s
  let s ← Text.afterWord ['('] (Text.afterBlanks s)
  let s ← Text.afterWord base.toList (before (Text.afterBlanks s))
  discard (Text.afterWord [')'] (Text.afterBlanks s))
  return name

/-- What is left after the base for texts and its comma, if they are there. -/
def afterTextBase (s : List Char) : List Char :=
  match Text.afterWord "str".toList s with
  | none => s
  | some rest =>
    match Text.afterWord [','] (Text.afterBlanks rest) with
    | none => s
    | some rest => Text.afterBlanks rest

def model (s : List Char) : Option String :=
  classWithBase id "BaseModel" s

def enumeration (s : List Char) : Option String :=
  classWithBase afterTextBase "Enum" s

def dataClass (s : List Char) : Option String := do
  let s ← Text.afterWord "@dataclass".toList s
  if !((s.takeWhile Text.isBlank).contains '\n') then none
  let (name, _) ← classStart (Text.afterBlanks s)
  return name

/-- The classes that a text declares, without those whose name starts with an underscore. -/
def classes (content : String) : List String :=
  let s := content.toList
  let found := Text.findAll model s ++ Text.findAll dataClass s ++ Text.findAll enumeration s
  Text.sortedSet (found.filter fun name => !Text.startsWith name "_")

def isModule (name : String) : Bool :=
  Text.endsWith name ".py" && name != "__init__.py"

def moduleName (file : String) : String :=
  ((Text.split '.' file).head?).getD ""

/-- The classes of the modules in a directory, by module. A file that cannot be read has none. -/
def modules (dir : String) (found : Table (List String)) :
    List String → WorldM (Table (List String))
  | [] => return found
  | file :: rest => do
    let path := Path.join dir file
    match (← WorldM.files).read path with
    | .ok content =>
      let text ← decodeText true content
      modules dir (found.put (moduleName file) (classes text)) rest
    | .error e =>
      WorldM.complain ["Error reading file " ++ path ++ ": " ++ e.message]
      modules dir (found.put (moduleName file) []) rest

def importLines (name : String) (classes : List String) : List String :=
  if classes.isEmpty then []
  else ("from ." ++ name ++ " import (") :: classes.map (fun c => "    " ++ c ++ ",") ++ [")"]

def lines (modules : Table (List String)) : List String :=
  let names := Text.sorted modules.keys
  let classesOf (name : String) : List String := (modules.get? name).getD []
  ["# Auto-generated model exports",
    "# This file was automatically generated to export all models for easy importing",
    "",
    "# Import all model modules",
    "try:"] ++
  names.map (fun n => "    from . import " ++ n) ++
  ["except ImportError as e:",
    "    import sys",
    "    print(f\"Warning: Some model modules could not be imported: \x7be\x7d\", file=sys.stderr)",
    "",
    "# Define what gets imported with 'from models import *'",
    "__all__ = ["] ++
  names.map (fun n => "    '" ++ n ++ "',") ++
  names.flatMap (fun n => (classesOf n).map fun c => "    '" ++ c ++ "',") ++
  ["]",
    "",
    "# Re-export all model classes for easy importing and IDE autocompletion"] ++
  names.flatMap (fun n => importLines n (classesOf n))

def write (dir : String) : WorldM Unit := do
  WorldM.print ("Generating __init__.py with type exports for models in " ++ dir ++ "...")
  let files ← (← WorldM.files).list dir
  let modules ← modules dir [] (files.filter isModule)
  let path := Path.join dir "__init__.py"
  let content := Output.bytes (Text.join "\n" (lines modules))
  WorldM.setFiles (← (← WorldM.files).write path fun _ => content)
  WorldM.print ("Generated __init__.py with type exports: " ++ path)

end Typewright.Exports.Python
