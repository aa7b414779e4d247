import Typewright.Cli.Arguments
import Typewright.Cli.Usage
import Typewright.Exports.Python
import Typewright.Exports.TypeScript
import Typewright.Generate

/-!
# A call of the program

Loads the schema, generates the source files, writes them, and writes the index of the directory
where a language has one.
-/

namespace Typewright.Cli

inductive Ending where
  | finished (code : Nat)
  | stopped (code : Nat)
deriving DecidableEq, Repr

def options (a : Arguments) : Options where
  package := some a.settings.package
  namespaceName := a.settings.namespaceName
  style := if a.settings.noPydantic then .dataclass else .pydantic
  goPackage := a.settings.goPackage
  output := a.output

/-- Writes the index of the output directory, if the language has one. A fault costs a warning. -/
def writeExports (stamp : String) (a : Arguments) : WorldM Unit := do
  let dir := Path.directory a.output
  if dir.isEmpty then return
  if !(← WorldM.files).has dir then return
  let work : WorldM Unit :=
    if a.language = "python" then Exports.Python.write dir
    else if a.language = "typescript" then Exports.TypeScript.write stamp dir
    else return
  tryCatch work fun e =>
    WorldM.complain ["Warning: Could not generate model exports: " ++ e.message]

def generate (stamp : String) (a : Arguments) : WorldM Nat := do
  let files ← WorldM.files
  let (lines, loaded) := Load.load files .on a.schemaFile
  WorldM.complain lines
  let schema ← loaded
  let sources ← WorldM.following
    (Generate.sourceFiles a.language (options a) stamp ⟨files, a.schemaFile, schema⟩)
  let mode := if a.settings.mode = "append" then WriteMode.append else .create
  let written ← Output.writeFiles mode (!a.settings.noCreate) a.settings.noOverwrite sources
  if !written then return 1
  writeExports stamp a
  WorldM.print ("Successfully generated " ++ a.language ++ " types in " ++
    toString sources.length ++ " file(s)")
  return 0

def generateOrComplain (stamp : String) (a : Arguments) : WorldM Nat :=
  tryCatch (generate stamp a) fun e => do
    WorldM.complain ["Error: " ++ e.message]
    return 1

def stop : Stop → World → Ending × World
  | .help, w => (.stopped 0, { w with out := w.out ++ helpLines })
  | .version, w => (.stopped 0, { w with out := w.out ++ [versionLine] })
  | .fault e, w => (.stopped 2, { w with err := w.err ++ errorLines e.message })

def run (stamp : String) (argv : List String) (w : World) : Ending × World :=
  match arguments argv with
  | .error cause => stop cause w
  | .ok a =>
    match (generateOrComplain stamp a).run.run w with
    | (.ok code, w) => (.finished code, w)
    | (.error _, w) => (.finished 1, w)

end Typewright.Cli
