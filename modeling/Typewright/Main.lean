import Std.Time.Format
import Typewright.Cli.Needs
import Typewright.Cli.Run

/-!
# The program

Gathers the files that a call looks at, runs it on them, and stores what it changed.
-/

namespace Typewright.Cli

def rootPath (names : List String) : String :=
  "/" ++ Text.join "/" names

def gatherEntry (files : FileTree) (names : List String) : IO FileTree := do
  let place := (← IO.currentDir) / rootPath names
  if ← place.isDir then return files.put names .directory
  if ← place.pathExists then
    return files.put names (.file (← IO.FS.readBinFile place).toList)
  return files

def gatherAlong (files : FileTree) (dir : List String) : List String → IO FileTree
  | [] => return files
  | part :: rest => do
    if part = "" || part = "." then gatherAlong files dir rest
    else if part = ".." then gatherAlong files dir.dropLast rest
    else
      let names := dir ++ [part]
      gatherAlong (← gatherEntry files names) names rest

def gatherPath (files : FileTree) (path : String) : IO FileTree :=
  gatherAlong files (if Text.startsWith path "/" then [] else files.cwd) (Text.split '/' path)

def gatherDirectory (files : FileTree) (path : String) : IO FileTree := do
  match files.locate path with
  | .ok ⟨names, some .directory⟩ =>
    let found ← ((← IO.currentDir) / rootPath names).readDir
    found.foldlM (fun files e => gatherEntry files (names ++ [e.fileName])) files
  | _ => return files

partial def gatherLike (files : FileTree) (pattern : String) : IO FileTree := do
  let files ←
    if Text.Wildcard.isPattern pattern then gatherLike files (Path.directory pattern)
    else gatherPath files pattern
  (files.directoriesLike (if pattern.isEmpty then "." else pattern)).foldlM gatherDirectory files

partial def gatherDocuments (schemaFile : String) (files : FileTree) (seen : List String) :
    List String → IO FileTree
  | [] => return files
  | path :: rest => do
    if seen.contains path then gatherDocuments schemaFile files seen rest
    else
      let files ← gatherPath files path
      gatherDocuments schemaFile files (path :: seen) (pathsFrom files schemaFile path ++ rest)

def gather (argv : List String) : IO FileTree := do
  let cwd := (← IO.currentDir).components.filter (· ≠ "")
  let files ← gatherAlong ⟨cwd, []⟩ [] cwd
  match arguments argv with
  | .error _ => return files
  | .ok a =>
    let files ← gatherDocuments a.schemaFile files [] [a.schemaFile]
    let files ← gatherPath files a.output
    let files ← gatherDirectory files (outputDirectory a)
    gatherLike files (outputDirectory a)

def store (before after : FileTree) : IO Unit :=
  after.entries.forM fun (names, e) => do
    if before.find? names ≠ some e then
      match e with
      | .directory => IO.FS.createDir (rootPath names)
      | .file content => IO.FS.writeBinFile (rootPath names) ⟨content.toArray⟩

def Ending.code : Ending → Nat
  | .finished code => code
  | .stopped code => code

end Typewright.Cli

open Typewright in
def main (argv : List String) : IO UInt32 := do
  let stamp := (← Std.Time.PlainDateTime.now).format "uuuu-MM-dd HH:mm:ss"
  let before ← Cli.gather argv
  let (ending, world) := Cli.run stamp argv { files := before }
  Cli.store before world.files
  world.out.forM (IO.println ·)
  world.err.forM (IO.eprintln ·)
  return ending.code.toUInt32
