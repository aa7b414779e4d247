import Typewright.Reference.Tables

/-!
# Writing files

What a run does to the files and what it prints.
-/

namespace Typewright

structure World where
  files : FileTree
  out : List String := []
  err : List String := []

/-- Work on the files. A failure leaves what was done before it. -/
abbrev WorldM := ExceptT Fault (StateM World)

inductive WriteMode where
  | create | append
deriving DecidableEq, Repr

namespace WorldM

def print (line : String) : WorldM Unit :=
  modify fun w => { w with out := w.out ++ [line] }

def complain (lines : List String) : WorldM Unit :=
  modify fun w => { w with err := w.err ++ lines }

def files : WorldM FileTree :=
  return (← get).files

def setFiles (files : FileTree) : WorldM Unit :=
  modify fun w => { w with files := files }

def following {α : Type} (work : RefM α) : WorldM α := do
  let (result, state) := work.run.run {}
  complain state.log
  result

end WorldM

namespace Output

def bytes (text : String) : List UInt8 :=
  text.toUTF8.toList

def makeParents (path : String) : WorldM Unit := do
  let (result, files) := (← WorldM.files).makeParents path
  WorldM.setFiles files
  result

/-- Writes a text to a file, and says whether it was written. -/
def writeFile (mode : WriteMode) (mayCreate keepExisting : Bool) (path content : String) :
    WorldM Bool := do
  let isThere := (← WorldM.files).has path
  if !isThere && !mayCreate then
    WorldM.complain ["Error: Output file '" ++ path ++ "' does not exist and creation is disabled"]
    return false
  if isThere && mode ≠ .append && keepExisting then
    WorldM.complain ["Error: Output file '" ++ path ++ "' exists and --no-overwrite flag is set"]
    return false
  makeParents path
  let change (old : List UInt8) : List UInt8 :=
    if mode = .append && isThere then old ++ bytes ("\n\n" ++ content) else bytes content
  match (← WorldM.files).write path change with
  | .ok files =>
    WorldM.setFiles files
    return true
  | .error e =>
    WorldM.complain ["Error writing to file: " ++ e.message]
    return false

/-- Whether a text has two lines or fewer, not counting blanks around it. -/
def isSlight (content : String) : Bool :=
  (Text.split '\n' (Text.trim content)).length ≤ 2

/-- Writes texts to files. Slight texts are skipped. The answer says whether all others were
written. -/
def writeFiles (mode : WriteMode) (mayCreate keepExisting : Bool) : Table String → WorldM Bool
  | [] => return true
  | (path, content) :: rest => do
    if isSlight content then
      WorldM.print ("Warning: Skipping empty file " ++ path)
      writeFiles mode mayCreate keepExisting rest
    else
      let done ← writeFile mode mayCreate keepExisting path content
      return (← writeFiles mode mayCreate keepExisting rest) && done

end Output

end Typewright
