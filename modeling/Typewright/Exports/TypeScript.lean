import Typewright.Files.Matching
import Typewright.Header
import Typewright.Output
import Typewright.Text.Find

/-!
# The index file of TypeScript models

Exports, for each file of a directory, the type that it declares, found by the look of its
declaration.
-/

namespace Typewright.Exports.TypeScript

def exported (keyword : String) (s : List Char) : Option String := do
  let s ← Text.afterWord "export".toList s
  let s ← Text.afterSomeBlanks s
  let s ← Text.afterWord keyword.toList s
  let s ← Text.afterSomeBlanks s
  let (name, _) ← Text.nameAtStart Text.isWord s
  return name

/-- The type that a text declares first: an interface, or else a type, or else an enumeration. -/
def declaredType (content : String) : Option String :=
  ["interface", "type", "enum"].findSome? fun keyword =>
    (Text.findAll (exported keyword) content.toList).head?

/-- The files that the index of a directory lists: those of the language that are neither hidden nor an index. -/
def listed (files : FileTree) (dir : String) : List String :=
  (files.pathsLike dir "*.ts").filter fun path => Text.lower (Path.fileName path) != "index.ts"

def exportedType (files : FileTree) (path stem : String) : String :=
  let content := do decodeText true (← files.read path)
  match content with
  | .ok text => (declaredType text).getD stem
  | .error _ => stem

def exportLine (files : FileTree) (path : String) : String :=
  let stem := Path.stem path
  "export \x7b " ++ exportedType files path stem ++ " \x7d from './" ++ stem ++ "';"

def write (stamp dir : String) : WorldM Unit := do
  let files ← WorldM.files
  let paths := listed files dir
  if paths.isEmpty then return
  let path := Path.join dir "index.ts"
  let content := Output.bytes (Text.join "\n"
    ([Header.line "typescript" stamp, "", "// Export all generated types", ""] ++
      paths.map (exportLine files) ++ [""]))
  WorldM.setFiles (← files.write path fun _ => content)
  WorldM.print ("Generated index.ts with type exports: " ++ path)

end Typewright.Exports.TypeScript
