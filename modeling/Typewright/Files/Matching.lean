import Typewright.Files.Tree
import Typewright.Text.Wildcard

/-!
# Paths that fit a pattern

Every part of a path may be a pattern for names. A path without one stands for itself.
-/

namespace Typewright.FileTree

def namesLike (t : FileTree) (dir pattern : String) : List String :=
  match t.list (if dir.isEmpty then "." else dir) with
  | .ok names => names.filter (Text.nameFits pattern)
  | .error _ => []

/-- The directories whose paths fit a pattern. Each part of the path takes one of the `fuel`. -/
def directoriesWithin (t : FileTree) (fuel : Nat) (pattern : String) : List String :=
  match fuel with
  | 0 => []
  | fuel + 1 =>
    if !Text.Wildcard.isPattern pattern then [pattern]
    else
      let name := Path.fileName pattern
      (t.directoriesWithin fuel (Path.directory pattern)).flatMap fun dir =>
        if Text.Wildcard.isPattern name then
          ((t.namesLike dir name).map (Path.join dir)).filter t.hasDirectory
        else if name.isEmpty then (if t.hasDirectory dir then [Path.join dir ""] else [])
        else if t.has (Path.join dir name) then [Path.join dir name]
        else []

def directoriesLike (t : FileTree) (pattern : String) : List String :=
  t.directoriesWithin (pattern.length + 1) pattern

/-- The paths that fit a pattern for a directory and a pattern for the names in it, in order. -/
def pathsLike (t : FileTree) (dir name : String) : List String :=
  Text.sorted ((t.directoriesLike (Path.directory (Path.join dir name))).flatMap fun d =>
    (t.namesLike d name).map (Path.join d))

end Typewright.FileTree
