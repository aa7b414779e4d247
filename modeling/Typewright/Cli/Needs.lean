import Typewright.Cli.Arguments
import Typewright.Reference.Resolve

/-!
# What a call looks at

The paths that a call may read or write, so that the files at them can be gathered before it runs.
-/

namespace Typewright.Cli

def fileRef? : Scalar → Value → Option String
  | .str name, .str ref => if name = "$ref" && !Reference.isInner ref then some ref else none
  | _, _ => none

mutual

def fileRefs : Value → List String
  | .list items => fileRefsOfItems items
  | .map entries => fileRefsOfEntries entries
  | .pair left right => fileRefs left ++ fileRefs right
  | _ => []

def fileRefsOfItems : List Value → List String
  | [] => []
  | v :: rest => fileRefs v ++ fileRefsOfItems rest

def fileRefsOfEntries : List (Scalar × Value) → List String
  | [] => []
  | e :: rest => fileRefsOfEntry e ++ fileRefsOfEntries rest

def fileRefsOfEntry : Scalar × Value → List String
  | (k, v) => (fileRef? k v).toList ++ fileRefs v

end

def pathsFrom (files : FileTree) (schemaFile path : String) : List String :=
  match Load.document files .on path with
  | .ok v => (fileRefs v).map (RefScope.path ⟨files, schemaFile, v⟩)
  | .error _ => []

def outputDirectory (a : Arguments) : String :=
  let dir := Path.directory a.output
  if dir.isEmpty then "." else dir

end Typewright.Cli
