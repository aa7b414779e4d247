import Typewright.Files.Path
import Typewright.Document.Fault
import Typewright.Text.Sorted
import Typewright.Text.Utf8

/-!
# A tree of files

The files and directories that a run sees, as a value.
-/

namespace Typewright

inductive Entry where
  | file (content : List UInt8)
  | directory
deriving DecidableEq, Repr

structure FileTree where
  cwd : List String
  entries : List (List String × Entry)
deriving DecidableEq, Repr

structure Place where
  names : List String
  entry : Option Entry
deriving DecidableEq, Repr

namespace FileTree

def find? (t : FileTree) (names : List String) : Option Entry :=
  if names.isEmpty then some .directory else (t.entries.find? (·.1 == names)).map (·.2)

def put (t : FileTree) (names : List String) (e : Entry) : FileTree :=
  if t.entries.any (·.1 == names) then
    { t with entries := t.entries.map fun x => if x.1 == names then (x.1, e) else x }
  else { t with entries := t.entries ++ [(names, e)] }

def walk (t : FileTree) (dir : List String) : List String → Except FileProblem Place
  | [] => .ok ⟨dir, some .directory⟩
  | part :: rest =>
    if part = "" || part = "." then t.walk dir rest
    else if part = ".." then t.walk dir.dropLast rest
    else
      let names := dir ++ [part]
      match t.find? names with
      | some .directory => t.walk names rest
      | some e => if rest.isEmpty then .ok ⟨names, some e⟩ else .error .notDirectory
      | none =>
        if rest.all (· == "") then .ok ⟨names, none⟩ else .error .missing

def locate (t : FileTree) (path : String) : Except FileProblem Place :=
  if path.isEmpty then .error .missing
  else t.walk (if Text.startsWith path "/" then [] else t.cwd) (Text.split '/' path)

def has (t : FileTree) (path : String) : Bool :=
  match t.locate path with
  | .ok p => p.entry.isSome
  | .error _ => false

def hasDirectory (t : FileTree) (path : String) : Bool :=
  match t.locate path with
  | .ok p => p.entry == some .directory
  | .error _ => false

def failAt {α : Type} (path : String) (problem : FileProblem) : Except Fault α :=
  .error (.file problem path)

def read (t : FileTree) (path : String) : Except Fault (List UInt8) :=
  match t.locate path with
  | .ok ⟨_, some (.file content)⟩ => .ok content
  | .ok ⟨_, some .directory⟩ => failAt path .isDirectory
  | .ok ⟨_, none⟩ => failAt path .missing
  | .error problem => failAt path problem

/-- The path without slashes at its end, unless it is the root. -/
def withoutEndSlashes (path : String) : String :=
  let kept := (path.toList.reverse.dropWhile (· == '/')).reverse
  if kept.isEmpty then "/" else String.ofList kept

/-- The tree with new content in the file at a path, `change` making it from the old content, which is
empty for a new file. A path with a slash at its end cannot be a file. -/
def write (t : FileTree) (path : String) (change : List UInt8 → List UInt8) :
    Except Fault FileTree :=
  if Text.endsWith path "/" then
    match t.locate (withoutEndSlashes path) with
    | .ok _ => failAt path .isDirectory
    | .error problem => failAt path problem
  else
    match t.locate path with
    | .ok ⟨names, some (.file content)⟩ => .ok (t.put names (.file (change content)))
    | .ok ⟨_, some .directory⟩ => failAt path .isDirectory
    | .ok ⟨names, none⟩ => .ok (t.put names (.file (change [])))
    | .error problem => failAt path problem

def makeDirectory (t : FileTree) (path : String) : Except Fault FileTree :=
  match t.locate path with
  | .ok ⟨_, some _⟩ => failAt path .exists
  | .ok ⟨names, none⟩ => .ok (t.put names .directory)
  | .error problem => failAt path problem

def cwdPath (t : FileTree) : String :=
  "/" ++ Text.join "/" t.cwd

/-- Makes the directories `names`, given from the root, one below the other, where they are missing.
`above` is the path so far. The tree comes back also after a failure, with what was made before
it. -/
def makeAll (above : String) : List String → FileTree → Except Fault Unit × FileTree
  | [], t => (.ok (), t)
  | name :: rest, t =>
    let path := above ++ "/" ++ name
    let here :=
      if t.hasDirectory path then .ok t
      else if t.has path && !rest.isEmpty then .ok t
      else t.makeDirectory path
    match here with
    | .ok t => makeAll path rest t
    | .error e => (.error e, t)

def makeParents (t : FileTree) (path : String) : Except Fault Unit × FileTree :=
  let dir := Path.directory (Path.absolute t.cwdPath path)
  makeAll "" ((Text.split '/' dir).filter (· ≠ "")) t

def list (t : FileTree) (path : String) : Except Fault (List String) :=
  match t.locate path with
  | .ok ⟨dir, some .directory⟩ =>
    let below := t.entries.filterMap fun e =>
      match e.1.getLast? with
      | some name => if e.1.dropLast == dir then some name else none
      | none => none
    .ok (Text.sorted below)
  | .ok ⟨_, some (.file _)⟩ => failAt path .notDirectory
  | .ok ⟨_, none⟩ => failAt path .missing
  | .error problem => failAt path problem

end FileTree

/-- The text of bytes, with all line ends as line feeds. If the bytes came in parts (`whole` is
false), a character that is cut off at the end is seen by itself. -/
def decodeText (whole : Bool) (bytes : List UInt8) : Except Fault String :=
  match Text.decodeFrom [] bytes with
  | .ok cs => .ok (String.ofList (Text.joinLineEnds cs))
  | .error e =>
    let place := if whole || e.problem ≠ .endOfData then bytes.length - e.left else 0
    .error (.encoding (e.message place))

end Typewright
