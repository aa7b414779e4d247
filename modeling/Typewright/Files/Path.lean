import Typewright.Text.Pieces

/-!
# Paths

Paths are texts with slashes. These operations look at the text only, never at a file.
-/

namespace Typewright.Path

/-- The path up to and with its last slash, and what comes after it. -/
def splitLast (path : String) : List Char × List Char :=
  let cs := path.toList
  let tail := (cs.reverse.takeWhile (· != '/')).reverse
  (cs.take (cs.length - tail.length), tail)

/-- The directory part of a path, without the slashes at its end unless it is slashes only. -/
def directory (path : String) : String :=
  let head := (splitLast path).1
  if head.all (· == '/') then String.ofList head
  else String.ofList (head.reverse.dropWhile (· == '/')).reverse

def fileName (path : String) : String :=
  String.ofList (splitLast path).2

/-- A path without its extension, and the extension with its point. Points at the start of the file
name do not begin an extension. -/
def splitExtension (path : String) : String × String :=
  let (head, tail) := splitLast path
  let leading := tail.takeWhile (· == '.')
  let body := tail.drop leading.length
  if body.contains '.' then
    let ext := (body.reverse.takeWhile (· != '.')).reverse
    let stem := body.take (body.length - ext.length - 1)
    (String.ofList (head ++ leading ++ stem), String.ofList ('.' :: ext))
  else (path, "")

def stem (path : String) : String :=
  (splitExtension (fileName path)).1

def extension (path : String) : String :=
  (splitExtension path).2

/-- A path below a directory; a path that starts with a slash stands for itself. -/
def join (dir path : String) : String :=
  if Text.startsWith path "/" then path
  else if dir.isEmpty || Text.endsWith dir "/" then dir ++ path
  else dir ++ "/" ++ path

/-- Adds a name to names that are kept without `.` and, where possible, without `..`. The names are
kept last first. -/
def addName (rooted : Bool) (names : List String) (name : String) : List String :=
  if name = "" || name = "." then names
  else if name ≠ ".." then name :: names
  else
    match names with
    | [] => if rooted then [] else [name]
    | ".." :: _ => name :: names
    | _ :: outer => outer

/-- The path without empty parts, `.` and, where possible, `..`. -/
def normal (path : String) : String :=
  let slashes := (path.toList.takeWhile (· == '/')).length
  let lead := if slashes = 2 then "//" else if 0 < slashes then "/" else ""
  let names := (Text.split '/' path).foldl (addName (0 < slashes)) []
  let body := lead ++ Text.join "/" names.reverse
  if body.isEmpty then "." else body

def absolute (cwd path : String) : String :=
  normal (if Text.startsWith path "/" then path else join cwd path)

def names (cwd path : String) : List String :=
  (Text.split '/' (absolute cwd path)).filter (· ≠ "")

def dropShared : List String → List String → List String × List String
  | a :: as, b :: bs => if a = b then dropShared as bs else (a :: as, b :: bs)
  | as, bs => (as, bs)

def relative (cwd path start : String) : String :=
  let (up, down) := dropShared (names cwd start) (names cwd path)
  match up.map (fun _ => "..") ++ down with
  | [] => "."
  | parts => Text.join "/" parts

end Typewright.Path
