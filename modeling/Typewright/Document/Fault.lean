import Typewright.Document.Value

/-!
# Faults

The causes for which reading, resolving and generating can fail, and the wording of each.
-/

namespace Typewright

inductive Kind where
  | null | bool | int | float | str | date | timestamp | bytes | list | map | set | pair
deriving DecidableEq, Repr

namespace Kind

def name : Kind → String
  | .null => "NoneType"
  | .bool => "bool"
  | .int => "int"
  | .float => "float"
  | .str => "str"
  | .date => "datetime.date"
  | .timestamp => "datetime.datetime"
  | .bytes => "bytes"
  | .list => "list"
  | .map => "dict"
  | .set => "set"
  | .pair => "tuple"

end Kind

def Scalar.kind : Scalar → Kind
  | .null => .null
  | .bool _ => .bool
  | .int _ => .int
  | .float _ => .float
  | .str _ => .str
  | .date _ => .date
  | .timestamp _ => .timestamp
  | .bytes _ => .bytes

def Value.kind : Value → Kind
  | .scalar s => s.kind
  | .list _ => .list
  | .map _ => .map
  | .set _ => .set
  | .pair _ _ => .pair

/-- A use that the kind of a value does not allow. -/
inductive Misuse where
  | notSearchable (kind : Kind)
  | notIterable (kind : Kind)
  | notSubscriptable (kind : Kind)
  /-- Taking a part of a list, a pair, a text or bytes by a name. -/
  | namedPart (kind : Kind)
  | noAssignment (kind : Kind)
  | bytesNeeded
  | bytesStart
  | numberNeeded
  | textNeeded (kind : Kind)
  | textStart (kind : Kind)
  | notMatchable (kind : Kind)
  /-- A key or a member of a set that is a list, a map or a set. -/
  | unhashable (kind : Kind)
  | appendToText (kind : Kind)
  | appendText (kind : Kind)
  | joinItem (index : Nat) (kind : Kind)
deriving DecidableEq, Repr

namespace Misuse

def message : Misuse → String
  | .notSearchable k => "argument of type '" ++ k.name ++ "' is not iterable"
  | .notIterable k => "'" ++ k.name ++ "' object is not iterable"
  | .notSubscriptable k => "'" ++ k.name ++ "' object is not subscriptable"
  | .namedPart .str => "string indices must be integers, not 'str'"
  | .namedPart .bytes => "byte indices must be integers or slices, not str"
  | .namedPart k => k.name ++ " indices must be integers or slices, not str"
  | .noAssignment k => "'" ++ k.name ++ "' object does not support item assignment"
  | .bytesNeeded => "a bytes-like object is required, not 'str'"
  | .bytesStart => "startswith first arg must be bytes or a tuple of bytes, not str"
  | .numberNeeded => "'str' object cannot be interpreted as an integer"
  | .textNeeded k => "'in <string>' requires string as left operand, not " ++ k.name
  | .textStart k => "startswith first arg must be str or a tuple of str, not " ++ k.name
  | .notMatchable .bytes => "cannot use a string pattern on a bytes-like object"
  | .notMatchable k => "expected string or bytes-like object, got '" ++ k.name ++ "'"
  | .unhashable k => "unhashable type: '" ++ k.name ++ "'"
  | .appendToText k => "can only concatenate str (not \"" ++ k.name ++ "\") to str"
  | .appendText .bytes => "can't concat str to bytes"
  | .appendText k => "unsupported operand type(s) for +: '" ++ k.name ++ "' and 'str'"
  | .joinItem i k =>
    "sequence item " ++ toString i ++ ": expected str instance, " ++ k.name ++ " found"

end Misuse

inductive FileProblem where
  | missing | exists | notDirectory | isDirectory
deriving DecidableEq, Repr

namespace FileProblem

def message : FileProblem → String
  | .missing => "[Errno 2] No such file or directory"
  | .exists => "[Errno 17] File exists"
  | .notDirectory => "[Errno 20] Not a directory"
  | .isDirectory => "[Errno 21] Is a directory"

end FileProblem

/-- A place in a text: all counts are of characters, lines and columns start at 1. -/
structure TextPos where
  line : Nat
  column : Nat
  offset : Nat
deriving DecidableEq, Repr

inductive Fault where
  | content (message : String)
  | json (problem : String) (pos : TextPos)
  | yaml
  | overflow (message : String)
  | encoding (message : String)
  | missingKey (key : Scalar)
  | missingMember (kind : Kind) (member : String)
  | misuse (cause : Misuse)
  | outOfRange (kind : Kind)
  | file (problem : FileProblem) (path : String)
  | grownTable
  | tooDeep
deriving DecidableEq, Repr

namespace Fault

def message : Fault → String
  | .content m => m
  | .json problem pos =>
    problem ++ ": line " ++ toString pos.line ++ " column " ++ toString pos.column ++
      " (char " ++ toString pos.offset ++ ")"
  | .yaml => "invalid YAML"
  | .overflow m => m
  | .encoding m => m
  | .missingKey key => key.quoted
  | .missingMember kind member => "'" ++ kind.name ++ "' object has no attribute '" ++ member ++ "'"
  | .misuse cause => cause.message
  | .outOfRange .str => "string index out of range"
  | .outOfRange .bytes => "index out of range"
  | .outOfRange kind => kind.name ++ " index out of range"
  | .file problem path => problem.message ++ ": " ++ Text.quote path
  | .grownTable => "dictionary changed size during iteration"
  | .tooDeep => "maximum recursion depth exceeded"

/-- Whether the fault lies in the content of a file or a reference. Generation goes on after these, and
after these only. -/
def isContent : Fault → Bool
  | .content _ => true
  | .json _ _ => true
  | .encoding _ => true
  | _ => false

end Fault

end Typewright
