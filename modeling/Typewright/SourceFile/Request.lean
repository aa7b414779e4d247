import Typewright.Reference.Tables

/-!
# What a source file is made from

A source file is made from one schema.
-/

namespace Typewright

structure Request where
  files : FileTree
  schema : Value
  file : Option String := none
  /-- Where references are looked up, if that is not the schema itself. -/
  given : Option RefScope := none
  isMain : Bool := true
  referencedBy : Option String := none
  stamp : String

namespace Request

/-- Where references are looked up: as given, or else in the schema, if its path is known. -/
def scope (r : Request) : Option RefScope :=
  match r.given with
  | some scope => some scope
  | none => r.file.map fun file => ⟨r.files, file, r.schema⟩

def isStandalone (r : Request) : Bool :=
  !r.isMain && r.referencedBy.isSome

end Request

/-- A type as a file declares it: its name, and the text of its declaration. -/
structure Declared where
  name : String
  text : String
deriving DecidableEq, Repr

end Typewright
