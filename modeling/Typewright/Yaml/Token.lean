import Typewright.Yaml.Cursor

/-!
# YAML tokens

The tokens of a YAML text. Block structure, which the text shows by indentation, has tokens of its
own.
-/

namespace Typewright.Yaml

inductive Token where
  | version (major : Nat)
  | handle (name : String) (start : String)
  | directive
  | documentStart
  | documentEnd
  | blockSequence
  | blockMapping
  | blockEnd
  | flowSequence
  | flowSequenceEnd
  | flowMapping
  | flowMappingEnd
  | blockEntry
  | flowEntry
  | key
  | value
  | alias (name : String)
  | anchor (name : String)
  /-- A tag: a handle, if it has one, and what follows it. -/
  | tag (handle : Option String) (suffix : String)
  /-- A scalar, and whether it stands without quotes or block marks. -/
  | scalar (text : String) (plain : Bool)
deriving DecidableEq, Repr

end Typewright.Yaml
