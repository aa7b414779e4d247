import Typewright.Naming.Words
import Typewright.Reference.Tables

/-!
# Resolving references

A reference starts with `#/definitions/` and names a definition of the root schema, or it does not start with `#` and
is the path of a file.
-/

namespace Typewright

namespace Reference

def definitionMark : String := "#/definitions/"

def isInner (ref : String) : Bool :=
  Text.startsWith ref "#"

def isDefinition (ref : String) : Bool :=
  Text.startsWith ref definitionMark

def lastName (ref : String) : String :=
  Text.lastPiece '/' ref

def textOf : Value → Except Fault String
  | .str s => .ok s
  | .scalar (.bytes _) => .error (.misuse .bytesStart)
  | v => .error (.missingMember v.kind "startswith")

def isFileRef (schema : Value) : Except Fault Bool := do
  if !(← schema.has "$ref") then return false
  return !isInner (← textOf (← schema.field "$ref"))

/-- The name of the type in a file: the title of its schema, or else the words of the file name, each
capitalised. -/
def typeName (ref : String) (schema : Value) : Except Fault String := do
  if ← schema.has "title" then (← schema.field "title").withoutBlanks
  else return Naming.capitalWords (Path.stem ref)

def itemRef (property : Value) : Except Fault (Option String) := do
  if !(((← property.field? "type").getD .null).isStr "array") then return none
  if !(← property.has "items") then return none
  let items ← property.field "items"
  if !(← items.has "$ref") then return none
  let ref ← textOf (← items.field "$ref")
  return if isInner ref then none else some ref

/-- The references to files that the array properties of a document have. -/
def itemRefs (schema : Value) : List String :=
  match schema.entriesAt "properties" with
  | .ok properties => properties.filterMap fun p => (itemRef p.2).toOption.join
  | .error _ => []

def itemRefsOfFiles (files : FileTree) : List String :=
  files.entries.flatMap fun e =>
    match Load.document files .on ("/" ++ Text.join "/" e.1) with
    | .ok schema => itemRefs schema
    | .error _ => []

def loadItems (load : String → RefM Value) : Entries → RefM Unit
  | [] => pure ()
  | (_, property) :: rest => do
    match ← itemRef property with
    | some ref => discard (load ref)
    | none => pure ()
    loadItems load rest

def loadFailure (path : String) (e : Fault) : Fault :=
  .content ("Failed to load external schema '" ++ path ++ "': " ++ e.message)

/-- The document that a reference to a file leads to. A document that is not known yet is loaded and
noted, and then the files that its array properties refer to. Each step down notes another path, so
`fuel` need not be more than the number of these references. -/
def load (scope : RefScope) (fuel : Nat) (ref : String) : RefM Value := do
  let path := scope.path ref
  match (← RefM.tables).loaded.get? path with
  | some schema => return schema
  | none =>
    match fuel with
    | 0 => throw .tooDeep
    | fuel + 1 =>
      tryCatch (do
        let (lines, loaded) := Load.load scope.files .on path
        RefM.report lines
        let schema ← loaded
        RefM.update fun t =>
          { t with loaded := t.loaded.put path schema, refs := t.refs.put ref path }
        let name ← typeName ref schema
        RefM.update fun t => { t with types := (t.types.put path name).put ref name }
        loadItems (load scope fuel) (← schema.entriesAt "properties")
        return schema) fun e => throw (loadFailure path e)

def external (scope : RefScope) (ref : String) : RefM Value := do
  match (← RefM.tables).loaded.get? (scope.path ref) with
  | some schema => return schema
  | none => load scope ((itemRefsOfFiles scope.files).length + 1) ref

def definitionCount (root : Value) : Nat :=
  match root.entriesAt "definitions" with
  | .ok definitions => definitions.length
  | .error _ => 0

def definition? (root : Value) (name : String) : Except Fault (Option Value) := do
  if !(← root.has "definitions") then return none
  let definitions ← root.field "definitions"
  if !(← definitions.has name) then return none
  return some (← definitions.field name)

/-- What a reference leads to, over at most `fuel` definitions. -/
def follow (scope : RefScope) (fuel : Nat) (ref : String) : RefM Value :=
  match fuel with
  | 0 => throw .tooDeep
  | fuel + 1 => do
    if isDefinition ref then
      let name := lastName ref
      match ← definition? scope.root name with
      | none => throw (.content ("Internal reference '" ++ ref ++ "' could not be resolved"))
      | some definition =>
        if !(← definition.has "$ref") then return definition
        let next ← textOf (← definition.field "$ref")
        if isInner next then follow scope fuel next
        else
          RefM.update fun t => { t with definitions := t.definitions.put name next }
          external scope next
    else if !isInner ref then external scope ref
    else throw (.content ("Unsupported reference format: " ++ ref))

end Reference

namespace RefScope

/-- What a reference leads to. A chain of definitions without end is longer than there are
definitions. -/
def resolve (scope : RefScope) (ref : Value) : RefM Value := do
  Reference.follow scope (Reference.definitionCount scope.root + 1) (← Reference.textOf ref)

/-- What a reference leads to; none if it leads nowhere because of what the files hold. -/
def resolve? (scope : RefScope) (ref : Value) : RefM (Option Value) :=
  RefM.recover (do return some (← scope.resolve ref)) fun _ => return none

/-- Notes a reference to a file, and the name that its type is assumed to have. -/
def note (scope : RefScope) (ref : Value) : RefM Unit := do
  let ref ← Reference.textOf ref
  if Reference.isInner ref then return
  let path := scope.path ref
  RefM.update fun t => { t with refs := t.refs.put ref path }
  if !((← RefM.tables).types.has path) then
    let stem := Path.stem ref
    let stem := if Text.startsWith stem "U" then Text.dropFirst 1 stem else stem
    RefM.update fun t => { t with types := t.types.put path (Naming.capitalWords stem) }

end RefScope

namespace Tables

/-- The name of the type that a reference stands for; empty if it is not known. -/
def typeOf (t : Tables) (ref : Value) : Except Fault String := do
  let ref ← Reference.textOf ref
  if !Reference.isInner ref then return (t.types.get? ref).getD ""
  if !Reference.isDefinition ref then return ""
  match t.definitions.get? (Reference.lastName ref) with
  | some file => return (t.types.get? file).getD ""
  | none => return Reference.lastName ref

/-- The documents that references lead to, each with its path and the name of its type. A reference
whose document was never loaded is a fault. -/
def documents (t : Tables) : Except Fault (Table (Value × String)) :=
  t.refs.foldlM (fun found r => do
    match t.loaded.get? r.2 with
    | some schema => return Table.put found r.2 (schema, (t.types.get? r.2).getD "")
    | none => throw (.missingKey (.str r.2))) []

end Tables

end Typewright
