import Typewright.Naming.Words

/-!
# Names of enumeration members

The name and the description of a member come from lists or maps beside the values, by place or by
the text of the value, or else from the value itself.
-/

namespace Typewright.Naming

def itemAtPlace (xs : List Value) (i : Int) : Except Fault Value :=
  let place := if i < 0 then i + xs.length else i
  if place < 0 then .error (.outOfRange .list)
  else
    match xs[place.toNat]? with
    | some v => .ok v
    | none => .error (.outOfRange .list)

/-- What a table beside the values says of the value at place `i`, if anything. -/
def besideValue (table value : Value) (i : Int) : Except Fault (Option Value) :=
  match table with
  | .map es => .ok (Entries.find? es (.str value.text))
  | .list xs => if i < xs.length then return some (← itemAtPlace xs i) else .ok none
  | _ => .ok none

def ownMemberName (value : Value) : Value :=
  match value with
  | .scalar (.int _) => .str ("VALUE_" ++ value.text)
  | .scalar (.bool _) => .str ("VALUE_" ++ value.text)
  | v => .str (Text.upper v.text)

def dropTitle (title : Value) (name : Value) : Except Fault Value :=
  if !title.truthy then .ok name
  else
    match name, title with
    | .str n, .str t => .ok (.str (if Text.startsWith n t then Text.dropFirst t.length n else n))
    | .str _, t => .error (.misuse (.textStart t.kind))
    | .scalar (.bytes _), _ => .error (.misuse .bytesStart)
    | n, _ => .error (.missingMember n.kind "startswith")

def memberName (names value : Value) (i : Int) (title : Value) : Except Fault Value := do
  let name := (← besideValue names value i).getD (ownMemberName value)
  dropTitle title name

/-- The description of the member for the value at place `i`; nothing if there is none. -/
def memberDescription (descriptions value : Value) (i : Int) : Except Fault Value :=
  return (← besideValue descriptions value i).getD .null

/-- The name of a Go constant: the name of its type and the name of the member. -/
def constantName (typeName : String) (names value : Value) (i : Int) : Except Fault String := do
  let base := (← besideValue names value i).getD (.str (pascal value.text))
  if ← base.startsWith typeName then
    return typeName ++ Text.dropFirst typeName.length base.text
  return typeName ++ base.text

end Typewright.Naming
