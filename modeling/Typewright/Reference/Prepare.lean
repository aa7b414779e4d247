import Typewright.Reference.Resolve

/-!
# Preparing a schema

Before types are generated from a schema, the references on its properties and definitions are followed, and those in
the schemas that they lead to.
-/

namespace Typewright.Reference

def nestingLimit : Nat := 1000

/-- Follows the reference on a schema, if it has one, and goes on with the schema that it leads to.
`what` says in the warning what kind of reference it is. -/
def prepareEntry (scope : RefScope) (what : String) (next : Value → RefM Unit) (schema : Value) :
    RefM Unit := do
  if !(← schema.has "$ref") then return
  let ref ← schema.field "$ref"
  scope.note ref
  tryCatch (do
    let target ← scope.resolve ref
    if target.isMap then next target) fun e =>
      RefM.report ["Warning: Could not resolve " ++ what ++ " " ++ ref.text ++ ": " ++ e.message]

def prepareAll (scope : RefScope) (what : String) (next : Value → RefM Unit) :
    Entries → RefM Unit
  | [] => pure ()
  | (_, schema) :: rest => do
    prepareEntry scope what next schema
    prepareAll scope what next rest

def prepareFrom (scope : RefScope) (fuel : Nat) (schema : Value) : RefM Unit :=
  match fuel with
  | 0 => throw .tooDeep
  | fuel + 1 => do
    prepareAll scope "reference" (prepareFrom scope fuel) (← schema.entriesAt "properties")
    if ← schema.has "definitions" then
      prepareAll scope "definition reference" (prepareFrom scope fuel)
        (← (← schema.field "definitions").entries)

def prepare (scope : RefScope) (schema : Value) : RefM Unit :=
  prepareFrom scope nestingLimit schema

end Typewright.Reference
