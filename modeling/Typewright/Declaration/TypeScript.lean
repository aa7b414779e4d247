import Typewright.Naming.EnumMember
import Typewright.PropertyType.TypeScript

/-!
# TypeScript declarations

A schema becomes an interface. An enumeration of texts becomes a union of literals with a table of
its values, any other enumeration an `enum`.
-/

namespace Typewright.TypeScript

def docLines (indent text : String) : List String :=
  if text.isEmpty then []
  else [indent ++ "/**", indent ++ " * " ++ text, indent ++ " */"]

structure Member where
  name : String
  value : Value
  comment : String

def members (title : String) (names descriptions : Value) (i : Nat) :
    List Value → Except Fault (List Member)
  | [] => return []
  | value :: rest => do
    let name ← Naming.memberName names value i (.str title)
    let description ← Naming.memberDescription descriptions value i
    return ⟨name.text, value, description.saying⟩ ::
      (← members title names descriptions (i + 1) rest)

def Member.commentText (m : Member) : String :=
  if m.comment.isEmpty then "" else " // " ++ m.comment

def Member.tableLines (m : Member) (last : Bool) : List String :=
  ["  /** " ++ m.value.text ++ m.commentText ++ " */",
    "  " ++ m.name ++ ": '" ++ m.value.text ++ "'" ++ (if last then "" else ",")]

def tableLines : List Member → List String
  | [] => []
  | [m] => m.tableLines true
  | m :: rest => m.tableLines false ++ tableLines rest

def Member.enumLine (m : Member) : String :=
  "  " ++ m.name ++ " = " ++
    (if m.value.isText then "'" ++ m.value.text ++ "'" else m.value.text) ++ "," ++ m.commentText

def unionLines (title : String) (members : List Member) : List String :=
  ["export type " ++ title ++ " = " ++
      Text.join " | " (members.map fun m => "'" ++ m.value.text ++ "'") ++ ";",
    "", "/**", " * Constant values for " ++ title, " */",
    "export const " ++ title ++ "Values = \x7b"] ++ tableLines members ++ ["\x7d as const;"]

def enumLines (title : String) (members : List Member) : List String :=
  ("export enum " ++ title ++ " \x7b") :: members.map Member.enumLine ++ ["\x7d"]

def enumeration (title : String) (schema : Value) : Except Fault (List String) := do
  let description ← schema.fieldD "description" (.str "")
  let values ← (← schema.fieldD "enum" (.list [])).items
  let descriptions ← schema.fieldD "enumDescriptions" .empty
  let names ← schema.fieldD "enumNames" .empty
  let ofTexts := ((← schema.field? "type").getD .null).isStr "string" && values.all Value.isText
  let members ← members title names descriptions 0 values
  return docLines "" description.saying ++
    (if ofTexts then unionLines title members else enumLines title members)

structure Field where
  name : String
  optional : Bool
  type : String
  description : String
deriving DecidableEq, Repr

def Field.lines (f : Field) : List String :=
  docLines "  " f.description ++
    ["  " ++ f.name ++ (if f.optional then "?" else "") ++ ": " ++ f.type ++ ";"]

def field (scope : TypeScriptScope) (required : Value) (name : Scalar) (schema : Value) :
    RefM Field := do
  let description ← schema.fieldD "description" (.str "")
  let isRequired ← required.holds name
  let type ← TypeScriptType.ofSchema scope schema name
  return ⟨name.text, !isRequired, type.text, description.saying⟩

def fields (scope : TypeScriptScope) (required : Value) : Entries → RefM (List Field)
  | [] => return []
  | (name, schema) :: rest => do
    let first ← field scope required name schema
    return first :: (← fields scope required rest)

def declaration (scope : TypeScriptScope) (schema : Value) : RefM String := do
  let title ← schema.titleOrRoot
  let description ← schema.fieldD "description" (.str "")
  if ← schema.has "enum" then return Text.join "\n" (← enumeration title schema)
  let required ← schema.fieldD "required" (.list [])
  let fields ← fields scope required (← schema.entriesAt "properties")
  return Text.join "\n" (docLines "" description.saying ++
    ("export interface " ++ title ++ " \x7b") :: fields.flatMap Field.lines ++ ["\x7d"])

end Typewright.TypeScript
