import Typewright.Naming.EnumMember
import Typewright.PropertyType.CSharp

/-!
# C# declarations

A schema becomes a class, or an `enum` if it is an enumeration.
-/

namespace Typewright.CSharp

def indentation (level : Nat) : String :=
  Text.blanks (4 * level)

def summaryLines (indent text : String) : List String :=
  if text.isEmpty then []
  else [indent ++ "/// <summary>", indent ++ "/// " ++ text, indent ++ "/// </summary>"]

structure Member where
  name : String
  value : String
  summary : String
deriving DecidableEq, Repr

def members (title : String) (names descriptions : Value) (i : Nat) :
    List Value → Except Fault (List Member)
  | [] => return []
  | value :: rest => do
    let name ← Naming.memberName names value i (.str title)
    let description ← Naming.memberDescription descriptions value i
    return ⟨name.text, value.text, description.saying⟩ ::
      (← members title names descriptions (i + 1) rest)

def Member.lines (m : Member) (indent : String) (ofTexts last : Bool) : List String :=
  let comma := if last then "" else ","
  summaryLines indent m.summary ++
    (if ofTexts then
      [indent ++ "[JsonPropertyName(\"" ++ m.value ++ "\")]", indent ++ m.name ++ comma]
    else [indent ++ m.name ++ " = " ++ m.value ++ comma])

def memberLines (indent : String) (ofTexts : Bool) : List Member → List String
  | [] => []
  | [m] => m.lines indent ofTexts true
  | m :: rest => m.lines indent ofTexts false ++ memberLines indent ofTexts rest

def enumeration (schema : Value) (level : Nat) : Except Fault String := do
  let indent := indentation level
  let title ← schema.titleOrRoot
  let description ← schema.fieldD "description" (.str "")
  let ofTexts := ((← schema.field? "type").getD .null).isStr "string"
  let values ← schema.fieldD "enum" (.list [])
  let descriptions ← schema.fieldD "enumDescriptions" .empty
  let names ← schema.fieldD "enumNames" .empty
  let members ← members title names descriptions 0 (← values.items)
  return Text.join "\n" (summaryLines indent description.saying ++
    (if ofTexts then [indent ++ "[JsonConverter(typeof(JsonStringEnumConverter))]"] else []) ++
    [indent ++ "public enum " ++ title, indent ++ "\x7b"] ++
    memberLines (indent ++ "    ") ofTexts members ++ [indent ++ "\x7d"])

structure Field where
  jsonName : String
  name : String
  type : String
  required : Bool
  summary : String
  ranges : List String
  default : Value

def Field.initial (f : Field) : String :=
  match f.default with
  | .null => if f.required then " = default!;" else ""
  | .str s => " = \"" ++ s ++ "\";"
  | .bool b => " = " ++ (if b then "true" else "false") ++ ";"
  | v => " = " ++ v.text ++ ";"

def Field.lines (f : Field) (indent : String) : List String :=
  summaryLines indent f.summary ++
    (indent ++ "[JsonPropertyName(\"" ++ f.jsonName ++ "\")]") ::
    f.ranges.map (fun r => indent ++ "[Range(" ++ r ++ ")]") ++
    [indent ++ "public " ++ f.type ++ (if f.required then "" else "?") ++ " " ++ f.name ++
      " \x7b get; set; \x7d" ++ f.initial]

def ranges (schema : Value) : Except Fault (List String) := do
  let minimum := (← schema.field? "minimum").getD .null
  let maximum := (← schema.field? "maximum").getD .null
  if !(← schema.fieldD "type" (.str "")).isOneOf ["integer", "number"] then return []
  return (if minimum.isNull then [] else [minimum.text ++ ", double.MaxValue"]) ++
    (if maximum.isNull then [] else ["double.MinValue, " ++ maximum.text])

def field (scope : Option RefScope) (required : Value) (name : Scalar) (schema : Value) :
    RefM Field := do
  let pascal ← Naming.pascalOf (.scalar name)
  let description ← schema.fieldD "description" (.str "")
  let type ← CSharpType.ofSchema scope schema name
  let ranges ← ranges schema
  let isRequired ← required.holds name
  let default := (← schema.field? "default").getD .null
  return ⟨name.text, pascal, type.text, isRequired, description.saying, ranges, default⟩

def fields (scope : Option RefScope) (required : Value) : Entries → RefM (List Field)
  | [] => return []
  | (name, schema) :: rest => do
    let first ← field scope required name schema
    return first :: (← fields scope required rest)

def declaration (scope : Option RefScope) (schema : Value) (level : Nat) : RefM String := do
  let indent := indentation level
  let title ← schema.titleOrRoot
  let description ← schema.fieldD "description" (.str "")
  let required ← schema.fieldD "required" (.list [])
  let fields ← fields scope required (← schema.entriesAt "properties")
  return Text.join "\n" (summaryLines indent description.saying ++
    [indent ++ "public class " ++ title, indent ++ "\x7b"] ++
    fields.flatMap (·.lines (indent ++ "    ")) ++ [indent ++ "\x7d"])

end Typewright.CSharp
