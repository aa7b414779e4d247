import Typewright.Declaration.CSharp
import Typewright.Declaration.Python
import Typewright.Declaration.TypeScript
import Typewright.Proofs.GoFields

/-!
# Fields on the wire

Types in different languages exchange the same objects only if their fields have the same names there, in
whatever way each language says so, and if they agree on which of them may be missing.
-/

namespace Typewright

open RefM
open CSharp (indentation summaryLines)

variable {yaml : Bool} {required : List String} {properties : Entries} {s s' : RefState} {text : String}

/-- The tag gives the name. An optional field is a pointer, unless its type has an empty value: that of a
slice, of a map or of anything. -/
def Go.Field.Carries (x : Go.Field) (name : String) (optional : Bool) : Prop :=
  (∃ others, x.tags = ⟨"json", name⟩ :: others) ∧
    x.typeText = (if optional && !(Text.startsWith x.type.text "[]" || Text.startsWith x.type.text "map[" ||
      x.type.text == "interface\x7b\x7d") then "*" else "") ++ x.type.text

/-- The key is the name, with a question mark if the field is optional. -/
def TypeScript.Field.Carries (x : TypeScript.Field) (name : String) (optional : Bool) : Prop :=
  x.lines = TypeScript.docLines "  " x.description ++
    ["  " ++ name ++ (if optional then "?" else "") ++ ": " ++ x.type ++ ";"]

/-- An attribute gives the name. The type of an optional property has a question mark. -/
def CSharp.Field.Carries (x : CSharp.Field) (indent name : String) (optional : Bool) : Prop :=
  x.lines indent = summaryLines indent x.summary ++
    (indent ++ "[JsonPropertyName(\"" ++ name ++ "\")]") ::
    x.ranges.map (fun range => indent ++ "[Range(" ++ range ++ ")]") ++
    [indent ++ "public " ++ x.type ++ (if optional then "?" else "") ++ " " ++ x.name ++
      " \x7b get; set; \x7d" ++ x.initial]

/-- The attribute has the name, and an optional type if it is optional. -/
def Python.Field.Carries (x : Python.Field) (name : String) (optional : Bool) : Prop :=
  x.modelLines = ("    " ++ name ++ ": Annotated[" ++
    (if optional then "Optional[" ++ x.type ++ "]" else x.type) ++ ", Field(" ++ x.params ++ ")]" ++
    x.assigned) :: Python.docLine (Text.replace "\n" " " x.escaped)

section Languages

variable {required : List String} {properties : Entries} {schema : Value} {s s' : RefState}

end Languages

namespace Go

end Go

namespace TypeScript

theorem fields_eq_mapM (scope : TypeScriptScope) (required : Value) (es : Entries) :
    fields scope required es = es.mapM fun e => field scope required e.1 e.2 := by
  induction es with
  | nil => rfl
  | cons e rest ih => rw [List.mapM_cons, fields, ih]

end TypeScript

namespace CSharp

theorem fields_eq_mapM (scope : Option RefScope) (required : Value) (es : Entries) :
    fields scope required es = es.mapM fun e => field scope required e.1 e.2 := by
  induction es with
  | nil => rfl
  | cons e rest ih => rw [List.mapM_cons, fields, ih]

end CSharp

namespace Python

theorem fields_eq_mapM (scope : Option RefScope) (style : PythonStyle) (required : Value) (es : Entries) :
    fields scope style required es = es.mapM fun e => field scope style required e.1 e.2 := by
  induction es with
  | nil => rfl
  | cons e rest ih => rw [List.mapM_cons, fields, ih]

end Python

/-! ## All languages -/

section Languages

variable {schema : Value} {required : List String} {s s' : RefState}

end Languages

end Typewright
