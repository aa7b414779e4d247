import Typewright.Proofs.Parts
import Typewright.PropertyType.CSharp
import Typewright.PropertyType.Go
import Typewright.PropertyType.Python
import Typewright.PropertyType.TypeScript
import Mathlib.Data.List.Infix

/-!
# Spellings of nested types

Arrays of arrays and maps of maps, to any depth, around a primitive.
-/

namespace Typewright

open RefM
open Value (fieldD_map)

variable {α β : Type} {inner text : List Char}

/-! ## Arrays and maps around something -/

/-- Arrays and maps, to any depth, around something. -/
inductive Nest (α : Type) where
  | leaf (value : α)
  | array (inner : Nest α)
  | map (inner : Nest α)
deriving DecidableEq, Repr

namespace Nest

variable {α β : Type}

def mapLeaf (f : α → β) : Nest α → Nest β
  | .leaf a => .leaf (f a)
  | .array inner => .array (inner.mapLeaf f)
  | .map inner => .map (inner.mapLeaf f)

/-- What the arrays and maps stand around. -/
def core : Nest α → α
  | .leaf a => a
  | .array inner => inner.core
  | .map inner => inner.core

/-- Something put together from what the arrays and maps stand around. -/
def build (leaf : α → β) (array map : β → β) : Nest α → β
  | .leaf a => leaf a
  | .array inner => array (inner.build leaf array map)
  | .map inner => map (inner.build leaf array map)

/-- The arrays and maps alone. -/
def nesting (t : Nest α) : Nest Unit :=
  t.mapLeaf fun _ => ()

theorem nesting_mapLeaf (f : α → β) (t : Nest α) : (t.mapLeaf f).nesting = t.nesting := by
  induction t with
  | leaf a => rfl
  | array inner ih => exact congrArg Nest.array ih
  | map inner ih => exact congrArg Nest.map ih

theorem core_mapLeaf (f : α → β) (t : Nest α) : (t.mapLeaf f).core = f t.core := by
  induction t with
  | leaf a => rfl
  | array inner ih => exact ih
  | map inner ih => exact ih

end Nest

/-! ## Brackets -/

/-- What is written before and behind something. At least one of them is there. -/
structure Brackets where
  left : String
  right : String
  visible : 0 < left.toList.length + right.toList.length := by decide

namespace Brackets

variable {b c : Brackets} {text inner : List Char}

def around (b : Brackets) (text : List Char) : List Char :=
  b.left.toList ++ text ++ b.right.toList

/-- What stands between the brackets, if the text has them. -/
def inside? (b : Brackets) (text : List Char) : Option (List Char) :=
  (text.dropPrefix? b.left.toList).bind (·.dropSuffix? b.right.toList)

theorem inside?_eq_some_iff : b.inside? text = some inner ↔ text = b.around inner := by
  simp only [inside?, around, Option.bind_eq_some_iff, List.dropPrefix?_eq_some_iff,
    List.dropSuffix?_eq_some_iff, beq_iff_eq]
  constructor
  · rintro ⟨rest, ⟨_, rfl, rfl⟩, _, rfl, rfl⟩
    rw [List.append_assoc]
  · rintro rfl
    exact ⟨inner ++ b.right.toList, ⟨_, List.append_assoc .., rfl⟩, _, rfl, rfl⟩

theorem length_inside? (h : b.inside? text = some inner) : inner.length < text.length := by
  have := b.visible
  rw [inside?_eq_some_iff.mp h]
  simp only [around, List.length_append]
  omega

/-- Brackets that no text has at once: one side of the first never stands where that of the second does. -/
def Apart (b c : Brackets) : Prop :=
  (¬ b.left.toList <+: c.left.toList ∧ ¬ c.left.toList <+: b.left.toList) ∨
    (¬ b.right.toList <:+ c.right.toList ∧ ¬ c.right.toList <:+ b.right.toList)

instance : Decidable (b.Apart c) := inferInstanceAs (Decidable (_ ∨ _))

theorem inside?_around_of_apart (h : b.Apart c) (text : List Char) : b.inside? (c.around text) = none := by
  refine Option.eq_none_iff_forall_not_mem.mpr fun inner hinner => ?_
  have heq : c.around text = b.around inner := inside?_eq_some_iff.mp hinner
  rcases h with ⟨hleft, hleft'⟩ | ⟨hright, hright'⟩
  · have hb : b.left.toList <+: c.around text := by
      rw [heq, around, List.append_assoc]
      exact List.prefix_append _ _
    have hc : c.left.toList <+: c.around text := by
      rw [around, List.append_assoc]
      exact List.prefix_append _ _
    exact (List.prefix_or_prefix_of_prefix hb hc).elim hleft hleft'
  · have hb : b.right.toList <:+ c.around text := heq ▸ List.suffix_append _ _
    have hc : c.right.toList <:+ c.around text := List.suffix_append _ _
    exact (List.suffix_or_suffix_of_suffix hb hc).elim hright hright'

end Brackets

/-! ## Writing and reading -/

/-- The brackets of arrays and of maps, which can be told apart. -/
structure Spelling where
  array : Brackets
  map : Brackets
  apart : array.Apart map := by decide

namespace Spelling

/-- Arrays and maps as they are written. -/
def write (sp : Spelling) : Nest String → String
  | .leaf word => word
  | .array inner => sp.array.left ++ sp.write inner ++ sp.array.right
  | .map inner => sp.map.left ++ sp.write inner ++ sp.map.right

/-- The arrays and maps that a text was written for, from the outermost brackets on. -/
def readChars (sp : Spelling) (text : List Char) : Nest String :=
  match _harray : sp.array.inside? text with
  | some inner => .array (sp.readChars inner)
  | none =>
    match _hmap : sp.map.inside? text with
    | some inner => .map (sp.readChars inner)
    | none => .leaf (String.ofList text)
termination_by text.length
decreasing_by
  · exact Brackets.length_inside? _harray
  · exact Brackets.length_inside? _hmap

/-- The arrays and maps that a text was written for. -/
def read (sp : Spelling) (text : String) : Nest String :=
  sp.readChars text.toList

/-- Whether a text stands in no brackets. -/
def isWord (sp : Spelling) (word : String) : Bool :=
  (sp.array.inside? word.toList).isNone && (sp.map.inside? word.toList).isNone

variable {sp : Spelling}

theorem write_build (sp : Spelling) (text : β → String) (leaf : α → β) {array map : β → β}
    (harray : ∀ t, text (array t) = sp.array.left ++ text t ++ sp.array.right)
    (hmap : ∀ t, text (map t) = sp.map.left ++ text t ++ sp.map.right) (shape : Nest α) :
    text (shape.build leaf array map) = sp.write (shape.mapLeaf fun a => text (leaf a)) := by
  induction shape with
  | leaf a => rfl
  | array inner ih => rw [Nest.build, harray, ih, Nest.mapLeaf, write]
  | map inner ih => rw [Nest.build, hmap, ih, Nest.mapLeaf, write]

theorem toList_write_array (inner : Nest String) :
    (sp.write (.array inner)).toList = sp.array.around (sp.write inner).toList := by
  rw [write, String.toList_append, String.toList_append]
  rfl

theorem toList_write_map (inner : Nest String) :
    (sp.write (.map inner)).toList = sp.map.around (sp.write inner).toList := by
  rw [write, String.toList_append, String.toList_append]
  rfl

theorem readChars_array (h : sp.array.inside? text = some inner) : sp.readChars text = .array (sp.readChars inner) := by
  rw [readChars]
  split
  · next found => rw [Option.some.inj (h.symm.trans found)]
  · next none => cases h.symm.trans none

theorem readChars_map (hnone : sp.array.inside? text = none)
    (h : sp.map.inside? text = some inner) : sp.readChars text = .map (sp.readChars inner) := by
  rw [readChars]
  split
  · next found => cases hnone.symm.trans found
  · split
    · next found => rw [Option.some.inj (h.symm.trans found)]
    · next none => cases h.symm.trans none

theorem readChars_word {word : String} (h : sp.isWord word) : sp.readChars word.toList = .leaf word := by
  rw [isWord, Bool.and_eq_true, Option.isNone_iff_eq_none, Option.isNone_iff_eq_none] at h
  rw [readChars]
  split
  · next found => cases h.1.symm.trans found
  · split
    · next found => cases h.2.symm.trans found
    · rw [String.ofList_toList]

theorem read_write (t : Nest String) (h : sp.isWord t.core) : sp.read (sp.write t) = t := by
  unfold read
  induction t with
  | leaf word => exact readChars_word h
  | array inner ih =>
    have hinside : sp.array.inside? (sp.write (.array inner)).toList = some (sp.write inner).toList :=
      Brackets.inside?_eq_some_iff.mpr (toList_write_array inner)
    rw [readChars_array hinside, ih h]
  | map inner ih =>
    -- a map does not stand in the brackets of an array as well
    have hnone : sp.array.inside? (sp.write (.map inner)).toList = none := by
      rw [toList_write_map]
      exact Brackets.inside?_around_of_apart sp.apart _
    have hinside : sp.map.inside? (sp.write (.map inner)).toList = some (sp.write inner).toList :=
      Brackets.inside?_eq_some_iff.mpr (toList_write_map inner)
    rw [readChars_map hnone hinside, ih h]

end Spelling

/-! ## Schemas -/

/-- The primitive types. A text may have a format. -/
inductive Primitive where
  | text (format : Value)
  | integer
  | number
  | boolean

/-- None of the keys that lead to other types. -/
def Bare (es : Entries) : Prop :=
  ∀ key ∈ ["$ref", "oneOf", "anyOf", "allOf", "not", "enum", "properties"], Entries.find? es (.str key) = none

instance (es : Entries) : Decidable (Bare es) :=
  inferInstanceAs (Decidable (∀ key ∈ _, _))

/-- The type that a schema names. -/
def Typed (es : Entries) (type : String) : Prop :=
  Entries.find? es (.str "type") = some (.str type)

/-- The schema is arrays and maps, to any depth, around a primitive type. -/
inductive Shaped : Value → Nest Primitive → Prop
  | text {es : Entries} (bare : Bare es) (typed : Typed es "string") :
      Shaped (.map es) (.leaf (.text ((Entries.find? es (.str "format")).getD (.str ""))))
  | integer {es : Entries} (bare : Bare es) (typed : Typed es "integer") : Shaped (.map es) (.leaf .integer)
  | number {es : Entries} (bare : Bare es) (typed : Typed es "number") : Shaped (.map es) (.leaf .number)
  | boolean {es : Entries} (bare : Bare es) (typed : Typed es "boolean") : Shaped (.map es) (.leaf .boolean)
  | array {es : Entries} {items : Value} {inner : Nest Primitive} (bare : Bare es) (typed : Typed es "array")
      (found : Entries.find? es (.str "items") = some items) (shaped : Shaped items inner) :
      Shaped (.map es) (.array inner)
  | map {es : Entries} {values : Value} {inner : Nest Primitive} (bare : Bare es) (typed : Typed es "object")
      (found : Entries.find? es (.str "additionalProperties") = some values) (shaped : Shaped values inner) :
      Shaped (.map es) (.map inner)

section Bare

variable {es : Entries} {schema : Value} {shape : Nest Primitive}

theorem Bare.has (h : Bare es) {key : String}
    (hkey : key ∈ ["$ref", "oneOf", "anyOf", "allOf", "not", "enum", "properties"]) :
    (Value.map es).has key = .ok false := by
  rw [Value.has_eq_isMapWith key rfl, Value.isMapWith_map, h key hkey]
  rfl

theorem Typed.fieldD {type : String} (h : Typed es type) (default : Value) :
    (Value.map es).fieldD "type" default = .ok (.str type) := by
  rw [fieldD_map, h]
  rfl

theorem Shaped.exists_bare (h : Shaped schema shape) : ∃ es, schema = .map es ∧ Bare es := by
  cases h <;> exact ⟨_, rfl, ‹Bare _›⟩

theorem Shaped.isMapWith_type (h : Shaped schema shape) : schema.isMapWith "type" := by
  cases h <;> rw [Value.isMapWith_map, ‹Typed _ _›] <;> rfl

theorem Shaped.has_ref (h : Shaped schema shape) : schema.has "$ref" = .ok false := by
  obtain ⟨es, rfl, bare⟩ := h.exists_bare
  exact bare.has (by decide)

theorem Shaped.has_oneOf (h : Shaped schema shape) : schema.has "oneOf" = .ok false := by
  obtain ⟨es, rfl, bare⟩ := h.exists_bare
  exact bare.has (by decide)

theorem part?_map {key : String} {v : Value} (h : Entries.find? es (.str key) = some v) :
    (Value.map es).part? key = .ok (some ⟨v, Value.depth_lt_of_find? h⟩) := by
  unfold Value.part?
  dsimp only
  split
  · next found =>
    cases h.symm.trans found
    rfl
  · next none => cases h.symm.trans none

end Bare

theorem lift_ok_bind (a : α) (f : α → RefM β) : (liftM (Except.ok a : Except Fault α) >>= f : RefM β) = f a := rfl

theorem isStr_str (text text' : String) : (Value.str text).isStr text' = (text == text') := rfl

section Languages

variable {schema : Value} {shape : Nest Primitive}

namespace GoType

def ofPrimitive : Primitive → GoType
  | .text format => ofFormat format
  | .integer => .name "int"
  | .number => .name "float32"
  | .boolean => .name "bool"

/-- Lists and dictionaries around the type of a primitive. -/
def ofShape (shape : Nest Primitive) : GoType :=
  shape.build ofPrimitive .slice .map

theorem ofSchema_shaped (h : Shaped schema shape) (scope : Option RefScope) (name : Scalar) :
    ofSchema scope schema name = pure (ofShape shape, schema) := by
  induction h generalizing name with
  | text bare typed | integer bare typed | number bare typed | boolean bare typed =>
    rw [ofSchema]
    simp [ofOwnRef, bare.has, typed.fieldD, fieldD_map, lift_ok_bind, isStr_str, ofShape, Nest.build, ofPrimitive]
  | array bare typed found shaped ih =>
    rw [ofSchema]
    simp [ofOwnRef, bare.has, typed.fieldD, fieldD_map, lift_ok_bind, isStr_str,
      part?_map found, ih, ofShape, Nest.build]
  | map bare typed found shaped ih =>
    rw [ofSchema]
    simp [ofOwnRef, bare.has, typed.fieldD, fieldD_map, lift_ok_bind,
      isStr_str, part?_map found, shaped.isMapWith_type, ih, ofShape, Nest.build]

end GoType

namespace PythonType

def ofPrimitive (style : PythonStyle) : Primitive → PythonType
  | .text format => ofFormat style format
  | .integer => .name "int"
  | .number => .name "float"
  | .boolean => .name "bool"

/-- Lists and dictionaries around the type of a primitive. -/
def ofShape (style : PythonStyle) (shape : Nest Primitive) : PythonType :=
  shape.build (ofPrimitive style) .list .dict

theorem ofSchema_shaped (h : Shaped schema shape) (scope : Option RefScope) (style : PythonStyle) (name : Scalar) :
    ofSchema scope style schema name = pure (ofShape style shape) := by
  induction h generalizing name with
  | text bare typed | integer bare typed | number bare typed | boolean bare typed =>
    rw [ofSchema]
    simp [ofOwnRef, ofEnum, bare.has, typed.fieldD, fieldD_map, lift_ok_bind,
      isStr_str, ofShape, Nest.build, ofPrimitive]
  | array bare typed found shaped ih =>
    rw [ofSchema]
    simp [ofOwnRef, ofEnum, ofItemRef, shaped.has_ref, bare.has, typed.fieldD,
      fieldD_map, lift_ok_bind, isStr_str, part?_map found, ih, ofShape, Nest.build]
  | map bare typed found shaped ih =>
    rw [ofSchema]
    simp [ofOwnRef, ofEnum, bare.has, typed.fieldD, fieldD_map,
      lift_ok_bind, isStr_str, part?_map found, shaped.isMapWith_type, ih, ofShape, Nest.build]

end PythonType

namespace TypeScriptType

def ofPrimitive : Primitive → TypeScriptType
  | .text format => ofFormat format
  | .integer => .name "number"
  | .number => .name "number"
  | .boolean => .name "boolean"

def ofShape (shape : Nest Primitive) : TypeScriptType :=
  shape.build ofPrimitive .array .record

theorem ofSchema_shaped (h : Shaped schema shape) (scope : TypeScriptScope) (name : Scalar) :
    ofSchema scope schema name = pure (ofShape shape) := by
  induction h generalizing name with
  | text bare typed | integer bare typed | number bare typed | boolean bare typed =>
    rw [ofSchema]
    simp [ofOwnRef, ofEnum, bare.has, typed.fieldD, fieldD_map, lift_ok_bind,
      isStr_str, Value.isOneOf, ofShape, Nest.build, ofPrimitive]
  | array bare typed found shaped ih =>
    rw [ofSchema]
    simp [ofOwnRef, shaped.has_oneOf, bare.has, typed.fieldD, fieldD_map, lift_ok_bind,
      isStr_str, Value.isOneOf, part?_map found, ih, ofShape, Nest.build]
  | map bare typed found shaped ih =>
    rw [ofSchema]
    simp [ofOwnRef, bare.has, typed.fieldD, fieldD_map, lift_ok_bind,
      isStr_str, Value.isOneOf, part?_map found, shaped.isMapWith_type, ih, ofShape, Nest.build]

structure OfType (schema : Value) (type : String) : Prop where
  lacks : ∀ key ∈ ["$ref", "oneOf", "anyOf", "allOf", "not"], schema.has key = .ok false
  type : schema.fieldD "type" (.str "string") = .ok (.str type)

theorem OfType.no_ref {type : String} (h : OfType schema type) : schema.has "$ref" = .ok false :=
  h.lacks _ (.head _)

theorem ofOwnRef_of_lacks (h : schema.has "$ref" = .ok false) (scope : TypeScriptScope) (name : Scalar) :
    ofOwnRef scope schema name = pure none := by
  unfold ofOwnRef
  rw [h]
  rfl

end TypeScriptType

namespace CSharpType

def ofPrimitive : Primitive → CSharpType
  | .text format => ofFormat format
  | .integer => .name "long"
  | .number => .name "double"
  | .boolean => .name "bool"

def ofShape (shape : Nest Primitive) : CSharpType :=
  shape.build ofPrimitive .list .dictionary

theorem ofSchema_shaped (h : Shaped schema shape) (scope : Option RefScope) (name : Scalar) :
    ofSchema scope schema name = pure (ofShape shape) := by
  induction h generalizing name with
  | text bare typed | integer bare typed | number bare typed | boolean bare typed =>
    rw [ofSchema]
    simp [ofOwnRef, bare.has, typed.fieldD, fieldD_map, lift_ok_bind, isStr_str, ofShape, Nest.build, ofPrimitive]
  | array bare typed found shaped ih =>
    rw [ofSchema]
    simp [ofOwnRef, bare.has, typed.fieldD, fieldD_map, lift_ok_bind, isStr_str,
      part?_map found, ih, ofShape, Nest.build]
  | map bare typed found shaped ih =>
    rw [ofSchema]
    simp [ofOwnRef, bare.has, typed.fieldD, fieldD_map, lift_ok_bind,
      isStr_str, part?_map found, shaped.isMapWith_type, ih, ofShape, Nest.build]

end CSharpType

end Languages

/-! ## All languages -/

/-- The languages in which the type of a property is spelt out. -/
inductive Target where
  | go | python (style : PythonStyle) | typescript | csharp

namespace Target

def typeText (target : Target) (scope : Option RefScope) (schema : Value) (name : Scalar) : RefM String :=
  match target with
  | .go => return (← GoType.ofSchema scope schema name).1.text
  | .python style => return (← PythonType.ofSchema scope style schema name).text
  | .typescript => return (← TypeScriptType.ofSchema (.ofResolver scope) schema name).text
  | .csharp => return (← CSharpType.ofSchema scope schema name).text

def spelling : Target → Spelling
  | .go => { array := { left := "[]", right := "" }, map := { left := "map[string]", right := "" } }
  | .python _ => { array := { left := "List[", right := "]" }, map := { left := "Dict[str, ", right := "]" } }
  | .typescript => { array := { left := "", right := "[]" }, map := { left := "Record<string, ", right := ">" } }
  | .csharp => { array := { left := "List<", right := ">" }, map := { left := "Dictionary<string, ", right := ">" } }

def word : Target → Primitive → String
  | .go, p => (GoType.ofPrimitive p).text
  | .python style, p => (PythonType.ofPrimitive style p).text
  | .typescript, p => (TypeScriptType.ofPrimitive p).text
  | .csharp, p => (CSharpType.ofPrimitive p).text

theorem isWord_word (target : Target) (p : Primitive) : target.spelling.isWord (target.word p) := by
  cases target with
  | go =>
    cases p with
    | text format =>
      simp only [word, GoType.ofPrimitive, GoType.ofFormat]
      split_ifs <;> decide
    | _ => decide
  | python style =>
    cases p with
    | text format =>
      simp only [word, PythonType.ofPrimitive, PythonType.ofFormat]
      cases style <;> split_ifs <;> decide
    | _ => cases style <;> decide
  | typescript =>
    cases p with
    | text format =>
      simp only [word, TypeScriptType.ofPrimitive, TypeScriptType.ofFormat]
      split_ifs <;> decide
    | _ => decide
  | csharp =>
    cases p with
    | text format =>
      simp only [word, CSharpType.ofPrimitive, CSharpType.ofFormat]
      split_ifs <;> decide
    | _ => decide

theorem typeText_shaped {schema : Value} {shape : Nest Primitive} (h : Shaped schema shape) (target : Target)
    (scope : Option RefScope) (name : Scalar) :
    target.typeText scope schema name = pure (target.spelling.write (shape.mapLeaf target.word)) := by
  cases target with
  | go =>
    have htext : (GoType.ofShape shape).text = go.spelling.write (shape.mapLeaf go.word) :=
      Spelling.write_build go.spelling GoType.text _ (fun t => String.append_empty.symm)
        (fun t => String.append_empty.symm) shape
    rw [typeText, GoType.ofSchema_shaped h, pure_bind, htext]
  | python style =>
    have htext : (PythonType.ofShape style shape).text =
        (python style).spelling.write (shape.mapLeaf (python style).word) :=
      Spelling.write_build (python style).spelling PythonType.text _ (fun t => rfl) (fun t => rfl) shape
    rw [typeText, PythonType.ofSchema_shaped h, pure_bind, htext]
  | typescript =>
    have htext : (TypeScriptType.ofShape shape).text = typescript.spelling.write (shape.mapLeaf typescript.word) :=
      Spelling.write_build typescript.spelling TypeScriptType.text _
        (fun t => congrArg (· ++ "[]") String.empty_append.symm) (fun t => rfl) shape
    rw [typeText, TypeScriptType.ofSchema_shaped h, pure_bind, htext]
  | csharp =>
    have htext : (CSharpType.ofShape shape).text = csharp.spelling.write (shape.mapLeaf csharp.word) :=
      Spelling.write_build csharp.spelling CSharpType.text _ (fun t => rfl) (fun t => rfl) shape
    rw [typeText, CSharpType.ofSchema_shaped h, pure_bind, htext]

theorem read_write_word (target : Target) (shape : Nest Primitive) :
    target.spelling.read (target.spelling.write (shape.mapLeaf target.word)) = shape.mapLeaf target.word := by
  refine Spelling.read_write _ ?_
  rw [Nest.core_mapLeaf]
  exact isWord_word target shape.core

theorem nesting_read_write (target : Target) (shape : Nest Primitive) :
    (target.spelling.read (target.spelling.write (shape.mapLeaf target.word))).nesting = shape.nesting := by
  rw [read_write_word, Nest.nesting_mapLeaf]

/-- In every language the type of a schema that is arrays and maps around a primitive is these very arrays and maps
around the word for that primitive, so two such schemas that are nested differently have different types. -/
theorem typeText_spells {schema schema' : Value} {shape shape' : Nest Primitive} (h : Shaped schema shape)
    (h' : Shaped schema' shape') (target : Target) (scope scope' : Option RefScope) (name name' : Scalar)
    (s s' : RefState) : ∃ text text', exec (target.typeText scope schema name) s = (.ok text, s) ∧
      exec (target.typeText scope' schema' name') s' = (.ok text', s') ∧
      text = target.spelling.write (shape.mapLeaf target.word) ∧ target.spelling.read text = shape.mapLeaf target.word ∧
      (shape.nesting ≠ shape'.nesting → text ≠ text') := by
  refine ⟨target.spelling.write (shape.mapLeaf target.word), target.spelling.write (shape'.mapLeaf target.word),
    ?_, ?_, rfl, read_write_word target shape, fun hne heq => hne ?_⟩
  · rw [typeText_shaped h, exec_pure]
  · rw [typeText_shaped h', exec_pure]
  · rw [← nesting_read_write target shape, ← nesting_read_write target shape']
    exact congrArg (fun text => (target.spelling.read text).nesting) heq

def timetables : Value :=
  .map [("type", "array"), ("items", .map [("type", "object"),
    ("additionalProperties", .map [("format", "date-time"), ("type", "string")])])]

def series : Value :=
  .map [("type", "object"), ("additionalProperties", .map [("type", "array"),
    ("items", .map [("type", "number")])])]

theorem shaped_timetables : Shaped timetables (.array (.map (.leaf (.text (.str "date-time")))))  :=
  .array (by decide) rfl rfl (.map (by decide) rfl rfl (.text (by decide) rfl))

theorem shaped_series : Shaped series (.map (.array (.leaf .number))) :=
  .map (by decide) rfl rfl (.array (by decide) rfl rfl (.number (by decide) rfl))

theorem typeText_spells_timetables : Shaped timetables (.array (.map (.leaf (.text (.str "date-time"))))) ∧
      Shaped series (.map (.array (.leaf .number))) ∧
      ∃ text text', exec (typescript.typeText none timetables (.str "times")) {} = (.ok text, {}) ∧
        exec (typescript.typeText none series (.str "times")) {} = (.ok text', {}) ∧
        text = "Record<string, Date>[]" ∧ text ≠ text' := by
  obtain ⟨text, text', hrun, hrun', rfl, _, hne⟩ :=
    typeText_spells shaped_timetables shaped_series typescript none none (.str "times") (.str "times") {} {}
  exact ⟨shaped_timetables, shaped_series, _, text', hrun, hrun', by decide, hne (by decide)⟩

end Target

end Typewright
