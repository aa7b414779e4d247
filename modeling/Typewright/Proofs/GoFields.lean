import Typewright.Declaration.Go
import Typewright.Proofs.SeenRun

/-!
# What Go declarations are made of

A declaration that was made, taken apart: its title was claimed, and a struct has one field for each
property, in order.
-/

namespace Typewright.Go

open RefM

variable {scope : Option RefScope} {yaml : Bool} {title : String} {required schema : Value} {name : Scalar}
  {file : Option String} {s s' : RefState} {seen seen' : List Scalar}

/-- What the field of a property says. -/
structure FieldOf (scope : Option RefScope) (yaml : Bool) (title : String) (required : Value)
    (name : Scalar) (schema : Value) (x : Field) (isRequired : Bool) : Prop where
  named : Naming.fieldName (.scalar name) = .ok x.name
  typed : ∃ s s', exec (fieldType scope title x.name schema name) s = (.ok x.type, s')
  required_eq : required.holds name = .ok isRequired
  pointer_eq : x.pointer = !(isRequired || hasEmpty x.type)
  tagged : ∃ limits, constraints schema isRequired = .ok limits ∧ x.tags = tags yaml name.text limits

theorem exec_field {x : Field} (h : exec (field scope yaml title required name schema) s = (.ok x, s')) :
    ∃ isRequired, FieldOf scope yaml title required name schema x isRequired := by
  obtain ⟨fieldName, hname, h1⟩ := exec_ask_ok h
  obtain ⟨type, s1, htype, h2⟩ := exec_bind_ok h1
  obtain ⟨isRequired, hrequired, h3⟩ := exec_ask_ok h2
  obtain ⟨limits, hlimits, h4⟩ := exec_ask_ok h3
  obtain ⟨description, _, h5⟩ := exec_ask_ok h4
  cases h5
  exact ⟨isRequired, hname, ⟨_, _, htype⟩, hrequired, rfl, limits, hlimits, rfl⟩

theorem fields_eq_mapM (es : Entries) :
    fields scope yaml title required es = es.mapM fun e => field scope yaml title required e.1 e.2 := by
  induction es with
  | nil => rfl
  | cons e rest ih => rw [List.mapM_cons, fields, ih]

theorem exec_fields {es : Entries} {xs : List Field} (h : exec (fields scope yaml title required es) s = (.ok xs, s')) :
    List.Forall₂ (fun e x => ∃ isRequired, FieldOf scope yaml title required e.1 e.2 x isRequired) es xs := by
  rw [fields_eq_mapM] at h
  exact (exec_mapM_eq_ok h).imp fun e x ⟨_, _, hfield⟩ => exec_field hfield

theorem exec_struct {st : Struct} (h : exec (struct scope yaml title schema) s = (.ok st, s')) :
    st.title = title ∧ ∃ properties required, schema.entriesAt "properties" = .ok properties ∧
      schema.fieldD "required" (.list []) = .ok required ∧
      List.Forall₂ (fun e x => ∃ isRequired, FieldOf scope yaml title required e.1 e.2 x isRequired)
        properties st.fields := by
  obtain ⟨description, _, h1⟩ := exec_ask_ok h
  obtain ⟨properties, hprops, h2⟩ := exec_ask_ok h1
  obtain ⟨nameWidth, _, h3⟩ := exec_ask_ok h2
  obtain ⟨typeWidth, s1, _, h4⟩ := exec_bind_ok h3
  obtain ⟨required, hrequired, h5⟩ := exec_ask_ok h4
  obtain ⟨xs, s2, hxs, h6⟩ := exec_bind_ok h5
  cases h6
  exact ⟨rfl, properties, required, hprops, hrequired, exec_fields hxs⟩

theorem exec_claimTitle_none {raw : Value} (htitle : schema.titleOrRoot = .ok title)
    (hraw : schema.fieldD "title" (.str "") = .ok raw) : exec ((claimTitle none file schema).run seen) s =
      if !raw.isStr title && Seen.has seen (.str title) then (.ok (none, seen), s)
      else (.ok (some title, Seen.add seen (.str title)), s) := by
  unfold claimTitle
  rw [htitle, hraw]
  change exec (StateT.run (if (!raw.isStr title) = true then _ else _) seen) s = _
  cases raw.isStr title with
  | true => rfl
  | false =>
    change exec (StateT.run (if Seen.has seen (.str title) = true then _ else _) seen) s = _
    cases Seen.has seen (.str title) <;> rfl

theorem declaration_cases {d : Option Declaration}
    (h : exec ((declaration scope file yaml schema).run seen) s = (.ok (d, seen'), s')) :
    ∃ claimed seen1 s1, exec ((claimTitle scope file schema).run seen) s = (.ok (claimed, seen1), s1) ∧
      match claimed with
      | none => d = none
      | some title => ∃ hasEnum, schema.has "enum" = .ok hasEnum ∧ if hasEnum then ∃ e, d = some (.enumeration e)
        else ∃ enums st s2 s3, d = some (.struct enums st) ∧
          exec (struct scope yaml title schema) s2 = (.ok st, s3) := by
  obtain ⟨claimed, seen1, s1, hclaimed, h1⟩ := run_bind_ok h
  refine ⟨claimed, seen1, s1, hclaimed, ?_⟩
  cases claimed with
  | none =>
    cases h1
    rfl
  | some title =>
    obtain ⟨enums, seen2, s2, _, h2⟩ := run_bind_ok h1
    obtain ⟨hasEnum, hhas, h3⟩ := run_ask_ok h2
    refine ⟨hasEnum, hhas, ?_⟩
    cases hasEnum with
    | true =>
      obtain ⟨e, _, h4⟩ := run_ask_ok h3
      cases h4
      exact ⟨e, rfl⟩
    | false =>
      obtain ⟨st, s3, hst, h4⟩ := run_lift_ok h3
      cases h4
      exact ⟨enums, st, _, _, rfl, hst⟩

/-- A schema that may be declared as a struct: the schema of the file, one of its definitions, or an object
among its properties. -/
def IsBody (schema body : Value) : Prop :=
  body = schema ∨ (∃ e ∈ schema.entriesOf "definitions", e.2 = body) ∨
    ∃ e ∈ schema.entriesOf "properties", e.2 = body ∧ body.isMapWith "properties" = true

def structs (ds : List (Option Declaration)) : List Struct :=
  ds.filterMap fun
    | some (.struct _ st) => some st
    | _ => none

theorem structs_append (ds ds' : List (Option Declaration)) : structs (ds ++ ds') = structs ds ++ structs ds' :=
  List.filterMap_append

end Typewright.Go
