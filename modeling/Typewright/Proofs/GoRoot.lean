import Typewright.Proofs.Generators
import Typewright.Proofs.GoFields
import Typewright.Proofs.GoWithoutReferences

/-!
# The root type of a Go file

The title of a schema counts as seen before anything is declared, and stays seen while the types inside the schema are
declared.
-/

namespace Typewright

open RefM

namespace Go

/-! ## The root type -/

theorem contains_struct {out : SourceFile} {enums : List (Option Enumeration)} {st : Struct}
    (h : some (.struct enums st) ∈ out.declarations) :
    Text.contains out.text ("type " ++ st.title ++ " struct \x7b") := by
  have hline : "type " ++ st.title ++ " struct \x7b" ∈ enums.map enumText ++ st.lines := by
    simp [Struct.lines]
  have hdeclaration : declarationText (some (.struct enums st)) ∈ out.declarations.map declarationText :=
    List.mem_map_of_mem h
  exact Text.contains_trans (Text.contains_join (List.mem_append_right _ hdeclaration)) (Text.contains_join hline)

section Root

variable {package title : String} {r : Request} {out : SourceFile} {s s' : RefState}

/-- What is done with a type inside the schema of a file, if no types are found elsewhere. -/
def visitNested (r : Request) (title : String) (schema : Value) (_ : Scalar) :
    SeenM (Option (Option Declaration)) :=
  return some (← nestedDeclaration r title [] schema)

instance (schema : Value) (name : Scalar) : FollowsSeen r.scope KindFault (visitNested r title schema name) := by
  unfold visitNested
  infer_instance

theorem fileOf_cases (hscope : r.scope = none) (h : exec (fileOf package r) s = (.ok out, s')) :
    ∃ title nested root seen seen' s1 s2 s3, r.schema.titleOrRoot = .ok title ∧
      exec (imports none none r.schema) s = (.ok out.imports, s1) ∧
      exec ((Nested.visitTypes none (visitNested r title) r.schema).run [.str title]) s1 = (.ok (nested, seen), s2) ∧
      exec ((declaration none r.file true r.schema).run seen) s2 = (.ok (root, seen'), s3) ∧
      out.declarations = nested ++ [root] := by
  obtain ⟨title, htitle, h1⟩ := exec_ask_ok h
  obtain ⟨⟨elsewhere, i⟩, s1, hanalyse, h2⟩ := exec_bind_ok h1
  obtain ⟨⟨ds, seen'⟩, s2, hds, h3⟩ := exec_bind_ok h2
  cases h3
  unfold analyse at hanalyse
  rw [hscope] at hanalyse
  obtain ⟨_, _, himports, hend⟩ := exec_bind_ok hanalyse
  cases hend
  obtain ⟨nested, seen1, s3, hnested, h4⟩ := run_bind_ok hds
  obtain ⟨root, seen2, s4, hroot, h5⟩ := run_bind_ok h4
  cases h5
  rw [hscope] at hnested hroot
  exact ⟨title, nested, root, seen1, _, s1, s3, _, htitle, himports, hnested, hroot, rfl⟩

theorem root_of_fileOf (hscope : r.scope = none) (htitle : r.schema.titleOrRoot = .ok title)
    (noEnum : r.schema.isMapWith "enum" = false) (h : exec (fileOf package r) s = (.ok out, s')) :
    ∃ nested root, out.declarations = nested ++ [root] ∧ if r.schema.field "title" = .ok (.str title) then
        ∃ enums st s1 s2, root = some (.struct enums st) ∧ exec (struct none true title r.schema) s1 = (.ok st, s2)
      else root = none := by
  obtain ⟨_, nested, root, seen, seen', s1, s2, s3, htitle', _, hnested, hroot, hds⟩ := fileOf_cases hscope h
  cases htitle.symm.trans htitle'
  refine ⟨nested, root, hds, ?_⟩
  -- the title was seen from the start
  have hfollows : FollowsSeen none KindFault (Nested.visitTypes none (visitNested r title) r.schema) := by
    rw [← hscope]
    infer_instance
  have hseen : Seen.has seen (.str title) := hfollows.keepsSeen.keeps hnested _ (Seen.has_str_iff.mpr (.head _))
  obtain ⟨raw, hraw⟩ : ∃ raw, r.schema.fieldD "title" (.str "") = .ok raw := by
    obtain ⟨t, ht, _⟩ := bind_ok htitle
    obtain ⟨raw, hraw, _⟩ := bind_ok ht
    exact ⟨raw, hraw⟩
  obtain ⟨claimed, seen1, s4, hclaimed, hcases⟩ := declaration_cases hroot
  rw [exec_claimTitle_none htitle hraw, hseen, Bool.and_true] at hclaimed
  split
  · next hsame =>
    rw [(Value.isStr_title_iff htitle hraw).mpr hsame] at hclaimed
    cases hclaimed
    obtain ⟨hasEnum, hhas, hcases⟩ := hcases
    rw [Value.has_eq_isMapWith "enum" (Value.isMap_of_titleOrRoot htitle), noEnum] at hhas
    cases hhas
    exact hcases
  · next hdiffers =>
    rw [Bool.eq_false_iff.mpr (mt (Value.isStr_title_iff htitle hraw).mp hdiffers)] at hclaimed
    cases hclaimed
    exact hcases

/-- For a schema without references that is no enumeration, the root type is declared in the file if and
only if its title stands in the schema as it is: a title that is missing, that is empty or that has blanks
leaves an empty place. -/
theorem sourceFile_root {text : String} (main : r.isMain = true) (free : r.schema.isRefFree = true)
    (noEnum : r.schema.isMapWith "enum" = false) (h : (exec (sourceFile package r) {}).1 = .ok text) :
    ∃ title out nested root, r.schema.titleOrRoot = .ok title ∧
      (exec (fileOf package r) {}).1 = .ok out ∧ text = out.text ∧ out.declarations = nested ++ [root] ∧
      (root = none ↔ r.schema.field "title" ≠ .ok (.str title)) ∧ (r.schema.field "title" = .ok (.str title) →
        (∃ enums st s s', root = some (.struct enums st) ∧ exec (struct none true title r.schema) s = (.ok st, s')) ∧
        Text.contains text ("type " ++ title ++ " struct \x7b") = true) := by
  have hrun : exec (sourceFile package r) {} = (.ok text, _) := Prod.ext h rfl
  obtain ⟨out, s1, hout, hend⟩ := exec_bind_ok hrun
  cases hend
  obtain ⟨title, htitle, _⟩ := exec_ask_ok hout
  have hfile : (exec (fileOf package r) {}).1 = .ok out := by rw [hout]
  -- without references the file is the same where none are followed
  have hbare : (exec (fileOf package r.bare) {}).1 = .ok out := by
    cases hscope : r.scope with
    | none => rwa [Request.bare_of_scope hscope]
    | some scope => exact (agree_fileOf package hscope main (Value.fit_of_isRefFree free)).sound hfile
  obtain ⟨nested, root, hds, hroot⟩ := root_of_fileOf (r := r.bare) rfl htitle noEnum (Prod.ext hbare rfl)
  refine ⟨title, out, nested, root, htitle, hfile, rfl, hds, ?_, fun hsame => ?_⟩
  · split at hroot
    · next hsame =>
      obtain ⟨enums, st, _, _, rfl, _⟩ := hroot
      exact ⟨nofun, fun hdiffers => absurd hsame hdiffers⟩
    · next hdiffers => exact ⟨fun _ => hdiffers, fun _ => hroot⟩
  rw [Request.bare_schema, if_pos hsame] at hroot
  refine ⟨hroot, ?_⟩
  obtain ⟨enums, st, _, _, rfl, hst⟩ := hroot
  rw [← (exec_struct hst).1]
  have hmem : some (.struct enums st) ∈ out.declarations := by simp [hds]
  exact contains_struct hmem

end Root

def crate (title : String) : Request where
  files := ⟨[], []⟩
  file := some "crate.json"
  stamp := "now"
  schema := .map [("title", .str title),
    ("definitions", .map [("Crate", .map [("properties", .map [])])]),
    ("properties", .map
      [("lid", .map [("type", "object"), ("properties", .map [])]),
        ("colour", .map [("type", "string"), ("enum", .list [.str "red"])])])]

theorem sourceFile_root_crate :
    (crate "Crate").schema.isRefFree = true ∧ ∃ text, (exec (sourceFile "main" (crate "Crate")) {}).1 = .ok text ∧
      Text.contains text "type Crate struct \x7b" = true := by
  have hfree : (crate "Crate").schema.isRefFree = true := by decide
  obtain ⟨text, htext⟩ : ∃ text, (exec (sourceFile "main" (crate "Crate")) {}).1 = .ok text :=
    Outcome.eq_ok_of_isOk (by decide +kernel)
  obtain ⟨title, _, _, _, htitle, _, _, _, _, hroot⟩ := sourceFile_root rfl hfree (by decide) htext
  have hcrate : (crate "Crate").schema.titleOrRoot = .ok "Crate" := by decide +kernel
  cases htitle.symm.trans hcrate
  exact ⟨hfree, text, htext, (hroot rfl).2⟩

theorem sourceFile_root_blank :
    (crate "My Crate").schema.isRefFree = true ∧ (crate "My Crate").schema.isMapWith "enum" = false ∧
      (crate "My Crate").schema.titleOrRoot = .ok "MyCrate" ∧ ∀ r ∈ [crate "My Crate", (crate "My Crate").bare],
        (exec (sourceFile "main" r) {}).1.map (Text.contains · "type MyCrate struct \x7b") = .ok false := by
  decide +kernel

end Go

end Typewright
