import Typewright.Proofs.GoDescriptions
import Typewright.Proofs.ProtoDescriptions

/-!
# Descriptions and code

Descriptions are for the reader of a file, but they are put into line comments as they are. So the code of a Go
file or a protocol buffer file does not depend on the first lines of descriptions, and does on the others.
-/

namespace Typewright

open RefM Text Value

theorem RefM.Twin.codeLines {x y : RefM String} (h : RefM.Twin SameCode x y) :
    RefM.Twin (fun text text' => codeLines text = codeLines text') x y :=
  fun s => ⟨(h s).1.mono fun _ _ _ hab => hab.codeLines, (h s).2⟩

/-- Two schemas without references that are the same but for descriptions, which may differ as long as their lines
after the first have the same code, make files with the same code from any state, or none with the same fault. -/
theorem code_of_descriptions (r : Request) (other : Value) (hfree : r.schema.isRefFree = true)
    (hsame : alike .schema r.schema other = true) :
    (∀ (package : String) (goPackage : Option String) (more : List String),
      RefM.Twin (fun text text' => codeLines text = codeLines text') (Proto.sourceFile package goPackage more r)
        (Proto.sourceFile package goPackage more { r with schema := other })) ∧
    (r.schema.isNamedInLine = true → ∀ package : String,
      RefM.Twin (fun text text' => codeLines text = codeLines text') (Go.sourceFile package r)
        (Go.sourceFile package { r with schema := other })) ∧
    (∀ a b : String, '\n' ∉ a.toList → '\n' ∉ b.toList → a.toList.all isBlank = false →
      b.toList.all isBlank = false → sameRemark (.str a) (.str b) = true) := by
  have hkin : Kin .schema r.schema other := ⟨hsame, fit_of_isRefFree hfree⟩
  refine ⟨fun package goPackage more => ?_, fun hline package => ?_, fun a b ha hb hsome hsome' => ?_⟩
  · exact (Proto.twin_sourceFile package goPackage more r hkin).codeLines
  · exact (Go.twin_sourceFile package hkin hline).codeLines
  · have hremark : SameRemark a b := .of_line ha hb hsome hsome'
    simp [sameRemark, hremark]

def form (said field kind : String) : Value :=
  .map [("title", "Form"), ("type", "object"), ("description", .str said),
    ("properties", .map
      [("description", .map [("type", "string"), ("description", .str field)]),
        ("kind", .map [("enum", .list [.str "a", .str "b"]), ("description", .str kind)])])]

def formRequest (schema : Value) : Request where
  files := Reference.textFiles []
  schema := schema
  stamp := "now"

theorem code_of_descriptions_form : let first := form "A form." "What it is about." "The kind:\n// one of two"
    let second := form "Any // form" "Text" "Which?\n\n// a or b"
    first.isRefFree = true ∧ alike .schema first second = true ∧ first.isNamedInLine = true ∧
      (∃ text text' s, exec (Proto.sourceFile "forms" none [] (formRequest first)) {} = (.ok text, s) ∧
        exec (Proto.sourceFile "forms" none [] (formRequest second)) {} = (.ok text', s) ∧
        codeLines text = codeLines text') ∧
      (∃ text text' s, exec (Go.sourceFile "forms" (formRequest first)) {} = (.ok text, s) ∧
        exec (Go.sourceFile "forms" (formRequest second)) {} = (.ok text', s) ∧
        codeLines text = codeLines text') := by
  intro first second
  have hfree : first.isRefFree = true := by decide +kernel
  have hsame : alike .schema first second = true := by decide +kernel
  have hline : first.isNamedInLine = true := by decide +kernel
  obtain ⟨hproto, hgo, _⟩ := code_of_descriptions (formRequest first) second hfree hsame
  have hreturns : ∀ {x y : RefM String}, RefM.Twin (fun text text' => codeLines text = codeLines text') x y →
      (exec x {}).1.isOk = true → ∃ text text' s, exec x {} = (.ok text, s) ∧ exec y {} = (.ok text', s) ∧
        codeLines text = codeLines text' := by
    intro x y htwin hok
    obtain ⟨hpaired, hstate⟩ := htwin {}
    obtain ⟨text, htext⟩ := Outcome.eq_ok_of_isOk hok
    rw [htext] at hpaired
    generalize hother : (exec y {}).1 = result at hpaired
    cases hpaired with
    | ok hcode => exact ⟨text, _, _, Prod.ext htext rfl, Prod.ext hother hstate.symm, hcode⟩
  refine ⟨hfree, hsame, hline, hreturns (hproto "forms" none []) (by decide +kernel), ?_⟩
  exact hreturns (hgo hline "forms") (by decide +kernel)

def memo (said : String) : Request where
  files := Reference.textFiles []
  schema := .map [("title", "Memo"), ("type", "object"), ("description", .str said),
    ("properties", .map [])]
  stamp := "now"

theorem code_of_lines : (exec (Proto.sourceFile "schema" none [] (memo "a\nb")) {}).1.map codeLines =
        .ok ["syntax = \"proto3\";", "package schema;", "b", "message Memo \x7b", "\x7d"] ∧
      (exec (Proto.sourceFile "schema" none [] (memo "a")) {}).1.map codeLines =
        .ok ["syntax = \"proto3\";", "package schema;", "message Memo \x7b", "\x7d"] ∧
      (exec (Go.sourceFile "memos" (memo "a\nb")) {}).1.map codeLines =
        .ok ["package memos", "b", "type Memo struct \x7b", "\x7d"] ∧
      (exec (Go.sourceFile "memos" (memo "a")) {}).1.map codeLines =
        .ok ["package memos", "type Memo struct \x7b", "\x7d"] := by
  decide +kernel

end Typewright
