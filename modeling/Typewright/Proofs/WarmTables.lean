import Typewright.Proofs.SamePython
import Typewright.Proofs.SameTypeScript

/-!
# Files from warm tables

References may have been resolved before a file is generated, so that the tables are warm.
-/

namespace Typewright.Generate

open RefM Reference

variable {scope : RefScope} {warm : RefState}

theorem linked_of_turns (whole : Whole scope) (turns : Relation.ReflTransGen (Turn scope) {} warm) :
    Linked scope (known warm) {} warm where
  whole := whole
  good := good_empty scope
  good' := keep_of_steps (fun _ _ turn => turn.keeps_good whole) turns (good_empty scope)
  kept := nofun
  only _ hx := .inr hx

/-- No more is known than what the work loads by itself. -/
def Within {α : Type} (work : RefM α) (s : RefState) : Prop :=
  ∀ x ∈ known s, x ∈ known (exec work {}).2

theorem typeScript_again (whole : Whole scope) (stamp : String) (within : Within (TypeScript.importedRefs scope)
      (exec (TypeScript.fileOf (mainRequest scope stamp)) {}).2) :
    (exec (TypeScript.fileOf (mainRequest scope stamp)) {}).1 = (exec (TypeScript.fileOf (mainRequest scope stamp))
        (exec (TypeScript.fileOf (mainRequest scope stamp)) {}).2).1 := by
  have hfollows : Follows (some scope) KindFault (TypeScript.fileOf (mainRequest scope stamp)) :=
    inferInstanceAs (Follows (mainRequest scope stamp).scope _ _)
  refine TypeScript.exec_fileOf_eq (linked_of_turns whole (hfollows.turns scope rfl {})) stamp within ?_
  have hrest : ∀ used, Follows (some scope) KindFault (TypeScript.fileWith scope stamp used) :=
    fun used => inferInstance
  rw [TypeScript.fileOf_eq, exec_bind]
  rcases exec (TypeScript.importedRefs scope) {} with ⟨e | used, t⟩
  · exact List.prefix_rfl
  · exact known_grows_of_follows (hrest used) t

/-- Where all documents load whole, resolving beforehand what the run resolves itself does not change the file: the
TypeScript file keeps all but the order of its imports, and the Python file keeps its text, if the documents are
titled. -/
theorem warm_like_cold (whole : Whole scope) (turns : Relation.ReflTransGen (Turn scope) {} warm) (stamp : String) :
    (Within (TypeScript.importedRefs scope) warm →
      Outcome.Paired TypeScript.Reordered (exec (TypeScript.fileOf (mainRequest scope stamp)) {}).1
          (exec (TypeScript.fileOf (mainRequest scope stamp)) warm).1 ∧
        (warm = (exec (TypeScript.fileOf (mainRequest scope stamp)) {}).2 →
          (exec (TypeScript.sourceFile (mainRequest scope stamp)) {}).1 =
            (exec (TypeScript.sourceFile (mainRequest scope stamp)) warm).1)) ∧
    (Python.Titled scope → Within (Python.usedTypes scope scope.root) warm → ∀ style text,
      (exec (Python.sourceFile style (mainRequest scope stamp)) {}).1 = .ok text ↔
        (exec (Python.sourceFile style (mainRequest scope stamp)) warm).1 = .ok text) := by
  have hlinked := linked_of_turns whole turns
  refine ⟨fun within => ⟨TypeScript.paired_fileOf hlinked stamp within, ?_⟩, fun titled within style text => ?_⟩
  · rintro rfl
    have hagain := typeScript_again whole stamp within
    unfold TypeScript.sourceFile
    rw [exec_bind, exec_bind]
    generalize exec (TypeScript.fileOf (mainRequest scope stamp))
      (exec (TypeScript.fileOf (mainRequest scope stamp)) {}).2 = second at hagain ⊢
    generalize exec (TypeScript.fileOf (mainRequest scope stamp)) {} = first at hagain ⊢
    obtain ⟨r, t⟩ := first
    obtain ⟨r', t'⟩ := second
    obtain rfl : r = r' := hagain
    cases r <;> rfl
  · have hfile := Python.exec_fileOf_iff titled hlinked within style stamp
    have htext : ∀ s, (exec (Python.sourceFile style (mainRequest scope stamp)) s).1 = .ok text ↔
        ∃ file, (exec (Python.fileOf style (mainRequest scope stamp)) s).1 = .ok file ∧ file.text = text := by
      intro s
      unfold Python.sourceFile
      rw [exec_bind]
      rcases exec (Python.fileOf style (mainRequest scope stamp)) s with ⟨e | file, t⟩
      · simp
      · simp
    rw [htext, htext]
    simp only [hfile]

/-- A schema that refers to two documents, of which the first brings the second with it. -/
def harbour : RefScope :=
  { files := textFiles
      [("ship.json", "\x7b\"title\": \"Ship\", \"properties\": \x7b\"crew\": \x7b\"type\": \"array\", " ++
          "\"items\": \x7b\"$ref\": \"sailor.json\"\x7d\x7d\x7d\x7d"),
        ("sailor.json", "\x7b\"title\": \"Sailor\"\x7d")]
    base := "s.json"
    root := .map [("title", "S"), ("properties", .map
      [("ship", .map [("$ref", "ship.json")]),
        ("mate", .map [("$ref", "sailor.json")])])] }

def ship : Value :=
  .map [("title", "Ship"), ("properties", .map [("crew", .map
    [("type", "array"), ("items", .map [("$ref", "sailor.json")])])])]

def sailor : Value :=
  .map [("title", "Sailor")]

theorem rooted_harbour : harbour.files.Rooted := by
  refine FileTree.rooted_of_entries (fun x hx => ?_) rfl nofun
  obtain ⟨f, -, rfl⟩ := List.mem_map.mp hx
  rfl

theorem eq_of_read_harbour {ref : String} {v : Value} (read : readOf harbour ref = .ok v) : v = ship ∨ v = sailor := by
  have hdocuments : ∀ e ∈ harbour.files.entries,
      (Load.document harbour.files .on ("/" ++ Text.join "/" e.1)).toOption = some ship ∨
        (Load.document harbour.files .on ("/" ++ Text.join "/" e.1)).toOption = some sailor := by
    decide +kernel
  obtain ⟨e, he, hdocument⟩ := rooted_harbour.document_along (document_of_load read)
  have hread := hdocuments e he
  rw [hdocument] at hread
  exact hread.imp Option.some.inj Option.some.inj

theorem titled_harbour : Python.Titled harbour := by
  intro ref v _ hread
  rcases eq_of_read_harbour hread with rfl | rfl
  · exact ⟨"Ship", rfl, by decide⟩
  · exact ⟨"Sailor", rfl, by decide⟩

theorem path_harbour (ref : String) : harbour.path ref = ref :=
  path_of_no_directory (by decide +kernel) ref

theorem whole_harbour : Whole harbour where
  rooted := rooted_harbour
  document ref v outer read := by
    obtain ⟨title, htitle, -⟩ := titled_harbour ref v outer read
    have hnamed : ∃ name, typeName ref v = .ok name := ⟨_, typeName_of_text ref htitle⟩
    rcases eq_of_read_harbour read with rfl | rfl
    · refine ⟨hnamed, ⟨_, rfl, ?_⟩, ?_⟩
      · rintro p (_ | ⟨_, ⟨⟩⟩)
        exact ⟨some "sailor.json", rfl⟩
      have hitems : itemRefs ship = ["sailor.json"] := by decide +kernel
      have hsailor : (readOf harbour "sailor.json").isOk = true := by decide +kernel
      intro item hitem
      rw [hitems] at hitem
      rw [List.mem_singleton.mp hitem]
      exact Outcome.eq_ok_of_isOk hsailor
    · exact ⟨hnamed, ⟨[], rfl, nofun⟩, nofun⟩
  apart ref ref' _ _ h := by
    rw [path_harbour, path_harbour, or_self] at h
    exact h
  plain name file h := by
    obtain ⟨definitions, hdefs, -⟩ := bind_ok h.1
    cases hdefs

theorem warm_harbour : let warm := (exec (harbour.resolve (.str "sailor.json")) {}).2
    known warm = ["sailor.json"] ∧ Within (TypeScript.importedRefs harbour) warm ∧
      Within (Python.usedTypes harbour harbour.root) warm := by
  unfold Within
  decide +kernel

theorem warm_like_cold_harbour : let warm := (exec (harbour.resolve (.str "sailor.json")) {}).2
    known warm = ["sailor.json"] ∧
      Outcome.Paired TypeScript.Reordered (exec (TypeScript.fileOf (mainRequest harbour "")) {}).1
        (exec (TypeScript.fileOf (mainRequest harbour "")) warm).1 ∧
      ∀ style text, (exec (Python.sourceFile style (mainRequest harbour "")) {}).1 = .ok text ↔
        (exec (Python.sourceFile style (mainRequest harbour "")) warm).1 = .ok text := by
  obtain ⟨htypescript, hpython⟩ := warm_like_cold whole_harbour (.single (.resolve {} (.str "sailor.json"))) ""
  obtain ⟨hknown, himported, hused⟩ := warm_harbour
  exact ⟨hknown, (htypescript himported).1, hpython titled_harbour hused⟩

/-- A schema with a definition that is only another name for a file. -/
def renamed : RefScope :=
  { files := textFiles [("a.json", "\x7b\"title\": \"Address\"\x7d")]
    base := "s.json"
    root := .map [("title", "S"), ("properties", .map
        [("a", .map [("type", "array"),
          ("items", .map [("$ref", "#/definitions/A")])])]),
      ("definitions", .map [("A", .map [("$ref", "a.json")])])] }

/-- A schema that refers to a document without a title. -/
def untitled : RefScope :=
  { files := textFiles
      [("a.json", "\x7b\"properties\": \x7b\"x\": \x7b\"type\": \"string\"\x7d\x7d\x7d")]
    base := "s.json"
    root := .map [("title", "S"), ("properties", .map
      [("a", .map [("$ref", "a.json")])])] }

/-- Both texts come out, and they differ. -/
def Differ (file : RefM String) (s s' : RefState) : Prop :=
  (exec file s).1.isOk = true ∧ (exec file s').1.isOk = true ∧
    (exec file s).1.toOption ≠ (exec file s').1.toOption

/-- A definition that is only another name for a file gets the name of the type in the file, if it was resolved
before, and a type without a title is imported. -/
theorem warm_unlike_cold : Differ (TypeScript.sourceFile (mainRequest renamed "")) {}
        (exec (renamed.resolve (.str "#/definitions/A")) {}).2 ∧
      Differ (Python.sourceFile .pydantic (mainRequest untitled "")) {}
        (exec (untitled.resolve (.str "a.json")) {}).2 := by
  unfold Differ
  decide +kernel

end Typewright.Generate
