import Typewright.Proofs.AtRest

/-!
# The names of titled documents

The table of types has one column of keys for two kinds of things: the paths of documents, and the references to them
as they are spelt.
-/

namespace Typewright.Reference

open RefM

variable {scope : RefScope}

theorem Call.keepsNames (scope : RefScope) (call : Call) (s : RefState) :
    Makes (KeepsNames scope) (call.work scope) s := by
  cases call with
  | resolve ref => exact makes_discard (resolve_keepsNames scope ref s)
  | note ref => exact note_keepsNames scope ref s

theorem Labelled.withFiles {t : Tables} (h : Labelled scope t) (files : FileTree) :
    Labelled (withFiles scope files) t :=
  fun path v name hloaded hname => (h path v name hloaded hname).imp id fun overwritten =>
    ⟨overwritten.elsewhere, overwritten.noted, overwritten.name⟩

theorem Labelled.runCalls (calls : List (FileTree × Call)) {s : RefState} (hs : Labelled scope s.tables) :
    Labelled scope (runCalls scope calls s).tables := by
  induction calls generalizing s with
  | nil => exact hs
  | cons c rest ih =>
    obtain ⟨files, call⟩ := c
    have hnext := keep_of_steps (P := fun s => Labelled (Reference.withFiles scope files) s.tables)
      (fun _ _ h => h) (call.keepsNames (Reference.withFiles scope files) s) (hs.withFiles files)
    exact ih (hnext.withFiles scope.files)

theorem labelled_runCalls (scope : RefScope) (calls : List (FileTree × Call)) :
    Labelled scope (runCalls scope calls {}).tables :=
  Labelled.runCalls calls nofun

theorem typeName_of_text {v : Value} {raw : String} (ref : String) (h : v.field "title" = .ok (.str raw)) :
    typeName ref v = .ok (Text.without ' ' raw) := by
  unfold typeName
  rw [Value.has_of_field h, h]
  rfl

theorem path_of_no_directory (h : Path.directory scope.base = "") (ref : String) : scope.path ref = ref := by
  unfold RefScope.path
  rw [h, Path.join_empty]

/-- After any calls, over any files, a document with a title is known by its title without blanks, unless a reference
is spelt like the path of the document and leads to another one: then the name is that of the other document. -/
theorem title_or_overwritten (calls : List (FileTree × Call)) {path raw : String} {v : Value}
    (loaded : (runCalls scope calls {}).tables.loaded.get? path = some v) (titled : v.field "title" = .ok (.str raw)) :
    ((runCalls scope calls {}).tables.types.get? path = some (Text.without ' ' raw) ∨
      Overwritten scope (runCalls scope calls {}).tables path) ∧ (Alone scope (runCalls scope calls {}).tables path →
      (runCalls scope calls {}).tables.types.get? path = some (Text.without ' ' raw)) ∧
    (Path.directory scope.base = "" →
      (runCalls scope calls {}).tables.types.get? path = some (Text.without ' ' raw)) := by
  have hlabelled := labelled_runCalls scope calls
  have hname := typeName_of_text path titled
  refine ⟨hlabelled path v _ loaded hname, fun alone => hlabelled.own loaded alone hname, fun hdir => ?_⟩
  exact hlabelled.own loaded (fun _ => path_of_no_directory hdir path) hname

def twins : RefScope :=
  { files :=
      { cwd := []
        entries := [(["d"], .directory),
          (["d", "x.json"], .file "\x7b\"title\": \"Outer Twin\"\x7d".toUTF8.toList), (["d", "d"], .directory),
          (["d", "d", "x.json"], .file "\x7b\"title\": \"Inner Twin\"\x7d".toUTF8.toList)] }
    base := "d/s.json"
    root := .map [] }

def resolveAll (scope : RefScope) (refs : List String) : List (FileTree × Call) :=
  refs.map fun ref => (scope.files, .resolve (.str ref))

/-- The outer document is noted under an assumed name before it is read, and is known by its title then. -/
theorem title_or_overwritten_twins :
    let calls := (twins.files, .note (.str "x.json")) :: resolveAll twins ["x.json", "gone.json"]
    let tables := (runCalls twins calls {}).tables
    tables.loaded.get? "d/x.json" = some (.map [(.str "title", .str "Outer Twin")]) ∧
      tables.types.get? "d/x.json" = some "OuterTwin" := by
  have hrun : let calls := (twins.files, .note (.str "x.json")) :: resolveAll twins ["x.json", "gone.json"]
      let tables := (runCalls twins calls {}).tables
      tables.loaded.get? "d/x.json" = some (.map [(.str "title", .str "Outer Twin")]) ∧
        "d/x.json" ∉ tables.refs.keys := by
    decide +kernel
  obtain ⟨hloaded, hunspelt⟩ := hrun
  exact ⟨hloaded, (title_or_overwritten _ hloaded rfl).2.1 fun hmem => absurd hmem hunspelt⟩

/-- The reference to the inner document is spelt like the path of the outer one, and its name takes the place of
the other. -/
theorem title_overwritten_twins :
    let tables := (runCalls twins (resolveAll twins ["x.json", "d/x.json"]) {}).tables
    tables.loaded.get? "d/x.json" = some (.map [(.str "title", .str "Outer Twin")]) ∧
      tables.types.get? "d/x.json" = some "InnerTwin" := by
  decide +kernel

end Typewright.Reference
