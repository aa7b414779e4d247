import Typewright.Generate
import Typewright.Proofs.Preparation
import Mathlib.Data.List.Nodup

/-!
# Which files come out

The texts of a run go into a table under the paths of their files, and two texts may meet under one path.
-/

namespace Typewright.Generate

open RefM

variable {o : Options} {scope : RefScope} {main stamp : String} {s s' : RefState} {language : Language}
  {documents : Table (Value × String)} {outputs : List (String × String)} {files : Table String}

/-! ## What is generated -/

def mainRequest (scope : RefScope) (stamp : String) : Request :=
  { files := scope.files, schema := scope.root, file := some scope.base, given := some scope,
    stamp := stamp }

def documentRequest (scope : RefScope) (stamp main path : String) (schema : Value) : Request :=
  { files := scope.files, schema := schema, file := some path, given := some scope,
    isMain := false, referencedBy := some main, stamp := stamp }

def documentTexts (language : Language) (o : Options) (scope : RefScope) (stamp main : String) :
    Table (Value × String) → RefM (List String)
  | [] => return []
  | (path, schema, _) :: rest => do
    let text ← sourceFile language o (documentRequest scope stamp main path schema)
    return text :: (← documentTexts language o scope stamp main rest)

/-- The outputs for documents: each text with the path of its file. -/
def documentOutputs (language : Language) (main : String) (documents : Table (Value × String))
    (texts : List String) : List (String × String) :=
  (documents.keys.map (documentPath language main)).zip texts

theorem length_of_exec_documentTexts {texts : List String}
    (h : exec (documentTexts language o scope stamp main documents) s = (.ok texts, s')) :
    texts.length = documents.length := by
  induction documents generalizing s texts with
  | nil =>
    cases h
    rfl
  | cons d rest ih =>
    obtain ⟨text, s1, _, h⟩ := exec_bind_ok h
    obtain ⟨more, s2, hmore, h⟩ := exec_bind_ok h
    cases h
    rw [List.length_cons, List.length_cons, ih hmore]

theorem exec_addDocuments_eq_ok {found : Table String}
    (h : exec (addDocuments language o scope stamp main found documents) s = (.ok files, s')) :
    ∃ texts, exec (documentTexts language o scope stamp main documents) s = (.ok texts, s') ∧
      files = found.putAll (documentOutputs language main documents texts) := by
  induction documents generalizing found s with
  | nil =>
    cases h
    exact ⟨[], rfl, rfl⟩
  | cons d rest ih =>
    obtain ⟨path, schema, name⟩ := d
    obtain ⟨text, s1, htext, h⟩ := exec_bind_ok h
    obtain ⟨texts, htexts, hfiles⟩ := ih h
    refine ⟨text :: texts, ?_, hfiles⟩
    unfold documentTexts
    have hfirst : exec (sourceFile language o (documentRequest scope stamp main path schema)) s =
        (.ok text, s1) := htext
    simp only [exec_bind, hfirst, htexts, exec_pure]

/-- The documents that are found after the main text was generated, and the outputs of the whole run in
order: the main text first, then a text for each of the documents. -/
def Generates (language : Language) (o : Options) (stamp : String) (scope : RefScope)
    (documents : Table (Value × String)) (outputs : List (String × String)) (s' : RefState) : Prop :=
  ∃ s1 s2 text texts,
    exec (Reference.prepare scope scope.root) {} = (.ok (), s1) ∧
    exec (sourceFile language o (mainRequest scope stamp)) s1 = (.ok text, s2) ∧
    s2.tables.documents = .ok documents ∧
    exec (documentTexts language o scope stamp (mainPath language o.output) documents) s2 =
      (.ok texts, s') ∧
    outputs = (mainPath language o.output, text) ::
      documentOutputs language (mainPath language o.output) documents texts

theorem exec_sourceFiles_eq_ok {languageName : String}
    (h : exec (sourceFiles languageName o stamp scope) {} = (.ok files, s')) :
    ∃ language documents outputs, Language.ofName? languageName = some language ∧
      Generates language o stamp scope documents outputs s' ∧ files = Table.putAll [] outputs := by
  obtain ⟨_, s1, hprepare, h⟩ := exec_bind_ok h
  cases hlanguage : Language.ofName? languageName with
  | none =>
    rw [hlanguage] at h
    cases h
  | some language =>
    rw [hlanguage] at h
    obtain ⟨text, s2, htext, h⟩ := exec_bind_ok h
    obtain ⟨t, s3, ht, h⟩ := exec_bind_ok h
    cases ht
    obtain ⟨documents, hdocuments, h⟩ := exec_ask_ok h
    obtain ⟨texts, htexts, hfiles⟩ := exec_addDocuments_eq_ok h
    exact ⟨language, documents, _, rfl, ⟨s1, s2, text, texts, hprepare, htext, hdocuments, htexts, rfl⟩, hfiles⟩

theorem Generates.length_outputs (h : Generates language o stamp scope documents outputs s') :
    outputs.length = documents.length + 1 := by
  obtain ⟨_, _, _, texts, _, _, _, htexts, rfl⟩ := h
  have hlength := length_of_exec_documentTexts htexts
  simp [documentOutputs, Table.keys, hlength]

theorem Generates.documents_eq (h : Generates language o stamp scope documents outputs s') :
    (exec (sourceFile language o (mainRequest scope stamp))
      (exec (Reference.prepare scope scope.root) {}).2).2.tables.documents = .ok documents := by
  obtain ⟨_, _, _, _, hprepare, htext, hdocuments, _, _⟩ := h
  rw [hprepare, htext]
  exact hdocuments

/-! ## Documents have different paths -/

theorem nodup_keys_addListings {t : Tables} {refs : Table String}
    {found found' : Table (Value × String)} (nodup : found.keys.Nodup)
    (h : Reference.addListings t found refs = .ok found') : found'.keys.Nodup := by
  induction refs generalizing found with
  | nil =>
    cases h
    exact nodup
  | cons r rest ih =>
    unfold Reference.addListings at h
    rw [List.foldlM_cons] at h
    obtain ⟨next, hnext, h⟩ := bind_ok h
    split at hnext
    · cases hnext
      exact ih (Table.nodup_keys_put nodup _ _) h
    · cases hnext

theorem Generates.nodup_documents (h : Generates language o stamp scope documents outputs s') :
    documents.keys.Nodup := by
  obtain ⟨_, _, _, _, _, _, hdocuments, _, _⟩ := h
  have hempty : (Table.keys ([] : Table (Value × String))).Nodup := List.nodup_nil
  exact nodup_keys_addListings hempty hdocuments

/-! ## What is kept -/

/-- Each output is an entry of its own, and its path leads to its text. -/
def KeepsAll (files : Table String) (outputs : List (String × String)) : Prop :=
  files.length = outputs.length ∧ ∀ path text, (path, text) ∈ outputs → files.get? path = some text

theorem keepsAll_iff (outputs : List (String × String)) :
    KeepsAll (Table.putAll [] outputs) outputs ↔ (Table.keys outputs).Nodup := by
  constructor
  · intro h
    exact Table.nodup_of_length_putAll (t := []) List.nodup_nil (by simpa using h.1)
  intro h
  have hall : Table.putAll [] outputs = outputs := Table.putAll_of_nodup (t := []) h
  refine ⟨by rw [hall], fun path text hmem => ?_⟩
  obtain ⟨before, after, rfl⟩ := List.append_of_mem hmem
  refine Table.get?_putAll_of_last [] before text ?_
  intro hafter
  rw [Table.keys, List.map_append, List.map_cons] at h
  exact (List.nodup_cons.mp (List.nodup_append.mp h).2.1).1 hafter

theorem not_nodup_of_same_stem (h : Generates language o stamp scope documents outputs s') {p q : String}
    (hp : p ∈ documents.keys) (hq : q ∈ documents.keys) (hne : p ≠ q)
    (same : language.fileStem (Path.stem p) = language.fileStem (Path.stem q)) : ¬ (Table.keys outputs).Nodup := by
  obtain ⟨_, _, _, texts, _, _, _, htexts, rfl⟩ := h
  have hlength : (documents.keys.map (documentPath language (mainPath language o.output))).length ≤ texts.length := by
    rw [length_of_exec_documentTexts htexts]
    simp [Table.keys]
  intro hnodup
  have hpaths : (documents.keys.map (documentPath language (mainPath language o.output))).Nodup := by
    have hrest := (List.nodup_cons.mp hnodup).2
    rwa [documentOutputs, List.map_fst_zip hlength] at hrest
  have hpath : documentPath language (mainPath language o.output) p =
      documentPath language (mainPath language o.output) q := by
    unfold documentPath
    rw [same]
  exact hne (List.inj_on_of_nodup_map hpaths hp hq hpath)

/-- A run that returns has made one output for the schema and one for each of the documents, which have
different paths. Its files hold what was generated last for each path. Nothing is lost exactly if the
output paths differ; documents that differ in their directory only do lose one. -/
theorem sourceFiles_keepsAll_iff {languageName stamp : String} {o : Options} {scope : RefScope}
    {files : Table String} {s' : RefState} (h : exec (sourceFiles languageName o stamp scope) {} = (.ok files, s')) :
    ∃ language documents outputs, Language.ofName? languageName = some language ∧
      Generates language o stamp scope documents outputs s' ∧
      documents.keys.Nodup ∧ outputs.length = documents.length + 1 ∧ files.keys.Nodup ∧
      (∀ before path text after, outputs = before ++ (path, text) :: after →
        path ∉ Table.keys after → files.get? path = some text) ∧ (KeepsAll files outputs ↔ (Table.keys outputs).Nodup) ∧
      ∀ p ∈ documents.keys, ∀ q ∈ documents.keys, p ≠ q →
        language.fileStem (Path.stem p) = language.fileStem (Path.stem q) → ¬ KeepsAll files outputs := by
  obtain ⟨language, documents, outputs, hlanguage, hgenerates, rfl⟩ := exec_sourceFiles_eq_ok h
  refine ⟨language, documents, outputs, hlanguage, hgenerates, hgenerates.nodup_documents,
    hgenerates.length_outputs, Table.nodup_keys_putAll (t := []) List.nodup_nil _, ?_, keepsAll_iff outputs, ?_⟩
  · rintro before path text after rfl hlast
    exact Table.get?_putAll_of_last [] before text hlast
  · intro p hp q hq hne hsame hkeeps
    exact not_nodup_of_same_stem hgenerates hp hq hne hsame ((keepsAll_iff outputs).mp hkeeps)

def boxes : RefScope :=
  { files :=
      { cwd := []
        entries := [(["a"], .directory), (["b"], .directory),
          (["a", "box.json"], .file "\x7b\"title\": \"SmallBox\"\x7d".toUTF8.toList),
          (["b", "box.json"], .file "\x7b\"title\": \"LargeBox\"\x7d".toUTF8.toList)] }
    base := "shelf.json"
    root := .map [("title", "Shelf"), ("properties", .map
      [("small", .map [("$ref", "a/box.json")]),
        ("large", .map [("$ref", "b/box.json")])])] }

/-- The run over the two files returns, and one of its texts is lost. -/
theorem sourceFiles_keepsAll_iff_boxes : ∃ files s', exec (sourceFiles "go" {} "now" boxes) {} = (.ok files, s') ∧
      ∃ documents outputs, Generates .go {} "now" boxes documents outputs s' ∧
        documents.keys = ["a/box.json", "b/box.json"] ∧ ¬ KeepsAll files outputs := by
  have hok : (exec (sourceFiles "go" {} "now" boxes) {}).1.isOk = true := by decide +kernel
  obtain ⟨files, hfiles⟩ := Outcome.eq_ok_of_isOk hok
  have hrun : exec (sourceFiles "go" {} "now" boxes) {} = (.ok files, _) := Prod.ext hfiles rfl
  obtain ⟨language, documents, outputs, hlanguage, hgenerates, _, _, _, _, _, hlost⟩ := sourceFiles_keepsAll_iff hrun
  cases hlanguage
  have hkeys : documents.keys = ["a/box.json", "b/box.json"] := by
    have hlisted : ((exec (sourceFile .go {} (mainRequest boxes "now"))
        (exec (Reference.prepare boxes boxes.root) {}).2).2.tables.documents.toOption.map
          Table.keys) = some ["a/box.json", "b/box.json"] := by
      decide +kernel
    rw [hgenerates.documents_eq] at hlisted
    exact Option.some.inj hlisted
  refine ⟨files, _, hrun, documents, outputs, hgenerates, hkeys, ?_⟩
  exact hlost "a/box.json" (by rw [hkeys]; decide) "b/box.json" (by rw [hkeys]; decide) (by decide) (by decide +kernel)

/-- Three texts are generated for the two files and the schema, but two files come out, and the type in
the first directory is in neither of them. -/
theorem sourceFiles_boxes_loses_text : (exec (sourceFiles "go" {} "now" boxes) {}).1.toOption.map (fun files =>
      (files.keys, files.any fun file => Text.contains file.2 "type SmallBox")) = some (["output", "box.go"], false) ∧
    (exec (sourceFiles "go" {} "now" boxes) {}).2.tables.documents.toOption.map Table.keys =
      some ["a/box.json", "b/box.json"] := by
  decide +kernel

end Typewright.Generate
