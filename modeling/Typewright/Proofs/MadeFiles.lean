import Typewright.Proofs.AtRest

/-!
# The files of a run

A run makes a file from the root schema and then one from each document.
-/

namespace Typewright.Generate

open RefM Reference

variable {r : Request} {ref : String}

/-- A file that a run makes: what it is made from, the path that it goes to, and the file itself. -/
structure Output (F : Type) where
  request : Request
  path : String
  file : F

def Output.source {F : Type} (x : Output F) : String :=
  x.request.file.getD ""

variable {F : Type} {language : Language} {o : Options} {stamp : String} {scope : RefScope}
  {documents : Table (Value × String)} {make : Request → RefM F} {text : F → String} {s s' last : RefState}

def IsMade (make : Request → RefM F) (scope : RefScope) (last : RefState) (r : Request) (file : F) : Prop :=
  ∃ s s', AtRest scope s.tables ∧ exec (make r) s = (.ok file, s') ∧ Changes scope s' last

theorem IsMade.later {file : F} (h : IsMade make scope s r file) (hlater : Changes scope s s') :
    IsMade make scope s' r file := by
  obtain ⟨s1, s2, hrest, hrun, hchanges⟩ := h
  exact ⟨s1, s2, hrest, hrun, hchanges.trans hlater⟩

theorem isMade_of_exec (hmake : ∀ r, sourceFile language o r = (do return text (← make r)))
    (hs : AtRest scope s.tables) {t : String} (h : exec (sourceFile language o r) s = (.ok t, s')) :
    ∃ file, t = text file ∧ IsMade make scope s' r file := by
  rw [hmake] at h
  obtain ⟨file, s1, hfile, hend⟩ := exec_bind_ok h
  cases hend
  exact ⟨file, rfl, s, _, hs, hfile, .refl⟩

theorem follows_request (handles : language ≠ .proto) (hscope : r.scope = some scope) :
    Follows (some scope) KindFault (sourceFile language o r) :=
  hscope ▸ follows_sourceFile handles o r

theorem follows_documentTexts (handles : language ≠ .proto) (main : String) (documents : Table (Value × String)) :
    Follows (some scope) KindFault (documentTexts language o scope stamp main documents) := by
  induction documents with
  | nil => exact .pure []
  | cons d rest ih =>
    exact .of_bind (follows_request handles rfl) fun text => .of_bind ih fun more => .pure _

def documentSource (language : Language) (stamp main : String) (scope : RefScope)
    (d : String × Value × String) : Request × String :=
  (documentRequest scope stamp main d.1 d.2.1, documentPath language main d.1)

/-- What the files of a run are made from, and the paths that they go to. -/
def sources (language : Language) (o : Options) (stamp : String) (scope : RefScope)
    (documents : Table (Value × String)) : List (Request × String) :=
  (mainRequest scope stamp, mainPath language o.output) ::
    documents.map (documentSource language stamp (mainPath language o.output) scope)

theorem outputs_of_documentTexts (handles : language ≠ .proto)
    (hmake : ∀ r, sourceFile language o r = (do return text (← make r))) {main : String}
    {texts : List String} (hs : AtRest scope s.tables)
    (h : exec (documentTexts language o scope stamp main documents) s = (.ok texts, s')) : ∃ outs : List (Output F),
      documentOutputs language main documents texts = outs.map (fun x => (x.path, text x.file)) ∧
      outs.map (fun x => (x.request, x.path)) = documents.map (documentSource language stamp main scope) ∧
      ∀ x ∈ outs, IsMade make scope s' x.request x.file := by
  induction documents generalizing s texts with
  | nil =>
    cases h
    exact ⟨[], rfl, rfl, nofun⟩
  | cons d rest ih =>
    obtain ⟨first, s1, hfirst, h1⟩ := exec_bind_ok h
    obtain ⟨more, s2, hmore, h2⟩ := exec_bind_ok h1
    cases h2
    obtain ⟨file, rfl, hmade⟩ := isMade_of_exec hmake hs hfirst
    have hs1 := (follows_request (o := o) handles rfl).atRest hfirst hs
    have hlater := (follows_documentTexts handles main rest).changes hmore
    obtain ⟨outs, houts, hsources, hall⟩ := ih hs1 hmore
    refine ⟨⟨documentRequest scope stamp main d.1 d.2.1, documentPath language main d.1, file⟩ :: outs, ?_, ?_, ?_⟩
    · rw [List.map_cons, ← houts]
      rfl
    · rw [List.map_cons, List.map_cons, hsources]
      rfl
    · rintro x (_ | ⟨_, hx⟩)
      · exact hmade.later hlater
      · exact hall x hx

/-- The files of a run. Each is made while the tables are at rest, the main one before the documents are
listed. -/
structure Outputs (make : Request → RefM F) (language : Language) (o : Options) (stamp : String)
    (scope : RefScope) (documents : Table (Value × String)) (last : RefState) (outs : List (Output F)) :
    Prop where
  sources : outs.map (fun x => (x.request, x.path)) = sources language o stamp scope documents
  made : ∀ x ∈ outs, ∃ mid, IsMade make scope mid x.request x.file ∧ Changes scope mid last ∧
    (x.request.isMain = true → mid.tables.documents = .ok documents)
  read : ∀ d ∈ documents, (Load.load scope.files .on d.1).2 = .ok d.2.1

theorem Generates.exists_outputs (handles : language ≠ .proto)
    (hmake : ∀ r, sourceFile language o r = (do return text (← make r)))
    {outputs : List (String × String)} (h : Generates language o stamp scope documents outputs last) :
    ∃ outs : List (Output F), outputs = outs.map (fun x => (x.path, text x.file)) ∧
      Outputs make language o stamp scope documents last outs := by
  obtain ⟨s1, mid, t, texts, hprepare, hmain, hdocuments, htexts, rfl⟩ := h
  have hs1 : AtRest scope s1.tables := by
    have hrest := atRest_prepare scope scope.root
    rwa [hprepare] at hrest
  have hmid := (follows_request (o := o) handles rfl).atRest hmain hs1
  obtain ⟨file, rfl, hmade⟩ := isMade_of_exec hmake hs1 hmain
  have hlater := (follows_documentTexts handles _ documents).changes htexts
  obtain ⟨outs, houts, hsources, hall⟩ := outputs_of_documentTexts handles hmake hmid htexts
  refine ⟨⟨mainRequest scope stamp, mainPath language o.output, file⟩ :: outs, ?_, ?_, ?_, ?_⟩
  · rw [houts]
    rfl
  · rw [List.map_cons, hsources]
    rfl
  · rintro x (_ | ⟨_, hx⟩)
    · exact ⟨mid, hmade, hlater, fun _ => hdocuments⟩
    refine ⟨last, hall x hx, .refl, fun hisMain => ?_⟩
    have hsource : (x.request, x.path) ∈ outs.map fun x => (x.request, x.path) := List.mem_map_of_mem hx
    rw [hsources] at hsource
    obtain ⟨d, _, hd⟩ := List.mem_map.mp hsource
    have hrequest : documentRequest scope stamp _ d.1 d.2.1 = x.request := congrArg Prod.fst hd
    rw [← hrequest] at hisMain
    cases hisMain
  · intro d hd
    have hloaded := loaded_of_mem_addListings (t := mid.tables) (fun _ hd => absurd hd List.not_mem_nil) hdocuments d hd
    exact hmid.sound.loaded _ _ (Table.mem_of_get? hloaded)

theorem uncased_slash : Text.Uncased '/' :=
  ⟨by decide, by decide +kernel, by decide +kernel, by decide +kernel⟩

theorem slash_not_mem_fileName (language : Language) {stem : String} (h : '/' ∉ stem.toList) :
    '/' ∉ (language.fileStem stem ++ language.extension).toList := by
  rw [String.toList_append, List.mem_append]
  rintro (hmem | hmem)
  · unfold Language.fileStem at hmem
    split at hmem
    · exact h (Naming.mem_of_mem_pascal uncased_slash (by decide) hmem)
    · exact h hmem
  · revert hmem
    cases language <;> decide

namespace Outputs

variable {outs : List (Output F)}

theorem source_cases (h : Outputs make language o stamp scope documents last outs) {x : Output F} (hx : x ∈ outs) :
    x.request = mainRequest scope stamp ∧ x.path = mainPath language o.output ∨
      ∃ d ∈ documents, x.request = documentRequest scope stamp (mainPath language o.output) d.1 d.2.1 ∧
        x.path = documentPath language (mainPath language o.output) d.1 := by
  have hsource : (x.request, x.path) ∈ outs.map fun x => (x.request, x.path) := List.mem_map_of_mem hx
  rw [h.sources] at hsource
  rcases List.mem_cons.mp hsource with hmain | hdocument
  · exact .inl (Prod.mk.inj hmain)
  · obtain ⟨d, hd, heq⟩ := List.mem_map.mp hdocument
    obtain ⟨hrequest, hpath⟩ := Prod.mk.inj heq
    exact .inr ⟨d, hd, hrequest.symm, hpath.symm⟩

theorem exists_of_document (h : Outputs make language o stamp scope documents last outs)
    {d : String × Value × String} (hd : d ∈ documents) :
    ∃ x ∈ outs, x.request = documentRequest scope stamp (mainPath language o.output) d.1 d.2.1 ∧
      x.path = documentPath language (mainPath language o.output) d.1 := by
  have hsource : documentSource language stamp (mainPath language o.output) scope d ∈
      outs.map fun x => (x.request, x.path) := by
    rw [h.sources]
    exact .tail _ (List.mem_map_of_mem hd)
  obtain ⟨x, hx, heq⟩ := List.mem_map.mp hsource
  obtain ⟨hrequest, hpath⟩ := Prod.mk.inj heq
  exact ⟨x, hx, hrequest, hpath⟩

theorem directory_path (h : Outputs make language o stamp scope documents last outs) {x : Output F}
    (hx : x ∈ outs) : Path.directory x.path = Path.directory (mainPath language o.output) := by
  rcases h.source_cases hx with ⟨_, hpath⟩ | ⟨d, _, _, hpath⟩
  · rw [hpath]
  · rw [hpath]
    exact Path.directory_join _ (slash_not_mem_fileName language (Path.slash_not_mem_stem d.1))

theorem scope_request (h : Outputs make language o stamp scope documents last outs) {x : Output F}
    (hx : x ∈ outs) : x.request.scope = some scope ∧ x.request.file = some x.source := by
  unfold Output.source
  rcases h.source_cases hx with ⟨hrequest, _⟩ | ⟨d, _, hrequest, _⟩
  all_goals
    rw [hrequest]
    exact ⟨rfl, rfl⟩

end Outputs

theorem mem_documents_of_noted {t : Tables} (h : t.documents = .ok documents) {path : String}
    (noted : (ref, path) ∈ t.refs) : path ∈ documents.keys := by
  have hcomplete : Complete t := fun _ _ hmem => .inr (loaded_of_addListings h hmem)
  obtain ⟨found, hfound, hall⟩ := documents_of_complete hcomplete
  cases h.symm.trans hfound
  obtain ⟨x, _, hx⟩ := hall ref path noted
  exact List.mem_map_of_mem (Table.mem_of_get? hx)

/-- The type that a reference leads to can be imported: its document gets a file, it is known by the name of
the type that it declares, as a document with a title is, and no other reference is spelt like its path. -/
structure Importable (scope : RefScope) (t : Tables) (documents : Table (Value × String)) (x : Output F)
    (ref : String) : Prop where
  listed : x.request.isMain = true ∨ scope.path ref ∈ documents.keys
  named : ∀ schema, (Load.load scope.files .on (scope.path ref)).2 = .ok schema →
    ∃ name, typeName ref schema = .ok name ∧ schema.titleOrRoot = .ok name
  alone : Alone scope t (scope.path ref)

theorem named_of_title {title : String} {schema : Value}
    (read : (Load.load scope.files .on (scope.path ref)).2.toOption = some schema)
    (htitle : schema.title = .ok title) (ne : title ≠ "") :
    ∀ schema, (Load.load scope.files .on (scope.path ref)).2 = .ok schema →
      ∃ name, typeName ref schema = .ok name ∧ schema.titleOrRoot = .ok name := by
  intro schema' read'
  rw [read'] at read
  cases read
  exact ⟨title, typeName_of_title ref htitle ne, Value.titleOrRoot_of_title htitle ne⟩

theorem Outputs.exists_of_importable {outs : List (Output F)}
    (h : Outputs make language o stamp scope documents last outs) {x : Output F} {mid : RefState}
    (hmain : x.request.isMain → mid.tables.documents = .ok documents) (hlast : Changes scope mid last)
    {type : String} (hasType : HasType scope mid.tables ref type)
    (importable : Importable scope last.tables documents x ref) :
    ∃ y ∈ outs, y.path = documentPath language (mainPath language o.output) (scope.path ref) ∧
      y.request.schema.titleOrRoot = .ok type := by
  have alone := importable.alone.earlier hlast
  have hlisted : scope.path ref ∈ documents.keys := by
    rcases importable.listed with hisMain | hlisted
    · obtain ⟨ref', noted⟩ := hasType.known.noted alone
      exact mem_documents_of_noted (hmain hisMain) noted
    · exact hlisted
  obtain ⟨d, hd, hpath⟩ := List.mem_map.mp hlisted
  have hread := h.read d hd
  rw [hpath] at hread
  obtain ⟨name, hname, htitle⟩ := importable.named d.2.1 hread
  cases hasType.own alone d.2.1 name hread hname (Value.titleOrRoot_ne htitle)
  obtain ⟨y, hy, hrequest, hy'⟩ := h.exists_of_document hd
  refine ⟨y, hy, hpath ▸ hy', ?_⟩
  rw [hrequest]
  exact htitle

theorem outputs_of_exec {languageName : String} (hlanguage : Language.ofName? languageName = some language)
    (handles : language ≠ .proto) (hmake : ∀ r, sourceFile language o r = (do return text (← make r)))
    {files : Table String} (h : exec (sourceFiles languageName o stamp scope) {} = (.ok files, last)) :
    ∃ documents, ∃ outs : List (Output F),
      Generates language o stamp scope documents (outs.map fun x => (x.path, text x.file)) last ∧
      Outputs make language o stamp scope documents last outs ∧
      ((outs.map (·.path)).Nodup → ∀ x ∈ outs, files.get? x.path = some (text x.file)) := by
  obtain ⟨language', documents, outputs, hlanguage', hgenerates, rfl⟩ := exec_sourceFiles_eq_ok h
  cases hlanguage.symm.trans hlanguage'
  obtain ⟨outs, rfl, houts⟩ := hgenerates.exists_outputs handles hmake
  refine ⟨documents, outs, hgenerates, houts, fun hnodup x hx => ?_⟩
  refine ((keepsAll_iff _).mpr ?_).2 _ _ (List.mem_map_of_mem hx)
  rwa [Table.keys, List.map_map]

end Typewright.Generate
