import Typewright.Proofs.GoFile
import Typewright.Proofs.OutputFiles
import Typewright.Proofs.Paths

/-!
# Types that Go files use

The fields of structs name types, which some file has to declare. The two names are the same in a set of files that is
tidy.
-/

namespace Typewright

open RefM Reference Text GoType
open Generate (documentRequest follows_sourceFile mainPath mainRequest sourceFiles)

variable {out : SourceFile} {ref main text stamp package : String} {v schema definition : Value} {o : Options}
  {s' : RefState} {name : String}

namespace Go

/-! ## Tidy sets of files -/

structure HasTitle (schema : Value) (title : String) : Prop where
  spelt : schema.field "title" = .ok (.str title)
  plain : Text.without ' ' title = title
  named : title ≠ ""

/-- What fields call the type of the document at a path. -/
def titleAt (path : String) : String :=
  Naming.capitalWords (Path.stem path)

/-- A schema that a file is made from: the root, or a document that was read. -/
def IsSource (scope : RefScope) (t : Tables) (schema : Value) : Prop :=
  schema = scope.root ∨ ∃ path, t.loaded.get? path = some schema

def HasObject (schema : Value) (name : String) : Prop :=
  ∃ e ∈ schema.entriesOf "properties", e.2.has "$ref" = .ok false ∧ e.2.has "properties" = .ok true ∧
    Naming.pascalOf (.scalar e.1) = .ok name

/-- The object of this name is one that some file declares. A file that is only referred to declares no
objects but those whose names start with its own. -/
def IsObject (scope : RefScope) (t : Tables) (name : String) : Prop :=
  HasObject scope.root name ∨ ∃ path schema, t.loaded.get? path = some schema ∧
    Text.startsWith name (titleAt path) = true ∧ HasObject schema name

structure TidySource (scope : RefScope) (t : Tables) (schema : Value) : Prop where
  /-- The source is not itself a reference to a file. -/
  inner : ¬ OuterRef schema
  /-- Definitions are named, and one that stands for a file has the name of its type. -/
  definitions : ∀ e ∈ schema.entriesOf "definitions", e.1 ≠ .str "" ∧
    ∀ ref, e.2.field "$ref" = .ok (.str ref) → Reference.isInner ref = false →
      e.1 = .str (titleAt ref) ∧ ∃ document, t.loaded.get? (scope.path ref) = some document
  /-- Objects among the properties have no titles of their own. -/
  objects : ∀ e ∈ schema.entriesOf "properties", e.2.isMapWith "properties" = true →
    e.2.isMapWith "title" = false ∧ ¬ OuterRef e.2
  orderly : ∀ body, IsBody schema body → Orderly body
  /-- Objects further inside have the names of some that are declared. -/
  named : ∀ body, IsBody schema body → ∀ e ∈ body.entriesOf "properties",
    ∀ name ∈ GoType.objectNames e.2 e.1, IsObject scope t name

/-- A set of files, as it is known at the end of a run, whose types are called as they are used. -/
structure Tidy (scope : RefScope) (t : Tables) (documents : Table (Value × String)) : Prop where
  /-- The path of a reference can stand for the reference. -/
  paths : ∀ ref, scope.path (scope.path ref) = scope.path ref
  /-- Every reference to a file leads to a document that becomes a file. -/
  files : ∀ ref path, (ref, path) ∈ t.refs →
    ∃ schema name, t.loaded.get? path = some schema ∧ (path, schema, name) ∈ documents
  root : ∃ title, HasTitle scope.root title
  titles : ∀ path schema, t.loaded.get? path = some schema →
    HasTitle schema (titleAt path) ∧ Naming.pascal (Path.stem path) = titleAt path
  distinct : ∀ path schema path' schema', t.loaded.get? path = some schema →
    t.loaded.get? path' = some schema' → titleAt path = titleAt path' → path = path'
  /-- No document refers to itself. -/
  apart : ∀ path schema ref, t.loaded.get? path = some schema → Mentions t schema ref →
    scope.path ref ≠ path
  sources : ∀ schema, IsSource scope t schema → TidySource scope t schema

/-- A name that no type can have, or that a file is taken to have until it is read. -/
def Awkward (t : Tables) (name : String) : Prop :=
  name = "" ∨ Text.without ' ' name ≠ name ∨
    ∃ ref ∈ t.refs.keys, Text.startsWith (Path.stem ref) "U" = true ∧ name = Reference.assumedName ref

def IsDocumentType (t : Tables) (name : String) : Prop :=
  ∃ path schema, t.loaded.get? path = some schema ∧ name = titleAt path

theorem HasTitle.typeName {title : String} (h : HasTitle schema title) (ref : String) :
    typeName ref schema = .ok title := by
  unfold Reference.typeName
  rw [Value.has_of_field h.spelt, Outcome.ok_bind, if_pos rfl, h.spelt, Outcome.ok_bind]
  exact congrArg Except.ok h.plain

theorem titleAt_path (scope : RefScope) (ref : String) : titleAt (scope.path ref) = titleAt ref :=
  congrArg Naming.capitalWords (Path.stem_join _ ref)

theorem mem_definitions {root : Value} (h : definition? root name = .ok (some definition)) :
    (.str name, definition) ∈ root.entriesOf "definitions" := by
  obtain ⟨definitions, hdefs, hfield⟩ := bind_ok (definition?_eq_some h)
  obtain ⟨es, rfl, hfound⟩ := Value.field_eq_ok hfield
  obtain ⟨key, hsame, hmem⟩ := Value.mem_of_find? hfound
  rw [Value.entriesOf_eq (Value.entriesAt_of_field hdefs), ← Scalar.same_str_iff.mp hsame]
  exact hmem

section Tidy

variable {scope : RefScope} {last s : RefState} {documents : Table (Value × String)} {name : String}

theorem During.sound (hs : During scope last s) : Sound scope s.tables :=
  sound_of_changes hs.reached (sound_empty scope)

theorem During.keeps_definition (hs : During scope last s)
    (h : s.tables.definitions.get? name = some ref) : last.tables.definitions.get? name = some ref :=
  keep_of_steps (P := fun s => s.tables.definitions.get? name = some ref)
    (fun _ _ change => change.keeps_definition (hs.sound.definitions _ _ (Table.mem_of_get? h))) hs.later h

theorem Tidy.type_name (tidy : Tidy scope last.tables documents) (hs : During scope last s)
    (h : s.tables.types.get? (scope.path ref) = some name) : Awkward last.tables name ∨
      (∃ schema, last.tables.loaded.get? (scope.path ref) = some schema) ∧ name = titleAt ref := by
  have hstand := typesStand_of_changes hs.reached (typesStand_empty scope)
  obtain ⟨ref', noted, hkey, hname⟩ := (hstand _ _ h).keep hs.later
  have hpath : scope.path ref' = scope.path ref := by
    rcases hkey with hkey | hkey
    · exact hkey.symm
    · rw [← hkey, tidy.paths]
  have htitle : titleAt ref' = titleAt ref := by
    rw [← titleAt_path scope ref', hpath, titleAt_path]
  obtain ⟨schema, _, hloaded, _⟩ := tidy.files _ _ noted
  rcases hname with rfl | ⟨_, hfound, hnamed⟩
  · by_cases hU : startsWith (Path.stem ref') "U"
    · exact .inl (.inr (.inr ⟨ref', List.mem_map_of_mem noted, hU, rfl⟩))
    · refine .inr ⟨⟨schema, hpath ▸ hloaded⟩, ?_⟩
      exact (congrArg Naming.capitalWords (if_neg hU)).trans htitle
  · refine .inr ⟨⟨schema, hpath ▸ hloaded⟩, ?_⟩
    cases hloaded.symm.trans hfound
    rw [(tidy.titles _ _ hloaded).1.typeName, titleAt_path] at hnamed
    exact (Except.ok.inj hnamed).symm.trans htitle

theorem Tidy.definition_name (tidy : Tidy scope last.tables documents) (hs : During scope last s)
    (h : s.tables.definitions.get? name = some ref) :
    (∃ schema, last.tables.loaded.get? (scope.path ref) = some schema) ∧ name = titleAt ref := by
  obtain ⟨href, houter⟩ := hs.sound.definitions _ _ (Table.mem_of_get? h)
  obtain ⟨es, definition, hes, hfound, href⟩ := definitionRef_eq_ok href
  have hmem := mem_definitions (definition?_of_find? hes hfound)
  obtain ⟨hkey, hloaded⟩ := ((tidy.sources _ (.inl rfl)).definitions _ hmem).2 ref href houter
  exact ⟨hloaded, Scalar.str.inj hkey⟩

/-! ## What each file declares -/

/-- The file is the main one, or it is made from a document. -/
structure IsFile (scope : RefScope) (t : Tables) (r : Request) (path title : String) : Prop where
  scope_eq : r.scope = some scope
  file_eq : r.file = some path
  titled : HasTitle r.schema title
  source : r.isStandalone = false ∧ r.schema = scope.root ∨
    r.isStandalone = true ∧ t.loaded.get? path = some r.schema ∧ title = titleAt path

/-- A name that the file has for itself: that of its own type, or one that neither another file has nor,
if the file is only referred to, a definition of the root. -/
structure Owned (scope : RefScope) (t : Tables) (r : Request) (title name : String) : Prop where
  fair : ¬ Awkward t name
  starts : Text.startsWith name (start r title) = true
  own : r.isStandalone = true ∧ name = title ∨ ¬ IsDocumentType t name ∧
    (r.isStandalone = true → ∀ e ∈ scope.root.entriesOf "definitions", e.1 ≠ .str name)

/-- A schema that some file may declare as a struct. -/
def IsStructBody (scope : RefScope) (t : Tables) (body : Value) : Prop :=
  ∃ schema, IsSource scope t schema ∧ IsBody schema body

variable {r : Request} {path title : String}

theorem IsFile.isSource (h : IsFile scope last.tables r path title) : IsSource scope last.tables r.schema := by
  rcases h.source with ⟨_, hroot⟩ | ⟨_, hloaded, _⟩
  · exact .inl hroot
  · exact .inr ⟨path, hloaded⟩

theorem Owned.path_eq (tidy : Tidy scope last.tables documents) (file : IsFile scope last.tables r path title)
    (owned : Owned scope last.tables r title name) {path' : String}
    (hloaded : last.tables.loaded.get? path' = some schema) (hname : name = titleAt path') :
    last.tables.loaded.get? path = some r.schema ∧ name = title ∧ path' = path := by
  rcases owned.own with ⟨hstandalone, rfl⟩ | ⟨hother, _⟩
  · rcases file.source with ⟨hmain, _⟩ | ⟨_, hpath, htitle⟩
    · cases hmain.symm.trans hstandalone
    · exact ⟨hpath, rfl, tidy.distinct _ _ _ _ hloaded hpath (hname.symm.trans htitle)⟩
  · exact absurd ⟨path', schema, hloaded, hname⟩ hother

theorem Owned.claimable (tidy : Tidy scope last.tables documents)
    (file : IsFile scope last.tables r path title) (owned : Owned scope last.tables r title name)
    (hs : During scope last s) : Claimable scope r.file s.tables name where
  plain := Decidable.byContradiction fun hne => owned.fair (.inr (.inl hne))
  named := fun hempty => owned.fair (.inl hempty)
  free := by
    rw [file.file_eq]
    refine ⟨fun hmem => ?_, fun ref href => ?_⟩
    · obtain ⟨⟨ref, path'⟩, hnoted, hfound⟩ := List.mem_filterMap.mp hmem
      split at hfound
      · cases hfound
      next hother =>
      have htype : s.tables.types.get? path' = some name := by
        cases htype : s.tables.types.get? path' with
        | none =>
          rw [htype] at hfound
          exact absurd (.inl (Option.some.inj hfound).symm) owned.fair
        | some found =>
          rw [htype] at hfound
          exact hfound
      obtain ⟨_, rfl⟩ := hs.sound.refs _ _ hnoted
      rcases tidy.type_name hs htype with hawkward | ⟨⟨schema, hloaded⟩, hname⟩
      · exact owned.fair hawkward
      obtain ⟨hpath, _, heq⟩ := owned.path_eq tidy file hloaded (hname.trans (titleAt_path scope ref).symm)
      refine hother ?_
      have hne : path ≠ "" := by
        rintro rfl
        exact (tidy.titles _ _ hpath).1.named (by decide)
      have hsame : samePlace scope path path := beq_self_eq_true _
      rw [Option.any_some, show Path.join (Path.directory scope.base) ref = path from heq, hsame]
      simpa using hne
    · obtain ⟨⟨schema, hloaded⟩, hname⟩ := tidy.definition_name hs href
      obtain ⟨_, _, heq⟩ := owned.path_eq tidy file hloaded (hname.trans (titleAt_path scope ref).symm)
      have hfileName : Path.fileName path = Path.fileName ref := by
        rw [← heq]
        exact Path.fileName_join _ ref
      unfold otherFile
      simp [hfileName]

theorem Owned.not_outerRef (tidy : Tidy scope last.tables documents)
    (file : IsFile scope last.tables r path title) (owned : Owned scope last.tables r title name) (hne : name ≠ title)
    (h : (.str name, definition) ∈ r.schema.entriesOf "definitions") : ¬ OuterRef definition := by
  rintro ⟨ref, href, houter⟩
  obtain ⟨hkey, schema, hloaded⟩ := ((tidy.sources _ file.isSource).definitions _ h).2 ref href houter
  exact hne (owned.path_eq tidy file hloaded ((Scalar.str.inj hkey).trans (titleAt_path scope ref).symm)).2.1

theorem Tidy.settled (tidy : Tidy scope last.tables documents) {ref : Value}
    (h : Settled scope last.tables ref v) : IsStructBody scope last.tables v ∧ ¬ OuterRef v := by
  cases h with
  | definition lead =>
    obtain ⟨_, _, hdestination⟩ := bind_ok lead
    obtain ⟨_, hdef, hno⟩ := definition?_of_destination hdestination
    refine ⟨⟨_, .inl rfl, .inr (.inl ⟨_, mem_definitions hdef, rfl⟩)⟩, ?_⟩
    rintro ⟨_, href, _⟩
    cases hno.symm.trans (Value.has_of_field href)
  | file _ found _ =>
    exact ⟨⟨v, .inr ⟨_, found⟩, .inl rfl⟩, (tidy.sources _ (.inr ⟨_, found⟩)).inner⟩

theorem Tidy.refName (tidy : Tidy scope last.tables documents) (h : Settled scope last.tables (.str text) v) :
    Nested.refName text ≠ "" ∧ ((∃ e ∈ scope.root.entriesOf "definitions", e.1 = .str (Nested.refName text)) ∨
        v.field "title" = .ok (.str (Nested.refName text))) := by
  have hlead : ∃ d, scope.leadsTo (.str text) = .ok d := by
    cases h with
    | definition lead => exact ⟨_, lead⟩
    | file lead _ _ => exact ⟨_, lead⟩
  obtain ⟨d, hlead⟩ := hlead
  cases hinner : isInner text with
  | true =>
    have hdef := isDefinition_of_leadsTo hlead hinner
    obtain ⟨definition, hfound⟩ := definition?_of_leadsTo hlead hdef
    have hmem := mem_definitions hfound
    unfold Nested.refName
    rw [if_pos hdef]
    refine ⟨fun hempty => ?_, .inl ⟨_, hmem, rfl⟩⟩
    exact ((tidy.sources _ (.inl rfl)).definitions _ hmem).1 (congrArg Scalar.str hempty)
  | false =>
    have hloaded : last.tables.loaded.get? (scope.path text) = some v := by
      cases h with
      | definition lead => cases (leadsTo_of_outer scope hinner).symm.trans lead
      | file lead found _ =>
        cases (leadsTo_of_outer scope hinner).symm.trans lead
        exact found
    obtain ⟨htitle, hpascal⟩ := tidy.titles _ _ hloaded
    have hname : Nested.refName text = titleAt (scope.path text) := by
      have hdef : isDefinition text ≠ true := fun h => by
        rw [isInner_of_isDefinition h] at hinner
        cases hinner
      unfold Nested.refName
      rw [if_neg hdef, hinner, if_neg Bool.false_ne_true, ← hpascal]
      exact congrArg Naming.pascal (Path.stem_join _ text).symm
    rw [hname]
    exact ⟨htitle.named, .inr htitle.spelt⟩

theorem declarable (tidy : Tidy scope last.tables documents) (file : IsFile scope last.tables r path title) :
    Declarable scope r title last (Owned scope last.tables r title) (IsStructBody scope last.tables) where
  scope_eq := file.scope_eq
  title_eq := (titleOrRoot_of_field file.titled.spelt file.titled.plain file.titled.named).2.2
  claimable hs _ owned := owned.claimable tidy file hs
  unknown {s} hs name owned hne := by
    cases hfound : s.tables.definitions.get? name with
    | none => rfl
    | some ref =>
      obtain ⟨⟨_, hloaded⟩, hname⟩ := tidy.definition_name hs hfound
      exact absurd (owned.path_eq tidy file hloaded (hname.trans (titleAt_path scope ref).symm)).2.1 hne
  imported {s} hs name owned := by
    rintro ⟨ref, hmentions, htype⟩
    rcases tidy.type_name hs htype with hawkward | ⟨⟨_, hloaded⟩, hname⟩
    · exact owned.fair hawkward
    obtain ⟨hpath, _, heq⟩ := owned.path_eq tidy file hloaded (hname.trans (titleAt_path scope ref).symm)
    exact tidy.apart _ _ ref hpath (hmentions.imp id fun ⟨e, he, text, hkey, hknown⟩ =>
      ⟨e, he, text, hkey, hs.keeps_definition hknown⟩) heq
  starts _ owned := owned.starts
  self := ⟨⟨_, file.isSource, .inl rfl⟩,
    fun _ => ⟨file.titled.spelt, (tidy.sources _ file.isSource).inner⟩⟩
  orderly _ hbody := by
    obtain ⟨schema, hsource, hbody⟩ := hbody
    exact (tidy.sources _ hsource).orderly _ hbody
  settled _ _ hsettled := tidy.settled hsettled
  definitions e he := by
    refine ⟨⟨_, file.isSource, .inr (.inl ⟨e, he, rfl⟩)⟩, fun name hkey owned hne => ?_⟩
    obtain ⟨_, definition⟩ := e
    cases hkey
    exact owned.not_outerRef tidy file hne he
  objects e he hprops :=
    ⟨⟨_, file.isSource, .inr (.inr ⟨e, he, rfl, hprops⟩)⟩,
      (tidy.sources _ file.isSource).objects e he hprops⟩
  references text v hsettled _ := by
    obtain ⟨hne, hnamed⟩ := tidy.refName hsettled
    refine ⟨hne, fun owned hother => ?_⟩
    rcases hnamed with ⟨e, he, hkey⟩ | htitle
    · rcases file.source with ⟨_, hroot⟩ | ⟨hstandalone, _⟩
      · rw [hroot]
        exact .inl ⟨e, he, hkey⟩
      · rcases owned.own with ⟨_, hown⟩ | ⟨_, hfree⟩
        · exact absurd hown hother
        · exact absurd hkey (hfree hstandalone e he)
    · exact .inr htitle

/-! ## What all files declare -/

/-- The file is made from the request, and declares the names that it owns. -/
def IsOutput (scope : RefScope) (t : Tables) (r : Request) (path title : String) (out : SourceFile) : Prop :=
  IsFile scope t r path title ∧
    FileDeclares scope r title (Owned scope t r title) (IsStructBody scope t) t out.declarations

/-- There is a file for the root and one for each document. -/
structure Covers (scope : RefScope) (t : Tables) (outs : List SourceFile) : Prop where
  each : ∀ out ∈ outs, ∃ r path title, IsOutput scope t r path title out
  main : ∃ out ∈ outs, ∃ r path title, IsOutput scope t r path title out ∧ r.isStandalone = false
  documents : ∀ path schema, t.loaded.get? path = some schema →
    ∃ out ∈ outs, ∃ r title, IsOutput scope t r path title out ∧ r.isStandalone = true

def IsDeclared (outs : List SourceFile) (name : String) : Prop :=
  ∃ out ∈ outs, name ∈ declaredNames out.declarations

section Covers

variable {outs : List SourceFile}

theorem Covers.declares_document (covers : Covers scope last.tables outs)
    (fair : ¬ Awkward last.tables name) (h : IsDocumentType last.tables name) : IsDeclared outs name := by
  obtain ⟨path, schema, hloaded, rfl⟩ := h
  obtain ⟨out, hout, r, title, ⟨file, declares⟩, hstandalone⟩ := covers.documents path schema hloaded
  rcases file.source with ⟨hmain, _⟩ | ⟨_, _, rfl⟩
  · cases hmain.symm.trans hstandalone
  · refine ⟨out, hout, declares.own ⟨fair, ?_, .inl ⟨hstandalone, rfl⟩⟩⟩
    exact startsWith_start fun _ => startsWith_self _

theorem owned_of_main (fair : ¬ Awkward last.tables name) (hmain : r.isStandalone = false)
    (hother : ¬ IsDocumentType last.tables name) : Owned scope last.tables r title name where
  fair := fair
  starts := startsWith_start fun hstandalone => nomatch hmain.symm.trans hstandalone
  own := .inr ⟨hother, fun hstandalone => nomatch hmain.symm.trans hstandalone⟩

theorem Covers.declares_definition (covers : Covers scope last.tables outs)
    (fair : ¬ Awkward last.tables name) {e : Scalar × Value}
    (he : e ∈ scope.root.entriesOf "definitions") (hkey : e.1 = .str name) : IsDeclared outs name := by
  by_cases hdocument : IsDocumentType last.tables name
  · exact covers.declares_document fair hdocument
  obtain ⟨out, hout, r, path, title, ⟨file, declares⟩, hmain⟩ := covers.main
  rcases file.source with ⟨_, hroot⟩ | ⟨hstandalone, _⟩
  · refine ⟨out, hout, declares.definitions e ?_ name hkey (owned_of_main fair hmain hdocument)⟩
    rwa [hroot]
  · cases hmain.symm.trans hstandalone

theorem Covers.declares_or_owned (covers : Covers scope last.tables outs)
    (fair : ¬ Awkward last.tables name) (hstart : startsWith name (start r title)) :
    IsDeclared outs name ∨ Owned scope last.tables r title name := by
  by_cases hdocument : IsDocumentType last.tables name
  · exact .inl (covers.declares_document fair hdocument)
  by_cases hdef : ∃ e ∈ scope.root.entriesOf "definitions", e.1 = .str name
  · obtain ⟨e, he, hkey⟩ := hdef
    exact .inl (covers.declares_definition fair he hkey)
  · exact .inr ⟨fair, hstart, .inr ⟨hdocument, fun _ e he hkey => hdef ⟨e, he, hkey⟩⟩⟩

theorem Covers.declares_object (covers : Covers scope last.tables outs)
    (fair : ¬ Awkward last.tables name) (h : IsObject scope last.tables name) : IsDeclared outs name := by
  have hdeclared : ∀ {out : SourceFile} {r : Request} {path title : String}, out ∈ outs →
      IsOutput scope last.tables r path title out → startsWith name (start r title) →
      HasObject r.schema name → IsDeclared outs name := by
    rintro out r path title hout ⟨_, declares⟩ hstart ⟨e, he, hno, hprops, hname⟩
    rcases covers.declares_or_owned fair hstart with hdeclared | owned
    · exact hdeclared
    · exact ⟨out, hout, declares.objects e he hno hprops name hname owned⟩
  rcases h with hobject | ⟨path, schema, hloaded, hstart, hobject⟩
  · obtain ⟨out, hout, r, path, title, houtput, hmain⟩ := covers.main
    rcases houtput.1.source with ⟨_, hroot⟩ | ⟨hstandalone, _⟩
    · refine hdeclared hout houtput (startsWith_start fun hstandalone => ?_) (hroot ▸ hobject)
      cases hmain.symm.trans hstandalone
    · cases hmain.symm.trans hstandalone
  · obtain ⟨out, hout, r, title, houtput, hstandalone⟩ := covers.documents path schema hloaded
    rcases houtput.1.source with ⟨hmain, _⟩ | ⟨_, hloaded', rfl⟩
    · cases hmain.symm.trans hstandalone
    · cases hloaded.symm.trans hloaded'
      exact hdeclared hout houtput (startsWith_start fun _ => hstart) hobject

theorem Covers.declares_ref (tidy : Tidy scope last.tables documents)
    (covers : Covers scope last.tables outs) (fair : ¬ Awkward last.tables name)
    (h : FromRef scope last.tables name) : IsDeclared outs name := by
  cases h with
  | definition _ found => exact covers.declares_definition fair (mem_definitions found) rfl
  | @file ref schema outer found =>
    exact covers.declares_document fair ⟨_, schema, found, (titleAt_path scope ref).symm⟩
  | nameless found =>
    rcases found with found | ⟨ref, _, found, hempty⟩
    · exact absurd rfl ((tidy.sources _ (.inl rfl)).definitions _ (mem_definitions found)).1
    · exact absurd ((titleAt_path scope ref).trans hempty) (tidy.titles _ _ found).1.named

theorem Covers.declares_field (tidy : Tidy scope last.tables documents)
    (covers : Covers scope last.tables outs) (hout : out ∈ outs) {st : Struct}
    (hst : st ∈ structs out.declarations) {field : Field} (hfield : field ∈ st.fields) :
    field.type.base ∈ builtIns ∨ Awkward last.tables field.type.base ∨ IsDeclared outs field.type.base := by
  refine or_iff_not_imp_left.mpr fun hbuiltIn => or_iff_not_imp_left.mpr fun fair => ?_
  obtain ⟨r, path, title, file, declares⟩ := covers.each out hout
  rcases declares.fields st hst field hfield with h | hfrom | ⟨body, ⟨schema, hsource, hbody⟩, e, he, hobject⟩ |
    ⟨hstart, hown⟩
  · exact absurd h hbuiltIn
  · exact covers.declares_ref tidy fair hfrom
  · exact covers.declares_object fair ((tidy.sources _ hsource).named body hbody e he _ hobject)
  · exact (covers.declares_or_owned fair hstart).elim id fun owned => ⟨out, hout, hown owned⟩

end Covers

/-! ## The run -/

theorem FileDeclares.keep {Own : String → Prop} {body : Value → Prop} {ds : List (Option Declaration)}
    (h : FileDeclares scope r title Own body s.tables ds) (later : Changes scope s last) :
    FileDeclares scope r title Own body last.tables ds where
  own := h.own
  definitions := h.definitions
  objects := h.objects
  fields st hst x hx := (h.fields st hst x hx).imp id (Or.imp (fun hfrom => hfrom.keep later) id)

/-- The file is made from the request at some time of the run. -/
def IsMade (scope : RefScope) (last : RefState) (package : String) (r : Request) (out : SourceFile) : Prop :=
  ∃ s s', During scope last s ∧ During scope last s' ∧ exec (fileOf package r) s = (.ok out, s')

theorem IsMade.isOutput (tidy : Tidy scope last.tables documents)
    (file : IsFile scope last.tables r path title) (h : IsMade scope last package r out) :
    IsOutput scope last.tables r path title out := by
  obtain ⟨s, s', hs, hs', hrun⟩ := h
  exact ⟨file, (exec_fileOf (declarable tidy file) hs hs' hrun).keep hs'.later⟩

theorem isMade_of_sourceFile (hscope : r.scope = some scope)
    (hs : Changes scope {} s) (hs' : Changes scope s' last)
    (h : exec (Generate.sourceFile .go o r) s = (.ok text, s')) :
    ∃ out, text = out.text ∧ IsMade scope last (o.package.getD "main") r out := by
  have hfollows := follows_sourceFile (l := .go) nofun o r
  rw [hscope] at hfollows
  have hchanges := hfollows.changes h
  obtain ⟨out, s1, hout, hend⟩ := exec_bind_ok h
  cases hend
  exact ⟨out, rfl, s, _, ⟨hs, hchanges.trans hs'⟩, ⟨hs.trans hchanges, hs'⟩, hout⟩

theorem follows_documentTexts (o : Options) (scope : RefScope) (stamp main : String)
    (documents : Table (Value × String)) :
    Follows (some scope) KindFault (Generate.documentTexts .go o scope stamp main documents) := by
  induction documents with
  | nil => exact .pure []
  | cons d rest ih =>
    refine .of_bind ?_ fun text => .of_bind ih fun more => .pure _
    exact follows_sourceFile (l := .go) nofun o (documentRequest scope stamp main d.1 d.2.1)

theorem isMade_of_documentTexts {texts : List String}
    (hs : Changes scope {} s) (hs' : Changes scope s' last)
    (h : exec (Generate.documentTexts .go o scope stamp main documents) s = (.ok texts, s')) :
    let Made (d : String × Value × String) (out : SourceFile) : Prop :=
      IsMade scope last (o.package.getD "main") (documentRequest scope stamp main d.1 d.2.1) out
    ∃ outs : List SourceFile, texts = outs.map (·.text) ∧ outs.length = documents.length ∧
      (∀ out ∈ outs, ∃ d ∈ documents, Made d out) ∧ ∀ d ∈ documents, ∃ out ∈ outs, Made d out := by
  intro Made
  induction documents generalizing s texts with
  | nil =>
    cases h
    exact ⟨[], rfl, rfl, nofun, nofun⟩
  | cons d rest ih =>
    obtain ⟨text, s1, htext, h1⟩ := exec_bind_ok h
    obtain ⟨more, s2, hmore, h2⟩ := exec_bind_ok h1
    cases h2
    have hfollows := follows_sourceFile (l := .go) nofun o (documentRequest scope stamp main d.1 d.2.1)
    have hlater := (follows_documentTexts o scope stamp main rest).changes hmore
    obtain ⟨out, rfl, hout⟩ := isMade_of_sourceFile rfl hs (hlater.trans hs') htext
    obtain ⟨outs, rfl, hlength, heach, hall⟩ := ih (hs.trans (Follows.changes hfollows htext)) hmore
    refine ⟨out :: outs, rfl, congrArg (· + 1) hlength, ?_, ?_⟩
    · rintro out' (_ | ⟨_, hmem⟩)
      · exact ⟨d, .head _, hout⟩
      · obtain ⟨d', hd', hmade⟩ := heach out' hmem
        exact ⟨d', .tail _ hd', hmade⟩
    · rintro d' (_ | ⟨_, hmem⟩)
      · exact ⟨out, .head _, hout⟩
      · obtain ⟨out', hout', hmade⟩ := hall d' hmem
        exact ⟨out', .tail _ hout', hmade⟩

theorem covers_of_made {outs : List SourceFile} (tidy : Tidy scope last.tables documents)
    (sound : Sound scope last.tables) (loaded : ∀ d ∈ documents, last.tables.loaded.get? d.1 = some d.2.1)
    (hmain : IsMade scope last package (mainRequest scope stamp) out) (heach : ∀ out ∈ outs, ∃ d ∈ documents,
      IsMade scope last package (documentRequest scope stamp main d.1 d.2.1) out) (hall : ∀ d ∈ documents, ∃ out ∈ outs,
      IsMade scope last package (documentRequest scope stamp main d.1 d.2.1) out) :
    Covers scope last.tables (out :: outs) := by
  obtain ⟨title, htitle⟩ := tidy.root
  have houtput : IsOutput scope last.tables (mainRequest scope stamp) scope.base title out :=
    hmain.isOutput tidy ⟨rfl, rfl, htitle, .inl ⟨rfl, rfl⟩⟩
  have hdocument : ∀ d ∈ documents, ∀ out, IsMade scope last package (documentRequest scope stamp main d.1 d.2.1) out →
      IsOutput scope last.tables (documentRequest scope stamp main d.1 d.2.1) d.1 (titleAt d.1)
        out := fun d hd out hmade =>
    hmade.isOutput tidy ⟨rfl, rfl, (tidy.titles _ _ (loaded d hd)).1, .inr ⟨rfl, loaded d hd, rfl⟩⟩
  refine ⟨?_, ⟨out, .head _, _, _, _, houtput, rfl⟩, fun path schema hloaded => ?_⟩
  · rintro out' (_ | ⟨_, hmem⟩)
    · exact ⟨_, _, _, houtput⟩
    · obtain ⟨d, hd, hmade⟩ := heach out' hmem
      exact ⟨_, _, _, hdocument d hd out' hmade⟩
  · obtain ⟨ref, hnoted⟩ := sound.loaded_refs _ _ (Table.mem_of_get? hloaded)
    obtain ⟨schema', name, hloaded', hmem⟩ := tidy.files _ _ hnoted
    obtain ⟨out', hout', hmade⟩ := hall _ hmem
    exact ⟨out', .tail _ hout', _, _, hdocument _ hmem out' hmade, rfl⟩

end Tidy

theorem contains_enumText (e : Enumeration) : contains (enumText (some e)) ("type " ++ e.title ++ " ") := by
  have hline : "type " ++ e.title ++ " " ++ (if e.ofTexts then "string" else "int") ∈ e.lines := by
    simp [Enumeration.lines]
  exact contains_trans (contains_join hline) (contains_append_left _ _)

theorem contains_declared (h : name ∈ declaredNames out.declarations) :
    contains out.text ("type " ++ name ++ " ") := by
  obtain ⟨declared, hmem, hname⟩ := List.mem_flatMap.mp h
  have hdeclaration : declarationText declared ∈ out.declarations.map declarationText := List.mem_map_of_mem hmem
  refine contains_trans (contains_join (List.mem_append_right _ hdeclaration)) ?_
  match declared with
  | none => cases hname
  | some (.enumeration e) =>
    cases List.mem_singleton.mp hname
    exact contains_enumText e
  | some (.struct enums st) =>
    rcases List.mem_append.mp hname with hname | hname
    · obtain ⟨enum, henum, htitle⟩ := List.mem_filterMap.mp hname
      obtain ⟨e, rfl, rfl⟩ := Option.map_eq_some_iff.mp htitle
      have hpart : enumText (some e) ∈ enums.map enumText ++ st.lines :=
        List.mem_append_left _ (List.mem_map_of_mem henum)
      exact contains_trans (contains_join hpart) (contains_enumText e)
    · cases List.mem_singleton.mp hname
      have hline : "type " ++ st.title ++ " " ++ "struct \x7b" ∈ enums.map enumText ++ st.lines := by
        simp [Struct.lines, String.append_assoc]
      exact contains_trans (contains_join hline) (contains_append_left _ _)

def filePaths (output : String) (documents : Table (Value × String)) (out : SourceFile)
    (outs : List SourceFile) : List (String × SourceFile) :=
  (mainPath .go output, out) ::
    (documents.keys.map (Generate.documentPath .go (mainPath .go output))).zip outs

theorem outputs_eq_map (output : String) (documents : Table (Value × String)) (out : SourceFile)
    (outs : List SourceFile) : (mainPath .go output, out.text) ::
        Generate.documentOutputs .go (mainPath .go output) documents (outs.map (·.text)) =
      (filePaths output documents out outs).map fun x => (x.1, x.2.text) := by
  unfold Generate.documentOutputs filePaths
  rw [List.map_cons, List.zip_map_right]
  rfl

theorem mem_map_snd_outputs (output : String) {documents : Table (Value × String)} (out : SourceFile)
    {outs : List SourceFile} (hlength : outs.length = documents.length) (x : SourceFile) :
    x ∈ (filePaths output documents out outs).map (·.2) ↔ x ∈ out :: outs := by
  unfold filePaths
  rw [List.map_cons, List.map_snd_zip (by simp [Table.keys, hlength])]

/-- The files of a run, each with its path. In a tidy set, every name that is not awkward and that a field
of a struct has for its type is built in, or one of the files declares it. The files come out if their paths
are different. -/
theorem sourceFiles_declare {o : Options} {stamp : String} {scope : RefScope} {files : Table String}
    {s' : RefState} (h : exec (Generate.sourceFiles "go" o stamp scope) {} = (.ok files, s')) :
    ∃ documents, ∃ outs : List (String × SourceFile),
      Generate.Generates .go o stamp scope documents (outs.map fun x => (x.1, x.2.text)) s' ∧
      ((outs.map (·.1)).Nodup → ∀ x ∈ outs, files.get? x.1 = some x.2.text) ∧
      (Tidy scope s'.tables documents → ∀ x ∈ outs, ∀ st ∈ structs x.2.declarations,
        ∀ field ∈ st.fields, field.type.base ∈ GoType.builtIns ∨ Awkward s'.tables field.type.base ∨
          ∃ y ∈ outs, field.type.base ∈ declaredNames y.2.declarations ∧
            Text.contains y.2.text ("type " ++ field.type.base ++ " ") = true) := by
  obtain ⟨language, documents, outputs, hlanguage, hgenerates, rfl⟩ := Generate.exec_sourceFiles_eq_ok h
  cases hlanguage
  obtain ⟨s1, s2, text, texts, hprepare, hmain, hdocuments, htexts, rfl⟩ := id hgenerates
  have hprepared : Changes scope {} s1 :=
    steps_of_exec (prepareFrom_changes scope nestingLimit scope.root {}) hprepare
  have hlater : Changes scope s2 s' := (follows_documentTexts o scope stamp _ documents).changes htexts
  have hfollows := follows_sourceFile (l := .go) nofun o (mainRequest scope stamp)
  have hbefore : Changes scope {} s2 := hprepared.trans (Follows.changes hfollows hmain)
  obtain ⟨out, rfl, hout⟩ := isMade_of_sourceFile rfl hprepared hlater hmain
  obtain ⟨outs, rfl, hlength, heach, hall⟩ := isMade_of_documentTexts hbefore .refl htexts
  have houtputs := outputs_eq_map o.output documents out outs
  have hmem := mem_map_snd_outputs o.output out hlength
  refine ⟨documents, filePaths o.output documents out outs, houtputs ▸ hgenerates, ?_, ?_⟩
  · intro hnodup x hx
    rw [houtputs]
    refine ((Generate.keepsAll_iff _).mpr ?_).2 _ _ (List.mem_map_of_mem hx)
    rwa [Table.keys, List.map_map]
  intro tidy x hx st hst field hfield
  have hempty : ∀ d ∈ ([] : Table (Value × String)), s2.tables.loaded.get? d.1 = some d.2.1 :=
    fun d hd => absurd hd List.not_mem_nil
  have hloaded : ∀ d ∈ documents, s'.tables.loaded.get? d.1 = some d.2.1 := fun d hd =>
    keep_of_steps (P := fun s => s.tables.loaded.get? d.1 = some d.2.1)
      (fun _ _ change => change.keeps_loaded) hlater (loaded_of_mem_addListings hempty hdocuments d hd)
  have sound := sound_of_changes (hbefore.trans hlater) (sound_empty scope)
  have covers := covers_of_made tidy sound hloaded hout heach hall
  have hx' : x.2 ∈ out :: outs := (hmem x.2).mp (List.mem_map_of_mem hx)
  refine (covers.declares_field tidy hx' hst hfield).imp id (Or.imp id ?_)
  rintro ⟨out', hout', hdeclared⟩
  obtain ⟨y, hy, rfl⟩ := List.mem_map.mp ((hmem out').mpr hout')
  exact ⟨y, hy, hdeclared, contains_declared hdeclared⟩

def door : Value :=
  .map [("title", "Door")]

def houseProperties : Entries :=
  [("front", .map [("$ref", "#/definitions/Door")]),
    ("garden", .map [("type", "object"), ("properties", .map [])])]

/-- A schema with these properties, whose definition stands for a file. -/
def house : RefScope :=
  { files :=
      { cwd := []
        entries := [(["door.json"], .file "\x7b\"title\": \"Door\"\x7d".toUTF8.toList)] }
    base := "house.json"
    root := .map [("title", "House"), ("properties", .map houseProperties),
      ("definitions", .map [("Door", .map [("$ref", "door.json")])])] }

section House

variable {t : Tables}

theorem tidySource_door (scope : RefScope) : TidySource scope t door := by
  have hbody : ∀ body, IsBody door body → body = door := by
    rintro body (rfl | ⟨e, he, _⟩ | ⟨e, he, _⟩)
    · rfl
    · cases he
    · cases he
  refine ⟨nofun, nofun, nofun, fun body h => ?_, fun body h e he => ?_⟩
  · cases hbody body h
    exact ⟨nofun, nofun⟩
  · cases hbody body h
    cases he

theorem isBody_house {body : Value} (h : IsBody house.root body) :
    body = house.root ∨ body.has "enum" = .ok false ∧ body.entriesOf "properties" = [] := by
  rcases h with rfl | ⟨e, he, rfl⟩ | ⟨e, he, rfl, hprops⟩
  · exact .inl rfl
  · cases List.mem_singleton.mp he
    exact .inr ⟨rfl, rfl⟩
  · rcases List.mem_pair.mp he with rfl | rfl
    · cases hprops
    · exact .inr ⟨rfl, rfl⟩

theorem tidySource_house (hloaded : t.loaded = [("door.json", door)]) : TidySource house t house.root where
  inner := nofun
  definitions e he := by
    cases List.mem_singleton.mp he
    refine ⟨nofun, fun ref href _ => ?_⟩
    cases href
    refine ⟨by decide +kernel, door, ?_⟩
    rw [hloaded]
    decide +kernel
  objects e he hprops := by
    rcases List.mem_pair.mp he with rfl | rfl
    · cases hprops
    · exact ⟨rfl, nofun⟩
  orderly body hbody := by
    rcases isBody_house hbody with rfl | ⟨hno, hnone⟩
    · refine ⟨nofun, fun e he henum => ?_⟩
      rcases List.mem_pair.mp he with rfl | rfl <;> cases henum
    · refine ⟨fun henum => (nomatch hno.symm.trans henum), fun e he => ?_⟩
      rw [hnone] at he
      cases he
  named body hbody e he name hname := by
    have hnames : houseProperties.map (fun e => objectNames e.2 e.1) = [[], ["Garden"]] := by
      decide +kernel
    obtain ⟨hfront, hgarden⟩ := List.cons.inj hnames
    rcases isBody_house hbody with rfl | ⟨_, hnone⟩
    · rcases List.mem_pair.mp he with rfl | rfl
      · rw [show objectNames _ _ = [] from hfront] at hname
        cases hname
      · rw [show objectNames _ _ = ["Garden"] from (List.cons.inj hgarden).1] at hname
        cases List.mem_singleton.mp hname
        exact .inl ⟨_, List.mem_pair.mpr (.inr rfl), rfl, rfl, by decide +kernel⟩
    · rw [hnone] at he
      cases he

theorem tidy_house (hloaded : t.loaded = [("door.json", door)])
    (hrefs : t.refs = [("door.json", "door.json")]) : Tidy house t [("door.json", door, "Door")] := by
  have hdoor : ∀ {path schema}, t.loaded.get? path = some schema → path = "door.json" ∧ schema = door := by
    intro path schema h
    rw [hloaded] at h
    have hmem := Table.mem_of_get? h
    cases List.mem_singleton.mp hmem
    exact ⟨rfl, rfl⟩
  have htitle : titleAt "door.json" = "Door" := by decide +kernel
  have hpath : ∀ ref, house.path ref = ref := by
    intro ref
    have hdirectory : Path.directory "house.json" = "" := by decide +kernel
    change Path.join (Path.directory "house.json") ref = ref
    rw [hdirectory]
    unfold Path.join
    split
    · rfl
    · exact String.empty_append
  refine ⟨fun ref => by rw [hpath, hpath], ?_, ⟨"House", rfl, by decide, by decide⟩, ?_, ?_, ?_, ?_⟩
  · intro ref path hmem
    rw [hrefs] at hmem
    cases List.mem_singleton.mp hmem
    exact ⟨door, "Door", by rw [hloaded]; decide +kernel, List.mem_singleton_self _⟩
  · intro path schema h
    obtain ⟨rfl, rfl⟩ := hdoor h
    rw [htitle]
    exact ⟨⟨rfl, by decide, by decide⟩, by decide +kernel⟩
  · intro path schema path' schema' h h' _
    rw [(hdoor h).1, (hdoor h').1]
  · rintro path schema ref h (⟨e, he, _⟩ | ⟨e, he, _⟩)
    all_goals
      obtain ⟨_, rfl⟩ := hdoor h
      cases he
  · rintro schema (rfl | ⟨path, h⟩)
    · exact tidySource_house hloaded
    · obtain ⟨_, rfl⟩ := hdoor h
      exact tidySource_door _

end House

theorem exec_house : let run := exec (sourceFiles "go" {} "now" house) {}
    (run.1.isOk, run.2.tables.loaded, run.2.tables.refs) =
      (true, [("door.json", door)], [("door.json", "door.json")]) := by
  decide +kernel

theorem sourceFiles_declare_house : ∃ files s' documents, ∃ outs : List (String × SourceFile),
      exec (Generate.sourceFiles "go" {} "now" house) {} = (.ok files, s') ∧
      Generate.Generates .go {} "now" house documents (outs.map fun x => (x.1, x.2.text)) s' ∧
      Tidy house s'.tables documents ∧ ∀ x ∈ outs, ∀ st ∈ structs x.2.declarations, ∀ field ∈ st.fields,
        field.type.base ∈ GoType.builtIns ∨ Awkward s'.tables field.type.base ∨
          ∃ y ∈ outs, field.type.base ∈ declaredNames y.2.declarations ∧
            Text.contains y.2.text ("type " ++ field.type.base ++ " ") = true := by
  obtain ⟨hok, hknown⟩ := Prod.mk.inj exec_house
  obtain ⟨hloaded, hrefs⟩ := Prod.mk.inj hknown
  obtain ⟨files, hfiles⟩ := Outcome.eq_ok_of_isOk hok
  have hrun : exec (sourceFiles "go" {} "now" house) {} = (.ok files, _) := Prod.ext hfiles rfl
  obtain ⟨documents, outs, hgenerates, _, hdeclare⟩ := sourceFiles_declare hrun
  have hdocuments : documents = [("door.json", door, "Door")] := by
    have hlisted : (exec (Generate.sourceFile .go {} (mainRequest house "now"))
        (exec (prepare house house.root) {}).2).2.tables.documents.toOption =
          some [("door.json", door, "Door")] := by
      decide +kernel
    rw [hgenerates.documents_eq] at hlisted
    exact Option.some.inj hlisted
  have htidy := tidy_house hloaded hrefs
  rw [← hdocuments] at htidy
  exact ⟨files, _, documents, outs, hrun, hgenerates, htidy, hdeclare htidy⟩

def yard : RefScope :=
  { files := { cwd := [], entries := [] }
    base := "yard.json"
    root := .map [("title", "Yard"), ("properties", .map
      [("backGate", .map [("type", "object"), ("properties", .map [])])])] }

/-- The words are put together in one way for the field, and in another for the declaration. -/
theorem sourceFiles_declare_yard : (exec (Generate.sourceFiles "go" {} "now" yard) {}).1.toOption.map (fun files =>
      ["BackGate *Backgate ", "type BackGate ", "type Backgate "].map fun line =>
        files.any fun file => Text.contains file.2 line) = some [true, true, false] := by
  decide +kernel

end Go

end Typewright
