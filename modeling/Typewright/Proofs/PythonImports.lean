import Typewright.Proofs.ImportedClasses
import Typewright.Proofs.MadeFiles

/-!
# Imports between Python files

A file imports the types that it uses from the files of their documents.
-/

namespace Typewright

open RefM
open Generate (mainRequest sourceFiles)

variable {owner : Value}

/-! ## What a walk keeps -/

namespace Reference

variable {σ : Type} {Q : σ → RefState → Prop} {visitor : Visitor σ}

/-- What a visitor does at references keeps a condition on the value that is handed on. -/
structure VisitorKeeps (Q : σ → RefState → Prop) (visitor : Visitor σ) : Prop where
  onProperty : ∀ a ref, Ensures (Q a) (visitor.onProperty a ref) Q
  onItem : ∀ a ref, Ensures (Q a) (visitor.onItem a ref) Q
  onDefinition : ∀ f, visitor.onDefinition = some f → ∀ a ref, Ensures (Q a) (f a ref) Q

theorem ensures_walk (h : VisitorKeeps Q visitor) (a : σ) (schema : Value) : Ensures (Q a) (walk visitor a schema) Q :=
  walk_keeps (P := fun start work => Ensures start work Q) (k := Q)
    ⟨fun _ => .pure fun _ ha => ha, fun hx hf => .of_bind hx fun a => hf a a rfl, .of_ask⟩
    h.onProperty h.onItem h.onDefinition a schema

end Reference

/-! ## The statements of a file -/

namespace Python

open Reference

variable {scope : RefScope} {s s' : RefState} {statements : List String} {used : Option (List String)}

def moduleOf (ref : String) : String :=
  Path.stem (Text.replace "../" "" (Text.replace "./" "" ref))

theorem importStatement_eq (ref type : String) : importStatement ref type = importLine (moduleOf ref) type :=
  rfl

/-- The statement imports the type of a known reference. -/
def IsStatement (scope : RefScope) (t : Tables) (line : String) : Prop :=
  ∃ ref type, HasType scope t ref type ∧ line = importLine (moduleOf ref) type

/-- The tables are at rest, and every statement imports the type of a known reference. -/
structure Stated (scope : RefScope) (statements : List String) (s : RefState) : Prop where
  rest : AtRest scope s.tables
  each : ∀ line ∈ statements, IsStatement scope s.tables line

namespace Stated

theorem later (h : Stated scope statements s) (hrest : AtRest scope s'.tables)
    (hlater : Changes scope s s') : Stated scope statements s' := by
  refine ⟨hrest, fun line hline => ?_⟩
  obtain ⟨ref, type, hasType, heq⟩ := h.each line hline
  exact ⟨ref, type, hasType.later hlater, heq⟩

theorem addImport (h : Stated scope statements s) {ref type : String}
    (hasType : type ≠ "" → HasType scope s.tables ref type) : Stated scope (addImport used statements ref type) s := by
  unfold Python.addImport
  split
  · exact h
  · next hadd =>
    have hne : type ≠ "" := by
      rintro rfl
      exact hadd rfl
    refine ⟨h.rest, fun line hline => ?_⟩
    rcases Text.mem_add_iff.mp hline with hline | rfl
    · exact h.each line hline
    · exact ⟨ref, type, hasType hne, importStatement_eq ref type⟩

theorem addType (h : Stated scope statements s) {ref : String} (known : Known scope s.tables (scope.path ref)) :
    Stated scope (Python.addImport used statements ref ((s.tables.types.get? (scope.path ref)).getD "")) s := by
  refine h.addImport fun _ => h.rest.hasType known fun name hname _ => ?_
  rw [hname, Option.getD_some]

theorem of_follows {α : Type} {P : Fault → Prop} {work : RefM α} (hf : Follows (some scope) P work) :
    Ensures (Stated scope statements) work fun _ => Stated scope statements :=
  fun _ _ _ hs hrun => hs.later (hf.atRest hrun hs.rest) (hf.changes hrun)

end Stated

theorem ensures_importByRef {next : List String → Value → RefM (List String)} (hnext : ∀ statements schema,
      Ensures (Stated scope statements) (next statements schema) (Stated scope))
    (statements : List String) (ref : Value) :
    Ensures (Stated scope statements) (importByRef scope used next statements ref) (Stated scope) := by
  intro s out s' hs hrun
  obtain ⟨text, htext, h1⟩ := exec_ask_ok hrun
  obtain rfl := textOf_eq_ok htext
  split at h1
  · cases h1
    exact hs
  · next houter =>
    have outer : isInner text = false := by simpa using houter
    obtain ⟨t, s1, htables, h2⟩ := exec_bind_ok h1
    cases htables
    -- the name that is known, and then the title of the document
    have hknown : Stated scope (addImport used statements text
        ((s.tables.types.get? (scope.path text)).getD "")) s := by
      cases htype : s.tables.types.get? (scope.path text) with
      | none => exact hs.addImport fun ne => absurd rfl ne
      | some name =>
        rw [← htype]
        exact hs.addType (hs.rest.known_of_type htype)
    obtain ⟨found, s2, hfound, h3⟩ := exec_bind_ok h2
    have hresolved := Stated.of_follows (P := KindFault) inferInstance s found s2 hknown hfound
    cases found with
    | none =>
      cases h3
      exact hresolved
    | some schema =>
      dsimp only at h3
      split at h3
      · cases h3
        exact hresolved
      obtain ⟨title, htitle, h4⟩ := exec_ask_ok h3
      have hloaded := loaded_of_resolved? outer hfound
      refine hnext _ schema s2 out s' (hresolved.addImport fun ne => ?_) h4
      exact hresolved.rest.hasType_of_title hloaded htitle ne

theorem keeps_importVisitor (scope : RefScope) (used : Option (List String)) (fuel : Nat) :
    VisitorKeeps (Stated scope) (importVisitor scope used fuel) := by
  induction fuel with
  | zero => exact ⟨fun _ _ => .throw _, fun _ _ => .throw _, nofun⟩
  | succ fuel ih =>
    have honItem : ∀ statements ref, Ensures (Stated scope statements)
        (importByRef scope used (walk (importVisitor scope used fuel)) statements ref) (Stated scope) :=
      ensures_importByRef (ensures_walk ih)
    refine ⟨fun statements ref => ?_, honItem, nofun⟩
    refine .of_bind (honItem statements ref) fun statements => ?_
    refine .of_bind (Stated.of_follows (P := KindFault) inferInstance) fun found => ?_
    cases found with
    | none => exact .pure fun _ hs => hs
    | some schema => exact .of_ite (fun _ => ensures_walk ih statements schema) fun _ => .pure fun _ hs => hs

theorem ensures_importsOfDocuments {visitor : Visitor (List String)}
    (h : VisitorKeeps (Stated scope) visitor) (size : Nat) (statements : List String) (documents : Table Value) :
    Ensures (Stated scope statements) (importsOfDocuments visitor size statements documents) (Stated scope) := by
  induction documents generalizing statements with
  | nil => exact .pure fun _ hs => hs
  | cons e rest ih =>
    obtain ⟨_, schema⟩ := e
    unfold importsOfDocuments
    refine .of_bind (ensures_walk h statements schema) fun statements => ?_
    refine .of_bind (Stated.of_follows (P := KindFault) inferInstance) fun t => ?_
    have hgrown : Ensures (Stated scope statements) (throw .grownTable : RefM PUnit)
        fun _ => Stated scope statements := .throw _
    exact .of_ite (fun _ => .of_bind hgrown fun _ => ih statements) fun _ => ih statements

theorem ensures_importStatements (scope : RefScope) (used : Option (List String)) :
    Ensures (fun s => AtRest scope s.tables) (importStatements scope used) (Stated scope) := by
  have hvisitor := keeps_importVisitor scope used nestingLimit
  have hdocuments : ∀ statements, Ensures (Stated scope statements)
      (tables >>= fun t => importsOfDocuments (importVisitor scope used nestingLimit) t.loaded.length
        statements t.loaded >>= fun found => pure (Text.sorted found)) (Stated scope) := by
    intro statements
    refine .of_bind (Q := fun _ => Stated scope statements) (.tables fun _ hs => hs) fun t => ?_
    refine .of_bind (ensures_importsOfDocuments hvisitor _ statements t.loaded) fun found => ?_
    exact .pure fun s hs => ⟨hs.rest, fun line hline => hs.each line (List.mem_mergeSort.mp hline)⟩
  unfold importStatements
  refine .of_bind (Q := fun t s => t = s.tables ∧ AtRest scope t) (.tables fun _ hs => ⟨rfl, hs⟩) fun t => ?_
  dsimp only
  refine .of_ite (fun _ => .of_bind (.of_imp ?_ (ensures_walk hvisitor _ scope.root)) hdocuments)
    fun _ => .of_bind (.pure ?_) hdocuments
  -- the statements for the noted references are there before the walk
  all_goals
    rintro s ⟨rfl, hrest⟩
    refine List.foldlRecOn (motive := fun found => Stated scope found s) s.tables.refs _ ⟨hrest, nofun⟩
      fun found hfound r hr => ?_
    obtain ⟨ref, path⟩ := r
    obtain ⟨_, rfl⟩ := hrest.sound.refs ref path hr
    exact hfound.addType ⟨ref, hr, .inl rfl⟩

variable {style : PythonStyle} {r : Request} {file : SourceFile}

theorem ensures_fileImports (hscope : r.scope = some scope) :
    Ensures (fun s => AtRest scope s.tables) (fileImports r) (Stated scope) := by
  have hnone : Ensures (fun s => AtRest scope s.tables) (pure []) (Stated scope) := .pure fun _ hrest => ⟨hrest, nofun⟩
  unfold fileImports
  rw [hscope]
  split
  · next given file hgiven _ =>
    cases hgiven
    have hused : Ensures (fun s => AtRest scope s.tables) (usedTypes scope r.schema) fun _ s => AtRest scope s.tables :=
      fun _ _ _ hrest hrun => Follows.atRest (P := KindFault) inferInstance hrun hrest
    exact .of_bind hused fun used => .of_ite (fun _ => hnone) fun _ => ensures_importStatements scope _
  · exact hnone

theorem isStatement_of_import (hscope : r.scope = some scope)
    (h : Generate.IsMade (fileOf style) scope s r file) {line : String} (hline : line ∈ file.imports)
    (hstart : Text.startsWith line "from .") : IsStatement scope s.tables line := by
  obtain ⟨s0, s1, hrest, hrun, hlater⟩ := h
  obtain ⟨fromFiles, more, nested, seen, root, s2, s3, hfromFiles, hmore, himports, hnested, _, hend⟩ :=
    fileOf_cases hrun
  have hfrom : line ∈ fromFiles := by
    have hcommon : line ∉ commonImports ++ more := fun hmem =>
      Bool.false_ne_true ((not_relative_of_styleImports hmore line hmem).symm.trans hstart)
    rw [himports] at hline
    simp only [List.mem_append, not_or] at hline hcommon
    exact (hline.resolve_right hcommon.2).resolve_left hcommon.1
  have hstated := ensures_fileImports hscope s0 fromFiles s2 hrest hfromFiles
  -- what comes after the imports only follows references
  have hinner : Changes scope s2 s3 := by
    have hf : FollowsSeen r.scope KindFault
        (Nested.visitTypes r.scope (visit style r (importedTypes file.imports)) r.schema) := inferInstance
    rw [hscope] at hf hnested
    exact (hf.run []).changes hnested
  have hroot : Changes scope s3 s1 := by
    split at hend
    · rw [hend.2]
    · obtain ⟨d, hd, _⟩ := hend
      rw [hscope] at hd
      exact Follows.changes (P := KindFault) inferInstance hd
  obtain ⟨ref, type, hasType, heq⟩ := hstated.each line hfrom
  exact ⟨ref, type, hasType.later (hinner.trans (hroot.trans hlater)), heq⟩

theorem exists_class (h : exec (fileOf style r) s = (.ok file, s')) {name : String}
    (hname : r.schema.titleOrRoot = .ok name) (hown : name ∉ importedTypes file.imports) :
    ∃ d ∈ file.classes, d.name = name ∧ IsClass d := by
  obtain ⟨names, root, hroot, hnames, hclass, _⟩ := classes_fileOf h
  cases hroot.symm.trans hname
  have hmem : name ∈ file.classes.map (·.name) := by
    rw [hnames, if_neg (by simpa using hown)]
    simp
  obtain ⟨d, hd, rfl⟩ := List.mem_map.mp hmem
  exact ⟨d, hd, rfl, (hclass d hd).1⟩

/-- The statement is one for this reference. -/
def IsImportFor (scope : RefScope) (t : Tables) (ref line : String) : Prop :=
  Known scope t (scope.path ref) ∧ ∃ type, line = importLine (moduleOf ref) type

/-- Every statement in the files of a run that imports from beside the file is for a reference. If the module of such
a reference has the name of its file, and its type can be imported, the file of the module is there, and it declares
the class, unless it imports a class of the same name itself. -/
theorem statements_satisfied {o : Options} {stamp : String} {files : Table String}
    (h : exec (Generate.sourceFiles "python" o stamp scope) {} = (.ok files, s')) :
    ∃ documents, ∃ outs : List (Generate.Output SourceFile),
      Generate.Generates .python o stamp scope documents (outs.map fun x => (x.path, x.file.text)) s' ∧
      outs.map (fun x => (x.request, x.path)) = Generate.sources .python o stamp scope documents ∧
      ((outs.map (·.path)).Nodup → ∀ x ∈ outs, files.get? x.path = some x.file.text) ∧
      ∀ x ∈ outs, ∀ line ∈ x.file.imports, Text.startsWith line "from ." = true →
        (∃ ref, IsImportFor scope s'.tables ref line) ∧ ((∀ ref, IsImportFor scope s'.tables ref line →
            moduleOf ref = Path.stem ref ∧ Generate.Importable scope s'.tables documents x ref) →
          ∃ module type, line = importLine module type ∧ ' ' ∉ type.toList ∧
            ∃ y ∈ outs, y.path = Path.join (Path.directory x.path) (module ++ ".py") ∧
              (type ∉ importedTypes y.file.imports → ∃ d ∈ y.file.classes, d.name = type ∧ IsClass d)) := by
  have handles : Language.python ≠ .proto := nofun
  have hmake : ∀ r, Generate.sourceFile .python o r = (do return (← fileOf o.style r).text) := fun _ => rfl
  obtain ⟨documents, outs, hgenerates, houts, hfiles⟩ := Generate.outputs_of_exec rfl handles hmake h
  refine ⟨documents, outs, hgenerates, houts.sources, hfiles, fun x hx line hline hstart => ?_⟩
  obtain ⟨mid, hmade, hlast, hmain⟩ := houts.made x hx
  obtain ⟨ref, type, hasType, rfl⟩ := isStatement_of_import (houts.scope_request hx).1 hmade hline hstart
  have hfor : IsImportFor scope s'.tables ref (importLine (moduleOf ref) type) :=
    ⟨(hasType.later hlast).known, type, rfl⟩
  refine ⟨⟨ref, hfor⟩, fun hall => ?_⟩
  obtain ⟨hmodule, importable⟩ := hall ref hfor
  obtain ⟨y, hy, hpath, htitle⟩ := houts.exists_of_importable hmain hlast hasType importable
  refine ⟨moduleOf ref, type, rfl, Value.blank_not_mem_titleOrRoot htitle, y, hy, ?_, fun hown => ?_⟩
  · rw [hpath, houts.directory_path hx, hmodule, ← Path.stem_join (Path.directory scope.base) ref]
    rfl
  · obtain ⟨_, ⟨_, _, _, hrun, _⟩, _⟩ := houts.made y hy
    exact exists_class hrun htitle hown

def parcel (document : String) : RefScope :=
  { files := Reference.textFiles [("address.json", document)]
    base := "parcel.json"
    root := .map [("title", "Parcel"), ("properties", .map
      [("receiver", .map [("$ref", "./address.json")])])] }

/-- A document whose title is not the name of its file. -/
def titledAddress : String :=
  "\x7b\"title\": \"Postal Address\"\x7d"

def addressSchema : Value :=
  .map [("title", "Postal Address")]

theorem exec_parcel : let scope := parcel titledAddress
    let prepared := (exec (Reference.prepare scope scope.root) {}).2
    let run := exec (sourceFiles "python" {} "now" scope) {}
    (exec (fileOf .pydantic (mainRequest scope "now")) prepared).1.toOption.any
        (·.imports.contains (importLine "address" "PostalAddress")) ∧
      (exec (Generate.sourceFile .python {} (mainRequest scope "now"))
          prepared).2.tables.documents.toOption =
        some [("./address.json", addressSchema, "PostalAddress")] ∧
      run.1.isOk ∧ run.2.tables.refs = [("./address.json", "./address.json")] ∧
      (Load.load scope.files .on (scope.path "./address.json")).2.toOption = some addressSchema := by
  decide +kernel

theorem path_parcel (document ref : String) : (parcel document).path ref = ref := by
  have hdir : Path.directory "parcel.json" = "" := by decide +kernel
  show Path.join (Path.directory "parcel.json") ref = ref
  rw [hdir, Path.join_empty]

theorem module_address : moduleOf "./address.json" = Path.stem "./address.json" := by
  decide +kernel

theorem statements_satisfied_parcel :
    let prepared := (exec (Reference.prepare (parcel titledAddress) (parcel titledAddress).root) {}).2
    (exec (fileOf .pydantic (Generate.mainRequest (parcel titledAddress) "now")) prepared).1.toOption.any
        (·.imports.contains (importLine "address" "PostalAddress")) = true ∧
      ∃ files s' documents, ∃ outs : List (Generate.Output SourceFile),
        exec (Generate.sourceFiles "python" {} "now" (parcel titledAddress)) {} = (.ok files, s') ∧
        Generate.Generates .python {} "now" (parcel titledAddress) documents
          (outs.map fun x => (x.path, x.file.text)) s' ∧
        ∀ x ∈ outs, ∀ line ∈ x.file.imports, Text.startsWith line "from ." = true →
          ∃ module type, line = importLine module type ∧ ' ' ∉ type.toList ∧
            ∃ y ∈ outs, y.path = Path.join (Path.directory x.path) (module ++ ".py") ∧
              (type ∉ importedTypes y.file.imports → ∃ d ∈ y.file.classes, d.name = type ∧ IsClass d) := by
  obtain ⟨himport, hlisted, hok, hrefs, hread⟩ := exec_parcel
  refine ⟨himport, ?_⟩
  obtain ⟨files, hfiles⟩ := Outcome.eq_ok_of_isOk hok
  have hrun := exec_eq_of_fst hfiles
  obtain ⟨documents, outs, hgenerates, _, _, hall⟩ := statements_satisfied hrun
  have hdocuments : documents = [("./address.json", addressSchema, "PostalAddress")] := by
    rw [hgenerates.documents_eq] at hlisted
    exact Option.some.inj hlisted
  subst hdocuments
  refine ⟨files, _, _, outs, hrun, hgenerates, fun x hx line hline hstart => ?_⟩
  refine (hall x hx line hline hstart).2 ?_
  rintro ref ⟨known, _⟩
  have href := known.mem_keys (path_parcel _)
  rw [hrefs] at href
  obtain rfl := List.mem_singleton.mp href
  refine ⟨module_address, .inr ?_, Generate.named_of_title hread rfl (by decide), fun _ => path_parcel _ _⟩
  rw [path_parcel]
  exact .head _

theorem statements_unsatisfied_parcel : let scope := parcel "\x7b\x7d"
    let prepared := (exec (Reference.prepare scope scope.root) {}).2
    let main := exec (fileOf .pydantic (Generate.mainRequest scope "now")) prepared
    let request := Generate.documentRequest scope "now" "output" "./address.json" (.map [])
    let document := exec (fileOf .pydantic request) main.2
    main.1.toOption.any (·.imports.contains (importLine "address" "Address")) = true ∧
      document.1.toOption.map (·.classes.map (·.name)) = some ["Root"] ∧
      (exec (Generate.sourceFiles "python" {} "now" scope) {}).1.toOption.map Table.keys =
        some ["output", "address.py"] := by
  decide +kernel

end Python

end Typewright
