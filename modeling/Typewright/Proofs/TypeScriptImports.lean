import Typewright.Proofs.InnerTypes
import Typewright.Proofs.MadeFiles

/-!
# Imports between TypeScript files

A file imports the types of the references that it uses.
-/

namespace Typewright.TypeScript

open RefM Reference Naming
open Generate (documentPath mainRequest sourceFiles)
open Path (directory normal)

variable {ref source : String} {r : Request}

def refImportPath (scope : RefScope) (source ref : String) : String :=
  importPath scope.files.cwdPath (directory source) ref (Naming.capitalWords (Path.stem ref))

/-- The file that an import leads to, seen from the file that it stands in. -/
def Import.target (importer : String) (i : Import) : String :=
  normal (Path.join (directory importer) (i.path ++ ".ts"))

def IsImportFor (scope : RefScope) (t : Tables) (source ref : String) (i : Import) : Prop :=
  Known scope t (scope.path ref) ∧ i.path = refImportPath scope source ref

/-! ## The path in an import -/

/-- The reference leads to the directory of the schema. -/
def Beside (cwd source ref : String) : Prop :=
  directory (Path.join (directory source) ref) = directory source ∨
    Path.names cwd (directory (Path.join (directory source) ref)) =
      Path.names cwd (directory source) ∧ '\\' ∉ (Path.stem ref).toList

/-- The path in the import leads to the file: the document is beside the schema, and its name comes out the
same with capitalised words and in Pascal case. -/
structure InReach (scope : RefScope) (source ref : String) : Prop where
  beside : Beside scope.files.cwdPath source ref
  words : Naming.capitalWords (Path.stem ref) = Naming.pascal (Path.stem ref)

theorem uncased_backslash : Text.Uncased '\\' :=
  ⟨by decide, by decide +kernel, by decide +kernel, by decide +kernel⟩

theorem importPath_of_beside {cwd : String} (h : Beside cwd source ref) :
    importPath cwd (directory source) ref (pascal (Path.stem ref)) = "./" ++ pascal (Path.stem ref) := by
  have hslash : '/' ∉ (pascal (Path.stem ref)).toList := fun hmem =>
    Path.slash_not_mem_stem ref (mem_of_mem_pascal Generate.uncased_slash (by decide) hmem)
  unfold importPath
  dsimp only
  split
  · rfl
  · next hne =>
    obtain ⟨hnames, hstem⟩ := h.resolve_left hne
    have hmark : '\\' ∉ ("./" ++ pascal (Path.stem ref)).toList := by
      rw [String.toList_append, List.mem_append]
      rintro (hmem | hmem)
      · revert hmem
        decide
      · exact hstem (mem_of_mem_pascal uncased_backslash (by decide) hmem)
    have hjoin : Path.join "." (pascal (Path.stem ref)) = "./" ++ pascal (Path.stem ref) := by
      unfold Path.join
      rw [Path.startsWith_slash_of_not_mem hslash]
      rfl
    have hreplace : Text.replace "\\" "/" ("./" ++ pascal (Path.stem ref)) =
        "./" ++ pascal (Path.stem ref) := by
      show String.ofList (Text.replaceChars ['\\'] _ _) = _
      rw [Text.replaceChars_of_not_mem _ _ hmark, String.ofList_toList]
    have hstart : Text.startsWith ("./" ++ pascal (Path.stem ref)) "." := by
      unfold Text.startsWith
      rw [String.toList_append]
      rfl
    rw [Path.relative_eq_dot hnames, hjoin, hreplace, if_pos hstart]

theorem target_of_inReach {scope : RefScope} {importer main : String} {i : Import}
    (h : InReach scope source ref) (hpath : i.path = refImportPath scope source ref)
    (hdir : directory importer = directory main) :
    i.target importer = normal (documentPath .typescript main (scope.path ref)) := by
  unfold Import.target documentPath RefScope.path
  unfold refImportPath at hpath
  rw [h.words, importPath_of_beside h.beside] at hpath
  rw [hpath, hdir, Path.stem_join, String.append_assoc]
  exact Path.normal_join_dot _ (Generate.slash_not_mem_fileName .typescript (Path.slash_not_mem_stem ref))

/-! ## The imports of a file -/

variable {scope : RefScope} {t : Tables} {source : String} {i : Import} {s s' : RefState}

theorem importOf_eq_some {path : String} (h : importOf scope t source ref path = some i) :
    i.path = refImportPath scope source ref ∧
      ∀ name, t.types.get? path = some name → name ≠ "" → i.typeName = name := by
  unfold importOf at h
  simp only [Option.ite_none_left_eq_some, Option.some.injEq] at h
  obtain ⟨_, _, h⟩ := h
  unfold refImportPath
  constructor
  · rw [← h]
  intro name hname ne
  have hempty : name.isEmpty = false := by simpa using ne
  rw [← h]
  dsimp only
  rw [hname, Option.getD_some, hempty, if_neg Bool.false_ne_true]

theorem mem_importsOf {used : Option (List String)} (h : i ∈ importsOf scope t source used) :
    ∃ ref path, (ref, path) ∈ t.refs ∧ importOf scope t source ref path = some i := by
  obtain ⟨⟨ref, path⟩, noted, h⟩ := List.mem_filterMap.mp h
  exact ⟨ref, path, noted, (Option.ite_none_left_eq_some.mp h).2⟩

theorem imports_eq_ok {found : List Import} (hscope : r.scope = some scope)
    (hfile : r.file = some source) (h : exec (imports r) s = (.ok found, s')) :
    ∃ used, found = importsOf scope s'.tables source (some used) := by
  unfold imports at h
  rw [hscope, hfile] at h
  obtain ⟨used, s1, _, h1⟩ := exec_bind_ok h
  obtain ⟨properties, _, h2⟩ := exec_ask_ok h1
  obtain ⟨used', s2, _, h3⟩ := exec_bind_ok h2
  obtain ⟨t, s3, htables, h4⟩ := exec_bind_ok h3
  cases htables
  cases h4
  exact ⟨used', rfl⟩

theorem hasType_of_import {file : SourceFile} (hscope : r.scope = some scope)
    (hfile : r.file = some source) (h : Generate.IsMade fileOf scope s r file) (hi : i ∈ file.imports) :
    ∃ ref, HasType scope s.tables ref i.typeName ∧ i.path = refImportPath scope source ref := by
  obtain ⟨s0, s1, hrest, hrun, hlater⟩ := h
  obtain ⟨found, s2, himports, h1⟩ := exec_bind_ok hrun
  obtain ⟨⟨nested, seen⟩, s3, hnested, h2⟩ := exec_bind_ok h1
  obtain ⟨root, s4, hroot, h3⟩ := exec_bind_ok h2
  cases h3
  have hfollows : Follows (some scope) KindFault (imports r) := hscope ▸ inferInstance
  have hnestedFollows : Follows (some scope) KindFault ((nestedDeclarations r.scope r.schema).run []) :=
    hscope ▸ inferInstance
  have hrootFollows : Follows (some scope) KindFault (declared (.ofResolver r.scope) r.schema) := hscope ▸ inferInstance
  have hrest2 := hfollows.atRest himports hrest
  have hchanges := (hnestedFollows.changes hnested).trans ((hrootFollows.changes hroot).trans hlater)
  obtain ⟨used, rfl⟩ := imports_eq_ok hscope hfile himports
  obtain ⟨ref, path, noted, himport⟩ := mem_importsOf hi
  obtain ⟨hpath, hname⟩ := importOf_eq_some himport
  obtain ⟨_, rfl⟩ := hrest2.sound.refs ref path noted
  exact ⟨ref, (hrest2.hasType ⟨ref, noted, .inl rfl⟩ hname).later hchanges, hpath⟩

theorem exists_export {file : SourceFile} (h : exec (fileOf r) s = (.ok file, s'))
    {name : String} (hname : r.schema.titleOrRoot = .ok name) : ∃ d ∈ file.exported, d.name = name ∧ IsExport d := by
  obtain ⟨found, s1, _, h1⟩ := exec_bind_ok h
  obtain ⟨nested, s2, _, h2⟩ := exec_bind_ok h1
  obtain ⟨root, s3, hroot, h3⟩ := exec_bind_ok h2
  cases h3
  obtain ⟨htitle, hexport⟩ := declared_eq_ok hroot
  cases htitle.symm.trans hname
  exact ⟨root, List.mem_append_right _ (.head _), rfl, hexport⟩

/-- Every import in the files of a run is for a reference, and if the imports for such references lead to files, and
their types can be imported, one of the files is where the import leads and exports the type. -/
theorem imports_satisfied {o : Options} {stamp : String} {files : Table String}
    (h : exec (Generate.sourceFiles "typescript" o stamp scope) {} = (.ok files, s')) :
    ∃ documents, ∃ outs : List (Generate.Output SourceFile),
      Generate.Generates .typescript o stamp scope documents (outs.map fun x => (x.path, x.file.text)) s' ∧
      outs.map (fun x => (x.request, x.path)) = Generate.sources .typescript o stamp scope documents ∧
      ((outs.map (·.path)).Nodup → ∀ x ∈ outs, files.get? x.path = some x.file.text) ∧ ∀ x ∈ outs, ∀ i ∈ x.file.imports,
        (∃ ref, IsImportFor scope s'.tables x.source ref i) ∧ ((∀ ref, IsImportFor scope s'.tables x.source ref i →
            InReach scope x.source ref ∧ Generate.Importable scope s'.tables documents x ref) →
          ∃ y ∈ outs, i.target x.path = Path.normal y.path ∧
            ∃ d ∈ y.file.exported, d.name = i.typeName ∧ IsExport d) := by
  have handles : Language.typescript ≠ .proto := nofun
  have hmake : ∀ r, Generate.sourceFile .typescript o r = (do return (← fileOf r).text) := fun _ => rfl
  obtain ⟨documents, outs, hgenerates, houts, hfiles⟩ := Generate.outputs_of_exec rfl handles hmake h
  refine ⟨documents, outs, hgenerates, houts.sources, hfiles, fun x hx i hi => ?_⟩
  obtain ⟨hscope, hfile⟩ := houts.scope_request hx
  obtain ⟨mid, hmade, hlast, hmain⟩ := houts.made x hx
  obtain ⟨ref, hasType, hpath⟩ := hasType_of_import hscope hfile hmade hi
  have hfor : IsImportFor scope s'.tables x.source ref i := ⟨(hasType.later hlast).known, hpath⟩
  refine ⟨⟨ref, hfor⟩, fun hall => ?_⟩
  obtain ⟨hreach, importable⟩ := hall ref hfor
  obtain ⟨y, hy, hypath, htitle⟩ := houts.exists_of_importable hmain hlast hasType importable
  refine ⟨y, hy, ?_, ?_⟩
  · rw [hypath]
    exact target_of_inReach hreach hpath (houts.directory_path hx)
  · obtain ⟨_, ⟨_, _, _, hrun, _⟩, _⟩ := houts.made y hy
    exact exists_export hrun htitle

def titled (title : String) : Value :=
  .map [("title", .str title)]

def titledText (title : String) : List UInt8 :=
  ("\x7b\"title\": \"" ++ title ++ "\"\x7d").toUTF8.toList

def order : RefScope :=
  { files :=
      { cwd := []
        entries := [(["customer.json"], .file (titledText "Client")),
          (["item.json"], .file (titledText "Order Line"))] }
    base := "order.json"
    root := .map [("title", "Order"), ("properties", .map
      [("client", .map [("$ref", "customer.json")]),
        ("line", .map [("$ref", "./item.json")])])] }

theorem exec_order : let prepared := (exec (Reference.prepare order order.root) {}).2
    let run := exec (sourceFiles "typescript" {} "now" order) {}
    (exec (fileOf (mainRequest order "now")) prepared).1.toOption.map (·.imports) =
        some [⟨"Client", "./Customer"⟩, ⟨"OrderLine", "./Item"⟩] ∧
      (exec (Generate.sourceFile .typescript {} (mainRequest order "now"))
          prepared).2.tables.documents.toOption =
        some [("customer.json", titled "Client", "Client"),
          ("./item.json", titled "Order Line", "OrderLine")] ∧
      run.1.isOk ∧
      run.2.tables.refs = [("customer.json", "customer.json"), ("./item.json", "./item.json")] := by
  decide +kernel

theorem path_order (ref : String) : order.path ref = ref := by
  have hdir : directory "order.json" = "" := by decide +kernel
  show Path.join (directory "order.json") ref = ref
  rw [hdir, Path.join_empty]

theorem inReach_order (hsource : source ∈ ["order.json", "customer.json", "./item.json"])
    (href : ref ∈ ["customer.json", "./item.json"]) : InReach order source ref := by
  have hall : ∀ source ∈ ["order.json", "customer.json", "./item.json"],
      ∀ ref ∈ ["customer.json", "./item.json"], Beside order.files.cwdPath source ref ∧
        capitalWords (Path.stem ref) = pascal (Path.stem ref) := by
    unfold Beside
    decide +kernel
  exact ⟨(hall source hsource ref href).1, (hall source hsource ref href).2⟩

theorem named_order (href : ref ∈ ["customer.json", "./item.json"]) :
    ∀ schema, (Load.load order.files .on (order.path ref)).2 = .ok schema →
      ∃ name, typeName ref schema = .ok name ∧ schema.titleOrRoot = .ok name := by
  rcases List.mem_pair.mp href with rfl | rfl
  · have hread : (Load.load order.files .on (order.path "customer.json")).2.toOption = some (titled "Client") := by
      decide +kernel
    exact Generate.named_of_title hread rfl (by decide)
  · have hread : (Load.load order.files .on (order.path "./item.json")).2.toOption = some (titled "Order Line") := by
      decide +kernel
    exact Generate.named_of_title hread rfl (by decide)

theorem imports_satisfied_order : let prepared := (exec (Reference.prepare order order.root) {}).2
    (exec (fileOf (Generate.mainRequest order "now")) prepared).1.toOption.map (·.imports) =
        some [⟨"Client", "./Customer"⟩, ⟨"OrderLine", "./Item"⟩] ∧
      ∃ files s' documents, ∃ outs : List (Generate.Output SourceFile),
        exec (Generate.sourceFiles "typescript" {} "now" order) {} = (.ok files, s') ∧
        Generate.Generates .typescript {} "now" order documents (outs.map fun x => (x.path, x.file.text)) s' ∧
        ∀ x ∈ outs, ∀ i ∈ x.file.imports, ∃ y ∈ outs, i.target x.path = Path.normal y.path ∧
          ∃ d ∈ y.file.exported, d.name = i.typeName ∧ IsExport d := by
  obtain ⟨himports, hlisted, hok, hrefs⟩ := exec_order
  refine ⟨himports, ?_⟩
  obtain ⟨files, hfiles⟩ := Outcome.eq_ok_of_isOk hok
  have hrun := exec_eq_of_fst hfiles
  obtain ⟨documents, outs, hgenerates, hsources, _, hall⟩ := imports_satisfied hrun
  have hdocuments : documents = [("customer.json", titled "Client", "Client"),
      ("./item.json", titled "Order Line", "OrderLine")] := by
    rw [hgenerates.documents_eq] at hlisted
    exact Option.some.inj hlisted
  subst hdocuments
  refine ⟨files, _, _, outs, hrun, hgenerates, fun x hx i hi => (hall x hx i hi).2 ?_⟩
  rintro ref ⟨known, _⟩
  have href := known.mem_keys path_order
  rw [hrefs] at href
  have hsource : x.source ∈ ["order.json", "customer.json", "./item.json"] := by
    have hmem : (x.request, x.path) ∈ outs.map fun x => (x.request, x.path) := List.mem_map_of_mem hx
    rw [hsources] at hmem
    exact List.mem_map_of_mem (f := fun r : Request × String => r.1.file.getD "") hmem
  refine ⟨inReach_order hsource href, .inr ?_, named_order href, fun _ => path_order _⟩
  rw [path_order]
  exact href

/-- A schema that refers to a document with two words in its name. -/
def visitors : RefScope :=
  { files :=
      { cwd := []
        entries := [(["userProfile.json"], .file (titledText "UserProfile"))] }
    base := "visitors.json"
    root := .map [("title", "Visitors"), ("properties", .map
      [("last", .map [("$ref", "userProfile.json")])])] }

theorem imports_unsatisfied_visitors : let prepared := (exec (Reference.prepare visitors visitors.root) {}).2
    (exec (fileOf (Generate.mainRequest visitors "now")) prepared).1.toOption.map (·.imports) =
        some [⟨"UserProfile", "./Userprofile"⟩] ∧
      (⟨"UserProfile", "./Userprofile"⟩ : Import).target "Output" = "Userprofile.ts" ∧
      (exec (Generate.sourceFiles "typescript" {} "now" visitors) {}).1.toOption.map Table.keys =
        some ["Output", "UserProfile.ts"] := by
  decide +kernel

end Typewright.TypeScript
