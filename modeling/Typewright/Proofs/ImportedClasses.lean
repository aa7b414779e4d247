import Typewright.Proofs.GoDeclarations
import Typewright.Proofs.InnerTypes

/-!
# Classes that are imported

A Python file leaves out the classes that it imports.
-/

namespace Typewright

open RefM Nested Reference

variable {scope : RefScope} {ref v : Value} {α : Type} {seen seen' : List Scalar} {entries : Entries}
  {module name : String} {imported : List String} {key : Scalar}

/-! ## The types inside a schema with references -/

namespace RefScope

/-- What a reference leads to with the documents that are known. -/
def target? (scope : RefScope) (t : Tables) (ref : Value) : Option Value :=
  match scope.leadsTo ref with
  | .ok (.definition v) => some v
  | .ok (.file _ file) => t.loaded.get? (scope.path file)
  | .error _ => none

theorem target?_of_settled {t : Tables} (h : Settled scope t ref v) : scope.target? t ref = some v := by
  unfold target?
  cases h with
  | definition lead => rw [lead]
  | file lead found recorded =>
    rw [lead]
    exact found

theorem target?_keep {s s' : RefState} (hs : Changes scope s s') (h : scope.target? s.tables ref = some v) :
    scope.target? s'.tables ref = some v := by
  unfold target? at h ⊢
  split at h
  · exact h
  · exact keep_of_steps (fun _ _ hc => hc.keeps_loaded) hs h
  · cases h

end RefScope

namespace Nested

/-- The name that the reference of a property gives, and what it leads to with the documents that are
known. -/
def referred (scope : Option RefScope) (t : Tables) (property : Value) : Option (Option String × Value) := do
  let scope ← scope
  let ref ← (property.field "$ref").toOption
  let text ← (Reference.textOf ref).toOption
  return (some (refName text), ← scope.target? t ref)

/-- The types that a property may stand for: its own, where its reference is not followed, and the one that
its reference leads to. -/
def typesOfProperty (scope : Option RefScope) (t : Tables) (property : Scalar × Value) : List InnerType :=
  ((none, property.2) :: (referred scope t property.2).toList).filterMap fun known =>
    InnerType.ofTarget known.1 property.1 known.2

/-- The types inside a schema that a visit may come to, with the documents that are known. -/
def typesInside (scope : Option RefScope) (t : Tables) (schema : Value) : List InnerType :=
  (schema.entriesOf "definitions").map .ofDefinition ++
    (schema.entriesOf "properties").flatMap (typesOfProperty scope t)

variable {scope : Option RefScope} {schema : Value} {s s' : RefState}

/-- Steps of work in a scope, if there is one. -/
def Goes (scope : Option RefScope) (s s' : RefState) : Prop :=
  ∀ given, scope = some given → Reference.Changes given s s'

theorem goes_of_run {P : Fault → Prop} {work : SeenM α}
    {out : Except Fault (α × List Scalar)} (hf : FollowsSeen scope P work)
    (h : exec (work.run seen) s = (out, s')) : Goes scope s s' := by
  rintro given rfl
  exact (hf.run seen).changes h

theorem goes_of_walk {step : Scalar → Value → SeenM (Option α)}
    [∀ name v, FollowsSeen scope KindFault (step name v)] {out : List α}
    (h : Walk step entries seen s out seen' s') : Goes scope s s' := by
  rintro given rfl
  exact h.changes

theorem referred_keep (hs : Goes scope s s') {known : Option String × Value}
    (h : referred scope s.tables schema = some known) : referred scope s'.tables schema = some known := by
  simp only [referred, Option.bind_eq_bind, Option.bind_eq_some_iff] at h ⊢
  obtain ⟨given, hscope, ref, href, text, htext, target, htarget, hknown⟩ := h
  exact ⟨given, hscope, ref, href, text, htext, target, RefScope.target?_keep (hs given hscope) htarget, hknown⟩

theorem typesOfProperty_keep (hs : Goes scope s s') {property : Scalar × Value} {i : InnerType}
    (h : i ∈ typesOfProperty scope s.tables property) : i ∈ typesOfProperty scope s'.tables property := by
  obtain ⟨known, hknown, hi⟩ := List.mem_filterMap.mp h
  refine List.mem_filterMap.mpr ⟨known, ?_, hi⟩
  rw [List.mem_cons, Option.mem_toList] at hknown ⊢
  exact hknown.imp_right (referred_keep hs)

theorem typesInside_keep (hs : Goes scope s s') {i : InnerType} (h : i ∈ typesInside scope s.tables schema) :
    i ∈ typesInside scope s'.tables schema := by
  rcases List.mem_append.mp h with h | h
  · exact List.mem_append_left _ h
  · obtain ⟨property, hproperty, hi⟩ := List.mem_flatMap.mp h
    exact List.mem_append_right _ (List.mem_flatMap.mpr ⟨property, hproperty, typesOfProperty_keep hs hi⟩)

theorem mem_targets_of_propertyTarget {target : Value} {known : Option String}
    (h : exec (propertyTarget scope schema) s = (.ok (target, known), s')) :
    (known, target) ∈ (none, schema) :: (referred scope s'.tables schema).toList := by
  obtain ⟨ref, hbehind, rfl⟩ := propertyTarget_cases h
  cases hbehind with
  | own => exact .head _
  | reference here refers resolved =>
    have htarget := RefScope.target?_of_settled (settled_of_exec_resolve resolved)
    refine .tail _ (Option.mem_toList.mpr ?_)
    simp [referred, here, refers, textOf, htarget, Except.toOption]

variable {visit : Value → Scalar → SeenM (Option Declared)} {Q : Scalar → Declared → Prop} {name : Scalar}
  {seen seen' : List Scalar} {d : Declared}

/-- What a visit declares goes by the title of the schema. -/
def Declares (Q : Scalar → Declared → Prop) (visit : Value → Scalar → SeenM (Option Declared)) : Prop :=
  ∀ body key seen s d seen' s', exec ((visit body key).run seen) s = (.ok (some d, seen'), s') →
    body.titleOrRoot = .ok d.name ∧ Q key d

def DeclaresOf (Q : Scalar → Declared → Prop) (types : List InnerType) (d : Declared) : Prop :=
  ∃ i ∈ types, i.name = d.name ∧ Q i.key d

theorem DeclaresOf.mono {types more : List InnerType} (h : DeclaresOf Q types d)
    (hmore : ∀ i ∈ types, i ∈ more) : DeclaresOf Q more d := by
  obtain ⟨i, hi, hq⟩ := h
  exact ⟨i, hmore i hi, hq⟩

theorem declaresOf_visitDefinition (hvisit : Declares Q visit)
    (h : exec ((visitDefinition scope visit name schema).run seen) s = (.ok (some d, seen'), s')) :
    DeclaresOf Q [.ofDefinition (name, schema)] d := by
  cases visitDefinition_cases h with
  | visited fresh titled reached run =>
    obtain ⟨hname, hd⟩ := hvisit _ _ _ _ _ _ _ run
    exact ⟨_, List.mem_singleton_self _, (typeName_withTitle titled rfl hname).symm, hd⟩

variable [hfollows : ∀ body key, FollowsSeen scope KindFault (visit body key)]

theorem declaresOf_visitProperty (hvisit : Declares Q visit)
    (h : exec ((visitProperty scope visit name schema).run seen) s = (.ok (some d, seen'), s')) :
    DeclaresOf Q (typesOfProperty scope s'.tables (name, schema)) d := by
  obtain ⟨target, known, s1, htarget, hcases⟩ := visitProperty_cases h
  cases hcases with
  | visited called object fresh titled run =>
    obtain ⟨hname, hd⟩ := hvisit _ _ _ _ _ _ _ run
    have htype := ofTarget_of_entitled object called titled hname
    have hmem : _ ∈ typesOfProperty scope s1.tables (name, schema) :=
      List.mem_filterMap.mpr ⟨_, mem_targets_of_propertyTarget htarget, htype⟩
    exact ⟨_, typesOfProperty_keep (goes_of_run (hfollows _ _) run) hmem, rfl, hd⟩

theorem declaresOf_walkProperties (hvisit : Declares Q visit) {out : List Declared}
    (h : Walk (visitProperty scope visit) entries seen s out seen' s') (hd : d ∈ out) :
    DeclaresOf Q (entries.flatMap (typesOfProperty scope s'.tables)) d := by
  induction h with
  | nil => cases hd
  | cons head tail ih =>
    rw [List.flatMap_cons]
    rcases List.mem_append.mp hd with hd | hd
    · cases Option.mem_toList.mp hd
      exact (declaresOf_visitProperty hvisit head).mono fun i hi =>
        List.mem_append_left _ (typesOfProperty_keep (goes_of_walk tail) hi)
    · exact (ih hd).mono fun i hi => List.mem_append_right _ hi

theorem declaresOf_visitTypes (hvisit : Declares Q visit) {out : List Declared}
    (h : exec ((visitTypes scope visit schema).run seen) s = (.ok (out, seen'), s')) (hd : d ∈ out) :
    DeclaresOf Q (typesInside scope s'.tables schema) d := by
  obtain ⟨definitions, properties, seen1, s1, rfl, hdefs, hprops⟩ := visitTypes_cases h
  rcases List.mem_append.mp hd with hd | hd
  · obtain ⟨e, he, _, _, _, _, hstep⟩ := hdefs.exists_step hd
    exact (declaresOf_visitDefinition hvisit hstep).mono fun i hi =>
      List.mem_append_left _ (List.mem_singleton.mp hi ▸ List.mem_map_of_mem he)
  · exact (declaresOf_walkProperties hvisit hprops hd).mono fun i hi => List.mem_append_right _ hi

end Nested

/-! ## Import statements -/

namespace Value

theorem blank_not_mem_titleOrRoot (h : v.titleOrRoot = .ok name) : ' ' ∉ name.toList := by
  obtain ⟨title, htitle, hend⟩ := bind_ok h
  obtain ⟨raw, _, hblanks⟩ := bind_ok htitle
  obtain ⟨text, _, hwithout⟩ := bind_ok hblanks
  cases hwithout
  cases hend
  split
  · decide
  · simp [Text.without]

end Value

namespace Python

variable {style : PythonStyle} {r : Request} {file : SourceFile} {s s' : RefState}

def importLine (module name : String) : String :=
  "from ." ++ module ++ " import " ++ name

theorem mem_importedTypes {imports : List String} (hblank : ' ' ∉ name.toList)
    (h : importLine module name ∈ imports) : name ∈ importedTypes imports := by
  refine List.mem_map.mpr ⟨importLine module name, List.mem_filter.mpr ⟨h, ?_⟩, ?_⟩
  · have hstart : Text.startsWith (importLine module name) "from ." := by
      unfold importLine
      rw [String.append_assoc, String.append_assoc]
      exact Text.startsWith_append (by decide) _
    have hinside : Text.contains (importLine module name) " import " := by
      rw [Text.contains_iff]
      exact ⟨("from ." ++ module).toList, name.toList, by simp [importLine]⟩
    rw [hstart, hinside]
    rfl
  · have hsplit : importLine module name = ("from ." ++ module ++ " import") ++ String.singleton ' ' ++ name := by
      simp [importLine, String.append_assoc]
    rw [hsplit]
    exact Text.lastPiece_append _ hblank

theorem visit_eq_ok {body : Value}
    {d : Declared} (h : exec ((visit style r imported body key).run seen) s = (.ok (some d, seen'), s')) :
    body.titleOrRoot = .ok d.name ∧ IsClass d ∧ isLeftOut r imported key = .ok false := by
  obtain ⟨leftOut, hleftOut, h1⟩ := run_ask_ok h
  cases leftOut with
  | true => cases h1
  | false =>
    obtain ⟨d', s1, hd, h2⟩ := run_lift_ok h1
    cases h2
    obtain ⟨hname, hclass⟩ := declared_eq_ok hd
    exact ⟨hname, hclass, hleftOut⟩

theorem not_isStr_of_isLeftOut (hscope : r.scope = some scope) (h : isLeftOut r imported key = .ok false) (hname : name ∈ imported) :
    key ≠ .str name := by
  rintro rfl
  have himported : imported.any (Scalar.str name).isStr := List.any_eq_true.mpr ⟨name, hname, by simp [Scalar.isStr]⟩
  unfold isLeftOut at h
  rw [hscope] at h
  obtain ⟨definitions, _, h1⟩ := bind_ok h
  dsimp only at h1
  rw [himported] at h1
  split at h1
  · obtain ⟨isFile, _, h2⟩ := bind_ok h1
    cases isFile <;> cases h2
  · cases h1

theorem scope_of_mem_importedTypes (h : exec (fileOf style r) s = (.ok file, s'))
    (hname : name ∈ importedTypes file.imports) : ∃ scope, r.scope = some scope := by
  obtain ⟨fromFiles, more, _, _, _, _, _, hfromFiles, hmore, himports, _⟩ := fileOf_cases h
  cases hscope : r.scope with
  | some scope => exact ⟨scope, rfl⟩
  | none =>
    rw [himports, fileImports_eq_nil hscope hfromFiles, importedTypes_eq_nil hmore] at hname
    cases hname

theorem classes_fileOf (h : exec (fileOf style r) s = (.ok file, s')) : ∃ names root, r.schema.titleOrRoot = .ok root ∧
      file.classes.map (·.name) = names ++ (if (importedTypes file.imports).contains root then [] else [root]) ∧
      (∀ d ∈ file.classes, IsClass d ∧ ' ' ∉ d.name.toList) ∧
      ∀ name ∈ names, ∃ i ∈ typesInside r.scope s'.tables r.schema, i.name = name ∧
        isLeftOut r (importedTypes file.imports) i.key = .ok false := by
  obtain ⟨fromFiles, more, nested, seen, root, s1, s2, _, _, _, hnested, hroot, hend⟩ := fileOf_cases h
  have hvisit : Declares (fun key d => (IsClass d ∧ ' ' ∉ d.name.toList) ∧
      isLeftOut r (importedTypes file.imports) key = .ok false)
      (visit style r (importedTypes file.imports)) := by
    intro body key seen s d seen' s' hrun
    obtain ⟨hname, hclass, hleft⟩ := visit_eq_ok hrun
    exact ⟨hname, ⟨hclass, Value.blank_not_mem_titleOrRoot hname⟩, hleft⟩
  have hinside := fun d (hd : d ∈ nested) => declaresOf_visitTypes hvisit hnested hd
  have hnamed : ∀ d ∈ nested, IsClass d ∧ ' ' ∉ d.name.toList := by
    intro d hd
    obtain ⟨_, _, _, hnamed, _⟩ := hinside d hd
    exact hnamed
  have hkeep : Goes r.scope s2 s' → ∀ name ∈ nested.map (·.name),
      ∃ i ∈ typesInside r.scope s'.tables r.schema, i.name = name ∧
        isLeftOut r (importedTypes file.imports) i.key = .ok false := by
    intro hgoes name hname
    obtain ⟨d, hd, rfl⟩ := List.mem_map.mp hname
    obtain ⟨i, hi, hiname, _, hleft⟩ := hinside d hd
    exact ⟨i, typesInside_keep hgoes hi, hiname, hleft⟩
  refine ⟨nested.map (·.name), root, hroot, ?_⟩
  split at hend
  · next hcontains =>
    obtain ⟨hclasses, rfl⟩ := hend
    rw [hclasses, if_pos hcontains, List.append_nil]
    exact ⟨rfl, hnamed, hkeep fun _ _ => .refl⟩
  · next hcontains =>
    obtain ⟨d, hd, hclasses⟩ := hend
    obtain ⟨hdroot, hdclass⟩ := declared_eq_ok hd
    cases hroot.symm.trans hdroot
    rw [hclasses, if_neg hcontains, List.map_append, List.map_singleton]
    refine ⟨rfl, ?_, hkeep ?_⟩
    · intro d' hd'
      rcases List.mem_append.mp hd' with hd' | hd'
      · exact hnamed d' hd'
      · exact List.mem_singleton.mp hd' ▸ ⟨hdclass, Value.blank_not_mem_titleOrRoot hroot⟩
    · rintro given hgiven
      rw [hgiven] at hd
      exact Follows.changes (P := KindFault) inferInstance hd

theorem inner_of_imported (h : exec (fileOf style r) s = (.ok file, s')) {d : Declared}
    (hd : d ∈ file.classes) (himport : importLine module d.name ∈ file.imports) :
    ∃ i ∈ typesInside r.scope s'.tables r.schema, i.name = d.name ∧ i.key ≠ .str d.name ∧
      isLeftOut r (importedTypes file.imports) i.key = .ok false := by
  obtain ⟨names, root, _, hnames, hclass, hinside⟩ := classes_fileOf h
  have himported := mem_importedTypes (hclass d hd).2 himport
  obtain ⟨scope, hscope⟩ := scope_of_mem_importedTypes h himported
  have hmem : d.name ∈ names ++ (if (importedTypes file.imports).contains root then [] else [root]) :=
    hnames ▸ List.mem_map_of_mem hd
  rcases List.mem_append.mp hmem with hmem | hmem
  · obtain ⟨i, hi, hname, hleft⟩ := hinside d.name hmem
    exact ⟨i, hi, hname, not_isStr_of_isLeftOut hscope hleft himported, hleft⟩
  -- the class of the schema itself is left out when it is imported
  split at hmem
  · cases hmem
  · next hroot =>
    cases List.mem_singleton.mp hmem
    exact absurd (List.contains_iff_mem.mpr himported) hroot

/-- A class that a file imports is declared in it only for a type inside the schema that was visited under another
name and not left out. The class of the schema itself is declared exactly if it is not imported. -/
theorem imported_or_declared {text : String} (h : exec (sourceFile style r) s = (.ok text, s')) :
    ∃ file root names, exec (fileOf style r) s = (.ok file, s') ∧ text = file.text ∧ r.schema.titleOrRoot = .ok root ∧
      file.classes.map (·.name) = names ++ (if (importedTypes file.imports).contains root then [] else [root]) ∧
      (∀ d ∈ file.classes, IsClass d) ∧ (∀ module, ∀ d ∈ file.classes, importLine module d.name ∈ file.imports →
        ∃ i ∈ Nested.typesInside r.scope s'.tables r.schema, i.name = d.name ∧ i.key ≠ .str d.name ∧
          isLeftOut r (importedTypes file.imports) i.key = .ok false) ∧
      ((∀ i ∈ Nested.typesInside r.scope s'.tables r.schema, i.key = .str i.name) →
        ∀ module, ∀ d ∈ file.classes, importLine module d.name ∉ file.imports) := by
  obtain ⟨file, s1, hfile, hend⟩ := exec_bind_ok h
  cases hend
  obtain ⟨names, root, hroot, hnames, hclass, _⟩ := classes_fileOf hfile
  refine ⟨file, root, names, hfile, rfl, hroot, hnames, fun d hd => (hclass d hd).1,
    fun _ _ => inner_of_imported hfile, ?_⟩
  intro hcalled module d hd himport
  obtain ⟨i, hi, hname, hkey, _⟩ := inner_of_imported hfile hd himport
  exact hkey (hname ▸ hcalled i hi)

def letter (title : String) : Request :=
  let files := Reference.textFiles [("address.json", "\x7b\"title\": \"" ++ title ++ "\", " ++
    "\"properties\": \x7b\"city\": \x7b\"type\": \"string\"\x7d\x7d\x7d")]
  let schema : Value := .map [("title", "Letter"), ("properties", .map
    [("sender", .map [("$ref", "address.json")])])]
  { files, schema, file := some "letter.json", given := some ⟨files, "letter.json", schema⟩, stamp := "" }

/-- The address of the letter is imported, and only the letter is declared. -/
theorem imported_or_declared_letter :
    ∃ file : SourceFile, (exec (sourceFile .pydantic (letter "Address")) {}).1 = .ok file.text ∧
      importLine "address" "Address" ∈ file.imports ∧ ∀ d ∈ file.classes, d.name ≠ "Address" := by
  obtain ⟨hany, hcalled⟩ : ((exec (fileOf .pydantic (letter "Address")) {}).1.toOption.any fun file =>
        file.imports.contains (importLine "address" "Address")) = true ∧
      ∀ i ∈ Nested.typesInside (letter "Address").scope (exec (fileOf .pydantic (letter "Address")) {}).2.tables
        (letter "Address").schema, i.key = .str i.name := by decide +kernel
  obtain ⟨file, hfile, himport⟩ := exec_eq_of_any hany
  have hrun : exec (sourceFile .pydantic (letter "Address")) {} = (.ok file.text, _) := exec_bind_of_ok hfile
  obtain ⟨file', _, _, hfile', _, _, _, _, _, happart⟩ := imported_or_declared hrun
  cases hfile.symm.trans hfile'
  refine ⟨file, congrArg Prod.fst hrun, List.contains_iff_mem.mp himport, fun d hd hname => ?_⟩
  exact happart hcalled "address" d hd (hname ▸ List.contains_iff_mem.mp himport)

/-- A file whose type is not called as the file is: its class is imported and declared. -/
theorem imported_and_declared :
    ∃ file : SourceFile, (exec (sourceFile .pydantic (letter "PostalAddress")) {}).1 = .ok file.text ∧
      importLine "address" "PostalAddress" ∈ file.imports ∧
      file.classes.map (·.name) = ["PostalAddress", "Letter"] := by
  have hany : ((exec (fileOf .pydantic (letter "PostalAddress")) {}).1.toOption.any fun file =>
      file.imports.contains (importLine "address" "PostalAddress") &&
        file.classes.map (·.name) == ["PostalAddress", "Letter"]) = true := by decide +kernel
  obtain ⟨file, hfile, hboth⟩ := exec_eq_of_any hany
  obtain ⟨himport, hnames⟩ := Bool.and_eq_true_iff.mp hboth
  refine ⟨file, ?_, List.contains_iff_mem.mp himport, eq_of_beq hnames⟩
  exact congrArg Prod.fst (exec_bind_of_ok hfile)

end Python

end Typewright
