import Typewright.Proofs.BodyReferences
import Typewright.Proofs.ConstantNames
import Typewright.Proofs.ImportedClasses

/-!
# Classes under the names that references use

The class for a definition goes by the key of the definition without its blanks.
-/

namespace Typewright

open RefM Reference PythonType

variable {given : RefScope} {es : Entries} {name : String} {s s' : RefState}

def namedRef (name : String) : Value :=
  .map [("$ref", .str (Reference.definitionMark ++ name))]

theorem has_namedRef (name : String) : (namedRef name).has "$ref" = .ok true := rfl

theorem field_namedRef (name : String) : (namedRef name).field "$ref" = .ok (.str (definitionMark ++ name)) := rfl

/-- A schema for lists of what a reference to a definition stands for. -/
def namedRefs (name : String) : Value :=
  .map [("type", "array"), ("items", namedRef name)]

/-- The schema has a definition of this name, which is an object and no reference itself. -/
structure Value.Defines (root : Value) (name : String) (es : Entries) : Prop where
  found : Entries.find? (root.entriesOf "definitions") (.str name) = some (.map es)
  noRef : Entries.find? es (.str "$ref") = none

theorem Value.Defines.has_ref {root : Value} (h : root.Defines name es) : (Value.map es).has "$ref" = .ok false := by
  rw [Value.has_eq_isMapWith "$ref" rfl, Value.isMapWith_map, h.noRef]
  rfl

/-- The title that a definition has of its own; empty if there is none. -/
def ownTitle (es : Entries) : Value :=
  (Entries.find? es (.str "title")).getD (.str "")

/-! ## How references are typed -/

namespace Reference

theorem isDefinition_mark (name : String) : isDefinition (definitionMark ++ name) := by
  rw [isDefinition, Text.startsWith, String.toList_append]
  exact List.isPrefixOf_iff_prefix.mpr (List.prefix_append _ _)

theorem lastName_mark (h : '/' ∉ name.toList) : lastName (definitionMark ++ name) = name :=
  Text.lastPiece_append "#/definitions" h

theorem leadsTo_mark (h : given.root.Defines name es) (hname : '/' ∉ name.toList) :
    given.leadsTo (.str (definitionMark ++ name)) = .ok (.definition (.map es)) := by
  obtain ⟨_, _, mem⟩ := Value.mem_of_find? h.found
  obtain ⟨group, hgroup, hentries⟩ := Value.field_of_entriesAt (Value.entriesAt_of_mem_entriesOf mem) mem
  cases group with
  | map definitions =>
    cases hentries
    show destination given.root (definitionCount given.root + 1) (definitionMark ++ name) = _
    rw [destination, if_pos (isDefinition_mark name), lastName_mark hname, definition?_of_find? hgroup h.found,
      Outcome.ok_bind]
    dsimp only
    rw [h.has_ref]
    rfl
  | _ => cases hentries

end Reference

namespace PythonType

/-- The name that a reference gives to the definition that it leads to. -/
def referredName (name : String) (es : Entries) : Except Fault String :=
  if (ownTitle es).truthy then (ownTitle es).withoutBlanks else .ok name

theorem exec_ofRef_mark (h : given.root.Defines name es) (hname : '/' ∉ name.toList) (property : Scalar) :
    exec (ofRef given (.str (definitionMark ++ name)) property) s =
      ((referredName name es).map .name, s) := by
  have htitle : (Value.map es).fieldD "title" (.str "") = .ok (ownTitle es) := Value.fieldD_map es "title" _
  rw [ofRef, exec_bind_of_ok (RefScope.exec_resolve_definition (leadsTo_mark h hname) s),
    if_pos (show (Value.map es).isMap = true from rfl), referredName]
  cases hsays : (ownTitle es).truthy with
  | true =>
    simp only [exec_bind, exec_lift, htitle, hsays, if_true]
    cases (ownTitle es).withoutBlanks <;> rfl
  | false =>
    simp only [exec_bind, exec_lift, htitle, hsays, Bool.false_eq_true, if_false, textOf,
      isDefinition_mark, if_true, lastName_mark hname]
    rfl

theorem exec_ofSchema_namedRef (h : given.root.Defines name es) (hname : '/' ∉ name.toList)
    (style : PythonStyle) (property : Scalar) : exec (ofSchema (some given) style (namedRef name) property) s =
      ((referredName name es).map .name, s) := by
  have hrun := exec_ofRef_mark h hname property (s := s)
  have hown : exec (ofOwnRef (some given) (namedRef name) property) s =
      ((referredName name es).map fun text => some (.name text), s) := by
    simp only [ofOwnRef, has_namedRef, field_namedRef, lift_ok_bind, Bool.not_true, Bool.false_eq_true, if_false]
    cases hreferred : referredName name es with
    | ok text =>
      rw [hreferred] at hrun
      unfold recover
      rw [exec_tryCatch, exec_bind_of_ok hrun]
      rfl
    | error e =>
      have hkind : FailsWith KindFault (referredName name es) := by
        unfold referredName
        infer_instance
      rw [hreferred] at hrun
      exact exec_recover_of_error (exec_bind_of_error hrun) (hkind.fault e hreferred)
  rw [ofSchema, exec_bind, hown]
  cases referredName name es <;> rfl

theorem exec_ofSchema_namedRefs (name : String) (style : PythonStyle) (property : Scalar) :
    exec (ofSchema (some given) style (namedRefs name) property) s =
      (.ok (.list (.name (lastName (definitionMark ++ name)))), s) := by
  have hitems : exec (ofItemRef (some given) (namedRef name)) s =
      (.ok (some (.name (lastName (definitionMark ++ name)))), s) := by
    simp [ofItemRef, has_namedRef, field_namedRef, lift_ok_bind, textOf, isDefinition_mark]
  have bare : Bare [("type", "array"), ("items", namedRef name)] :=
    List.forall_iff_forall_mem.mp ⟨rfl, rfl, rfl, rfl, rfl, rfl, rfl⟩
  have typed : Typed [("type", "array"), ("items", namedRef name)] "array" := rfl
  have found : Entries.find? [("type", "array"), ("items", namedRef name)] (.str "items") = some (namedRef name) := rfl
  rw [namedRefs, ofSchema]
  simp [ofOwnRef, ofEnum, bare.has, typed.fieldD, Value.fieldD_map, lift_ok_bind, isStr_str, part?_map found, exec_bind,
    hitems]

end PythonType

theorem Reference.lastName_mark_eq_iff : lastName (definitionMark ++ name) = (Value.str name).typeName ↔
      name ≠ "" ∧ ' ' ∉ name.toList ∧ '/' ∉ name.toList := by
  have hclass : (Value.str name).typeName =
      if (Text.without ' ' name).isEmpty then "Root" else Text.without ' ' name := rfl
  have hkept : ' ' ∉ name.toList → Text.without ' ' name = name := by
    intro hblank
    rw [Text.without, List.filter_eq_self.mpr, String.ofList_toList]
    exact fun c hc => bne_iff_ne.mpr fun heq => hblank (heq ▸ hc)
  constructor
  · intro h
    have hslash : '/' ∉ name.toList := by
      intro hmem
      have hwithout : '/' ∈ (Text.without ' ' name).toList := by
        rw [Text.without, String.toList_ofList, List.mem_filter]
        exact ⟨hmem, rfl⟩
      have hnonempty : ¬ (Text.without ' ' name).isEmpty := by
        rw [String.isEmpty_iff]
        intro hempty
        rw [hempty] at hwithout
        cases hwithout
      rw [hclass, if_neg hnonempty] at h
      exact Text.not_mem_lastPiece _ _ (h ▸ hwithout)
    rw [lastName_mark hslash, hclass] at h
    split at h
    · next hempty =>
      rw [h] at hempty
      exact absurd hempty (by decide)
    · next hnonempty =>
      refine ⟨?_, ?_, hslash⟩
      · rintro rfl
        exact hnonempty rfl
      · rw [h, Text.without, String.toList_ofList, List.mem_filter]
        exact fun hmem => Bool.false_ne_true hmem.2
  · rintro ⟨hname, hblank, hslash⟩
    rw [lastName_mark hslash, hclass, hkept hblank, if_neg (by simpa using hname)]

/-! ## The class of a definition -/

theorem Nested.exists_visited {α : Type} {scope : Option RefScope} {visit : Value → Scalar → SeenM (Option α)}
    {seen seen' : List Scalar} {entries : Entries} {out : List α} (hkeeps : ∀ {body key seen s first seen' s'},
      exec ((visit body key).run seen) s = (.ok (first, seen'), s') → seen' = seen)
    {definition : Value} (found : Entries.find? entries (.str name) = some definition)
    (noRef : definition.has "$ref" = .ok false) (hseen : Seen.has seen (.str name) = false)
    (h : Walk (visitDefinition scope visit) entries seen s out seen' s') :
    ∃ first titled seen1 s₁ seen2 s₂, definition.withTitle (.str name) = .ok titled ∧
      exec ((visit titled.val (.str name)).run seen1) s₁ = (.ok (first, seen2), s₂) ∧
      ∀ d, first = some d → d ∈ out := by
  induction h with
  | nil => cases found
  | @cons e rest seen seen1 _ _ _ _ first others head _ ih =>
    obtain ⟨key, v⟩ := e
    have hvisits := visitDefinition_cases head
    rw [Entries.find?] at found
    by_cases hkey : key.same (.str name)
    · rw [if_pos hkey] at found
      cases found
      cases Scalar.same_str_iff.mp hkey
      cases hvisits with
      | seen known => cases hseen.symm.trans known
      | elsewhere _ isRef => cases noRef.symm.trans isRef
      | visited _ titled reached run =>
        obtain ⟨-, rfl, -⟩ := reached.resolve_right fun hyes =>
          Bool.false_ne_true (Except.ok.inj (noRef.symm.trans hyes.1))
        refine ⟨first, _, _, _, _, _, titled, run, ?_⟩
        rintro d rfl
        exact List.mem_append_left _ (.head _)
    · rw [if_neg hkey] at found
      have hseen1 : Seen.has seen1 (.str name) = false := by
        have hother : Seen.has (Seen.add seen key) (.str name) = false := by
          rw [Bool.eq_false_iff, Ne, Seen.has_add_iff, not_or]
          exact ⟨Bool.eq_false_iff.mp hseen, fun heq => hkey (Scalar.same_str_iff.mpr heq)⟩
        cases hvisits with
        | seen => exact hseen
        | elsewhere => exact hother
        | visited _ _ _ run => exact hkeeps run ▸ hother
      obtain ⟨first', titled, seen3, s3, seen4, s4, htitled, hrun, hmem⟩ := ih found hseen1
      exact ⟨first', titled, seen3, s3, seen4, s4, htitled, hrun, fun d hd => List.mem_append_right _ (hmem d hd)⟩

namespace Python

variable {r : Request} {style : PythonStyle} {file : SourceFile}

/-- The class for a definition: what is declared for its schema with its key as title. -/
def IsClassFor (scope : Option RefScope) (style : PythonStyle) (name : String) (es : Entries) (d : Declared) :
    Prop :=
  IsClass d ∧ d.name = (Value.str name).typeName ∧ ∃ titled s s',
    (Value.map es).withTitle (.str name) = .ok titled ∧ exec (declared scope style titled.val) s = (.ok d, s')

theorem exists_class_of_definition (h : r.schema.Defines name es) (hfile : exec (fileOf style r) s = (.ok file, s')) :
    (∃ d ∈ file.classes, IsClassFor r.scope style name es d) ∨
      isLeftOut r (importedTypes file.imports) (.str name) = .ok true := by
  obtain ⟨fromFiles, more, nested, seen, root, s₁, s₂, _, _, _, hnested, _, hend⟩ := fileOf_cases hfile
  obtain ⟨definitions, properties, seen1, s3, rfl, hdefs, _⟩ := Nested.visitTypes_cases hnested
  have hkeeps : ∀ {body key seen s first seen' s'},
      exec ((visit style r (importedTypes file.imports) body key).run seen) s = (.ok (first, seen'), s') →
      seen' = seen := by
    intro body key seen s first seen' s' hrun
    obtain ⟨leftOut, _, h1⟩ := run_ask_ok hrun
    cases leftOut with
    | true =>
      cases h1
      rfl
    | false =>
      obtain ⟨d, s₁, _, h2⟩ := run_lift_ok h1
      cases h2
      rfl
  have hclasses : ∀ d ∈ definitions, d ∈ file.classes := by
    intro d hd
    split at hend
    · exact hend.1 ▸ List.mem_append_left _ hd
    · obtain ⟨_, _, hends⟩ := hend
      exact hends ▸ List.mem_append_left _ (List.mem_append_left _ hd)
  obtain ⟨first, titled, _, s4, _, _, htitled, hrun, hmem⟩ := Nested.exists_visited hkeeps h.found h.has_ref rfl hdefs
  obtain ⟨leftOut, hleftOut, h1⟩ := run_ask_ok hrun
  cases leftOut with
  | true => exact .inr hleftOut
  | false =>
    obtain ⟨d, s5, hd, h2⟩ := run_lift_ok h1
    cases h2
    obtain ⟨hname, hclass⟩ := declared_eq_ok hd
    exact .inl ⟨d, hclasses d (hmem d rfl), hclass, Nested.typeName_withTitle htitled rfl hname, titled, s4, _,
      htitled, hd⟩

/-- Both types that a property takes from a reference to a definition, alone and as the items of a list, have the name
of its class exactly if the key is a word without blanks and slashes and the definition has no other title. -/
theorem references_name_class_iff (hscope : r.scope = some given) (hroot : given.root = r.schema)
    (h : r.schema.Defines name es) (style : PythonStyle) (property : Scalar) (s : RefState) :
    (∀ file s₁ s₂, exec (fileOf style r) s₁ = (.ok file, s₂) →
      (∃ d ∈ file.classes, IsClassFor r.scope style name es d) ∨
        isLeftOut r (importedTypes file.imports) (.str name) = .ok true) ∧
    ((exec (PythonType.ofSchema r.scope style (namedRef name) property) s).1.map PythonType.text =
          .ok (Value.str name).typeName ∧
        (exec (PythonType.ofSchema r.scope style (namedRefs name) property) s).1.map PythonType.text =
          .ok ("List[" ++ (Value.str name).typeName ++ "]") ↔ (name ≠ "" ∧ ' ' ∉ name.toList ∧ '/' ∉ name.toList) ∧
        ((ownTitle es).truthy = true → (ownTitle es).withoutBlanks = .ok name)) := by
  refine ⟨fun file s₁ s₂ hfile => exists_class_of_definition h hfile, ?_⟩
  rw [← hroot] at h
  rw [hscope, exec_ofSchema_namedRefs, ← lastName_mark_eq_iff]
  have hlists : (Except.ok (.list (.name (lastName (definitionMark ++ name)))) :
        Except Fault PythonType).map text = .ok ("List[" ++ (Value.str name).typeName ++ "]") ↔
      lastName (definitionMark ++ name) = (Value.str name).typeName := by
    simp [Except.map, text]
  rw [hlists, and_comm]
  refine and_congr_right fun hlast => ?_
  obtain ⟨_, _, hslash⟩ := lastName_mark_eq_iff.mp hlast
  rw [exec_ofSchema_namedRef h hslash, ← hlast, lastName_mark hslash, referredName]
  cases (ownTitle es).truthy with
  | false => simp [Except.map, text]
  | true => cases (ownTitle es).withoutBlanks <;> simp [Except.map, text]

def cabinet (name : String) (es : Entries) : Request where
  files := ⟨[], []⟩
  schema := .map [("title", "Cabinet"),
    ("properties", .map [("top", namedRef name), ("all", namedRefs name)]),
    ("definitions", .map [(.str name, .map es)])]
  file := some "cabinet.json"
  stamp := "now"

theorem references_name_class_iff_shelf : (cabinet "Shelf" []).schema.Defines "Shelf" [] ∧
      (exec (PythonType.ofSchema (cabinet "Shelf" []).scope .pydantic (namedRef "Shelf") (.str "top")) {}).1.map
        PythonType.text = .ok "Shelf" ∧
      (exec (PythonType.ofSchema (cabinet "Shelf" []).scope .pydantic (namedRefs "Shelf") (.str "top")) {}).1.map
        PythonType.text = .ok "List[Shelf]" := by
  have hdefines : (cabinet "Shelf" []).schema.Defines "Shelf" [] := ⟨rfl, rfl⟩
  refine ⟨hdefines, (references_name_class_iff rfl rfl hdefines .pydantic (.str "top") {}).2.mpr ?_⟩
  exact ⟨by decide, by decide⟩

theorem titled_shelf_misses_class : let r := cabinet "Shelf" [(.str "title", .str "Board")]
    (exec (PythonType.ofSchema r.scope .pydantic (namedRef "Shelf") (.str "top")) {}).1.map PythonType.text =
        .ok "Board" ∧
      (exec (fileOf .pydantic r) {}).1.map (·.classes.map (·.name)) = .ok ["Shelf", "Cabinet"] := by
  decide +kernel

end Python

end Typewright
