import Typewright.Proofs.Agreement
import Typewright.Proofs.Following
import Typewright.Proofs.GoPlan
import Typewright.Proofs.NestedVisits
import Typewright.Proofs.SchemaShape

/-!
# Go files for schemas without references

A Go file is written with more care where references can be followed: the types that it will declare are planned for,
and imports are only asked of these.
-/

namespace Typewright

open RefM Value
open Outcome (foldlM_eq_ok ok_bind)

variable {s : RefState} {e : Fault} {P : Prop} {entries : Entries} {declared : List Scalar}

/-- The same without a path, so that no references are followed. -/
def Request.bare (r : Request) : Request :=
  { r with file := none, given := none }

namespace Request

@[simp] theorem bare_schema (r : Request) : r.bare.schema = r.schema := rfl

@[simp] theorem bare_stamp (r : Request) : r.bare.stamp = r.stamp := rfl

@[simp] theorem bare_scope (r : Request) : r.bare.scope = none := rfl

theorem bare_of_scope {r : Request} (h : r.scope = none) : r.bare = r := by
  obtain ⟨files, schema, file, given, isMain, referencedBy, stamp⟩ := r
  cases given
  case some scope => cases h
  cases file with
  | some file => cases h
  | none => rfl

end Request

variable {α : Type} {strict : Bool} {scope : RefScope} {schema : Value} {name : Scalar}

/-! ## References on a schema -/

theorem exec_recover_of_error {work : RefM α} {handler : Fault → RefM α} {s' : RefState}
    (hwork : exec work s = (.error e, s')) (hkind : e.isContent = false) :
    exec (recover work handler) s = (.error e, s') := by
  unfold recover
  rw [exec_tryCatch, hwork]
  simp [hkind]

theorem agree_noRef {x : RefM (Option α)} (h : Fit strict schema)
    (hmap : strict → schema.isMap) (hx : ∃ e, exec x {} = (.error e, {})) :
    Agree (strict = true) (do if !(← schema.has "$ref") then pure none else x)
      (do if !(← schema.has "$ref") then pure none else pure none) := by
  refine .of_ask fun hasRef hhas => .of_else fun hsome => ?_
  obtain ⟨e, hx⟩ := hx
  refine ⟨.error e, .ok none, hx, rfl, nofun, fun holds => ?_⟩
  rw [h.has_ref (hmap holds)] at hhas
  cases hhas
  exact absurd rfl hsome

/-! ## Types inside a schema -/

namespace Nested

instance (name : Scalar) : Agree P (standsForFile (some scope) name) (standsForFile none name) := by
  cases name <;> exact .of_same rfl rfl

theorem exec_attempt_ref {β : Type} {next : Value → RefM β} (h : schema.field "$ref" = .error e) :
    exec (attempt (do next (← schema.field "$ref"))) s = (.ok (.error e), s) := by
  rw [Follows.exec_attempt, h]
  rfl

theorem exec_definitionTarget_fit (h : Fit strict schema) :
    exec (definitionTarget (some scope) schema) {} = (.ok schema, {}) := by
  obtain ⟨e, he, _⟩ := h.field_ref
  unfold definitionTarget
  rw [exec_bind_of_ok (exec_attempt_ref he)]
  rfl

theorem agree_propertyTarget (h : Fit strict schema) :
    Agree P (propertyTarget (some scope) schema) (propertyTarget none schema) := by
  obtain ⟨e, he, _⟩ := h.field_ref
  refine .of_ask fun hasRef _ => .of_else fun _ => ?_
  exact .of_same (exec_bind_of_ok (exec_attempt_ref he)) rfl

section Visits

variable {visit visit' : Value → Scalar → SeenM (Option α)}
  (hvisit : ∀ schema name, Fit strict schema →
    AgreeSeen strict (visit schema name) (visit' schema name))
include hvisit

theorem agree_visitDefinition (name : Scalar) (h : Fit strict schema) :
    AgreeSeen strict (visitDefinition (some scope) visit name schema) (visitDefinition none visit' name schema) := by
  have htitled : AgreeSeen strict (do visit (← schema.withTitle name) name)
      (do visit' (← schema.withTitle name) name) :=
    .of_ask fun titled ht => hvisit _ name (h.retitled (retitled_withTitle ht))
  refine .of_bind inferInstance fun seen => .of_else fun _ => ?_
  refine .of_bind inferInstance fun _ => .of_bind inferInstance fun hasRef => ?_
  refine .of_ite (fun _ => ?_) fun _ => htitled
  refine .of_bind inferInstance fun stands => .of_else fun _ => ?_
  refine .of_lift (x := definitionTarget (some scope) schema) (y := definitionTarget none schema)
    (.of_same (exec_definitionTarget_fit h) rfl) fun target htarget => ?_
  cases htarget
  exact htitled

theorem agree_visitProperty (name : Scalar) (h : Fit strict schema) :
    AgreeSeen strict (visitProperty (some scope) visit name schema) (visitProperty none visit' name schema) := by
  refine .of_lift (agree_propertyTarget h) fun target htarget => ?_
  have htarget : target = (schema, none) := by
    obtain ⟨hasRef, _, hrest⟩ := exec_ask_ok htarget
    split at hrest <;> cases hrest <;> rfl
  subst htarget
  dsimp only
  refine .of_bind inferInstance fun _ => .of_bind inferInstance fun hasProperties => ?_
  refine .of_else fun _ => .of_bind inferInstance fun typeName => ?_
  refine .of_bind inferInstance fun seen => .of_else fun _ => ?_
  refine .of_ask fun nested hnested => .of_bind inferInstance fun _ => ?_
  exact hvisit nested _ (h.retitled (retitled_of_entitled hnested))

omit hvisit in
theorem agree_visitEach {step step' : Scalar → Value → SeenM (Option α)}
    (h : ∀ e ∈ entries, AgreeSeen P (step e.1 e.2) (step' e.1 e.2)) :
    AgreeSeen P (visitEach step entries) (visitEach step' entries) := by
  induction entries with
  | nil => exact .pure []
  | cons e rest ih =>
    rw [List.forall_mem_cons] at h
    exact .of_bind h.1 fun first => .of_bind (ih h.2) fun others => inferInstance

theorem agree_visitTypes (h : Fit strict schema) : AgreeSeen strict (visitTypes (some scope) visit schema)
      (visitTypes none visit' schema) := by
  have hrest : ∀ definitions : List α, AgreeSeen strict
      (do return definitions ++ (← visitProperties (some scope) visit (← schema.entriesAt "properties")))
      (do return definitions ++ (← visitProperties none visit' (← schema.entriesAt "properties"))) := by
    refine fun definitions => .of_ask fun entries hentries => ?_
    rw [visitProperties_eq, visitProperties_eq]
    exact .of_bind (agree_visitEach fun e he => agree_visitProperty hvisit e.1 (h.entry hentries he))
      fun properties => inferInstance
  refine .of_bind inferInstance fun hasDefinitions => .of_ite (fun _ => ?_) fun _ => hrest []
  refine .of_ask fun group hgroup => .of_ask fun entries hentries => ?_
  rw [visitDefinitions_eq, visitDefinitions_eq]
  exact .of_bind (agree_visitEach fun e he => agree_visitDefinition hvisit e.1
    ((h.field hgroup).of_inside (inside_of_entries hentries he))) hrest

end Visits

end Nested

/-! ## Go -/

namespace GoType

theorem agree_ofOwnRef (h : Fit strict schema) (hmap : strict → schema.isMap) :
    Agree strict (ofOwnRef (some scope) schema name) (ofOwnRef none schema name) := by
  obtain ⟨e, he, hkind⟩ := h.field_ref
  refine agree_noRef h hmap ⟨e, exec_recover_of_error ?_ hkind⟩
  rw [he]
  rfl

theorem agree_ofSchema (schema : Value) (name : Scalar) (h : Fit strict schema) (hmap : strict → schema.isMap) :
    Agree strict (ofSchema (some scope) schema name) (ofSchema none schema name) := by
  rw [ofSchema, ofSchema]
  refine .of_bind (agree_ofOwnRef h hmap) fun found _ => ?_
  cases found
  case some found => infer_instance
  refine .of_ask fun hasOneOf _ => .of_else fun _ => ?_
  refine .of_ask fun hasAnyOf _ => .of_else fun _ => ?_
  refine .of_ask fun hasAllOf _ => .of_ite (fun _ => ?allOf) fun _ => ?_
  case allOf =>
    refine .of_ask fun all hall => .of_ask fun last hlast => ?_
    have := Nat.lt_of_le_of_lt last.property all.property
    exact agree_ofSchema last.val name (h.part hall |>.last hlast) (h.isMap_last hall hlast)
  refine .of_ask fun hasNot _ => .of_else fun _ => ?_
  refine .of_ask fun type _ => .of_ask fun format _ => ?_
  refine .of_else fun _ => .of_else fun _ => ?_
  refine .of_else fun _ => .of_else fun _ => ?_
  refine .of_ite (fun _ => ?array) fun _ => .of_ite (fun _ => ?object) fun _ => inferInstance
  case array =>
    refine .of_ask fun items hitems => ?_
    cases items with
    | none => infer_instance
    | some items =>
      have := items.property
      exact .of_bind (agree_ofSchema items.val _ (h.part? hitems) (h.isMap_items hitems)) fun item _ => inferInstance
  case object =>
    refine .of_ask fun hasProperties _ => .of_else fun _ => ?_
    refine .of_ask fun more hmore => ?_
    cases more with
    | none => infer_instance
    | some more =>
      refine .of_ite (fun htyped => ?_) fun _ => inferInstance
      have := more.property
      exact .of_bind (agree_ofSchema more.val _ (h.part? hmore) fun _ =>
        isMap_of_isMapWith htyped) fun value _ => inferInstance
termination_by schema.depth
decreasing_by all_goals omega

end GoType

namespace Go

theorem agree_field (yaml : Bool) (title : String) (required : Value) (name : Scalar)
    (h : Fit strict schema) (hmap : strict → schema.isMap) :
    Agree strict (field (some scope) yaml title required name schema) (field none yaml title required name schema) := by
  have htype : ∀ fieldName, Agree strict (fieldType (some scope) title fieldName schema name)
      (fieldType none title fieldName schema name) := by
    refine fun fieldName => .of_ask fun hasEnum _ => .of_else fun _ => ?_
    exact .of_bind (GoType.agree_ofSchema schema name h hmap) fun _ _ => inferInstance
  exact .of_bind inferInstance fun fieldName _ => .of_bind (htype fieldName) fun type _ => inferInstance

section Entries

variable {entries : Entries}
  (h : ∀ e ∈ entries, Fit strict e.2 ∧ (strict → e.2.isMap))
include h

theorem agree_fields (yaml : Bool) (title : String) (required : Value) :
    Agree strict (fields (some scope) yaml title required entries) (fields none yaml title required entries) := by
  induction entries with
  | nil => exact .pure []
  | cons e rest ih =>
    obtain ⟨hfit, hmap⟩ := h e (.head _)
    refine .of_bind (agree_field yaml title required e.1 hfit hmap) fun first _ => ?_
    exact .of_bind (ih fun e he => h e (.tail _ he)) fun others _ => inferInstance

theorem agree_typeWidth : Agree strict (typeWidth (some scope) entries) (typeWidth none entries) := by
  induction entries with
  | nil => exact .pure 0
  | cons e rest ih =>
    obtain ⟨hfit, hmap⟩ := h e (.head _)
    refine .of_bind (GoType.agree_ofSchema e.2 e.1 hfit hmap) fun first _ => ?_
    exact .of_bind (ih fun e he => h e (.tail _ he)) fun others _ => inferInstance

end Entries

theorem agree_struct (yaml : Bool) (title : String) (h : Fit strict schema) :
    Agree strict (struct (some scope) yaml title schema) (struct none yaml title schema) := by
  refine .of_ask fun description _ => .of_ask fun properties hprops => ?_
  have hentries := h.entries (.inl rfl) hprops
  refine .of_ask fun nameWidth _ => .of_bind (agree_typeWidth hentries) fun typeWidth _ => ?_
  refine .of_ask fun required _ => .of_bind (agree_fields hentries yaml title required) fun fields _ => ?_
  infer_instance

theorem exec_isElsewhere_fit (file : Option String) (title : String) (h : Fit strict schema)
    (hmap : schema.isMap) : exec (isElsewhere (some scope) file title schema) {} = (.ok false, {}) := by
  have hnone : ∀ t : Tables, t = {} → (typesElsewhere scope file t).contains title = false := by
    rintro _ rfl
    rfl
  unfold isElsewhere
  rw [exec_bind_of_ok (exec_tables {}), h.has_ref hmap]
  dsimp only
  rw [hnone _ rfl, Bool.and_false]
  rfl

theorem agree_claimTitle (file file' : Option String) (h : Fit strict schema) :
    AgreeSeen strict (claimTitle (some scope) file schema) (claimTitle none file' schema) := by
  refine .of_ask fun title htitle => .of_ask fun rawTitle _ => ?_
  have helsewhere : Agree strict (isElsewhere (some scope) file title schema) (isElsewhere none file' title schema) :=
    .of_same (exec_isElsewhere_fit file title h (isMap_of_titleOrRoot htitle)) rfl
  infer_instance

section Enumerations

variable {owner : Value} {declare declare' : Below owner → SeenM (Option Enumeration)}
  (hdeclare : ∀ e : Below owner, Fit strict e.val → AgreeSeen strict (declare e) (declare' e))
include hdeclare

theorem agree_enumDeclarations (title : String) {entries : List (Scalar × Below owner)}
    (h : ∀ e ∈ entries, Fit strict e.2.val) : AgreeSeen strict (enumDeclarations title owner declare entries)
      (enumDeclarations title owner declare' entries) := by
  induction entries with
  | nil => exact .pure []
  | cons e rest ih =>
    have hrest := ih fun e he => h e (.tail _ he)
    have hfit := h e (.head _)
    obtain ⟨name, schema, below⟩ := e
    refine .of_ask fun hasEnum _ => .of_else fun _ => ?_
    refine .of_ask fun fieldName _ => .of_bind inferInstance fun seen => ?_
    refine .of_else fun _ => .of_bind inferInstance fun _ => ?_
    refine .of_ask fun titled ht => .of_bind (hdeclare _ ?_) fun first => inferInstance
    exact hfit.retitled (retitled_withTitle ht)

end Enumerations

theorem agree_propertyEnums (title : String) (h : Fit strict schema)
    {declare declare' : Below schema → SeenM (Option Enumeration)}
    (hdeclare : ∀ e : Below schema, Fit strict e.val → AgreeSeen strict (declare e) (declare' e)) :
    AgreeSeen strict (propertyEnums title schema declare) (propertyEnums title schema declare') := by
  refine .of_ask fun properties hprops => ?_
  cases properties with
  | none => infer_instance
  | some properties =>
    refine .of_ask fun entries hentries => ?_
    refine agree_enumDeclarations
      (fun e => hdeclare ⟨e.val, Nat.lt_trans e.property properties.property⟩) title fun e he => ?_
    refine (h.part? hprops).of_inside (inside_of_entries (entries_of_entriesBelow hentries)
      (e := (e.1, e.2.val)) (List.mem_map_of_mem he))

theorem agree_enumDeclaration (file file' : Option String) (schema : Value) (h : Fit strict schema) :
    AgreeSeen strict (enumDeclaration (some scope) file schema) (enumDeclaration none file' schema) := by
  rw [enumDeclaration, enumDeclaration]
  refine .of_bind (agree_claimTitle file file' h) fun title => ?_
  cases title with
  | none => infer_instance
  | some title =>
    have henums : AgreeSeen strict (propertyEnums title schema fun e => enumDeclaration (some scope) file e.val)
        (propertyEnums title schema fun e => enumDeclaration none file' e.val) :=
      agree_propertyEnums title h fun e he =>
        have := e.property
        agree_enumDeclaration file file' e.val he
    infer_instance
termination_by schema.depth
decreasing_by all_goals omega

theorem agree_declaration (file file' : Option String) (yaml : Bool) (h : Fit strict schema) :
    AgreeSeen strict (declaration (some scope) file yaml schema) (declaration none file' yaml schema) := by
  refine .of_bind (agree_claimTitle file file' h) fun title => ?_
  cases title with
  | none => infer_instance
  | some title =>
    refine .of_bind (agree_propertyEnums title h fun e he => agree_enumDeclaration file file' e.val he) fun enums => ?_
    refine .of_ask fun hasEnum _ => .of_else fun _ => ?_
    have hstruct : Agree strict (struct (some scope) yaml title schema)
        (struct none yaml title schema) := agree_struct yaml title h
    infer_instance

/-! ### Source files -/

theorem agree_addProperties (i : Imports) (h : ∀ e ∈ entries, Fit strict e.2) :
    Agree strict (i.addProperties (some scope) entries) (i.addProperties none entries) := by
  induction entries generalizing i with
  | nil => exact .pure i
  | cons e rest ih =>
    refine .of_ask fun i' hi' => .of_bind ?_ fun _ _ => ih i' fun e he => h e (.tail _ he)
    -- only an object can be asked for its format, and an object has no reference
    have hmap : e.2.isMap := by
      obtain ⟨i1, hformat, _⟩ := bind_ok hi'
      obtain ⟨type, htype, _⟩ := bind_ok hformat
      obtain ⟨found, hfound, _⟩ := bind_ok htype
      exact isMap_of_field? hfound
    unfold followRef
    rw [(h e (.head _)).has_ref hmap]
    exact .of_same rfl rfl

theorem addDefinitions_declared (i : Imports) (h : ∀ e ∈ entries, Seen.has declared e.1) :
    i.addDefinitions (some declared) entries = i.addDefinitions none entries := by
  induction entries generalizing i with
  | nil => rfl
  | cons e rest ih =>
    have hrest := fun i => ih i fun e he => h e (.tail _ he)
    unfold Imports.addDefinitions
    simp only [Option.any_some, Option.any_none, h e (.head _), Bool.not_true, hrest]

theorem agree_imports (h : Fit strict schema)
    (hdeclared : ∀ definitions, schema.entriesAt "definitions" = .ok definitions →
      ∀ e ∈ definitions, Seen.has declared e.1) :
    Agree strict (imports (some scope) (some declared) schema) (imports none none schema) := by
  refine .of_ask fun properties hprops => ?_
  refine .of_bind (agree_addProperties _ fun e he => h.entry hprops he) fun i _ => ?_
  refine .of_ask fun definitions hdefs => ?_
  rw [addDefinitions_declared i (hdeclared definitions hdefs)]
  infer_instance

/-- Whether the type that is declared for a property can be named: an enumeration after its field, an
object after its words. -/
def canName (e : Scalar × Value) : Bool :=
  (!e.2.isMapWith "enum" || (Naming.fieldName (.scalar e.1)).isOk) &&
    (!(e.2.isOfType "object" && e.2.isMapWith "properties") ||
      (Naming.capitalWordsOf (.scalar e.1)).isOk)

/-- Whether the types that are declared for the properties of a schema can be named. -/
def isNameable (schema : Value) : Bool :=
  (schema.entriesOf "properties").all canName

namespace Plan

variable {p : Plan} {t : Tables} {standalone : Bool} {title : String}

theorem addRef_fit (h : Fit strict schema) (hmap : schema.isMap) :
    p.addRef (some scope) t standalone schema = .ok p := by
  unfold addRef
  rw [h.has_ref hmap]
  rfl

theorem isOk_addProperty (h : Fit strict schema) (hmap : schema.isMap) :
    (p.addProperty (some scope) t standalone title name schema).isOk = canName (name, schema) := by
  cases schema with
  | map es =>
    have htype : ((Entries.find? es (.str "type")).getD .null).isStr "object" = (Value.map es).isOfType "object" := by
      show _ = (Entries.find? es (.str "type")).any (·.isStr "object")
      cases Entries.find? es (.str "type") <;> rfl
    have hobject : ∀ p' : Plan, (do
        let p ←
          if (Value.map es).isOfType "object" && (Value.map es).isMapWith "properties" then
            pure (p'.declare (.str (← Naming.capitalWordsOf (.scalar name))))
          else pure p'
        p.addRef (some scope) t standalone (.map es) : Except Fault Plan).isOk =
          (!((Value.map es).isOfType "object" && (Value.map es).isMapWith "properties") ||
            (Naming.capitalWordsOf (.scalar name)).isOk) := by
      intro p'
      cases (Value.map es).isOfType "object" && (Value.map es).isMapWith "properties" with
      | false => simp [addRef_fit h hmap]
      | true =>
        cases Naming.capitalWordsOf (.scalar name) with
        | error e => rfl
        | ok words => simp [addRef_fit h hmap]
    have hhas : (Value.map es).has "enum" = .ok ((Value.map es).isMapWith "enum") := rfl
    unfold addProperty canName
    rw [hhas, Value.field?_map]
    cases (Value.map es).isMapWith "enum" with
    | false => simpa [htype] using hobject p
    | true =>
      cases Naming.fieldName (.scalar name) with
      | error e => rfl
      | ok fieldName => simpa [htype] using hobject (p.declare (.str (title ++ fieldName)))
  | _ => cases hmap

theorem addDefinition_eq_ok (h : Fit true schema) (hmap : schema.isMap) :
    ∃ p', p.addDefinition (some scope) t name schema = .ok p' := by
  have hfile : definitionFile (some scope) t name schema = .ok none := by
    unfold definitionFile
    rw [h.has_ref hmap]
    rfl
  obtain ⟨properties, hprops⟩ := h.entriesAt_eq_ok hmap (.inl rfl)
  have hhas := has_eq_isMapWith "properties" hmap
  unfold addDefinition
  rw [hfile, hhas, hprops]
  cases schema.isMapWith "properties" with
  | false => exact ⟨_, rfl⟩
  | true =>
    refine foldlM_eq_ok (fun p e he => ?_) _
    obtain ⟨format, hformat⟩ := Value.field?_of_isMap "format" (h.isMap_entry (.inl rfl) hprops he)
    unfold isUuid
    rw [hformat]
    dsimp only [ok_bind, pure, Except.pure]
    split <;> exact ⟨_, rfl⟩

theorem addSchema_eq_ok (h : Fit true schema) (htitle : schema.titleOrRoot = .ok title)
    (nameable : isNameable schema) : ∃ p', p.addSchema (some scope) t true standalone schema = .ok p' := by
  have hmap := isMap_of_titleOrRoot htitle
  obtain ⟨properties, hprops⟩ := h.entriesAt_eq_ok hmap (.inl rfl)
  obtain ⟨definitions, hdefs⟩ := h.entriesAt_eq_ok hmap (.inr rfl)
  have hproperty : ∀ (p : Plan), ∀ e ∈ properties, ∃ p',
      p.addProperty (some scope) t standalone title e.1 e.2 = .ok p' := by
    intro p e he
    refine Outcome.eq_ok_of_isOk ?_
    rw [isOk_addProperty (h.entry hprops he) (h.isMap_entry (.inl rfl) hprops he)]
    rw [isNameable, entriesOf_eq hprops, List.all_eq_true] at nameable
    exact nameable e he
  have hdef : ∀ (p : Plan), ∀ e ∈ definitions, ∃ p', p.addDefinition (some scope) t e.1 e.2 = .ok p' := fun p e he =>
    addDefinition_eq_ok (h.entry hdefs he) (h.isMap_entry (.inr rfl) hdefs he)
  obtain ⟨p', hp'⟩ := foldlM_eq_ok hproperty p
  have hhas := has_eq_isMapWith "definitions" hmap
  unfold addSchema
  rw [htitle, hprops, ok_bind, ok_bind, hp', hhas]
  cases hasDefinitions : schema.isMapWith "definitions" with
  | false => exact ⟨p', rfl⟩
  | true =>
    obtain ⟨group, hgroup⟩ := field_of_has hmap (hhas.trans (congrArg _ hasDefinitions))
    rw [entriesAt_of_field hgroup] at hdefs
    rw [hgroup, ok_bind, ok_bind, ok_bind, hdefs]
    exact foldlM_eq_ok hdef p'

theorem isNameable_of_addSchema {p1 : Plan} (h : Fit true schema)
    (hrun : p.addSchema (some scope) t true standalone schema = .ok p1) : isNameable schema := by
  obtain ⟨title, properties, p', _, hprops, hp', _⟩ := addSchema_cases hrun
  rw [isNameable, entriesOf_eq hprops, List.all_eq_true]
  intro e he
  obtain ⟨p1, p2, hstep⟩ := Outcome.step_of_foldlM hp' e he
  rw [← isOk_addProperty (h.entry hprops he) (h.isMap_entry (.inl rfl) hprops he), hstep]
  rfl

end Plan

section SourceFile

variable {r : Request} {title : String}

theorem elsewhere_addSchema {file : Option String} {plan : Plan} (hplan : Plan.addSchema ⟨[.str title],
      ((typesElsewhere scope file {}).filter (· ≠ "")).foldl Text.add [], []⟩ (some scope) {}
      r.isMain r.isStandalone r.schema = .ok plan) : plan.elsewhere = [] := by
  refine List.eq_nil_iff_forall_not_mem.mpr fun name hname => ?_
  rcases (Plan.grows_addSchema hplan).elsewhere name hname with hstart | ⟨ref, _, hknown⟩
  · cases hstart
  · cases hknown

theorem agree_analyse (hscope : r.scope = some scope) (main : r.isMain)
    (h : Fit strict r.schema) (htitle : r.schema.titleOrRoot = .ok title) :
    Agree (strict ∧ isNameable r.schema) (analyse r title) (analyse r.bare title) := by
  have hbare : ∃ q, exec (analyse r.bare title) {} = (q, {}) := by
    have hdeclared : ∀ definitions, r.schema.entriesAt "definitions" = .ok definitions →
        ∀ e ∈ definitions, Seen.has ((r.schema.entriesOf "definitions").map (·.1)) e.1 := by
      intro definitions hdefs e he
      rw [entriesOf_eq hdefs]
      simp only [Seen.has, List.any_eq_true]
      exact ⟨e.1, List.mem_map_of_mem he, by simp⟩
    have himports : Agree strict (imports (some scope) _ r.schema) (imports none none r.schema) :=
      agree_imports h hdeclared
    obtain ⟨_, q, _, hq, _⟩ := himports
    cases q with
    | error e => exact ⟨_, exec_bind_of_error hq⟩
    | ok i => exact ⟨_, exec_bind_of_ok hq⟩
  unfold analyse
  rw [hscope]
  refine .after (a := {}) (.of_same rfl rfl) ?_
  refine .ask_left hbare ?_ fun plan hplan => ?_
  · rintro ⟨rfl, nameable⟩
    rw [main]
    exact Plan.addSchema_eq_ok h htitle nameable
  rw [elsewhere_addSchema hplan]
  rw [main] at hplan
  have himports : Agree strict (imports (some scope) (some plan.declared) r.schema) (imports none none r.schema) :=
    agree_imports h fun definitions => Plan.declared_addSchema (fun _ => rfl) hplan
  exact .of_bind (himports.mono And.left) fun i _ => inferInstance

theorem exec_isLeftOut_fit {own : String} (main : r.isMain) (h : Fit strict schema)
    (hown : schema.title = .ok own) : exec (isLeftOut r title [] schema) {} = (.ok false, {}) := by
  have hmap := isMap_of_title hown
  obtain ⟨raw, hraw⟩ := Value.field?_of_isMap "title" hmap
  have hstandalone : r.isStandalone = false := by
    unfold Request.isStandalone
    rw [main]
    rfl
  unfold isLeftOut titleStandsForFile
  rw [hown, main, h.has_ref hmap, hraw, hstandalone]
  cases r.scope with
  | none => rfl
  | some scope =>
    cases raw with
    | none => rfl
    | some raw =>
      cases raw with
      | scalar x => cases x <;> rfl
      | _ => rfl

theorem agree_nestedDeclaration (hscope : r.scope = some scope) (main : r.isMain) (h : Fit strict schema) :
    AgreeSeen strict (nestedDeclaration r title [] schema) (nestedDeclaration r.bare title [] schema) := by
  have hleftOut : Agree strict (isLeftOut r title [] schema) (isLeftOut r.bare title [] schema) := by
    cases hown : schema.title with
    | error e =>
      have hfault : ∀ r : Request, exec (isLeftOut r title [] schema) {} = (.error e, {}) := by
        intro r
        unfold isLeftOut
        rw [hown]
        rfl
      exact .of_same (hfault r) (hfault r.bare)
    | ok own => exact .of_same (exec_isLeftOut_fit main h hown) (exec_isLeftOut_fit main h hown)
  have hdeclaration : AgreeSeen strict (declaration r.scope r.file true schema)
      (declaration r.bare.scope r.bare.file true schema) := by
    rw [hscope]
    exact agree_declaration r.file none true h
  unfold nestedDeclaration
  infer_instance

theorem agree_declarations (hscope : r.scope = some scope) (main : r.isMain) (h : Fit strict r.schema) :
    AgreeSeen strict (declarations r title []) (declarations r.bare title []) := by
  have hdeclaration : AgreeSeen strict (declaration r.scope r.file true r.schema)
      (declaration r.bare.scope r.bare.file true r.bare.schema) := by
    rw [hscope]
    exact agree_declaration r.file none true h
  unfold declarations
  refine .of_bind ?_ fun nested => inferInstance
  rw [hscope]
  refine Nested.agree_visitTypes (fun schema name hschema => ?_) h
  exact .of_bind (agree_nestedDeclaration hscope main hschema) fun d => inferInstance

theorem agree_fileOf (package : String) (hscope : r.scope = some scope) (main : r.isMain)
    (h : Fit strict r.schema) :
    Agree (strict ∧ isNameable r.schema) (fileOf package r) (fileOf package r.bare) := by
  refine .of_ask fun title htitle => ?_
  refine .of_bind (agree_analyse hscope main h htitle) fun found hfound => ?_
  obtain ⟨i, _, _, hend⟩ := exec_bind_ok hfound
  cases hend
  exact .of_bind (((agree_declarations hscope main h).run _).mono And.left) fun ⟨d, seen⟩ _ => .pure _

theorem agree_sourceFile (package : String) (hscope : r.scope = some scope) (main : r.isMain)
    (h : Fit strict r.schema) : Agree (strict ∧ isNameable r.schema) (sourceFile package r)
      (sourceFile package r.bare) :=
  .of_bind (agree_fileOf package hscope main h) fun _ _ => inferInstance

theorem isNameable_of_sourceFile {package text : String} (hscope : r.scope = some scope)
    (main : r.isMain) (h : Fit true r.schema)
    (hrun : exec (sourceFile package r) {} = (.ok text, s)) : isNameable r.schema := by
  obtain ⟨file, s1, hfile, _⟩ := exec_bind_ok hrun
  obtain ⟨title, _, h1⟩ := exec_ask_ok hfile
  obtain ⟨found, s2, hfound, _⟩ := exec_bind_ok h1
  unfold analyse at hfound
  rw [hscope, main] at hfound
  obtain ⟨t, s3, _, h2⟩ := exec_bind_ok hfound
  obtain ⟨plan, hplan, _⟩ := exec_ask_ok h2
  exact Plan.isNameable_of_addSchema h hplan

end SourceFile

end Go

end Typewright
