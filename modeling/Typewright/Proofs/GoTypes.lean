import Typewright.Proofs.Generators
import Typewright.Proofs.NestingLimit

/-!
# The names in Go types

A Go type is made of slices and maps around one name.
-/

namespace Typewright

open RefM
open Reference (definition? destination isDefinition isInner)

variable {s s' : RefState} {title : String} {x : RefM (GoType × Value)} {yaml : Bool}
  {d : Reference.Destination} {ref required : Value} {found : GoType × Value} {scope : RefScope}
  {text : String} {name : Scalar} {schema : Value}

namespace GoType

def base : GoType → String
  | .name text => text
  | .slice item => item.base
  | .map value => value.base

/-- The names that the language and its library have. -/
def builtIns : List String :=
  ["string", "int", "float32", "bool", "interface\x7b\x7d", "time.Time", "time.Duration", "uuid.UUID",
    "url.URL"]

theorem ofFormat_base (format : Value) : (ofFormat format).base ∈ builtIns := by
  unfold ofFormat
  split
  · decide
  split
  · decide
  · split
    · decide
    · split <;> decide

/-! ## Names from references -/

/-- A name that a reference can give to a type: the name of a definition, or what the name of a file
stands for. A definition or a file without a name leaves it to the property. -/
inductive FromRef (scope : RefScope) (t : Tables) : String → Prop
  | definition {name : String} {v : Value} (named : name ≠ "")
      (found : definition? scope.root name = .ok (some v)) : FromRef scope t name
  | file {ref : String} {v : Value} (outer : isInner ref = false)
      (found : t.loaded.get? (scope.path ref) = some v) :
      FromRef scope t (Naming.capitalWords (Path.stem ref))
  | nameless {name : String} {v : Value}
      (found : definition? scope.root "" = .ok (some v) ∨
        ∃ ref, isInner ref = false ∧ t.loaded.get? (scope.path ref) = some v ∧
          Naming.capitalWords (Path.stem ref) = "") : FromRef scope t name

theorem FromRef.keep {name : String} (h : FromRef scope s.tables name) (later : Reference.Changes scope s s') :
    FromRef scope s'.tables name := by
  have hkept : ∀ {p v}, s.tables.loaded.get? p = some v → s'.tables.loaded.get? p = some v :=
    fun found => keep_of_steps (P := fun t => t.tables.loaded.get? _ = some _)
      (fun _ _ hc => hc.keeps_loaded) later found
  cases h with
  | definition named found => exact .definition named found
  | file outer found => exact .file outer (hkept found)
  | nameless found =>
    refine .nameless (found.imp id ?_)
    rintro ⟨ref, outer, found, hempty⟩
    exact ⟨ref, outer, hkept found, hempty⟩

theorem definition?_of_leadsTo (lead : scope.leadsTo (.str text) = .ok d) (hdef : isDefinition text) :
    ∃ v, definition? scope.root (Reference.lastName text) = .ok (some v) := by
  change destination scope.root _ text = .ok d at lead
  unfold destination at lead
  rw [if_pos hdef] at lead
  obtain ⟨found, hfound, lead⟩ := bind_ok lead
  cases found with
  | none => cases lead
  | some v => exact ⟨v, hfound⟩

theorem isDefinition_of_leadsTo (lead : scope.leadsTo (.str text) = .ok d) (inner : isInner text) :
    isDefinition text := by
  cases hdef : isDefinition text with
  | true => rfl
  | false =>
    change destination scope.root _ text = .ok d at lead
    unfold destination at lead
    rw [hdef, inner] at lead
    cases lead

theorem leadsTo_of_exec_resolve {v : Value}
    (h : exec (scope.resolve ref) s = (.ok v, s')) : ∃ d, scope.leadsTo ref = .ok d := by
  cases Reference.settled_of_exec_resolve h with
  | definition lead => exact ⟨_, lead⟩
  | file lead _ _ => exact ⟨_, lead⟩

theorem fromRef_of_ofNameOr {t : Tables}
    {type : GoType} (h : ofNameOr text name = .ok type) (named : text ≠ "" → FromRef scope t text)
    (nameless : text = "" → FromRef scope t type.base) : FromRef scope t type.base := by
  unfold ofNameOr at h
  split at h
  · next hempty => exact nameless (by simpa using hempty)
  · next hne =>
    cases h
    exact named (by simpa using hne)

theorem ofRef_base (h : exec (ofRef scope ref name) s = (.ok found, s')) : FromRef scope s'.tables found.1.base := by
  obtain ⟨target, s1, hresolve, hrun⟩ := exec_bind_ok h
  obtain ⟨text, htext, hname⟩ := exec_ask_ok hrun
  rw [Reference.textOf_eq_ok htext] at hresolve
  obtain ⟨d, hlead⟩ := leadsTo_of_exec_resolve hresolve
  split at hname
  · next hdef =>
    obtain ⟨v, hv⟩ := definition?_of_leadsTo hlead hdef
    obtain ⟨type, htype, hend⟩ := exec_ask_ok hname
    cases hend
    refine fromRef_of_ofNameOr htype (fun named => .definition named hv) fun hempty => ?_
    rw [hempty] at hv
    exact .nameless (.inl hv)
  · next hdef =>
    split at hname
    · next hinner => exact absurd (isDefinition_of_leadsTo hlead hinner) hdef
    · next houter =>
      have houter : isInner text = false := by simpa using houter
      have hloaded := Reference.loaded_of_resolved houter hresolve
      obtain ⟨t, s2, ht, hwords⟩ := exec_bind_ok hname
      cases ht
      split at hwords
      · cases hwords
        exact .file houter hloaded
      obtain ⟨type, htype, hend⟩ := exec_ask_ok hwords
      cases hend
      refine fromRef_of_ofNameOr htype (fun _ => .file houter hloaded) fun hempty => ?_
      exact .nameless (.inr ⟨text, houter, hloaded, hempty⟩)

/-! ## Names of objects -/

/-- The names for which a property asks by objects that it spells out: the property itself, its items,
its other values, and the last of the schemas that it is all of. -/
def objectNames (schema : Value) (name : Scalar) : List String :=
  let named :=
    if schema.field "type" = .ok (.str "object") ∧ schema.has "properties" = .ok true then
      (Naming.capitalWordsOf (.scalar name)).toOption.toList
    else []
  let all :=
    match schema.part "allOf" with
    | .error _ => []
    | .ok ⟨all, _⟩ =>
      match all.last with
      | .error _ => []
      | .ok ⟨last, _⟩ => objectNames last name
  let items :=
    match schema.part? "items" with
    | .ok (some ⟨items, _⟩) => objectNames items (.str (name.text ++ "Item"))
    | _ => []
  let values :=
    match schema.part? "additionalProperties" with
    | .ok (some ⟨more, _⟩) => objectNames more (.str "value")
    | _ => []
  named ++ all ++ items ++ values
termination_by schema.depth
decreasing_by all_goals omega

section ObjectNames

variable {schema : Value} {name : Scalar} {text : String}

theorem mem_objectNames_self (typed : schema.field "type" = .ok (.str "object"))
    (hprops : schema.has "properties" = .ok true)
    (named : Naming.capitalWordsOf (.scalar name) = .ok text) : text ∈ objectNames schema name := by
  rw [objectNames, if_pos ⟨typed, hprops⟩, named]
  simp [Except.toOption]

theorem mem_objectNames_last {all : Below schema} {last : Within all.val}
    (hall : schema.part "allOf" = .ok all) (hlast : all.val.last = .ok last)
    (h : text ∈ objectNames last.val name) : text ∈ objectNames schema name := by
  rw [objectNames, hall]
  simp only [hlast]
  simp [h]

theorem mem_objectNames_item {items : Below schema} (hitems : schema.part? "items" = .ok (some items))
    (h : text ∈ objectNames items.val (.str (name.text ++ "Item"))) : text ∈ objectNames schema name := by
  rw [objectNames, hitems]
  simp [h]

theorem mem_objectNames_value {more : Below schema} (hmore : schema.part? "additionalProperties" = .ok (some more))
    (h : text ∈ objectNames more.val (.str "value")) : text ∈ objectNames schema name := by
  rw [objectNames, hmore]
  simp [h]

end ObjectNames

/-! ## Where the name of a type comes from -/

/-- The name in the type is built in, comes from a reference, or is among the names. -/
def Named (scope : RefScope) (names : List String) (x : RefM (GoType × Value)) : Prop :=
  ∀ s found s', exec x s = (.ok found, s') →
    found.1.base ∈ builtIns ∨ FromRef scope s'.tables found.1.base ∨ found.1.base ∈ names

section Named

variable {scope : RefScope} {names : List String} {α : Type}

theorem named_pure (h : found.1.base ∈ builtIns ∨ found.1.base ∈ names) : Named scope names (pure found) := by
  intro s found' s' hrun
  cases hrun
  exact h.imp id .inr

theorem named_lift_bind {r : Except Fault α} {f : α → RefM (GoType × Value)}
    (h : ∀ a, r = .ok a → Named scope names (f a)) : Named scope names (liftM r >>= f) := by
  intro s found s' hrun
  obtain ⟨a, ha, hrest⟩ := exec_ask_ok hrun
  exact h a ha s found s' hrest

theorem named_ite {c : Prop} [Decidable c] {y : RefM (GoType × Value)}
    (hx : c → Named scope names x) (hy : Named scope names y) : Named scope names (if c then x else y) := by
  by_cases h : c
  · rw [if_pos h]
    exact hx h
  · rw [if_neg h]
    exact hy

theorem named_around (around : GoType → GoType) (schema : Value)
    (hbase : ∀ type, (around type).base = type.base) (h : Named scope names x) :
    Named scope names (x >>= fun p => pure (around p.1, schema)) := by
  intro s found s' hrun
  obtain ⟨inner, s1, hinner, hend⟩ := exec_bind_ok hrun
  cases hend
  rw [hbase]
  exact h s inner _ hinner

theorem named_mono {names' : List String} (h : Named scope names x)
    (hsub : ∀ text ∈ names, text ∈ names') : Named scope names' x := by
  intro s found s' hrun
  exact (h s found s' hrun).imp id (Or.imp id (hsub _))

theorem named_ofOwnRef {f : Option (GoType × Value) → RefM (GoType × Value)} (hsome : ∀ p, f (some p) = pure p)
    (hnone : Named scope names (f none)) : Named scope names (ofOwnRef (some scope) schema name >>= f) := by
  intro s found s' hrun
  obtain ⟨first, s1, hfirst, hrest⟩ := exec_bind_ok hrun
  obtain ⟨isRef, hisRef, hfirst⟩ := exec_ask_ok hfirst
  have hwithout : first = none → found.1.base ∈ builtIns ∨
      FromRef scope s'.tables found.1.base ∨ found.1.base ∈ names := by
    rintro rfl
    exact hnone s1 found s' hrest
  split at hfirst
  · cases hfirst
    exact hwithout rfl
  unfold RefM.recover at hfirst
  rw [exec_tryCatch] at hfirst
  split at hfirst
  · next p s2 htry =>
    obtain ⟨hp, rfl⟩ := Prod.mk.inj hfirst
    obtain rfl := Except.ok.inj hp
    obtain ⟨ref, href, hof⟩ := exec_ask_ok htry
    obtain ⟨p', s3, hp', hend⟩ := exec_bind_ok hof
    cases hend
    rw [hsome] at hrest
    cases hrest
    exact .inr (.inl (ofRef_base hp'))
  · -- the reference leads nowhere, which is reported
    split at hfirst
    · cases hfirst
      exact hwithout rfl
    · cases hfirst

end Named

theorem named_ofSchema (scope : RefScope) (schema : Value) (name : Scalar) :
    Named scope (objectNames schema name) (ofSchema (some scope) schema name) := by
  have hbuiltIn : ∀ {found : GoType × Value}, found.1.base ∈ builtIns →
      Named scope (objectNames schema name) (pure found) := fun h => named_pure (.inl h)
  have hany : any.base ∈ builtIns := by decide
  rw [ofSchema]
  refine named_ofOwnRef (fun _ => rfl) ?_
  dsimp only
  refine named_lift_bind fun hasOneOf _ => named_ite (fun _ => hbuiltIn hany) ?_
  refine named_lift_bind fun hasAnyOf _ => named_ite (fun _ => hbuiltIn hany) ?_
  refine named_lift_bind fun hasAllOf _ => named_ite (fun _ => ?allOf) ?_
  case allOf =>
    refine named_lift_bind fun ⟨all, hdepth⟩ hall => named_lift_bind fun ⟨last, hdepth'⟩ hlast => ?_
    have hlt : last.depth < schema.depth := Nat.lt_of_le_of_lt hdepth' hdepth
    exact named_mono (named_ofSchema scope last name) fun text => mem_objectNames_last hall hlast
  refine named_lift_bind fun hasNot _ => named_ite (fun _ => hbuiltIn hany) ?_
  refine named_lift_bind fun type htype => named_lift_bind fun format _ => ?_
  refine named_ite (fun _ => hbuiltIn (ofFormat_base format)) ?_
  refine named_ite (fun _ => hbuiltIn (show (GoType.name "int").base ∈ builtIns by decide)) ?_
  refine named_ite (fun _ => hbuiltIn (show (GoType.name "float32").base ∈ builtIns by decide)) ?_
  refine named_ite (fun _ => hbuiltIn (show (GoType.name "bool").base ∈ builtIns by decide)) ?_
  refine named_ite (fun _ => ?array) (named_ite (fun hobject => ?object) (hbuiltIn hany))
  case array =>
    refine named_lift_bind fun
      | none, _ => hbuiltIn (show (GoType.slice (.name "string")).base ∈ builtIns by decide)
      | some ⟨items, hdepth⟩, hitems => ?_
    refine named_around .slice schema (fun _ => rfl) ?_
    exact named_mono (named_ofSchema scope items _) fun text => mem_objectNames_item hitems
  case object =>
    have htyped : schema.field "type" = .ok (.str "object") := by
      rw [Value.eq_str_of_isStr hobject] at htype
      exact (Value.field_of_fieldD htype).resolve_right (by simp)
    refine named_lift_bind fun hasProperties hhas => named_ite (fun hprops => ?_) ?_
    · refine named_lift_bind fun type hname => ?_
      obtain ⟨text, htext, hend⟩ := bind_ok hname
      cases hend
      rw [hprops] at hhas
      exact named_pure (.inr (mem_objectNames_self htyped hhas htext))
    have hmap : (GoType.map any).base ∈ builtIns := hany
    refine named_lift_bind fun
      | none, _ => hbuiltIn hmap
      | some ⟨more, hdepth⟩, hmore => named_ite (fun _ => ?_) (hbuiltIn hmap)
    refine named_around .map schema (fun _ => rfl) ?_
    exact named_mono (named_ofSchema scope more _) fun text => mem_objectNames_value hmore
termination_by schema.depth
decreasing_by all_goals omega

end GoType

/-! ## Fields -/

namespace Go

open GoType

/-- The name in the type of a field: that of the enumeration which is declared for the property, or that
of the type of the property. -/
def NamedField (scope : RefScope) (t : Tables) (title : String) (property : Scalar × Value)
    (text : String) : Prop :=
  (property.2.has "enum" = .ok true ∧
    ∃ fieldName, Naming.fieldName (.scalar property.1) = .ok fieldName ∧ text = title ++ fieldName) ∨
  text ∈ builtIns ∨ FromRef scope t text ∨ text ∈ objectNames property.2 property.1

theorem NamedField.keep {scope : RefScope} {text : String}
    {property : Scalar × Value} (h : NamedField scope s.tables title property text)
    (later : Reference.Changes scope s s') : NamedField scope s'.tables title property text :=
  h.imp id (Or.imp id (Or.imp (fun hfrom => hfrom.keep later) id))

theorem field_named {x : Field} (h : exec (field (some scope) yaml title required name schema) s = (.ok x, s')) :
    NamedField scope s'.tables title (name, schema) x.type.base := by
  obtain ⟨fieldName, hfieldName, h1⟩ := exec_ask_ok h
  obtain ⟨type, s1, htype, h2⟩ := exec_bind_ok h1
  obtain ⟨isRequired, _, h3⟩ := exec_ask_ok h2
  obtain ⟨limits, _, h4⟩ := exec_ask_ok h3
  obtain ⟨description, _, h5⟩ := exec_ask_ok h4
  cases h5
  obtain ⟨isEnum, hisEnum, hrest⟩ := exec_ask_ok htype
  split at hrest
  · next henum =>
    cases hrest
    rw [henum] at hisEnum
    exact .inl ⟨hisEnum, fieldName, hfieldName, rfl⟩
  · obtain ⟨found, s2, hfound, hend⟩ := exec_bind_ok hrest
    cases hend
    exact .inr (named_ofSchema scope schema name s found _ hfound)

theorem fields_named {es : Entries} {xs : List Field}
    (h : exec (fields (some scope) yaml title required es) s = (.ok xs, s')) :
    ∀ x ∈ xs, ∃ property ∈ es, NamedField scope s'.tables title property x.type.base := by
  induction es generalizing s xs with
  | nil =>
    cases h
    exact nofun
  | cons e rest ih =>
    obtain ⟨first, s1, hfirst, h1⟩ := exec_bind_ok h
    obtain ⟨more, s2, hmore, h2⟩ := exec_bind_ok h1
    cases h2
    have hfollows : Follows (some scope) KindFault (fields (some scope) yaml title required rest) := inferInstance
    rintro x (_ | ⟨_, hx⟩)
    · exact ⟨e, .head _, (field_named hfirst).keep (hfollows.changes hmore)⟩
    · obtain ⟨property, hproperty, hnamed⟩ := ih hmore x hx
      exact ⟨property, .tail _ hproperty, hnamed⟩

theorem struct_fields {st : Struct} (h : exec (struct (some scope) yaml title schema) s = (.ok st, s')) :
    st.title = title ∧ ∀ x ∈ st.fields, ∃ property ∈ schema.entriesOf "properties",
      NamedField scope s'.tables title property x.type.base := by
  obtain ⟨description, _, h1⟩ := exec_ask_ok h
  obtain ⟨properties, hprops, h2⟩ := exec_ask_ok h1
  obtain ⟨nameWidth, _, h3⟩ := exec_ask_ok h2
  obtain ⟨typeWidth, s1, _, h4⟩ := exec_bind_ok h3
  obtain ⟨required, _, h5⟩ := exec_ask_ok h4
  obtain ⟨xs, s2, hxs, h6⟩ := exec_bind_ok h5
  cases h6
  rw [Value.entriesOf_eq hprops]
  exact ⟨rfl, fields_named hxs⟩

end Go

end Typewright
