import Typewright.Proofs.MessageFields
import Typewright.Proofs.ResolvingAgain

/-!
# Schemas of objects and primitive values

The schemas that have neither references nor choices, enumerations and lists, and those among them that
messages are always written for.
-/

namespace Typewright

open RefM Value

variable {more schema v : Value}

namespace Proto

/-! ## Parts of objects -/

/-- A part of an object that has a field: the name of the field, the key that its type is named after, and
its schema. -/
structure Part where
  field : String
  key : Scalar
  schema : Value

def fieldName (key : Scalar) : String :=
  match Naming.snakeOf (.scalar key) with
  | .ok name => name
  | .error _ => ""

def typeName (key : Scalar) : String :=
  match Naming.pascalOf (.scalar key) with
  | .ok name => name
  | .error _ => ""

/-- What an object says about additional properties, if it has any. -/
def additional (schema : Value) : Option Value :=
  match schema.field? "additionalProperties" with
  | .ok more => more.filter fun more => more.isTrue || more.isMap && more.truthy
  | .error _ => none

def Part.ofEntry (e : Scalar × Value) : Part :=
  ⟨fieldName e.1, e.1, e.2⟩

def Part.ofAdditional (more : Value) : Part :=
  ⟨"additional_properties", .str "value", more⟩

/-- The parts of an object: its properties, and then its additional ones. -/
def parts (schema : Value) : List Part :=
  (schema.entriesOf "properties").map .ofEntry ++ (additional schema).toList.map .ofAdditional

theorem additional_of_part? {part : Option (Below schema)} (h : schema.part? "additionalProperties" = .ok part) :
    additional schema = (part.map (·.val)).filter fun more => more.isTrue || more.isMap && more.truthy := by
  unfold additional Value.field?
  rw [h]
  rfl

theorem field_of_additional (h : additional schema = some more) : schema.field "additionalProperties" = .ok more := by
  unfold additional at h
  split at h
  · next found hfound =>
    refine field_of_field? (hfound.trans ?_)
    rw [(Option.filter_eq_some_iff.mp h).1]
  · cases h

theorem mem_parts_of_property {e : Scalar × Value} (h : e ∈ schema.entriesOf "properties") :
    Part.ofEntry e ∈ parts schema :=
  List.mem_append_left _ (List.mem_map_of_mem h)

theorem mem_parts_of_additional (h : additional schema = some more) : Part.ofAdditional more ∈ parts schema :=
  List.mem_append_right _ (List.mem_map_of_mem (Option.mem_toList.mpr h))

theorem depth_lt_of_mem_parts {part : Part} (h : part ∈ parts schema) : part.schema.depth < schema.depth := by
  rcases List.mem_append.mp h with h | h
  · obtain ⟨e, he, rfl⟩ := List.mem_map.mp h
    exact depth_lt_of_entriesAt (entriesAt_of_mem_entriesOf he) he
  · obtain ⟨more, hmore, rfl⟩ := List.mem_map.mp h
    exact depth_lt_of_field (field_of_additional (Option.mem_toList.mp hmore))

/-- The names of the types for the objects inside an object, in the order in which they are met. -/
def innerNames (schema : Value) : List String :=
  (parts schema).attach.flatMap fun ⟨part, _⟩ =>
    if part.schema.isOfType "object" then typeName part.key :: innerNames part.schema else []
termination_by schema.depth
decreasing_by exact depth_lt_of_mem_parts ‹_›

/-- The names of the types for a part and for the objects inside it. -/
def Part.names (part : Part) : List String :=
  if part.schema.isOfType "object" then typeName part.key :: innerNames part.schema else []

theorem innerNames_eq (schema : Value) : innerNames schema = (parts schema).flatMap Part.names := by
  rw [innerNames]
  show (parts schema).attach.flatMap (fun part => part.val.names) = _
  rw [← List.flatMap_map Subtype.val Part.names, List.attach_map_subtype_val]

/-- Whether the value is a map without references, choices, enumerations and lists. -/
def isUncombined (v : Value) : Bool :=
  v.isMap && ["oneOf", "anyOf", "allOf", "not", "$ref", "enum"].all (fun name => !v.isMapWith name) &&
    !v.isOfType "array"

theorem isUncombined_iff : isUncombined v ↔ v.isMap ∧
    (∀ name ∈ ["oneOf", "anyOf", "allOf", "not", "$ref", "enum"], v.has name = .ok false) ∧
      v.isOfType "array" = false := by
  rw [isUncombined, Bool.and_eq_true, Bool.and_eq_true, List.all_eq_true, and_assoc, Bool.not_eq_true']
  refine and_congr_right fun hmap => and_congr_left fun _ => forall₂_congr fun name _ => ?_
  rw [has_eq_isMapWith name hmap, Bool.not_eq_true', Except.ok.injEq]

/-- Whether the schema is one of objects with properties and of primitive values. -/
def isSimple (v : Value) : Bool :=
  isUncombined v && (!v.isOfType "object" || (!(v.entriesOf "properties").isEmpty &&
    (parts v).attach.all fun ⟨part, _⟩ => part.schema.isTrue || isSimple part.schema))
termination_by v.depth
decreasing_by exact depth_lt_of_mem_parts ‹_›

theorem isUncombined_of_isSimple (h : isSimple v) : isUncombined v := by
  rw [isSimple, Bool.and_eq_true] at h
  exact h.1

theorem isSimple_part {part : Part} (h : isSimple v) (hobject : v.isOfType "object") (hpart : part ∈ parts v) :
    part.schema.isTrue ∨ isSimple part.schema := by
  rw [isSimple, hobject] at h
  simp only [Bool.and_eq_true, Bool.not_true, Bool.false_or] at h
  have hall := List.all_eq_true.mp h.2.2 ⟨part, hpart⟩ (List.mem_attach _ _)
  exact Bool.or_eq_true_iff.mp hall

theorem hasProperties_of_isSimple {properties : Option Value} (h : isSimple v)
    (hobject : v.isOfType "object") (hprops : v.field? "properties" = .ok properties) :
    (properties.getD .empty).truthy := by
  rw [isSimple, hobject] at h
  simp only [Bool.and_eq_true, Bool.not_true, Bool.false_or] at h
  obtain ⟨e, he⟩ := List.exists_mem_of_ne_nil _ (by simpa using h.2.1)
  obtain ⟨group, hgroup, hentries⟩ := field_of_entriesAt (entriesAt_of_mem_entriesOf he) he
  obtain ⟨es, rfl, found⟩ := field_eq_ok hgroup
  rw [Value.field?_map, found] at hprops
  cases hprops
  cases group with
  | map entries =>
    cases hentries
    exact h.2.1
  | _ => cases hentries

def isSimpleObject (v : Value) : Bool :=
  isUncombined v && v.isOfType "object" &&
    (parts v).all fun part => part.schema.isTrue || isSimple part.schema

/-! ## Tidy schemas -/

def isListOfTexts : Value → Bool
  | .list items => items.all isText
  | _ => false

/-- Whether the properties of a schema are maps with texts for keys, its description is a text, and its
required properties are listed by name. -/
def isTidyHere (v : Value) : Bool :=
  v.partIs Value.isMapOfMaps "properties" &&
    (v.entriesOf "properties").all (fun e => (Value.scalar e.1).isText) &&
    v.partIs isText "description" && v.partIs isListOfTexts "required"

def isTidy (v : Value) : Bool :=
  isTidyHere v && (parts v).attach.all fun ⟨part, _⟩ => part.schema.isTrue || isTidy part.schema
termination_by v.depth
decreasing_by exact depth_lt_of_mem_parts ‹_›

/-- Whether a schema is tidy, and so is what only the schema of a file has: its title is a text, and it has no
definitions. -/
def isTidyFile (v : Value) : Bool :=
  isTidy v && v.partIs isText "title" && !v.isMapWith "definitions"

theorem not_isTrue_of_isMap (h : v.isMap) : ¬ v.isTrue := by
  cases v with
  | map es => nofun
  | _ => cases h

theorem isTidyHere_of_isTidy (h : isTidy v) : isTidyHere v := by
  rw [isTidy, Bool.and_eq_true] at h
  exact h.1

theorem isTidy_part {part : Part} (h : isTidy v) (hpart : part ∈ parts v)
    (hmap : part.schema.isMap) : isTidy part.schema := by
  rw [isTidy, Bool.and_eq_true] at h
  have hall := List.all_eq_true.mp h.2 ⟨part, hpart⟩ (List.mem_attach _ _)
  exact (Bool.or_eq_true_iff.mp hall).resolve_left (not_isTrue_of_isMap hmap)

theorem eq_str_of_isText (h : v.isText) : ∃ text, v = .str text := by
  unfold isText at h
  split at h
  · exact ⟨_, rfl⟩
  · cases h

theorem fieldD_of_partIs {test : Value → Bool} {name : String} (default : Value)
    (hmap : v.isMap) (h : v.partIs test name) (hdefault : test default) :
    ∃ w, v.fieldD name default = .ok w ∧ test w := by
  cases v with
  | map es =>
    refine ⟨_, fieldD_map es name default, ?_⟩
    change (Entries.find? es (.str name)).all test = true at h
    cases hfound : Entries.find? es (.str name) with
    | none => exact hdefault
    | some w =>
      rw [hfound] at h
      exact h
  | _ => cases hmap

theorem mapM_asMember_eq_ok {items : List Value} (h : items.all isText) :
    ∃ found, items.mapM Value.asMember = .ok found := by
  induction items with
  | nil => exact ⟨[], rfl⟩
  | cons item rest ih =>
    rw [List.all_cons, Bool.and_eq_true] at h
    obtain ⟨text, rfl⟩ := eq_str_of_isText h.1
    obtain ⟨found, hfound⟩ := ih h.2
    refine ⟨some (.str text) :: found, ?_⟩
    rw [List.mapM_cons, hfound]
    rfl

theorem members_of_isListOfTexts (h : isListOfTexts v) : ∃ members, v.members = .ok members := by
  cases v with
  | list items =>
    obtain ⟨found, hfound⟩ := mapM_asMember_eq_ok h
    refine ⟨found.filterMap id, ?_⟩
    show (items.mapM Value.asMember >>= _) = _
    rw [hfound]
    rfl
  | _ => cases h

theorem entries_of_isMapOfMaps (h : v.isMapOfMaps) : ∃ es, v.entries = .ok es ∧ ∀ e ∈ es, e.2.isMap := by
  cases v with
  | map es => exact ⟨es, rfl, List.all_eq_true.mp h⟩
  | _ => cases h

theorem isMap_of_entries {es : Entries} (h : v.entries = .ok es) : v.isMap := by
  cases v with
  | map es => rfl
  | _ => cases h

/-- What a tidy schema can be asked for. -/
structure Answers (v : Value) : Prop where
  isMap : v.isMap = true
  described : ∃ said comment, v.fieldD "description" (.str "") = .ok said ∧ said.trimmed = .ok comment
  required : ∃ listed members, v.fieldD "required" (.list []) = .ok listed ∧ listed.members = .ok members
  properties : v.entriesAt "properties" = .ok (v.entriesOf "properties")
  property : ∀ e ∈ v.entriesOf "properties", (∃ text, e.1 = .str text) ∧ e.2.isMap = true

theorem answers_of_isTidyHere (hmap : v.isMap) (h : isTidyHere v) : Answers v := by
  simp only [isTidyHere, Bool.and_eq_true] at h
  obtain ⟨⟨⟨hprops, hkeys⟩, hdesc⟩, hrequired⟩ := h
  obtain ⟨said, hsaid, htext⟩ := fieldD_of_partIs (.str "") hmap hdesc rfl
  obtain ⟨listed, hlisted, htexts⟩ := fieldD_of_partIs (.list []) hmap hrequired rfl
  obtain ⟨group, hgroup, hmaps⟩ := fieldD_of_partIs .empty hmap hprops rfl
  obtain ⟨text, rfl⟩ := eq_str_of_isText htext
  obtain ⟨members, hmembers⟩ := members_of_isListOfTexts htexts
  obtain ⟨es, hes, hall⟩ := entries_of_isMapOfMaps hmaps
  have hentries : v.entriesAt "properties" = .ok es := by
    unfold Value.entriesAt
    rw [hgroup]
    exact hes
  refine ⟨hmap, ⟨_, _, hsaid, rfl⟩, ⟨_, _, hlisted, hmembers⟩, ?_, fun e he => ?_⟩
  · rw [entriesOf_eq hentries, hentries]
  · obtain ⟨text, htext⟩ := eq_str_of_isText (List.all_eq_true.mp hkeys e he)
    rw [entriesOf_eq hentries] at he
    exact ⟨⟨text, Value.scalar.inj htext⟩, hall e he⟩

/-! ## Types that are found -/

section Types

open SeenM

variable {scope : Option RefScope} {schema : Value}

theorem ofOwnRef_eq_none {key : Scalar} (h : schema.has "$ref" = .ok false) :
    ofOwnRef scope schema key = pure none := by
  unfold ofOwnRef
  rw [h]
  rfl

theorem pascalOf_str (text : String) : ∃ name, Naming.pascalOf (.str text) = .ok name := by
  unfold Naming.pascalOf
  split
  · exact ⟨_, rfl⟩
  · exact ⟨_, rfl⟩

theorem fieldD_of_isMap (name : String) (default : Value) (hmap : v.isMap) : ∃ w, v.fieldD name default = .ok w := by
  obtain ⟨found, hfound⟩ := field?_of_isMap name hmap
  unfold Value.fieldD
  rw [hfound]
  exact ⟨_, rfl⟩

theorem key_of_mem_parts {part : Part} (h : Answers schema) (hpart : part ∈ parts schema) :
    ∃ text, part.key = .str text := by
  rcases List.mem_append.mp hpart with hpart | hpart
  · obtain ⟨e, he, rfl⟩ := List.mem_map.mp hpart
    exact (h.property e he).1
  · obtain ⟨more, _, rfl⟩ := List.mem_map.mp hpart
    exact ⟨"value", rfl⟩

theorem succeeds_slots {owner : Value} {entries : List (Scalar × Below owner)} (number : Nat)
    (h : ∀ e ∈ entries, Answers e.2.val ∧ (∃ text, e.1 = .str text) ∧ Succeeds (fieldType scope e.2.val e.1)) :
    Succeeds (slots (fun property name => fieldType scope property.val name) number entries) := by
  induction entries generalizing number with
  | nil =>
    unfold slots
    exact .pure _
  | cons e rest ih =>
    obtain ⟨hanswers, ⟨text, hkey⟩, htype⟩ := h e (.head _)
    obtain ⟨said, comment, hsaid, hcomment⟩ := hanswers.described
    have hsnake : Naming.snakeOf (.scalar e.1) = .ok (Naming.snake text) := by
      rw [hkey]
      rfl
    unfold slots
    refine .of_bind htype fun type => .of_known hsaid (.of_known hcomment (.of_known hsnake ?_))
    exact .of_bind (ih _ fun e he => h e (.tail _ he)) fun more => .pure _

theorem succeeds_ownSlots (hanswers : Answers schema) (h : ∀ part ∈ parts schema, part.schema.isMap →
      Answers part.schema ∧ Succeeds (fieldType scope part.schema part.key)) : Succeeds (ownSlots scope schema) := by
  obtain ⟨part, hpart⟩ := Value.part?_of_isMap "properties" hanswers.isMap
  unfold ownSlots
  refine .of_known hpart ?_
  cases part with
  | none => exact .pure _
  | some group =>
    have hgroup := (entriesAt_of_field (field_of_part? hpart)).symm.trans hanswers.properties
    obtain ⟨entries, hentries⟩ := entriesBelow_of_isMap (isMap_of_entries hgroup)
    refine .of_known hentries (succeeds_slots 1 fun e he => ?_)
    have hmem : (e.1, e.2.val) ∈ schema.entriesOf "properties" := by
      rw [entriesOf_of_part? hpart hentries]
      exact List.mem_map_of_mem he
    obtain ⟨hkey, hmap⟩ := hanswers.property _ hmem
    obtain ⟨hinner, htype⟩ := h (.ofEntry (e.1, e.2.val)) (mem_parts_of_property hmem) hmap
    exact ⟨hinner, hkey, htype⟩

theorem succeeds_moreSlots (number : Nat) (hmap : schema.isMap) (h : ∀ part ∈ parts schema, part.schema.isMap →
      Answers part.schema ∧ Succeeds (fieldType scope part.schema part.key)) :
    Succeeds (moreSlots scope schema number) := by
  obtain ⟨part, hpart⟩ := Value.part?_of_isMap "additionalProperties" hmap
  unfold moreSlots
  refine .of_known hpart ?_
  cases part with
  | none => exact .pure _
  | some more =>
    refine .of_ite (fun _ => .pure _) fun _ => .of_ite (fun hmore => ?_) fun _ => .pure _
    have hadditional : additional schema = some more.val := by
      rw [additional_of_part? hpart, Option.map_some, Option.filter_some, hmore, Bool.or_true]
      rfl
    rw [Bool.and_eq_true] at hmore
    obtain ⟨_, htype⟩ := h (.ofAdditional more.val) (mem_parts_of_additional hadditional) hmore.1
    exact .of_bind htype fun value => .pure _

theorem succeeds_message (name : String) (hanswers : Answers schema) (h : ∀ part ∈ parts schema, part.schema.isMap →
      Answers part.schema ∧ Succeeds (fieldType scope part.schema part.key)) :
    Succeeds (message scope schema name) := by
  obtain ⟨said, comment, hsaid, hcomment⟩ := hanswers.described
  obtain ⟨listed, members, hlisted, hmembers⟩ := hanswers.required
  unfold message
  refine .of_bind (.mark _) fun _ => .of_known hsaid (.of_known hcomment (.of_known hlisted ?_))
  rw [hmembers]
  refine .of_bind (.pure ()) fun _ => .of_bind (succeeds_ownSlots hanswers h) fun own => ?_
  exact .of_bind (succeeds_moreSlots _ hanswers.isMap h) fun more => .pure _

mutual

theorem succeeds_fieldType (schema : Value) {key : Scalar} (hkey : ∃ text, key = .str text)
    (hsimple : isSimple schema) (htidy : isTidy schema) : Succeeds (fieldType scope schema key) := by
  obtain ⟨hmap, hno, harray⟩ := isUncombined_iff.mp (isUncombined_of_isSimple hsimple)
  have hanswers := answers_of_isTidyHere hmap (isTidyHere_of_isTidy htidy)
  obtain ⟨kind, hkind⟩ := field?_of_isMap "type" hmap
  obtain ⟨text, rfl⟩ := hkey
  rw [fieldType]
  -- all branches in front of the one for objects ask for something that a simple schema does not have
  refine .of_no (hno "oneOf" (by decide)) (.of_no (hno "anyOf" (by decide)) ?_)
  refine .of_no (hno "allOf" (by decide)) (.of_no (hno "not" (by decide)) ?_)
  refine .of_lift_pure (ofOwnRef_eq_none (hno "$ref" (by decide))) (.of_known hkind ?_)
  refine .of_ite (fun hlist => ?_) fun _ => .of_no (hno "enum" (by decide)) ?_
  · rw [isStr_of_field? hkind, harray] at hlist
    cases hlist
  refine .of_ite (fun hobject => ?_) fun _ => ?_
  · rw [isStr_of_field? hkind] at hobject
    obtain ⟨name, hname⟩ := pascalOf_str text
    obtain ⟨properties, hprops⟩ := field?_of_isMap "properties" hmap
    obtain ⟨said, comment, hsaid, _⟩ := hanswers.described
    have hmessage : Succeeds (message scope schema name) :=
      succeeds_object schema name hmap htidy fun part => isSimple_part hsimple hobject
    refine .of_known hname (.of_known hprops ?_)
    refine .of_bind (.isSeen _) fun isSeen => .of_ite (fun _ => .pure _) fun _ => .of_known hsaid ?_
    exact .of_ite (fun _ => .of_bind hmessage fun m => .pure _) fun _ => .pure _
  · obtain ⟨format, hformat⟩ := fieldD_of_isMap "format" (.str "") hmap
    exact .of_known hformat (.pure _)
termination_by 2 * schema.depth + 1

theorem succeeds_object (schema : Value) (name : String) (hmap : schema.isMap) (htidy : isTidy schema)
    (hparts : ∀ part ∈ parts schema, part.schema.isTrue ∨ isSimple part.schema) :
    Succeeds (message scope schema name) := by
  have hanswers := answers_of_isTidyHere hmap (isTidyHere_of_isTidy htidy)
  refine succeeds_message name hanswers fun part hpart hinner => ?_
  have hsimple := (hparts part hpart).resolve_left (not_isTrue_of_isMap hinner)
  have htidy := isTidy_part htidy hpart hinner
  refine ⟨answers_of_isTidyHere hinner (isTidyHere_of_isTidy htidy), ?_⟩
  exact succeeds_fieldType part.schema (key_of_mem_parts hanswers hpart) hsimple htidy
termination_by 2 * schema.depth
decreasing_by
  have := depth_lt_of_mem_parts hpart
  omega

end

end Types

/-! ## Files that are written -/

section Files

variable {schema : Value} {es : Entries}

theorem propertyImports_eq_ok (hasScope : Bool) (schema : Value) (h : ∀ e ∈ es, isUncombined e.2) :
    ∃ found, propertyImports hasScope schema es = .ok found := by
  induction es with
  | nil => exact ⟨[], rfl⟩
  | cons e rest ih =>
    obtain ⟨hmap, hno, _⟩ := isUncombined_iff.mp (h e (.head _))
    obtain ⟨format, hformat⟩ := field?_of_isMap "format" hmap
    obtain ⟨found, hfound⟩ := ih fun e he => h e (.tail _ he)
    unfold propertyImports
    rw [hformat, hno "$ref" (by decide), hfound]
    exact ⟨_, rfl⟩

theorem wrapperImports_eq_ok (h : ∀ e ∈ es, e.2.isMap) : ∃ found, wrapperImports es = .ok found := by
  induction es with
  | nil => exact ⟨[], rfl⟩
  | cons e rest ih =>
    obtain ⟨format, hformat⟩ := field?_of_isMap "format" (h e (.head _))
    unfold wrapperImports isWrapped
    rw [hformat]
    show ∃ found, (if (format.getD .null).isOneOf wrapperFormats = true then _ else wrapperImports rest) =
      .ok found
    split
    · exact ⟨_, rfl⟩
    · exact ih fun e he => h e (.tail _ he)

theorem fileImports_eq_ok (hasScope : Bool) (schema : Value) (h : ∀ e ∈ es, isUncombined e.2) :
    ∃ found, fileImports hasScope schema es = .ok found := by
  induction es with
  | nil => exact ⟨[], rfl⟩
  | cons e rest ih =>
    obtain ⟨hmap, hno, harray⟩ := isUncombined_iff.mp (h e (.head _))
    obtain ⟨kind, hkind⟩ := field?_of_isMap "type" hmap
    obtain ⟨found, hfound⟩ := ih fun e he => h e (.tail _ he)
    have hitem : itemImport schema e.2 = .ok [] := by
      unfold itemImport
      rw [hkind]
      show (if (!(kind.getD .null).isStr "array") = true then _ else _) = _
      rw [isStr_of_field? hkind, harray]
      rfl
    unfold fileImports
    rw [hno "$ref" (by decide), hitem, hfound]
    exact ⟨_, rfl⟩

theorem allImports_eq_ok (hasScope : Bool) (more : List String) (h : Answers schema)
    (hprops : ∀ e ∈ schema.entriesOf "properties", isUncombined e.2) :
    ∃ found, allImports hasScope schema more = .ok found := by
  obtain ⟨formats, hformats⟩ := propertyImports_eq_ok hasScope schema hprops
  obtain ⟨wrappers, hwrappers⟩ := wrapperImports_eq_ok fun e he => (h.property e he).2
  obtain ⟨files, hfiles⟩ := fileImports_eq_ok hasScope schema hprops
  obtain ⟨group, hgroup⟩ := fieldD_of_isMap "properties" .null h.isMap
  obtain ⟨htruthy, hentries⟩ := entries_of_fieldD_null h.properties hgroup
  have hrequired : requiredImports hasScope schema = .ok (Text.sortedSet (formats ++ wrappers)) := by
    unfold requiredImports
    rw [h.properties, Outcome.ok_bind, hformats, hwrappers]
    rfl
  unfold allImports
  rw [hrequired, Outcome.ok_bind, hgroup, Outcome.ok_bind]
  dsimp only
  -- the properties are asked for once more, with nothing in their place, if there are any
  split
  · next hsome =>
    rw [htruthy, Bool.not_eq_true'] at hsome
    rw [hentries hsome, Outcome.ok_bind, hfiles]
    exact ⟨_, rfl⟩
  · exact ⟨_, rfl⟩

theorem rootName_eq_ok (hmap : schema.isMap) (htitle : schema.partIs isText "title") :
    ∃ name, rootName schema = .ok name := by
  obtain ⟨found, hfound⟩ := field?_of_isMap "title" hmap
  unfold rootName
  rw [hfound, Outcome.ok_bind]
  dsimp only
  split
  · cases found with
    | none => exact pascalOf_str ""
    | some title =>
      obtain ⟨text, rfl⟩ := eq_str_of_isText (of_partIs htitle (field_of_field? hfound))
      exact pascalOf_str text
  · exact pascalOf_str "Root"

theorem isSimpleObject_iff : isSimpleObject schema ↔ isUncombined schema ∧ schema.isOfType "object" ∧
      ∀ part ∈ parts schema, part.schema.isTrue ∨ isSimple part.schema := by
  simp only [isSimpleObject, Bool.and_eq_true, List.all_eq_true, Bool.or_eq_true, and_assoc]

theorem succeeds_declarations (scope : Option RefScope) (hobject : isSimpleObject schema)
    (htidy : isTidyFile schema) : SeenM.Succeeds (declarations scope schema) := by
  obtain ⟨huncombined, htype, hparts⟩ := isSimpleObject_iff.mp hobject
  obtain ⟨hmap, hno, _⟩ := isUncombined_iff.mp huncombined
  simp only [isTidyFile, Bool.and_eq_true, Bool.not_eq_true'] at htidy
  obtain ⟨⟨htidy, htitle⟩, hdefs⟩ := htidy
  obtain ⟨name, hname⟩ := rootName_eq_ok hmap htitle
  obtain ⟨kind, hkind⟩ := field?_of_isMap "type" hmap
  have hroot : SeenM.Succeeds (rootDeclaration scope schema) := by
    unfold rootDeclaration
    refine .of_known hname (.of_no (hno "enum" (by decide)) (.of_known hkind ?_))
    exact .of_ite (fun _ => .of_bind (succeeds_object schema name hmap htidy hparts) fun m => .pure _) fun _ => .pure _
  unfold declarations
  refine .of_bind hroot fun root => .of_known (has_eq_isMapWith "definitions" hmap) ?_
  rw [hdefs]
  exact .pure _

theorem sourceFile_eq_ok (package : String) (goPackage : Option String) (more : List String) {r : Request}
    (s : RefState) (hobject : isSimpleObject r.schema) (htidy : isTidyFile r.schema) :
    ∃ text s', exec (sourceFile package goPackage more r) s = (.ok text, s') := by
  obtain ⟨huncombined, _, hparts⟩ := isSimpleObject_iff.mp hobject
  obtain ⟨declared, seen, s', hdeclared⟩ := succeeds_declarations r.scope hobject htidy [] s
  simp only [isTidyFile, Bool.and_eq_true] at htidy
  have hanswers := answers_of_isTidyHere (isUncombined_iff.mp huncombined).1 (isTidyHere_of_isTidy htidy.1.1)
  have hprops : ∀ e ∈ r.schema.entriesOf "properties", isUncombined e.2 := by
    intro e he
    have hmap := (hanswers.property e he).2
    have hsimple := (hparts _ (mem_parts_of_property he)).resolve_left (not_isTrue_of_isMap hmap)
    exact isUncombined_of_isSimple hsimple
  obtain ⟨imports, himports⟩ := allImports_eq_ok r.scope.isSome more hanswers hprops
  have hfile : exec (fileOf package goPackage more r) s = (.ok ⟨package, goPackage, imports, declared⟩, s') := by
    unfold fileOf
    rw [himports]
    exact exec_bind_of_ok hdeclared
  exact ⟨_, s', exec_bind_of_ok hfile⟩

end Files

end Proto

end Typewright
