import Typewright.Proofs.ProtoBraces
import Typewright.Proofs.SimpleSchemas

/-!
# Types from other files

Four types that fields can have are declared in files of their own. The imports are chosen by the formats of the
properties of the schema, the types wherever a field type is asked for.
-/

namespace Typewright

open RefM Text Value

variable {format v : Value} {c : Char} {type : String} {entries : Entries} {hasScope : Bool}
  {imports : List String} {seen seen' : List Scalar} {s s' : RefState}

namespace Value

def hasFormat (v : Value) (formats : List String) : Bool :=
  match v.field? "format" with
  | .ok format => (format.getD .null).isOneOf formats
  | .error _ => false

/-- Whether a name is found in a value: as a key of a map, or in a text. -/
def mentions (v : Value) (name : String) : Bool :=
  match v.has name with
  | .ok found => found
  | .error _ => false

/-- Whether a value has nothing under a key, although it has the key. -/
def isVacant (v : Value) (name : String) : Bool :=
  match v.field name with
  | .ok w => !w.truthy
  | .error _ => false

end Value

namespace Proto

/-- The types that are declared in files of their own. -/
inductive WellKnown where
  | timestamp
  | duration
  | any
  | stringValue
deriving DecidableEq, Repr

namespace WellKnown

def name : WellKnown → String
  | .timestamp => "google.protobuf.Timestamp"
  | .duration => "google.protobuf.Duration"
  | .any => "google.protobuf.Any"
  | .stringValue => "google.protobuf.StringValue"

def file : WellKnown → String
  | .timestamp => "google/protobuf/timestamp.proto"
  | .duration => "google/protobuf/duration.proto"
  | .any => "google/protobuf/any.proto"
  | .stringValue => "google/protobuf/wrappers.proto"

/-- The formats of a property for which the file is imported. -/
def formats : WellKnown → List String
  | .timestamp => ["date-time", "date", "time"]
  | .duration => ["duration"]
  | .any => ["any"]
  | .stringValue => wrapperFormats

def isChosenFor (w : WellKnown) (v : Value) : Bool :=
  match w with
  | .timestamp => v.isOfType "string" && v.hasFormat ["date-time", "date"]
  | .duration => v.isOfType "string" && v.hasFormat ["duration"]
  | .any => v.mentions "not" || ["oneOf", "anyOf", "allOf"].any v.isVacant
  | .stringValue => v.isOfType "null"

end WellKnown

/-! ## Values whose field type is asked for -/

/-- `Asks v w`: to find the field type of `v`, that of `w` may have to be found. -/
inductive Asks : Value → Value → Prop
  | self {v : Value} : Asks v v
  | first {v options option w : Value} {name : String} (named : name ∈ ["oneOf", "anyOf"])
      (given : v.field name = .ok options) (picked : options.itemAt List.head? 0 = .ok option)
      (rest : Asks option w) : Asks v w
  | last {v parts part w : Value} (given : v.field "allOf" = .ok parts)
      (picked : parts.itemAt List.getLast? (-1) = .ok part) (rest : Asks part w) : Asks v w
  | items {v items w : Value} (typed : v.isOfType "array" = true) (given : v.field "items" = .ok items)
      (rest : Asks items w) : Asks v w
  | property {v w : Value} {properties : Entries} {e : Scalar × Value} (typed : v.isOfType "object" = true)
      (given : v.entriesAt "properties" = .ok properties) (mem : e ∈ properties) (rest : Asks e.2 w) : Asks v w
  | additional {v more w : Value} (typed : v.isOfType "object" = true)
      (given : v.field "additionalProperties" = .ok more) (rest : Asks more w) : Asks v w

/-- The values whose field type may have to be found for the message of an object. -/
inductive MessageAsks : Value → Value → Prop
  | property {v w : Value} {properties : Entries} {e : Scalar × Value}
      (given : v.entriesAt "properties" = .ok properties) (mem : e ∈ properties) (rest : Asks e.2 w) :
      MessageAsks v w
  | additional {v more w : Value} (given : v.field "additionalProperties" = .ok more) (rest : Asks more w) :
      MessageAsks v w

/-- The values whose field type may have to be found for the file of a schema. -/
inductive FileAsks : Value → Value → Prop
  | root {v w : Value} (typed : v.isOfType "object" = true) (rest : MessageAsks v w) : FileAsks v w
  | definition {v w : Value} {definitions : Entries} {e : Scalar × Value}
      (given : v.entriesAt "definitions" = .ok definitions) (mem : e ∈ definitions)
      (typed : e.2.isOfType "object" = true) (rest : MessageAsks e.2 w) : FileAsks v w

theorem MessageAsks.asks {w : Value} (typed : v.isOfType "object") (h : MessageAsks v w) : Asks v w := by
  cases h with
  | property given mem rest => exact .property typed given mem rest
  | additional given rest => exact .additional typed given rest

/-! ## Types that are used -/

def mapOf (type : String) : String :=
  "map<string, " ++ type ++ ">"

mutual

def Message.types : Message → List String
  | .mk _ _ slots => slotTypes slots

/-- The types of fields in a row. -/
def slotTypes : List Slot → List String
  | [] => []
  | slot :: rest => slot.types ++ slotTypes rest

/-- The type of a field, after those in what is declared for it. -/
def Slot.types : Slot → List String
  | .mk none field => [field.type]
  | .mk (some declaration) field => declaration.types ++ [field.type]

def Declaration.types : Declaration → List String
  | .message m => m.types
  | .object _ m => m.types
  | .listOf _ item => [item]
  | _ => []

end

def SourceFile.types (f : SourceFile) : List String :=
  f.declarations.flatMap Declaration.types

def SourceFile.Uses (f : SourceFile) (type : String) : Prop :=
  type ∈ f.types ∨ mapOf type ∈ f.types

theorem slotTypes_eq (slots : List Slot) : slotTypes slots = slots.flatMap Slot.types := by
  induction slots with
  | nil => rfl
  | cons slot rest ih =>
    show slot.types ++ slotTypes rest = _
    rw [ih, List.flatMap_cons]

/-! ## Names of types that are declared here -/

theorem isLower_of_mem_upperChar {d : Char} (h : d ∈ upperChar c) : d.isLower = false := by
  rw [Bool.eq_false_iff]
  intro hlower
  have hplace : d.toNat ∈ List.range' 97 26 := by
    rw [isLower_iff_toNat] at hlower
    rw [List.mem_range'_1]
    exact ⟨hlower.1, Nat.lt_succ_of_le hlower.2⟩
  have hpos : 0 < d.toNat := Nat.lt_of_lt_of_le (by decide) (List.mem_range'_1.mp hplace).1
  unfold upperChar at h
  split_ifs at h with hlt
  · -- ASCII: a small letter is raised, and anything else is not a small letter
    rw [List.mem_singleton.mp h] at hlower
    have hc : c.toUpper.isLower = false := forall_ascii (by decide +kernel) hlt
    cases hc.symm.trans hlower
  split at h
  · next cs hcs =>
    obtain ⟨e, he, rfl⟩ := Option.map_eq_some_iff.mp hcs
    obtain ⟨m, hm, hd⟩ := List.mem_map.mp h
    have hlong : ∀ e ∈ upperLong, ∀ n ∈ e.2, n ∉ List.range' 97 26 := by decide +kernel
    rw [toNat_of_ofNat_eq hpos hd] at hm
    exact hlong e (List.mem_of_find?_eq_some he) _ hm hplace
  cases hlookup : CaseRun.lookup upperRuns c.toNat with
  | none =>
    rw [hlookup] at h
    rw [List.mem_singleton.mp h] at hplace
    exact hlt (Nat.lt_trans (List.mem_range'_1.mp hplace).2 (by decide))
  | some m =>
    rw [hlookup] at h
    obtain ⟨r, hr, hcovers, rfl⟩ := CaseRun.lookup_eq_some hlookup
    have hruns : ∀ r ∈ upperRuns, ∀ n ∈ List.range' 97 26, r.misses n = true := by decide +kernel
    have hd := toNat_of_ofNat_eq hpos (List.mem_singleton.mp h).symm
    exact CaseRun.apply_ne_of_misses hpos (hruns r hr _ hplace) hcovers hd

theorem upperChar_ne_nil (c : Char) : upperChar c ≠ [] := by
  unfold upperChar
  split_ifs
  · nofun
  split
  · next cs hcs =>
    obtain ⟨e, he, rfl⟩ := Option.map_eq_some_iff.mp hcs
    have hlong : ∀ e ∈ upperLong, e.2 ≠ [] := by decide +kernel
    simpa using hlong e (List.mem_of_find?_eq_some he)
  · nofun

/-- The text does not start with a small letter of ASCII. -/
def Raised (text : String) : Prop :=
  ∀ c ∈ text.toList.head?, c.isLower = false

namespace Raised

variable {text : String}

theorem pascal (name : String) : Raised (Naming.pascal name) := by
  unfold Raised Naming.pascal
  rw [String.toList_ofList]
  generalize splitChars '_' (name.toList.map fun c => if c = '-' then '_' else c) = pieces
  induction pieces with
  | nil => nofun
  | cons piece rest ih =>
    cases piece with
    | nil => exact ih
    | cons c more =>
      obtain ⟨d, others, hupper⟩ := List.exists_cons_of_ne_nil (upperChar_ne_nil c)
      rw [List.flatMap_cons, upperFirstChars, hupper]
      intro e he
      obtain rfl : d = e := Option.some.inj he
      exact isLower_of_mem_upperChar (hupper ▸ List.mem_cons_self)

theorem of_pascalOf {name : String} (h : Naming.pascalOf v = .ok name) : Raised name := by
  unfold Naming.pascalOf at h
  split_ifs at h
  · cases h
    nofun
  · obtain ⟨text, _, hend⟩ := bind_ok h
    cases hend
    exact pascal text

theorem of_head? (h : text.toList.head? = some c) (hc : c.isLower = false) : Raised text := by
  intro d hd
  cases h.symm.trans hd
  exact hc

theorem append (h : Raised text) {suffix : String} (hsuffix : Raised suffix) : Raised (text ++ suffix) := by
  unfold Raised at h ⊢
  rw [String.toList_append]
  cases hchars : text.toList with
  | nil => exact hsuffix
  | cons c rest =>
    rw [hchars] at h
    exact h

theorem of_enumNameOf {name : Scalar} {enumName : String} (h : enumNameOf name = .ok enumName) : Raised enumName := by
  obtain ⟨base, hbase, hend⟩ := bind_ok h
  cases hend
  split_ifs
  · exact of_pascalOf hbase
  · exact (of_pascalOf hbase).append (of_head? (c := 'E') (by decide) (by decide))

theorem ne_name (h : Raised text) (w : WellKnown) : text ≠ w.name := by
  rintro rfl
  have hg := h 'g' (by cases w <;> decide)
  revert hg
  decide

theorem ne_mapOf (h : Raised text) (type : String) : text ≠ mapOf type := by
  rintro rfl
  have hm := h 'm' (by simp [mapOf])
  revert hm
  decide

end Raised

/-! ## Where types come from -/

def Traced (Source : WellKnown → Prop) (types : List String) : Prop :=
  ∀ w : WellKnown, w.name ∈ types ∨ mapOf w.name ∈ types → Source w

structure FieldType.Traced (Source : WellKnown → Prop) (t : FieldType) : Prop where
  type : ∀ w : WellKnown, t.type = w.name → Source w
  single : ∀ type, t.type ≠ mapOf type
  declared : ∀ d, t.nested = some d → Proto.Traced Source d.types

section Traced

variable {Source : WellKnown → Prop} {types types' : List String}

theorem Traced.nil : Traced Source [] := by
  rintro w (h | h) <;> cases h

theorem Traced.append (h : Traced Source types) (h' : Traced Source types') : Traced Source (types ++ types') := by
  intro w
  rw [List.mem_append, List.mem_append, or_or_or_comm]
  exact fun hmem => hmem.elim (h w) (h' w)

theorem Traced.flatMap {α : Type} {xs : List α} {f : α → List String} (h : ∀ x ∈ xs, Traced Source (f x)) :
    Traced Source (xs.flatMap f) := by
  induction xs with
  | nil => exact .nil
  | cons x rest ih =>
    rw [List.flatMap_cons]
    exact (h x (.head _)).append (ih fun y hy => h y (.tail _ hy))

namespace FieldType.Traced

variable {t : FieldType}

theorem of_raised (h : Raised type) (repeated : Bool) : FieldType.Traced Source ⟨type, repeated, none⟩ :=
  ⟨fun w heq => absurd heq (h.ne_name w), fun other heq => h.ne_mapOf other heq, nofun⟩

theorem of_declared {d : Declaration} (h : Raised type) (hd : Proto.Traced Source d.types)
    (repeated : Bool) : FieldType.Traced Source ⟨type, repeated, some d⟩ :=
  ⟨fun w heq => absurd heq (h.ne_name w), fun other heq => h.ne_mapOf other heq,
    fun _ heq => Option.some.inj heq ▸ hd⟩

theorem item (h : FieldType.Traced Source t) : Proto.Traced Source [t.type] := by
  rintro w (hmem | hmem)
  · exact h.type w (List.mem_singleton.mp hmem).symm
  · exact absurd (List.mem_singleton.mp hmem).symm (h.single _)

theorem nested (h : FieldType.Traced Source t) {field : Field} (hfield : Proto.Traced Source [field.type]) :
    Proto.Traced Source (Slot.mk t.nested field).types := by
  cases hnested : t.nested with
  | none => exact hfield
  | some d => exact (h.declared d hnested).append hfield

theorem mapped (h : FieldType.Traced Source t) : Proto.Traced Source [mapOf t.type] := by
  have hinj : ∀ type, mapOf type = mapOf t.type → type = t.type := by
    intro type heq
    have hchars := congrArg String.toList heq
    simp only [mapOf, String.toList_append, List.append_cancel_right_eq, List.append_cancel_left_eq] at hchars
    exact String.toList_injective hchars
  rintro w (hmem | hmem)
  · have hname := List.mem_singleton.mp hmem
    have hhead := congrArg (fun text : String => text.toList.head?) hname
    simp only [mapOf, String.toList_append] at hhead
    cases w <;> simp [WellKnown.name] at hhead
  · exact h.type w (hinj _ (List.mem_singleton.mp hmem)).symm

end FieldType.Traced

end Traced

theorem isChosenFor_any {options : Value} {name : String} (named : name ∈ ["oneOf", "anyOf", "allOf"])
    (given : v.field name = .ok options) (vacant : options.truthy = false) : WellKnown.any.isChosenFor v := by
  have hvacant : v.isVacant name := by
    unfold Value.isVacant
    rw [given]
    exact congrArg not vacant
  unfold WellKnown.isChosenFor
  rw [Bool.or_eq_true, List.any_eq_true]
  exact .inr ⟨name, named, hvacant⟩

theorem hasFormat_of_fieldD {formats : List String}
    (hformat : v.fieldD "format" (.str "") = .ok format) (hnone : "" ∉ formats)
    (h : format.isOneOf formats) : v.hasFormat formats := by
  obtain ⟨found, hfound, hend⟩ := bind_ok hformat
  cases hend
  unfold Value.hasFormat
  rw [hfound]
  cases found
  case some format => exact h
  obtain ⟨text, htext, hsame⟩ := List.any_eq_true.mp h
  have hempty : "" = text := by simpa [Value.isStr, Scalar.isStr] using hsame
  exact absurd (hempty ▸ htext) hnone

theorem isChosenFor_plainType {type : Option Value} {w : WellKnown}
    (htype : v.field? "type" = .ok type) (hformat : v.fieldD "format" (.str "") = .ok format)
    (h : plainType (type.getD .null) format = w.name) : w.isChosenFor v := by
  have hsame : ∀ formats, "" ∉ formats → format.isOneOf formats → v.hasFormat formats :=
    fun _ => hasFormat_of_fieldD hformat
  have hone : ∀ text, format.isStr text → format.isOneOf [text] := by
    intro text htext
    simp [Value.isOneOf, htext]
  unfold plainType at h
  simp only [isStr_of_field? htype] at h
  unfold WellKnown.isChosenFor
  -- of the types that are chosen, only the one in question has its name
  cases w with
  | timestamp =>
    split_ifs at h with hstring hdate
    all_goals try exact absurd h (by decide)
    exact Bool.and_eq_true_iff.mpr ⟨hstring, hsame _ (by decide) hdate⟩
  | duration =>
    split_ifs at h with hstring hdate hduration
    all_goals try exact absurd h (by decide)
    exact Bool.and_eq_true_iff.mpr ⟨hstring, hsame _ (by decide) (hone _ hduration)⟩
  | any =>
    split_ifs at h
    all_goals exact absurd h (by decide)
  | stringValue =>
    split_ifs at h
    all_goals try exact absurd h (by decide)
    assumption

theorem plainType_ne_mapOf (type format : Value) (other : String) : plainType type format ≠ mapOf other := by
  intro h
  have hhead : (plainType type format).toList.head? = some 'm' := by
    rw [h]
    simp [mapOf]
  unfold plainType at hhead
  split_ifs at hhead <;> revert hhead <;> decide

variable {Source : WellKnown → Prop} {scope : Option RefScope}

theorem FieldType.Traced.string (repeated : Bool) : FieldType.Traced Source ⟨"string", repeated, none⟩ :=
  ⟨fun w (heq : "string" = w.name) => absurd heq (by cases w <;> decide), plainType_ne_mapOf .null .null, nofun⟩

mutual

theorem traced_fieldType (schema : Value) (name : Scalar) (h : Fit false schema)
    (hsource : ∀ (w : WellKnown) v, Asks schema v → w.isChosenFor v → Source w) :
    SeenM.Returns (FieldType.Traced Source) (fieldType scope schema name) := by
  have hany : WellKnown.any.isChosenFor schema → FieldType.Traced Source anyField := by
    intro hchosen
    refine ⟨fun w heq => ?_, fun type heq => ?_, nofun⟩
    · obtain rfl : w = .any := by
        cases w <;> first | rfl | exact absurd heq (by decide)
      exact hsource .any schema .self hchosen
    · have hhead := congrArg (fun text : String => text.toList.head?) heq
      simp [mapOf, anyField] at hhead
  rw [fieldType]
  refine .of_ask fun hasOneOf _ => .of_ite (fun _ => ?oneOf) fun _ =>
    .of_ask fun hasAnyOf _ => .of_ite (fun _ => ?anyOf) fun _ => ?_
  case oneOf | anyOf =>
    refine .of_ask fun ⟨group, hbelow⟩ hgroup => .of_ite (fun hvacant => .pure (hany ?_)) fun _ => ?_
    · exact isChosenFor_any (by decide) (field_of_part hgroup) (by simpa using hvacant)
    refine .of_ask fun ⟨option, hwithin⟩ hoption => ?_
    exact traced_fieldType option name ((h.field (field_of_part hgroup)).first hoption) fun w v hv =>
      hsource w v (.first (by decide) (field_of_part hgroup) (itemAt_of_first hoption) hv)
  refine .of_ask fun hasAllOf _ => .of_ite (fun _ => ?allOf) fun _ => ?_
  case allOf =>
    refine .of_ask fun ⟨group, hbelow⟩ hgroup => .of_ite (fun hvacant => .pure (hany ?_)) fun _ => ?_
    · exact isChosenFor_any (by decide) (field_of_part hgroup) (by simpa using hvacant)
    refine .of_ask fun ⟨last, hwithin⟩ hlast => ?_
    exact traced_fieldType last name ((h.field (field_of_part hgroup)).last hlast) fun w v hv =>
      hsource w v (.last (field_of_part hgroup) (itemAt_of_last hlast) hv)
  refine .of_ask fun hasNot hnot => .of_ite (fun hyes => .pure (hany ?_)) fun _ => ?_
  · unfold WellKnown.isChosenFor Value.mentions
    rw [hnot, hyes]
    rfl
  refine .of_lift (returns_ofOwnRef name h) fun found hfound => ?_
  subst hfound
  refine .of_ask fun type htype => .of_ite (fun harray => ?array) fun _ => ?_
  case array =>
    rw [isStr_of_field? htype] at harray
    refine .of_ask fun items hitems => ?_
    match items with
    | none => exact .of_any fun _ => .pure (.string true)
    | some ⟨items, hbelow⟩ =>
      have hgiven := field_of_part? hitems
      have hfit : Fit false items := h.field hgiven
      refine .of_ask fun itemType hitemType => .of_ite (fun hitemArray => ?_) fun _ => ?_
      · rw [isStr_of_field? hitemType] at hitemArray
        refine .of_ask fun pascal hpascal => .of_ask fun inner hinner => ?_
        have hlist : Raised (pascal ++ "List") :=
          (Raised.of_pascalOf hpascal).append (.of_head? (c := 'L') (by decide) (by decide))
        match inner with
        | none => exact .pure (.of_declared hlist (FieldType.Traced.string true).item true)
        | some ⟨inner, hinnerBelow⟩ =>
          have hinnerGiven := field_of_part? hinner
          refine .of_bind (traced_fieldType inner (.str "Value") (hfit.field hinnerGiven) fun w v hv =>
            hsource w v (.items harray hgiven (.items hitemArray hinnerGiven hv))) fun item hitem => ?_
          exact .pure (.of_declared hlist hitem.item true)
      · refine .of_ask fun itemName _ => ?_
        have hitem := traced_fieldType items itemName hfit fun w v hv => hsource w v (.items harray hgiven hv)
        exact .of_bind hitem fun item hitem => .pure ⟨hitem.type, hitem.single, hitem.declared⟩
  refine .of_ask fun hasEnum _ => .of_ite (fun _ => ?enum) fun _ => ?_
  case enum =>
    refine .of_ask fun enumName henumName => .of_ask fun e he => ?_
    exact .pure (.of_declared (.of_enumNameOf henumName) .nil false)
  refine .of_ite (fun hobject => ?_) fun _ => ?_
  · rw [isStr_of_field? htype] at hobject
    refine .of_ask fun typeName htypeName => .of_ask fun properties _ => .of_any fun seen => ?_
    have hraised : Raised typeName := .of_pascalOf htypeName
    refine .of_ite (fun _ => .pure (.of_raised hraised false)) fun _ => .of_ask fun description _ => ?_
    refine .of_ite (fun _ => ?_) fun _ => .pure (.of_declared hraised .nil false)
    have hmessage := traced_message schema typeName h fun w v hv => hsource w v (hv.asks hobject)
    exact .of_bind hmessage fun m hm => .pure (.of_declared hraised hm false)
  · refine .of_ask fun format hformat => .pure ⟨fun w heq => ?_, plainType_ne_mapOf _ _, nofun⟩
    exact hsource w schema .self (isChosenFor_plainType htype hformat heq)
termination_by 3 * schema.depth + 2

theorem traced_message (schema : Value) (typeName : String) (h : Fit false schema)
    (hsource : ∀ (w : WellKnown) v, MessageAsks schema v → w.isChosenFor v → Source w) :
    SeenM.Returns (fun m => Traced Source m.types) (message scope schema typeName) := by
  intro seen s m seen' s' hrun
  obtain ⟨comment, properties, own, more, seen1, s1, rfl, hsaid, hprops, hown, hmore⟩ := exec_message hrun
  have heach : ∀ slot ∈ own, Traced Source slot.types := by
    refine hown.forall_mem fun e he number start slot last hslot => ?_
    have hbelow := depth_lt_of_entriesAt hprops he
    have htype := traced_fieldType e.2 e.1 (h.entry hprops he) fun w v hv =>
      hsource w v (.property hprops he hv)
    obtain ⟨typed, said, named⟩ := hslot
    have htraced := htype _ _ _ _ _ typed
    exact htraced.nested htraced.item
  have hothers := traced_moreSlots schema h hsource (own.length + 1) _ _ _ _ _ hmore
  show Traced Source (slotTypes (own ++ more))
  rw [slotTypes_eq]
  exact .flatMap (List.forall_mem_append.mpr ⟨heach, hothers⟩)
termination_by 3 * schema.depth + 1

theorem traced_moreSlots (schema : Value) (h : Fit false schema)
    (hsource : ∀ (w : WellKnown) v, MessageAsks schema v → w.isChosenFor v → Source w) (number : Nat) :
    SeenM.Returns (fun more => ∀ slot ∈ more, Traced Source slot.types) (moreSlots scope schema number) := by
  rw [moreSlots]
  refine .of_ask fun part hpart => ?_
  match part with
  | none => exact .pure nofun
  | some ⟨more, hbelow⟩ =>
    have hgiven := field_of_part? hpart
    refine .of_ite (fun _ => .pure ?_) fun _ => .of_ite (fun _ => ?_) fun _ => .pure nofun
    · have hstring : FieldType.Traced Source ⟨"string", false, none⟩ := .string false
      exact List.forall_mem_singleton.mpr (hstring.nested hstring.mapped)
    · refine .of_bind (traced_fieldType more (.str "value") (h.field hgiven) fun w v hv =>
        hsource w v (.additional hgiven hv)) fun value hvalue => .pure ?_
      exact List.forall_mem_singleton.mpr (hvalue.nested hvalue.mapped)
termination_by 3 * schema.depth

end

/-! ## Files -/

variable {schema : Value}

theorem traced_declarations (h : Fit false schema)
    (hsource : ∀ (w : WellKnown) v, FileAsks schema v → w.isChosenFor v → Source w) :
    SeenM.Returns (fun ds => ∀ d ∈ ds, Traced Source d.types) (declarations scope schema) := by
  refine DeclaredWith.declarations (fun name _ => ⟨fun _ _ => .nil, fun hobject => ?_⟩)
    fun entries hentries e he name _ => ⟨fun _ _ => .nil, fun hobject => ?_⟩
  · exact traced_message schema name h fun w v hv => hsource w v (.root hobject hv)
  · exact traced_message e.2 name (h.entry hentries he) fun w v hv =>
      hsource w v (.definition hentries he hobject hv)

/-! ## Imports -/

theorem file_mem_formatImport_iff (w : WellKnown) (format : Value) :
    w.file ∈ formatImport format ↔ w ≠ .stringValue ∧ format.isOneOf w.formats := by
  have hone : ∀ text, format.isOneOf [text] = format.isStr text := by
    intro text
    unfold Value.isOneOf
    rw [List.any_cons, List.any_nil, Bool.or_false]
  unfold formatImport
  split_ifs with hdates hduration hany
  · obtain ⟨text, htext, hsame⟩ := List.any_eq_true.mp hdates
    obtain rfl := eq_str_of_isStr hsame
    have hcase : text = "date-time" ∨ text = "date" ∨ text = "time" := by simpa using htext
    rcases hcase with rfl | rfl | rfl <;> cases w <;> decide
  · obtain rfl := eq_str_of_isStr hduration
    cases w <;> decide
  · obtain rfl := eq_str_of_isStr hany
    cases w <;> decide
  refine ⟨nofun, fun ⟨hwrapped, hformat⟩ => ?_⟩
  cases w with
  | timestamp => exact absurd hformat hdates
  | duration => exact absurd (hone _ ▸ hformat) hduration
  | any => exact absurd (hone _ ▸ hformat) hany
  | stringValue => exact absurd rfl hwrapped

theorem mem_propertyImports_iff {root : Value}
    (h : ∀ e ∈ entries, Fit false e.2) (hrun : propertyImports hasScope root entries = .ok imports)
    (w : WellKnown) : w.file ∈ imports ↔ w ≠ .stringValue ∧ ∃ e ∈ entries, e.2.hasFormat w.formats := by
  induction entries generalizing imports with
  | nil =>
    cases hrun
    simp
  | cons e rest ih =>
    obtain ⟨format, hformat, h1⟩ := bind_ok hrun
    have hnone := (h e (.head _)).has_ref (isMap_of_field? hformat)
    rw [hnone] at h1
    obtain ⟨more, hmore, hend⟩ := bind_ok (x := propertyImports hasScope root rest)
      (f := fun more => pure (formatImport (format.getD .null) ++ [] ++ more)) h1
    cases hend
    have hown : e.2.hasFormat w.formats = (format.getD .null).isOneOf w.formats := by
      unfold Value.hasFormat
      rw [hformat]
    rw [List.append_nil, List.mem_append, file_mem_formatImport_iff, ← hown,
      ih (fun e he => h e (.tail _ he)) hmore, ← and_or_left, List.exists_mem_cons_iff]

theorem mem_wrapperImports_iff (hrun : wrapperImports entries = .ok imports) (w : WellKnown) :
    w.file ∈ imports ↔ w = .stringValue ∧ ∃ e ∈ entries, e.2.hasFormat w.formats := by
  induction entries with
  | nil =>
    cases hrun
    simp
  | cons e rest ih =>
    obtain ⟨wrapped, hwrapped, h1⟩ := bind_ok hrun
    have hown : e.2.hasFormat WellKnown.stringValue.formats = wrapped := by
      obtain ⟨format, hformat, hend⟩ := bind_ok hwrapped
      cases hend
      unfold Value.hasFormat
      rw [hformat]
      rfl
    rw [List.exists_mem_cons_iff]
    split_ifs at h1 with hyes
    · cases h1
      constructor
      · intro hmem
        obtain rfl : w = .stringValue := by
          cases w <;> first | rfl | exact absurd (List.mem_singleton.mp hmem) (by decide)
        exact ⟨rfl, .inl (hown.trans hyes)⟩
      · rintro ⟨rfl, _⟩
        exact List.mem_singleton.mpr rfl
    · rw [ih h1]
      refine and_congr_right ?_
      rintro rfl
      rw [hown, or_iff_right hyes]

theorem mem_imports_iff {more : List String} (h : Fit false schema)
    (hrun : allImports hasScope schema more = .ok imports) (w : WellKnown) : w.file ∈ imports ↔
      w.file ∈ more ∨ ∃ e ∈ schema.entriesOf "properties", e.2.hasFormat w.formats := by
  obtain ⟨entries, formats, wrappers, hentries, hformats, hwrappers, rfl⟩ := imports_of_allImports h hrun
  rw [mem_sortedSet, List.mem_append, mem_sortedSet, List.mem_append, entriesOf_eq hentries,
    mem_propertyImports_iff (fun e he => h.entry hentries he) hformats, mem_wrapperImports_iff hwrappers,
    ← or_and_right, or_comm]
  exact or_congr_right (and_iff_right (ne_or_eq w .stringValue))

theorem hasFormat_mono {formats formats' : List String} (hsub : ∀ format ∈ formats, format ∈ formats')
    (h : v.hasFormat formats) : v.hasFormat formats' := by
  unfold Value.hasFormat at h ⊢
  split at h
  · obtain ⟨format, hformat, hsame⟩ := List.any_eq_true.mp h
    exact List.any_eq_true.mpr ⟨format, hsub format hformat, hsame⟩
  · cases h

theorem hasFormat_of_isChosenFor {w : WellKnown} (hw : w = .timestamp ∨ w = .duration)
    (h : w.isChosenFor v) : v.hasFormat w.formats := by
  rcases hw with rfl | rfl
  · exact hasFormat_mono (by decide) (Bool.and_eq_true_iff.mp h).2
  · exact (Bool.and_eq_true_iff.mp h).2

/-! ## Properties without further ado -/

theorem exec_fieldType_plain {key : Scalar} {type : FieldType}
    (huncombined : isUncombined schema) (hobject : schema.isOfType "object" = false)
    (h : exec ((fieldType scope schema key).run seen) s = (.ok (type, seen'), s')) :
    ∃ kind format, schema.field? "type" = .ok kind ∧ schema.fieldD "format" (.str "") = .ok format ∧
      type = { type := plainType (kind.getD .null) format } := by
  obtain ⟨_, hno, harray⟩ := isUncombined_iff.mp huncombined
  rw [fieldType] at h
  have h1 := run_no_bind (hno "oneOf" (by decide)) h
  have h2 := run_no_bind (hno "anyOf" (by decide)) h1
  have h3 := run_no_bind (hno "allOf" (by decide)) h2
  have h4 := run_no_bind (hno "not" (by decide)) h3
  obtain ⟨found, s1, hfound, h5⟩ := run_lift_ok h4
  rw [ofOwnRef_eq_none (hno "$ref" (by decide))] at hfound
  cases hfound
  obtain ⟨kind, hkind, h6⟩ := run_ask_ok h5
  dsimp only at h6
  rw [if_neg (by rw [isStr_of_field? hkind, harray]; nofun)] at h6
  have h7 := run_no_bind (hno "enum" (by decide)) h6
  rw [isStr_of_field? hkind, hobject, if_neg Bool.false_ne_true] at h7
  obtain ⟨format, hformat, h8⟩ := run_ask_ok h7
  cases h8
  exact ⟨kind, format, hkind, hformat, rfl⟩

theorem eq_str_of_hasFormat {formats : List String}
    (hformat : schema.fieldD "format" (.str "") = .ok format) (h : schema.hasFormat formats) :
    ∃ text ∈ formats, format = .str text := by
  obtain ⟨found, hfound, hend⟩ := bind_ok hformat
  cases hend
  unfold Value.hasFormat at h
  rw [hfound] at h
  obtain ⟨text, htext, hsame⟩ := List.any_eq_true.mp h
  cases found with
  | none => cases hsame
  | some format => exact ⟨text, htext, eq_str_of_isStr hsame⟩

theorem plainType_of_isChosenFor {w : WellKnown} {kind : Option Value} (hw : w ≠ .any)
    (hkind : schema.field? "type" = .ok kind) (hformat : schema.fieldD "format" (.str "") = .ok format)
    (h : w.isChosenFor schema) : plainType (kind.getD .null) format = w.name := by
  have htype : ∀ text, schema.isOfType text → kind.getD .null = .str text := by
    intro text htext
    rw [← isStr_of_field? hkind] at htext
    exact eq_str_of_isStr htext
  cases w with
  | timestamp =>
    obtain ⟨hstring, hdate⟩ := Bool.and_eq_true_iff.mp h
    obtain ⟨text, htext, rfl⟩ := eq_str_of_hasFormat hformat hdate
    have hcase : text = "date-time" ∨ text = "date" := by simpa using htext
    rw [htype _ hstring]
    rcases hcase with rfl | rfl <;> decide
  | duration =>
    obtain ⟨hstring, hduration⟩ := Bool.and_eq_true_iff.mp h
    obtain ⟨text, htext, rfl⟩ := eq_str_of_hasFormat hformat hduration
    rw [htype _ hstring, List.mem_singleton.mp htext]
    decide
  | any => exact absurd rfl hw
  | stringValue =>
    rw [htype _ h]
    rfl

theorem mem_types_of_property {w : WellKnown} {name : String}
    {m : Message} {e : Scalar × Value} (he : e ∈ schema.entriesOf "properties")
    (huncombined : isUncombined e.2) (hobject : e.2.isOfType "object" = false) (hw : w ≠ .any)
    (hchosen : w.isChosenFor e.2)
    (h : exec ((message scope schema name).run seen) s = (.ok (m, seen'), s')) : w.name ∈ m.types := by
  obtain ⟨comment, properties, own, more, seen1, s1, rfl, _, hprops, hown, _⟩ := exec_message h
  rw [entriesOf_eq hprops] at he
  obtain ⟨i, hi⟩ := List.mem_iff_getElem?.mp he
  obtain ⟨slot, before, after, hslot, hmade⟩ := hown.at_place hi
  obtain ⟨typed, _, _⟩ := hmade
  obtain ⟨kind, format, hkind, hformat, rfl⟩ := exec_fieldType_plain huncombined hobject typed
  show w.name ∈ slotTypes (own ++ more)
  rw [slotTypes_eq]
  refine List.mem_flatMap.mpr ⟨_, List.mem_append_left _ (List.mem_of_getElem? hslot), ?_⟩
  exact List.mem_singleton.mpr (plainType_of_isChosenFor hw hkind hformat hchosen).symm

theorem mem_types_of_message (henum : schema.isMapWith "enum" = false) (hobject : schema.isOfType "object")
    (h : ∀ name, SeenM.Returns (fun m => type ∈ m.types) (message scope schema name)) :
    SeenM.Returns (fun ds => type ∈ ds.flatMap Declaration.types) (declarations scope schema) := by
  have hmap : schema.isMap := by
    cases schema with
    | map _ => rfl
    | _ => cases hobject
  have hroot : SeenM.Returns (fun root => type ∈ root.toList.flatMap Declaration.types)
      (rootDeclaration scope schema) := by
    unfold rootDeclaration
    rw [has_eq_isMapWith _ hmap, henum]
    refine .of_ask fun name _ => .of_ask fun hasEnum hno => .of_ite (fun hyes => ?_) fun _ => ?_
    · cases hno
      cases hyes
    refine .of_ask fun kind hkind => .of_ite (fun _ => ?_) fun hnot => ?_
    · exact .of_bind (h name) fun m hm => .pure (List.mem_flatMap.mpr ⟨_, List.mem_singleton.mpr rfl, hm⟩)
    · exact absurd (isStr_of_field? hkind _ ▸ hobject) hnot
  unfold declarations
  refine .of_bind hroot fun root hmem => .of_ask fun _ _ => .of_ite (fun _ => .pure hmem) fun _ => ?_
  refine .of_ask fun entries _ => .of_any fun others => .pure ?_
  rw [List.flatMap_append]
  exact List.mem_append_left _ hmem

/-! ## What is imported of what is used -/

/-- A well-known type is imported if that is asked for, or if a property of the schema itself has one of the formats
for it. Every well-known type that is used was chosen for a value whose type is asked for, and is imported unless that
value is not a property of the schema itself, or the type is one that is not chosen by format. -/
theorem wellKnown_imports {package : String} {goPackage : Option String} {more : List String} {r : Request}
    {s s' : RefState} {text : String} (hfree : r.schema.isRefFree = true)
    (h : exec (sourceFile package goPackage more r) s = (.ok text, s')) :
    ∃ file, exec (fileOf package goPackage more r) s = (.ok file, s') ∧ text = file.text ∧ ∀ w : WellKnown,
      (w.file ∈ file.imports ↔ w.file ∈ more ∨ ∃ e ∈ r.schema.entriesOf "properties", e.2.hasFormat w.formats = true) ∧
      (file.Uses w.name → ∃ v, FileAsks r.schema v ∧ w.isChosenFor v = true ∧
        (w.file ∈ file.imports ∨ (∀ e ∈ r.schema.entriesOf "properties", e.2 ≠ v) ∨ w = .any ∨ w = .stringValue)) ∧
      (r.schema.isOfType "object" = true → r.schema.isMapWith "enum" = false → w ≠ .any →
        ∀ e ∈ r.schema.entriesOf "properties", isUncombined e.2 = true → e.2.isOfType "object" = false →
          w.isChosenFor e.2 = true → file.Uses w.name) := by
  obtain ⟨file, hfile, rfl⟩ := exec_sourceFile h
  obtain ⟨imports, declared, seen, himports, hdeclared, rfl⟩ := exec_fileOf hfile
  have hfit := fit_of_isRefFree hfree
  refine ⟨_, hfile, rfl, fun w => ?_⟩
  have hiff := mem_imports_iff hfit himports w
  refine ⟨hiff, fun huses => ?_, fun hobject henum hw e he huncombined hinner hchosen => ?_⟩
  · have htraced : ∀ d ∈ declared, Traced (fun w => ∃ v, FileAsks r.schema v ∧ w.isChosenFor v = true) d.types :=
      traced_declarations hfit (fun w v hv hchosen => ⟨v, hv, hchosen⟩) _ _ _ _ _ hdeclared
    obtain ⟨v, hasked, hchosen⟩ := Traced.flatMap htraced w huses
    refine ⟨v, hasked, hchosen, ?_⟩
    by_cases hformat : w = .timestamp ∨ w = .duration
    · by_cases hdirect : ∃ e ∈ r.schema.entriesOf "properties", e.2 = v
      · obtain ⟨e, he, rfl⟩ := hdirect
        exact .inl (hiff.mpr (.inr ⟨e, he, hasFormat_of_isChosenFor hformat hchosen⟩))
      · exact .inr (.inl fun e he heq => hdirect ⟨e, he, heq⟩)
    · cases w <;> simp at hformat ⊢
  · exact .inl (mem_types_of_message henum hobject (fun name seen s m seen' s' hm =>
      mem_types_of_property he huncombined hinner hw hchosen hm) _ _ _ _ _ hdeclared)

/-- A visit that starts at some time, with nothing said about it. -/
def visit : Request where
  files := Reference.textFiles []
  stamp := "now"
  schema := .map [("title", "visit"), ("type", "object"), ("properties", .map
    [("start", .map [("type", "string"), ("format", "date-time")]),
      ("note", .map [("type", "null")])])]

theorem wellKnown_imports_visit :
    visit.schema.isRefFree = true ∧ ∃ text s file, exec (sourceFile "clinic" none [] visit) {} = (.ok text, s) ∧
      exec (fileOf "clinic" none [] visit) {} = (.ok file, s) ∧ text = file.text ∧
      file.Uses WellKnown.timestamp.name ∧ WellKnown.timestamp.file ∈ file.imports ∧
      file.Uses WellKnown.stringValue.name ∧ WellKnown.stringValue.file ∉ file.imports := by
  have hfree : visit.schema.isRefFree = true := by decide +kernel
  have hok : (exec (sourceFile "clinic" none [] visit) {}).1.isOk = true := by decide +kernel
  obtain ⟨text, htext⟩ := Outcome.eq_ok_of_isOk hok
  have hrun : exec (sourceFile "clinic" none [] visit) {} = (.ok text, _) := Prod.ext htext rfl
  obtain ⟨file, hfile, hsame, hall⟩ := wellKnown_imports hfree hrun
  obtain ⟨htime, _, htimeUsed⟩ := hall .timestamp
  obtain ⟨hvalue, _, hvalueUsed⟩ := hall .stringValue
  refine ⟨hfree, text, _, file, hrun, hfile, hsame, ?_, htime.mpr (by decide +kernel), ?_, ?_⟩
  · exact htimeUsed (by decide) (by decide) (by decide) _ ((.head _)) (by decide) (by decide) (by decide)
  · exact hvalueUsed (by decide) (by decide) (by decide) _ (.tail _ (.head _)) (by decide) (by decide) (by decide)
  · rw [hvalue]
    decide +kernel

def log : Request where
  files := Reference.textFiles []
  stamp := "now"
  schema := .map [("title", "log"), ("type", "object"), ("properties", .map
    [("times", .map [("type", "array"), ("items", .map
        [("type", "string"), ("format", "date-time")])]),
      ("rest", .map [("type", "null")])])]

theorem wellKnown_missing : log.schema.isRefFree = true ∧
      (exec (sourceFile "schema" none [] log) {}).1 = .ok ("// GENERATED CODE - DO NOT EDIT\n" ++
        "// Generated by schema2code proto generator\n\nsyntax = \"proto3\";\n\npackage schema;\n\n" ++
        "message Log \x7b\n  repeated google.protobuf.Timestamp times = 1;\n" ++
        "  google.protobuf.StringValue rest = 2;\n\x7d\n") := by
  decide +kernel

end Proto

end Typewright
