import Typewright.Proofs.BracelessValues
import Typewright.Proofs.ProtoBlocks
import Typewright.Proofs.WithoutReferences

/-!
# Braces of protocol buffer files

The braces of the file for a schema without references in which no text has a brace.
-/

namespace Typewright

open RefM Text Value

variable {root v w : Value} {name text type typeName : String} {hasScope strict : Bool} {e : Scalar × Value}
  {i : Int} {number : Nat} {entries : Entries} {imports more : List String}

/-! ## Schemas -/

namespace Value

/-- Whether the value is an object that says something about itself. -/
def isDescribedObject (w : Value) : Bool :=
  w.isOfType "object" &&
    match w.remark with
    | .ok text => !text.isEmpty
    | .error _ => false

/-- Whether no object in the value says anything about itself. -/
def isSilent (v : Value) : Bool :=
  v.everywhere fun w => !w.isDescribedObject

/-- Whether no object among the properties of the value, additional ones included, says anything about
itself. -/
def isSilentBelow (v : Value) : Bool :=
  v.partIs isSilent "properties" && v.partIs isSilent "additionalProperties"

theorem isSilent_of_inside (h : v.isSilent) (inside : Inside w v) : w.isSilent :=
  everywhere_of_inside h inside

theorem partIs_of_field {test : Value → Bool} (h : ∀ w, v.field name = .ok w → test w) : v.partIs test name := by
  cases v with
  | map es =>
    unfold partIs
    rw [Option.all_eq_true]
    intro w hw
    refine h w ?_
    rw [field_map, hw]
  | _ => rfl

theorem isSilentBelow_of_isSilent (h : v.isSilent) : v.isSilentBelow := by
  have hpart : ∀ name, v.partIs isSilent name := fun name =>
    partIs_of_field fun w hw => isSilent_of_inside h (inside_of_field hw)
  rw [isSilentBelow, hpart, hpart]
  rfl

theorem remark_of_isSilent (h : v.isSilent)
    (htype : v.isOfType "object") (htext : v.remark = .ok text) : text = "" := by
  have hhere := test_of_everywhere h
  unfold isDescribedObject at hhere
  rw [htype, htext] at hhere
  simpa using hhere

end Value

theorem Value.Fit.field?_ref {ref : Option Value} (h : Fit strict v)
    (href : v.field? "$ref" = .ok ref) : ref = none := by
  cases v with
  | map es =>
    rw [Value.field?_map] at href
    cases href
    cases hfound : Entries.find? es (.str "$ref") with
    | none => rfl
    | some w => exact absurd (any_same_of_find? hfound) (Bool.eq_false_iff.mp h.isMapWith_ref)
  | _ => cases href

namespace Proto

/-- A schema without braces and references. If it is silent, no object in it says anything about itself. -/
structure Plain (silent : Bool) (schema : Value) : Prop where
  braceless : schema.isBraceless = true
  fit : Value.Fit false schema
  quiet : silent = true → schema.isSilent = true

namespace Plain

variable {silent : Bool} {v w : Value} {name : String}

theorem of_inside (h : Plain silent v) (inside : Value.Inside w v) : Plain silent w where
  braceless := Value.Braceless.of_inside h.braceless inside
  fit := h.fit.of_inside inside
  quiet hsilent := isSilent_of_inside (h.quiet hsilent) inside

theorem field (h : Plain silent v) (hw : v.field name = .ok w) : Plain silent w :=
  h.of_inside (inside_of_field hw)

theorem itemAt {pick : List Value → Option Value} {index : Int} (h : Plain silent v)
    (hpick : ∀ ws u, pick ws = some u → u ∈ ws) (hw : v.itemAt pick index = .ok w) : Plain silent w where
  braceless := Value.Braceless.itemAt h.braceless hpick hw
  fit := h.fit.itemAt hpick hw
  quiet hsilent := by
    rcases mem_of_itemAt hpick hw with ⟨ws, hitems, mem⟩ | ⟨es, rfl, found⟩
    · rcases inside_of_items hitems mem with inside | ⟨x, rfl⟩
      · exact isSilent_of_inside (h.quiet hsilent) inside
      · rfl
    · obtain ⟨k, _, mem⟩ := mem_of_find? found
      exact isSilent_of_inside (h.quiet hsilent) (.entry mem .self)

theorem first {w : Below v} {u : Within w.val} (h : Plain silent v) (hw : v.part name = .ok w)
    (hu : w.val.first = .ok u) : Plain silent u.val :=
  (h.field (field_of_part hw)).itemAt (fun _ _ => List.mem_of_mem_head?) (itemAt_of_first hu)

theorem last {w : Below v} {u : Within w.val} (h : Plain silent v) (hw : v.part name = .ok w)
    (hu : w.val.last = .ok u) : Plain silent u.val :=
  (h.field (field_of_part hw)).itemAt (fun _ _ => List.mem_of_getLast?) (itemAt_of_last hu)

end Plain

/-- An object without braces and references. If it is silent, no object among its properties says anything
about itself. -/
structure PlainBelow (silent : Bool) (schema : Value) : Prop where
  braceless : schema.isBraceless = true
  fit : Value.Fit false schema
  quiet : silent = true → schema.isSilentBelow = true

theorem Plain.below {silent : Bool} (h : Plain silent v) : PlainBelow silent v :=
  ⟨h.braceless, h.fit, fun hsilent => isSilentBelow_of_isSilent (h.quiet hsilent)⟩

namespace PlainBelow

variable {silent : Bool} {v w : Value}

theorem property {es : Entries} (h : PlainBelow silent v)
    (hes : v.entriesAt "properties" = .ok es) (he : e ∈ es) : Plain silent e.2 where
  braceless := (Value.Braceless.entriesAt h.braceless hes e he).2
  fit := h.fit.entry hes he
  quiet hsilent := by
    obtain ⟨group, hgroup, hentries⟩ := field_of_entriesAt hes he
    have hsilentGroup := of_partIs (Bool.and_eq_true_iff.mp (h.quiet hsilent)).1 hgroup
    exact isSilent_of_inside hsilentGroup (inside_of_entries hentries he)

theorem additional (h : PlainBelow silent v) (hw : v.field "additionalProperties" = .ok w) : Plain silent w where
  braceless := Value.Braceless.field h.braceless hw
  fit := h.fit.field hw
  quiet hsilent := of_partIs (Bool.and_eq_true_iff.mp (h.quiet hsilent)).2 hw

theorem braceless_remark (h : PlainBelow silent v) (htext : v.remark = .ok text) : Braceless text.toList := by
  obtain ⟨description, hdesc, htrimmed⟩ := bind_ok htext
  exact braceless_trimmed (Value.Braceless.fieldD h.braceless rfl hdesc) htrimmed

end PlainBelow

structure FieldType.Clean (silent : Bool) (t : FieldType) : Prop where
  type : Braceless t.type.toList
  declared : ∀ d, t.nested = some d → d.Clean silent

variable {silent : Bool} {scope : Option RefScope} {schema : Value}

theorem FieldType.Clean.of_word (h : Braceless type.toList) (repeated : Bool) :
    FieldType.Clean silent ⟨type, repeated, none⟩ :=
  ⟨h, nofun⟩

theorem FieldType.Clean.of_declared {d : Declaration} (h : Braceless type.toList)
    (hd : d.Clean silent) (repeated : Bool) : FieldType.Clean silent ⟨type, repeated, some d⟩ :=
  ⟨h, fun _ heq => Option.some.inj heq ▸ hd⟩

/-! ### Enumerations -/

theorem mem_of_itemAtPlace {xs : List Value} (h : Naming.itemAtPlace xs i = .ok w) : w ∈ xs := by
  unfold Naming.itemAtPlace at h
  generalize (if i < 0 then i + xs.length else i) = place at h
  dsimp only at h
  split_ifs at h
  split at h
  · next hat =>
    cases h
    exact List.mem_of_getElem? hat
  · cases h

theorem braceless_besideValue {table value : Value} (h : table.isBraceless)
    (hw : Naming.besideValue table value i = .ok (some w)) : w.isBraceless := by
  unfold Naming.besideValue at hw
  split at hw
  · next es =>
    obtain ⟨k, _, mem⟩ := mem_of_find? (Except.ok.inj hw)
    exact Value.Braceless.of_inside h (.entry mem .self)
  · next xs =>
    split_ifs at hw
    · obtain ⟨u, hu, hend⟩ := bind_ok hw
      cases hend
      exact Value.Braceless.of_inside h (.item (mem_of_itemAtPlace hu) .self)
    · cases hw
  · cases hw

theorem clean_members {names descriptions : Value} {i : Nat} {values : List Value}
    {found : List Member} (h : descriptions.isBraceless)
    (hfound : members names descriptions typeName i values = .ok found) : ∀ m ∈ found, m.Clean := by
  induction values generalizing i found with
  | nil =>
    cases hfound
    nofun
  | cons value rest ih =>
    obtain ⟨name, _, h1⟩ := bind_ok hfound
    obtain ⟨text, _, h2⟩ := bind_ok h1
    obtain ⟨description, hdesc, h3⟩ := bind_ok h2
    obtain ⟨more, hmore, hend⟩ := bind_ok h3
    cases hend
    obtain ⟨beside, hbeside, hdefault⟩ := bind_ok hdesc
    cases hdefault
    have hsaid : (beside.getD .null).isBraceless := by
      cases beside with
      | none => rfl
      | some w => exact braceless_besideValue h hbeside
    exact List.forall_mem_cons.mpr ⟨⟨opens_saying hsaid, Naming.braceless_constantCase _⟩, ih hmore⟩

theorem clean_enumeration {e : Enumeration} (h : schema.isBraceless)
    (hname : Braceless typeName.toList) (he : enumeration schema typeName = .ok e) : e.Clean := by
  obtain ⟨description, hdesc, h1⟩ := bind_ok he
  obtain ⟨comment, hcomment, h2⟩ := bind_ok h1
  obtain ⟨values, _, h3⟩ := bind_ok h2
  obtain ⟨names, _, h4⟩ := bind_ok h3
  obtain ⟨descriptions, hdescriptions, h5⟩ := bind_ok h4
  obtain ⟨items, _, h6⟩ := bind_ok h5
  obtain ⟨found, hfound, hend⟩ := bind_ok h6
  cases hend
  have hcomment := braceless_trimmed (Value.Braceless.fieldD h rfl hdesc) hcomment
  exact ⟨hcomment.opens, hname, clean_members (Value.Braceless.fieldD h rfl hdescriptions) hfound⟩

/-! ### Messages -/

theorem returns_ofOwnRef (name : Scalar) (h : Fit strict schema) :
    RefM.Returns (· = none) (ofOwnRef scope schema name) := by
  unfold ofOwnRef
  refine .of_ask fun hasRef _ => .of_ite (fun _ => .pure rfl) fun _ => ?_
  cases scope with
  | none => exact .pure rfl
  | some scope =>
    refine .of_ask fun ref href => ?_
    obtain ⟨e, he, _⟩ := h.field_ref
    cases he.symm.trans href

theorem braceless_plainType (type format : Value) : Braceless (plainType type format).toList := by
  unfold plainType
  split_ifs <;> decide

theorem MakesSlots.forall_mem {start last : Point} {slots : List Slot}
    {P : Slot → Prop} (h : MakesSlots scope number entries start slots last)
    (hP : ∀ e ∈ entries, ∀ number start slot last, MakesSlot scope number e start slot last → P slot) :
    ∀ slot ∈ slots, P slot := by
  induction h with
  | nil => nofun
  | cons first _ ih =>
    have hfirst := hP _ List.mem_cons_self _ _ _ _ first
    exact List.forall_mem_cons.mpr ⟨hfirst, ih fun e he => hP e (.tail _ he)⟩

theorem MakesSlot.clean {start last : Point} {slot : Slot}
    (h : MakesSlot scope number e start slot last) (hname : e.1.isBraceless) (hproperty : e.2.isBraceless)
    (htype : SeenM.Returns (FieldType.Clean silent) (fieldType scope e.2 e.1)) : slot.Clean silent := by
  obtain ⟨typed, said, named⟩ := h
  obtain ⟨description, hdesc, htrimmed⟩ := bind_ok said
  have hsaid := braceless_trimmed (Value.Braceless.fieldD hproperty rfl hdesc) htrimmed
  have hclean := htype _ _ _ _ _ typed
  have hsnake : Braceless _ := braceless_snakeOf (v := .scalar _) hname named
  exact .mk hclean.declared ⟨hsaid.opens, hclean.type, hsnake⟩

theorem braceless_itemName {name item : Scalar} (hname : name.isBraceless)
    (hitem : itemName name = .ok item) : item.isBraceless := by
  cases name with
  | str s =>
    cases hitem
    rw [Scalar.isBraceless_str_iff] at hname ⊢
    exact braceless_concat.mpr ⟨hname, by decide⟩
  | _ => cases hitem

theorem braceless_enumNameOf {name : Scalar} {enumName : String} (hname : name.isBraceless)
    (henum : enumNameOf name = .ok enumName) : Braceless enumName.toList := by
  obtain ⟨base, hbase, hend⟩ := bind_ok henum
  cases hend
  have hbase := braceless_pascalOf (v := .scalar name) hname hbase
  split_ifs
  · exact hbase
  · exact braceless_concat.mpr ⟨hbase, by decide⟩

mutual

theorem clean_fieldType (schema : Value) (name : Scalar) (h : Plain silent schema) (hname : name.isBraceless) :
    SeenM.Returns (FieldType.Clean silent) (fieldType scope schema name) := by
  have hany : FieldType.Clean silent anyField := .of_word (by decide) false
  have hscalar : (Value.scalar name).isBraceless := hname
  rw [fieldType]
  refine .of_ask fun hasOneOf _ => .of_ite (fun _ => ?oneOf) fun _ =>
    .of_ask fun hasAnyOf _ => .of_ite (fun _ => ?anyOf) fun _ => ?_
  case oneOf | anyOf =>
    refine .of_ask fun ⟨group, hbelow⟩ hgroup => .of_ite (fun _ => .pure hany) fun _ => ?_
    refine .of_ask fun ⟨option, hwithin⟩ hoption => ?_
    exact clean_fieldType option name (h.first hgroup hoption) hname
  refine .of_ask fun hasAllOf _ => .of_ite (fun _ => ?allOf) fun _ => ?_
  case allOf =>
    refine .of_ask fun ⟨group, hbelow⟩ hgroup => .of_ite (fun _ => .pure hany) fun _ => ?_
    refine .of_ask fun ⟨last, hwithin⟩ hlast => ?_
    exact clean_fieldType last name (h.last hgroup hlast) hname
  refine .of_ask fun hasNot _ => .of_ite (fun _ => .pure hany) fun _ => ?_
  refine .of_lift (returns_ofOwnRef name h.fit) fun found hfound => ?_
  subst hfound
  refine .of_ask fun type htype => .of_ite (fun _ => ?array) fun _ => ?_
  case array =>
    refine .of_ask fun items hitems => ?_
    match items with
    | none => exact .of_any fun _ => .pure (.of_word (by decide) true)
    | some ⟨items, hbelow⟩ =>
      have hplain : Plain silent items := h.field (field_of_part? hitems)
      refine .of_ask fun itemType _ => .of_ite (fun _ => ?_) fun _ => ?_
      · refine .of_ask fun pascal hpascal => .of_ask fun inner hinner => ?_
        have hlist : Braceless (pascal ++ "List").toList :=
          braceless_concat.mpr ⟨braceless_pascalOf hscalar hpascal, by decide⟩
        match inner with
        | none => exact .pure (.of_declared hlist (.listOf hlist (by decide)) true)
        | some ⟨inner, hinnerBelow⟩ =>
          have hinnerPlain := hplain.field (field_of_part? hinner)
          refine .of_bind (clean_fieldType inner (.str "Value") hinnerPlain (by decide)) fun item hitem => ?_
          exact .pure (.of_declared hlist (.listOf hlist hitem.type) true)
      · refine .of_ask fun itemName hitemName => ?_
        have hitem := clean_fieldType items itemName hplain (braceless_itemName hname hitemName)
        exact .of_bind hitem fun item hitem => .pure ⟨hitem.type, hitem.declared⟩
  refine .of_ask fun hasEnum _ => .of_ite (fun _ => ?enum) fun _ => ?_
  case enum =>
    refine .of_ask fun enumName henumName => .of_ask fun e he => ?_
    have henum := braceless_enumNameOf hname henumName
    exact .pure (.of_declared henum (.enumeration (clean_enumeration h.braceless henum he)) false)
  refine .of_ite (fun hobject => ?_) fun _ => ?_
  · refine .of_ask fun typeName htypeName => .of_ask fun properties _ => .of_any fun seen => ?_
    have htyped := braceless_pascalOf hscalar htypeName
    refine .of_ite (fun _ => .pure (.of_word htyped false)) fun _ => .of_ask fun description hdesc => ?_
    have hsaid : Opens 0 description.saying.toList := opens_saying (Value.Braceless.fieldD h.braceless rfl hdesc)
    refine .of_ite (fun _ => ?_) fun _ => .pure (.of_declared htyped (.hollow hsaid htyped) false)
    have hmessage := clean_message schema typeName h.below htyped
    refine .of_bind hmessage fun m ⟨hclean, comment, slots, hm, hremark⟩ => .pure ?_
    subst hm
    -- the head is written twice for the comment of the message, which is the trimmed description
    refine .of_declared htyped (.object hsaid hclean fun hsilent => ?_) false
    exact remark_of_isSilent (h.quiet hsilent) (isStr_of_field? htype _ ▸ hobject) hremark
  · exact .of_ask fun format _ => .pure (.of_word (braceless_plainType _ _) false)
termination_by 3 * schema.depth + 2

theorem clean_message (schema : Value) (typeName : String) (h : PlainBelow silent schema)
    (hname : Braceless typeName.toList) :
    SeenM.Returns (fun m => m.Clean silent ∧ ∃ comment slots, m = .mk comment typeName slots ∧
      schema.remark = .ok comment) (message scope schema typeName) := by
  intro seen s m seen' s' hrun
  obtain ⟨comment, properties, own, more, seen1, s1, rfl, hsaid, hprops, hown, hmore⟩ := exec_message hrun
  have heach : ∀ slot ∈ own, slot.Clean silent := by
    refine hown.forall_mem fun e he number start slot last hslot => ?_
    have hbelow := depth_lt_of_entriesAt hprops he
    have hkey := (Value.Braceless.entriesAt h.braceless hprops e he).1
    have hplain := h.property hprops he
    exact hslot.clean hkey hplain.braceless (clean_fieldType e.2 e.1 hplain hkey)
  have hothers : ∀ slot ∈ more, slot.Clean silent := clean_moreSlots schema h (own.length + 1) _ _ _ _ _ hmore
  refine ⟨.mk (h.braceless_remark hsaid).opens hname ?_, comment, own ++ more, rfl, hsaid⟩
  exact List.forall_mem_append.mpr ⟨heach, hothers⟩
termination_by 3 * schema.depth + 1

theorem clean_moreSlots (schema : Value) (h : PlainBelow silent schema) (number : Nat) :
    SeenM.Returns (fun more => ∀ slot ∈ more, slot.Clean silent) (moreSlots scope schema number) := by
  have hfield : ∀ valueType, Braceless valueType.toList → (additionalField valueType number).Clean := by
    intro valueType htype
    have hcomment : Braceless "Additional properties as key-value pairs".toList := by decide
    have hname : Braceless "additional_properties".toList := by decide
    refine ⟨hcomment.opens, ?_, hname⟩
    exact braceless_concat.mpr ⟨braceless_concat.mpr ⟨by decide, htype⟩, by decide⟩
  rw [moreSlots]
  refine .of_ask fun part hpart => ?_
  match part with
  | none => exact .pure nofun
  | some ⟨more, hbelow⟩ =>
    refine .of_ite (fun _ => .pure ?_) fun _ => .of_ite (fun _ => ?_) fun _ => .pure nofun
    · exact List.forall_mem_singleton.mpr (.mk nofun (hfield "string" (by decide)))
    · have hplain : Plain silent more := h.additional (field_of_part? hpart)
      refine .of_bind (clean_fieldType more (.str "value") hplain (by decide)) fun value hvalue => .pure ?_
      exact List.forall_mem_singleton.mpr (.mk hvalue.declared (hfield _ hvalue.type))
termination_by 3 * schema.depth

end

def SourceFile.heads (f : SourceFile) : Nat :=
  declarationHeads f.declarations

theorem braceless_rootName (h : schema.isBraceless) (hname : rootName schema = .ok name) : Braceless name.toList := by
  obtain ⟨title, htitle, hpascal⟩ := bind_ok hname
  refine braceless_pascalOf ?_ hpascal
  split_ifs
  · cases title with
    | none => rfl
    | some title => exact Value.Braceless.field h (field_of_field? htitle)
  · decide

/-- Whatever a schema is declared as under a name has the property. -/
structure DeclaredWith (P : Declaration → Prop) (scope : Option RefScope) (schema : Value) (name : String) : Prop where
  enumeration : ∀ e, enumeration schema name = .ok e → P (.enumeration e)
  message : schema.isOfType "object" → SeenM.Returns (fun m => P (.message m)) (message scope schema name)

section DeclaredWith

variable {P : Declaration → Prop}

theorem DeclaredWith.rootDeclaration (h : ∀ name, rootName schema = .ok name → DeclaredWith P scope schema name) :
    SeenM.Returns (fun root => ∀ d ∈ root.toList, P d) (rootDeclaration scope schema) := by
  unfold Proto.rootDeclaration
  refine .of_ask fun name hname => .of_ask fun hasEnum _ => .of_ite (fun _ => ?_) fun _ => ?_
  · exact .of_ask fun e he => .pure (List.forall_mem_singleton.mpr ((h name hname).enumeration e he))
  refine .of_ask fun type htype => .of_ite (fun hobject => ?_) fun _ => .pure nofun
  rw [isStr_of_field? htype] at hobject
  exact .of_bind ((h name hname).message hobject) fun m hm => .pure (List.forall_mem_singleton.mpr hm)

theorem DeclaredWith.definition (h : DeclaredWith P scope schema name) :
    SeenM.Returns (fun own => ∀ d ∈ own.toList, P d) (definition scope schema name) := by
  unfold Proto.definition
  refine .of_ask fun type htype => .of_ite (fun hobject => ?_) fun _ => .of_ite (fun _ => ?_) fun _ => .pure nofun
  · rw [isStr_of_field? htype] at hobject
    exact .of_bind (h.message hobject) fun m hm => .pure (List.forall_mem_singleton.mpr hm)
  · exact .of_ask fun e he => .pure (List.forall_mem_singleton.mpr (h.enumeration e he))

theorem DeclaredWith.definitions (h : ∀ e ∈ entries, ∀ name, Naming.pascalOf (.scalar e.1) = .ok name →
      DeclaredWith P scope e.2 name) : SeenM.Returns (fun ds => ∀ d ∈ ds, P d) (definitions scope entries) := by
  induction entries with
  | nil => exact .pure nofun
  | cons e rest ih =>
    have hrest := ih fun e he => h e (.tail _ he)
    refine .of_ask fun typeName htypeName => .of_any fun seen => .of_ite (fun _ => hrest) fun _ => ?_
    refine .of_bind (h e (.head _) typeName htypeName).definition fun own hown => ?_
    exact .of_bind hrest fun others hothers => .pure (List.forall_mem_append.mpr ⟨hown, hothers⟩)

theorem DeclaredWith.declarations (h : ∀ name, rootName schema = .ok name → DeclaredWith P scope schema name)
    (hdefs : ∀ entries, schema.entriesAt "definitions" = .ok entries → ∀ e ∈ entries, ∀ name,
      Naming.pascalOf (.scalar e.1) = .ok name → DeclaredWith P scope e.2 name) :
    SeenM.Returns (fun ds => ∀ d ∈ ds, P d) (declarations scope schema) := by
  unfold Proto.declarations
  refine .of_bind (rootDeclaration h) fun root hroot => .of_ask fun hasDefinitions _ => ?_
  refine .of_ite (fun _ => .pure hroot) fun _ => .of_ask fun entries hentries => ?_
  exact .of_bind (definitions (hdefs entries hentries)) fun others hothers =>
    .pure (List.forall_mem_append.mpr ⟨hroot, hothers⟩)

end DeclaredWith

theorem PlainBelow.declaredWith (h : PlainBelow silent schema) (hname : Braceless name.toList) :
    DeclaredWith (·.Clean silent) scope schema name where
  enumeration _ he := .enumeration (clean_enumeration h.braceless hname he)
  message _ _ _ _ _ _ hrun := .message (clean_message schema name h hname _ _ _ _ _ hrun).1

theorem clean_declarations (h : PlainBelow silent schema)
    (hdefs : silent → ∀ e ∈ schema.entriesOf "definitions", e.2.isSilentBelow) :
    SeenM.Returns (fun ds => ∀ d ∈ ds, d.Clean silent) (declarations scope schema) := by
  refine DeclaredWith.declarations (fun name hname => h.declaredWith (braceless_rootName h.braceless hname)) ?_
  intro entries hentries e he name hname
  obtain ⟨hkey, hvalue⟩ := Value.Braceless.entriesAt h.braceless hentries e he
  rw [entriesOf_eq hentries] at hdefs
  have hplain : PlainBelow silent e.2 := ⟨hvalue, h.fit.entry hentries he, fun hsilent => hdefs hsilent e he⟩
  exact hplain.declaredWith (braceless_pascalOf (v := .scalar e.1) hkey hname)

/-! ### Imports -/

theorem braceless_propertyImports (h : ∀ e ∈ entries, Fit false e.2)
    (hrun : propertyImports hasScope root entries = .ok imports) : ∀ i ∈ imports, Braceless i.toList := by
  induction entries generalizing imports with
  | nil =>
    cases hrun
    nofun
  | cons e rest ih =>
    obtain ⟨format, hformat, h1⟩ := bind_ok hrun
    have hnone := (h e (.head _)).has_ref (isMap_of_field? hformat)
    rw [hnone] at h1
    obtain ⟨more, hmore, hend⟩ := bind_ok (x := propertyImports hasScope root rest)
      (f := fun more => pure (formatImport (format.getD .null) ++ [] ++ more)) h1
    cases hend
    have hown : ∀ i ∈ formatImport (format.getD .null), Braceless i.toList := by
      unfold formatImport
      split_ifs <;> decide
    rw [List.append_nil]
    exact List.forall_mem_append.mpr ⟨hown, ih (fun e he => h e (.tail _ he)) hmore⟩

theorem braceless_wrapperImports (hrun : wrapperImports entries = .ok imports) : ∀ i ∈ imports, Braceless i.toList := by
  induction entries generalizing imports with
  | nil =>
    cases hrun
    nofun
  | cons e rest ih =>
    obtain ⟨wrapped, _, h1⟩ := bind_ok hrun
    split_ifs at h1
    · cases h1
      decide
    · exact ih h1

theorem itemImport_fit {property : Value} (h : Fit false property)
    (hrun : itemImport root property = .ok imports) : imports = [] := by
  obtain ⟨type, _, h1⟩ := bind_ok hrun
  split_ifs at h1
  · cases h1
    rfl
  obtain ⟨items, hitems, h2⟩ := bind_ok h1
  obtain ⟨ref, href, h3⟩ := bind_ok h2
  have hfit : Fit false items := by
    rcases field_of_fieldD hitems with hfield | rfl
    · exact h.field hfield
    · rfl
  cases hfit.field?_ref href
  cases h3
  rfl

theorem fileImports_eq_nil (h : ∀ e ∈ entries, Fit false e.2 ∧ e.2.isMap)
    (hrun : fileImports hasScope root entries = .ok imports) : imports = [] := by
  induction entries generalizing imports with
  | nil =>
    cases hrun
    rfl
  | cons e rest ih =>
    obtain ⟨hfit, hmap⟩ := h e (.head _)
    unfold fileImports at hrun
    rw [hfit.has_ref hmap] at hrun
    obtain ⟨items, hitems, h1⟩ := bind_ok (x := itemImport root e.2)
      (f := fun items => do return [] ++ items ++ (← fileImports hasScope root rest)) hrun
    obtain ⟨more, hmore, hend⟩ := bind_ok h1
    cases hend
    rw [itemImport_fit hfit hitems, ih (fun e he => h e (.tail _ he)) hmore]
    rfl

theorem imports_of_allImports (h : Fit false schema) (hrun : allImports hasScope schema more = .ok imports) :
    ∃ entries formats wrappers, schema.entriesAt "properties" = .ok entries ∧
      propertyImports hasScope schema entries = .ok formats ∧ wrapperImports entries = .ok wrappers ∧
      imports = sortedSet (sortedSet (formats ++ wrappers) ++ more) := by
  obtain ⟨required, hrequired, h1⟩ := bind_ok hrun
  obtain ⟨entries, hentries, h2⟩ := bind_ok hrequired
  obtain ⟨formats, hformats, h3⟩ := bind_ok h2
  obtain ⟨wrappers, hwrappers, hend⟩ := bind_ok h3
  cases hend
  have hmaps := isMap_of_propertyImports hformats
  have hfits : ∀ e ∈ entries, Fit false e.2 := fun e he => h.entry hentries he
  refine ⟨entries, formats, wrappers, hentries, hformats, hwrappers, ?_⟩
  obtain ⟨properties, hprops, h4⟩ := bind_ok h1
  rw [← List.append_nil (_ ++ more)]
  split_ifs at h4
  · obtain ⟨es, hes, h5⟩ := bind_ok h4
    obtain ⟨files, hfiles, hend⟩ := bind_ok h5
    cases hend
    have hsame : schema.entriesAt "properties" = .ok es := by
      rcases field_of_fieldD hprops with hfield | rfl
      · exact (entriesAt_of_field hfield).trans hes
      · cases hes
    cases hentries.symm.trans hsame
    rw [fileImports_eq_nil (fun e he => ⟨hfits e he, hmaps e he⟩) hfiles]
  · cases h4
    rfl

theorem braceless_allImports (h : Fit false schema)
    (hmore : ∀ i ∈ more, Braceless i.toList) (hrun : allImports hasScope schema more = .ok imports) :
    ∀ i ∈ imports, Braceless i.toList := by
  obtain ⟨entries, formats, wrappers, hentries, hformats, hwrappers, rfl⟩ := imports_of_allImports h hrun
  have hfits : ∀ e ∈ entries, Fit false e.2 := fun e he => h.entry hentries he
  have hknown := List.forall_mem_append.mpr
    ⟨braceless_propertyImports hfits hformats, braceless_wrapperImports hwrappers⟩
  intro i hi
  rw [mem_sortedSet, List.mem_append, mem_sortedSet] at hi
  exact hi.elim (hknown i) (hmore i)

/-! ### Text -/

theorem linesOpen_of_braceless {lines : List String} (h : ∀ line ∈ lines, Braceless line.toList) :
    LinesOpen 0 lines := by
  induction lines with
  | nil => exact .nil
  | cons line rest ih =>
    exact .cons (h line (.head _)).opens (ih fun line hline => h line (.tail _ hline))

theorem braceless_goPackageLines {goPackage : Option String}
    (h : ∀ path, goPackage = some path → Braceless path.toList) :
    ∀ line ∈ goPackageLines goPackage, Braceless line.toList := by
  cases goPackage with
  | none => nofun
  | some path =>
    have hpath := h path rfl
    unfold goPackageLines
    dsimp only
    split_ifs <;> simp [hpath]
    all_goals decide

theorem linesOpen_header {f : SourceFile} (hpackage : Braceless f.package.toList)
    (hgo : ∀ path, f.goPackage = some path → Braceless path.toList)
    (himports : ∀ i ∈ f.imports, Braceless i.toList) : LinesOpen 0 f.header := by
  have himport : ∀ line ∈ f.imports.map (fun i => "import \"" ++ i ++ "\";"), Braceless line.toList := by
    intro line hline
    obtain ⟨i, hi, rfl⟩ := List.mem_map.mp hline
    exact braceless_concat.mpr ⟨braceless_concat.mpr ⟨by decide, himports i hi⟩, by decide⟩
  have hpackageLine : Braceless ("package " ++ f.package ++ ";").toList :=
    braceless_concat.mpr ⟨braceless_concat.mpr ⟨by decide, hpackage⟩, by decide⟩
  have hfirst : LinesOpen 0 ["// GENERATED CODE - DO NOT EDIT",
      "// Generated by schema2code proto generator", "", "syntax = \"proto3\";", ""] :=
    linesOpen_of_braceless (by decide)
  have hpackageLines : LinesOpen 0 ["package " ++ f.package ++ ";", ""] :=
    .cons hpackageLine.opens (linesOpen_of_braceless (by decide))
  have hlast : LinesOpen 0 (if f.imports.isEmpty then [] else [""]) := by
    split_ifs
    · exact .nil
    · exact linesOpen_of_braceless (by decide)
  exact (((hfirst.append hpackageLines).append (linesOpen_of_braceless (braceless_goPackageLines hgo))).append
    (linesOpen_of_braceless himport)).append hlast

/-- In the file for a schema without references and braces, no brace is closed before it is opened, and
there are as many braces left open as heads written twice. If no object among properties says anything
about itself, there are none. -/
theorem sourceFile_braces {package : String} {goPackage : Option String} {more : List String} {r : Request}
    {s s' : RefState} {text : String} (hpackage : Braceless package.toList)
    (hgo : ∀ path, goPackage = some path → Braceless path.toList)
    (hmore : ∀ i ∈ more, Braceless i.toList) (hbraceless : r.schema.isBraceless = true)
    (hfree : r.schema.isRefFree = true) (h : exec (sourceFile package goPackage more r) s = (.ok text, s')) :
    ∃ file, exec (fileOf package goPackage more r) s = (.ok file, s') ∧ text = file.text ∧
      (∀ front, front <+: text.toList → front.count '\x7d' ≤ front.count '\x7b') ∧
      text.toList.count '\x7b' = text.toList.count '\x7d' + file.heads ∧ (r.schema.isSilentBelow = true →
        (∀ e ∈ r.schema.entriesOf "definitions", e.2.isSilentBelow = true) → file.heads = 0) := by
  obtain ⟨file, hfile, rfl⟩ := exec_sourceFile h
  obtain ⟨imports, declared, seen, himports, hdeclared, rfl⟩ := exec_fileOf hfile
  have hfit := fit_of_isRefFree hfree
  have hplain : PlainBelow false r.schema := ⟨hbraceless, hfit, nofun⟩
  have hclean : ∀ d ∈ declared, d.Clean false :=
    clean_declarations hplain (fun hsilent => by cases hsilent) _ _ _ _ _ hdeclared
  have hheader : LinesOpen 0 (SourceFile.mk package goPackage imports declared).header :=
    linesOpen_header hpackage hgo (braceless_allImports hfit hmore himports)
  have hopen := (hheader.append (declarations_linesOpen hclean)).opens_join
  obtain ⟨hclosed, hcount⟩ := count_of_openAfter (hopen 0)
  refine ⟨_, hfile, rfl, fun front hfront => ?_, ?_, fun hsilent hdefinitions => ?_⟩
  · have hle := hclosed front hfront
    rwa [Nat.zero_add] at hle
  · rw [Nat.zero_add, Nat.zero_add, Nat.zero_add, Nat.add_comm] at hcount
    exact hcount
  · have hquiet : ∀ d ∈ declared, d.Clean true :=
      clean_declarations ⟨hbraceless, hfit, fun _ => hsilent⟩ (fun _ => hdefinitions) _ _ _ _ _ hdeclared
    exact declarationHeads_eq_zero hquiet

/-- A schema with objects in objects, one of them for additional properties, an enumeration whose
description is a map, and a definition. -/
def shelf : Request where
  files := Reference.textFiles []
  file := some "shelf.json"
  stamp := "now"
  schema := .map [("title", "Shelf"), ("type", "object"),
    ("description", "A shelf."), ("properties", .map
      [("frame", .map [("type", "object"), ("properties", .map
          [("feet", .map [("type", "object"), ("properties", .map
            [("count", .map [("type", "integer")])])])])]),
        ("wood", .map [("enum", .list [.str "oak", .str "ash"]), (.str "enumDescriptions",
          .list [.map [("hard", .bool true)], .null])])]),
    ("additionalProperties", .map [("type", "object")]),
    ("definitions", .map [("board", .map [("type", "object"),
      ("description", "One board.")])])]

theorem sourceFile_braces_shelf : shelf.schema.isBraceless = true ∧ shelf.schema.isRefFree = true ∧
      ∃ text file s, exec (sourceFile "house" (some "house") [] shelf) {} = (.ok text, s) ∧
        exec (fileOf "house" (some "house") [] shelf) {} = (.ok file, s) ∧ file.heads = 0 ∧
        text.toList.count '\x7b' = text.toList.count '\x7d' := by
  have hbraceless : shelf.schema.isBraceless = true := by decide
  have hfree : shelf.schema.isRefFree = true := by decide
  have hok : (exec (sourceFile "house" (some "house") [] shelf) {}).1.isOk = true := by decide +kernel
  obtain ⟨text, htext⟩ := Outcome.eq_ok_of_isOk hok
  have hrun : exec (sourceFile "house" (some "house") [] shelf) {} = (.ok text, _) := Prod.ext htext rfl
  have hgo : ∀ path, some "house" = some path → Braceless path.toList := by
    intro path hpath
    cases hpath
    decide
  obtain ⟨file, hfile, _, _, hcount, hheads⟩ := sourceFile_braces (by decide) hgo (by decide) hbraceless hfree hrun
  have hnone := hheads (by decide) (by decide)
  rw [hnone, Nat.add_zero] at hcount
  exact ⟨hbraceless, hfree, text, file, _, hrun, hfile, hnone, hcount⟩

def drawer : Request where
  files := Reference.textFiles []
  stamp := "now"
  schema := .map [("title", "S"), ("type", "object"), ("properties", .map
    [("a", .map [("type", "object"), ("description", "d"),
      ("properties", .map [("b", .map [("type", "string")])])])])]

/-- The head of the message for the described object is written twice, and a brace is left open. -/
theorem sourceFile_braces_drawer : drawer.schema.isBraceless = true ∧ drawer.schema.isRefFree = true ∧
      (exec (sourceFile "schema" none [] drawer) {}).1 = .ok ("// GENERATED CODE - DO NOT EDIT\n" ++
        "// Generated by schema2code proto generator\n\nsyntax = \"proto3\";\n\npackage schema;\n\n" ++
        "message S \x7b\n  // d\n  message A \x7b\n  message A \x7b\n    string b = 1;\n  \x7d\n  \n\n" ++
        "  // d\n  A a = 1;\n\x7d\n") := by
  decide +kernel

end Proto

end Typewright
