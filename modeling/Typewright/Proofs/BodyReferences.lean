import Typewright.Proofs.Generators
import Typewright.Proofs.InnerTypes
import Typewright.Proofs.TypeSpellings
import Typewright.Proofs.WireFields

/-!
# References in the interfaces of definitions

The interface of a definition is written where only the name of its type is at hand, the root interface where
references are resolved.
-/

namespace Typewright

variable {v : Value} {name : Scalar} {text : String}

namespace RefM

/-- From these two states the two pieces of work come to the same, and neither changes its state. -/
def Alike (s s' : RefState) (x y : RefM α) : Prop :=
  ∃ r, exec x s = (r, s) ∧ exec y s' = (r, s')

namespace Alike

variable {s s' : RefState} {x y : RefM α} {f g : α → RefM β}

theorem of_eq (r : Except Fault α) : Alike s s' (liftM r) (liftM r) := ⟨r, rfl, rfl⟩

theorem of_bind (h : Alike s s' x y) (hfg : ∀ a, Alike s s' (f a) (g a)) : Alike s s' (x >>= f) (y >>= g) := by
  obtain ⟨r, hx, hy⟩ := h
  cases r with
  | error e => exact ⟨.error e, exec_bind_of_error hx, exec_bind_of_error hy⟩
  | ok a =>
    obtain ⟨r', hf, hg⟩ := hfg a
    exact ⟨r', (exec_bind_of_ok hx).trans hf, (exec_bind_of_ok hy).trans hg⟩

theorem of_ask {r : Except Fault α} (hfg : ∀ a, r = .ok a → Alike s s' (f a) (g a)) :
    Alike s s' (liftM r >>= f) (liftM r >>= g) := by
  cases r with
  | error e => exact ⟨.error e, rfl, rfl⟩
  | ok a => exact hfg a rfl

theorem of_ite {c : Prop} [Decidable c] {x' y' : RefM α} (hx : c → Alike s s' x y)
    (hy : ¬ c → Alike s s' x' y') : Alike s s' (if c then x else x') (if c then y else y') := by
  split
  · exact hx ‹_›
  · exact hy ‹_›

theorem exec_eq_ok {a : α} {s₁ : RefState} (h : Alike s s' x y) (hx : exec x s = (.ok a, s₁)) :
    exec y s' = (.ok a, s') := by
  obtain ⟨r, hx', hy⟩ := h
  cases hx.symm.trans hx'
  exact hy

end Alike

end RefM

open RefM Value Reference

theorem Value.Retitled.isMapWith {v w : Value} (h : Retitled v w) {name : String} (ne : name ≠ "title") :
    w.isMapWith name = v.isMapWith name := by
  rcases h with rfl | ⟨es, title, rfl, rfl⟩
  · rfl
  · rw [isMapWith_map, isMapWith_map, Entries.find?_put_of_ne ne.symm]

namespace TypeScriptType

/-! ## The references that are looked up -/

/-- The lists of options that a schema can have, in the order in which they are looked for. -/
def optionLists : List String :=
  ["oneOf", "anyOf", "allOf"]

/-- What takes the place of a list of options: a reference, or a list that is looked for earlier. -/
def lookedForBefore (key : String) : List String :=
  "$ref" :: optionLists.takeWhile (· != key)

/-- On the way to the type of the first schema, the reference on the second one is looked up. -/
inductive Consults : Value → Value → Prop
  | own {v : Value} (has : v.has "$ref" = .ok true) : Consults v v
  | option {v group option w : Value} {key : String} {options : List Value}
      (list : key ∈ optionLists) (lacks : ∀ k ∈ lookedForBefore key, v.has k = .ok false)
      (field : v.field key = .ok group) (items : group.items = .ok options)
      (mem : option ∈ options) (rest : Consults option w) : Consults v w
  | item {v items w : Value} (array : OfType v "array") (field : v.field "items" = .ok items)
      (lacks : items.has "oneOf" = .ok false) (rest : Consults items w) : Consults v w
  | itemOption {v items group option w : Value} {options : List Value} (array : OfType v "array")
      (field : v.field "items" = .ok items) (group_field : items.field "oneOf" = .ok group)
      (items_group : group.items = .ok options) (mem : option ∈ options) (rest : Consults option w) :
      Consults v w
  | value {v more w : Value} (object : OfType v "object") (lacks : v.has "properties" = .ok false)
      (field : v.field "additionalProperties" = .ok more) (typed : more.isMapWith "type" = true)
      (rest : Consults more w) : Consults v w

theorem Consults.eq_of_ref {w : Value} (h : Consults v w) (has : v.has "$ref" = .ok true) : w = v := by
  cases h with
  | own => rfl
  | option _ lacks => cases has.symm.trans (lacks _ (.head _))
  | item array => cases has.symm.trans (array.lacks _ (.head _))
  | itemOption array => cases has.symm.trans (array.lacks _ (.head _))
  | value object => cases has.symm.trans (object.lacks _ (.head _))

def NamesDefinition (schema : Value) : Prop :=
  ∃ text, schema.field "$ref" = .ok (.str text) ∧ isDefinition text = true

/-- The reference on the schema is to a definition that is more than another name for a file. -/
def NamesOwn (root schema : Value) : Prop :=
  ∃ text, schema.field "$ref" = .ok (.str text) ∧ isDefinition text = true ∧
    ∀ file, ¬ Reference.NamesFile root (lastName text) file

/-! ## Two scopes -/

section Scopes

variable {a b : TypeScriptScope} {s s' : RefState}

/-- In both scopes the reference on the schema gives a type, or both times the same fault. -/
def SettledIn (a b : TypeScriptScope) (s s' : RefState) (schema : Value) : Prop :=
  ∀ name, ∃ r : Except Fault TypeScriptType, exec (ofOwnRef a schema name) s = (r.map some, s) ∧
    exec (ofOwnRef b schema name) s' = (r.map some, s')

theorem alike_ofOptions {options : Value} {f g : Within options → Scalar → RefM TypeScriptType}
    (name : Scalar) (suffix : String) (i : Nat) {within : List (Within options)}
    (h : ∀ option ∈ within, ∀ name, Alike s s' (f option name) (g option name)) :
    Alike s s' (ofOptions f name suffix i within) (ofOptions g name suffix i within) := by
  induction within generalizing i with
  | nil => exact .of_eq (.ok [])
  | cons option rest ih =>
    refine .of_bind (h option List.mem_cons_self _) fun first => ?_
    exact .of_bind (ih _ fun o ho => h o (.tail _ ho)) fun _ => .of_eq (.ok _)

theorem alike_ofSchema (schema : Value) (name : Scalar) (h : ∀ w, Consults schema w → SettledIn a b s s' w) :
    Alike s s' (ofSchema a schema name) (ofSchema b schema name) := by
  have hoptions : ∀ {group : Value} {options : List (Within group)} (suffix : String), group.depth < schema.depth →
      (∀ option ∈ options.map Subtype.val, ∀ w, Consults option w → Consults schema w) →
      Alike s s' (ofOptions (fun option => ofSchema a option.val) name suffix 0 options)
        (ofOptions (fun option => ofSchema b option.val) name suffix 0 options) := by
    intro group options suffix hbelow hconsults
    refine alike_ofOptions name suffix 0 fun option hoption name => ?_
    have hdepth : option.val.depth < schema.depth := Nat.lt_of_le_of_lt option.property hbelow
    exact alike_ofSchema option.val name fun w hw =>
      h w (hconsults option.val (List.mem_map_of_mem hoption) w hw)
  -- The three lists of options are treated alike.
  have hlist : ∀ {key : String}, key ∈ optionLists →
      (∀ k ∈ lookedForBefore key, schema.has k = .ok false) → ∀ {group : Below schema}, schema.part key = .ok group →
      ∀ {options : List (Within group.val)}, group.val.itemsWithin = .ok options →
      ∀ wrap : List TypeScriptType → TypeScriptType,
      Alike s s' (do return wrap (← ofOptions (fun option => ofSchema a option.val) name "Option" 0 options))
        (do return wrap (← ofOptions (fun option => ofSchema b option.val) name "Option" 0 options)) := by
    intro key hkey hlacks group hgroup options hitems wrap
    refine .of_bind (hoptions _ group.property fun option hoption w hw => ?_) fun _ => .of_eq (.ok _)
    exact .option hkey hlacks (field_of_part hgroup) (items_of_itemsWithin hitems) hoption hw
  rw [ofSchema, ofSchema]
  cases href : schema.has "$ref" with
  | error e =>
    unfold ofOwnRef
    rw [href]
    exact ⟨.error e, rfl, rfl⟩
  | ok hasRef =>
  cases hasRef with
  | true =>
    obtain ⟨r, hr, hr'⟩ := h schema (.own href) name
    cases r with
    | error e => exact ⟨.error e, exec_bind_of_error hr, exec_bind_of_error hr'⟩
    | ok found => exact ⟨.ok found, exec_bind_of_ok hr, exec_bind_of_ok hr'⟩
  | false =>
    rw [ofOwnRef_of_lacks href, ofOwnRef_of_lacks href, pure_bind, pure_bind]
    dsimp only
    refine .of_ask fun _ honeOf => .of_ite ?oneOf fun hno => ?_
    case oneOf =>
      refine fun _ => .of_ask fun group hgroup => .of_ask fun options hitems => ?_
      exact hlist (by decide) (by simpa [lookedForBefore, optionLists] using href) hgroup hitems (.union <| distinct ·)
    rw [Bool.not_eq_true] at hno
    subst hno
    refine .of_ask fun _ hanyOf => .of_ite ?anyOf fun hno => ?_
    case anyOf =>
      refine fun _ => .of_ask fun group hgroup => .of_ask fun options hitems => ?_
      exact hlist (by decide) (by simpa [lookedForBefore, optionLists] using ⟨href, honeOf⟩) hgroup hitems
        (.union <| distinct ·)
    rw [Bool.not_eq_true] at hno
    subst hno
    refine .of_ask fun _ hallOf => .of_ite ?allOf fun hno => ?_
    case allOf =>
      refine fun _ => .of_ask fun group hgroup => .of_ask fun options hitems => ?_
      exact hlist (by decide) (by simpa [lookedForBefore, optionLists] using ⟨href, honeOf, hanyOf⟩) hgroup hitems
        (.intersection <| distinct ·)
    rw [Bool.not_eq_true] at hno
    subst hno
    refine .of_ask fun _ hnot => .of_ite (fun _ => .of_eq (.ok _)) fun hno => ?_
    rw [Bool.not_eq_true] at hno
    subst hno
    refine .of_ask fun type htype => .of_ask fun format _ => ?_
    have hof : ∀ text, type.isStr text → OfType schema text := by
      intro text hstr
      refine ⟨by simpa using ⟨href, honeOf, hanyOf, hallOf, hnot⟩, ?_⟩
      rw [htype, eq_str_of_isStr hstr]
    split
    · exact .of_eq (.ok _)
    refine .of_ite (fun _ => .of_ask fun _ _ => .of_eq (.ok _)) fun _ => .of_ite (fun _ => .of_eq (.ok _))
      fun _ => .of_ite (fun _ => .of_eq (.ok _)) fun _ => .of_ite ?array fun _ => .of_ite ?object
      fun _ => .of_eq (.ok _)
    case array =>
      intro harray
      refine .of_ask fun items hitems => ?_
      rcases items with _ | ⟨items, hbelow⟩
      · exact .of_eq (.ok _)
      have hfield := field_of_part? hitems
      refine .of_ask fun _ hhas => .of_ite ?_ fun hno => ?_
      · refine fun _ => .of_ask fun group hgroup => .of_ask fun options hoptionItems => ?_
        refine .of_bind (hoptions "Item" (Nat.lt_trans group.property hbelow) fun option hoption w hw => ?_)
          fun _ => .of_eq (.ok _)
        exact .itemOption (hof _ harray) hfield (field_of_part hgroup)
          (items_of_itemsWithin hoptionItems) hoption hw
      · rw [Bool.not_eq_true] at hno
        subst hno
        refine .of_bind (alike_ofSchema items _ fun w hw => h w ?_) fun _ => .of_eq (.ok _)
        exact .item (hof _ harray) hfield hhas hw
    case object =>
      intro hobject
      refine .of_ask fun _ hhas => .of_ite (fun _ => .of_eq (ofName name)) fun hno => ?_
      rw [Bool.not_eq_true] at hno
      subst hno
      refine .of_ask fun more hmore => ?_
      rcases more with _ | ⟨more, hbelow⟩
      · exact .of_eq (.ok _)
      refine .of_ite (fun htyped => ?_) fun _ => .of_eq (.ok _)
      refine .of_bind (alike_ofSchema more _ fun w hw => h w ?_) fun _ => .of_eq (.ok _)
      exact .value (hof _ hobject) hhas (field_of_part? hmore) htyped hw
termination_by schema.depth
decreasing_by all_goals omega

end Scopes

/-! ## The body of a type -/

theorem namesDefinition_of_ofSchema {typeName : Scalar} {type : TypeScriptType} {s s' : RefState}
    (has : v.has "$ref" = .ok true) (h : exec (ofSchema (.body typeName) v name) s = (.ok type, s')) :
    NamesDefinition v := by
  rw [ofSchema] at h
  obtain ⟨found, s₁, hown, _⟩ := exec_bind_ok h
  unfold ofOwnRef at hown
  obtain ⟨hasRef, hhas, h1⟩ := exec_ask_ok hown
  cases has.symm.trans hhas
  obtain ⟨ref, href, h2⟩ := exec_ask_ok h1
  obtain ⟨type, htype, _⟩ := exec_ask_ok h2
  obtain ⟨text, htext, hrest⟩ := bind_ok htype
  cases textOf_eq_ok htext
  refine ⟨text, href, ?_⟩
  by_contra hdef
  rw [if_neg hdef] at hrest
  dsimp only at hrest
  split at hrest <;> cases hrest

/-! ## The body of a type and the root -/

section Root

variable {given : RefScope} {typeName : Scalar} {v w : Value} {s s' : RefState}

theorem get?_definitions_of_sound (hs : Sound given s.tables)
    (h : ∀ file, ¬ NamesFile given.root text file) : s.tables.definitions.get? text = none := by
  cases found : s.tables.definitions.get? text with
  | none => rfl
  | some file => exact absurd (hs.definitions _ _ (Table.mem_of_get? found)) (h file)

theorem ofBodyRef_definition (h : isDefinition text) :
    ofBodyRef typeName (.str text) = .ok (.name (lastName text)) := by
  change (if isDefinition text = true then _ else _) = _
  rw [if_pos h]
  rfl

theorem exec_ofRef_definition (h : isDefinition text) (hnone : s.tables.definitions.get? (lastName text) = none) :
    exec (ofRef given (.str text) name) s = (.ok (.name (lastName text)), s) := by
  change exec (if isDefinition text = true then _ else _) s = _
  rw [if_pos h, hnone]
  rfl

theorem settledIn_of_namesOwn (hs : Sound given s'.tables) (h : NamesOwn given.root w) :
    SettledIn (.body typeName) (.resolver given) s s' w := by
  obtain ⟨text, href, hdef, hplain⟩ := h
  intro name
  refine ⟨.ok (.name (lastName text)), ?_, ?_⟩
  · unfold ofOwnRef
    rw [has_of_field href, href, lift_ok_bind]
    change exec (liftM (ofBodyRef typeName (.str text)) >>= fun t => pure (some t)) s = _
    rw [ofBodyRef_definition hdef]
    rfl
  have hnone := get?_definitions_of_sound hs hplain
  unfold ofOwnRef
  rw [has_of_field href, href, lift_ok_bind]
  change exec (tryCatch (ofRef given (.str text) name >>= fun t => pure (some t)) _) s' = _
  rw [exec_tryCatch, exec_bind_of_ok (exec_ofRef_definition hdef hnone)]
  rfl

theorem alike_body_resolver (name : Scalar) (hs : Sound given s'.tables)
    (h : ∀ w, Consults v w → typeName.truthy ∧ NamesOwn given.root w) :
    Alike s s' (ofSchema (.ofBody typeName) v name) (ofSchema (.resolver given) v name) := by
  refine alike_ofSchema v name fun w hw => ?_
  obtain ⟨htruthy, howns⟩ := h w hw
  rw [TypeScriptScope.ofBody, if_pos htruthy]
  exact settledIn_of_namesOwn hs howns

end Root

end TypeScriptType

namespace TypeScript

open TypeScriptType (Consults NamesDefinition NamesOwn)

/-! ## The interface of a definition -/

/-- What becomes of a property of a definition. -/
structure TypedInBody (given : RefScope) (name : String) (property : Scalar × Value) (f : Field) : Prop where
  named : f.name = property.1.text
  /-- The type is found where only the name of the definition is at hand. -/
  typed : ∃ type s s', f.type = type.text ∧
    exec (TypeScriptType.ofSchema (.ofBody (.str name)) property.2 property.1) s = (.ok type, s')
  ref : name ≠ "" → property.2.has "$ref" = .ok true → NamesDefinition property.2
  /-- It is the one at the root if the references are to definitions that stand for themselves. -/
  root : (∀ w, Consults property.2 w → name ≠ "" ∧ NamesOwn given.root w) →
    ∀ s, Reference.Sound given s.tables → ∃ type, f.type = type.text ∧
      exec (TypeScriptType.ofSchema (.resolver given) property.2 property.1) s = (.ok type, s)

section Definition

variable {given : RefScope} {name : String} {schema : Value} {s s' : RefState}

theorem truthy_str_iff : (Scalar.str name).truthy ↔ name ≠ "" := by
  rw [Scalar.truthy, Bool.not_eq_true', Bool.eq_false_iff, Ne, String.isEmpty_iff]

theorem typedInBody_of_field {required : Value} {property : Scalar × Value} {f : Field}
    (h : exec (field (.ofBody (.str name)) required property.1 property.2) s = (.ok f, s')) :
    TypedInBody given name property f := by
  obtain ⟨description, _, h1⟩ := exec_ask_ok h
  obtain ⟨isRequired, _, h2⟩ := exec_ask_ok h1
  obtain ⟨type, s₁, htype, h3⟩ := exec_bind_ok h2
  cases h3
  refine ⟨rfl, ⟨type, s, s', rfl, htype⟩, fun hname hhas => ?_, fun hown s₂ hs => ⟨type, rfl, ?_⟩⟩
  · rw [TypeScriptScope.ofBody, if_pos (truthy_str_iff.mpr hname)] at htype
    exact TypeScriptType.namesDefinition_of_ofSchema hhas htype
  · refine (TypeScriptType.alike_body_resolver _ hs fun w hw => ?_).exec_eq_ok htype
    exact (hown w hw).imp truthy_str_iff.mpr id

theorem exec_declared_body {d : Declared} (noEnum : schema.isMapWith "enum" = false)
    (h : exec (declared (.ofBody (.str name)) schema) s = (.ok d, s')) :
    schema.titleOrRoot = .ok d.name ∧ ∃ description fields, d.text = Text.join "\n" (docLines "" description ++
        ("export interface " ++ d.name ++ " \x7b") :: fields.flatMap Field.lines ++ ["\x7d"]) ∧
      List.Forall₂ (TypedInBody given name) (schema.entriesOf "properties") fields := by
  obtain ⟨title, htitle, h1⟩ := exec_ask_ok h
  obtain ⟨text, s₁, htext, h2⟩ := exec_bind_ok h1
  cases h2
  obtain ⟨title', htitle', h3⟩ := exec_ask_ok htext
  cases htitle.symm.trans htitle'
  obtain ⟨description, _, h4⟩ := exec_ask_ok h3
  obtain ⟨hasEnum, hhas, h5⟩ := exec_ask_ok h4
  rw [has_eq_isMapWith "enum" (isMap_of_titleOrRoot htitle), noEnum] at hhas
  cases hhas
  obtain ⟨required, _, h6⟩ := exec_ask_ok h5
  obtain ⟨properties, hprops, h7⟩ := exec_ask_ok h6
  obtain ⟨fields, s₂, hfields, h8⟩ := exec_bind_ok h7
  cases h8
  rw [fields_eq_mapM] at hfields
  refine ⟨htitle, description.saying, fields, rfl, ?_⟩
  rw [entriesOf_eq hprops]
  exact (exec_mapM_eq_ok hfields).imp fun e f ⟨_, _, hf⟩ => typedInBody_of_field hf

theorem isFileRef_of_lacks {isFile : Bool} (noRef : schema.isMapWith "$ref" = false)
    (h : isFileRef schema = .ok isFile) : isFile = false := by
  obtain ⟨hasRef, hhas, h1⟩ := bind_ok h
  cases hasRef with
  | false =>
    cases h1
    rfl
  | true =>
    obtain ⟨ref, href, _⟩ := bind_ok h1
    have hmap := isMap_of_field href
    rw [has_eq_isMapWith "$ref" hmap, noRef] at hhas
    cases hhas

theorem exec_definitionDeclarations {definitions : Entries} {seen seen' : List Scalar} {out : List Declared}
    (found : Entries.find? definitions (.str name) = some schema) (noRef : schema.isMapWith "$ref" = false)
    (hplain : ∀ file, ¬ NamesFile given.root name file)
    (hs : Sound given s.tables) (hseen : Seen.has seen (.str name) = false)
    (h : exec ((definitionDeclarations (some given) definitions).run seen) s = (.ok (out, seen'), s')) :
    ∃ d ∈ out, ∃ titled s₁ s₂, schema.withTitle (.str name) = .ok titled ∧
      exec (declared (.ofBody (.str name)) titled.val) s₁ = (.ok d, s₂) := by
  induction definitions generalizing seen s out with
  | nil => cases found
  | cons e rest ih =>
    obtain ⟨key, v⟩ := e
    obtain ⟨isSeen, seen1, s₁, hisSeen, h1⟩ := run_bind_ok h
    cases hisSeen
    rw [Entries.find?] at found
    by_cases hkey : key.same (.str name)
    · -- The turn of the definition itself.
      rw [if_pos hkey] at found
      cases found
      cases Scalar.same_str_iff.mp hkey
      rw [hseen] at h1
      obtain ⟨isFile, hisFile, h2⟩ := run_ask_ok h1
      cases isFileRef_of_lacks noRef hisFile
      obtain ⟨_, seen2, s₂, hmark, h3⟩ := run_bind_ok h2
      cases hmark
      obtain ⟨stands, s3, hstands, h4⟩ := run_lift_ok h3
      cases hstands
      rw [Table.has, TypeScriptType.get?_definitions_of_sound hs hplain] at h4
      obtain ⟨titled, htitled, h5⟩ := run_ask_ok h4
      obtain ⟨d, s4, hd, h6⟩ := run_lift_ok h5
      obtain ⟨others, seen3, s5, _, h7⟩ := run_bind_ok h6
      cases h7
      exact ⟨d, .head _, titled, _, s4, htitled, hd⟩
    rw [if_neg hkey] at found
    have hother : Seen.has (Seen.add seen key) (.str name) = false := by
      rw [Bool.eq_false_iff, Ne, Seen.has_add_iff, not_or]
      exact ⟨Bool.eq_false_iff.mp hseen, fun heq => hkey (Scalar.same_str_iff.mpr heq)⟩
    cases hname : Seen.has seen key with
    | true =>
      rw [hname] at h1
      exact ih found hs hseen h1
    | false =>
      rw [hname] at h1
      obtain ⟨isFile, _, h2⟩ := run_ask_ok h1
      obtain ⟨_, seen2, s₂, hmark, h3⟩ := run_bind_ok h2
      cases hmark
      cases isFile with
      | true => exact ih found hs hother h3
      | false =>
      obtain ⟨stands, s3, hstands, h4⟩ := run_lift_ok h3
      have hs3 := sound_of_changes (Follows.changes (P := KindFault) inferInstance hstands) hs
      cases stands with
      | true => exact ih found hs3 hother h4
      | false =>
      obtain ⟨titled, _, h5⟩ := run_ask_ok h4
      obtain ⟨first, s4, hfirst, h6⟩ := run_lift_ok h5
      obtain ⟨others, seen3, s5, hothers, h7⟩ := run_bind_ok h6
      cases h7
      have hs4 := sound_of_changes (Follows.changes (P := KindFault) inferInstance hfirst) hs3
      obtain ⟨d, hd, hrest⟩ := ih found hs4 hother hothers
      exact ⟨d, .tail _ hd, hrest⟩

end Definition

theorem not_namesFile {root schema : Value} {name : String}
    (found : Entries.find? (root.entriesOf "definitions") (.str name) = some schema)
    (noRef : schema.isMapWith "$ref" = false) (file : String) : ¬ NamesFile root name file := by
  rintro ⟨href, _⟩
  obtain ⟨_, _, mem⟩ := mem_of_find? found
  obtain ⟨group, hgroup, hentries⟩ := field_of_entriesAt (entriesAt_of_mem_entriesOf mem) mem
  have hfield : group.field name = .ok schema := by
    cases group with
    | map es =>
      cases hentries
      rw [field_map, found]
    | _ => cases hentries
  rw [definitionRef, hgroup, Outcome.ok_bind, hfield, Outcome.ok_bind] at href
  have hhas := has_of_field href
  rw [has_eq_isMapWith "$ref" (isMap_of_field href), noRef] at hhas
  cases hhas

section File

variable {r : Request} {given : RefScope} {name : String} {schema : Value}
  {s s' : RefState} {file : SourceFile}

theorem exported_of_fileOf (hscope : r.scope = some given) (hroot : given.root = r.schema)
    (found : Entries.find? (r.schema.entriesOf "definitions") (.str name) = some schema)
    (noRef : schema.isMapWith "$ref" = false) (hs : Sound given s.tables)
    (h : exec (fileOf r) s = (.ok file, s')) :
    ∃ d ∈ file.exported, ∃ titled s₁ s₂, schema.withTitle (.str name) = .ok titled ∧
      exec (declared (.ofBody (.str name)) titled.val) s₁ = (.ok d, s₂) := by
  obtain ⟨imports, s₁, himports, h1⟩ := exec_bind_ok h
  obtain ⟨⟨nested, seen⟩, s₂, hnested, h2⟩ := exec_bind_ok h1
  obtain ⟨root, s3, _, h3⟩ := exec_bind_ok h2
  cases h3
  have hfollows : Follows (some given) KindFault (TypeScript.imports r) := hscope ▸ inferInstance
  have hs1 := sound_of_changes (hfollows.changes himports) hs
  rw [hscope] at hnested
  obtain ⟨out, properties, seen1, s4, rfl, hout, _⟩ := Nested.run_inTurn_eq_ok
    (f := definitionDeclarations (some given)) (g := propertyDeclarations (some given)) rfl hnested
  have hplain := not_namesFile found noRef
  rw [← hroot] at hplain
  obtain ⟨d, hd, hdeclared⟩ := exec_definitionDeclarations found noRef hplain hs1 rfl hout
  exact ⟨d, List.mem_append_left _ (List.mem_append_left _ hd), hdeclared⟩

theorem interface_of_fileOf (hscope : r.scope = some given) (hroot : given.root = r.schema)
    (found : Entries.find? (r.schema.entriesOf "definitions") (.str name) = some schema)
    (noRef : schema.isMapWith "$ref" = false) (noEnum : schema.isMapWith "enum" = false)
    (hs : Sound given s.tables) (h : exec (fileOf r) s = (.ok file, s')) :
    ∃ d ∈ file.exported, d.name = (Value.str name).typeName ∧ ∃ description fields,
      d.text = Text.join "\n" (docLines "" description ++
        ("export interface " ++ d.name ++ " \x7b") :: fields.flatMap Field.lines ++ ["\x7d"]) ∧
      List.Forall₂ (TypedInBody given name) (schema.entriesOf "properties") fields := by
  obtain ⟨d, hd, titled, s₁, s₂, htitled, hdeclared⟩ := exported_of_fileOf hscope hroot found noRef hs h
  have hretitled := retitled_withTitle htitled
  rw [← hretitled.isMapWith (show "enum" ≠ "title" by decide)] at noEnum
  obtain ⟨htitle, description, fields, htext, hfields⟩ := exec_declared_body noEnum hdeclared
  rw [hretitled.entriesOf (by decide)] at hfields
  exact ⟨d, hd, Nested.typeName_withTitle htitled rfl htitle, description, fields, htext, hfields⟩

/-- The properties of a definition are typed as at the root as long as all references on the way to the type are to
definitions that stand for themselves. A property that is a reference to something else makes the generation fail. -/
theorem definition_typed_like_root (hscope : r.scope = some given) (hroot : given.root = r.schema)
    (found : Entries.find? (r.schema.entriesOf "definitions") (.str name) = some schema)
    (noRef : schema.isMapWith "$ref" = false) (noEnum : schema.isMapWith "enum" = false)
    (hs : Reference.Sound given s.tables) : (∀ property ∈ schema.entriesOf "properties",
      (∀ w, Consults property.2 w → name ≠ "" ∧ NamesOwn r.schema w) → ∀ s₁ s₂, Reference.Sound given s₂.tables →
        Alike s₁ s₂ (TypeScriptType.ofSchema (.ofBody (.str name)) property.2 property.1)
          (TypeScriptType.ofSchema (.resolver given) property.2 property.1)) ∧
    (∀ property ∈ schema.entriesOf "properties", property.2.has "$ref" = .ok true → name ≠ "" →
      ¬ NamesDefinition property.2 → (exec (fileOf r) s).1.isOk = false) ∧
    ∀ file s', exec (fileOf r) s = (.ok file, s') →
      ∃ d ∈ file.exported, d.name = (Value.str name).typeName ∧ ∃ description fields,
        d.text = Text.join "\n" (docLines "" description ++
          ("export interface " ++ d.name ++ " \x7b") :: fields.flatMap Field.lines ++ ["\x7d"]) ∧
        List.Forall₂ (TypedInBody given name) (schema.entriesOf "properties") fields := by
  have hreturns := fun file s' (h : exec (fileOf r) s = (.ok file, s')) =>
    interface_of_fileOf hscope hroot found noRef noEnum hs h
  refine ⟨fun property _ hown s₁ s₂ hs2 => ?_, fun property hproperty hhas hname hnot => ?_, hreturns⟩
  · refine TypeScriptType.alike_body_resolver _ hs2 fun w hw => ?_
    rw [hroot]
    exact (hown w hw).imp truthy_str_iff.mpr id
  by_contra hok
  rw [Bool.not_eq_false] at hok
  obtain ⟨file, hfile⟩ := Outcome.eq_ok_of_isOk hok
  obtain ⟨d, _, _, _, fields, _, hfields⟩ := hreturns file _ (Prod.ext hfile rfl)
  have hnames := (List.forall₂_and_left _ _).mp (hfields.imp fun e f hf => ⟨hf.ref hname, hf⟩)
  exact hnot (hnames.1 property hproperty hhas)

def refTo (ref : String) : Value :=
  .map [("$ref", .str ref)]

def line (item : Value) : Value :=
  .map [("properties", .map [("item", item)])]

def orders (item definition : Value) : RefScope :=
  { files :=
      { cwd := []
        entries := [(["product.json"], .file "\x7b\"title\": \"Product\"\x7d".toUTF8.toList)] }
    base := "orders.json"
    root := .map [("title", "Orders"),
      ("definitions", .map [("Line", line item), ("Item", definition)]),
      ("properties", .map [("item", item)])] }

def ordersRequest (item definition : Value) : Request :=
  { files := (orders item definition).files
    schema := (orders item definition).root
    file := some "orders.json"
    stamp := "now" }

/-- Where the item is a definition, a line is typed like the order. Where it is a document of its own, nothing
is generated. -/
theorem definition_typed_like_root_line : let item := refTo "#/definitions/Item"
    (∀ s₁ s₂, Reference.Sound (orders item .empty) s₂.tables →
      Alike s₁ s₂ (TypeScriptType.ofSchema (.ofBody (.str "Line")) item (.str "item"))
        (TypeScriptType.ofSchema (.resolver (orders item .empty)) item (.str "item"))) ∧
    (∃ file s', exec (fileOf (ordersRequest item .empty)) {} = (.ok file, s') ∧
      ∃ d ∈ file.exported, d.name = (Value.str "Line").typeName ∧ ∃ description fields,
        d.text = Text.join "\n" (docLines "" description ++
          ("export interface " ++ d.name ++ " \x7b") :: fields.flatMap Field.lines ++ ["\x7d"]) ∧
        List.Forall₂ (TypedInBody (orders item .empty) "Line") [(.str "item", item)] fields) ∧
    (exec (fileOf (ordersRequest (refTo "product.json") .empty)) {}).1.isOk = false := by
  intro item
  have hfound : ∀ item, Entries.find? ((ordersRequest item .empty).schema.entriesOf "definitions")
      (.str "Line") = some (line item) := fun _ => rfl
  have hmem : ∀ item, (.str "item", item) ∈ (line item).entriesOf "properties" := fun _ => List.mem_singleton_self _
  have hown : ∀ w, Consults item w → "Line" ≠ "" ∧ NamesOwn (ordersRequest item .empty).schema w := by
    intro w hw
    obtain rfl := hw.eq_of_ref rfl
    refine ⟨by decide, "#/definitions/Item", rfl, by decide +kernel, ?_⟩
    rintro file ⟨href, _⟩
    rw [show lastName "#/definitions/Item" = "Item" by decide +kernel] at href
    cases href
  obtain ⟨halike, _, hreturns⟩ := definition_typed_like_root (s := {}) rfl rfl (hfound item) rfl rfl
    (sound_empty (orders item .empty))
  obtain ⟨_, hfails, _⟩ := definition_typed_like_root (s := {}) rfl rfl (hfound (refTo "product.json")) rfl rfl
    (sound_empty (orders (refTo "product.json") .empty))
  refine ⟨halike _ (hmem item) hown, ?_, hfails _ (hmem _) rfl (by decide) ?_⟩
  · obtain ⟨file, hfile⟩ := Outcome.eq_ok_of_isOk
      (show (exec (fileOf (ordersRequest item .empty)) {}).1.isOk = true by decide +kernel)
    exact ⟨file, _, Prod.ext hfile rfl, hreturns file _ (Prod.ext hfile rfl)⟩
  · rintro ⟨text, hfield, hdefinition⟩
    cases hfield
    exact absurd hdefinition (by decide +kernel)

/-- A reference to a document is a fault in a definition, while at the root it has a type, and so does a definition
that stands for a document. -/
theorem line_not_typed_like_root : ((exec (fileOf (ordersRequest (refTo "product.json") .empty)) {}).1.isOk = false ∧
      (exec (TypeScriptType.ofSchema (.resolver (orders (refTo "product.json") .empty))
        (refTo "product.json") (.str "item")) {}).1.toOption.map (·.text) = some "Product") ∧
    (exec (fileOf (ordersRequest (refTo "#/definitions/Item") (refTo "product.json"))) {}).1.toOption.map
        (·.exported.map (·.text)) = some ["export interface Line \x7b\n  item?: Item;\n\x7d",
        "export interface Orders \x7b\n  item?: Product;\n\x7d"] := by
  decide +kernel

end File

end TypeScript

end Typewright
