import Typewright.Proofs.SimpleSchemas

/-!
# Messages inside messages

For a schema of objects and primitive values, the message for the schema holds a message for each object in it, as
long as no two of them have types of the same name.
-/

namespace Typewright

open RefM

variable {s s' : RefState} {last start : Point} {seen' : List Scalar} {more slots : List Slot} {number : Nat}
  {m : Message} {seen : List Scalar} {name : String}

namespace Proto

/-! ## Coverage -/

mutual

/-- Whether the message has a field for each part of an object, in order and under its name, and for each
object among them a message that has the same. -/
def Message.covers : Message → Value → Bool
  | .mk _ _ slots, schema => slotsCover slots (parts schema)

def slotsCover : List Slot → List Part → Bool
  | [], [] => true
  | slot :: slots, part :: parts => slot.covers part && slotsCover slots parts
  | _, _ => false

def Slot.covers : Slot → Part → Bool
  | .mk none field, part => field.name == part.field && !part.schema.isOfType "object"
  | .mk (some declaration) field, part => field.name == part.field && declaration.covers part.schema

def Declaration.covers : Declaration → Value → Bool
  | .object _ m, schema => schema.isOfType "object" && m.covers schema
  | _, _ => false

end

/-! ## Runs that make parts -/

variable {scope : Option RefScope} {schema : Value}

/-- What is made for a part: a field under its name, with the type that is declared for it. -/
inductive MakesPart (scope : Option RefScope) (part : Part) : Point → Slot → Point → Prop
  | any {field : Field} {start : Point} (untyped : part.schema.isTrue = true)
      (named : field.name = part.field) : MakesPart scope part start (.mk none field) start
  | typed {field : Field} {type : FieldType} {seen seen' : List Scalar} {s s' : RefState}
      (made : exec ((fieldType scope part.schema part.key).run seen) s = (.ok (type, seen'), s'))
      (named : field.name = part.field) : MakesPart scope part (seen, s) (.mk type.nested field) (seen', s')

/-- What is made for parts in a row. -/
inductive MakesParts (scope : Option RefScope) : List Part → Point → List Slot → Point → Prop
  | nil {start : Point} : MakesParts scope [] start [] start
  | cons {part : Part} {rest : List Part} {start middle last : Point} {slot : Slot} {slots : List Slot}
      (first : MakesPart scope part start slot middle) (others : MakesParts scope rest middle slots last) :
      MakesParts scope (part :: rest) start (slot :: slots) last

theorem MakesParts.append {front back : List Part} {middle : Point} {own : List Slot}
    (h : MakesParts scope front start own middle) (h' : MakesParts scope back middle more last) :
    MakesParts scope (front ++ back) start (own ++ more) last := by
  induction h with
  | nil => exact h'
  | cons first _ ih => exact .cons first (ih h')

theorem MakesSlots.makesParts {entries : Entries} (h : MakesSlots scope number entries start slots last) :
    MakesParts scope (entries.map .ofEntry) start slots last := by
  induction h with
  | nil => exact .nil
  | cons first _ ih =>
    refine .cons ?_ ih
    obtain ⟨typed, said, named⟩ := first
    refine .typed typed ?_
    show _ = fieldName _
    rw [fieldName, named]

theorem makesParts_of_moreSlots (h : exec ((moreSlots scope schema number).run seen) s = (.ok (more, seen'), s')) :
    MakesParts scope ((additional schema).toList.map .ofAdditional) (seen, s) more (seen', s') := by
  unfold moreSlots at h
  obtain ⟨part, hpart, h1⟩ := run_ask_ok h
  rw [additional_of_part? hpart]
  cases part with
  | none =>
    cases h1
    exact .nil
  | some found =>
    dsimp only [Option.map_some] at h1 ⊢
    rw [Option.filter_some]
    split at h1
    · next htrue =>
      cases h1
      rw [htrue, Bool.true_or]
      exact .cons (.any htrue rfl) .nil
    · next htrue =>
      rw [Bool.eq_false_iff.mpr htrue, Bool.false_or]
      split at h1
      · next hmap =>
        obtain ⟨type, seen1, s1, htype, h2⟩ := run_bind_ok h1
        cases h2
        rw [hmap]
        exact .cons (.typed htype rfl) .nil
      · next hmap =>
        cases h1
        rw [Bool.eq_false_iff.mpr hmap]
        exact .nil

theorem exec_message_parts (h : exec ((message scope schema name).run seen) s = (.ok (m, seen'), s')) :
    ∃ comment slots, m = .mk comment name slots ∧
      MakesParts scope (parts schema) (Seen.add seen (.str name), s) slots (seen', s') := by
  obtain ⟨comment, properties, own, more, seen1, s1, rfl, _, hprops, hown, hmore⟩ := exec_message h
  refine ⟨comment, own ++ more, rfl, ?_⟩
  unfold parts
  rw [Value.entriesOf_eq hprops]
  exact hown.makesParts.append (makesParts_of_moreSlots hmore)

theorem exec_fieldType_simple {key : Scalar} {type : FieldType} (hsimple : isSimple schema)
    (h : exec ((fieldType scope schema key).run seen) s = (.ok (type, seen'), s')) :
    (schema.isOfType "object" = false ∧ type.nested = none ∧ seen' = seen) ∨
      (schema.isOfType "object" ∧ Seen.has seen (.str (typeName key)) ∧ type.nested = none) ∨
      (schema.isOfType "object" ∧ Seen.has seen (.str (typeName key)) = false ∧
        ∃ comment m, type.nested = some (.object comment m) ∧
          exec ((message scope schema (typeName key)).run seen) s = (.ok (m, seen'), s')) := by
  obtain ⟨hmap, hno, harray⟩ := isUncombined_iff.mp (isUncombined_of_isSimple hsimple)
  rw [fieldType] at h
  have h1 := run_no_bind (hno "oneOf" (by decide)) h
  have h2 := run_no_bind (hno "anyOf" (by decide)) h1
  have h3 := run_no_bind (hno "allOf" (by decide)) h2
  have h4 := run_no_bind (hno "not" (by decide)) h3
  obtain ⟨found, s1, hfound, h5⟩ := run_lift_ok h4
  rw [ofOwnRef_eq_none (hno "$ref" (by decide))] at hfound
  cases hfound
  obtain ⟨kind, hkind, h6⟩ := run_ask_ok h5
  dsimp only at h6
  rw [if_neg (by rw [Value.isStr_of_field? hkind, harray]; nofun)] at h6
  have h7 := run_no_bind (hno "enum" (by decide)) h6
  -- what is left is an object or a primitive value
  rw [Value.isStr_of_field? hkind] at h7
  split at h7
  · next hobject =>
    obtain ⟨name, hname, h8⟩ := run_ask_ok h7
    have htype : typeName key = name := by rw [typeName, hname]
    obtain ⟨properties, hprops, h9⟩ := run_ask_ok h8
    obtain ⟨isSeen, seen1, s1, hseen, h10⟩ := run_bind_ok h9
    cases hseen
    rw [htype]
    split at h10
    · next hhas =>
      cases h10
      exact .inr (.inl ⟨hobject, hhas, rfl⟩)
    · next hhas =>
      obtain ⟨description, _, h11⟩ := run_ask_ok h10
      rw [if_pos (hasProperties_of_isSimple hsimple hobject hprops)] at h11
      obtain ⟨m, seen2, s2, hm, h12⟩ := run_bind_ok h11
      cases h12
      exact .inr (.inr ⟨hobject, Bool.eq_false_iff.mpr hhas, _, m, rfl, hm⟩)
  · next hobject =>
    obtain ⟨format, _, h8⟩ := run_ask_ok h7
    cases h8
    exact .inl ⟨Bool.eq_false_iff.mpr hobject, rfl, rfl⟩

/-! ## New names -/

def Fresh (seen : List Scalar) (names : List String) : Prop :=
  names.Nodup ∧ ∀ name ∈ names, Seen.has seen (.str name) = false

/-- The parts are covered if and only if the names of their types are new, and then these names are what is
seen in addition. -/
structure Covering (covered : Bool) (names : List String) (seen seen' : List Scalar) : Prop where
  fresh_iff : covered = true ↔ Fresh seen names
  has_iff : covered = true → ∀ name, Seen.has seen' (.str name) = true ↔
    Seen.has seen (.str name) = true ∨ name ∈ names

namespace Covering

variable {covered covered' : Bool} {names names' : List String} {name : String}
variable {seen seen1 seen2 : List Scalar}

theorem nil (seen : List Scalar) : Covering true [] seen seen where
  fresh_iff := ⟨fun _ => ⟨.nil, nofun⟩, fun _ => rfl⟩
  has_iff _ name := by simp

theorem append (h : Covering covered names seen seen1) (h' : Covering covered' names' seen1 seen2) :
    Covering (covered && covered') (names ++ names') seen seen2 where
  fresh_iff := by
    rw [Bool.and_eq_true, Fresh, List.nodup_append, List.forall_mem_append]
    constructor
    · rintro ⟨hfront, hback⟩
      obtain ⟨hnodup, hnew⟩ := h.fresh_iff.mp hfront
      obtain ⟨hnodup', hnew'⟩ := h'.fresh_iff.mp hback
      -- what was not seen after the front was not seen before it, and is not one of its names
      have hapart : ∀ name ∈ names', Seen.has seen (.str name) = false ∧ name ∉ names := by
        intro name hname
        have hno := hnew' name hname
        rw [← Bool.not_eq_true, h.has_iff hfront name, not_or, Bool.not_eq_true] at hno
        exact hno
      refine ⟨⟨hnodup, hnodup', ?_⟩, hnew, fun name hname => (hapart name hname).1⟩
      rintro name hname _ hname' rfl
      exact (hapart name hname').2 hname
    · rintro ⟨⟨hnodup, hnodup', hapart⟩, hnew, hnew'⟩
      have hfront := h.fresh_iff.mpr ⟨hnodup, hnew⟩
      refine ⟨hfront, h'.fresh_iff.mpr ⟨hnodup', fun name hname => ?_⟩⟩
      rw [← Bool.not_eq_true, h.has_iff hfront name, not_or, Bool.not_eq_true]
      exact ⟨hnew' name hname, fun hmem => hapart name hmem name hname rfl⟩
  has_iff hcovered name := by
    rw [Bool.and_eq_true] at hcovered
    rw [h'.has_iff hcovered.2, h.has_iff hcovered.1, List.mem_append, or_assoc]

theorem object (hnew : Seen.has seen (.str name) = false)
    (h : Covering covered names (Seen.add seen (.str name)) seen1) : Covering covered (name :: names) seen seen1 where
  fresh_iff := by
    have hadd : ∀ other, Seen.has (Seen.add seen (.str name)) (.str other) = false ↔
        Seen.has seen (.str other) = false ∧ other ≠ name := by
      intro other
      rw [← Bool.not_eq_true, Seen.has_add_iff, not_or, Bool.not_eq_true]
      exact and_congr_right fun _ => not_congr ⟨fun heq => (Scalar.str.inj heq).symm, fun heq => heq ▸ rfl⟩
    rw [h.fresh_iff, Fresh, Fresh, List.nodup_cons, List.forall_mem_cons]
    constructor
    · rintro ⟨hnodup, hall⟩
      refine ⟨⟨fun hmem => ((hadd name).mp (hall name hmem)).2 rfl, hnodup⟩, hnew, fun other hother => ?_⟩
      exact ((hadd other).mp (hall other hother)).1
    rintro ⟨⟨hapart, hnodup⟩, _, hall⟩
    refine ⟨hnodup, fun other hother => (hadd other).mpr ⟨hall other hother, ?_⟩⟩
    rintro rfl
    exact hapart hother
  has_iff hcovered other := by
    rw [h.has_iff hcovered, Seen.has_add_iff, List.mem_cons, or_assoc, Scalar.str.injEq, eq_comm (a := name)]

theorem of_seen (hseen : Seen.has seen (.str name)) : Covering false (name :: names) seen seen1 where
  fresh_iff := by
    refine ⟨nofun, fun hfresh => ?_⟩
    have hno := hfresh.2 name (.head _)
    cases hseen.symm.trans hno
  has_iff := nofun

end Covering

theorem eq_bool_of_isTrue {v : Value} (h : v.isTrue) : v = .bool true := by
  unfold Value.isTrue at h
  split at h
  · rw [h]
  · cases h

theorem covering_parts {list : List Part} (h : MakesParts scope list start slots last)
    (heach : ∀ part ∈ list, ∀ start slot last, MakesPart scope part start slot last →
      Covering (slot.covers part) part.names start.1 last.1) :
    Covering (slotsCover slots list) (list.flatMap Part.names) start.1 last.1 := by
  induction h with
  | nil => exact .nil _
  | cons first _ ih =>
    have hfirst := heach _ List.mem_cons_self _ _ _ first
    exact hfirst.append (ih fun part hpart => heach part (.tail _ hpart))

/-- What is made for a part covers it if and only if the names of its types are new. The recursion is on the
depth of its schema. -/
theorem covering_part (part : Part) (hsimple : part.schema.isTrue ∨ isSimple part.schema)
    (start : Point) (slot : Slot) (last : Point) (h : MakesPart scope part start slot last) :
    Covering (slot.covers part) part.names start.1 last.1 := by
  have hprimitive : ∀ (field : Field) (seen : List Scalar), field.name = part.field →
      part.schema.isOfType "object" = false →
      Covering ((Slot.mk none field).covers part) part.names seen seen := by
    intro field seen hname hobject
    rw [Slot.covers, Part.names, hobject, hname, beq_self_eq_true]
    exact .nil seen
  cases h with
  | any untyped named =>
    refine hprimitive _ _ named ?_
    rw [eq_bool_of_isTrue untyped]
    rfl
  | typed made named =>
    have hsimple : isSimple part.schema := by
      -- a truth value is no schema that a type could be asked for
      refine hsimple.resolve_left fun htrue => ?_
      rw [eq_bool_of_isTrue htrue, fieldType] at made
      obtain ⟨_, hask, _⟩ := run_ask_ok made
      cases hask
    rcases exec_fieldType_simple hsimple made with
      ⟨hobject, hnested, rfl⟩ | ⟨hobject, hseen, hnested⟩ | ⟨hobject, hnew, comment, m, hnested, hm⟩
    · rw [hnested]
      exact hprimitive _ _ named hobject
    · rw [hnested, Slot.covers, Part.names, hobject, if_pos rfl, Bool.not_true, Bool.and_false]
      exact .of_seen hseen
    obtain ⟨said, slots, rfl, hparts⟩ := exec_message_parts hm
    have hinner := covering_parts hparts fun inner hinner =>
      covering_part inner (isSimple_part hsimple hobject hinner)
    rw [← innerNames_eq] at hinner
    rw [hnested, Slot.covers, Declaration.covers, Message.covers, Part.names, hobject, if_pos rfl, named,
      beq_self_eq_true, Bool.true_and, Bool.true_and]
    exact hinner.object hnew
termination_by part.schema.depth
decreasing_by exact depth_lt_of_mem_parts hinner

/-! ## Lines of fields -/

mutual

def Message.fieldLines : Message → List String
  | .mk _ _ slots => slotFieldLines slots

def slotFieldLines : List Slot → List String
  | [] => []
  | slot :: rest => slot.fieldLines ++ slotFieldLines rest

def Slot.fieldLines : Slot → List String
  | .mk none field => [field.line]
  | .mk (some declaration) field => declaration.fieldLines.map ("  " ++ ·) ++ [field.line]

def Declaration.fieldLines : Declaration → List String
  | .message m => m.fieldLines
  | .object _ (.mk _ _ slots) => slotFieldLines slots
  | _ => []

end

theorem Field.line_sublist (field : Field) : [field.line].Sublist field.lines :=
  List.sublist_append_right _ _

mutual

theorem Message.fieldLines_sublist : (m : Message) → m.fieldLines.Sublist m.lines
  | .mk comment name slots => by
    have hslots := slotFieldLines_sublist slots
    have hblock : (slotLines slots).Sublist (headLine name :: (slotLines slots ++ ["\x7d", ""])) :=
      (List.sublist_append_left _ _).cons _
    exact (hslots.trans hblock).trans (List.sublist_append_right _ _)

theorem slotFieldLines_sublist : (slots : List Slot) → (slotFieldLines slots).Sublist (slotLines slots)
  | [] => .slnil
  | slot :: rest => (Slot.fieldLines_sublist slot).append (slotFieldLines_sublist rest)

theorem Slot.fieldLines_sublist : (slot : Slot) → slot.fieldLines.Sublist slot.lines
  | .mk none field => field.line_sublist
  | .mk (some declaration) field => by
    have hnested := (Declaration.fieldLines_sublist declaration).map ("  " ++ ·)
    exact (hnested.trans (List.sublist_append_left _ [""])).append field.line_sublist

theorem Declaration.fieldLines_sublist : (d : Declaration) → d.fieldLines.Sublist d.lines
  | .enumeration _ => List.nil_sublist _
  | .message m => Message.fieldLines_sublist m
  | .listOf _ _ => List.nil_sublist _
  | .hollow _ _ => List.nil_sublist _
  | .object comment (.mk own name slots) => by
    have hslots := slotFieldLines_sublist slots
    -- a comment of its own pushes the head of the message into its inner lines, but no field out of them
    have hinner : (slotLines slots).Sublist (innerLines (Message.mk own name slots).lines) := by
      rw [innerLines_lines]
      exact List.sublist_append_right _ _
    have hblock := ((hslots.trans hinner).cons (headLine name)).trans
      (List.sublist_append_right (commentLine "" comment) _)
    exact hblock.trans (List.sublist_append_left _ _)

end

/-! ## Files -/

theorem exec_rootDeclaration {root : Option Declaration} (hobject : isSimpleObject schema)
    (h : exec ((rootDeclaration scope schema).run []) s = (.ok (root, seen), s')) :
    ∃ m, root = some (.message m) ∧ rootName schema = .ok m.name ∧
      exec ((message scope schema m.name).run []) s = (.ok (m, seen), s') := by
  obtain ⟨huncombined, hkind, _⟩ := isSimpleObject_iff.mp hobject
  obtain ⟨_, hno, _⟩ := isUncombined_iff.mp huncombined
  unfold rootDeclaration at h
  obtain ⟨name, hname, h1⟩ := run_ask_ok h
  have h2 := run_no_bind (hno "enum" (by decide)) h1
  obtain ⟨type, htype, h3⟩ := run_ask_ok h2
  rw [Value.isStr_of_field? htype, hkind, if_pos rfl] at h3
  obtain ⟨m, seen1, s1, hm, h4⟩ := run_bind_ok h3
  cases h4
  obtain ⟨comment, slots, rfl, _⟩ := exec_message_parts hm
  exact ⟨_, rfl, hname, hm⟩

theorem exec_declarations {declared : List Declaration} (hobject : isSimpleObject schema)
    (h : exec ((declarations scope schema).run []) s = (.ok (declared, seen), s')) :
    ∃ m rest seen1 s1, declared = .message m :: rest ∧ rootName schema = .ok m.name ∧
      exec ((message scope schema m.name).run []) s = (.ok (m, seen1), s1) := by
  unfold declarations at h
  obtain ⟨root, seen1, s1, hroot, h1⟩ := run_bind_ok h
  obtain ⟨m, rfl, hname, hm⟩ := exec_rootDeclaration hobject hroot
  obtain ⟨hasDefinitions, _, h2⟩ := run_ask_ok h1
  split at h2
  · cases h2
    exact ⟨m, [], _, _, rfl, hname, hm⟩
  obtain ⟨entries, _, h3⟩ := run_ask_ok h2
  obtain ⟨others, seen2, s2, _, h4⟩ := run_bind_ok h3
  cases h4
  exact ⟨m, others, seen1, s1, rfl, hname, hm⟩

theorem covers_message_iff (hobject : isSimpleObject schema)
    (h : exec ((message scope schema name).run []) s = (.ok (m, seen), s')) :
    m.covers schema ↔ (name :: innerNames schema).Nodup := by
  obtain ⟨_, _, hsimple⟩ := isSimpleObject_iff.mp hobject
  obtain ⟨comment, slots, rfl, hparts⟩ := exec_message_parts h
  have hcovering : Covering (slotsCover slots (parts schema)) ((parts schema).flatMap Part.names)
      (Seen.add [] (.str name)) seen :=
    covering_parts hparts fun part hpart => covering_part part (hsimple part hpart)
  rw [← innerNames_eq] at hcovering
  have hfresh := (hcovering.object rfl).fresh_iff
  rw [Message.covers, hfresh, Fresh]
  exact and_iff_left fun _ _ => rfl

/-- The message for a tidy schema of simple objects has a field for each property at every depth, in the message for
the object that has it, if and only if the names of the types for the schema and for all objects in it are different.
-/
theorem sourceFile_covers {package : String} {goPackage : Option String} {more : List String} {r : Request}
    {s : RefState} (hobject : isSimpleObject r.schema = true) :
    (isTidyFile r.schema = true → ∃ text s', exec (sourceFile package goPackage more r) s = (.ok text, s')) ∧
      ∀ text s', exec (sourceFile package goPackage more r) s = (.ok text, s') →
        ∃ file m rest name lines, exec (fileOf package goPackage more r) s = (.ok file, s') ∧
          file.declarations = .message m :: rest ∧ rootName r.schema = .ok name ∧
          text = Text.join "\n" lines ∧ m.fieldLines.Sublist lines ∧
          (m.covers r.schema = true ↔ (name :: innerNames r.schema).Nodup) := by
  refine ⟨sourceFile_eq_ok package goPackage more s hobject, fun text s' h => ?_⟩
  obtain ⟨file, hfile, rfl⟩ := exec_sourceFile h
  obtain ⟨imports, declared, seen, _, hdeclared, rfl⟩ := exec_fileOf hfile
  obtain ⟨m, rest, seen1, s1, rfl, hname, hm⟩ := exec_declarations hobject hdeclared
  refine ⟨_, m, rest, m.name, _, hfile, rfl, hname, rfl, ?_, covers_message_iff hobject hm⟩
  have hfirst : m.fieldLines.Sublist ((Declaration.message m :: rest).flatMap Declaration.lines) :=
    m.fieldLines_sublist.trans (List.sublist_append_left _ _)
  exact hfirst.trans (List.sublist_append_right _ _)

def kitchen : Request where
  files := Reference.textFiles []
  stamp := "now"
  schema := .map [("title", "kitchen"), ("type", "object"), ("properties", .map
    [("table", .map [("type", "object"), ("properties", .map
        [("leg", .map [("type", "object"), ("description", "One of four."),
            ("properties", .map [("height", .map [("type", "number")])])]),
          ("colour", .map [("type", "string")])])]),
      ("colour", .map [("type", "string")]),
      ("stove", .map [("type", "object"), ("properties", .map
        [("plates", .map [("type", "integer")])]),
          ("additionalProperties", .bool true)])]),
    ("additionalProperties", .map [("type", "object"), ("properties", .map
      [("weight", .map [("type", "integer")])])])]

theorem sourceFile_covers_kitchen : isSimpleObject kitchen.schema = true ∧ isTidyFile kitchen.schema = true ∧
      innerNames kitchen.schema = ["Table", "Leg", "Stove", "Value"] ∧
      ∃ text s file m rest lines, exec (sourceFile "home" none [] kitchen) {} = (.ok text, s) ∧
        exec (fileOf "home" none [] kitchen) {} = (.ok file, s) ∧ file.declarations = .message m :: rest ∧
        text = Text.join "\n" lines ∧ m.fieldLines.Sublist lines ∧ m.covers kitchen.schema = true := by
  have hobject : isSimpleObject kitchen.schema = true := by decide +kernel
  have htidy : isTidyFile kitchen.schema = true := by decide +kernel
  have hnames : innerNames kitchen.schema = ["Table", "Leg", "Stove", "Value"] := by decide +kernel
  have hroot : rootName kitchen.schema = .ok "Kitchen" := by decide +kernel
  obtain ⟨hwritten, hfile⟩ := @sourceFile_covers "home" none [] kitchen {} hobject
  obtain ⟨text, s, hrun⟩ := hwritten htidy
  obtain ⟨file, m, rest, name, lines, hfile, hdeclared, hname, hlines, hsublist, hcovers⟩ := hfile text s hrun
  cases hroot.symm.trans hname
  rw [hnames] at hcovers
  have hcovered := hcovers.mpr (by decide)
  exact ⟨hobject, htidy, hnames, text, s, file, m, rest, lines, hrun, hfile, hdeclared, hlines, hsublist, hcovered⟩

def closet : Request where
  files := Reference.textFiles []
  stamp := "now"
  schema := .map [("title", "S"), ("type", "object"), ("properties", .map
    [("a", .map [("type", "object"), ("properties", .map
        [("x", .map [("type", "object"), ("properties", .map
          [("p", .map [("type", "string")])])])])]),
      ("b", .map [("type", "object"), ("properties", .map
        [("x", .map [("type", "object"), ("properties", .map
          [("q", .map [("type", "string")])])])])])])]

theorem sourceFile_covers_closet :
    isSimpleObject closet.schema = true ∧ innerNames closet.schema = ["A", "X", "B", "X"] ∧
      (exec (sourceFile "schema" none [] closet) {}).1 = .ok ("// GENERATED CODE - DO NOT EDIT\n" ++
        "// Generated by schema2code proto generator\n\nsyntax = \"proto3\";\n\npackage schema;\n\n" ++
        "message S \x7b\n  message A \x7b\n    message X \x7b\n      string p = 1;\n    \x7d\n    \n  \n" ++
        "    X x = 1;\n  \x7d\n  \n\n  A a = 1;\n  message B \x7b\n    X x = 1;\n  \x7d\n  \n\n" ++
        "  B b = 2;\n\x7d\n") := by
  decide +kernel

end Proto

end Typewright
