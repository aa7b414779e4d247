import Typewright.Proofs.SchemaShape
import Typewright.Proofs.SeenRun
import Typewright.SourceFile.Proto
import Mathlib.Tactic.SplitIfs

/-!
# The fields of a message

A message has one field for each property, in order, numbered from one without a gap.
-/

namespace Typewright

open RefM

variable {s s' : RefState} {seen seen' : List Scalar} {v : Value} {e : Scalar × Value}
  {key name package : String} {es properties : Entries} {last' : Point} {slot : Slot} {own : List Slot}
  {m : Message} {goPackage : Option String} {more : List String} {r : Request} {schema : Value}

namespace Value

/-- The schema with one more property after the others. -/
def withProperty (schema : Value) (name : Scalar) (property : Value) : Value :=
  match schema with
  | .map es =>
    .map (Entries.put es (.str "properties") (.map (schema.entriesOf "properties" ++ [(name, property)])))
  | schema => schema

theorem entriesAt_withProperty (name : Scalar) (property : Value)
    (hmap : schema.isMap) (h : schema.entriesAt "properties" = .ok properties) :
    (schema.withProperty name property).entriesAt "properties" = .ok (properties ++ [(name, property)]) := by
  cases schema with
  | map es =>
    have hfield : ((Value.map es).withProperty name property).field "properties" =
        .ok (.map (properties ++ [(name, property)])) := by
      unfold withProperty
      rw [field_map, Entries.find?_put_self, entriesOf_eq h]
    rw [entriesAt_of_field hfield]
    rfl
  | _ => cases hmap

theorem isMap_of_entriesAt (h : v.entriesAt name = .ok es) : v.isMap := by
  cases v with
  | map _ => rfl
  | _ => cases h

theorem field?_withProperty (name : Scalar) (property : Value)
    (ne : "properties" ≠ key) : (schema.withProperty name property).field? key = schema.field? key := by
  cases schema with
  | map es =>
    unfold withProperty
    rw [field?_map, field?_map, Entries.find?_put_of_ne ne]
  | _ => rfl

theorem fieldD_withProperty {default : Value} (name : Scalar) (property : Value) (ne : "properties" ≠ key) :
    (schema.withProperty name property).fieldD key default = schema.fieldD key default := by
  unfold fieldD
  rw [field?_withProperty name property ne]

theorem isStr_of_field? {type : Option Value} (h : v.field? "type" = .ok type) (text : String) :
    (type.getD .null).isStr text = v.isOfType text := by
  cases v with
  | map es =>
    rw [field?_map] at h
    cases h
    show _ = (Entries.find? es (.str "type")).any (·.isStr text)
    cases Entries.find? es (.str "type") <;> rfl
  | _ => cases h

theorem depth_lt_of_field {w : Value} (h : v.field name = .ok w) : w.depth < v.depth := by
  obtain ⟨es, rfl, found⟩ := field_eq_ok h
  exact depth_lt_of_find? found

theorem depth_lt_of_entriesAt (h : v.entriesAt name = .ok es) (he : e ∈ es) : e.2.depth < v.depth := by
  obtain ⟨group, hgroup, hes⟩ := field_of_entriesAt h he
  have hbelow := depth_lt_of_field hgroup
  cases group with
  | map es' =>
    cases hes
    exact Nat.lt_trans (depth_lt_of_mem_entries he) hbelow
  | _ => cases hes

/-- What a schema says about itself, without the blanks around it. -/
def remark (schema : Value) : Except Fault String := do
  (← schema.fieldD "description" (.str "")).trimmed

theorem remark_withProperty (name : Scalar) (property : Value) :
    (schema.withProperty name property).remark = schema.remark := by
  unfold remark
  rw [fieldD_withProperty name property (by decide)]

/-- Whether an object has additional properties: any at all, or those of a schema. -/
def takesMore (schema : Value) : Bool :=
  match schema.field? "additionalProperties" with
  | .ok more => more.any fun more => more.isTrue || more.isMap && more.truthy
  | .error _ => false

theorem takesMore_of_part? {part : Option (Below schema)} (h : schema.part? "additionalProperties" = .ok part) :
    schema.takesMore = part.any fun more => more.val.isTrue || more.val.isMap && more.val.truthy := by
  unfold takesMore field?
  rw [h]
  exact Option.any_map

theorem takesMore_withProperty (name : Scalar) (property : Value) :
    (schema.withProperty name property).takesMore = schema.takesMore := by
  unfold takesMore
  rw [field?_withProperty name property (by decide)]

end Value

namespace Proto

/-- Where a run stands: the names that were seen, and the state. -/
abbrev Point := List Scalar × RefState

variable {scope : Option RefScope} {schema : Value} {typeName : String} {number : Nat}

/-! ## Fields in a row -/

/-- What is made for a property under a number: its field, with the type that is declared for it. -/
inductive MakesSlot (scope : Option RefScope) (number : Nat) :
    Scalar × Value → Point → Slot → Point → Prop
  | mk {name : Scalar} {property : Value} {seen seen' : List Scalar} {s s' : RefState}
      {type : FieldType} {comment snake : String}
      (typed : exec ((fieldType scope property name).run seen) s = (.ok (type, seen'), s'))
      (said : property.remark = .ok comment) (named : Naming.snakeOf (.scalar name) = .ok snake) :
      MakesSlot scope number (name, property) (seen, s)
        (.mk type.nested ⟨comment, type.repeated, type.type, snake, number⟩) (seen', s')

/-- What is made for properties in a row, numbered from a number on. What is made for one of them starts
where what is made for the one before it ended. -/
inductive MakesSlots (scope : Option RefScope) : Nat → Entries → Point → List Slot → Point → Prop
  | nil {number : Nat} {start : Point} : MakesSlots scope number [] start [] start
  | cons {number : Nat} {e : Scalar × Value} {rest : Entries} {start middle last : Point} {slot : Slot}
      {slots : List Slot} (first : MakesSlot scope number e start slot middle)
      (others : MakesSlots scope (number + 1) rest middle slots last) :
      MakesSlots scope number (e :: rest) start (slot :: slots) last

theorem MakesSlot.unique {start last : Point} {slot' : Slot}
    (h : MakesSlot scope number e start slot last) (h' : MakesSlot scope number e start slot' last') :
    slot = slot' ∧ last = last' := by
  obtain ⟨typed, said, named⟩ := h
  obtain ⟨typed', said', named'⟩ := h'
  cases typed.symm.trans typed'
  cases said.symm.trans said'
  cases named.symm.trans named'
  exact ⟨rfl, rfl⟩

namespace MakesSlots

variable {entries : Entries} {start last : Point} {slots : List Slot}

theorem unique {slots' : List Slot} (h : MakesSlots scope number entries start slots last)
    (h' : MakesSlots scope number entries start slots' last') : slots = slots' ∧ last = last' := by
  induction h generalizing slots' with
  | nil =>
    cases h'
    exact ⟨rfl, rfl⟩
  | cons first _ ih =>
    obtain _ | ⟨first', others'⟩ := h'
    obtain ⟨rfl, rfl⟩ := first.unique first'
    obtain ⟨rfl, rfl⟩ := ih others'
    exact ⟨rfl, rfl⟩

theorem length_eq (h : MakesSlots scope number entries start slots last) : slots.length = entries.length := by
  induction h with
  | nil => rfl
  | cons _ _ ih => rw [List.length_cons, List.length_cons, ih]

theorem split {front back : Entries} (h : MakesSlots scope number (front ++ back) start slots last) :
    ∃ own more middle, slots = own ++ more ∧ MakesSlots scope number front start own middle ∧
      MakesSlots scope (number + front.length) back middle more last := by
  induction front generalizing number start slots with
  | nil => exact ⟨[], slots, start, rfl, .nil, h⟩
  | cons e rest ih =>
    obtain _ | ⟨first, others⟩ := h
    obtain ⟨own, more, middle, rfl, hown, hmore⟩ := ih others
    refine ⟨_ :: own, more, middle, rfl, .cons first hown, ?_⟩
    rw [List.length_cons, Nat.add_comm rest.length, ← Nat.add_assoc]
    exact hmore

theorem at_place (h : MakesSlots scope number entries start slots last) {i : Nat} (he : entries[i]? = some e) :
    ∃ slot before after, slots[i]? = some slot ∧ MakesSlot scope (number + i) e before slot after := by
  induction h generalizing i with
  | nil => cases he
  | cons first _ ih =>
    cases i with
    | zero =>
      cases he
      exact ⟨_, _, _, rfl, first⟩
    | succ i =>
      obtain ⟨slot, before, after, hslot, hmade⟩ := ih he
      rw [Nat.add_assoc, Nat.add_comm 1] at hmade
      exact ⟨slot, before, after, hslot, hmade⟩

end MakesSlots

/-! ## Runs that make a message -/

theorem exec_slots {owner : Value} {entries : List (Scalar × Below owner)} {made : List Slot}
    (h : exec ((slots (fun property name => fieldType scope property.val name) number entries).run seen) s =
      (.ok (made, seen'), s')) :
    MakesSlots scope number (entries.map fun e => (e.1, e.2.val)) (seen, s) made (seen', s') := by
  induction entries generalizing number seen s made with
  | nil =>
    unfold slots at h
    cases h
    exact .nil
  | cons e rest ih =>
    unfold slots at h
    obtain ⟨type, seen₁, s₁, htype, h1⟩ := run_bind_ok h
    obtain ⟨description, hdesc, h2⟩ := run_ask_ok h1
    obtain ⟨comment, hcomment, h3⟩ := run_ask_ok h2
    obtain ⟨snake, hsnake, h4⟩ := run_ask_ok h3
    obtain ⟨more, seen2, s2, hmore, h5⟩ := run_bind_ok h4
    cases h5
    have hsaid : e.2.val.remark = .ok comment := by
      unfold Value.remark
      rw [hdesc]
      exact hcomment
    exact .cons (.mk htype hsaid hsnake) (ih hmore)

theorem exec_ownSlots (h : exec ((ownSlots scope schema).run seen) s = (.ok (own, seen'), s')) :
    ∃ properties, schema.entriesAt "properties" = .ok properties ∧
      MakesSlots scope 1 properties (seen, s) own (seen', s') := by
  unfold ownSlots at h
  obtain ⟨part, hpart, h1⟩ := run_ask_ok h
  cases part with
  | none =>
    cases h1
    refine ⟨[], ?_, .nil⟩
    unfold Value.entriesAt Value.fieldD Value.field?
    rw [hpart]
    rfl
  | some properties =>
    obtain ⟨entries, hentries, h2⟩ := run_ask_ok h1
    refine ⟨_, ?_, exec_slots h2⟩
    unfold Value.entriesAt Value.fieldD Value.field?
    rw [hpart]
    exact Value.entries_of_entriesBelow hentries

theorem exec_moreSlots {more : List Slot}
    (h : exec ((moreSlots scope schema number).run seen) s = (.ok (more, seen'), s')) :
    (schema.takesMore ∧ ∃ nested valueType, more = [.mk nested (additionalField valueType number)]) ∨
      (schema.takesMore = false ∧ more = []) := by
  unfold moreSlots at h
  obtain ⟨part, hpart, h1⟩ := run_ask_ok h
  rw [Value.takesMore_of_part? hpart]
  cases part with
  | none =>
    cases h1
    exact .inr ⟨rfl, rfl⟩
  | some additional =>
    dsimp only [Option.any_some] at h1 ⊢
    split at h1
    · next htrue =>
      cases h1
      rw [htrue, Bool.true_or]
      exact .inl ⟨rfl, none, "string", rfl⟩
    · next htrue =>
      rw [Bool.eq_false_iff.mpr htrue, Bool.false_or]
      split at h1
      · next hmap =>
        obtain ⟨type, seen₁, s₁, _, h2⟩ := run_bind_ok h1
        cases h2
        exact .inl ⟨hmap, type.nested, type.type, rfl⟩
      · next hmap =>
        cases h1
        exact .inr ⟨Bool.eq_false_iff.mpr hmap, rfl⟩

theorem exec_message (h : exec ((message scope schema typeName).run seen) s = (.ok (m, seen'), s')) :
    ∃ comment properties own more seen₁ s₁, m = .mk comment typeName (own ++ more) ∧
      schema.remark = .ok comment ∧ schema.entriesAt "properties" = .ok properties ∧
      MakesSlots scope 1 properties (Seen.add seen (.str typeName), s) own (seen₁, s₁) ∧
      exec ((moreSlots scope schema (own.length + 1)).run seen₁) s₁ = (.ok (more, seen'), s') := by
  unfold message at h
  obtain ⟨_, seen0, s0, hmark, h1⟩ := run_bind_ok h
  cases hmark
  obtain ⟨description, hdesc, h2⟩ := run_ask_ok h1
  obtain ⟨comment, hcomment, h3⟩ := run_ask_ok h2
  obtain ⟨required, _, h4⟩ := run_ask_ok h3
  obtain ⟨_, _, h5⟩ := run_discard_ask_ok h4
  obtain ⟨own, seen₁, s₁, hown, h6⟩ := run_bind_ok h5
  obtain ⟨more, seen2, s2, hmore, h7⟩ := run_bind_ok h6
  cases h7
  obtain ⟨properties, hprops, hmade⟩ := exec_ownSlots hown
  have hsaid : schema.remark = .ok comment := by
    unfold Value.remark
    rw [hdesc]
    exact hcomment
  exact ⟨comment, properties, own, more, seen₁, s₁, rfl, hsaid, hprops, hmade, hmore⟩

theorem exec_message_withProperty {comment : String}
    {name : Scalar} {property : Value} {seen₁ : List Scalar} {s₁ : RefState}
    (hsaid : schema.remark = .ok comment) (hprops : schema.entriesAt "properties" = .ok properties)
    (hown : MakesSlots scope 1 properties (Seen.add seen (.str typeName), s) own (seen₁, s₁))
    (htakes : schema.takesMore = false)
    (h : exec ((message scope (schema.withProperty name property) typeName).run seen) s = (.ok (m, seen'), s')) :
    ∃ slot last, m = .mk comment typeName (own ++ [slot]) ∧
      MakesSlot scope (properties.length + 1) (name, property) (seen₁, s₁) slot last := by
  have hmap : schema.isMap := Value.isMap_of_entriesAt hprops
  obtain ⟨comment', properties', own', more, seen2, s2, rfl, hsaid', hprops', hown', hmore⟩ := exec_message h
  cases (hsaid.symm.trans (Value.remark_withProperty name property).symm).trans hsaid'
  cases (Value.entriesAt_withProperty name property hmap hprops).symm.trans hprops'
  obtain ⟨hnot, _⟩ | ⟨_, rfl⟩ := exec_moreSlots hmore
  · rw [Value.takesMore_withProperty, htakes] at hnot
    cases hnot
  -- the fields of the properties in front are those that were made without the last one
  obtain ⟨front, back, middle, rfl, hfront, hback⟩ := hown'.split
  obtain ⟨rfl, rfl⟩ := hown.unique hfront
  obtain _ | ⟨first, others⟩ := hback
  cases others
  rw [Nat.add_comm] at first
  exact ⟨_, _, by rw [List.append_nil], first⟩

theorem exec_messageLines {lines : List String}
    (h : exec ((messageLines scope schema typeName).run seen) s = (.ok (lines, seen'), s')) :
    ∃ m, exec ((message scope schema typeName).run seen) s = (.ok (m, seen'), s') ∧ lines = m.lines := by
  unfold messageLines at h
  obtain ⟨m, seen₁, s₁, hm, hend⟩ := run_bind_ok h
  cases hend
  exact ⟨m, hm, rfl⟩

/-! ## Runs that make a file -/

theorem exec_sourceFile {text : String} (h : exec (sourceFile package goPackage more r) s = (.ok text, s')) :
    ∃ file, exec (fileOf package goPackage more r) s = (.ok file, s') ∧ text = file.text := by
  obtain ⟨file, s₁, hfile, hend⟩ := exec_bind_ok h
  cases hend
  exact ⟨file, hfile, rfl⟩

theorem exec_fileOf {file : SourceFile} (h : exec (fileOf package goPackage more r) s = (.ok file, s')) :
    ∃ imports declared seen, allImports r.scope.isSome r.schema more = .ok imports ∧
      exec ((declarations r.scope r.schema).run []) s = (.ok (declared, seen), s') ∧
      file = ⟨package, goPackage, imports, declared⟩ := by
  obtain ⟨imports, himports, h1⟩ := exec_ask_ok h
  obtain ⟨⟨declared, seen⟩, s₁, hdeclared, hend⟩ := exec_bind_ok h1
  cases hend
  exact ⟨imports, declared, seen, himports, hdeclared, rfl⟩

/-! ## Lines -/

theorem slotLines_eq (slots : List Slot) : slotLines slots = slots.flatMap Slot.lines := by
  induction slots with
  | nil => rfl
  | cons slot rest ih =>
    show slot.lines ++ slotLines rest = _
    rw [ih, List.flatMap_cons]

theorem Message.lines_mk (comment name : String) (slots : List Slot) : (Message.mk comment name slots).lines =
      commentLine "" comment ++ headLine name :: (slots.flatMap Slot.lines ++ ["\x7d", ""]) := by
  show commentLine "" comment ++ headLine name :: (slotLines slots ++ ["\x7d", ""]) = _
  rw [slotLines_eq]

theorem innerLines_lines (comment name : String) (slots : List Slot) :
    innerLines (Message.mk comment name slots).lines =
      (if comment.isEmpty then [] else [headLine name]) ++ slotLines slots := by
  have hend : ∀ lines : List String, (lines ++ ["\x7d", ""]).dropLast.dropLast = lines := by
    intro lines
    rw [show lines ++ ["\x7d", ""] = lines ++ ["\x7d"] ++ [""] by simp, List.dropLast_concat,
      List.dropLast_concat]
  show ((commentLine "" comment ++ headLine name :: (slotLines slots ++ ["\x7d", ""])).drop 1).dropLast.dropLast = _
  unfold commentLine
  split_ifs
  · exact hend (slotLines slots)
  · exact hend (headLine name :: slotLines slots)

theorem additionalField_lines (valueType : String) (number : Nat) : (additionalField valueType number).lines =
      ["  // Additional properties as key-value pairs",
        "  map<string, " ++ valueType ++ "> additional_properties = " ++ toString number ++ ";"] := by
  have hline : (additionalField valueType number).line =
      "  map<string, " ++ valueType ++ "> additional_properties = " ++ toString number ++ ";" := by
    apply String.toList_injective
    simp [Field.line, additionalField]
  show commentLine "  " _ ++ [(additionalField valueType number).line] = _
  rw [hline]
  rfl

/-- The block of a property: the type that is declared for it, a comment if there is one, and the line of
its field, which ends in its name and its number. -/
def IsBlock (scope : Option RefScope) (e : Scalar × Value) (number : Nat) (block : List String) : Prop :=
  ∃ (seen seen' : List Scalar) (s s' : RefState) (type : FieldType) (comment snake : String),
    exec ((fieldType scope e.2 e.1).run seen) s = (.ok (type, seen'), s') ∧
    e.2.remark = .ok comment ∧ Naming.snakeOf (.scalar e.1) = .ok snake ∧
    block = nestedLines type.nested ++ (commentLine "  " comment ++
      ["  " ++ (if type.repeated then "repeated " else "") ++ type.type ++ " " ++ snake ++ " = " ++
        toString number ++ ";"])

theorem MakesSlot.isBlock {start last : Point}
    (h : MakesSlot scope number e start slot last) : IsBlock scope e number slot.lines := by
  obtain ⟨typed, said, named⟩ := h
  exact ⟨_, _, _, _, _, _, _, typed, said, named, rfl⟩

/-- The lines of a message are a comment if there is one, its head, the blocks of its properties in order
and numbered from one, a block for additional properties if it has any, and its end. A property added
after the others adds its block after theirs and changes nothing else, unless there are additional
properties. -/
theorem messageLines_numbered {seen seen' : List Scalar} {s s' : RefState} {lines : List String}
    (h : exec ((messageLines scope schema typeName).run seen) s = (.ok (lines, seen'), s')) :
    ∃ (comment : String) (properties : Entries) (slots : List Slot) (more : List String) (middle : Point),
      schema.remark = .ok comment ∧ schema.entriesAt "properties" = .ok properties ∧
      MakesSlots scope 1 properties (Seen.add seen (.str typeName), s) slots middle ∧ lines = commentLine "" comment ++
        headLine typeName :: (slots.flatMap Slot.lines ++ more ++ ["\x7d", ""]) ∧ slots.length = properties.length ∧
      (∀ i e, properties[i]? = some e → ∃ slot, slots[i]? = some slot ∧ IsBlock scope e (i + 1) slot.lines) ∧
      (schema.takesMore = true → ∃ nested valueType, more = nestedLines nested ++
        ["  // Additional properties as key-value pairs", "  map<string, " ++ valueType ++
          "> additional_properties = " ++ toString (properties.length + 1) ++ ";"]) ∧
      (schema.takesMore = false → more = [] ∧ ∀ name property added seen₁ s₁,
        exec ((messageLines scope (schema.withProperty name property) typeName).run seen) s = (.ok (added, seen₁), s₁) →
        ∃ block, IsBlock scope (name, property) (properties.length + 1) block ∧ added = commentLine "" comment ++
            headLine typeName :: (slots.flatMap Slot.lines ++ block ++ ["\x7d", ""])) := by
  obtain ⟨m, hm, rfl⟩ := exec_messageLines h
  obtain ⟨comment, properties, own, more, seen₁, s₁, rfl, hsaid, hproperties, hown, hmore⟩ := exec_message hm
  have hlength := hown.length_eq
  refine ⟨comment, properties, own, more.flatMap Slot.lines, (seen₁, s₁), hsaid, hproperties, hown, ?_,
    hlength, ?_, ?_, ?_⟩
  · rw [Message.lines_mk, List.flatMap_append]
  · intro i e he
    obtain ⟨slot, before, after, hslot, hmade⟩ := hown.at_place he
    rw [Nat.add_comm] at hmade
    exact ⟨slot, hslot, hmade.isBlock⟩
  · intro htakes
    obtain ⟨_, nested, valueType, rfl⟩ | ⟨hnot, _⟩ := exec_moreSlots hmore
    · refine ⟨nested, valueType, ?_⟩
      rw [hlength, List.flatMap_singleton, ← additionalField_lines]
      rfl
    · cases htakes.symm.trans hnot
  intro htakes
  obtain ⟨hnot, _⟩ | ⟨_, rfl⟩ := exec_moreSlots hmore
  · cases htakes.symm.trans hnot
  refine ⟨rfl, fun name property added seen2 s2 hadded => ?_⟩
  obtain ⟨m', hm', rfl⟩ := exec_messageLines hadded
  obtain ⟨slot, last, rfl, hslot⟩ := exec_message_withProperty hsaid hproperties hown htakes hm'
  refine ⟨slot.lines, hslot.isBlock, ?_⟩
  rw [Message.lines_mk, List.flatMap_append, List.flatMap_singleton]

def lamp : Value :=
  .map [("type", "object"), ("description", "A lamp."), ("properties", .map
    [("baseSize", .map [("type", "object"), ("properties", .map
        [("width", .map [("type", "integer")])])]),
      ("colours", .map [("type", "array"), ("items", .map
        [("type", "string")])])])]

def secondBase : Value :=
  .map [("type", "object"), ("properties", .map [])]

theorem messageLines_numbered_lamp : ∃ lines seen s added seen' s' front block,
      exec ((messageLines none lamp "Lamp").run []) {} = (.ok (lines, seen), s) ∧
      exec ((messageLines none (lamp.withProperty (.str "base_size") secondBase) "Lamp").run []) {} =
        (.ok (added, seen'), s') ∧ IsBlock none (.str "base_size", secondBase) 3 block ∧
      lines = front ++ ["\x7d", ""] ∧ added = front ++ block ++ ["\x7d", ""] := by
  have hlamp : (exec ((messageLines none lamp "Lamp").run []) {}).1.isOk = true := by decide +kernel
  have hadded : (exec ((messageLines none (lamp.withProperty (.str "base_size") secondBase) "Lamp").run [])
      {}).1.isOk = true := by decide +kernel
  have htakes : lamp.takesMore = false := by decide
  obtain ⟨⟨lines, seen⟩, hlines⟩ := Outcome.eq_ok_of_isOk hlamp
  obtain ⟨⟨added, seen'⟩, hmore⟩ := Outcome.eq_ok_of_isOk hadded
  have hrun : exec ((messageLines none lamp "Lamp").run []) {} = (.ok (lines, seen), _) := Prod.ext hlines rfl
  have hrun' : exec ((messageLines none (lamp.withProperty (.str "base_size") secondBase) "Lamp").run []) {} =
      (.ok (added, seen'), _) := Prod.ext hmore rfl
  obtain ⟨comment, properties, slots, more, middle, _, hproperties, _, hall, _, _, _, hstable⟩ :=
    messageLines_numbered hrun
  obtain ⟨hnone, hstable⟩ := hstable htakes
  obtain ⟨block, hblock, hadd⟩ := hstable _ _ _ _ _ hrun'
  cases hproperties
  refine ⟨lines, seen, _, added, seen', _, commentLine "" comment ++ headLine "Lamp" ::
    slots.flatMap Slot.lines, block, hrun, hrun', hblock, ?_, ?_⟩
  · rw [hall, hnone, List.append_nil, List.append_assoc, List.cons_append]
  · rw [hadd]
    simp only [List.append_assoc, List.cons_append]

end Proto

end Typewright
