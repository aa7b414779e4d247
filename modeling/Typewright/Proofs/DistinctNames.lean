import Typewright.Proofs.ConstantNames
import Typewright.Proofs.MessageFields
import Typewright.Proofs.SnakeNames
import Mathlib.Data.List.Nodup

/-!
# Names in a message and in an enumeration

The fields of a message are named by the snake case of its properties, and the members of an enumeration by constants
for its values.
-/

namespace Typewright

open RefM Naming
open Text (upper)

variable {values : List Value} {c : Char} {text : String} {n : Nat}

namespace Proto

/-! ## Fields -/

def Slot.fieldName : Slot → String
  | .mk _ field => field.name

def Message.fieldNames : Message → List String
  | .mk _ _ slots => slots.map Slot.fieldName

/-- The name of the field for additional properties, if there is one. -/
def moreNames (schema : Value) : List String :=
  if schema.takesMore then ["additional_properties"] else []

theorem text_of_snakeOf {name : Scalar} {snake : String} (h : snakeOf (.scalar name) = .ok snake) :
    ∃ text, name = .str text ∧ snake = Naming.snake text := by
  cases name with
  | str text =>
    cases h
    exact ⟨text, rfl, rfl⟩
  | _ => cases h

theorem MakesSlots.fieldNames {scope : Option RefScope} {number : Nat} {entries : Entries} {start last : Point}
    {slots : List Slot} (h : MakesSlots scope number entries start slots last) :
    ∃ names : List String, entries.map (·.1) = names.map Scalar.str ∧
      slots.map Slot.fieldName = names.map snake := by
  induction h with
  | nil => exact ⟨[], rfl, rfl⟩
  | cons first _ ih =>
    obtain ⟨names, hentries, hslots⟩ := ih
    obtain ⟨_, _, named⟩ := first
    obtain ⟨text, rfl, rfl⟩ := text_of_snakeOf named
    refine ⟨text :: names, ?_, ?_⟩
    · rw [List.map_cons, hentries]
      rfl
    · rw [List.map_cons, hslots]
      rfl

variable {scope : Option RefScope} {schema : Value} {typeName : String}

theorem exec_fieldNames {seen seen' : List Scalar} {s s' : RefState} {m : Message}
    (h : exec ((message scope schema typeName).run seen) s = (.ok (m, seen'), s')) :
    ∃ (properties : Entries) (names : List String), schema.entriesAt "properties" = .ok properties ∧
      properties.map (·.1) = names.map Scalar.str ∧ m.fieldNames = names.map snake ++ moreNames schema := by
  obtain ⟨_, properties, own, more, _, _, rfl, _, hprops, hown, hmore⟩ := exec_message h
  obtain ⟨names, hnames, hfields⟩ := hown.fieldNames
  refine ⟨properties, names, hprops, hnames, ?_⟩
  show (own ++ more).map Slot.fieldName = _
  unfold moreNames
  obtain ⟨htakes, _, _, rfl⟩ | ⟨htakes, rfl⟩ := exec_moreSlots hmore <;> rw [htakes, List.map_append, hfields] <;> rfl

section Fields

variable {names : List String}

theorem nodup_append_moreNames {fields : List String} : (fields ++ moreNames schema).Nodup ↔
    fields.Nodup ∧ (schema.takesMore → "additional_properties" ∉ fields) := by
  unfold moreNames
  cases schema.takesMore with
  | false => simp
  | true =>
    show (fields ++ ["additional_properties"]).Nodup ↔ _
    rw [List.nodup_append_comm, List.singleton_append, List.nodup_cons]
    exact ⟨fun h => ⟨h.2, fun _ => h.1⟩, fun h => ⟨h.2 rfl, h.1⟩⟩

theorem nodup_of_isCamel (h : ∀ name ∈ names, isCamel name) : (names.map snake ++ moreNames schema).Nodup ↔
      names.Nodup ∧ (schema.takesMore → "additionalProperties" ∉ names) := by
  have hnodup : (names.map snake).Nodup ↔ names.Nodup :=
    ⟨List.Nodup.of_map _, List.Nodup.map_on fun name hname other hother =>
      (snake_inj_iff (h name hname) (h other hother)).mp⟩
  have hmem : "additional_properties" ∈ names.map snake ↔ "additionalProperties" ∈ names := by
    rw [show "additional_properties" = snake "additionalProperties" by decide +kernel, List.mem_map]
    constructor
    · rintro ⟨name, hname, heq⟩
      rwa [← (snake_inj_iff (h name hname) (by decide)).mp heq]
    · exact fun hname => ⟨_, hname, rfl⟩
  rw [nodup_append_moreNames, hnodup, hmem]

theorem nodup_of_isSnake (h : ∀ name ∈ names, isSnake name) : (names.map snake ++ moreNames schema).Nodup ↔
      names.Nodup ∧ (schema.takesMore → "additional_properties" ∉ names) := by
  have hsame : names.map snake = names :=
    (List.map_congr_left fun name hname => snake_of_isSnake (h name hname)).trans (List.map_id _)
  rw [nodup_append_moreNames, hsame]

end Fields

/-! ## Which names are distinct -/

def noneName (typeName : String) : String :=
  upper typeName ++ "_UNSPECIFIED"

def Enumeration.memberNames (e : Enumeration) : List String :=
  noneName e.name :: e.members.map (·.name)

def isTitled (typeName name : String) : Bool :=
  !typeName.isEmpty && Text.startsWith name typeName

/-- What a value is called where no table names it, in upper case. -/
def memberText (typeName : String) (value : Value) : String :=
  let name := (ownMemberName value).text
  upper (if isTitled typeName name then Text.dropFirst typeName.length name else name)

theorem memberName_own (typeName : String) (value : Value) (i : Nat) : ∃ name : String,
    memberName (.list []) value i (.str typeName) = .ok (.str name) ∧
      upper name = memberText typeName value := by
  have hown : ownMemberName value = .str (ownMemberName value).text := by
    unfold ownMemberName
    split <;> rfl
  have hdrop : ∀ name : String, dropTitle (.str typeName) (.str name) =
      .ok (.str (if isTitled typeName name then Text.dropFirst typeName.length name else name)) := by
    intro name
    show (if !!typeName.isEmpty then _ else _) = _
    unfold isTitled
    cases typeName.isEmpty <;> rfl
  refine ⟨_, ?_, rfl⟩
  have hnone : ¬(i : Int) < (0 : Nat) := by omega
  show (besideValue (.list []) value i >>= fun named =>
    dropTitle (.str typeName) (named.getD (ownMemberName value))) = _
  unfold besideValue
  rw [← hdrop, ← hown]
  dsimp only [List.length_nil]
  rw [if_neg hnone]
  rfl

theorem members_names {descriptions : Value} {i : Nat} {made : List Member}
    (h : members (.list []) descriptions typeName i values = .ok made) :
    made.map (·.name) = values.map fun value => constantCase (memberText typeName value) := by
  induction values generalizing i made with
  | nil =>
    cases h
    rfl
  | cons value rest ih =>
    unfold members at h
    obtain ⟨named, hnamed, h1⟩ := bind_ok h
    obtain ⟨text, htext, h2⟩ := bind_ok h1
    obtain ⟨description, _, h3⟩ := bind_ok h2
    obtain ⟨more, hmore, h4⟩ := bind_ok h3
    cases h4
    obtain ⟨name, hname, hupper⟩ := memberName_own typeName value i
    cases hname.symm.trans hnamed
    cases htext
    rw [List.map_cons, List.map_cons, ih hmore, hupper]

theorem memberNames_eq {e : Enumeration}
    (hvalues : schema.field? "enum" = .ok (some (.list values))) (hnames : schema.field? "enumNames" = .ok none)
    (h : enumeration schema typeName = .ok e) : e.memberNames =
      noneName typeName :: values.map fun value => constantCase (memberText typeName value) := by
  unfold enumeration at h
  obtain ⟨description, _, h1⟩ := bind_ok h
  obtain ⟨comment, _, h2⟩ := bind_ok h1
  obtain ⟨listed, hlisted, h3⟩ := bind_ok h2
  obtain ⟨names, hnamed, h4⟩ := bind_ok h3
  obtain ⟨descriptions, _, h5⟩ := bind_ok h4
  obtain ⟨items, hitems, h6⟩ := bind_ok h5
  obtain ⟨made, hmade, h7⟩ := bind_ok h6
  cases h7
  unfold Value.fieldD at hlisted hnamed
  rw [hvalues] at hlisted
  rw [hnames] at hnamed
  cases hlisted
  cases hnamed
  cases hitems
  show noneName typeName :: made.map (·.name) = _
  rw [members_names hmade]

theorem nodup_map_constantCase (texts : List String) :
    (texts.map constantCase).Nodup ↔ (texts.map constantWords).Nodup := by
  unfold List.Nodup
  rw [List.pairwise_map, List.pairwise_map]
  exact List.Pairwise.iff fun _ _ => constantCase_inj_iff.not

/-! ## Values that are constants by themselves -/

theorem upperChar_of_isConstantChar (h : isConstantChar c) : Text.upperChar c = [c] := by
  have hword : Text.isAsciiWord c := by
    rw [isConstantChar, Bool.or_eq_true, Bool.or_eq_true] at h
    rw [Text.isAsciiWord, Bool.or_eq_true, Text.isAlphanum_iff]
    exact h.imp_left (·.imp_left .inl)
  have hlt := Text.toNat_lt_of_isAsciiWord hword
  have hsame : isConstantChar c → c.toUpper = c := Text.forall_ascii (by decide +kernel) hlt
  rw [Text.upperChar, if_pos hlt, hsame h]

theorem upper_of_isConstantChar (h : ∀ c ∈ text.toList, isConstantChar c) : upper text = text := by
  unfold upper
  rw [List.flatMap_congr fun c hc => upperChar_of_isConstantChar (h c hc), List.flatMap_singleton',
    String.ofList_toList]

theorem memberText_of_isConstant (h : isConstant text)
    (untitled : isTitled typeName text = false) : memberText typeName (.str text) = text := by
  have hupper : upper text = text := by
    unfold isConstant at h
    simp only [Bool.and_eq_true, List.all_eq_true] at h
    exact upper_of_isConstantChar h.1.1.2
  show upper (if isTitled typeName (upper text) then _ else upper text) = text
  rw [hupper, untitled]
  exact hupper

theorem isConstantChar_of_mem_number (h : c ∈ ("VALUE_" ++ toString n).toList) : isConstantChar c := by
  rw [String.toList_append, List.mem_append] at h
  rcases h with h | h
  · have hall : "VALUE_".toList.all isConstantChar = true := by decide
    exact List.all_eq_true.mp hall c h
  · have hdigit : c.isDigit = true := Nat.isDigit_of_mem_toDigits (by decide) (by decide) (Nat.toList_repr ▸ h)
    unfold isConstantChar
    rw [hdigit, Bool.or_true, Bool.true_or]

theorem memberText_number (untitled : isTitled typeName ("VALUE_" ++ toString n) = false) :
    memberText typeName (.int n) = "VALUE_" ++ toString n := by
  show upper (if isTitled typeName ("VALUE_" ++ toString n) then _ else "VALUE_" ++ toString n) = _
  rw [untitled]
  exact upper_of_isConstantChar fun c => isConstantChar_of_mem_number

theorem constantCase_number (n : Nat) : constantCase ("VALUE_" ++ toString n) = "VALUE_" ++ toString n := by
  have hchars : ("VALUE_" ++ toString n).toList = "VALUE".toList ++ '_' :: Nat.toDigits 10 n := by
    rw [String.toList_append]
    exact congrArg _ Nat.toList_repr
  have hmarked : markOthers ("VALUE_" ++ toString n).toList = ("VALUE_" ++ toString n).toList :=
    (List.map_congr_left fun c hc => if_pos (isConstantChar_of_mem_number hc)).trans (List.map_id _)
  have hwords : constantWords ("VALUE_" ++ toString n) = ["VALUE".toList, Nat.toDigits 10 n] := by
    unfold constantWords
    rw [hmarked, hchars, Text.wordsBetween_append,
      Text.wordsBetween_of_not_mem Nat.underscore_not_in_toDigits Nat.toDigits_ne_nil]
    rfl
  rw [constantCase_eq, hwords, ← String.toList_inj, hchars, String.toList_ofList,
    List.intercalate_cons_cons, List.intercalate_singleton, List.append_assoc, List.singleton_append]

theorem number_inj {m : Nat} (h : "VALUE_" ++ toString m = "VALUE_" ++ toString n) : m = n := by
  have hdigits : Nat.toDigits 10 m = Nat.toDigits 10 n := by
    have hchars := congrArg String.toList h
    rw [String.toList_append, String.toList_append, List.append_cancel_left_eq] at hchars
    exact Nat.toList_repr.symm.trans (hchars.trans Nat.toList_repr)
  rw [← Nat.ofDigitChars_ten_toDigits (n := m), hdigits, Nat.ofDigitChars_ten_toDigits]

theorem noneName_ne_number (typeName : String) (n : Nat) : noneName typeName ≠ "VALUE_" ++ toString n := by
  intro h
  have hlast := congrArg (fun text : String => text.toList.getLast?) h
  have hdigits : (toString n).toList = Nat.toDigits 10 n := Nat.toList_repr
  simp only [noneName, String.toList_append, hdigits] at hlast
  rw [List.getLast?_append_of_ne_nil _ (by decide), List.getLast?_append_of_ne_nil _ Nat.toDigits_ne_nil] at hlast
  have hmem : 'D' ∈ Nat.toDigits 10 n := List.mem_of_getLast? (hlast.symm.trans (by decide))
  exact absurd (Nat.isDigit_of_mem_toDigits (by decide) (by decide) hmem) (by decide)

section Constants

variable {values : List Value} {e : Enumeration}

theorem memberNames_nodup_iff (h : e.memberNames = noneName typeName ::
      values.map fun value => constantCase (memberText typeName value)) : e.memberNames.Nodup ↔
      noneName typeName ∉ values.map (fun value => constantCase (memberText typeName value)) ∧
      (values.map fun value => constantWords (memberText typeName value)).Nodup := by
  have hwords := nodup_map_constantCase (values.map (memberText typeName))
  rw [List.map_map, List.map_map] at hwords
  rw [h, List.nodup_cons]
  exact and_congr_right fun _ => hwords

theorem memberNames_start_iff (h : e.memberNames = noneName typeName ::
      values.map fun value => constantCase (memberText typeName value)) : (∀ name ∈ e.memberNames, startsAsName name) ↔
      startsAsName (noneName typeName) ∧ ∀ value ∈ values, ((memberText typeName value).toList.head?.any Char.isDigit ||
          ((memberText typeName value).toList.find? isCapitalOrDigit).any (!·.isDigit)) := by
  rw [h, List.forall_mem_cons]
  simp [startsAsName_constantCase]

theorem memberNames_of_constants {texts : List String} (h : e.memberNames = noneName typeName ::
      (texts.map Value.str).map fun value => constantCase (memberText typeName value))
    (plain : ∀ text ∈ texts, isConstant text ∧ isTitled typeName text = false) :
    e.memberNames = noneName typeName :: texts := by
  have hsame : ∀ text ∈ texts, constantCase (memberText typeName (.str text)) = text := by
    intro text htext
    obtain ⟨hconstant, huntitled⟩ := plain text htext
    rw [memberText_of_isConstant hconstant huntitled, constantCase_of_isConstant hconstant]
  rw [h, List.map_map]
  exact congrArg _ ((List.map_congr_left hsame).trans (List.map_id _))

theorem memberNames_of_numbers {numbers : List Nat} (h : e.memberNames = noneName typeName ::
      (numbers.map fun n : Nat => Value.int n).map fun value => constantCase (memberText typeName value))
    (plain : ∀ n ∈ numbers, isTitled typeName ("VALUE_" ++ toString n) = false) :
    e.memberNames = noneName typeName :: numbers.map fun n => "VALUE_" ++ toString n := by
  have hsame : ∀ n ∈ numbers, constantCase (memberText typeName (.int n)) = "VALUE_" ++ toString n := by
    intro n hn
    rw [memberText_number (plain n hn), constantCase_number]
  rw [h, List.map_map]
  exact congrArg _ (List.map_congr_left hsame)

theorem nodup_numbers (typeName : String) (numbers : List Nat) :
    (noneName typeName :: numbers.map fun n => "VALUE_" ++ toString n).Nodup ↔ numbers.Nodup := by
  rw [List.nodup_cons, List.nodup_map_iff fun _ _ => number_inj, and_iff_right]
  intro hmem
  obtain ⟨n, _, heq⟩ := List.mem_map.mp hmem
  exact noneName_ne_number typeName n heq.symm

end Constants

/-- Properties that are all in camel case, or all in snake case, are as distinct as the fields of their message. The
members of an enumeration are distinct if its values have different words. Constants name their members themselves,
and so do numbers that are not negative. -/
theorem names_distinct_iff (schema : Value) (typeName : String) :
    (∀ {scope : Option RefScope} {seen seen' : List Scalar} {s s' : RefState} {lines : List String},
      exec ((messageLines scope schema typeName).run seen) s = (.ok (lines, seen'), s') →
      ∃ (m : Message) (properties : Entries) (names : List String), lines = m.lines ∧
        schema.entriesAt "properties" = .ok properties ∧ properties.map (·.1) = names.map Scalar.str ∧
        m.fieldNames = names.map Naming.snake ++ (if schema.takesMore then ["additional_properties"] else []) ∧
        ((∀ name ∈ names, Naming.isCamel name = true) → (m.fieldNames.Nodup ↔
          names.Nodup ∧ (schema.takesMore = true → "additionalProperties" ∉ names))) ∧
        ((∀ name ∈ names, Naming.isSnake name = true) → (m.fieldNames.Nodup ↔
          names.Nodup ∧ (schema.takesMore = true → "additional_properties" ∉ names)))) ∧
    (∀ {values : List Value} {lines : List String},
      schema.field? "enum" = .ok (some (.list values)) → schema.field? "enumNames" = .ok none →
      enumLines schema typeName = .ok lines → ∃ e : Enumeration, lines = e.lines ∧ e.memberNames = noneName typeName ::
          values.map (fun value => Naming.constantCase (memberText typeName value)) ∧ (e.memberNames.Nodup ↔
          noneName typeName ∉ values.map (fun value => Naming.constantCase (memberText typeName value)) ∧
          (values.map fun value => Naming.constantWords (memberText typeName value)).Nodup) ∧
        ((∀ name ∈ e.memberNames, Naming.startsAsName name = true) ↔
          Naming.startsAsName (noneName typeName) = true ∧ ∀ value ∈ values,
            ((memberText typeName value).toList.head?.any Char.isDigit ||
              ((memberText typeName value).toList.find? Naming.isCapitalOrDigit).any (!·.isDigit)) = true) ∧
        (∀ texts : List String, values = texts.map Value.str →
          (∀ text ∈ texts, Naming.isConstant text = true ∧ isTitled typeName text = false) →
          e.memberNames = noneName typeName :: texts) ∧
        (∀ numbers : List Nat, values = numbers.map (fun n : Nat => Value.int n) →
          (∀ n ∈ numbers, isTitled typeName ("VALUE_" ++ toString n) = false) →
          e.memberNames = noneName typeName :: numbers.map (fun n => "VALUE_" ++ toString n) ∧
            (e.memberNames.Nodup ↔ numbers.Nodup))) := by
  refine ⟨fun h => ?_, fun hvalues hnames h => ?_⟩
  · obtain ⟨m, hm, rfl⟩ := exec_messageLines h
    obtain ⟨properties, names, hproperties, hkeys, hfields⟩ := exec_fieldNames hm
    refine ⟨m, properties, names, rfl, hproperties, hkeys, hfields, fun hcamel => ?_, fun hsnake => ?_⟩
    · rw [hfields, nodup_of_isCamel hcamel]
    · rw [hfields, nodup_of_isSnake hsnake]
  obtain ⟨e, he, hlines⟩ := bind_ok h
  cases hlines
  have hall := memberNames_eq hvalues hnames he
  refine ⟨e, rfl, hall, memberNames_nodup_iff hall, memberNames_start_iff hall, ?_, ?_⟩
  · rintro texts rfl hplain
    exact memberNames_of_constants hall hplain
  rintro numbers rfl hplain
  have hnumbers := memberNames_of_numbers hall hplain
  refine ⟨hnumbers, ?_⟩
  rw [hnumbers, nodup_numbers]

def door : Value :=
  .map [("type", "object"), ("properties", .map
      [("lockState", .map [("type", "boolean")]),
        ("width2", .map [("type", "number")])]),
    ("additionalProperties", .bool true)]

def levels : Value :=
  .map [("enum", .list [.int 1, .int (-2), .str "very-high", .str "2 low"])]

theorem names_distinct_iff_door :
    (∃ lines seen s m, exec ((messageLines none door "Door").run []) {} = (.ok (lines, seen), s) ∧
      lines = Message.lines m ∧ m.fieldNames = ["lock_state", "width2", "additional_properties"] ∧ m.fieldNames.Nodup) ∧
    (∃ lines e, enumLines levels "Level" = .ok lines ∧ lines = Enumeration.lines e ∧
      e.memberNames = ["LEVEL_UNSPECIFIED", "VALUE_1", "VALUE_2", "VERY_HIGH", "VALUE_2_LOW"] ∧
      e.memberNames.Nodup ∧ ∀ name ∈ e.memberNames, Naming.startsAsName name = true) := by
  constructor
  · have hok : (exec ((messageLines none door "Door").run []) {}).1.isOk = true := by decide +kernel
    obtain ⟨⟨lines, seen⟩, hlines⟩ := Outcome.eq_ok_of_isOk hok
    have hrun : exec ((messageLines none door "Door").run []) {} = (.ok (lines, seen), _) := Prod.ext hlines rfl
    obtain ⟨m, properties, names, hm, hproperties, hkeys, hfields, hcamel, _⟩ := (names_distinct_iff door "Door").1 hrun
    cases hproperties
    obtain rfl : names = ["lockState", "width2"] := List.map_injective_iff.mpr (fun _ _ => Scalar.str.inj) hkeys.symm
    refine ⟨lines, seen, _, m, hrun, hm, hfields.trans (by decide +kernel), ?_⟩
    exact (hcamel (by decide)).mpr (by decide +kernel)
  · have hok : (enumLines levels "Level").isOk = true := by decide +kernel
    obtain ⟨lines, hlines⟩ := Outcome.eq_ok_of_isOk hok
    obtain ⟨e, he, hmembers, hnodup, hstart, _⟩ := (names_distinct_iff levels "Level").2 rfl rfl hlines
    refine ⟨lines, e, hlines, he, hmembers.trans (by decide +kernel), ?_, ?_⟩
    · exact hnodup.mpr (by decide +kernel)
    · exact hstart.mpr (by decide +kernel)

def gate : Value :=
  .map [("type", "object"), ("properties", .map
      [("lockState", .map [("type", "boolean")]),
        ("lock_state", .map [("type", "string")])])]

def marks : Value :=
  .map [("enum", .list [.str "a-b", .str "a_b", .int 1, .int (-1), .str "_1", .str "-"])]

/-- Properties that are apart can have one field name. Values that are apart can have one member name, which
can be empty or start with a digit. -/
theorem names_together : (∃ lines seen s m, exec ((messageLines none gate "Gate").run []) {} = (.ok (lines, seen), s) ∧
      lines = Message.lines m ∧ m.fieldNames = ["lock_state", "lock_state"]) ∧ (∃ e, enumeration marks "Mark" = .ok e ∧
      e.memberNames = ["MARK_UNSPECIFIED", "A_B", "A_B", "VALUE_1", "VALUE_1", "1", ""]) := by
  constructor
  · have hok : (exec ((messageLines none gate "Gate").run []) {}).1.isOk = true := by decide +kernel
    obtain ⟨⟨lines, seen⟩, hlines⟩ := Outcome.eq_ok_of_isOk hok
    have hrun : exec ((messageLines none gate "Gate").run []) {} = (.ok (lines, seen), _) := Prod.ext hlines rfl
    obtain ⟨m, hm, hrender⟩ := exec_messageLines hrun
    obtain ⟨properties, names, hproperties, hkeys, hfields⟩ := exec_fieldNames hm
    cases hproperties
    obtain rfl : names = ["lockState", "lock_state"] :=
      List.map_injective_iff.mpr (fun _ _ => Scalar.str.inj) hkeys.symm
    exact ⟨lines, seen, _, m, hrun, hrender, hfields.trans (by decide +kernel)⟩
  · have hok : (enumeration marks "Mark").isOk = true := by decide +kernel
    obtain ⟨e, he⟩ := Outcome.eq_ok_of_isOk hok
    exact ⟨e, he, (memberNames_eq rfl rfl he).trans (by decide +kernel)⟩

end Proto

end Typewright
