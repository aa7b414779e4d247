import Typewright.Proofs.TypeSpellings
import Typewright.Proofs.WellKnownTypes

/-!
# Fields that are maps

An object that has only additional properties, all of one type, is a map, but where it is itself a property, its field
is none.
-/

namespace Typewright

open RefM Naming

variable {α β : Type} {type : String}

namespace SeenM

theorem ask_ok_bind (a : α) (f : α → SeenM β) : (liftM (Except.ok a : Except Fault α) >>= f : SeenM β) = f a := rfl

theorem lift_pure_bind (a : α) (f : α → SeenM β) : (liftM (pure a : RefM α) >>= f : SeenM β) = f a := rfl

end SeenM

theorem Naming.pascalOf_str_eq (name : String) : pascalOf (.str name) = .ok (pascal name) := by
  unfold pascalOf
  split
  · next hempty =>
    have hname : name = "" := by simpa [Value.truthy, Scalar.truthy] using hempty
    rw [hname]
    rfl
  · rfl

namespace Proto

section Map

variable {es : Entries} {values : Value} {p : Primitive} {scope : Option RefScope}

theorem fieldType_plain (bare : Bare es) (typed : Typed es type) (harray : type ≠ "array")
    (hobject : type ≠ "object") (scope : Option RefScope) (name : Scalar) : fieldType scope (.map es) name =
      pure { type := plainType (.str type) ((Entries.find? es (.str "format")).getD (.str "")) } := by
  have hfield : (Value.map es).field? "type" = .ok (some (.str type)) := by rw [Value.field?_map, typed]
  have htype : (Value.str type).isStr "array" = false ∧ (Value.str type).isStr "object" = false := by
    simp [isStr_str, harray, hobject]
  rw [fieldType, ofOwnRef_eq_none (bare.has (.head _))]
  simp only [bare.has, List.mem_cons, or_true, true_or, hfield, Value.fieldD_map, SeenM.ask_ok_bind, SeenM.lift_pure_bind,
    Option.getD_some, htype, Bool.false_eq_true, if_false]

theorem fieldType_primitive (shaped : Shaped values (.leaf p)) (scope : Option RefScope) :
    ∃ type, ∀ name, fieldType scope values name = pure { type := type } := by
  cases shaped with
  | text bare typed => exact ⟨_, fieldType_plain bare typed (by decide) (by decide) scope⟩
  | integer bare typed => exact ⟨_, fieldType_plain bare typed (by decide) (by decide) scope⟩
  | number bare typed => exact ⟨_, fieldType_plain bare typed (by decide) (by decide) scope⟩
  | boolean bare typed => exact ⟨_, fieldType_plain bare typed (by decide) (by decide) scope⟩

theorem exec_fieldType_map (bare : Bare es) (typed : Typed es "object") (scope : Option RefScope) (name : String)
    (seen : List Scalar) (s : RefState) : exec ((fieldType scope (.map es) (.str name)).run seen) s =
      (.ok (⟨pascal name, false, if Seen.has seen (.str (pascal name)) then none
        else some (.hollow ((Entries.find? es (.str "description")).getD (.str "")).saying
          (pascal name))⟩, seen), s) := by
  have hfield : (Value.map es).field? "type" = .ok (some (.str "object")) := by rw [Value.field?_map, typed]
  have hnone : (Value.map es).field? "properties" = .ok none := by
    rw [Value.field?_map, bare "properties" (by decide)]
  have htype : (Value.str "object").isStr "array" = false ∧ (Value.str "object").isStr "object" := by
    decide
  have hempty : ((none : Option Value).getD .empty).truthy = false := rfl
  rw [fieldType, ofOwnRef_eq_none (bare.has (.head _))]
  simp only [bare.has, List.mem_cons, or_true, true_or, hfield, hnone, pascalOf_str_eq, Value.fieldD_map,
    SeenM.ask_ok_bind, SeenM.lift_pure_bind, Option.getD_some, htype, hempty, Bool.false_eq_true, if_false, if_true]
  show exec ((if Seen.has seen (.str (pascal name)) = true then _ else _ : SeenM FieldType).run seen) s = _
  split_ifs <;> rfl

theorem part?_map_of_none {key : String} (h : Entries.find? es (.str key) = none) :
    (Value.map es).part? key = .ok none := by
  unfold Value.part?
  dsimp only
  split
  · next found => cases h.symm.trans found
  · rfl

theorem truthy_of_shaped {shape : Nest Primitive} (shaped : Shaped values shape) :
    values.isTrue = false ∧ values.isMap ∧ values.truthy := by
  have htyped := shaped.isMapWith_type
  obtain ⟨vs, rfl, _⟩ := shaped.exists_bare
  refine ⟨rfl, rfl, ?_⟩
  cases vs with
  | nil => cases htyped
  | cons e rest => rfl

theorem exec_message_map {comment typeName : String} {required : Value} {members seen : List Scalar}
    {s : RefState} (bare : Bare es) (found : Entries.find? es (.str "additionalProperties") = some values)
    (shaped : Shaped values (.leaf p)) (htype : ∀ name, fieldType scope values name = pure { type := type })
    (hsaid : (Value.map es).remark = .ok comment)
    (hrequired : (Value.map es).fieldD "required" (.list []) = .ok required)
    (hmembers : required.members = .ok members) :
    exec ((message scope (.map es) typeName).run seen) s =
      (.ok (.mk comment typeName [.mk none (additionalField type 1)], Seen.add seen (.str typeName)), s) := by
  obtain ⟨description, hdesc, htrimmed⟩ := bind_ok hsaid
  have hown : ownSlots scope (.map es) = pure [] := by
    rw [ownSlots, part?_map_of_none (bare "properties" (by decide))]
    rfl
  have hmore : moreSlots scope (.map es) 1 = pure [.mk none (additionalField type 1)] := by
    obtain ⟨isTrue, isMap, truthy⟩ := truthy_of_shaped shaped
    rw [moreSlots, part?_map found, SeenM.ask_ok_bind]
    simp only [isTrue, isMap, truthy, htype, Bool.false_eq_true, if_false, if_true, Bool.and_self, pure_bind]
  rw [message, hown]
  simp only [hdesc, htrimmed, hrequired, hmembers, SeenM.ask_ok_bind, pure_bind]
  rw [List.length_nil, Nat.zero_add, hmore]
  rfl

/-- The field for an object that has only additional properties, all of them primitive and of one type, is no map: a
message is declared for it that holds nothing. But the message for the same object has a map as its only field. -/
theorem map_is_hollow (bare : Bare es) (typed : Typed es "object")
    (found : Entries.find? es (.str "additionalProperties") = some values) (shaped : Shaped values (.leaf p))
    (scope : Option RefScope) : ∃ type, (∀ name, fieldType scope values name = pure { type := type }) ∧
      ∀ (name : String) (seen : List Scalar) (s : RefState), Naming.pascal name ≠ mapOf type ∧
        exec ((fieldType scope (.map es) (.str name)).run seen) s =
          (.ok (⟨Naming.pascal name, false,
            if Seen.has seen (.str (Naming.pascal name)) then none
            else some (.hollow ((Entries.find? es (.str "description")).getD (.str "")).saying
              (Naming.pascal name))⟩, seen), s) ∧
        ∀ comment required members, (Value.map es).remark = .ok comment →
          (Value.map es).fieldD "required" (.list []) = .ok required → required.members = .ok members →
          ∃ field, field.type = mapOf type ∧ field.repeated = false ∧
            exec ((message scope (.map es) name).run seen) s =
              (.ok (.mk comment name [.mk none field], Seen.add seen (.str name)), s) := by
  obtain ⟨type, htype⟩ := fieldType_primitive shaped scope
  refine ⟨type, htype, fun name seen s => ⟨(Raised.pascal name).ne_mapOf type, ?_, ?_⟩⟩
  · exact exec_fieldType_map bare typed scope name seen s
  · intro comment required members hsaid hrequired hmembers
    exact ⟨_, rfl, rfl, exec_message_map bare found shaped htype hsaid hrequired hmembers⟩

end Map

def attributes : Entries :=
  [("type", "object"), ("description", "By name"),
    ("additionalProperties", .map [("type", "integer"), ("format", "int64")])]

theorem shaped_attributes :
    Shaped (.map [(.str "type", .str "integer"), (.str "format", .str "int64")]) (.leaf .integer) :=
  .integer (by decide) rfl

theorem map_is_hollow_attributes : Bare attributes ∧ Typed attributes "object" ∧
      ∃ type, (∀ name, fieldType none (.map [(.str "type", .str "integer"), (.str "format", .str "int64")]) name =
          pure { type := type }) ∧
        exec ((fieldType none (.map attributes) (.str "attributes")).run [.str "Label"]) {} =
          (.ok (⟨"Attributes", false, some (.hollow "By name" "Attributes")⟩, [.str "Label"]), {}) ∧
        ∃ field, field.type = mapOf type ∧
          exec ((message none (.map attributes) "Label").run []) {} =
            (.ok (.mk "By name" "Label" [.mk none field], [.str "Label"]), {}) := by
  have bare : Bare attributes := by decide
  obtain ⟨type, htype, hall⟩ := map_is_hollow bare rfl rfl shaped_attributes none
  obtain ⟨field, hfield, _, hmessage⟩ := (hall "Label" [] {}).2.2 "By name" (.list []) [] (by decide +kernel) rfl rfl
  have hpascal : pascal "attributes" = "Attributes" := by decide +kernel
  have hrun := (hall "attributes" [.str "Label"] {}).2.1
  rw [hpascal] at hrun
  exact ⟨bare, rfl, type, htype, hrun, field, hfield, hmessage⟩

/-- The field for the attributes has a type that holds nothing, and no map to whole numbers, which their message
has. -/
theorem attributes_not_mapped : Shaped (.map attributes) (.map (.leaf .integer)) ∧
      (exec ((fieldType none (.map attributes) (.str "attributes")).run []) {}).1.map
          (fun r => (r.1.type, r.1.repeated, nestedLines r.1.nested)) =
        .ok ("Attributes", false, ["  // By name", "  message Attributes \x7b",
          "    // This message intentionally left empty or will be extended later", "    reserved 1;", "  \x7d",
          "  ", ""]) ∧ (exec ((messageLines none (.map attributes) "Attributes").run []) {}).1.map (·.1) =
        .ok ["// By name", "message Attributes \x7b", "  // Additional properties as key-value pairs",
          "  map<string, int64> additional_properties = 1;", "\x7d", ""] :=
  ⟨.map (by decide) rfl rfl shaped_attributes, by decide +kernel⟩

end Proto

end Typewright
