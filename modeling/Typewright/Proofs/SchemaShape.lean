import Typewright.Proofs.Parts

/-!
# Shapes of schemas

What holds of a schema and of everything inside it.
-/

namespace Typewright

variable {es : Entries} {e : Scalar × Value} {ws items : List Value} {pick : List Value → Option Value}
  {index : Int} {v : Value}

namespace Value

/-! ## Tests of everything inside a value -/

mutual

/-- Whether the value and everything inside it passes a test. -/
def everywhere (test : Value → Bool) : Value → Bool
  | .scalar s => test (.scalar s)
  | .list items => test (.list items) && everywhereInItems test items
  | .map entries => test (.map entries) && everywhereInEntries test entries
  | .set members => test (.set members)
  | .pair left right => test (.pair left right) && left.everywhere test && right.everywhere test

/-- Whether the items and everything inside them passes a test. -/
def everywhereInItems (test : Value → Bool) : List Value → Bool
  | [] => true
  | v :: rest => v.everywhere test && everywhereInItems test rest

/-- Whether the values of entries and everything inside them passes a test. -/
def everywhereInEntries (test : Value → Bool) : List (Scalar × Value) → Bool
  | [] => true
  | e :: rest => everywhereInEntry test e && everywhereInEntries test rest

/-- Whether the value of an entry and everything inside it passes a test. -/
def everywhereInEntry (test : Value → Bool) : Scalar × Value → Bool
  | (_, v) => v.everywhere test

end

/-- The first value lies inside the second one, or is it. -/
inductive Inside (w : Value) : Value → Prop
  | self : Inside w w
  | item {v : Value} {items : List Value} (mem : v ∈ items) (inside : Inside w v) :
      Inside w (.list items)
  | entry {e : Scalar × Value} {es : List (Scalar × Value)} (mem : e ∈ es) (inside : Inside w e.2) :
      Inside w (.map es)
  | left {l r : Value} (inside : Inside w l) : Inside w (.pair l r)
  | right {l r : Value} (inside : Inside w r) : Inside w (.pair l r)

section Everywhere

variable {test test' : Value → Bool} {v w : Value}

theorem everywhereInItems_iff : everywhereInItems test items ↔ ∀ v ∈ items, v.everywhere test := by
  induction items with
  | nil => simp [everywhereInItems]
  | cons v rest ih => simp [everywhereInItems, ih]

theorem everywhereInEntries_iff : everywhereInEntries test es ↔ ∀ e ∈ es, e.2.everywhere test := by
  induction es with
  | nil => simp [everywhereInEntries]
  | cons e rest ih =>
    obtain ⟨k, v⟩ := e
    rw [everywhereInEntries, Bool.and_eq_true, ih, List.forall_mem_cons]
    rfl

theorem everywhere_list_iff : (Value.list items).everywhere test ↔
      test (.list items) ∧ ∀ v ∈ items, v.everywhere test := by
  rw [everywhere, Bool.and_eq_true, everywhereInItems_iff]

theorem everywhere_map_iff : (Value.map es).everywhere test ↔ test (.map es) ∧ ∀ e ∈ es, e.2.everywhere test := by
  rw [everywhere, Bool.and_eq_true, everywhereInEntries_iff]

theorem everywhere_pair_iff {l r : Value} : (Value.pair l r).everywhere test ↔
      test (.pair l r) ∧ l.everywhere test ∧ r.everywhere test := by
  rw [everywhere, Bool.and_eq_true, Bool.and_eq_true, and_assoc]

theorem test_of_everywhere (h : v.everywhere test) : test v := by
  cases v with
  | scalar s => exact h
  | set members => exact h
  | list items => exact (everywhere_list_iff.mp h).1
  | map es => exact (everywhere_map_iff.mp h).1
  | pair l r => exact (everywhere_pair_iff.mp h).1

theorem everywhere_of_inside (h : v.everywhere test) (inside : Inside w v) : w.everywhere test := by
  induction inside with
  | self => exact h
  | item mem _ ih => exact ih ((everywhere_list_iff.mp h).2 _ mem)
  | entry mem _ ih => exact ih ((everywhere_map_iff.mp h).2 _ mem)
  | left _ ih => exact ih (everywhere_pair_iff.mp h).2.1
  | right _ ih => exact ih (everywhere_pair_iff.mp h).2.2

theorem everywhere_of_tests : (v : Value) → (∀ w, Inside w v → test w) → v.everywhere test
  | .scalar _, h => h _ .self
  | .set _, h => h _ .self
  | .list items, h => by
    refine everywhere_list_iff.mpr ⟨h _ .self, fun v hv => ?_⟩
    have := depth_lt_of_mem hv
    exact everywhere_of_tests v fun w hw => h w (.item hv hw)
  | .map es, h => by
    refine everywhere_map_iff.mpr ⟨h _ .self, fun e he => ?_⟩
    have := depth_lt_of_mem_entries he
    exact everywhere_of_tests e.2 fun w hw => h w (.entry he hw)
  | .pair l r, h =>
    everywhere_pair_iff.mpr ⟨h _ .self, everywhere_of_tests l fun w hw => h w (.left hw),
      everywhere_of_tests r fun w hw => h w (.right hw)⟩
termination_by v => v.depth
decreasing_by all_goals simp_all only [depth] <;> omega

theorem everywhere_iff : v.everywhere test ↔ ∀ w, Inside w v → test w :=
  ⟨fun h _ inside => test_of_everywhere (everywhere_of_inside h inside), everywhere_of_tests v⟩

end Everywhere

/-! ## Shapes -/

def isListOfMaps : Value → Bool
  | .list items => items.all isMap
  | _ => false

def isMapOfMaps : Value → Bool
  | .map es => es.all (·.2.isMap)
  | _ => false

/-- Whether the part of a map under a name passes a test, if there is such a part. -/
def partIs (test : Value → Bool) (name : String) : Value → Bool
  | .map es => (Entries.find? es (.str name)).all test
  | _ => true

def isOfType (v : Value) (type : String) : Bool :=
  match v with
  | .map es => (Entries.find? es (.str "type")).any (·.isStr type)
  | _ => false

def isRefFree (v : Value) : Bool :=
  v.everywhere fun w => !w.isMapWith "$ref"

/-- Whether the properties and definitions of a schema are maps to objects, and its items an object. -/
def orderlyHere (w : Value) : Bool :=
  w.partIs isMapOfMaps "properties" && w.partIs isMapOfMaps "definitions" && w.partIs isMap "items"

/-- Whether the alternatives and parts of a schema are lists of objects. -/
def composedHere (w : Value) : Bool :=
  w.partIs isListOfMaps "oneOf" && w.partIs isListOfMaps "anyOf" && w.partIs isListOfMaps "allOf"

/-- Whether all properties, definitions and items in the value are objects. -/
def isOrderly (v : Value) : Bool :=
  v.everywhere orderlyHere

/-- Whether all alternatives and parts of schemas in the value are lists of objects. -/
def isComposed (v : Value) : Bool :=
  v.everywhere composedHere

/-- Whether a schema has no reference and, if this matters, its parts are objects. -/
def fitsHere (strict : Bool) (w : Value) : Bool :=
  !w.isMapWith "$ref" && (!strict || (w.orderlyHere && w.composedHere))

/-- There is no reference in the value and, if this matters, the parts of schemas are objects. -/
def Fit (strict : Bool) (v : Value) : Prop :=
  v.everywhere (fitsHere strict) = true

theorem fit_of_isRefFree (h : v.isRefFree) : Fit false v :=
  everywhere_iff.mpr fun w hw => by
    have hfree := everywhere_iff.mp h w hw
    rw [fitsHere, hfree]
    rfl

theorem fit_of_shapes {strict : Bool} (h : v.isRefFree)
    (hshapes : strict → v.isOrderly ∧ v.isComposed) : Fit strict v := by
  cases strict with
  | false => exact fit_of_isRefFree h
  | true =>
    obtain ⟨horderly, hcomposed⟩ := hshapes rfl
    refine everywhere_iff.mpr fun w hw => ?_
    have hfree := everywhere_iff.mp h w hw
    rw [fitsHere, hfree, everywhere_iff.mp horderly w hw, everywhere_iff.mp hcomposed w hw]
    rfl

section Parts

variable {v w : Value} {name : String}

theorem inside_of_field (h : v.field name = .ok w) : Inside w v := by
  obtain ⟨es, rfl, found⟩ := field_eq_ok h
  obtain ⟨k, _, mem⟩ := mem_of_find? found
  exact .entry mem .self

theorem field_of_part {w : Below v} (h : v.part name = .ok w) : v.field name = .ok w.val := by
  rw [field, h]
  rfl

theorem field_of_part? {w : Below v} (h : v.part? name = .ok (some w)) : v.field name = .ok w.val := by
  refine field_of_field? ?_
  rw [field?, h]
  rfl

theorem inside_of_entries (h : v.entries = .ok es) (mem : e ∈ es) : Inside e.2 v := by
  cases v with
  | map es' =>
    cases h
    exact .entry mem .self
  | _ => cases h

theorem inside_of_items (h : v.items = .ok ws) (hw : w ∈ ws) : Inside w v ∨ ∃ s, w = .scalar s := by
  unfold items at h
  split at h
  · cases h
    exact .inl (.item hw .self)
  · cases h
    obtain ⟨e, _, rfl⟩ := List.mem_map.mp hw
    exact .inr ⟨_, rfl⟩
  · cases h
    obtain ⟨x, _, rfl⟩ := List.mem_map.mp hw
    exact .inr ⟨_, rfl⟩
  · cases h
    simp only [List.mem_cons, List.not_mem_nil, or_false] at hw
    rcases hw with rfl | rfl
    · exact .inl (.left .self)
    · exact .inl (.right .self)
  · cases h
    obtain ⟨c, _, rfl⟩ := List.mem_map.mp hw
    exact .inr ⟨_, rfl⟩
  · cases h
    obtain ⟨x, _, rfl⟩ := List.mem_map.mp hw
    exact .inr ⟨_, rfl⟩
  · cases h

theorem items_of_itemsWithin {ws : List (Within v)} (h : v.itemsWithin = .ok ws) :
    v.items = .ok (ws.map Subtype.val) := by
  unfold itemsWithin at h
  split at h
  · next us hus =>
    cases h
    refine hus.trans ?_
    rw [List.map_map]
    exact congrArg Except.ok (List.attach_map_subtype_val us).symm
  · cases h

theorem mem_of_itemAt (hpick : ∀ ws u, pick ws = some u → u ∈ ws) (h : v.itemAt pick index = .ok w) :
    (∃ ws, v.items = .ok ws ∧ w ∈ ws) ∨ ∃ es, v = .map es ∧ Entries.find? es (.int index) = some w := by
  have picked : ∀ kind, itemAt.pickFrom pick v kind = .ok w → ∃ ws, v.items = .ok ws ∧ w ∈ ws := by
    intro kind hk
    obtain ⟨ws, hws, hend⟩ := bind_ok hk
    split at hend
    · next u hu =>
      cases hend
      exact ⟨ws, hws, hpick _ _ hu⟩
    · cases hend
  unfold itemAt at h
  split at h
  · split at h
    · next found =>
      cases h
      exact .inr ⟨_, rfl, found⟩
    · cases h
  · cases h
  · exact .inl (picked _ h)
  · exact .inl (picked _ h)
  · exact .inl (picked _ h)
  · exact .inl (picked _ h)
  · cases h

theorem itemAt_of_first {w : Within v} (h : v.first = .ok w) : v.itemAt List.head? 0 = .ok w.val := by
  unfold first at h
  split at h
  · next hat =>
    cases h
    exact hat
  · cases h

theorem itemAt_of_last {w : Within v} (h : v.last = .ok w) : v.itemAt List.getLast? (-1) = .ok w.val := by
  unfold last at h
  split at h
  · next hat =>
    cases h
    exact hat
  · cases h

theorem isMap_of_mem_items (h : v.isListOfMaps) (hitems : v.items = .ok ws) (hw : w ∈ ws) : w.isMap := by
  cases v with
  | list items =>
    cases hitems
    exact List.all_eq_true.mp h w hw
  | _ => cases h

theorem of_partIs {test : Value → Bool} (h : v.partIs test name) (hw : v.field name = .ok w) : test w := by
  obtain ⟨es, rfl, found⟩ := field_eq_ok hw
  simpa [partIs, found] using h

end Parts

namespace Fit

variable {strict : Bool} {v w : Value} {name : String}

theorem of_inside (h : Fit strict v) (inside : Inside w v) : Fit strict w :=
  everywhere_of_inside h inside

theorem scalar (x : Scalar) : Fit strict (.scalar x) := by
  cases strict <;> rfl

theorem field (h : Fit strict v) (hw : v.field name = .ok w) : Fit strict w :=
  h.of_inside (inside_of_field hw)

theorem part {w : Below v} (h : Fit strict v) (hw : v.part name = .ok w) : Fit strict w.val :=
  h.field (field_of_part hw)

theorem part? {w : Below v} (h : Fit strict v) (hw : v.part? name = .ok (some w)) : Fit strict w.val :=
  h.field (field_of_part? hw)

theorem item (h : Fit strict v) (hitems : v.items = .ok ws) (hw : w ∈ ws) : Fit strict w := by
  rcases inside_of_items hitems hw with inside | ⟨x, rfl⟩
  · exact h.of_inside inside
  · exact .scalar x

theorem itemAt (h : Fit strict v)
    (hpick : ∀ ws u, pick ws = some u → u ∈ ws) (hw : v.itemAt pick index = .ok w) : Fit strict w := by
  rcases mem_of_itemAt hpick hw with ⟨ws, hitems, mem⟩ | ⟨es, rfl, found⟩
  · exact h.item hitems mem
  · obtain ⟨k, _, mem⟩ := mem_of_find? found
    exact h.of_inside (.entry mem .self)

theorem first {w : Within v} (h : Fit strict v) (hw : v.first = .ok w) : Fit strict w.val :=
  h.itemAt (fun _ _ => List.mem_of_mem_head?) (itemAt_of_first hw)

theorem last {w : Within v} (h : Fit strict v) (hw : v.last = .ok w) : Fit strict w.val :=
  h.itemAt (fun _ _ => List.mem_of_getLast?) (itemAt_of_last hw)

theorem entry (h : Fit strict v) (hes : v.entriesAt name = .ok es) (he : e ∈ es) : Fit strict e.2 := by
  obtain ⟨group, hgroup, hentries⟩ := field_of_entriesAt hes he
  exact (h.field hgroup).of_inside (inside_of_entries hentries he)

/-! ### References -/

theorem isMapWith_ref (h : Fit strict v) : v.isMapWith "$ref" = false := by
  have htest := test_of_everywhere h
  rw [fitsHere, Bool.and_eq_true] at htest
  simpa using htest.1

theorem has_ref (h : Fit strict v) (isMap : v.isMap) : v.has "$ref" = .ok false := by
  cases v with
  | map es => exact congrArg Except.ok h.isMapWith_ref
  | _ => cases isMap

theorem field_ref (h : Fit strict v) : ∃ e, v.field "$ref" = .error e ∧ e.isContent = false := by
  cases v with
  | map es =>
    rw [field_map]
    split
    · next found =>
      have hsome := any_same_of_find? found
      exact absurd h.isMapWith_ref (by rw [isMapWith, hsome]; nofun)
    · exact ⟨_, rfl, rfl⟩
  | scalar x => cases x <;> exact ⟨_, rfl, rfl⟩
  | _ => exact ⟨_, rfl, rfl⟩

/-! ### Parts that are objects -/

theorem orderlyHere (h : Fit true v) : v.orderlyHere := by
  have htest := test_of_everywhere h
  simp only [fitsHere, Bool.not_true, Bool.false_or, Bool.and_eq_true] at htest
  exact htest.2.1

theorem composedHere (h : Fit true v) : v.composedHere := by
  have htest := test_of_everywhere h
  simp only [fitsHere, Bool.not_true, Bool.false_or, Bool.and_eq_true] at htest
  exact htest.2.2

theorem isMap_items {w : Below v} (h : Fit strict v) (hw : v.part? "items" = .ok (some w)) : strict → w.val.isMap := by
  rintro rfl
  exact of_partIs (Bool.and_eq_true_iff.mp h.orderlyHere).2 (field_of_part? hw)

theorem isMapOfMaps (h : Fit true v) (hname : name = "properties" ∨ name = "definitions")
    (hw : v.field name = .ok w) : w.isMapOfMaps := by
  have horderly := Bool.and_eq_true_iff.mp (Bool.and_eq_true_iff.mp h.orderlyHere).1
  rcases hname with rfl | rfl
  · exact of_partIs horderly.1 hw
  · exact of_partIs horderly.2 hw

theorem isMap_entry (h : Fit true v)
    (hname : name = "properties" ∨ name = "definitions") (hes : v.entriesAt name = .ok es)
    (he : e ∈ es) : e.2.isMap := by
  obtain ⟨group, hgroup, hentries⟩ := field_of_entriesAt hes he
  have hmaps := h.isMapOfMaps hname hgroup
  cases group with
  | map es' =>
    cases hentries
    exact List.all_eq_true.mp hmaps e he
  | _ => cases hentries

theorem isListOfMaps (h : Fit true v) (hname : name = "oneOf" ∨ name = "anyOf" ∨ name = "allOf")
    (hw : v.field name = .ok w) : w.isListOfMaps := by
  have hcomposed := Bool.and_eq_true_iff.mp h.composedHere
  rcases hname with rfl | rfl | rfl
  · exact of_partIs (Bool.and_eq_true_iff.mp hcomposed.1).1 hw
  · exact of_partIs (Bool.and_eq_true_iff.mp hcomposed.1).2 hw
  · exact of_partIs hcomposed.2 hw

theorem isMap_option {group : Below v} {options : List (Within group.val)} (h : Fit strict v)
    (hname : name = "oneOf" ∨ name = "anyOf" ∨ name = "allOf") (hgroup : v.part name = .ok group)
    (hoptions : group.val.itemsWithin = .ok options) : ∀ o ∈ options, Fit strict o.val ∧ (strict → o.val.isMap) := by
  intro o ho
  have hitems := items_of_itemsWithin hoptions
  have hmem : o.val ∈ options.map Subtype.val := List.mem_map_of_mem ho
  refine ⟨(h.part hgroup).item hitems hmem, ?_⟩
  rintro rfl
  exact isMap_of_mem_items (h.isListOfMaps hname (field_of_part hgroup)) hitems hmem

theorem isMap_last {all : Below v} {last : Within all.val} (h : Fit strict v)
    (hall : v.part "allOf" = .ok all) (hlast : all.val.last = .ok last) : strict → last.val.isMap := by
  rintro rfl
  have hmaps := h.isListOfMaps (.inr (.inr rfl)) (field_of_part hall)
  rcases mem_of_itemAt (fun _ _ => List.mem_of_getLast?) (itemAt_of_last hlast) with
    ⟨ws, hitems, mem⟩ | ⟨es, hes, _⟩
  · exact isMap_of_mem_items hmaps hitems mem
  · rw [hes] at hmaps
    cases hmaps

theorem entries (h : Fit strict v)
    (hname : name = "properties" ∨ name = "definitions") (hes : v.entriesAt name = .ok es) :
    ∀ e ∈ es, Fit strict e.2 ∧ (strict → e.2.isMap) := by
  refine fun e he => ⟨h.entry hes he, ?_⟩
  rintro rfl
  exact h.isMap_entry hname hes he

theorem isMap_group {w : Below v} (h : Fit strict v)
    (hname : name = "properties" ∨ name = "definitions") (hw : v.part? name = .ok (some w)) : strict → w.val.isMap := by
  rintro rfl
  have hmaps := h.isMapOfMaps hname (field_of_part? hw)
  cases hval : w.val with
  | map es => rfl
  | _ =>
    rw [hval] at hmaps
    cases hmaps

theorem entriesBelow {w : Below v} {entries : List (Scalar × Below w.val)} (h : Fit strict v)
    (hname : name = "properties" ∨ name = "definitions") (hw : v.part? name = .ok (some w))
    (hentries : w.val.entriesBelow = .ok entries) : ∀ e ∈ entries, Fit strict e.2.val ∧ (strict → e.2.val.isMap) := by
  have hes : v.entriesAt name = .ok (entries.map fun e => (e.1, e.2.val)) :=
    (entriesAt_of_field (field_of_part? hw)).trans (entries_of_entriesBelow hentries)
  exact fun e he => h.entries hname hes (e.1, e.2.val) (List.mem_map_of_mem he)

theorem valuesBelow {w : Below v} {values : List (Below w.val)} (h : Fit strict v)
    (hname : name = "properties" ∨ name = "definitions") (hw : v.part? name = .ok (some w))
    (hvalues : w.val.valuesBelow = .ok values) : ∀ u ∈ values, Fit strict u.val ∧ (strict → u.val.isMap) := by
  have hes := entriesAt_of_field (field_of_part? hw)
  intro u hu
  obtain ⟨es, hentries, k, hmem⟩ := entries_of_valuesBelow hvalues hu
  exact h.entries hname (hes.trans hentries) (k, u.val) hmem

theorem entriesAt_eq_ok (h : Fit true v) (hmap : v.isMap)
    (hname : name = "properties" ∨ name = "definitions") : ∃ es, v.entriesAt name = .ok es := by
  cases v with
  | map fields =>
    unfold entriesAt fieldD
    rw [field?_map]
    cases found : Entries.find? fields (.str name) with
    | none => exact ⟨[], rfl⟩
    | some group =>
      have hgroup : (Value.map fields).field name = .ok group := by rw [field_map, found]
      have hmaps := h.isMapOfMaps hname hgroup
      cases group with
      | map es => exact ⟨es, rfl⟩
      | _ => cases hmaps
  | _ => cases hmap

/-! ### Copies with another title -/

theorem fitsHere_put (es : Entries) (title : Scalar) :
    fitsHere strict (.map (Entries.put es (.str "title") (.scalar title))) = fitsHere strict (.map es) := by
  have hparts : ∀ (test : Value → Bool) (name : String), "title" ≠ name →
      partIs test name (.map (Entries.put es (.str "title") (.scalar title))) =
        partIs test name (.map es) := by
    intro test name ne
    rw [partIs, partIs, Entries.find?_put_of_ne ne]
  unfold fitsHere Value.orderlyHere Value.composedHere
  rw [hparts _ "properties" (by decide), hparts _ "definitions" (by decide),
    hparts _ "items" (by decide), hparts _ "oneOf" (by decide), hparts _ "anyOf" (by decide),
    hparts _ "allOf" (by decide), isMapWith, isMapWith, Entries.any_put_of_ne (by decide)]

theorem retitled (h : Fit strict v) (hw : Retitled v w) : Fit strict w := by
  rcases hw with rfl | ⟨es, title, rfl, rfl⟩
  · exact h
  obtain ⟨hself, hes⟩ := everywhere_map_iff.mp h
  refine everywhere_map_iff.mpr ⟨(fitsHere_put es title).trans hself, fun e he => ?_⟩
  rcases Entries.eq_or_mem_of_mem_put he with heq | hmem
  · rw [heq]
    exact Fit.scalar title
  · exact hes e hmem

end Fit

end Value

end Typewright
