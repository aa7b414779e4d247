import Typewright.Document.Access
import Typewright.Proofs.RefRun

/-!
# Parts of a value

What the accessors of a value come to on a map, how they agree with each other, and what a copy with
another title keeps.
-/

namespace Typewright

variable {es : Entries} {key' text title : String} {x key : Scalar} {default : Value} {e : Scalar × Value}
  {v : Value}

theorem Scalar.same_str_iff : x.same (.str text) ↔ x = .str text := by
  cases x <;> simp [Scalar.same, Scalar.toInt?]

theorem Scalar.same_str_of_ne (ne : x ≠ .str text) : x.same (.str text) = false :=
  Bool.eq_false_iff.mpr fun h => ne (Scalar.same_str_iff.mp h)

namespace Value

variable {v w : Value} {name : String}

theorem field_map (es : Entries) (name : String) : (Value.map es).field name =
      match Entries.find? es (.str name) with
      | some w => .ok w
      | none => .error (.missingKey (.str name)) := by
  unfold field part
  dsimp only
  split
  · next w hw =>
    show Except.ok w = _
    rw [hw]
  · next hnone =>
    rw [hnone]
    rfl

theorem field?_map (es : Entries) (name : String) :
    (Value.map es).field? name = .ok (Entries.find? es (.str name)) := by
  unfold field? part?
  dsimp only
  split
  · next w hw =>
    show Except.ok (some w) = _
    rw [hw]
  · next hnone =>
    rw [hnone]
    rfl

theorem fieldD_map (es : Entries) (name : String) (default : Value) :
    (Value.map es).fieldD name default = .ok ((Entries.find? es (.str name)).getD default) := by
  unfold fieldD
  rw [field?_map]
  rfl

theorem field_eq_ok (h : v.field name = .ok w) : ∃ es, v = .map es ∧ Entries.find? es (.str name) = some w := by
  cases v with
  | map es =>
    rw [field_map] at h
    split at h
    · next found =>
      cases h
      exact ⟨es, rfl, found⟩
    · cases h
  | scalar x => cases x <;> cases h
  | _ => cases h

theorem field_of_field? (h : v.field? name = .ok (some w)) : v.field name = .ok w := by
  cases v with
  | map es =>
    rw [field?_map] at h
    rw [field_map, Except.ok.inj h]
  | _ => cases h

theorem field_of_fieldD (h : v.fieldD name default = .ok w) : v.field name = .ok w ∨ w = default := by
  obtain ⟨found, hfound, hend⟩ := bind_ok h
  cases hend
  cases found with
  | none => exact .inr rfl
  | some u => exact .inl (field_of_field? hfound)

theorem any_same_of_find? (h : Entries.find? es key = some w) : es.any (·.1.same key) := by
  induction es with
  | nil => cases h
  | cons e rest ih =>
    obtain ⟨k, u⟩ := e
    simp only [Entries.find?] at h
    rw [List.any_cons, Bool.or_eq_true]
    split at h
    · next hsame => exact .inl hsame
    · exact .inr (ih h)

theorem mem_of_find? (h : Entries.find? es key = some w) : ∃ k, k.same key ∧ (k, w) ∈ es := by
  induction es with
  | nil => cases h
  | cons e rest ih =>
    obtain ⟨k, u⟩ := e
    simp only [Entries.find?] at h
    split at h
    · next hsame =>
      cases h
      exact ⟨k, hsame, .head _⟩
    · obtain ⟨k', hsame, hmem⟩ := ih h
      exact ⟨k', hsame, .tail _ hmem⟩

theorem find?_of_any_same (h : es.any (·.1.same key)) : ∃ w, Entries.find? es key = some w := by
  induction es with
  | nil => cases h
  | cons e rest ih =>
    obtain ⟨k, u⟩ := e
    simp only [Entries.find?]
    split
    · exact ⟨u, rfl⟩
    · next hother =>
      rw [List.any_cons, Bool.or_eq_true] at h
      exact ih (h.resolve_left hother)

theorem isMapWith_map (es : Entries) (name : String) :
    (Value.map es).isMapWith name = (Entries.find? es (.str name)).isSome := by
  unfold isMapWith
  cases hfound : Entries.find? es (.str name)
  case some w => exact any_same_of_find? hfound
  refine Bool.eq_false_iff.mpr fun h => ?_
  obtain ⟨w, hw⟩ := find?_of_any_same h
  cases hfound.symm.trans hw

theorem fieldD_of_field (h : v.field name = .ok w) : v.fieldD name default = .ok w := by
  obtain ⟨es, rfl, found⟩ := field_eq_ok h
  rw [fieldD_map, found]
  rfl

theorem fieldD_of_has_false (hmap : v.isMap) (h : v.has name = .ok false) : v.fieldD name default = .ok default := by
  cases v with
  | map es =>
    have hnone : Entries.find? es (.str name) = none := by
      cases found : Entries.find? es (.str name) with
      | none => rfl
      | some w => cases (Except.ok.inj h).symm.trans (any_same_of_find? found)
    rw [fieldD_map, hnone]
    rfl
  | _ => cases hmap

theorem isMap_of_field (h : v.field name = .ok w) : v.isMap := by
  obtain ⟨es, rfl, _⟩ := field_eq_ok h
  rfl

theorem has_of_field (h : v.field name = .ok w) : v.has name = .ok true := by
  obtain ⟨es, rfl, found⟩ := field_eq_ok h
  show Except.ok (es.any (·.1.same (.str name))) = _
  rw [any_same_of_find? found]

theorem field_of_has (hmap : v.isMap) (h : v.has name = .ok true) : ∃ w, v.field name = .ok w := by
  cases v with
  | map es =>
    obtain ⟨w, found⟩ := find?_of_any_same (Except.ok.inj h)
    exact ⟨w, by rw [field_map, found]⟩
  | _ => cases hmap

theorem has_eq_isMapWith (name : String) (hmap : v.isMap) : v.has name = .ok (v.isMapWith name) := by
  cases v with
  | map es => rfl
  | _ => cases hmap

theorem field?_of_isMap (name : String) (hmap : v.isMap) : ∃ w, v.field? name = .ok w := by
  cases v with
  | map es => exact ⟨_, field?_map es name⟩
  | _ => cases hmap

theorem isMap_of_isMapWith (h : v.isMapWith name) : v.isMap := by
  cases v with
  | map es => rfl
  | _ => cases h

theorem isMap_of_field? {w : Option Value} (h : v.field? name = .ok w) : v.isMap := by
  cases v with
  | map es => rfl
  | _ => cases h

theorem isMap_of_title (h : v.title = .ok title) : v.isMap := by
  obtain ⟨raw, hraw, _⟩ := bind_ok h
  obtain ⟨found, hfound, _⟩ := bind_ok hraw
  exact isMap_of_field? hfound

theorem isMap_of_titleOrRoot (h : v.titleOrRoot = .ok title) : v.isMap := by
  obtain ⟨t, ht, _⟩ := bind_ok h
  exact isMap_of_title ht

theorem entriesAt_of_field (h : v.field name = .ok w) : v.entriesAt name = w.entries := by
  obtain ⟨es, rfl, found⟩ := field_eq_ok h
  unfold entriesAt fieldD
  rw [field?_map, found]
  rfl

theorem field_of_entriesAt (h : v.entriesAt name = .ok es) (he : e ∈ es) :
    ∃ group, v.field name = .ok group ∧ group.entries = .ok es := by
  obtain ⟨group, hgroup, hes⟩ := bind_ok h
  rcases field_of_fieldD hgroup with hfield | rfl
  · exact ⟨group, hfield, hes⟩
  · cases hes
    cases he

/-- The entries under a name, none if there are none to be had. -/
def entriesOf (v : Value) (name : String) : Entries :=
  match v.entriesAt name with
  | .ok es => es
  | .error _ => []

theorem entriesOf_eq (h : v.entriesAt name = .ok es) : v.entriesOf name = es := by
  unfold entriesOf
  rw [h]

theorem entriesAt_of_mem_entriesOf (h : e ∈ v.entriesOf name) : v.entriesAt name = .ok (v.entriesOf name) := by
  unfold entriesOf at h ⊢
  split at h
  · next hes => rw [hes]
  · cases h

theorem entries_of_fieldD_null {group : Value}
    (hes : v.entriesAt name = .ok es) (hgroup : v.fieldD name .null = .ok group) :
    group.truthy = !es.isEmpty ∧ (es.isEmpty = false → group.entries = .ok es) := by
  obtain ⟨found, hfound, hend⟩ := bind_ok hgroup
  cases hend
  unfold entriesAt fieldD at hes
  rw [hfound] at hes
  cases found with
  | none =>
    cases hes
    exact ⟨rfl, nofun⟩
  | some group =>
    cases group with
    | map es' =>
      cases hes
      exact ⟨rfl, fun _ => rfl⟩
    | _ => cases hes

theorem part?_eq_none {part : Option (Below v)}
    (h : v.part? name = .ok part) (hno : v.has name = .ok false) : part = none := by
  unfold part? at h
  split at h
  · split at h
    · next found =>
      cases (Except.ok.inj hno).symm.trans (any_same_of_find? found)
    · cases h
      rfl
  · cases h

theorem entriesOf_of_part?_none (h : v.part? name = .ok none) : v.entriesOf name = [] := by
  refine entriesOf_eq ?_
  unfold entriesAt fieldD field?
  rw [h]
  rfl

theorem entries_of_entriesBelow {es : List (Scalar × Below v)}
    (h : v.entriesBelow = .ok es) : v.entries = .ok (es.map fun e => (e.1, e.2.val)) := by
  cases v with
  | map entries =>
    cases h
    show Except.ok entries = _
    rw [List.map_map]
    exact congrArg Except.ok (List.attach_map_subtype_val entries).symm
  | _ => cases h

theorem entries_of_valuesBelow {values : List (Below v)} {u : Below v}
    (h : v.valuesBelow = .ok values) (hu : u ∈ values) : ∃ es, v.entries = .ok es ∧ ∃ k, (k, u.val) ∈ es := by
  cases v with
  | map es =>
    cases h
    obtain ⟨e, _, rfl⟩ := List.mem_map.mp hu
    exact ⟨es, rfl, e.val.1, e.property⟩
  | _ => cases h

theorem part?_of_isMap (name : String) (hmap : v.isMap) : ∃ w, v.part? name = .ok w := by
  cases v with
  | map es =>
    unfold part?
    dsimp only
    split <;> exact ⟨_, rfl⟩
  | _ => cases hmap

theorem entriesBelow_of_isMap (hmap : v.isMap) : ∃ es, v.entriesBelow = .ok es := by
  cases v with
  | map es => exact ⟨_, rfl⟩
  | _ => cases hmap

theorem valuesBelow_of_isMap (hmap : v.isMap) : ∃ vs, v.valuesBelow = .ok vs := by
  cases v with
  | map es => exact ⟨_, rfl⟩
  | _ => cases hmap

theorem entriesOf_of_part? {part : Below v}
    {entries : List (Scalar × Below part.val)} (h : v.part? name = .ok (some part))
    (hentries : part.val.entriesBelow = .ok entries) : v.entriesOf name = entries.map fun e => (e.1, e.2.val) := by
  refine entriesOf_eq ?_
  unfold entriesAt fieldD field?
  rw [h]
  exact entries_of_entriesBelow hentries

theorem eq_str_of_isStr (h : v.isStr text) : v = .str text := by
  unfold Value.isStr at h
  split at h
  · unfold Scalar.isStr at h
    split at h
    · rw [beq_iff_eq.mp h]
    · cases h
  · cases h

theorem isOneOf_iff {texts : List String} : v.isOneOf texts ↔ ∃ text ∈ texts, v = .str text := by
  unfold isOneOf
  rw [List.any_eq_true]
  refine exists_congr fun text => and_congr_right fun _ => ⟨eq_str_of_isStr, ?_⟩
  rintro rfl
  simp [isStr, Scalar.isStr]

theorem titleOrRoot_ne (h : v.titleOrRoot = .ok text) : text ≠ "" := by
  obtain ⟨title, _, hend⟩ := bind_ok h
  cases hend
  split
  · decide
  · next hne => simpa using hne

theorem titleOrRoot_of_title (h : v.title = .ok title) (ne : title ≠ "") : v.titleOrRoot = .ok title := by
  unfold titleOrRoot
  rw [h]
  show Except.ok (if title.isEmpty then "Root" else title) = _
  rw [if_neg (by simpa using ne)]

theorem isStr_title_iff {raw : Value} (htitle : v.titleOrRoot = .ok title)
    (hraw : v.fieldD "title" (.str "") = .ok raw) : raw.isStr title ↔ v.field "title" = .ok (.str title) := by
  constructor
  · intro h
    rw [eq_str_of_isStr h] at hraw
    refine (field_of_fieldD hraw).resolve_right fun hempty => ?_
    cases hempty
    exact titleOrRoot_ne htitle rfl
  intro h
  obtain ⟨es, rfl, found⟩ := field_eq_ok h
  unfold fieldD at hraw
  rw [field?_map, found] at hraw
  cases hraw
  simp [isStr, Scalar.isStr]

theorem entriesOf_of_has (h : v.has name = .ok false) : v.entriesOf name = [] := by
  cases hpart : v.part? name with
  | ok part =>
    cases part?_eq_none hpart h
    exact entriesOf_of_part?_none hpart
  | error e =>
    unfold entriesOf entriesAt fieldD field?
    rw [hpart]
    rfl

end Value

/-! ## Schemas that differ in their title -/

namespace Entries

theorem find?_put_self (es : Entries) (key : String) (v : Value) : find? (put es (.str key) v) (.str key) = some v := by
  induction es with
  | nil => simp [put, find?, Scalar.same_str_iff]
  | cons e rest ih =>
    unfold put
    split
    · next h => simp [find?, h]
    · next h => simp [find?, h, ih]

theorem find?_put_of_ne {key : String} (ne : key ≠ key') (es : Entries) (v : Value) :
    find? (put es (.str key) v) (.str key') = find? es (.str key') := by
  induction es with
  | nil =>
    have hother : (Scalar.str key).same (.str key') = false := Scalar.same_str_of_ne (by simpa using ne)
    simp [put, find?, hother]
  | cons e rest ih =>
    unfold put
    split
    · next h =>
      have hother : e.1.same (.str key') = false := by
        rw [Scalar.same_str_iff.mp h]
        exact Scalar.same_str_of_ne (by simpa using ne)
      simp [find?, hother]
    · simp [find?, ih]

theorem any_put_of_ne {key : String} (ne : key ≠ key') (es : Entries) (v : Value) :
    (put es (.str key) v).any (·.1.same (.str key')) = es.any (·.1.same (.str key')) := by
  induction es with
  | nil =>
    have hother : (Scalar.str key).same (.str key') = false := Scalar.same_str_of_ne (by simpa using ne)
    simp [put, hother]
  | cons e rest ih =>
    unfold put
    split
    · simp
    · simp [ih]

theorem eq_or_mem_of_mem_put (h : e ∈ put es key v) : e.2 = v ∨ e ∈ es := by
  induction es with
  | nil => exact .inl (congrArg Prod.snd (List.mem_singleton.mp h))
  | cons f rest ih =>
    unfold put at h
    split at h
    · rcases List.mem_cons.mp h with rfl | h
      · exact .inl rfl
      · exact .inr (.tail _ h)
    · rcases List.mem_cons.mp h with rfl | h
      · exact .inr (.head _)
      · exact (ih h).imp id (List.mem_cons_of_mem _)

end Entries

namespace Value

/-- The second schema is the first one, perhaps with another title. -/
def Retitled (v w : Value) : Prop :=
  w = v ∨ ∃ es title, v = .map es ∧ w = .map (Entries.put es (.str "title") (.scalar title))

theorem retitled_withTitle {title : Scalar} {w : Within v} (h : v.withTitle title = .ok w) : Retitled v w.val := by
  unfold withTitle at h
  split at h
  · cases h
    exact .inr ⟨_, title, rfl, rfl⟩
  all_goals cases h

theorem field_withTitle {title : Scalar} {w : Within v}
    (h : v.withTitle title = .ok w) : w.val.field "title" = .ok (.scalar title) := by
  unfold withTitle at h
  split at h
  · cases h
    rw [field_map, Entries.find?_put_self]
  all_goals cases h

namespace Retitled

variable {v w : Value} {name : String}

theorem has (h : Retitled v w) (ne : name ≠ "title") : w.has name = v.has name := by
  rcases h with rfl | ⟨es, title, rfl, rfl⟩
  · rfl
  · show Except.ok _ = Except.ok _
    rw [Entries.any_put_of_ne ne.symm]

theorem field (h : Retitled v w) (ne : name ≠ "title") : w.field name = v.field name := by
  rcases h with rfl | ⟨es, title, rfl, rfl⟩
  · rfl
  · rw [field_map, field_map, Entries.find?_put_of_ne ne.symm]

theorem field? (h : Retitled v w) (ne : name ≠ "title") : w.field? name = v.field? name := by
  rcases h with rfl | ⟨es, title, rfl, rfl⟩
  · rfl
  · rw [field?_map, field?_map, Entries.find?_put_of_ne ne.symm]

theorem entriesOf (h : Retitled v w) (ne : name ≠ "title") : w.entriesOf name = v.entriesOf name := by
  unfold Value.entriesOf Value.entriesAt Value.fieldD
  rw [h.field? ne]

end Retitled

end Value

end Typewright
