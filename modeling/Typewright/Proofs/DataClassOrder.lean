import Typewright.Proofs.WireFields

/-!
# The order of the fields of a data class

The initialiser of a data class takes the fields as arguments, in order.
-/

namespace Typewright.Python

open RefM

variable {properties : Entries}

/-! ## Fields with a default -/

/-- What a field of a data class is set to, if it is set to anything. -/
def Field.initial (f : Field) : Option String :=
  if f.default.isNull then (if f.required then none else some "None")
  else if isShared f.default then some ("field(default_factory=lambda: " ++ f.default.quoted ++ ")")
  else some (defaultText f.default)

/-- The type of a field of a data class. A field that may be left at nothing is optional. -/
def Field.annotation (f : Field) : String :=
  if f.default.isNull && !f.required then "Optional[" ++ f.type ++ "]" else f.type

theorem Field.dataLine_eq (f : Field) :
    f.dataLine = "    " ++ f.name ++ ": " ++ f.annotation ++ (f.initial.map (" = " ++ ·)).getD "" := by
  unfold Field.dataLine Field.annotation Field.initial
  apply String.toList_injective
  cases f.default.isNull <;> cases f.required <;> cases isShared f.default <;> simp

theorem Field.initial_eq_none_iff (f : Field) : f.initial = none ↔ f.required ∧ f.default.isNull := by
  unfold Field.initial
  cases f.default.isNull <;> cases f.required <;> cases isShared f.default <;> simp

/-- Whether the initialiser can be built from the fields, after fields of which some have a default or none
has. -/
def initialisable (given : Bool) : List Field → Bool
  | [] => true
  | f :: rest =>
    match f.initial with
    | some _ => initialisable true rest
    | none => !given && initialisable false rest

theorem initialisable_true_iff (fields : List Field) : initialisable true fields ↔ ∀ f ∈ fields, f.initial.isSome := by
  induction fields with
  | nil => simp [initialisable]
  | cons f rest ih =>
    unfold initialisable
    split
    · next hinitial => simp [ih, hinitial]
    · next hinitial => simp [hinitial]

def DefaultsLast (fields : List Field) : Prop :=
  fields.Pairwise fun f g => f.initial.isSome = true → g.initial.isSome = true

theorem initialisable_iff (fields : List Field) : initialisable false fields ↔ DefaultsLast fields := by
  unfold DefaultsLast
  induction fields with
  | nil => simp [initialisable]
  | cons f rest ih =>
    rw [List.pairwise_cons]
    unfold initialisable
    split
    · next hinitial =>
      rw [initialisable_true_iff]
      -- where all fields have a default, their order does not matter
      refine ⟨fun hall => ⟨fun g hg _ => hall g hg, ?_⟩, fun h g hg => h.1 g hg (by rw [hinitial]; rfl)⟩
      exact List.pairwise_of_forall_mem_list fun g _ g' hg' _ => hall g' hg'
    · next hinitial => simp [ih, hinitial]

/-! ## Properties that must be given a value -/

/-- Whether a property must be given a value: it is among the required ones, and its default is nothing. -/
def needsValue (required : Value) (e : Scalar × Value) : Bool :=
  match required.holds e.1, e.2.fieldD "default" .null with
  | .ok isRequired, .ok default => isRequired && default.isNull
  | _, _ => false

/-- The properties that must be given a value come before the others. -/
def NeedsFirst (required : Value) (properties : Entries) : Prop :=
  properties.Pairwise fun e e' => needsValue required e' = true → needsValue required e = true

variable {scope : Option RefScope} {style : PythonStyle} {required schema : Value} {s s' : RefState}

theorem exec_field {name : Scalar} {property : Value} {f : Field}
    (h : exec (field scope style required name property) s = (.ok f, s')) :
    f.name = name.text ∧ f.initial.isNone = needsValue required (name, property) := by
  obtain ⟨type, s1, _, h1⟩ := exec_bind_ok h
  obtain ⟨description, _, h2⟩ := exec_ask_ok h1
  obtain ⟨isRequired, hrequired, h3⟩ := exec_ask_ok h2
  obtain ⟨bounds, _, h4⟩ := exec_ask_ok h3
  obtain ⟨default, hdefault, h5⟩ := exec_ask_ok h4
  obtain ⟨said, _, h6⟩ := exec_ask_ok h5
  cases h6
  refine ⟨rfl, ?_⟩
  unfold needsValue Value.fieldD
  rw [hrequired, hdefault, Bool.eq_iff_iff, Option.isNone_iff_eq_none, Field.initial_eq_none_iff]
  exact (Bool.and_eq_true _ _).symm.to_iff

theorem exec_fields {fs : List Field} (h : exec (fields scope style required properties) s = (.ok fs, s')) :
    fs.map (·.name) = properties.map (·.1.text) ∧ fs.map (·.initial.isNone) = properties.map (needsValue required) := by
  rw [fields_eq_mapM] at h
  have hfields := (exec_mapM_eq_ok h).imp fun e f ⟨_, _, hf⟩ => exec_field hf
  clear h
  induction hfields with
  | nil => exact ⟨rfl, rfl⟩
  | cons hfirst _ ih =>
    simp only [List.map_cons]
    exact ⟨by rw [hfirst.1, ih.1], by rw [hfirst.2, ih.2]⟩

theorem defaultsLast_iff {fs : List Field} (h : fs.map (·.initial.isNone) = properties.map (needsValue required)) :
    DefaultsLast fs ↔ NeedsFirst required properties := by
  have hfields : DefaultsLast fs ↔ (fs.map (·.initial.isNone)).Pairwise fun a b => b = true → a = true := by
    unfold DefaultsLast
    rw [List.pairwise_map]
    refine List.Pairwise.iff fun f g => ?_
    cases f.initial <;> cases g.initial <;> simp
  rw [hfields, h, List.pairwise_map]
  rfl

theorem entriesOf_of_fieldD_null {v group : Value} {name : String} (h : v.fieldD name .null = .ok group) :
    (group.truthy = false → v.entriesOf name = []) ∧ ∀ es, group.entries = .ok es → v.entriesOf name = es := by
  have hentries : v.entriesOf name = group.entries.toOption.getD [] := by
    rcases Value.field_of_fieldD h with hfield | rfl
    · unfold Value.entriesOf
      rw [Value.entriesAt_of_field hfield]
      cases group.entries <;> rfl
    obtain ⟨found, hfound, hend⟩ := bind_ok h
    unfold Value.entriesOf Value.entriesAt Value.fieldD
    rw [hfound]
    cases found with
    | none => rfl
    | some w =>
      cases hend
      rfl
  refine ⟨fun hfalse => ?_, fun es hes => ?_⟩
  · rw [hentries]
    cases group with
    | map es =>
      have hempty : es = [] := by simpa [Value.truthy] using hfalse
      rw [hempty]
      rfl
    | _ => rfl
  · rw [hentries, hes]
    rfl

/-- A data class has a field for each property, in order. The initialiser can be built exactly if the properties that
must be given a value come first. -/
theorem declaration_initialisable_iff {text : String} (noEnum : schema.isMapWith "enum" = false)
    (h : exec (declaration scope .dataclass schema) s = (.ok text, s')) :
    ∃ title description required fs, schema.titleOrRoot = .ok title ∧
      schema.fieldD "description" (.str "") = .ok description ∧ schema.fieldD "required" (.list []) = .ok required ∧
      text = Text.join "\n" (["@dataclass", "class " ++ title ++ ":"] ++ docLine description.saying ++
        (if fs.isEmpty then ["    pass"] else fs.flatMap Field.dataLines)) ∧
      (∀ f ∈ fs, f.dataLine = "    " ++ f.name ++ ": " ++ f.annotation ++ (f.initial.map (" = " ++ ·)).getD "") ∧
      fs.map (·.name) = (schema.entriesOf "properties").map (·.1.text) ∧
      fs.map (·.initial.isNone) = (schema.entriesOf "properties").map (needsValue required) ∧
      (DefaultsLast fs ↔ NeedsFirst required (schema.entriesOf "properties")) ∧
      (initialisable false fs = true ↔ NeedsFirst required (schema.entriesOf "properties")) := by
  obtain ⟨title, htitle, h1⟩ := exec_ask_ok h
  obtain ⟨description, hdescription, h2⟩ := exec_ask_ok h1
  obtain ⟨required, hrequired, h3⟩ := exec_ask_ok h2
  obtain ⟨hasEnum, hhas, h4⟩ := exec_ask_ok h3
  rw [Value.has_eq_isMapWith "enum" (Value.isMap_of_titleOrRoot htitle), noEnum] at hhas
  cases hhas
  obtain ⟨group, hgroup, h5⟩ := exec_ask_ok h4
  obtain ⟨hnone, hsome⟩ := entriesOf_of_fieldD_null hgroup
  -- the class has a line that says nothing exactly if there are no properties
  obtain ⟨fs, htext, hnames, hneeds⟩ : ∃ fs : List Field,
      text = Text.join "\n" (["@dataclass", "class " ++ title ++ ":"] ++ docLine description.saying ++
        (if fs.isEmpty then ["    pass"] else fs.flatMap Field.dataLines)) ∧
      fs.map (·.name) = (schema.entriesOf "properties").map (·.1.text) ∧
      fs.map (·.initial.isNone) = (schema.entriesOf "properties").map (needsValue required) := by
    cases htruthy : group.truthy with
    | false =>
      rw [htruthy] at h5
      cases h5
      rw [hnone htruthy]
      exact ⟨[], rfl, rfl, rfl⟩
    | true =>
      rw [htruthy] at h5
      obtain ⟨properties, hproperties, h6⟩ := exec_ask_ok h5
      obtain ⟨fs, s1, hfs, h7⟩ := exec_bind_ok h6
      cases h7
      obtain ⟨hnames, hneeds⟩ := exec_fields hfs
      have hsomething : fs.isEmpty = false := by
        cases group with
        | map es =>
          cases hproperties
          have hne : properties ≠ [] := by simpa [Value.truthy] using htruthy
          rw [List.isEmpty_eq_false_iff, ← List.length_pos_iff, ← List.length_map (·.name), hnames, List.length_map]
          exact List.length_pos_iff.mpr hne
        | _ => cases hproperties
      rw [hsome properties hproperties]
      refine ⟨fs, ?_, hnames, hneeds⟩
      rw [hsomething]
      exact congrArg (Text.join "\n") (List.append_nil _)
  have horder := defaultsLast_iff hneeds
  exact ⟨title, description, required, fs, htitle, hdescription, hrequired, htext, fun f _ => f.dataLine_eq,
    hnames, hneeds, horder, (initialisable_iff fs).trans horder⟩

def addressFirst : Value :=
  .map [("title", "Parcel"), ("required", .list [.str "tags", .str "address"]),
    ("properties", .map
      [("address", .map [("type", "string")]),
        ("tags", .map [("type", "array"), ("default", .list [])]),
        ("note", .map [("type", "string")])])]

theorem declaration_initialisable_addressFirst : addressFirst.isMapWith "enum" = false ∧
      ∃ text fs, (exec (declaration none .dataclass addressFirst) {}).1 = .ok text ∧
        fs.map (·.name) = ["address", "tags", "note"] ∧ fs.map (·.initial.isNone) = [true, false, false] ∧
        DefaultsLast fs := by
  obtain ⟨text, htext⟩ : ∃ text, (exec (declaration none .dataclass addressFirst) {}).1 = .ok text :=
    Outcome.eq_ok_of_isOk (by decide +kernel)
  obtain ⟨title, description, required, fs, _, _, hrequired, _, _, hnames, hneeds, horder, _⟩ :=
    declaration_initialisable_iff rfl (Prod.ext htext rfl)
  cases hrequired
  refine ⟨rfl, text, fs, htext, hnames, hneeds, horder.mpr ?_⟩
  unfold NeedsFirst
  decide +kernel

def noteFirst : Value :=
  .map [("title", "Parcel"), ("required", .list [.str "address"]),
    ("properties", .map
      [("note", .map [("type", "string")]),
        ("address", .map [("type", "string")])])]

/-- The address has no default, and comes after the note, which has one. -/
theorem declaration_noteFirst : (exec (declaration none .dataclass noteFirst) {}).1 =
        .ok "@dataclass\nclass Parcel:\n    note: Optional[str] = None\n    address: str" ∧
      ∃ fs, (exec (fields none .dataclass (.list [.str "address"]) (noteFirst.entriesOf "properties")) {}).1 = .ok fs ∧
        fs.map (fun f => (f.name, f.initial)) = [("note", some "None"), ("address", none)] ∧
        ¬ DefaultsLast fs ∧ initialisable false fs = false := by
  have hrun : (exec (declaration none .dataclass noteFirst) {}).1 =
        .ok "@dataclass\nclass Parcel:\n    note: Optional[str] = None\n    address: str" ∧
      (exec (fields none .dataclass (.list [.str "address"]) (noteFirst.entriesOf "properties")) {}).1.map
          (fun fs => (fs.map fun f => (f.name, f.initial), initialisable false fs)) =
        .ok ([("note", some "None"), ("address", none)], false) := by
    decide +kernel
  obtain ⟨htext, hfields⟩ := hrun
  cases hfs : (exec (fields none .dataclass (.list [.str "address"]) (noteFirst.entriesOf "properties")) {}).1 with
  | error e =>
    rw [hfs] at hfields
    cases hfields
  | ok fs =>
    rw [hfs] at hfields
    obtain ⟨hinitial, hnot⟩ := Prod.mk.inj (Except.ok.inj hfields)
    refine ⟨htext, fs, rfl, hinitial, fun hlast => ?_, hnot⟩
    rw [(initialisable_iff fs).mpr hlast] at hnot
    cases hnot

end Typewright.Python
