import Typewright.Proofs.GoRoot

/-!
# The imports of a Go file

Imports are asked for by properties, by type and format.
-/

namespace Typewright

open RefM Value
open Text (contains)

variable {format schema : Value} {es : Entries} {type : String} {isRequired : Bool} {name : Scalar}

def Value.partHas (test : Value → Bool) (name : String) : Value → Bool
  | .map es => (Entries.find? es (.str name)).any test
  | _ => false

namespace Go

inductive Package
  | uuid
  | url
  | time
deriving DecidableEq, Repr

namespace Package

def path : Package → String
  | uuid => uuidPackage
  | url => "net/url"
  | time => "time"

/-- What stands before the names of the package. -/
def qualifier : Package → String
  | uuid => "uuid."
  | url => "url."
  | time => "time."

def formats : Package → List String
  | uuid => ["uuid"]
  | url => ["uri", "url"]
  | time => ["date-time", "date", "time"]

def typeFormats : Package → List String
  | time => "duration" :: time.formats
  | p => p.formats

end Package

def Imports.has (i : Imports) : Package → Bool
  | .uuid => i.uuid
  | .url => i.url
  | .time => i.time

theorem Imports.mem_paths_iff (i : Imports) (p : Package) : p.path ∈ i.paths ↔ i.has p := by
  obtain ⟨uuid, url, time⟩ := i
  cases p <;> cases uuid <;> cases url <;> cases time <;> decide

/-! ## Which imports are asked for -/

/-- Whether a schema asks for a package by its type and format. -/
def asks (p : Package) (v : Value) : Bool :=
  v.isOfType "string" && v.partHas (·.isOneOf p.formats) "format"

def asksWithItems (p : Package) (v : Value) : Bool :=
  asks p v || (v.isOfType "array" && v.partHas (asks p) "items")

def propertiesAsk (p : Package) (schema : Value) : Bool :=
  (schema.entriesOf "properties").any (asksWithItems p ·.2)

def isAskedFor (p : Package) (schema : Value) : Bool :=
  propertiesAsk p schema || (schema.entriesOf "definitions").any (propertiesAsk p ·.2)

section Asked

variable {p : Package} {i i' : Imports} {schema : Value} {s s' : RefState}

theorem isOneOf_formats {q : Package} (h : format.isOneOf q.formats) : format.isOneOf p.formats = decide (p = q) := by
  obtain ⟨text, htext, rfl⟩ := isOneOf_iff.mp h
  revert text
  cases p <;> cases q <;> decide

theorem format_has (h : (if format.isOneOf ["date-time", "date", "time"] then pure { i with time := true }
      else if format.isStr "uuid" then pure { i with uuid := true }
      else if format.isOneOf ["uri", "url"] then pure { i with url := true }
      else pure i : Except Fault Imports) = .ok i') :
    i'.has p = (i.has p || format.isOneOf p.formats) := by
  have huuid : format.isStr "uuid" = format.isOneOf Package.uuid.formats := by
    simp [Value.isOneOf, Package.formats]
  rw [huuid] at h
  split at h
  · next htime =>
    cases h
    rw [isOneOf_formats (q := .time) htime]
    cases p <;> simp [Imports.has]
  · next htime =>
    split at h
    · next huuid =>
      cases h
      rw [isOneOf_formats huuid]
      cases p <;> simp [Imports.has]
    · next huuid =>
      split at h
      · next hurl =>
        cases h
        rw [isOneOf_formats (q := .url) hurl]
        cases p <;> simp [Imports.has]
      · next hurl =>
        cases h
        have hnone : format.isOneOf p.formats = false := by
          cases p with
          | uuid => exact Bool.eq_false_iff.mpr huuid
          | url => exact Bool.eq_false_iff.mpr hurl
          | time => exact Bool.eq_false_iff.mpr htime
        rw [hnone, Bool.or_false]

theorem addFormat_has (h : i.addFormat schema = .ok i') : i'.has p = (i.has p || asks p schema) := by
  cases schema with
  | map es =>
    have hasks : asks p (.map es) = ((Entries.find? es (.str "type")).any (·.isStr "string") &&
        (Entries.find? es (.str "format")).any (·.isOneOf p.formats)) := rfl
    have htype : ((Entries.find? es (.str "type")).getD (.str "")).isStr "string" =
        (Entries.find? es (.str "type")).any (·.isStr "string") := by
      cases Entries.find? es (.str "type") <;> rfl
    have hformat : (Entries.find? es (.str "format")).any (·.isOneOf p.formats) =
        ((Entries.find? es (.str "format")).getD (.str "")).isOneOf p.formats := by
      cases Entries.find? es (.str "format") with
      | none => cases p <;> rfl
      | some format => rfl
    unfold Imports.addFormat at h
    rw [fieldD_map, fieldD_map, Outcome.ok_bind, Outcome.ok_bind, htype] at h
    rw [hasks, hformat]
    cases htext : (Entries.find? es (.str "type")).any (·.isStr "string") with
    | false =>
      rw [htext] at h
      cases h
      simp
    | true =>
      rw [htext, if_neg (by simp)] at h
      exact format_has h
  | _ => cases h

theorem addProperty_has (h : i.addProperty schema = .ok i') : i'.has p = (i.has p || asksWithItems p schema) := by
  obtain ⟨i1, hi1, h1⟩ := bind_ok h
  obtain ⟨type, htype, h2⟩ := bind_ok h1
  rw [asksWithItems, ← Bool.or_assoc, ← addFormat_has hi1]
  cases schema with
  | map es =>
    rw [field?_map] at htype
    cases htype
    have harray : ((Entries.find? es (.str "type")).getD .null).isStr "array" = (Value.map es).isOfType "array" := by
      change _ = (Entries.find? es (.str "type")).any (·.isStr "array")
      cases Entries.find? es (.str "type") <;> rfl
    have hitems : (Value.map es).partHas (asks p) "items" = (Entries.find? es (.str "items")).any (asks p) := rfl
    rw [harray, field?_map, Outcome.ok_bind] at h2
    rw [hitems]
    revert h2
    cases (Value.map es).isOfType "array" with
    | false =>
      intro h2
      cases h2
      simp
    | true =>
      cases Entries.find? es (.str "items") with
      | none =>
        intro h2
        cases h2
        simp
      | some items => exact addFormat_has
  | _ => cases htype

theorem addProperties_has (h : exec (i.addProperties none es) s = (.ok i', s')) :
    i'.has p = (i.has p || es.any (asksWithItems p ·.2)) := by
  induction es generalizing i s with
  | nil =>
    cases h
    simp
  | cons e rest ih =>
    obtain ⟨i1, hi1, h1⟩ := exec_ask_ok h
    obtain ⟨_, s1, _, h2⟩ := exec_bind_ok h1
    rw [ih h2, addProperty_has hi1, List.any_cons, Bool.or_assoc]

theorem foldlM_addProperty_has (h : es.foldlM (fun i e => i.addProperty e.2) i = .ok i') :
    i'.has p = (i.has p || es.any (asksWithItems p ·.2)) := by
  induction es generalizing i with
  | nil =>
    cases h
    simp
  | cons e rest ih =>
    rw [List.foldlM_cons] at h
    obtain ⟨i1, hi1, h1⟩ := bind_ok h
    rw [ih h1, addProperty_has hi1, List.any_cons, Bool.or_assoc]

theorem addDefinitions_has (h : i.addDefinitions none es = .ok i') :
    i'.has p = (i.has p || es.any (propertiesAsk p ·.2)) := by
  induction es generalizing i with
  | nil =>
    cases h
    simp
  | cons e rest ih =>
    obtain ⟨properties, hprops, h1⟩ := bind_ok h
    obtain ⟨i1, hi1, h2⟩ := bind_ok h1
    rw [ih h2, foldlM_addProperty_has hi1, List.any_cons, Bool.or_assoc, propertiesAsk, entriesOf_eq hprops]

theorem imports_has (h : exec (imports none none schema) s = (.ok i, s')) : i.has p = isAskedFor p schema := by
  obtain ⟨properties, hprops, h1⟩ := exec_ask_ok h
  obtain ⟨i1, s1, hi1, h2⟩ := exec_bind_ok h1
  obtain ⟨definitions, hdefs, h3⟩ := exec_ask_ok h2
  have hi2 : i1.addDefinitions none definitions = .ok i := congrArg Prod.fst h3
  have hnone : Imports.has {} p = false := by cases p <;> rfl
  rw [addDefinitions_has hi2, addProperties_has hi1, hnone, Bool.false_or, isAskedFor, propertiesAsk,
    entriesOf_eq hprops, entriesOf_eq hdefs]

end Asked

/-! ## Which packages types name -/

theorem contains_append {start : String} (hstart : start ∈ ["[]", "map[string]", "*"]) (p : Package)
    (text : String) : contains (start ++ text) p.qualifier = contains text p.qualifier := by
  unfold contains
  rw [String.toList_append]
  simp only [List.mem_cons, List.not_mem_nil, or_false] at hstart
  rcases hstart with rfl | rfl | rfl <;> cases p <;>
    simp [Package.qualifier, Text.hasInfix, List.isPrefixOf]

def wordsName (p : Package) (name : Scalar) : Bool :=
  match Naming.capitalWordsOf (.scalar name) with
  | .ok words => contains words p.qualifier
  | .error _ => false

/-- Whether the type of a property names a package: by the format of a text, also in arrays, in maps and in
the last of the schemas that it is all of, or else by what the property is called. -/
def uses (p : Package) (schema : Value) (name : Scalar) : Bool :=
  if schema.isMapWith "oneOf" || schema.isMapWith "anyOf" then false
  else if schema.isMapWith "allOf" then
    match schema.part "allOf" with
    | .error _ => false
    | .ok ⟨all, _⟩ =>
      match all.last with
      | .error _ => false
      | .ok ⟨last, _⟩ => uses p last name
  else if schema.isMapWith "not" then false
  else if schema.isOfType "array" then
    match schema.part? "items" with
    | .ok (some ⟨items, _⟩) => uses p items (.str (name.text ++ "Item"))
    | _ => false
  else if schema.isOfType "object" then
    if schema.isMapWith "properties" then wordsName p name
    else
      match schema.part? "additionalProperties" with
      | .ok (some ⟨more, _⟩) => more.isMapWith "type" && uses p more (.str "value")
      | _ => false
  else (!schema.isMapWith "type" || schema.isOfType "string") &&
    schema.partHas (·.isOneOf p.typeFormats) "format"
termination_by schema.depth
decreasing_by all_goals omega

theorem contains_ofFormat (p : Package) (format : Value) :
    contains (GoType.ofFormat format).text p.qualifier = format.isOneOf p.typeFormats := by
  cases hknown : format.isOneOf ["date-time", "date", "time", "duration", "uuid", "uri", "url"] with
  | true =>
    obtain ⟨text, htext, rfl⟩ := isOneOf_iff.mp hknown
    revert text
    cases p <;> decide +kernel
  | false =>
    have hnone : ∀ texts ⊆ ["date-time", "date", "time", "duration", "uuid", "uri", "url"],
        format.isOneOf texts = false := by
      intro texts hsub
      refine Bool.eq_false_iff.mpr fun h => ?_
      obtain ⟨text, htext, rfl⟩ := isOneOf_iff.mp h
      exact absurd (isOneOf_iff.mpr ⟨text, hsub htext, rfl⟩) (Bool.eq_false_iff.mp hknown)
    have hone : ∀ text, format.isStr text = format.isOneOf [text] := fun text => by
      simp [Value.isOneOf]
    unfold GoType.ofFormat
    rw [hone, hone, hnone _ (by decide), hnone _ (by decide), hnone _ (by decide), hnone _ (by decide),
      hnone _ (by cases p <;> decide)]
    cases p <;> decide

section Uses

variable {p : Package} {schema : Value} {name : Scalar} {es : Entries}

theorem uses_of_not_isMap (h : schema.isMap = false) : uses p schema name = false := by
  cases schema with
  | map es => cases h
  | _ =>
    rw [uses]
    rfl

theorem uses_alternatives (h : (schema.isMapWith "oneOf" || schema.isMapWith "anyOf")) :
    uses p schema name = false := by
  rw [uses, if_pos h]

theorem uses_allOf {all : Below schema} {last : Within all.val}
    (hnone : (schema.isMapWith "oneOf" || schema.isMapWith "anyOf") = false)
    (hsome : schema.isMapWith "allOf") (hall : schema.part "allOf" = .ok all)
    (hlast : all.val.last = .ok last) : uses p schema name = uses p last.val name := by
  rw [uses, hnone, hsome, hall]
  simp only [Bool.false_eq_true, if_false, if_true, hlast]

/-- The schema has none of the keys that put a type together from other schemas. -/
def Uncomposed (schema : Value) : Prop :=
  ∀ key ∈ ["oneOf", "anyOf", "allOf", "not"], schema.isMapWith key = false

theorem uses_uncomposed (h : Uncomposed schema) : uses p schema name = if schema.isOfType "array" then
      match schema.part? "items" with
      | .ok (some ⟨items, _⟩) => uses p items (.str (name.text ++ "Item"))
      | _ => false else if schema.isOfType "object" then
      if schema.isMapWith "properties" then wordsName p name
      else
        match schema.part? "additionalProperties" with
        | .ok (some ⟨more, _⟩) => more.isMapWith "type" && uses p more (.str "value")
        | _ => false else (!schema.isMapWith "type" || schema.isOfType "string") &&
      schema.partHas (·.isOneOf p.typeFormats) "format" := by
  rw [uses, h "oneOf" (by decide), h "anyOf" (by decide), h "allOf" (by decide), h "not" (by decide)]
  rfl

/-- The type of a schema, which is text if there is none. -/
def typeOf (es : Entries) : Value :=
  (Entries.find? es (.str "type")).getD (.str "string")

theorem isStr_typeOf (es : Entries) :
    (typeOf es).isStr "string" = (!(Value.map es).isMapWith "type" || (Value.map es).isOfType "string") := by
  change _ = (_ || (Entries.find? es (.str "type")).any (·.isStr "string"))
  rw [isMapWith_map, typeOf]
  cases Entries.find? es (.str "type") <;> simp [Value.isStr, Scalar.isStr]

theorem isStr_typeOf_of_ne (es : Entries) (ne : type ≠ "string") :
    (typeOf es).isStr type = (Value.map es).isOfType type := by
  change _ = (Entries.find? es (.str "type")).any (·.isStr type)
  rw [typeOf]
  cases Entries.find? es (.str "type") with
  | none => simpa [Value.isStr, Scalar.isStr] using ne.symm
  | some t => rfl

theorem uses_text (h : Uncomposed (.map es)) (htext : (typeOf es).isStr "string") :
    uses p (.map es) name = ((Entries.find? es (.str "format")).getD (.str "")).isOneOf p.typeFormats := by
  have hother : ∀ type ≠ "string", (Value.map es).isOfType type = false := by
    intro type ne
    rw [← isStr_typeOf_of_ne es ne, eq_str_of_isStr htext]
    simpa [Value.isStr, Scalar.isStr] using ne.symm
  rw [uses_uncomposed h, hother "array" (by decide), hother "object" (by decide), ← isStr_typeOf, htext]
  change (true && (Entries.find? es (.str "format")).any _) = _
  cases Entries.find? es (.str "format") with
  | none => cases p <;> rfl
  | some format => rfl

theorem uses_other (h : Uncomposed (.map es))
    (hother : ∀ type ∈ ["string", "array", "object"], (typeOf es).isStr type = false) :
    uses p (.map es) name = false := by
  rw [uses_uncomposed h, ← isStr_typeOf, ← isStr_typeOf_of_ne es (by decide), ← isStr_typeOf_of_ne es (by decide),
    hother "string" (by decide), hother "array" (by decide), hother "object" (by decide)]
  rfl

end Uses

theorem returns_ofOwnRef (schema : Value) (name : Scalar) : Returns (· = none) (GoType.ofOwnRef none schema name) :=
  .of_ask fun _ _ => .of_ite (fun _ => .pure rfl) fun _ => .pure rfl

theorem contains_ofSchema (p : Package) (schema : Value) (name : Scalar) :
    Returns (fun found => contains found.1.text p.qualifier = uses p schema name)
      (GoType.ofSchema none schema name) := by
  have hany : contains GoType.any.text p.qualifier = false := by cases p <;> decide
  rw [GoType.ofSchema]
  refine .of_bind (returns_ofOwnRef schema name) fun own hown => ?_
  subst hown
  cases schema with
  | map es =>
    have hhas := fun key => has_eq_isMapWith (v := .map es) key rfl
    refine .of_known (hhas _) (.of_ite (fun hone => .pure ?_) fun hone => ?_)
    · rw [hany, uses_alternatives (by rw [hone]; rfl)]
    refine .of_known (hhas _) (.of_ite (fun hanyOf => .pure ?_) fun hanyOf => ?_)
    · rw [hany, uses_alternatives (by rw [hanyOf, Bool.or_true])]
    refine .of_known (hhas _) (.of_ite (fun hall => ?allOf) fun hall => ?_)
    case allOf =>
      refine .of_ask fun all hpart => .of_ask fun last hlast => ?_
      have := Nat.lt_of_le_of_lt last.property all.property
      rw [uses_allOf (by simp [hone, hanyOf]) hall hpart hlast]
      exact contains_ofSchema p last.val name
    refine .of_known (hhas _) (.of_ite (fun hnot => .pure ?_) fun hnot => ?_)
    · rw [hany, uses, if_neg (by simp [hone, hanyOf]), if_neg hall, if_pos hnot]
    have hplain : Uncomposed (.map es) := by
      simp [Uncomposed, hone, hanyOf, hall, hnot]
    have hsimple : ∀ type text, type ∉ ["string", "array", "object"] →
        contains text p.qualifier = false → (typeOf es).isStr type →
        contains text p.qualifier = uses p (.map es) name := by
      intro type text hother hnone htype
      rw [hnone, uses_other hplain fun other hmem => ?_]
      rw [eq_str_of_isStr htype]
      refine Bool.eq_false_iff.mpr fun hsame => hother ?_
      cases eq_str_of_isStr hsame
      exact hmem
    refine .of_known (fieldD_map es "type" _) (.of_known (fieldD_map es "format" _) ?_)
    refine .of_ite (fun htext => .pure ?_) fun htext => ?_
    · exact (contains_ofFormat p _).trans (uses_text hplain htext).symm
    refine .of_ite (fun h => .pure (hsimple "integer" "int" (by decide) (by cases p <;> decide) h)) fun _ => ?_
    refine .of_ite (fun h => .pure (hsimple "number" "float32" (by decide) (by cases p <;> decide) h)) fun _ => ?_
    refine .of_ite (fun h => .pure (hsimple "boolean" "bool" (by decide) (by cases p <;> decide) h)) fun _ => ?_
    refine .of_ite (fun harray => ?array) fun harray => .of_ite (fun hobject => ?object) fun hobject => .pure ?_
    case array =>
      have hslice : (Value.map es).isOfType "array" = true := (isStr_typeOf_of_ne es (by decide)).symm.trans harray
      refine .of_ask fun items hitems => ?_
      cases items with
      | none =>
        refine .pure ?_
        rw [uses_uncomposed hplain, hslice, hitems]
        have htexts : contains "string" p.qualifier = false := by cases p <;> decide
        exact (contains_append (by decide) p _).trans htexts
      | some items =>
        have := items.property
        refine .of_bind (contains_ofSchema p items.val _) fun item hitem => .pure ?_
        rw [uses_uncomposed hplain, hslice, hitems]
        exact (contains_append (by decide) p _).trans hitem
    case object =>
      have hnoSlice : (Value.map es).isOfType "array" = false := by
        rw [← isStr_typeOf_of_ne es (by decide)]
        exact Bool.eq_false_iff.mpr harray
      have hmapped : (Value.map es).isOfType "object" := (isStr_typeOf_of_ne es (by decide)).symm.trans hobject
      have huses : uses p (.map es) name = _ := uses_uncomposed hplain
      rw [hnoSlice, hmapped, if_neg Bool.false_ne_true, if_pos rfl] at huses
      refine .of_known (hhas _) (.of_ite (fun hprops => ?_) fun hprops => ?_)
      · refine .of_ask fun type htype => .pure ?_
        obtain ⟨words, hwords, hend⟩ := bind_ok htype
        cases hend
        rw [huses, if_pos hprops, wordsName, hwords]
        rfl
      rw [if_neg hprops] at huses
      refine .of_ask fun more hmore => ?_
      rw [hmore] at huses
      cases more with
      | none =>
        refine .pure ?_
        rw [huses]
        exact (contains_append (by decide) p _).trans hany
      | some more =>
        have := more.property
        change uses p (.map es) name = (more.val.isMapWith "type" && uses p more.val (.str "value")) at huses
        refine .of_ite (fun htyped => ?_) fun htyped => .pure ?_
        · refine .of_bind (contains_ofSchema p more.val _) fun value hvalue => .pure ?_
          rw [huses, htyped, Bool.true_and]
          exact (contains_append (by decide) p _).trans hvalue
        · rw [huses, Bool.eq_false_iff.mpr htyped, Bool.false_and]
          exact (contains_append (by decide) p _).trans hany
    · rw [hany, uses_other hplain]
      simp only [List.mem_cons, List.not_mem_nil, or_false]
      rintro type (rfl | rfl | rfl)
      · exact Bool.eq_false_iff.mpr htext
      · exact Bool.eq_false_iff.mpr harray
      · exact Bool.eq_false_iff.mpr hobject
  | _ =>
    -- what is no map has no type to ask for
    rw [uses_of_not_isMap rfl]
    refine .of_ask fun hasOneOf _ => .of_ite (fun _ => .pure hany) fun _ => ?_
    refine .of_ask fun hasAnyOf _ => .of_ite (fun _ => .pure hany) fun _ => ?_
    refine .of_ask fun hasAllOf _ => .of_ite (fun _ => .of_ask fun all hall => ?_) fun _ => ?_
    · cases isMap_of_field (field_of_part hall)
    refine .of_ask fun hasNot _ => .of_ite (fun _ => .pure hany) fun _ => ?_
    refine .of_ask fun type htype => ?_
    cases htype
termination_by schema.depth

/-! ## Fields -/

/-- Whether the field of a property names a package: by the enumeration that is declared for it, or by its
type. -/
def spells (p : Package) (title : String) (e : Scalar × Value) : Bool :=
  if e.2.isMapWith "enum" then
    match Naming.fieldName (.scalar e.1) with
    | .ok fieldName => contains (title ++ fieldName) p.qualifier
    | .error _ => false
  else uses p e.2 e.1

def Struct.names (p : Package) (st : Struct) : Bool :=
  st.fields.any fun x => contains x.typeText p.qualifier

section Fields

variable {p : Package} {yaml : Bool} {title : String} {required schema : Value} {name : Scalar}

theorem isMap_of_constraints {limits : List String}
    (h : constraints schema isRequired = .ok limits) : schema.isMap := by
  obtain ⟨type, htype, _⟩ := bind_ok h
  exact isMap_of_field? htype

theorem contains_field {x : Field} (h : FieldOf none yaml title required name schema x isRequired) :
    contains x.typeText p.qualifier = spells p title (name, schema) := by
  obtain ⟨hname, ⟨s, s', htype⟩, _, _, limits, hlimits, _⟩ := h
  have hpointer : contains x.typeText p.qualifier = contains x.type.text p.qualifier := by
    unfold Field.typeText
    split
    · exact contains_append (by decide) p _
    · rfl
  rw [hpointer, spells]
  obtain ⟨hasEnum, hhas, h1⟩ := exec_ask_ok htype
  rw [has_eq_isMapWith "enum" (isMap_of_constraints hlimits)] at hhas
  cases hhas
  split at h1
  · next henum =>
    have htype : .name (title ++ x.name) = x.type := Except.ok.inj (congrArg Prod.fst h1)
    rw [if_pos henum, hname, ← htype]
    rfl
  · next henum =>
    obtain ⟨found, s1, hfound, h2⟩ := exec_bind_ok h1
    have htype : found.1 = x.type := Except.ok.inj (congrArg Prod.fst h2)
    rw [if_neg henum, ← htype]
    exact contains_ofSchema p schema name s found s1 hfound

theorem any_of_forall₂ {α β : Type} {f : α → Bool} {g : β → Bool} {as : List α} {bs : List β}
    (h : List.Forall₂ (fun a b => g b = f a) as bs) : bs.any g = as.any f := by
  induction h with
  | nil => rfl
  | cons hab _ ih => rw [List.any_cons, List.any_cons, hab, ih]

theorem names_struct {st : Struct} {s s' : RefState} (h : exec (struct none yaml title schema) s = (.ok st, s')) :
    st.names p = (schema.entriesOf "properties").any (spells p st.title) := by
  obtain ⟨rfl, properties, required, hprops, _, hfields⟩ := exec_struct h
  rw [entriesOf_eq hprops]
  exact any_of_forall₂ (hfields.imp fun e x ⟨_, hx⟩ => contains_field hx)

end Fields

end Go

/-! ## Types inside a schema -/

namespace Nested

variable {α : Type} {visit : Value → Scalar → SeenM (Option α)} {schema : Value} {x : α}
  {seen seen' : List Scalar} {s s' : RefState}

/-- The result comes from a visit to the schema, perhaps with another title. -/
def Visited (visit : Value → Scalar → SeenM (Option α)) (schema : Value) (x : α) : Prop :=
  ∃ inner name seen seen' s s', Value.Retitled schema inner ∧
    exec ((visit inner name).run seen) s = (.ok (some x, seen'), s')

theorem visited_visitDefinition (h : exec ((visitDefinition none visit name schema).run seen) s = (.ok (some x, seen'), s')) :
    Visited visit schema x := by
  cases visitDefinition_cases h with
  | @visited target body s1 _ _ _ fresh titled reached run =>
    -- a reference that is not followed leads nowhere
    have hself : target = schema := by
      rcases reached with ⟨_, rfl, _⟩ | ⟨_, hreached⟩
      · rfl
      · cases hreached
        rfl
    subst hself
    exact ⟨body.val, name, _, seen', s1, s', retitled_withTitle titled, run⟩

theorem visited_visitProperty (h : exec ((visitProperty none visit name schema).run seen) s = (.ok (some x, seen'), s')) :
    schema.isMapWith "properties" ∧ Visited visit schema x := by
  obtain ⟨target, known, s1, htarget, hcases⟩ := visitProperty_cases h
  obtain ⟨rfl, -, -⟩ := propertyTarget_eq_ok htarget (.inl rfl)
  cases hcases with
  | visited called object fresh titled run =>
    exact ⟨object, _, _, _, seen', s1, s', retitled_of_entitled titled, run⟩

theorem visited_visitTypes {xs : List α}
    (h : exec ((visitTypes none visit schema).run seen) s = (.ok (xs, seen'), s')) (hx : x ∈ xs) :
    (∃ e ∈ schema.entriesOf "definitions", Visited visit e.2 x) ∨
      ∃ e ∈ schema.entriesOf "properties", e.2.isMapWith "properties" ∧ Visited visit e.2 x := by
  obtain ⟨definitions, properties, seen1, s1, rfl, hdefs, hprops⟩ := visitTypes_cases h
  rcases List.mem_append.mp hx with hx | hx
  · obtain ⟨e, he, _, _, _, _, hstep⟩ := hdefs.exists_step hx
    exact .inl ⟨e, he, visited_visitDefinition hstep⟩
  · obtain ⟨e, he, _, _, _, _, hstep⟩ := hprops.exists_step hx
    exact .inr ⟨e, he, visited_visitProperty hstep⟩

end Nested

namespace Go

/-! ## Files -/

def SourceFile.names (p : Package) (f : SourceFile) : Bool :=
  (structs f.declarations).any (·.names p)

section Files

variable {package : String} {r : Request} {out : SourceFile} {s s' : RefState}

theorem names_declaration {p : Package} {file : Option String} {yaml : Bool}
    {enums : List (Option Enumeration)} {st : Struct} {seen seen' : List Scalar}
    (h : exec ((declaration none file yaml schema).run seen) s = (.ok (some (.struct enums st), seen'), s')) :
    st.names p = (schema.entriesOf "properties").any (spells p st.title) := by
  obtain ⟨claimed, seen1, s1, _, hcases⟩ := declaration_cases h
  cases claimed with
  | none => cases hcases
  | some title =>
    obtain ⟨hasEnum, _, hcases⟩ := hcases
    cases hasEnum with
    | true =>
      obtain ⟨e, he⟩ := hcases
      cases he
    | false =>
      obtain ⟨enums', st', s2, s3, hst, hrun⟩ := hcases
      cases hst
      exact names_struct hrun

theorem names_visited {p : Package} {title : String} {enums : List (Option Enumeration)}
    {st : Struct} (hscope : r.scope = none)
    (h : Nested.Visited (visitNested r title) schema (some (.struct enums st))) :
    st.names p = (schema.entriesOf "properties").any (spells p st.title) := by
  obtain ⟨inner, name, seen, seen', s, s', hretitled, hrun⟩ := h
  obtain ⟨d, seen1, s1, hd, h1⟩ := run_bind_ok hrun
  cases h1
  obtain ⟨leftOut, s2, _, h2⟩ := run_lift_ok hd
  split at h2
  · cases h2
  · rw [hscope] at h2
    rw [← hretitled.entriesOf (by decide)]
    exact names_declaration h2

theorem names_of_fileOf (hscope : r.scope = none) (h : exec (fileOf package r) s = (.ok out, s')) :
    ∀ st ∈ structs out.declarations, ∃ body, IsBody r.schema body ∧
      ∀ p, st.names p = (body.entriesOf "properties").any (spells p st.title) := by
  obtain ⟨title, nested, root, seen, seen', s1, s2, s3, _, _, hnested, hroot, hds⟩ := fileOf_cases hscope h
  intro st hst
  obtain ⟨d, hd, hmatch⟩ := List.mem_filterMap.mp hst
  obtain ⟨enums, rfl⟩ : ∃ enums, d = some (.struct enums st) := by
    split at hmatch
    · cases hmatch
      exact ⟨_, rfl⟩
    · cases hmatch
  rw [hds, List.mem_append, List.mem_singleton] at hd
  rcases hd with hd | rfl
  · rcases Nested.visited_visitTypes hnested hd with ⟨e, he, hvisited⟩ | ⟨e, he, hobject, hvisited⟩
    · exact ⟨e.2, .inr (.inl ⟨e, he, rfl⟩), fun p => names_visited hscope hvisited⟩
    · exact ⟨e.2, .inr (.inr ⟨e, he, rfl, hobject⟩), fun p => names_visited hscope hvisited⟩
  · exact ⟨r.schema, .inl rfl, fun p => names_declaration hroot⟩

end Files

/-! ## When the imports are exact -/

/-- A schema of one of the simple types, that is no duration. -/
def IsSimple (v : Value) : Prop :=
  Uncomposed v ∧ (∃ type ∈ ["string", "integer", "number", "boolean"], v.isOfType type = true) ∧
    v.partHas (·.isStr "duration") "format" = false

/-- A property of a simple type, or an array of one. -/
def IsPlain (v : Value) : Prop :=
  v.isMapWith "enum" = false ∧ v.isMapWith "properties" = false ∧
    (IsSimple v ∨ (Uncomposed v ∧ v.isOfType "array" = true ∧
      ∀ items, v.field "items" = .ok items → IsSimple items))

section Plain

variable {p : Package} {v : Value} {name : Scalar} {title : String}

theorem typeOf_of_isOfType (h : (Value.map es).isOfType type) : typeOf es = .str type := by
  change (Entries.find? es (.str "type")).any (·.isStr type) = true at h
  unfold typeOf
  cases hfound : Entries.find? es (.str "type") with
  | none =>
    rw [hfound] at h
    cases h
  | some t =>
    rw [hfound] at h
    exact eq_str_of_isStr h

theorem isOfType_of_isOfType {type' : String} (h : v.isOfType type) (ne : type ≠ type') : v.isOfType type' = false := by
  cases v with
  | map es =>
    change (Entries.find? es (.str "type")).any (·.isStr type') = false
    change (Entries.find? es (.str "type")).any (·.isStr type) = true at h
    cases hfound : Entries.find? es (.str "type") with
    | none => rfl
    | some t =>
      rw [hfound] at h
      change t.isStr type' = false
      rw [eq_str_of_isStr h]
      simpa [Value.isStr, Scalar.isStr] using ne
  | _ => cases h

theorem isOneOf_typeFormats (h : format.isStr "duration" = false) :
    format.isOneOf p.typeFormats = format.isOneOf p.formats := by
  cases p with
  | time =>
    change (format.isStr "duration" || _) = _
    rw [h, Bool.false_or]
    rfl
  | _ => rfl

theorem uses_simple (h : IsSimple v) : uses p v name = asks p v := by
  obtain ⟨hplain, ⟨type, hmem, htype⟩, hduration⟩ := h
  cases v with
  | map es =>
    have hasks : asks p (.map es) = ((Value.map es).isOfType "string" &&
        (Entries.find? es (.str "format")).any (·.isOneOf p.formats)) := rfl
    have hnoDuration : (Entries.find? es (.str "format")).any (·.isStr "duration") = false := hduration
    by_cases htext : type = "string"
    · subst htext
      rw [uses_text hplain (by rw [typeOf_of_isOfType htype]; rfl), hasks, htype, Bool.true_and]
      cases hformat : Entries.find? es (.str "format") with
      | none => cases p <;> rfl
      | some format =>
        rw [hformat] at hnoDuration
        exact isOneOf_typeFormats hnoDuration
    · rw [hasks, isOfType_of_isOfType htype htext, Bool.false_and, uses_other hplain]
      have hother : ∀ type ∈ ["string", "integer", "number", "boolean"], type ≠ "string" →
          ∀ other ∈ ["string", "array", "object"], (Value.str type).isStr other = false := by decide
      rw [typeOf_of_isOfType htype]
      exact hother type hmem htext
  | _ => cases htype

theorem spells_plain (h : IsPlain v) : spells p title (name, v) = asksWithItems p v := by
  obtain ⟨noEnum, _, hcases⟩ := h
  rw [spells, noEnum, if_neg Bool.false_ne_true, asksWithItems]
  rcases hcases with hsimple | ⟨hplain, harray, hitems⟩
  · obtain ⟨_, ⟨type, hmem, htype⟩, _⟩ := id hsimple
    have hnoArray : v.isOfType "array" = false := isOfType_of_isOfType htype fun heq => by
        rw [heq] at hmem
        revert hmem
        decide
    rw [uses_simple hsimple, hnoArray, Bool.false_and, Bool.or_false]
  have hnone : asks p v = false := by
    rw [asks, isOfType_of_isOfType harray (by decide), Bool.false_and]
  rw [uses_uncomposed hplain, harray, hnone, Bool.false_or, Bool.true_and, if_pos rfl]
  cases v with
  | map es =>
    change _ = (Entries.find? es (.str "items")).any (asks p)
    have hfield := field?_map es "items"
    unfold Value.field? at hfield
    cases hpart : (Value.map es).part? "items" with
    | error fault =>
      rw [hpart] at hfield
      cases hfield
    | ok part =>
      rw [hpart] at hfield
      rw [← Except.ok.inj hfield]
      cases part with
      | none => rfl
      | some items => exact uses_simple (hitems items.val (field_of_part? hpart))
  | _ => cases harray

end Plain

/-- A schema with the title of its type, no definitions, and plain properties. -/
structure IsPlainSchema (schema : Value) : Prop where
  titled : ∃ title, schema.titleOrRoot = .ok title ∧ schema.field "title" = .ok (.str title)
  noEnum : schema.isMapWith "enum" = false
  noDefinitions : schema.entriesOf "definitions" = []
  properties : ∀ e ∈ schema.entriesOf "properties", IsPlain e.2

section Files

variable {package : String} {r : Request} {out : SourceFile} {s s' : RefState} {p : Package}

theorem names_plain (hscope : r.scope = none) (plain : IsPlainSchema r.schema)
    (h : exec (fileOf package r) s = (.ok out, s')) : out.names p = isAskedFor p r.schema := by
  obtain ⟨title, htitle, hsame⟩ := plain.titled
  obtain ⟨_, nested, root, _, _, _, _, _, _, _, hnested, _, hds⟩ := fileOf_cases hscope h
  obtain ⟨nested', root', hds', hroot⟩ := root_of_fileOf hscope htitle plain.noEnum h
  obtain ⟨rfl, hlast⟩ := List.append_inj' (hds.symm.trans hds') rfl
  cases hlast
  rw [if_pos hsame] at hroot
  obtain ⟨enums, st, s1, s2, rfl, hst⟩ := hroot
  have hnone : nested = [] := by
    refine List.eq_nil_iff_forall_not_mem.mpr fun d hd => ?_
    rcases Nested.visited_visitTypes hnested hd with ⟨e, he, _⟩ | ⟨e, he, hobject, _⟩
    · rw [plain.noDefinitions] at he
      cases he
    · rw [(plain.properties e he).2.1] at hobject
      cases hobject
  have hstructs : structs out.declarations = [st] := by
    rw [hds, hnone]
    rfl
  have hspells : (r.schema.entriesOf "properties").any (spells p st.title) = propertiesAsk p r.schema :=
    any_of_forall₂ (List.forall₂_same.mpr fun e he => spells_plain (plain.properties e he))
  rw [SourceFile.names, hstructs, List.any_cons, List.any_nil, Bool.or_false, names_struct hst, hspells,
    isAskedFor, plain.noDefinitions, List.any_nil, Bool.or_false]

/-- Where no references are followed, a file imports the packages that its schema asks for, and each of its
structs names the packages that the properties of its body spell. The two are the same for a plain schema. -/
theorem fileOf_imports (hscope : r.scope = none) (h : exec (fileOf package r) s = (.ok out, s')) (p : Package) :
    (p.path ∈ out.imports.paths ↔ isAskedFor p r.schema = true) ∧
      (∀ st ∈ structs out.declarations, ∃ body, IsBody r.schema body ∧
        st.names p = (body.entriesOf "properties").any (spells p st.title)) ∧
      (IsPlainSchema r.schema → (p.path ∈ out.imports.paths ↔ out.names p = true)) := by
  obtain ⟨title, nested, root, seen, seen', s1, s2, s3, _, himports, _⟩ := fileOf_cases hscope h
  have hasked : p.path ∈ out.imports.paths ↔ isAskedFor p r.schema = true := by
    rw [Imports.mem_paths_iff, imports_has himports]
  refine ⟨hasked, fun st hst => ?_, fun plain => ?_⟩
  · obtain ⟨body, hbody, hnames⟩ := names_of_fileOf hscope h st hst
    exact ⟨body, hbody, hnames p⟩
  · rw [hasked, names_plain hscope plain h]

end Files

def textOf (format : String) : Value :=
  .map [("type", "string"), ("format", .str format)]

def clock (properties : Entries) : Request where
  files := ⟨[], []⟩
  stamp := "now"
  schema := .map [("title", "Clock"), ("properties", .map properties)]

def plainClock : Request :=
  clock [("now", textOf "date-time"),
    ("ids", .map [("type", "array"), ("items", textOf "uuid")])]

theorem isPlainSchema_plainClock : IsPlainSchema plainClock.schema := by
  have hsimple : ∀ format ∈ ["date-time", "uuid"], IsSimple (textOf format) := by
    unfold IsSimple Uncomposed
    decide
  refine ⟨⟨"Clock", by decide +kernel, rfl⟩, rfl, rfl, ?_⟩
  intro e he
  rcases List.mem_cons.mp he with rfl | he
  · exact ⟨rfl, rfl, .inl (hsimple "date-time" (by decide))⟩
  rcases List.mem_singleton.mp he with rfl
  refine ⟨rfl, rfl, .inr ⟨?_, rfl, fun items hitems => ?_⟩⟩
  · unfold Uncomposed
    decide
  · cases hitems
    exact hsimple "uuid" (by decide)

theorem fileOf_imports_plainClock :
    IsPlainSchema plainClock.schema ∧ ∃ out, (exec (fileOf "main" plainClock) {}).1 = .ok out ∧
      ∀ p : Package, p.path ∈ out.imports.paths ↔ out.names p = true := by
  obtain ⟨out, hout⟩ : ∃ out, (exec (fileOf "main" plainClock) {}).1 = .ok out :=
    Outcome.eq_ok_of_isOk (by decide +kernel)
  have hplain := isPlainSchema_plainClock
  exact ⟨hplain, out, hout, fun p => (fileOf_imports rfl (Prod.ext hout rfl) p).2.2 hplain⟩

/-- A duration names a package that is not imported, and an enumeration asks for one that it does not name,
although there are no references. -/
theorem fileOf_imports_differ : (exec (fileOf "main" (clock [(.str "span", textOf "duration")])) {}).1.map
        (fun out => (out.imports.paths, out.names .time)) = .ok ([], true) ∧
      (exec (fileOf "main" (clock [(.str "id", .map [(.str "type", .str "string"),
          (.str "format", .str "uuid"), (.str "enum", .list [.str "x"])])])) {}).1.map
        (fun out => (out.imports.paths, out.names .uuid)) = .ok ([uuidPackage], false) := by
  decide +kernel

end Go

end Typewright
