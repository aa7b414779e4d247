import Typewright.Proofs.SchemaShape
import Typewright.Proofs.TypeReading
import Typewright.Proofs.TypeSpellings

/-!
# What type texts mean

A schema made of primitives, enumerations of texts, arrays, maps and lists of options stands for a type.
-/

namespace Typewright

open RefM Value

variable {items shape : Shape} {members : List Shape} {P : Shape → Prop} {values : List QuoteFree}

/-! ## Schemas and what they stand for -/

/-- The keywords that make one type of several. -/
inductive Combinator where
  | oneOf
  | anyOf
  | allOf
deriving DecidableEq, Repr

def Combinator.key : Combinator → String
  | .oneOf => "oneOf"
  | .anyOf => "anyOf"
  | .allOf => "allOf"

/-- What is written between the types. -/
def Combinator.operator : Combinator → Operator
  | .oneOf => .bar
  | .anyOf => .bar
  | .allOf => .amp

abbrev QuoteFree := { text : String // '\'' ∉ text.toList }

/-- What a schema without references says about a type. -/
inductive Shape where
  | primitive (p : Primitive)
  | texts (values : List QuoteFree)
  | array (items : Shape)
  | map (values : Shape)
  | options (combinator : Combinator) (first : Shape) (rest : List Shape)

namespace Shape

mutual

def meaning : Shape → Alternatives
  | .primitive p => [[.name (TypeScriptType.ofPrimitive p).text]]
  | .texts values => .unionOf (values.map fun value => [[.literal value.val]])
  | .array items => [[.array items.meaning]]
  | .map values => [[.record values.meaning]]
  | .options .allOf first rest => .intersectionOf (first.meaning :: meanings rest)
  | .options _ first rest => .unionOf (first.meaning :: meanings rest)

/-- The types that schemas of these shapes stand for. -/
def meanings : List Shape → List Alternatives
  | [] => []
  | shape :: rest => shape.meaning :: meanings rest

end

mutual

def type : Shape → TypeScriptType
  | .primitive p => .ofPrimitive p
  | .texts values => .union (values.map fun value => .literal value.val)
  | .array (.options .oneOf first rest) => .arrayOf (TypeScriptType.distinct (first.type :: types rest))
  | .array items => .array items.type
  | .map values => .record values.type
  | .options .allOf first rest => .intersection (TypeScriptType.distinct (first.type :: types rest))
  | .options _ first rest => .union (TypeScriptType.distinct (first.type :: types rest))

/-- The types that are written for schemas of these shapes. -/
def types : List Shape → List TypeScriptType
  | [] => []
  | shape :: rest => shape.type :: types rest

end

mutual

def Describes : Shape → Value → Prop
  | .primitive (.text format), v => TypeScriptType.OfType v "string" ∧ v.has "enum" = .ok false ∧
      v.fieldD "format" (.str "") = .ok format
  | .primitive .integer, v => TypeScriptType.OfType v "integer"
  | .primitive .number, v => TypeScriptType.OfType v "number"
  | .primitive .boolean, v => TypeScriptType.OfType v "boolean"
  | .texts values, v => TypeScriptType.OfType v "string" ∧
      v.field "enum" = .ok (.list (values.map fun value => .str value.val))
  | .array items, v => TypeScriptType.OfType v "array" ∧
      ∃ w, v.field "items" = .ok w ∧ Describes items w
  | .map values, v => TypeScriptType.OfType v "object" ∧ v.has "properties" = .ok false ∧
      ∃ w, v.field "additionalProperties" = .ok w ∧ w.isMapWith "type" = true ∧ Describes values w
  | .options combinator first rest, v =>
      (∀ key ∈ ["$ref", "oneOf", "anyOf", "allOf", "not"], key ≠ combinator.key → v.has key = .ok false) ∧
      ∃ w ws, v.field combinator.key = .ok (.list (w :: ws)) ∧ Describes first w ∧ DescribesAll rest ws

def DescribesAll : List Shape → List Value → Prop
  | [], [] => True
  | shape :: rest, v :: vs => Describes shape v ∧ DescribesAll rest vs
  | _, _ => False

end

mutual

def inner : Shape → List Shape
  | .array items => items :: items.inner
  | .map values => values :: values.inner
  | .options _ first rest => first :: first.inner ++ innerOf rest
  | _ => []

def innerOf : List Shape → List Shape
  | [] => []
  | shape :: rest => shape :: shape.inner ++ innerOf rest

end

theorem mem_innerOf {m : Shape} (h : m ∈ members) : m ∈ innerOf members := by
  induction members with
  | nil => cases h
  | cons shape rest ih =>
    rw [innerOf]
    rcases List.mem_cons.mp h with rfl | h
    · exact List.mem_append_left _ (.head _)
    · exact List.mem_append_right _ (ih h)

theorem forall_parts (shape : Shape) :
    (∀ part ∈ shape :: shape.inner, (∀ q ∈ part.inner, P q) → P part) → ∀ part ∈ shape :: shape.inner, P part := by
  have hself : ∀ s : Shape, ((∀ part ∈ s.inner, (∀ q ∈ part.inner, P q) → P part) → ∀ part ∈ s.inner, P part) →
      (∀ part ∈ s :: s.inner, (∀ q ∈ part.inner, P q) → P part) → ∀ part ∈ s :: s.inner, P part := by
    intro s hinner step
    obtain ⟨hs, hstep⟩ := List.forall_mem_cons.mp step
    exact List.forall_mem_cons.mpr ⟨hs (hinner hstep), hinner hstep⟩
  have hmore : ∀ (s : Shape) (ms : List Shape),
      ((∀ part ∈ s.inner, (∀ q ∈ part.inner, P q) → P part) → ∀ part ∈ s.inner, P part) →
      ((∀ part ∈ innerOf ms, (∀ q ∈ part.inner, P q) → P part) → ∀ part ∈ innerOf ms, P part) →
      (∀ part ∈ innerOf (s :: ms), (∀ q ∈ part.inner, P q) → P part) → ∀ part ∈ innerOf (s :: ms), P part := by
    intro s ms hs hms step
    obtain ⟨hstep, hsteps⟩ := List.forall_mem_append.mp step
    exact List.forall_mem_append.mpr ⟨hself s hs hstep, hms hsteps⟩
  exact hself shape (@Shape.rec
    (fun s => (∀ part ∈ s.inner, (∀ q ∈ part.inner, P q) → P part) → ∀ part ∈ s.inner, P part)
    (fun ms => (∀ part ∈ innerOf ms, (∀ q ∈ part.inner, P q) → P part) → ∀ part ∈ innerOf ms, P part)
    (fun _ _ => nofun) (fun _ _ => nofun) hself hself (fun _ => hmore) (fun _ => nofun) hmore shape)

theorem induction (step : ∀ shape, (∀ part ∈ shape.inner, P part) → P shape) (shape : Shape) : P shape :=
  forall_parts shape (fun part _ => step part) shape (.head _)

theorem meanings_eq_map (members : List Shape) : meanings members = members.map meaning := by
  induction members with
  | nil => rfl
  | cons shape rest ih => rw [meanings, ih, List.map_cons]

theorem types_eq_map (members : List Shape) : types members = members.map type := by
  induction members with
  | nil => rfl
  | cons shape rest ih => rw [types, ih, List.map_cons]

/-- Whether the shape is one of several, exactly one of which is meant. -/
def isOneOf : Shape → Bool
  | .options .oneOf _ _ => true
  | _ => false

theorem has_oneOf_of_describes {v : Value} (h : shape.Describes v) : v.has "oneOf" = .ok shape.isOneOf := by
  cases shape with
  | primitive p =>
    cases p with
    | text => exact h.1.lacks _ (by decide)
    | integer | number | boolean => exact TypeScriptType.OfType.lacks h _ (by decide)
  | texts | array | map => exact h.1.lacks _ (by decide)
  | options combinator first rest =>
    obtain ⟨hlacks, w, ws, hfield, _⟩ := h
    cases combinator with
    | oneOf => exact has_of_field hfield
    | anyOf | allOf => exact hlacks "oneOf" (by decide) (by decide)

theorem type_array (h : items.isOneOf = false) : (Shape.array items).type = .array items.type := by
  cases items with
  | options combinator first rest =>
    cases combinator with
    | oneOf => cases h
    | anyOf | allOf => rfl
  | _ => rfl

end Shape

namespace TypeScriptType

variable {v : Value} {scope : TypeScriptScope}

theorem OfType.exists_format {type : String} (h : OfType v type) :
    ∃ format, v.fieldD "format" (.str "") = .ok format := by
  obtain ⟨found, hfound, _⟩ := bind_ok h.type
  obtain ⟨format, hformat⟩ := Value.field?_of_isMap "format" (isMap_of_field? hfound)
  exact ⟨format.getD (.str ""), by rw [Value.fieldD, hformat]; rfl⟩

theorem ofOptions_of_describes {group : Value} {within : List (Within group)}
    (ih : ∀ m ∈ members, ∀ {v : Value}, m.Describes v → ∀ name, ofSchema scope v name = pure m.type)
    (h : Shape.DescribesAll members (within.map Subtype.val)) (name : Scalar) (suffix : String) (i : Nat) :
    ofOptions (fun option => ofSchema scope option.val) name suffix i within = pure (Shape.types members) := by
  induction members generalizing within i with
  | nil =>
    cases within with
    | nil => rfl
    | cons option rest => cases h
  | cons m members ihm =>
    cases within with
    | nil => cases h
    | cons option rest =>
      obtain ⟨hm, hmembers⟩ := List.forall_mem_cons.mp ih
      rw [ofOptions, hm h.1, pure_bind, ihm hmembers h.2, pure_bind]
      rfl

theorem ofOptions_of_list {key : String} {ws : List Value}
    (ih : ∀ m ∈ members, ∀ {v : Value}, m.Describes v → ∀ name, ofSchema scope v name = pure m.type)
    (h : Shape.DescribesAll members ws) (hfield : v.field key = .ok (.list ws)) (name : Scalar)
    (suffix : String) (wrap : List TypeScriptType → TypeScriptType) :
    (do
      let group ← liftM (v.part key)
      let within ← liftM group.val.itemsWithin
      return wrap (← ofOptions (fun option => ofSchema scope option.val) name suffix 0 within)) =
        (pure (wrap (Shape.types members)) : RefM TypeScriptType) := by
  obtain ⟨group, hgroup, hval⟩ := bind_ok hfield
  rw [hgroup, lift_ok_bind]
  obtain ⟨group, hbelow⟩ := group
  cases hval
  cases hwithin : (Value.list ws).itemsWithin with
  | error e => cases hwithin
  | ok within =>
    have hval : ws = within.map Subtype.val := Except.ok.inj (items_of_itemsWithin hwithin)
    rw [hval] at h
    rw [lift_ok_bind, ofOptions_of_describes ih h, pure_bind]

theorem ofEnum_of_texts (h : v.field "enum" = .ok (.list (values.map fun value => .str value.val))) :
    ofEnum v = .ok (some (.union (values.map fun value => .literal value.val))) := by
  have htexts : (values.map fun value => Value.str value.val).all Value.isText = true := by simp [Value.isText]
  rw [ofEnum, has_of_field h, fieldD_of_field h]
  change (if (values.map fun value => Value.str value.val).all Value.isText = true then _ else _) = _
  rw [if_pos htexts, List.map_map]
  rfl

theorem ofSchema_of_describes (h : shape.Describes v) (scope : TypeScriptScope) (name : Scalar) :
    ofSchema scope v name = pure shape.type := by
  induction shape using Shape.induction generalizing v name with
  | step shape ih =>
  cases shape with
  | primitive p =>
    cases p with
    | text format =>
      obtain ⟨hof, henum, hformat⟩ := h
      rw [ofSchema, ofOwnRef_of_lacks hof.no_ref, pure_bind]
      simp [hof.lacks, hof.type, hformat, henum, lift_ok_bind, isStr_str, ofEnum, Shape.type, ofPrimitive]
    | integer | number | boolean =>
      obtain ⟨format, hformat⟩ := OfType.exists_format h
      rw [ofSchema, ofOwnRef_of_lacks (OfType.no_ref h), pure_bind]
      simp [OfType.lacks h, OfType.type h, hformat, lift_ok_bind, isStr_str, Value.isOneOf, Shape.type,
        ofPrimitive]
  | texts values =>
    obtain ⟨hof, henum⟩ := h
    obtain ⟨format, hformat⟩ := hof.exists_format
    rw [ofSchema, ofOwnRef_of_lacks hof.no_ref, pure_bind]
    simp only [hof.lacks, List.mem_cons, or_true, true_or, hof.type, hformat, lift_ok_bind, isStr_str, ofEnum_of_texts henum]
    rfl
  | array items =>
    obtain ⟨hof, w, hfield, hitems⟩ := h
    obtain ⟨format, hformat⟩ := hof.exists_format
    obtain ⟨es, rfl, found⟩ := field_eq_ok hfield
    rw [ofSchema, ofOwnRef_of_lacks hof.no_ref, pure_bind]
    simp only [hof.lacks, List.mem_cons, or_true, true_or, hof.type, hformat, part?_map found, lift_ok_bind, isStr_str,
      Shape.has_oneOf_of_describes hitems]
    cases hoptions : items.isOneOf with
    | false =>
      rw [Shape.type_array hoptions]
      have hitem := ih items (.head _) hitems
      simp [hitem, Value.isOneOf, isStr_str]
    | true =>
      cases items with
      | options combinator first rest =>
        cases combinator with
        | oneOf =>
          obtain ⟨_, w', ws, hws, hmembers⟩ := hitems
          change Shape.DescribesAll (first :: rest) (w' :: ws) at hmembers
          have hmem : ∀ m ∈ first :: rest, m ∈ (Shape.array (.options .oneOf first rest)).inner :=
            fun m hm => .tail _ (Shape.mem_innerOf hm)
          exact ofOptions_of_list (fun m hm _ hv name => ih m (hmem m hm) hv name) hmembers hws name "Item"
            (arrayOf ∘ distinct)
        | anyOf | allOf => cases hoptions
      | _ => cases hoptions
  | map values =>
    obtain ⟨hof, hprops, w, hfield, htyped, hvalues⟩ := h
    obtain ⟨format, hformat⟩ := hof.exists_format
    obtain ⟨es, rfl, found⟩ := field_eq_ok hfield
    rw [ofSchema, ofOwnRef_of_lacks hof.no_ref, pure_bind]
    simp [hof.lacks, hof.type, hformat, hprops, part?_map found, htyped, lift_ok_bind, isStr_str,
      Value.isOneOf, ih values (.head _) hvalues, Shape.type]
  | options combinator first rest =>
    obtain ⟨hlacks, w, ws, hfield, hmembers⟩ := h
    change Shape.DescribesAll (first :: rest) (w :: ws) at hmembers
    have hmem : ∀ m ∈ first :: rest, ∀ {v : Value}, m.Describes v → ∀ name, ofSchema scope v name = pure m.type :=
      fun m hm _ hv name => ih m (Shape.mem_innerOf hm) hv name
    have href : v.has "$ref" = .ok false := hlacks "$ref" (by decide) (by cases combinator <;> decide)
    cases combinator with
    | oneOf =>
      have hone : v.has "oneOf" = .ok true := has_of_field hfield
      rw [ofSchema, ofOwnRef_of_lacks href, pure_bind]
      dsimp only
      rw [hone]
      exact ofOptions_of_list hmem hmembers hfield name "Option" (union ∘ distinct)
    | anyOf =>
      have hany : v.has "anyOf" = .ok true := has_of_field hfield
      rw [ofSchema, ofOwnRef_of_lacks href, pure_bind]
      dsimp only
      rw [hlacks "oneOf" (by decide) (by decide), hany]
      exact ofOptions_of_list hmem hmembers hfield name "Option" (union ∘ distinct)
    | allOf =>
      have hall : v.has "allOf" = .ok true := has_of_field hfield
      rw [ofSchema, ofOwnRef_of_lacks href, pure_bind]
      dsimp only
      rw [hlacks "oneOf" (by decide) (by decide), hlacks "anyOf" (by decide) (by decide), hall]
      exact ofOptions_of_list hmem hmembers hfield name "Option" (intersection ∘ distinct)

/-! ## How shapes are written -/

theorem texts_eq_map (types : List TypeScriptType) : texts types = types.map text := by
  induction types with
  | nil => rfl
  | cons type rest ih => rw [texts, ih, List.map_cons]

theorem map_text_distinct (types : List TypeScriptType) : (distinct types).map text = (types.map text).eraseDups := by
  suffices hkept : ∀ kept : List TypeScriptType,
      (types.foldl (fun kept t => if kept.any (·.text == t.text) then kept else kept ++ [t]) kept).map text =
        kept.map text ++ (types.map text).eraseDups.filter (!(kept.map text).contains ·) by
    rw [distinct, hkept []]
    simp
  induction types with
  | nil => simp
  | cons type rest ih =>
    intro kept
    have hany : kept.any (·.text == type.text) = (kept.map text).contains type.text := by
      rw [Bool.eq_iff_iff]
      simp
    rw [List.foldl_cons, ih, List.map_cons, eraseDups_cons_filter, List.filter_cons, List.filter_filter, hany]
    cases hold : (kept.map text).contains type.text with
    | true =>
      have hdrop : ∀ t ∈ (rest.map text).eraseDups,
          (!(kept.map text).contains t) = ((!(kept.map text).contains t) && !t == type.text) := by
        intro t _
        by_cases heq : t = type.text
        · rw [heq, hold]
          rfl
        · simp [heq]
      rw [if_pos rfl, if_neg (by simp), List.filter_congr hdrop]
    | false =>
      have hdrop : ∀ t ∈ (rest.map text).eraseDups,
          (!((kept ++ [type]).map text).contains t) = ((!(kept.map text).contains t) && !t == type.text) := by
        intro t _
        rw [List.map_append, List.contains_eq_any_beq, List.any_append, ← List.contains_eq_any_beq, Bool.not_or]
        simp
      rw [if_neg (by simp), if_pos (by simp), List.filter_congr hdrop, List.map_append, List.append_assoc]
      rfl

end TypeScriptType

namespace Shape

theorem text_array (items : Shape) : (array items).type.text =
    if items.isOneOf then "(" ++ items.type.text ++ ")[]" else items.type.text ++ "[]" := by
  cases hone : items.isOneOf with
  | false =>
    rw [type_array hone]
    rfl
  | true =>
    cases items with
    | options combinator first rest =>
      cases combinator with
      | oneOf => rfl
      | anyOf | allOf => cases hone
    | _ => cases hone

theorem text_options (combinator : Combinator) (first : Shape) (rest : List Shape) :
    (options combinator first rest).type.text =
      Text.join combinator.operator.text ((first :: rest).map (·.type.text)).eraseDups := by
  have htexts : TypeScriptType.texts (TypeScriptType.distinct (first.type :: types rest)) =
      ((first :: rest).map (·.type.text)).eraseDups := by
    rw [TypeScriptType.texts_eq_map, TypeScriptType.map_text_distinct, types_eq_map, ← List.map_cons, List.map_map]
    rfl
  cases combinator <;> exact congrArg _ htexts

/-! ## Where brackets are missing -/

def Reads (shape : Shape) : Prop :=
  TypeText.read shape.type.text = some shape.meaning

/-- The text of the shape keeps its parts together without brackets: a text stands for itself between quotes,
the brackets of an array come behind one factor or a bracketed union, and no union is in an intersection. -/
def Placed : Shape → Prop
  | .texts values => values ≠ [] ∧ ∀ value ∈ values, TypeText.isPlain value.val = true
  | .array items => items.isOneOf = true ∨ TypeText.operators items.type.text = []
  | .options .allOf first rest =>
      (∀ m ∈ rest, m.type.text = first.type.text) ∨ ∀ m ∈ first :: rest, .bar ∉ TypeText.operators m.type.text
  | _ => True

instance : DecidablePred Placed := fun shape =>
  match shape with
  | .texts values => inferInstanceAs (Decidable (values ≠ [] ∧ ∀ value ∈ values, TypeText.isPlain value.val))
  | .array items => inferInstanceAs (Decidable (items.isOneOf ∨ TypeText.operators items.type.text = []))
  | .options .allOf first rest => inferInstanceAs (Decidable
      ((∀ m ∈ rest, m.type.text = first.type.text) ∨ ∀ m ∈ first :: rest, .bar ∉ TypeText.operators m.type.text))
  | .primitive _ | .map _ | .options .oneOf _ _ | .options .anyOf _ _ => .isTrue trivial

/-- The text is made of factors and operators, and they are those of the type. -/
def Spelled (shape : Shape) : Prop :=
  ∃ c, TypeText.Spells shape.type.text c ∧ c.alternatives = shape.meaning

theorem Spelled.reads (h : shape.Spelled) : shape.Reads := by
  obtain ⟨c, hspells, hmeaning⟩ := h
  rw [Reads, TypeText.read_of_spells hspells, hmeaning]

theorem spelled_primitive (p : Primitive) : (primitive p).Spelled := by
  have hname : ∃ text, TypeScriptType.ofPrimitive p = .name text ∧ TypeText.isName text := by
    cases p with
    | text format =>
      rw [TypeScriptType.ofPrimitive, TypeScriptType.ofFormat]
      split
      · exact ⟨_, rfl, by decide +kernel⟩
      · split
        · exact ⟨_, rfl, by decide +kernel⟩
        · exact ⟨_, rfl, by decide +kernel⟩
    | integer | number | boolean => exact ⟨_, rfl, by decide +kernel⟩
  obtain ⟨text, htext, hname⟩ := hname
  refine ⟨.one (.name text), ?_, ?_⟩
  · rw [type, htext]
    exact .name hname
  · rw [meaning, htext]
    rfl

theorem text_texts (values : List QuoteFree) : (texts values).type.text =
    Text.join Operator.bar.text (values.map fun value => "'" ++ value.val ++ "'") := by
  change Text.join " | " (TypeScriptType.texts (values.map fun value => .literal value.val)) = _
  rw [TypeScriptType.texts_eq_map, List.map_map]
  rfl

theorem spelled_texts (h : (texts values).Placed) : (texts values).Spelled := by
  obtain ⟨hne, hplain⟩ := h
  cases values with
  | nil => exact absurd rfl hne
  | cons value rest =>
    refine ⟨_, text_texts _ ▸ TypeText.spells_joinAll .bar fun value hvalue => .literal (hplain value hvalue), ?_⟩
    rw [Chain.alternatives_joinAll_bar, meaning, List.map_cons, List.map_map, List.map_cons]
    rfl

theorem spelled_map {values : Shape} (h : values.Spelled) : (map values).Spelled := by
  obtain ⟨c, hspells, hmeaning⟩ := h
  exact ⟨_, .record hspells, by rw [meaning, ← hmeaning]; rfl⟩

theorem exists_chain_array (h : items.Spelled) : ∃ c, TypeText.Spells (array items).type.text c ∧
      (c.alternatives = (array items).meaning ↔ (array items).Placed) := by
  obtain ⟨c, hspells, hmeaning⟩ := h
  rw [text_array, meaning, ← hmeaning, Placed, TypeText.operators_of_spells hspells]
  cases hone : items.isOneOf with
  | true => exact ⟨_, .arrayOf hspells, iff_of_true rfl (.inl rfl)⟩
  | false =>
    refine ⟨_, .array hspells, (Chain.alternatives_array_iff hspells.isGroup).trans ?_⟩
    simp

/-! ### Members -/

def ChainsOf (members : List Shape) (chain : String → Chain) : Prop :=
  ∀ m ∈ members, TypeText.Spells m.type.text (chain m.type.text) ∧ (chain m.type.text).alternatives = m.meaning

theorem exists_chainsOf (h : ∀ m ∈ members, m.Spelled) : ∃ chain, ChainsOf members chain := by
  have hsome : ∀ text, ∃ c, (∃ d, TypeText.Spells text d) → TypeText.Spells text c := by
    intro text
    by_cases hspells : ∃ d, TypeText.Spells text d
    · exact hspells.imp fun _ hd _ => hd
    · exact ⟨.one (.name text), fun h => absurd h hspells⟩
  choose chain hchain using hsome
  refine ⟨chain, fun m hm => ?_⟩
  obtain ⟨c, hspells, hmeaning⟩ := h m hm
  have hread := TypeText.read_of_spells (hchain m.type.text ⟨c, hspells⟩)
  rw [TypeText.read_of_spells hspells, Option.some_inj] at hread
  exact ⟨hchain _ ⟨c, hspells⟩, hread.symm.trans hmeaning⟩

def otherTexts (first : Shape) (rest : List Shape) : List String :=
  (rest.map (·.type.text)).eraseDups.filter (! · == first.type.text)

theorem eraseDups_texts (first : Shape) (rest : List Shape) :
    ((first :: rest).map (·.type.text)).eraseDups = first.type.text :: otherTexts first rest :=
  eraseDups_cons_filter _ _

theorem otherTexts_eq_nil_iff {first : Shape} {rest : List Shape} :
    otherTexts first rest = [] ↔ ∀ m ∈ rest, m.type.text = first.type.text := by
  simp [otherTexts, List.filter_eq_nil_iff]

section Members

variable {first : Shape} {rest : List Shape} {chain : String → Chain}

theorem ChainsOf.forall_texts (h : ChainsOf (first :: rest) chain) :
    ∀ text ∈ first.type.text :: otherTexts first rest, TypeText.Spells text (chain text) := by
  intro text htext
  rw [← eraseDups_texts, List.mem_eraseDups, List.mem_map] at htext
  obtain ⟨m, hm, rfl⟩ := htext
  exact (h m hm).1

theorem ChainsOf.spells (h : ChainsOf (first :: rest) chain) (combinator : Combinator) :
    TypeText.Spells (options combinator first rest).type.text
      (.joinAll combinator.operator (chain first.type.text) ((otherTexts first rest).map chain)) := by
  rw [text_options, eraseDups_texts, ← List.map_id (first.type.text :: _)]
  exact TypeText.spells_joinAll combinator.operator h.forall_texts

theorem ChainsOf.map_alternatives (h : ChainsOf (first :: rest) chain) :
    first.meaning :: meanings rest = ((first :: rest).map (·.type.text)).map fun text => (chain text).alternatives := by
  rw [meanings_eq_map, ← List.map_cons, List.map_map]
  exact List.map_congr_left fun m hm => (h m hm).2.symm

theorem spelled_union (h : ∀ m ∈ first :: rest, m.Spelled) {combinator : Combinator}
    (hbar : combinator.operator = .bar) : (options combinator first rest).Spelled := by
  obtain ⟨chain, hchain⟩ := exists_chainsOf h
  have hspells := hchain.spells combinator
  rw [hbar] at hspells
  refine ⟨_, hspells, ?_⟩
  have hmeaning : (options combinator first rest).meaning = .unionOf (first.meaning :: meanings rest) := by
    cases combinator with
    | oneOf | anyOf => rfl
    | allOf => cases hbar
  rw [hmeaning, hchain.map_alternatives, ← Alternatives.unionOf_eraseDups, eraseDups_texts,
    Chain.alternatives_joinAll_bar, ← List.map_cons, List.map_map]
  rfl

theorem ChainsOf.intersectionOf (h : ChainsOf (first :: rest) chain) :
    .intersectionOf ((chain first.type.text :: (otherTexts first rest).map chain).map Chain.alternatives) =
      (options .allOf first rest).meaning := by
  rw [meaning, h.map_alternatives, ← Alternatives.intersectionOf_eraseDups, eraseDups_texts, ← List.map_cons,
    List.map_map]
  rfl

theorem ChainsOf.isGroup (h : ChainsOf (first :: rest) chain) :
    ∀ d ∈ chain first.type.text :: (otherTexts first rest).map chain, ∀ f ∈ d.factors, f.isGroup = false := by
  rw [← List.map_cons, List.forall_mem_map]
  exact fun text htext => (h.forall_texts text htext).isGroup

theorem spelled_intersection (h : ∀ m ∈ first :: rest, m.Spelled) (hplaced : (options .allOf first rest).Placed) :
    (options .allOf first rest).Spelled := by
  obtain ⟨chain, hchain⟩ := exists_chainsOf h
  refine ⟨_, hchain.spells .allOf, (Chain.alternatives_joinAll_amp hchain.isGroup ?_).trans hchain.intersectionOf⟩
  rcases hplaced with hsame | hbar
  · rw [List.map_eq_nil_iff]
    exact .inl (otherTexts_eq_nil_iff.mpr hsame)
  right
  rw [← List.map_cons, List.forall_mem_map, ← eraseDups_texts]
  intro text htext
  obtain ⟨m, hm, rfl⟩ := List.mem_map.mp (List.mem_eraseDups.mp htext)
  rw [← TypeText.operators_of_spells (hchain m hm).1]
  exact hbar m hm

end Members

/-! ### Parts -/

theorem spelled_of_placed (h : ∀ part ∈ shape.inner, part.Spelled) (hplaced : shape.Placed) : shape.Spelled := by
  cases shape with
  | primitive p => exact spelled_primitive p
  | texts values => exact spelled_texts hplaced
  | array items =>
    obtain ⟨c, hspells, hiff⟩ := exists_chain_array (h items (.head _))
    exact ⟨c, hspells, hiff.mpr hplaced⟩
  | map values => exact spelled_map (h values (.head _))
  | options combinator first rest =>
    have hmembers : ∀ m ∈ first :: rest, m.Spelled := fun m hm => h m (mem_innerOf hm)
    cases combinator with
    | oneOf | anyOf => exact spelled_union hmembers rfl
    | allOf => exact spelled_intersection hmembers hplaced

def Bracketed (shape : Shape) : Prop :=
  ∀ part ∈ shape :: shape.inner, part.Placed

theorem Bracketed.spelled (h : shape.Bracketed) : ∀ part ∈ shape :: shape.inner, part.Spelled :=
  forall_parts shape fun part hpart hinner => spelled_of_placed hinner (h part hpart)

theorem reads_array_iff (h : items.Bracketed) : (array items).Reads ↔ (array items).Placed := by
  obtain ⟨c, hspells, hiff⟩ := exists_chain_array (h.spelled items (.head _))
  rw [Reads, TypeText.read_of_spells hspells, Option.some_inj, hiff]

end Shape

/-! ## Type texts and their types -/

namespace TypeScriptType

/-- The type of a schema is that of its shape. If no brackets are missing, its text and those of its parts are read
as what the schema and its parts stand for. An array in whose items none are missing is read so only if they are
not missing around the items either. -/
theorem text_reads_of_bracketed {shape : Shape} {schema : Value} (h : shape.Describes schema)
    (scope : TypeScriptScope) (name : Scalar) : ofSchema scope schema name = pure shape.type ∧
      (shape.Bracketed → ∀ part ∈ shape :: shape.inner, part.Reads) ∧
      ∀ items, shape = .array items → items.Bracketed → (shape.Reads ↔ shape.Placed) := by
  refine ⟨ofSchema_of_describes h scope name, fun hbracketed part hpart => ?_, ?_⟩
  · exact (hbracketed.spelled part hpart).reads
  · rintro items rfl hitems
    exact Shape.reads_array_iff hitems

def typed (type : String) (more : List (Scalar × Value)) : Value :=
  .map ((.str "type", .str type) :: more)

def ofMembers (combinator : Combinator) (members : List Value) : Value :=
  .map [(.str combinator.key, .list members)]

/-- Lists of levels and numbers, or a number with switches. -/
def readings : Value :=
  ofMembers .anyOf [
    typed "array" [("items", ofMembers .oneOf [
      typed "string" [("enum", .list [.str "low", .str "high"])], typed "number" []])],
    ofMembers .allOf [typed "integer" [], typed "object" [("additionalProperties", typed "boolean" [])]]]

def readingsShape : Shape :=
  .options .anyOf (.array (.options .oneOf (.texts [⟨"low", by decide⟩, ⟨"high", by decide⟩]) [.primitive .number]))
    [.options .allOf (.primitive .integer) [.map (.primitive .boolean)]]

theorem text_reads_of_bracketed_readings : readingsShape.Describes readings ∧ readingsShape.Bracketed ∧
      ofSchema .none readings (.str "readings") = pure readingsShape.type ∧
      readingsShape.type.text = "('low' | 'high' | number)[] | number & Record<string, boolean>" ∧
      ∀ part ∈ readingsShape :: readingsShape.inner, part.Reads := by
  have hdescribes : readingsShape.Describes readings := ⟨by decide +kernel, _, _, rfl,
      ⟨⟨by decide +kernel, rfl⟩, _, rfl, by decide +kernel, _, _, rfl, ⟨⟨by decide +kernel, rfl⟩, rfl⟩,
        ⟨by decide +kernel, rfl⟩, trivial⟩,
      ⟨by decide +kernel, _, _, rfl, ⟨by decide +kernel, rfl⟩,
        ⟨⟨by decide +kernel, rfl⟩, by decide +kernel, _, rfl, by decide +kernel, ⟨by decide +kernel, rfl⟩⟩, trivial⟩,
      trivial⟩
  have hbracketed : readingsShape.Bracketed := by
    rw [Shape.Bracketed]
    decide +kernel
  obtain ⟨htype, hreads, _⟩ := text_reads_of_bracketed hdescribes .none (.str "readings")
  exact ⟨hdescribes, hbracketed, htype, by decide +kernel, hreads hbracketed⟩

def flags : Value :=
  typed "array" [("items", typed "string" [("enum", .list [.str "alpha", .str "beta"])])]

def flagsShape : Shape :=
  .array (.texts [⟨"alpha", by decide⟩, ⟨"beta", by decide⟩])

theorem flags_not_read : flagsShape.Describes flags ∧ ofSchema .none flags (.str "flags") = pure flagsShape.type ∧
      flagsShape.type.text = "'alpha' | 'beta'[]" ∧
      TypeText.read flagsShape.type.text = some [[.literal "alpha"], [.array [[.literal "beta"]]]] ∧
      flagsShape.meaning = [[.array [[.literal "alpha"], [.literal "beta"]]]] := by
  have hdescribes : flagsShape.Describes flags := ⟨⟨by decide +kernel, rfl⟩, _, rfl, ⟨by decide +kernel, rfl⟩, rfl⟩
  exact ⟨hdescribes, ofSchema_of_describes hdescribes .none _, by decide +kernel, by decide +kernel, by decide +kernel⟩

end TypeScriptType

end Typewright
