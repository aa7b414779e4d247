import Typewright.Proofs.TwinRuns

/-!
# Formats of addresses

The two styles of classes give a property the same type, unless it is an address: a schema has in one style the
type that the schema without the formats of addresses has in the other one.
-/

namespace Typewright

namespace Value

def isAddressFormat (format : Value) : Bool :=
  format.isOneOf ["uri", "url", "email"]

/-- The entries without their format, if it is one of an address. -/
def dropAddress (es : Entries) : Entries :=
  if (Entries.find? es (.str "format")).any isAddressFormat then es.filter (!·.1.same (.str "format")) else es

/-- A schema, or what holds schemas as its members. -/
inductive Level where
  | schema | group

/-- What the part under a key is, if types depend on the formats in it. -/
def Level.below : Level → Scalar → Option Level
  | .group, _ => some .schema
  | .schema, .str key =>
    if key ∈ ["items", "additionalProperties"] then some .schema
    else if key ∈ ["oneOf", "anyOf", "allOf"] then some .group
    else none
  | .schema, _ => none

mutual

def plain : Level → Value → Value
  | .schema, .map es => .map (dropAddress (plainEntries .schema es))
  | .group, .map es => .map (plainEntries .group es)
  | .group, .list items => .list (plainItems items)
  | .group, .pair left right => .pair (left.plain .schema) (right.plain .schema)
  | _, v => v

def plainItems : List Value → List Value
  | [] => []
  | v :: rest => v.plain .schema :: plainItems rest

def plainEntries (level : Level) : List (Scalar × Value) → List (Scalar × Value)
  | [] => []
  | e :: rest => plainEntry level e :: plainEntries level rest

def plainEntry (level : Level) : Scalar × Value → Scalar × Value
  | (k, v) => (k, (level.below k).elim v (plain · v))

end

/-- What becomes of the part under a key. -/
def Level.plainAt (level : Level) (key : Scalar) (v : Value) : Value :=
  (level.below key).elim v (plain · v)

variable {name : String} {es : Entries}

/-! ## Parts of a schema -/

theorem find?_dropAddress (ne : name ≠ "format") :
    Entries.find? (dropAddress es) (.str name) = Entries.find? es (.str name) := by
  have hfilter : Entries.find? (es.filter (!·.1.same (.str "format"))) (.str name) = Entries.find? es (.str name) := by
    induction es with
    | nil => rfl
    | cons e rest ih =>
      obtain ⟨k, v⟩ := e
      rw [List.filter_cons]
      split
      · rw [Entries.find?, Entries.find?, ih]
      · next hformat =>
        have hk : k = .str "format" := Scalar.same_str_iff.mp (by simpa using hformat)
        rw [Entries.find?, Scalar.same_str_of_ne fun heq => ne (Scalar.str.inj (heq.symm.trans hk)), ih]
        rfl
  unfold dropAddress
  split
  · exact hfilter
  · rfl

theorem find?_dropAddress_format : Entries.find? (dropAddress es) (.str "format") =
      (Entries.find? es (.str "format")).filter (!·.isAddressFormat) := by
  have hfilter : Entries.find? (es.filter (!·.1.same (.str "format"))) (.str "format") = none := by
    refine Option.eq_none_iff_forall_ne_some.mpr fun v hfound => ?_
    obtain ⟨k, hsame, hmem⟩ := mem_of_find? hfound
    simp [hsame] at hmem
  unfold dropAddress
  cases hes : Entries.find? es (.str "format") with
  | none => exact hes
  | some v => cases hv : v.isAddressFormat <;> simp [Option.filter, *]

theorem find?_plainEntries {level : Level} {key : Scalar}
    (hkey : ∀ k : Scalar, k.same key → level.below k = level.below key) :
    Entries.find? (plainEntries level es) key = (Entries.find? es key).map (level.plainAt key) := by
  induction es with
  | nil => rfl
  | cons e rest ih =>
    obtain ⟨k, v⟩ := e
    rw [plainEntries, plainEntry, Entries.find?, Entries.find?]
    split
    · next hsame => rw [hkey k hsame]; rfl
    · exact ih

theorem find?_plain (es : Entries) (name : String) : Entries.find? (plainEntries .schema es) (.str name) =
      (Entries.find? es (.str name)).map (Level.schema.plainAt (.str name)) :=
  find?_plainEntries fun _ hsame => congrArg _ (Scalar.same_str_iff.mp hsame)

theorem isMapWith_plain (ne : name ≠ "format") (v : Value) : (v.plain .schema).isMapWith name = v.isMapWith name := by
  cases v with
  | map es => rw [plain, isMapWith_map, isMapWith_map, find?_dropAddress ne, find?_plain, Option.isSome_map]
  | _ => rfl

theorem has_plain (ne : name ≠ "format") (v : Value) : (v.plain .schema).has name = v.has name := by
  cases v with
  | map es => exact congrArg Except.ok (isMapWith_plain ne (.map es))
  | _ => rfl

theorem field_plain (ne : name ≠ "format") (v : Value) :
    (v.plain .schema).field name = (v.field name).map (Level.schema.plainAt (.str name)) := by
  cases v with
  | map es =>
    rw [plain, field_map, field_map, find?_dropAddress ne, find?_plain]
    cases Entries.find? es (.str name) <;> rfl
  | scalar x => cases x <;> rfl
  | _ => rfl

theorem field_same (bare : Level.schema.below (.str name) = none) (ne : name ≠ "format") (v : Value) :
    (v.plain .schema).field name = v.field name := by
  have hid : Level.schema.plainAt (.str name) = id := by
    funext w
    rw [Level.plainAt, bare]
    rfl
  rw [field_plain ne, hid, Except.map_id]
  rfl

theorem field?_plain (ne : name ≠ "format") (v : Value) :
    (v.plain .schema).field? name = (v.field? name).map (Option.map (Level.schema.plainAt (.str name))) := by
  cases v with
  | map es => rw [plain, field?_map, field?_map, find?_dropAddress ne, find?_plain]; rfl
  | _ => rfl

theorem part_plain (ne : name ≠ "format") (v : Value) :
    Outcome.Paired (fun a b => Level.schema.plainAt (.str name) a.val = b.val) (v.part name)
      ((v.plain .schema).part name) := by
  have hfields := field_plain ne v
  unfold field at hfields
  generalize v.part name = found at hfields ⊢
  generalize (v.plain .schema).part name = found' at hfields ⊢
  match found, found', hfields with
  | .error e, .error _, rfl => exact .error e
  | .ok a, .ok b, heq => exact .ok (Except.ok.inj heq).symm

theorem part?_plain (ne : name ≠ "format") (v : Value) :
    Outcome.Paired (Option.Rel fun a b => Level.schema.plainAt (.str name) a.val = b.val) (v.part? name)
      ((v.plain .schema).part? name) := by
  have hfields := field?_plain ne v
  unfold field? at hfields
  generalize v.part? name = found at hfields ⊢
  generalize (v.plain .schema).part? name = found' at hfields ⊢
  match found, found', hfields with
  | .error e, .error _, rfl => exact .error e
  | .ok none, .ok none, _ => exact .ok .none
  | .ok (some a), .ok (some b), heq => exact .ok (.some (Option.some.inj (Except.ok.inj heq)).symm)

/-! ## Members of a group -/

theorem items_plain (v : Value) : (v.plain .group).items = v.items.map (List.map (plain .schema)) := by
  have hscalars : ∀ {α : Type} (f : α → Scalar) (xs : List α),
      (xs.map fun x => scalar (f x)) = (xs.map fun x => scalar (f x)).map (plain .schema) := by
    intro α f xs
    rw [List.map_map]
    rfl
  cases v with
  | list vs =>
    refine congrArg Except.ok ?_
    induction vs with
    | nil => rfl
    | cons v rest ih => rw [plainItems, List.map_cons, ih]
  | map es =>
    refine congrArg Except.ok (Eq.trans ?_ (hscalars Prod.fst es))
    induction es with
    | nil => rfl
    | cons e rest ih => rw [plainEntries, List.map_cons, List.map_cons, ih, plainEntry]
  | set xs => exact congrArg Except.ok (hscalars id xs)
  | pair left right => rfl
  | scalar x =>
    cases x with
    | str s => exact congrArg Except.ok (hscalars (fun c => .str (String.singleton c)) s.toList)
    | bytes b => exact congrArg Except.ok (hscalars (fun x => .int x.toNat) b)
    | _ => rfl

theorem itemsWithin_plain (v : Value) :
    Outcome.Paired (List.Forall₂ fun a b => a.val.plain .schema = b.val) v.itemsWithin
      (v.plain .group).itemsWithin := by
  have hval : ∀ u : Value, (u.itemsWithin >>= fun ws => pure (ws.map Subtype.val)) = u.items := by
    intro u
    unfold itemsWithin
    split
    · next ws hws =>
      refine Eq.trans (congrArg Except.ok ?_) hws.symm
      rw [List.map_map]
      exact List.attach_map_subtype_val ws
    · next hws => exact hws.symm
  have hitems := items_plain v
  rw [← hval, ← hval] at hitems
  generalize v.itemsWithin = found at hitems ⊢
  generalize (v.plain .group).itemsWithin = found' at hitems ⊢
  cases found with
  | error e =>
    cases found' with
    | error _ =>
      cases hitems
      exact .error e
    | ok => cases hitems
  | ok as =>
    cases found' with
    | error => cases hitems
    | ok bs =>
      have hvalues : List.Forall₂ Eq ((as.map Subtype.val).map (plain .schema)) (bs.map Subtype.val) :=
        Except.ok.inj hitems ▸ List.forall₂_refl _
      exact .ok (by simpa only [List.forall₂_map_left_iff, List.forall₂_map_right_iff] using hvalues)

theorem last_plain (v : Value) :
    Outcome.Paired (fun a b => a.val.plain .schema = b.val) v.last (v.plain .group).last := by
  have hval : ∀ u : Value, (u.last >>= fun a => pure a.val) = u.itemAt List.getLast? (-1) := by
    intro u
    unfold last
    split <;> next hitem => exact hitem.symm
  refine .of_val (Q := fun a b => plain .schema a = b) ?_
  rw [hval, hval]
  have hpicked : ∀ kind, Outcome.Paired (fun a b => plain .schema a = b)
      (itemAt.pickFrom List.getLast? v kind) (itemAt.pickFrom List.getLast? (v.plain .group) kind) := by
    intro kind
    unfold itemAt.pickFrom
    rw [items_plain]
    cases v.items with
    | error e => exact .error e
    | ok vs =>
      simp only [Except.map, bind, Except.bind, List.getLast?_map]
      cases vs.getLast? with
      | none => exact .error _
      | some v => exact .ok rfl
  cases v with
  | map es =>
    rw [plain, itemAt, itemAt, find?_plainEntries fun _ _ => rfl]
    cases Entries.find? es (.int (-1)) with
    | none => exact .error _
    | some v => exact .ok rfl
  | list vs => exact hpicked .list
  | pair left right => exact hpicked .pair
  | set xs => exact .error _
  | scalar x =>
    cases x with
    | str s => exact hpicked .str
    | bytes b => exact hpicked .bytes
    | _ => exact .error _

end Value

/-! ## Types -/

namespace PythonType

open Value

variable {scope : Option RefScope} {schema : Value} {name : Scalar}

theorem ofOwnRef_plain : ofOwnRef scope (schema.plain .schema) name = ofOwnRef scope schema name := by
  unfold ofOwnRef
  rw [has_plain (by decide), field_same (by decide) (by decide)]

theorem ofItemRef_plain : ofItemRef scope (schema.plain .schema) = ofItemRef scope schema := by
  unfold ofItemRef
  rw [has_plain (by decide), field_same (by decide) (by decide)]

theorem ofEnum_plain : ofEnum (schema.plain .schema) = ofEnum schema := by
  unfold ofEnum
  rw [has_plain (by decide), field_same (by decide) (by decide)]

theorem ofFormat_of_isAddressFormat {format : Value} (h : format.isAddressFormat) :
    ofFormat .dataclass format = ofFormat .pydantic (.str "") := by
  obtain ⟨text, hmem, hstr⟩ := List.any_eq_true.mp h
  rw [eq_str_of_isStr hstr]
  simp only [List.mem_cons, List.not_mem_nil, or_false] at hmem
  rcases hmem with rfl | rfl | rfl <;> rfl

theorem ofFormat_of_not_isAddressFormat {format : Value} (h : format.isAddressFormat = false) :
    ofFormat .dataclass format = ofFormat .pydantic format := by
  simp only [isAddressFormat, isOneOf, List.any_cons, List.any_nil, Bool.or_false, Bool.or_eq_false_iff] at h
  simp [ofFormat, isOneOf, h]

theorem format_plain (schema : Value) :
    Outcome.Paired (fun format format' => ofFormat .dataclass format = ofFormat .pydantic format')
      (schema.fieldD "format" (.str "")) ((schema.plain .schema).fieldD "format" (.str "")) := by
  cases schema with
  | map es =>
    rw [plain, fieldD_map, fieldD_map, find?_dropAddress_format, find?_plain]
    refine .ok ?_
    cases Entries.find? es (.str "format") with
    | none => rfl
    | some format =>
      show ofFormat .dataclass format = ofFormat .pydantic (((some format).filter (!·.isAddressFormat)).getD (.str ""))
      cases haddress : format.isAddressFormat with
      | true =>
        rw [Option.filter_some_neg (by simp [haddress])]
        exact ofFormat_of_isAddressFormat haddress
      | false =>
        rw [Option.filter_some_pos (by simp [haddress])]
        exact ofFormat_of_not_isAddressFormat haddress
  | _ => exact .error _

theorem twin_ofOptions {v w : Value} {ofOption : Within v → Scalar → RefM PythonType}
    {ofOption' : Within w → Scalar → RefM PythonType} {os : List (Within v)} {os' : List (Within w)}
    (h : List.Forall₂ (fun a b => a.val.plain .schema = b.val) os os') (i : Nat)
    (hoption : ∀ a b name, a.val.plain .schema = b.val → RefM.Twin Eq (ofOption a name) (ofOption' b name)) :
    RefM.Twin Eq (ofOptions ofOption name i os) (ofOptions ofOption' name i os') := by
  induction h generalizing i with
  | nil => exact .self _
  | cons hab _ ih =>
    refine .of_bind (hoption _ _ _ hab) fun a _ heq => heq ▸ ?_
    exact .of_bind (ih (i + 1)) fun as _ heq => heq ▸ .self _

theorem twin_ofSchema (scope : Option RefScope) (schema : Value) (name : Scalar) :
    RefM.Twin Eq (ofSchema scope .dataclass schema name) (ofSchema scope .pydantic (schema.plain .schema) name) := by
  rw [ofSchema, ofSchema, ofOwnRef_plain]
  refine .of_shared fun found => ?_
  cases found
  case some found => exact .self _
  refine .of_same (has_plain (by decide) _).symm fun _ _ => .of_ite (fun _ => ?oneOf) fun _ =>
    .of_same (has_plain (by decide) _).symm fun _ _ => .of_ite (fun _ => ?anyOf) fun _ =>
    .of_same (has_plain (by decide) _).symm fun _ _ => .of_ite (fun _ => ?allOf) fun _ =>
    .of_same (has_plain (by decide) _).symm fun _ _ => .of_ite (fun _ => .self _) fun _ => ?_
  case oneOf | anyOf =>
    refine .of_ask (part_plain (by decide) schema) fun ⟨options, _⟩ ⟨_, _⟩ heq => ?_
    cases heq
    refine .of_ask (itemsWithin_plain options) fun _ _ hoptions => ?_
    refine .of_bind (twin_ofOptions hoptions 0 fun ⟨option, _⟩ ⟨_, _⟩ name heq => ?_) fun _ _ heq =>
      heq ▸ .self _
    cases heq
    exact twin_ofSchema scope option name
  case allOf =>
    refine .of_ask (part_plain (by decide) schema) fun ⟨all, _⟩ ⟨_, _⟩ heq => ?_
    cases heq
    refine .of_ask (last_plain all) fun ⟨last, _⟩ ⟨_, _⟩ heq => ?_
    cases heq
    exact twin_ofSchema scope last name
  have htype : schema.fieldD "type" (.str "string") = (schema.plain .schema).fieldD "type" (.str "string") := by
    unfold fieldD
    rw [field?_plain (by decide)]
    match schema.field? "type" with
    | .error _ | .ok none | .ok (some _) => rfl
  refine .of_same htype fun type _ => .of_ask (format_plain schema) fun format format' hformat =>
    .of_same ofEnum_plain.symm fun values _ => ?_
  cases values
  case some values => exact .self _
  refine .of_ite (fun _ => hformat ▸ .self _) fun _ => .of_ite (fun _ => .self _) fun _ =>
    .of_ite (fun _ => .self _) fun _ => .of_ite (fun _ => .self _) fun _ => .of_ite (fun _ => ?array) fun _ =>
    .of_ite (fun _ => ?object) fun _ => .self _
  case array =>
    refine .of_ask (part?_plain (by decide) schema) fun found found' hfound => ?_
    cases hfound with
    | none => exact .self _
    | @some items items' heq =>
      obtain ⟨items, _⟩ := items
      obtain ⟨_, _⟩ := items'
      cases heq
      dsimp only
      rw [ofItemRef_plain]
      refine .of_shared fun known => ?_
      cases known with
      | some item => exact .self _
      | none => exact .of_bind (twin_ofSchema scope items _) fun _ _ heq => heq ▸ .self _
  case object =>
    refine .of_same (has_plain (by decide) _).symm fun _ _ => .of_ite (fun _ => .self _) fun _ => ?_
    refine .of_ask (part?_plain (by decide) schema) fun found found' hfound => ?_
    cases hfound with
    | none => exact .self _
    | @some more more' heq =>
      obtain ⟨more, _⟩ := more
      obtain ⟨_, _⟩ := more'
      cases heq
      dsimp only
      rw [isMapWith_plain (by decide)]
      exact .of_ite (fun _ => .of_bind (twin_ofSchema scope more _) fun _ _ heq => heq ▸ .self _) fun _ => .self _
termination_by schema.depth
decreasing_by all_goals simp only at *; omega

/-- A schema has in the style of data classes the type that the schema without the formats of addresses has in the
other style, from any state, and the two runs end in one state. -/
theorem ofSchema_plain (scope : Option RefScope) (schema : Value) (name : Scalar) (s : RefState) :
    RefM.exec (ofSchema scope .dataclass schema name) s =
      RefM.exec (ofSchema scope .pydantic (schema.plain .schema) name) s := by
  obtain ⟨hresult, hstate⟩ := twin_ofSchema scope schema name s
  exact Prod.ext hresult.eq hstate

end PythonType

end Typewright
