import Typewright.Generate
import Typewright.Proofs.GoWithoutReferences
import Typewright.Proofs.ResolvingAgain

/-!
# Files for schemas without references

All generators ask more of a schema where references can be followed.
-/

namespace Typewright

open RefM Reference Value

variable {entries : Entries} {group owner : Value} {style : PythonStyle} {b : Bool} {more : List String}
  {text : String} {s s' : RefState} {options : List (Within group)} {r : Request}

variable {P : Prop} {strict : Bool} {scope : RefScope} {schema : Value} {name : Scalar}

/-! ## C# -/

namespace CSharpType

theorem agree_ofOwnRef (h : Fit strict schema) :
    Agree P (ofOwnRef (some scope) schema name) (ofOwnRef none schema name) := by
  obtain ⟨e, he, _⟩ := h.field_ref
  refine .of_ask fun hasRef _ => .of_else fun _ => ?_
  refine .of_same (r := .ok none) ?_ rfl
  dsimp only
  rw [exec_tryCatch, he]
  rfl

theorem agree_ofSchema (schema : Value) (name : Scalar) (h : Fit strict schema) :
    Agree P (ofSchema (some scope) schema name) (ofSchema none schema name) := by
  rw [ofSchema, ofSchema]
  refine .of_bind (agree_ofOwnRef h) fun found _ => ?_
  cases found
  case some found => infer_instance
  refine .of_ask fun hasOneOf _ => .of_else fun _ => ?_
  refine .of_ask fun hasAnyOf _ => .of_else fun _ => ?_
  refine .of_ask fun hasAllOf _ => .of_ite (fun _ => ?allOf) fun _ => ?_
  case allOf =>
    refine .of_ask fun all hall => .of_ask fun last hlast => ?_
    have := Nat.lt_of_le_of_lt last.property all.property
    exact agree_ofSchema last.val name (h.part hall |>.last hlast)
  refine .of_ask fun hasNot _ => .of_else fun _ => ?_
  refine .of_ask fun hasEnum _ => .of_else fun _ => ?_
  refine .of_ask fun type _ => .of_ask fun format _ => ?_
  refine .of_else fun _ => .of_else fun _ => ?_
  refine .of_else fun _ => .of_else fun _ => ?_
  refine .of_ite (fun _ => ?array) fun _ => .of_ite (fun _ => ?object) fun _ => inferInstance
  case array =>
    refine .of_ask fun items hitems => ?_
    cases items with
    | none => infer_instance
    | some items =>
      have := items.property
      exact .of_bind (agree_ofSchema items.val _ (h.part? hitems)) fun item _ => inferInstance
  case object =>
    refine .of_ask fun hasProperties _ => .of_else fun _ => ?_
    refine .of_ask fun more hmore => ?_
    cases more with
    | none => infer_instance
    | some more =>
      refine .of_ite (fun _ => ?_) fun _ => inferInstance
      have := more.property
      exact .of_bind (agree_ofSchema more.val _ (h.part? hmore)) fun value _ => inferInstance
termination_by schema.depth
decreasing_by all_goals omega

end CSharpType

namespace CSharp

theorem agree_fields (required : Value) (h : ∀ e ∈ entries, Fit strict e.2) :
    Agree P (fields (some scope) required entries) (fields none required entries) := by
  induction entries with
  | nil => exact .pure []
  | cons e rest ih =>
    have hfirst : Agree P (field (some scope) required e.1 e.2) (field none required e.1 e.2) := by
      refine .of_ask fun pascal _ => .of_ask fun description _ => ?_
      exact .of_bind (CSharpType.agree_ofSchema e.2 e.1 (h e (.head _))) fun type _ => inferInstance
    refine .of_bind hfirst fun first _ => ?_
    exact .of_bind (ih fun e he => h e (.tail _ he)) fun others _ => inferInstance

theorem agree_sourceFile (namespaceName : String) (hscope : r.scope = some scope) (h : Fit strict r.schema) :
    Agree P (sourceFile namespaceName r) (sourceFile namespaceName r.bare) := by
  have hdeclaration : Agree P (declaration (some scope) r.schema 1) (declaration none r.schema 1) := by
    refine .of_ask fun title _ => .of_ask fun description _ => .of_ask fun required _ => ?_
    refine .of_ask fun properties hprops => ?_
    exact .of_bind (agree_fields required fun e he => h.entry hprops he) fun fields _ => inferInstance
  unfold sourceFile
  simp only [hscope, Request.bare_schema, Request.bare_stamp, Request.bare_scope]
  infer_instance

end CSharp

/-! ## Walks over references -/

namespace Reference

variable {σ : Type} (visitor : Visitor σ)

theorem agree_ownRef {s : σ} {visit : Value → RefM σ} {other : RefM σ} (h : Fit strict schema)
    (hmap : strict → schema.isMap) (hother : Agree strict other (pure s)) :
    Agree strict (do
      if ← schema.has "$ref" then visit (← schema.field "$ref") else other) (pure s) := by
  refine .ask_left ⟨_, rfl⟩ (fun holds => ⟨_, has_eq_isMapWith _ (hmap holds)⟩) fun hasRef hhas => ?_
  split
  · next hsome =>
    refine .ask_left ⟨_, rfl⟩ (fun holds => ?_) fun ref href => ?_
    · rw [h.has_ref (hmap holds)] at hhas
      cases hhas
      cases hsome
    · obtain ⟨e, he, _⟩ := h.field_ref
      cases he.symm.trans href
  · exact hother

/-- Going over what is inside finds nothing. -/
def AgreesInside (strict : Bool) {owner : Value} (next : σ → Below owner → RefM σ) : Prop :=
  ∀ s (inner : Below owner), Value.Fit strict inner.val → (strict = true → inner.val.isMap = true) →
    Agree (strict = true) (next s inner) (pure s)

theorem agree_walkProperties {next : σ → Below owner → RefM σ}
    (hnext : AgreesInside strict next) (s : σ) {rest : List (Scalar × Below owner)}
    (hrest : ∀ e ∈ rest, Fit strict e.2.val ∧ (strict → e.2.val.isMap)) :
    Agree strict (walkProperties visitor owner next s rest) (pure s) := by
  induction rest with
  | nil => exact .pure s
  | cons e rest ih =>
    obtain ⟨k, property, hproperty⟩ := e
    unfold walkProperties
    obtain ⟨h, hmap⟩ := hrest _ (.head _)
    have hothers := ih fun e he => hrest e (.tail _ he)
    refine agree_ownRef h hmap (.after (.pure s) ?_)
    refine .ask_left ⟨_, rfl⟩ (fun holds => Value.field?_of_isMap _ (hmap holds)) fun type _ => ?_
    have hobject : Agree (strict = true) (if (type.getD .null).isStr "object" &&
        property.isMapWith "properties" then (do
          let s ← next s ⟨property, hproperty⟩
          walkProperties visitor owner next s rest)
        else (do
          let s ← pure s
          walkProperties visitor owner next s rest)) (pure s) := by
      split
      · exact .after (hnext s _ h hmap) hothers
      · exact .after (.pure s) hothers
    dsimp only
    split
    · refine .ask_left ⟨_, rfl⟩ (fun holds => Value.part?_of_isMap _ (hmap holds)) fun items hitems => ?_
      rcases items with _ | ⟨items, hbelow⟩
      · exact .after (.pure s) hobject
      have hfit : Fit strict items := h.part? hitems
      dsimp only
      rw [hfit.isMapWith_ref, if_neg Bool.false_ne_true]
      split
      · next hprops =>
        exact .after (hnext s _ hfit fun _ => isMap_of_isMapWith hprops) hobject
      · exact .after (.pure s) hobject
    · exact .after (.pure s) hobject

theorem agree_walkDefinitions (onDefinition : σ → Value → RefM σ)
    {next : σ → Below owner → RefM σ} (hnext : AgreesInside strict next) (s : σ) {rest : List (Below owner)}
    (hrest : ∀ v ∈ rest, Fit strict v.val ∧ (strict → v.val.isMap)) :
    Agree strict (walkDefinitions onDefinition owner next s rest) (pure s) := by
  induction rest with
  | nil => exact .pure s
  | cons definition rest ih =>
    unfold walkDefinitions
    obtain ⟨h, hmap⟩ := hrest _ (.head _)
    have hothers := ih fun v hv => hrest v (.tail _ hv)
    refine agree_ownRef h hmap ?_
    split
    · exact .after (hnext s _ h hmap) hothers
    · exact .after (.pure s) hothers

theorem agree_walk (s : σ) (schema : Value) (h : Fit strict schema) (hmap : strict → schema.isMap) :
    Agree strict (walk visitor s schema) (pure s) := by
  have hinside : ∀ group : Value, group.depth < schema.depth →
      AgreesInside strict (fun (s : σ) (inner : Below group) => walk visitor s inner.val) := by
    intro group hbelow s inner hfit hinnerMap
    have hdepth : inner.val.depth < schema.depth := Nat.lt_trans inner.property hbelow
    exact agree_walk s inner.val hfit hinnerMap
  rw [walk]
  refine .ask_left ⟨_, rfl⟩ (fun holds => Value.part?_of_isMap _ (hmap holds)) fun properties hprops => ?_
  rcases properties with _ | ⟨properties, hbelow⟩
  on_goal 1 => refine .after (.pure s) ?_
  on_goal 2 =>
    refine .ask_left ⟨_, rfl⟩ (fun holds => entriesBelow_of_isMap (h.isMap_group (.inl rfl) hprops holds))
      fun entries hentries => ?_
    refine .after (agree_walkProperties visitor (hinside properties hbelow) s
      (h.entriesBelow (.inl rfl) hprops hentries)) ?_
  -- the definitions come after the properties, whether there are any of these or not
  all_goals
    cases visitor.onDefinition with
    | none => exact .pure s
    | some onDefinition =>
      refine .ask_left ⟨_, rfl⟩ (fun holds => Value.part?_of_isMap _ (hmap holds)) fun group hgroup => ?_
      rcases group with _ | ⟨definitions, hinner⟩
      · exact .pure s
      refine .ask_left ⟨_, rfl⟩ (fun holds => valuesBelow_of_isMap (h.isMap_group (.inr rfl) hgroup holds))
        fun values hvalues => ?_
      exact agree_walkDefinitions _ (hinside definitions hinner) s (h.valuesBelow (.inr rfl) hgroup hvalues)
termination_by schema.depth
decreasing_by all_goals omega

end Reference

/-! ## Python -/

namespace PythonType

theorem agree_ofOwnRef (h : Fit strict schema) (hmap : strict → schema.isMap) :
    Agree strict (ofOwnRef (some scope) schema name) (ofOwnRef none schema name) := by
  obtain ⟨e, he, _⟩ := h.field_ref
  refine agree_noRef h hmap ⟨e, ?_⟩
  dsimp only
  rw [he]
  rfl

theorem agree_ofItemRef (h : Fit strict schema) (hmap : strict → schema.isMap) :
    Agree strict (ofItemRef (some scope) schema) (ofItemRef none schema) := by
  obtain ⟨e, he, _⟩ := h.field_ref
  refine agree_noRef h hmap ⟨e, ?_⟩
  dsimp only
  rw [he]
  rfl

theorem agree_ofOptions {ofOption ofOption' : Within group → Scalar → RefM PythonType}
    (hoption : ∀ (o : Within group) name, Fit strict o.val → (strict → o.val.isMap) →
      Agree strict (ofOption o name) (ofOption' o name)) (name : Scalar) (i : Nat)
    (hoptions : ∀ o ∈ options, Fit strict o.val ∧ (strict → o.val.isMap)) :
    Agree strict (ofOptions ofOption name i options) (ofOptions ofOption' name i options) := by
  induction options generalizing i with
  | nil => exact .pure []
  | cons option rest ih =>
    obtain ⟨h, hmap⟩ := hoptions _ (.head _)
    refine .of_bind (hoption option _ h hmap) fun first _ => ?_
    exact .of_bind (ih (i + 1) fun o ho => hoptions o (.tail _ ho)) fun others _ => inferInstance

theorem agree_ofSchema (style : PythonStyle) (schema : Value) (name : Scalar)
    (h : Fit strict schema) (hmap : strict → schema.isMap) :
    Agree strict (ofSchema (some scope) style schema name) (ofSchema none style schema name) := by
  rw [ofSchema, ofSchema]
  have hoption : ∀ (group : Value) (hbelow : group.depth < schema.depth) (o : Within group) (name : Scalar),
      Fit strict o.val → (strict → o.val.isMap) →
      Agree strict (ofSchema (some scope) style o.val name) (ofSchema none style o.val name) := by
    intro group hbelow o name hfit hisMap
    have hdepth : o.val.depth < schema.depth := Nat.lt_of_le_of_lt o.property hbelow
    exact agree_ofSchema style o.val name hfit hisMap
  refine .of_bind (agree_ofOwnRef h hmap) fun found _ => ?_
  cases found
  case some found => infer_instance
  refine .of_ask fun hasOneOf _ => .of_ite (fun _ => ?oneOf) fun _ => ?_
  case oneOf =>
    refine .of_ask fun group hgroup => .of_ask fun options hoptions => ?_
    exact .of_bind (agree_ofOptions (hoption group.val group.property) name 0
      (h.isMap_option (.inl rfl) hgroup hoptions)) fun _ _ => inferInstance
  refine .of_ask fun hasAnyOf _ => .of_ite (fun _ => ?anyOf) fun _ => ?_
  case anyOf =>
    refine .of_ask fun group hgroup => .of_ask fun options hoptions => ?_
    exact .of_bind (agree_ofOptions (hoption group.val group.property) name 0
      (h.isMap_option (.inr (.inl rfl)) hgroup hoptions)) fun _ _ => inferInstance
  refine .of_ask fun hasAllOf _ => .of_ite (fun _ => ?allOf) fun _ => ?_
  case allOf =>
    refine .of_ask fun all hall => .of_ask fun last hlast => ?_
    exact hoption all.val all.property last name (h.part hall |>.last hlast) (h.isMap_last hall hlast)
  refine .of_ask fun hasNot _ => .of_else fun _ => ?_
  refine .of_ask fun type _ => .of_ask fun format _ => .of_ask fun values _ => ?_
  cases values
  case some values => infer_instance
  refine .of_else fun _ => .of_else fun _ => ?_
  refine .of_else fun _ => .of_else fun _ => ?_
  refine .of_ite (fun _ => ?array) fun _ => .of_ite (fun _ => ?object) fun _ => inferInstance
  case array =>
    refine .of_ask fun items hitems => ?_
    rcases items with _ | ⟨items, hbelow⟩
    · infer_instance
    have hfit : Fit strict items := h.part? hitems
    have hisMap : strict → items.isMap := h.isMap_items hitems
    refine .of_bind (agree_ofItemRef hfit hisMap) fun item _ => ?_
    cases item with
    | some item => infer_instance
    | none => exact .of_bind (agree_ofSchema style items _ hfit hisMap) fun item _ => inferInstance
  case object =>
    refine .of_ask fun hasProperties _ => .of_else fun _ => ?_
    refine .of_ask fun more hmore => ?_
    rcases more with _ | ⟨more, hbelow⟩
    · infer_instance
    · refine .of_ite (fun htyped => ?_) fun _ => inferInstance
      exact .of_bind (agree_ofSchema style more _ (h.part? hmore) fun _ =>
        isMap_of_isMapWith htyped) fun value _ => inferInstance
termination_by schema.depth
decreasing_by all_goals omega

end PythonType

namespace Python

theorem agree_fields (style : PythonStyle) (required : Value)
    (h : ∀ e ∈ entries, Fit strict e.2 ∧ (strict → e.2.isMap)) :
    Agree strict (fields (some scope) style required entries) (fields none style required entries) := by
  induction entries with
  | nil => exact .pure []
  | cons e rest ih =>
    obtain ⟨hfit, hmap⟩ := h e (.head _)
    have hfirst : Agree strict (field (some scope) style required e.1 e.2) (field none style required e.1 e.2) :=
      .of_bind (PythonType.agree_ofSchema style e.2 e.1 hfit hmap) fun type _ => inferInstance
    refine .of_bind hfirst fun first _ => ?_
    exact .of_bind (ih fun e he => h e (.tail _ he)) fun others _ => inferInstance

theorem agree_declaration (style : PythonStyle) (h : Fit strict schema) :
    Agree strict (declaration (some scope) style schema) (declaration none style schema) := by
  refine .of_ask fun title _ => .of_ask fun description _ => .of_ask fun required _ => ?_
  refine .of_ask fun hasEnum _ => .of_else fun _ => ?_
  refine .of_ask fun properties hprops => .of_else fun _ => ?_
  refine .of_ask fun entries hentries => ?_
  have hes : schema.entriesAt "properties" = .ok entries := by
    rcases field_of_fieldD hprops with hfield | rfl
    · exact (entriesAt_of_field hfield).trans hentries
    · cases hentries
  exact .of_bind (agree_fields style required (h.entries (.inl rfl) hes)) fun fields _ => inferInstance

theorem agree_declared (style : PythonStyle) (h : Fit strict schema) :
    Agree strict (declared (some scope) style schema) (declared none style schema) :=
  .of_ask fun _ _ => .of_bind (agree_declaration style h) fun _ _ => .pure _

theorem not_relative_of_styleImports (h : styleImports style schema = .ok more) :
    ∀ line ∈ commonImports ++ more, Text.startsWith line "from ." = false := by
  obtain ⟨hasEnum, _, h1⟩ := bind_ok h
  split at h1
  · cases style <;> cases h1 <;> decide
  obtain ⟨properties, _, h2⟩ := bind_ok h1
  obtain ⟨uuid, _, h3⟩ := bind_ok h2
  cases uuid <;> cases style <;> cases h3 <;> decide

theorem importedTypes_eq_nil
    (h : styleImports style schema = .ok more) : importedTypes (commonImports ++ [] ++ more) = [] := by
  rw [List.append_nil, importedTypes, List.map_eq_nil_iff, List.filter_eq_nil_iff]
  intro line hline
  rw [not_relative_of_styleImports h line hline]
  exact Bool.false_ne_true

theorem isFileRef_fit (h : Fit strict schema) (hmap : schema.isMap) : Reference.isFileRef schema = .ok false := by
  unfold Reference.isFileRef
  rw [h.has_ref hmap]
  rfl

theorem isFileRef_eq_ok (h : Fit strict schema) (hrun : Reference.isFileRef schema = .ok b) : b = false := by
  obtain ⟨hasRef, _, h1⟩ := bind_ok hrun
  split at h1
  · cases h1
    rfl
  · obtain ⟨ref, href, _⟩ := bind_ok h1
    obtain ⟨e, he, _⟩ := h.field_ref
    cases he.symm.trans href

theorem namesFileProperty_eq_ok (h : ∀ e ∈ entries, Fit strict e.2)
    (hrun : namesFileProperty name entries = .ok b) : b = false := by
  induction entries with
  | nil =>
    cases hrun
    rfl
  | cons e rest ih =>
    obtain ⟨isFile, hisFile, h1⟩ := bind_ok hrun
    cases isFileRef_eq_ok (h e (.head _)) hisFile
    exact ih (fun e he => h e (.tail _ he)) h1

theorem namesFileProperty_fit (h : ∀ e ∈ entries, Fit strict e.2 ∧ e.2.isMap) :
    namesFileProperty name entries = .ok false := by
  induction entries with
  | nil => rfl
  | cons e rest ih =>
    obtain ⟨hfit, hmap⟩ := h e (.head _)
    unfold namesFileProperty
    rw [isFileRef_fit hfit hmap]
    exact ih fun e he => h e (.tail _ he)

theorem isLeftOut_eq_ok (hscope : r.scope = some scope)
    (h : Fit strict r.schema) (hrun : isLeftOut r [] name = .ok b) : b = false := by
  have hprops : ∀ {b : Bool}, (do namesFileProperty name (← r.schema.entriesAt "properties")) =
      .ok b → b = false := by
    intro b hb
    obtain ⟨properties, hes, hend⟩ := bind_ok hb
    exact namesFileProperty_eq_ok (fun e he => h.entry hes he) hend
  unfold isLeftOut at hrun
  rw [hscope] at hrun
  obtain ⟨definitions, hdefs, h1⟩ := bind_ok hrun
  dsimp only at h1
  split at h1
  · next definition found =>
    obtain ⟨k, _, hmem⟩ := mem_of_find? found
    obtain ⟨isFile, hisFile, h2⟩ := bind_ok h1
    cases isFileRef_eq_ok (h.entry hdefs hmem) hisFile
    exact hprops h2
  · exact hprops h1

theorem isLeftOut_fit (hscope : r.scope = some scope) (h : Fit true r.schema)
    (hmap : r.schema.isMap) : isLeftOut r [] name = .ok false := by
  obtain ⟨definitions, hdefs⟩ := h.entriesAt_eq_ok hmap (.inr rfl)
  obtain ⟨properties, hprops⟩ := h.entriesAt_eq_ok hmap (.inl rfl)
  have hrest : namesFileProperty name properties = .ok false :=
    namesFileProperty_fit fun e he => ⟨h.entry hprops he, h.isMap_entry (.inl rfl) hprops he⟩
  unfold isLeftOut
  rw [hscope, hdefs, hprops, Outcome.ok_bind]
  cases found : Entries.find? definitions name with
  | none => exact hrest
  | some definition =>
    obtain ⟨k, _, hmem⟩ := mem_of_find? found
    have hfile := isFileRef_fit (h.entry hdefs hmem) (h.isMap_entry (.inr rfl) hdefs hmem)
    dsimp only at hfile ⊢
    rw [hfile]
    exact hrest

section SourceFile

variable {r : Request} (hscope : r.scope = some scope) (h : Fit strict r.schema)
  (hmap : strict → r.schema.isMap)
include hscope h hmap

theorem agree_fileImports : Agree strict (fileImports r) (fileImports r.bare) := by
  unfold fileImports
  rw [hscope]
  cases r.file with
  | none => exact .pure []
  | some file =>
    exact .after (Reference.agree_walk _ [] r.schema h hmap) (.pure [])

theorem agree_isLeftOut (name : Scalar) :
    Agree strict (liftM (isLeftOut r [] name) : RefM Bool) (liftM (isLeftOut r.bare [] name)) := by
  refine .of_questions (fun b hb => ?_) fun holds b hb => ?_
  · rw [isLeftOut_eq_ok hscope h hb]
    rfl
  · subst holds
    cases hb
    exact isLeftOut_fit hscope h (hmap rfl)

theorem agree_visit (style : PythonStyle) (name : Scalar) (hfit : Fit strict schema) :
    AgreeSeen strict (visit style r [] schema name) (visit style r.bare [] schema name) := by
  have hleftOut := AgreeSeen.of_questions (agree_isLeftOut hscope h hmap name)
  have hdeclared : Agree strict (declared (some scope) style schema) (declared none style schema) :=
    agree_declared style hfit
  unfold visit
  rw [hscope, Request.bare_scope]
  infer_instance

theorem agree_fileOf (style : PythonStyle) : Agree strict (fileOf style r) (fileOf style r.bare) := by
  refine .of_bind (agree_fileImports hscope h hmap) fun fromFiles hfromFiles => ?_
  cases hfromFiles
  refine .of_ask fun more hmore => ?_
  dsimp only
  rw [importedTypes_eq_nil hmore, hscope, Request.bare_scope, Request.bare_schema, Request.bare_stamp]
  refine .of_bind ((Nested.agree_visitTypes (fun _ name => agree_visit hscope h hmap style name) h).run [])
    fun nested _ => ?_
  have hdeclared : Agree strict (declared (some scope) style r.schema)
      (declared none style r.schema) := agree_declared style h
  infer_instance

theorem agree_sourceFile (style : PythonStyle) : Agree strict (sourceFile style r) (sourceFile style r.bare) :=
  .of_bind (agree_fileOf hscope h hmap style) fun _ _ => .pure _

end SourceFile

end Python

/-! ## TypeScript -/

namespace TypeScriptScope

/-- The second scope is the first one where no references are resolved: without its resolver, if it has
one. -/
inductive Bare : TypeScriptScope → TypeScriptScope → Prop
  | resolver (scope : RefScope) : Bare (.resolver scope) .none
  | body (typeName : Scalar) : Bare (.body typeName) (.body typeName)
  | none : Bare .none .none

theorem bare_ofBody (typeName : Scalar) : Bare (.ofBody typeName) (.ofBody typeName) := by
  unfold ofBody
  split <;> constructor

end TypeScriptScope

namespace TypeScriptType

variable {scope scope' : TypeScriptScope}

theorem agree_ofOwnRef (hscope : scope.Bare scope') (h : Fit strict schema) (hmap : strict → schema.isMap) :
    Agree strict (ofOwnRef scope schema name) (ofOwnRef scope' schema name) := by
  cases hscope with
  | resolver scope =>
    obtain ⟨e, he, hkind⟩ := h.field_ref
    refine agree_noRef h hmap ⟨e, exec_recover_of_error ?_ hkind⟩
    rw [he]
    rfl
  | body typeName =>
    unfold ofOwnRef
    infer_instance
  | none =>
    unfold ofOwnRef
    infer_instance

theorem agree_ofOptions {ofOption ofOption' : Within group → Scalar → RefM TypeScriptType}
    (hoption : ∀ (o : Within group) name, Fit strict o.val → (strict → o.val.isMap) →
      Agree strict (ofOption o name) (ofOption' o name)) (name : Scalar) (suffix : String) (i : Nat)
    (hoptions : ∀ o ∈ options, Fit strict o.val ∧ (strict → o.val.isMap)) :
    Agree strict (ofOptions ofOption name suffix i options) (ofOptions ofOption' name suffix i options) := by
  induction options generalizing i with
  | nil => exact .pure []
  | cons option rest ih =>
    obtain ⟨h, hmap⟩ := hoptions _ (.head _)
    refine .of_bind (hoption option _ h hmap) fun first _ => ?_
    exact .of_bind (ih (i + 1) fun o ho => hoptions o (.tail _ ho)) fun others _ => inferInstance

theorem agree_ofSchema (hscope : scope.Bare scope') (schema : Value) (name : Scalar)
    (h : Fit strict schema) (hmap : strict → schema.isMap) :
    Agree strict (ofSchema scope schema name) (ofSchema scope' schema name) := by
  rw [ofSchema, ofSchema]
  have hoption : ∀ (group : Value) (hbelow : group.depth < schema.depth) (o : Within group) (name : Scalar),
      Fit strict o.val → (strict → o.val.isMap) →
      Agree strict (ofSchema scope o.val name) (ofSchema scope' o.val name) := by
    intro group hbelow o name hfit hisMap
    have hdepth : o.val.depth < schema.depth := Nat.lt_of_le_of_lt o.property hbelow
    exact agree_ofSchema hscope o.val name hfit hisMap
  refine .of_bind (agree_ofOwnRef hscope h hmap) fun found _ => ?_
  cases found
  case some found => infer_instance
  refine .of_ask fun hasOneOf _ => .of_ite (fun _ => ?oneOf) fun _ => ?_
  case oneOf =>
    refine .of_ask fun group hgroup => .of_ask fun options hoptions => ?_
    exact .of_bind (agree_ofOptions (hoption group.val group.property) name "Option" 0
      (h.isMap_option (.inl rfl) hgroup hoptions)) fun _ _ => inferInstance
  refine .of_ask fun hasAnyOf _ => .of_ite (fun _ => ?anyOf) fun _ => ?_
  case anyOf =>
    refine .of_ask fun group hgroup => .of_ask fun options hoptions => ?_
    exact .of_bind (agree_ofOptions (hoption group.val group.property) name "Option" 0
      (h.isMap_option (.inr (.inl rfl)) hgroup hoptions)) fun _ _ => inferInstance
  refine .of_ask fun hasAllOf _ => .of_ite (fun _ => ?allOf) fun _ => ?_
  case allOf =>
    refine .of_ask fun group hgroup => .of_ask fun parts hparts => ?_
    exact .of_bind (agree_ofOptions (hoption group.val group.property) name "Option" 0
      (h.isMap_option (.inr (.inr rfl)) hgroup hparts)) fun _ _ => inferInstance
  refine .of_ask fun hasNot _ => .of_else fun _ => ?_
  refine .of_ask fun type _ => .of_ask fun format _ => ?_
  dsimp only
  split
  · infer_instance
  refine .of_else fun _ => .of_else fun _ => ?_
  refine .of_else fun _ => ?_
  refine .of_ite (fun _ => ?array) fun _ => .of_ite (fun _ => ?object) fun _ => inferInstance
  case array =>
    refine .of_ask fun items hitems => ?_
    rcases items with _ | ⟨items, hbelow⟩
    · infer_instance
    have hfit : Fit strict items := h.part? hitems
    refine .of_ask fun hasOneOf _ => .of_ite (fun _ => ?_) fun _ => ?_
    · refine .of_ask fun group hgroup => .of_ask fun options hoptions => ?_
      have hinside := Nat.lt_trans group.property hbelow
      exact .of_bind (agree_ofOptions (hoption group.val hinside) name "Item" 0
        (hfit.isMap_option (.inl rfl) hgroup hoptions)) fun _ _ => inferInstance
    · exact .of_bind (agree_ofSchema hscope items _ hfit (h.isMap_items hitems)) fun item _ => inferInstance
  case object =>
    refine .of_ask fun hasProperties _ => .of_else fun _ => ?_
    refine .of_ask fun more hmore => ?_
    rcases more with _ | ⟨more, hbelow⟩
    · infer_instance
    · refine .of_ite (fun htyped => ?_) fun _ => inferInstance
      exact .of_bind (agree_ofSchema hscope more _ (h.part? hmore) fun _ =>
        isMap_of_isMapWith htyped) fun value _ => inferInstance
termination_by schema.depth
decreasing_by all_goals omega

end TypeScriptType

namespace TypeScript

theorem agree_fields {scope scope' : TypeScriptScope} (hscope : scope.Bare scope')
    (required : Value) (h : ∀ e ∈ entries, Fit strict e.2 ∧ (strict → e.2.isMap)) :
    Agree strict (fields scope required entries) (fields scope' required entries) := by
  induction entries with
  | nil => exact .pure []
  | cons e rest ih =>
    obtain ⟨hfit, hmap⟩ := h e (.head _)
    have hfirst : Agree strict (field scope required e.1 e.2) (field scope' required e.1 e.2) := by
      refine .of_ask fun description _ => .of_ask fun isRequired _ => ?_
      exact .of_bind (TypeScriptType.agree_ofSchema hscope e.2 e.1 hfit hmap) fun type _ => inferInstance
    refine .of_bind hfirst fun first _ => ?_
    exact .of_bind (ih fun e he => h e (.tail _ he)) fun others _ => inferInstance

theorem agree_declaration {scope scope' : TypeScriptScope} (hscope : scope.Bare scope') (h : Fit strict schema) :
    Agree strict (declaration scope schema) (declaration scope' schema) := by
  refine .of_ask fun title _ => .of_ask fun description _ => .of_ask fun hasEnum _ => ?_
  refine .of_else fun _ => .of_ask fun required _ => ?_
  refine .of_ask fun properties hprops => ?_
  exact .of_bind (agree_fields hscope required (h.entries (.inl rfl) hprops)) fun fields _ =>
    inferInstance

theorem agree_declared {scope scope' : TypeScriptScope} (hscope : scope.Bare scope')
    (h : Fit strict schema) : Agree strict (declared scope schema) (declared scope' schema) :=
  .of_ask fun _ _ => .of_bind (agree_declaration hscope h) fun _ _ => .pure _

theorem agree_definitionDeclarations (h : ∀ e ∈ entries, Fit strict e.2) :
    AgreeSeen strict (definitionDeclarations (some scope) entries) (definitionDeclarations none entries) := by
  induction entries with
  | nil => exact .pure []
  | cons e rest ih =>
    have hrest := ih fun e he => h e (.tail _ he)
    have hdeclared : ∀ {schema}, Fit strict schema → Agree strict
        (declared (.ofBody e.1) schema) (declared (.ofBody e.1) schema) :=
      agree_declared (TypeScriptScope.bare_ofBody e.1)
    refine .of_bind inferInstance fun seen => .of_ite (fun _ => hrest) fun _ => ?_
    refine .of_bind inferInstance fun isFile => .of_bind inferInstance fun _ => ?_
    refine .of_ite (fun _ => hrest) fun _ => .of_bind inferInstance fun stands => ?_
    refine .of_ite (fun _ => hrest) fun _ => .of_ask fun titled ht => ?_
    have hfirst := hdeclared ((h e (.head _)).retitled (retitled_withTitle ht))
    infer_instance

theorem agree_propertyDeclarations (h : ∀ e ∈ entries, Fit strict e.2) :
    AgreeSeen strict (propertyDeclarations (some scope) entries) (propertyDeclarations none entries) := by
  induction entries with
  | nil => exact .pure []
  | cons e rest ih =>
    have hrest := ih fun e he => h e (.tail _ he)
    refine .of_bind inferInstance fun isFile => .of_ite (fun _ => hrest) fun _ => ?_
    refine .of_bind (Nested.agree_visitProperty (fun schema name hfit => ?_) e.1 (h e (.head _)))
      fun first => inferInstance
    have hdeclared := agree_declared (TypeScriptScope.bare_ofBody name) hfit
    infer_instance

theorem agree_nestedDeclarations (h : Fit strict schema) :
    AgreeSeen strict (nestedDeclarations (some scope) schema) (nestedDeclarations none schema) := by
  have hprops : ∀ properties, schema.entriesAt "properties" = .ok properties →
      AgreeSeen strict (propertyDeclarations (some scope) properties)
        (propertyDeclarations none properties) := fun properties hes =>
    agree_propertyDeclarations fun e he => h.entry hes he
  have hrest : ∀ definitions : List Declared, AgreeSeen strict
      (do return definitions ++ (← propertyDeclarations (some scope) (← schema.entriesAt "properties")))
      (do return definitions ++ (← propertyDeclarations none (← schema.entriesAt "properties"))) :=
    fun definitions => .of_ask fun properties hes =>
      .of_bind (hprops properties hes) fun others => inferInstance
  refine .of_bind inferInstance fun hasDefinitions => .of_ite (fun _ => ?_) fun _ => hrest []
  refine .of_ask fun group hgroup => .of_ask fun entries hentries => ?_
  exact .of_bind (agree_definitionDeclarations fun e he =>
    (h.field hgroup).of_inside (inside_of_entries hentries he)) hrest

/-! ### Imports -/

mutual

theorem agree_refsIn (used : List String) : (v : Value) → Fit strict v →
    Agree P (refsIn (some scope) used v) (pure used)
  | .map entries, h => by
    rw [refsIn]
    have hown : addOwnRef (some scope) used entries = pure used := by
      unfold addOwnRef
      split
      · next found =>
        have hno := h.isMapWith_ref
        rw [Value.isMapWith, any_same_of_find? found] at hno
        cases hno
      · rfl
    rw [hown]
    exact .after (.pure used) (agree_refsInEntries used entries (everywhere_map_iff.mp h).2)
  | .list items, h => by
    rw [refsIn]
    exact agree_refsInItems used items (everywhere_list_iff.mp h).2
  | .scalar x, _ => by
    rw [refsIn]
    · infer_instance
    all_goals nofun
  | .set members, _ => by
    rw [refsIn]
    · infer_instance
    all_goals nofun
  | .pair left right, _ => by
    rw [refsIn]
    · infer_instance
    all_goals nofun

theorem agree_refsInItems (used : List String) : (items : List Value) →
    (∀ v ∈ items, Fit strict v) → Agree P (refsInItems (some scope) used items) (pure used)
  | [], _ => by
    rw [refsInItems]
    infer_instance
  | v :: rest, h => by
    rw [refsInItems]
    exact .after (agree_refsIn used v (h v (.head _))) (agree_refsInItems used rest fun v hv => h v (.tail _ hv))

theorem agree_refsInEntries (used : List String) : (entries : List (Scalar × Value)) →
    (∀ e ∈ entries, Fit strict e.2) → Agree P (refsInEntries (some scope) used entries) (pure used)
  | [], _ => by
    rw [refsInEntries]
    infer_instance
  | e :: rest, h => by
    rw [refsInEntries]
    exact .after (agree_refsInEntry used e (h e (.head _))) (agree_refsInEntries used rest fun e he => h e (.tail _ he))

theorem agree_refsInEntry (used : List String) : (e : Scalar × Value) →
    Fit strict e.2 → Agree P (refsInEntry (some scope) used e) (pure used)
  | (k, v), h => by
    rw [refsInEntry]
    exact agree_refsIn used v h

end

theorem agree_usedRefs (h : Fit strict schema) (hmap : strict → schema.isMap) :
    Agree strict (usedRefs (some scope) schema) (pure []) := by
  have hentries : ∀ {name}, (name = "properties" ∨ name = "definitions") → strict →
      ∃ es, schema.entriesAt name = .ok es := by
    rintro name hname rfl
    exact h.entriesAt_eq_ok (hmap rfl) hname
  refine .ask_left ⟨_, rfl⟩ (hentries (.inl rfl)) fun properties hprops => ?_
  refine .after (agree_refsInEntries [] properties fun e he => h.entry hprops he) ?_
  refine .ask_left ⟨_, rfl⟩ (fun holds => ⟨_, has_eq_isMapWith _ (hmap holds)⟩) fun hasDefinitions hhas => ?_
  split
  · infer_instance
  next hsome =>
  refine .ask_left ⟨_, rfl⟩ (fun holds => ?_) fun group hgroup => ?_
  · cases hasDefinitions with
    | false => exact absurd rfl hsome
    | true => exact field_of_has (hmap holds) hhas
  refine .ask_left ⟨_, rfl⟩ (fun holds => ?_) fun entries hes => ?_
  · obtain ⟨es, hes⟩ := hentries (.inr rfl) holds
    exact ⟨es, (entriesAt_of_field hgroup).symm.trans hes⟩
  · exact agree_refsInEntries [] entries fun e he =>
      (h.field hgroup).of_inside (inside_of_entries hes he)

theorem agree_addPropertyRefs (used : List String) (h : ∀ e ∈ entries, Fit strict e.2 ∧ (strict → e.2.isMap)) :
    Agree strict (addPropertyRefs scope used entries) (pure used) := by
  induction entries with
  | nil => exact .pure used
  | cons e rest ih =>
    obtain ⟨hfit, hmap⟩ := h e (.head _)
    have hrest := ih fun e he => h e (.tail _ he)
    refine .ask_left ⟨_, rfl⟩ (fun holds => ⟨_, has_eq_isMapWith _ (hmap holds)⟩) fun hasRef hhas => ?_
    split
    · exact hrest
    next hsome =>
    refine .ask_left ⟨_, rfl⟩ (fun holds => ?_) fun ref href => ?_
    · rw [hfit.has_ref (hmap holds)] at hhas
      cases hhas
      exact absurd rfl hsome
    · obtain ⟨fault, hfault, _⟩ := hfit.field_ref
      cases hfault.symm.trans href

theorem agree_imports (hscope : r.scope = some scope) (h : Fit strict r.schema)
    (hmap : strict → r.schema.isMap) : Agree strict (imports r) (imports r.bare) := by
  unfold imports
  rw [hscope]
  cases r.file with
  | none => exact .pure []
  | some file =>
    refine .after (agree_usedRefs h hmap) (.ask_left ⟨_, rfl⟩ ?_ fun properties hprops => ?_)
    · rintro rfl
      exact h.entriesAt_eq_ok (hmap rfl) (.inl rfl)
    · exact .after (agree_addPropertyRefs [] (h.entries (.inl rfl) hprops)) (.of_same rfl rfl)

theorem agree_fileOf (hscope : r.scope = some scope) (h : Fit strict r.schema)
    (hmap : strict → r.schema.isMap) : Agree strict (fileOf r) (fileOf r.bare) := by
  refine .of_bind (agree_imports hscope h hmap) fun imports _ => ?_
  rw [hscope]
  refine .of_bind ((agree_nestedDeclarations h).run []) fun nested _ => ?_
  exact .of_bind (agree_declared (.resolver scope) h) fun root _ => .pure _

theorem agree_sourceFile (hscope : r.scope = some scope) (h : Fit strict r.schema)
    (hmap : strict → r.schema.isMap) : Agree strict (sourceFile r) (sourceFile r.bare) :=
  .of_bind (agree_fileOf hscope h hmap) fun _ _ => .pure _

end TypeScript

/-! ## Protocol buffers -/

namespace Proto

theorem ofOwnRef_fit (h : Fit strict schema) (hmap : schema.isMap) (scope : Option RefScope) :
    ofOwnRef scope schema name = pure none := by
  unfold ofOwnRef
  rw [h.has_ref hmap]
  rfl

theorem agree_afterOwnRef {f f' : Option Value → SeenM FieldType} (h : Fit strict schema)
    (hf : ∀ type, AgreeSeen P (f type) (f' type)) :
    AgreeSeen P (do
      match ← ofOwnRef (some scope) schema name with
      | some found => return found
      | none => f (← schema.field? "type")) (do
      match ← ofOwnRef none schema name with
      | some found => return found
      | none => f' (← schema.field? "type")) := by
  cases hmap : schema.isMap with
  | true =>
    rw [ofOwnRef_fit h hmap, ofOwnRef_fit h hmap]
    exact ⟨fun seen => (AgreeSeen.of_ask fun type _ => hf type).run seen⟩
  | false =>
    have htype : ∃ e, schema.field? "type" = .error e := by
      cases schema with
      | map es => cases hmap
      | _ => exact ⟨_, rfl⟩
    obtain ⟨e, he⟩ := htype
    obtain ⟨e', he', _⟩ := h.field_ref
    unfold ofOwnRef
    rw [he, he']
    refine ⟨fun seen => ?_⟩
    cases schema.has "$ref" with
    | error fault => exact ⟨.error fault, .error fault, rfl, rfl, nofun, nofun⟩
    | ok hasRef =>
      cases hasRef with
      | false => exact ⟨.error e, .error e, rfl, rfl, nofun, nofun⟩
      | true => exact ⟨.error e', .error e, rfl, rfl, nofun, nofun⟩

theorem agree_slots {typeOf typeOf' : Below owner → Scalar → SeenM FieldType} (number : Nat)
    {entries : List (Scalar × Below owner)} (h : ∀ e ∈ entries, AgreeSeen P (typeOf e.2 e.1) (typeOf' e.2 e.1)) :
    AgreeSeen P (slots typeOf number entries) (slots typeOf' number entries) := by
  induction entries generalizing number with
  | nil => exact .pure []
  | cons e rest ih =>
    have htype := h e (.head _)
    have hrest := ih (number + 1) fun e he => h e (.tail _ he)
    unfold slots
    infer_instance

mutual

theorem agree_fieldType (schema : Value) (name : Scalar) (h : Fit strict schema) :
    AgreeSeen P (fieldType (some scope) schema name) (fieldType none schema name) := by
  rw [fieldType, fieldType]
  refine .of_ask fun hasOneOf _ => .of_ite (fun _ => ?oneOf) fun _ =>
    .of_ask fun hasAnyOf _ => .of_ite (fun _ => ?anyOf) fun _ => ?_
  case oneOf | anyOf =>
    refine .of_ask fun group hgroup => .of_else fun _ => ?_
    refine .of_ask fun option hoption => ?_
    have hdepth : option.val.depth < schema.depth := Nat.lt_of_le_of_lt option.property group.property
    exact agree_fieldType option.val name (h.part hgroup |>.first hoption)
  refine .of_ask fun hasAllOf _ => .of_ite (fun _ => ?allOf) fun _ => ?_
  case allOf =>
    refine .of_ask fun group hgroup => .of_else fun _ => ?_
    refine .of_ask fun last hlast => ?_
    have hdepth : last.val.depth < schema.depth := Nat.lt_of_le_of_lt last.property group.property
    exact agree_fieldType last.val name (h.part hgroup |>.last hlast)
  refine .of_ask fun hasNot _ => .of_else fun _ => ?_
  refine agree_afterOwnRef h fun type => ?_
  refine .of_ite (fun _ => ?array) fun _ => ?_
  case array =>
    refine .of_ask fun items hitems => ?_
    rcases items with _ | ⟨items, hbelow⟩
    · infer_instance
    have hfit : Fit strict items := h.part? hitems
    refine .of_ask fun itemType _ => .of_ite (fun _ => ?_) fun _ => ?_
    · refine .of_ask fun pascal _ => .of_ask fun inner hinner => ?_
      rcases inner with _ | ⟨inner, hinnerBelow⟩
      · infer_instance
      · exact .of_bind (agree_fieldType inner _ (hfit.part? hinner)) fun item => inferInstance
    · refine .of_ask fun itemName _ => ?_
      exact .of_bind (agree_fieldType items _ hfit) fun item => inferInstance
  refine .of_ask fun hasEnum _ => .of_else fun _ => ?_
  refine .of_ite (fun _ => ?_) fun _ => inferInstance
  refine .of_ask fun typeName _ => .of_ask fun properties _ => .of_bind inferInstance fun seen => ?_
  refine .of_else fun _ => .of_ask fun description _ => ?_
  have hmessage : AgreeSeen P (message (some scope) schema typeName) (message none schema typeName) :=
    agree_message schema typeName h
  infer_instance
termination_by 3 * schema.depth + 2

theorem agree_message (schema : Value) (typeName : String) (h : Fit strict schema) :
    AgreeSeen P (message (some scope) schema typeName) (message none schema typeName) := by
  have hown := agree_ownSlots schema h
  have hmore := agree_moreSlots schema h
  rw [message, message]
  infer_instance
termination_by 3 * schema.depth + 1

theorem agree_ownSlots (schema : Value) (h : Fit strict schema) :
    AgreeSeen P (ownSlots (some scope) schema) (ownSlots none schema) := by
  rw [ownSlots, ownSlots]
  refine .of_ask fun properties hprops => ?_
  rcases properties with _ | ⟨properties, hbelow⟩
  · infer_instance
  · refine .of_ask fun entries hentries => agree_slots 1 fun e he => ?_
    obtain ⟨name, property, hproperty⟩ := e
    exact agree_fieldType property name (h.entriesBelow (.inl rfl) hprops hentries _ he).1
termination_by 3 * schema.depth

theorem agree_moreSlots (schema : Value) (h : Fit strict schema) (number : Nat) :
    AgreeSeen P (moreSlots (some scope) schema number) (moreSlots none schema number) := by
  rw [moreSlots, moreSlots]
  refine .of_ask fun more hmore => ?_
  rcases more with _ | ⟨more, hbelow⟩
  · infer_instance
  · have hvalue : AgreeSeen P (fieldType (some scope) more (.str "value"))
        (fieldType none more (.str "value")) := agree_fieldType more (.str "value") (h.part? hmore)
    infer_instance
termination_by 3 * schema.depth

end

theorem agree_definition (name : String) (h : Fit strict schema) :
    AgreeSeen P (definition (some scope) schema name) (definition none schema name) := by
  have hmessage : AgreeSeen P (message (some scope) schema name) (message none schema name) :=
    agree_message schema name h
  unfold definition
  infer_instance

theorem agree_definitions (h : ∀ e ∈ entries, Fit strict e.2) :
    AgreeSeen P (definitions (some scope) entries) (definitions none entries) := by
  induction entries with
  | nil => exact .pure []
  | cons e rest ih =>
    have hrest := ih fun e he => h e (.tail _ he)
    refine .of_ask fun typeName _ => .of_bind inferInstance fun seen => .of_ite (fun _ => hrest) fun _ => ?_
    refine .of_bind (agree_definition typeName (h e (.head _))) fun own => ?_
    exact .of_bind hrest fun others => inferInstance

theorem agree_rootDeclaration (h : Fit strict schema) :
    AgreeSeen P (rootDeclaration (some scope) schema) (rootDeclaration none schema) := by
  have hmessage : ∀ name, AgreeSeen P (message (some scope) schema name) (message none schema name) :=
    fun name => agree_message schema name h
  unfold rootDeclaration
  infer_instance

theorem agree_declarations (h : Fit strict schema) :
    AgreeSeen P (declarations (some scope) schema) (declarations none schema) := by
  refine .of_bind (agree_rootDeclaration h) fun root => ?_
  refine .of_ask fun hasDefinitions _ => .of_else fun _ => ?_
  refine .of_ask fun definitions hdefs => ?_
  exact .of_bind (agree_definitions fun e he => h.entry hdefs he) fun others => inferInstance

/-! ### Imports -/

theorem propertyImports_fit (root : Value) (h : ∀ e ∈ entries, Fit strict e.2) :
    propertyImports true root entries = propertyImports false root entries := by
  induction entries with
  | nil => rfl
  | cons e rest ih =>
    have hrest := ih fun e he => h e (.tail _ he)
    unfold propertyImports
    cases hformat : e.2.field? "format" with
    | error fault => rfl
    | ok format =>
      rw [(h e (.head _)).has_ref (isMap_of_field? hformat), hrest]
      rfl

theorem isMap_of_propertyImports {hasScope : Bool} {root : Value}
    {imports : List String} (hrun : propertyImports hasScope root entries = .ok imports) :
    ∀ e ∈ entries, e.2.isMap := by
  induction entries generalizing imports with
  | nil => nofun
  | cons e rest ih =>
    obtain ⟨format, hformat, h1⟩ := bind_ok hrun
    obtain ⟨hasRef, _, h2⟩ := bind_ok h1
    have hrest : ∀ e ∈ rest, e.2.isMap := by
      dsimp only at h2
      repeat' split at h2
      all_goals
        obtain ⟨ref, _, h3⟩ := bind_ok h2
        obtain ⟨more, hmore, _⟩ := bind_ok h3
        exact ih hmore
    intro e' he'
    rcases List.mem_cons.mp he' with rfl | he'
    · exact isMap_of_field? hformat
    · exact hrest e' he'

theorem fileImports_fit (root : Value) (h : ∀ e ∈ entries, Fit strict e.2 ∧ e.2.isMap) :
    fileImports true root entries = fileImports false root entries := by
  induction entries with
  | nil => rfl
  | cons e rest ih =>
    obtain ⟨hfit, hmap⟩ := h e (.head _)
    unfold fileImports
    rw [hfit.has_ref hmap, ih fun e he => h e (.tail _ he)]
    rfl

theorem allImports_fit (more : List String) (h : Fit strict schema) :
    allImports true schema more = allImports false schema more := by
  have hrequired : requiredImports true schema = requiredImports false schema := by
    unfold requiredImports
    cases hprops : schema.entriesAt "properties" with
    | error fault => rfl
    | ok properties =>
      simp only [Outcome.ok_bind]
      rw [propertyImports_fit schema fun e he => h.entry hprops he]
  unfold allImports
  rw [hrequired]
  cases hsome : requiredImports false schema with
  | error fault => rfl
  | ok required =>
    -- imports were found for all properties, so that they are objects
    obtain ⟨entries, hentries, h1⟩ := bind_ok hsome
    obtain ⟨imports, himports, _⟩ := bind_ok h1
    have hmaps := isMap_of_propertyImports himports
    cases hprops : schema.fieldD "properties" .null with
    | error fault => rfl
    | ok properties =>
      simp only [Outcome.ok_bind]
      split
      · cases hes : properties.entries with
        | error fault => rfl
        | ok es =>
          have hsame : schema.entriesAt "properties" = .ok es := by
            rcases field_of_fieldD hprops with hfield | rfl
            · exact (entriesAt_of_field hfield).trans hes
            · cases hes
          cases hentries.symm.trans hsame
          simp only [Outcome.ok_bind]
          rw [fileImports_fit schema fun e he => ⟨h.entry hentries he, hmaps e he⟩]
      · rfl

theorem agree_sourceFile (package : String) (goPackage : Option String) (more : List String)
    (hscope : r.scope = some scope) (h : Fit strict r.schema) :
    Agree P (sourceFile package goPackage more r) (sourceFile package goPackage more r.bare) := by
  have hdeclarations : AgreeSeen P (declarations (some scope) r.schema) (declarations none r.schema) :=
    agree_declarations h
  unfold sourceFile fileOf
  rw [hscope, Request.bare_scope, Request.bare_schema]
  dsimp only [Option.isSome]
  rw [allImports_fit more h]
  infer_instance

end Proto

/-! ## All languages -/

namespace Generate

/-- The text that is generated where nothing is known about references yet. -/
def Yields (l : Language) (o : Options) (r : Request) (text : String) : Prop :=
  (exec (sourceFile l o r) {}).1 = .ok text

theorem isMap_of_python (h : exec (Python.sourceFile style r) s = (.ok text, s')) : r.schema.isMap := by
  obtain ⟨file, _, hfile, _⟩ := exec_bind_ok h
  obtain ⟨fromFiles, _, _, h1⟩ := exec_bind_ok hfile
  obtain ⟨more, _, h2⟩ := exec_ask_ok h1
  obtain ⟨nested, _, _, h3⟩ := exec_bind_ok h2
  obtain ⟨title, htitle, _⟩ := exec_ask_ok h3
  exact isMap_of_titleOrRoot htitle

theorem isMap_of_typescript (h : exec (TypeScript.sourceFile r) s = (.ok text, s')) : r.schema.isMap := by
  obtain ⟨file, _, hfile, _⟩ := exec_bind_ok h
  obtain ⟨imports, _, _, h1⟩ := exec_bind_ok hfile
  obtain ⟨nested, _, _, h2⟩ := exec_bind_ok h1
  obtain ⟨root, _, hroot, _⟩ := exec_bind_ok h2
  obtain ⟨title, htitle, _⟩ := exec_ask_ok hroot
  exact isMap_of_titleOrRoot htitle

/-- For a schema without references, whose properties, definitions and items are objects, what is generated
where references can be followed is also generated where they cannot. The converse holds if the
alternatives and parts of schemas are objects too, which two languages do not ask for, and in Go if the
types that are declared for properties can be named. -/
theorem sourceFile_bare {l : Language} {o : Options} {r : Request} (main : r.isMain = true)
    (placed : r.scope.isSome = true) (free : r.schema.isRefFree = true) (orderly : r.schema.isOrderly = true) :
    (∀ text, Yields l o r text → Yields l o r.bare text) ∧
      ((l = .csharp ∨ l = .proto ∨ r.schema.isComposed = true) → ∀ text,
        Yields l o r text ↔ Yields l o r.bare text ∧ (l = .go → Go.isNameable r.schema = true)) := by
  obtain ⟨scope, hscope⟩ := Option.isSome_iff_exists.mp placed
  have hfit : Fit (r.schema.isMap && r.schema.isComposed) r.schema :=
    fit_of_shapes free fun h => ⟨orderly, (Bool.and_eq_true_iff.mp h).2⟩
  have hmap : (r.schema.isMap && r.schema.isComposed) = true → r.schema.isMap = true := fun h =>
    (Bool.and_eq_true_iff.mp h).1
  cases l with
  | go =>
    have hgo : Fit r.schema.isComposed r.schema := fit_of_shapes free fun h => ⟨orderly, h⟩
    have hagree := Go.agree_sourceFile (o.package.getD "main") hscope main hgo
    refine ⟨fun _ => hagree.sound, fun composed text => ?_⟩
    have hcomposed := (composed.resolve_left nofun).resolve_left nofun
    refine ⟨fun hr => ⟨hagree.sound hr, fun _ => ?_⟩, fun hbare =>
      hagree.complete ⟨hcomposed, hbare.2 rfl⟩ hbare.1⟩
    rw [hcomposed] at hgo
    exact Go.isNameable_of_sourceFile hscope main hgo (Prod.ext hr rfl)
  | python =>
    have hagree := Python.agree_sourceFile hscope hfit hmap o.style
    refine ⟨fun _ => hagree.sound, fun composed text =>
      ⟨fun hr => ⟨hagree.sound hr, nofun⟩, fun hbare => hagree.complete ?_ hbare.1⟩⟩
    have hisMap : r.schema.isMap = true := isMap_of_python (r := r.bare) (Prod.ext hbare.1 rfl)
    rw [hisMap, (composed.resolve_left nofun).resolve_left nofun]
    rfl
  | typescript =>
    have hagree := TypeScript.agree_sourceFile hscope hfit hmap
    refine ⟨fun _ => hagree.sound, fun composed text =>
      ⟨fun hr => ⟨hagree.sound hr, nofun⟩, fun hbare => hagree.complete ?_ hbare.1⟩⟩
    have hisMap : r.schema.isMap = true := isMap_of_typescript (r := r.bare) (Prod.ext hbare.1 rfl)
    rw [hisMap, (composed.resolve_left nofun).resolve_left nofun]
    rfl
  | csharp =>
    have hagree : Agree True _ _ := CSharp.agree_sourceFile o.namespaceName hscope hfit
    exact ⟨fun _ => hagree.sound, fun _ text =>
      ⟨fun hr => ⟨hagree.sound hr, nofun⟩, fun hbare => hagree.complete trivial hbare.1⟩⟩
  | proto =>
    have hagree : Agree True _ _ := Proto.agree_sourceFile (o.package.getD "schema") o.goPackage [] hscope hfit
    exact ⟨fun _ => hagree.sound, fun _ text =>
      ⟨fun hr => ⟨hagree.sound hr, nofun⟩, fun hbare => hagree.complete trivial hbare.1⟩⟩

/-- A schema with an enumeration, an object, alternatives and a definition. -/
def tray : Request where
  files := textFiles []
  file := some "tray.json"
  stamp := "now"
  schema := .map [("title", "Tray"), ("definitions", .map
      [("Cup", .map [("properties", .map [("size", .map [("type", "integer")])])])]),
    ("properties", .map
      [("colour", .map [("type", "string"), ("enum", .list [.str "red", .str "blue"])]),
        ("handle", .map [("type", "object"), ("properties", .map [])]),
        ("load", .map [("anyOf", .list [.map [("type", "number")], .map []])])])]

theorem sourceFile_bare_tray : tray.scope.isSome = true ∧ tray.schema.isRefFree = true ∧ tray.schema.isOrderly = true ∧
      tray.schema.isComposed = true ∧ Go.isNameable tray.schema = true ∧
      ∀ l o text, Yields l o tray text ↔ Yields l o tray.bare text := by
  have hfree : tray.schema.isRefFree = true := by decide
  have horderly : tray.schema.isOrderly = true := by decide
  have hcomposed : tray.schema.isComposed = true := by decide
  have hnameable : Go.isNameable tray.schema = true := by decide +kernel
  refine ⟨rfl, hfree, horderly, hcomposed, hnameable, fun l o text => ?_⟩
  have hiff := (sourceFile_bare (l := l) (o := o) rfl rfl hfree horderly).2 (.inr (.inr hcomposed)) text
  exact hiff.trans (and_iff_left fun _ => hnameable)

/-- A schema with an enumeration that has no name in Go. -/
def unnamed : Request where
  files := textFiles []
  file := some "s.json"
  stamp := "now"
  schema := .map [("properties", .map [("a__b", .map [("enum", .list [])])])]

/-- The file is only generated where references are not followed, although there are none. -/
theorem sourceFile_unnamed_differs : unnamed.schema.isRefFree = true ∧ unnamed.schema.isOrderly = true ∧
      (exec (sourceFile .go {} unnamed.bare) {}).1.isOk = true ∧
      (exec (sourceFile .go {} unnamed) {}).1 = .error (.outOfRange .str) := by
  decide +kernel

end Generate

end Typewright
