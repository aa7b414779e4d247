import Typewright.Proofs.NestedVisits
import Typewright.Proofs.ReferenceWalks

/-!
# Generating files only follows references

Every source file is generated by work that only follows references.
-/

namespace Typewright

open RefM Reference

variable {look : Look} {scope : Option RefScope} {schema required : Value} {name : Scalar} {title : String} {entries : Entries}
  {r : Request} {style : PythonStyle} {yaml : Bool} {file : Option String} {options owner : Value}

/-! ## Types inside a schema -/

namespace Nested

instance : Work look scope KindFault (standsForFile scope name) := by
  unfold standsForFile
  split
  · exact .of_tables (fun _ _ h => by rw [h.definitions]) inferInstance
  · infer_instance

instance : Work look scope KindFault (definitionTarget scope schema) := by
  unfold definitionTarget
  cases scope with
  | none => infer_instance
  | some scope =>
    refine .of_step fun
      | .ok target => inferInstance
      | .error e => inferInstance

instance : Work look scope KindFault (propertyTarget scope schema) := by
  unfold propertyTarget
  refine .of_step fun isRef => .of_else ?_
  cases scope with
  | none => infer_instance
  | some scope =>
    refine .of_step fun
      | .ok (target, name) => inferInstance
      | .error e => inferInstance

instance : FailsWith KindFault (entitled schema name) := by
  unfold entitled
  infer_instance

section Visits

variable {α : Type} {scope : Option RefScope} {visit : Value → Scalar → SeenM (Option α)}
  [∀ schema name, WorkSeen look scope KindFault (visit schema name)]

instance {step : Scalar → Value → SeenM (Option α)} [∀ name v, WorkSeen look scope KindFault (step name v)] :
    WorkSeen look scope KindFault (visitEach step entries) := by
  induction entries with
  | nil => exact .pure []
  | cons e rest ih =>
    unfold visitEach
    infer_instance

instance : WorkSeen look scope KindFault (visitDefinition scope visit name schema) := by
  unfold visitDefinition
  refine .of_step fun seen => .of_else ?_
  refine .of_step fun _ => .of_step fun isRef => .of_ite ?_ ?_
  all_goals infer_instance

instance : WorkSeen look scope KindFault (visitDefinitions scope visit entries) := by
  rw [visitDefinitions_eq]
  infer_instance

instance : WorkSeen look scope KindFault (visitProperty scope visit name schema) := by
  have hvisit : ∀ (target : Value) (typeName : String), WorkSeen look scope KindFault (do
      if ← SeenM.isSeen (.str typeName) then return none
      let nested ← entitled target (.str typeName)
      SeenM.mark (.str typeName)
      visit nested (.str typeName)) := fun target typeName => inferInstance
  unfold visitProperty
  refine .of_step fun
    | (target, none) => ?_
    | (target, some known) => ?_
  all_goals
    dsimp only
    infer_instance

instance : WorkSeen look scope KindFault (visitProperties scope visit entries) := by
  rw [visitProperties_eq]
  infer_instance

instance : WorkSeen look scope KindFault (visitTypes scope visit schema) := by
  unfold visitTypes
  refine .of_step fun hasDefinitions => ?_
  dsimp only
  infer_instance

end Visits

theorem Walk.changes {α : Type} {scope : RefScope} {step : Scalar → Value → SeenM (Option α)}
    [hstep : ∀ name v, FollowsSeen (some scope) KindFault (step name v)] {seen seen' : List Scalar}
    {s s' : RefState} {found : List α} (h : Walk step entries seen s found seen' s') : Changes scope s s' := by
  induction h with
  | nil => exact .refl
  | cons head _ ih => exact (((hstep _ _).run _).changes head).trans ih

end Nested

/-! ## Go -/

namespace GoType

instance : FailsWith KindFault (ofName name) := by
  unfold ofName
  infer_instance

instance (scope : RefScope) (ref : Value) : Follows (some scope) AnyFault (ofRef scope ref name) := by
  unfold ofRef
  infer_instance

instance : Follows scope KindFault (ofOwnRef scope schema name) := by
  unfold ofOwnRef
  cases scope <;> infer_instance

instance follows_ofSchema (scope : Option RefScope) (schema : Value) (name : Scalar) :
    Follows scope KindFault (ofSchema scope schema name) := by
  rw [ofSchema]
  refine .of_step fun found => ?_
  cases found
  case some found => infer_instance
  refine .of_step fun hasOneOf => .of_else ?_
  refine .of_step fun hasAnyOf => .of_else ?_
  refine .of_step fun hasAllOf => .of_ite ?allOf ?_
  case allOf =>
    refine .of_step fun ⟨all, hall⟩ => .of_step fun ⟨last, hlast⟩ => ?_
    exact follows_ofSchema scope last name
  refine .of_step fun hasNot => .of_else ?_
  refine .of_step fun type => .of_step fun format => ?_
  refine .of_else (.of_else (.of_else (.of_else (.of_ite ?array (.of_ite ?object inferInstance)))))
  case array =>
    refine .of_step fun
      | none => inferInstance
      | some ⟨items, hitems⟩ => ?_
    exact .of_bind (follows_ofSchema scope items _) fun item => inferInstance
  case object =>
    refine .of_step fun hasProperties => .of_else ?_
    refine .of_step fun
      | none => inferInstance
      | some ⟨more, hmore⟩ => .of_ite ?_ inferInstance
    exact .of_bind (follows_ofSchema scope more _) fun value => inferInstance
termination_by schema.depth
decreasing_by all_goals omega

end GoType

namespace Go

instance (names descriptions : Value) (i : Nat) (values : List Value) :
    FailsWith KindFault (constants title names descriptions i values) := by
  induction values generalizing i with
  | nil => exact .pure []
  | cons value rest ih =>
    unfold constants
    infer_instance

instance : FailsWith KindFault (enumeration title schema) := by
  unfold enumeration
  infer_instance

instance (keys : List (String × String)) : FailsWith KindFault (bounds schema keys) := by
  induction keys with
  | nil => exact .pure []
  | cons key rest ih =>
    unfold bounds
    refine .of_bind ih fun more => .of_step fun bound => ?_
    cases bound <;> infer_instance

instance : FailsWith KindFault (defaultConstraint schema) := by
  unfold defaultConstraint
  refine .of_step fun default => ?_
  split <;> infer_instance

instance (required : Bool) : FailsWith KindFault (constraints schema required) := by
  unfold constraints
  infer_instance

instance (title fieldName : String) :
    Follows scope KindFault (fieldType scope title fieldName schema name) := by
  unfold fieldType
  infer_instance

instance : Follows scope KindFault (field scope yaml title required name schema) := by
  unfold field
  infer_instance

instance : Follows scope KindFault (fields scope yaml title required entries) := by
  induction entries with
  | nil => exact .pure []
  | cons e rest ih =>
    unfold fields
    infer_instance

instance : FailsWith KindFault (nameWidth entries) := by
  induction entries with
  | nil => exact .pure 0
  | cons e rest ih =>
    unfold nameWidth
    infer_instance

instance : Follows scope KindFault (typeWidth scope entries) := by
  induction entries with
  | nil => exact .pure 0
  | cons e rest ih =>
    unfold typeWidth
    infer_instance

instance : Follows scope KindFault (struct scope yaml title schema) := by
  unfold struct
  infer_instance

instance : Follows scope KindFault (isElsewhere scope file title schema) := by
  unfold isElsewhere
  cases scope with
  | none => infer_instance
  | some scope =>
    infer_instance

instance : FollowsSeen scope KindFault (claimTitle scope file schema) := by
  unfold claimTitle
  infer_instance

instance (title : String) (owner : Value) {declare : Below owner → SeenM (Option Enumeration)}
    [∀ e, FollowsSeen scope KindFault (declare e)] (entries : List (Scalar × Below owner)) :
    FollowsSeen scope KindFault (enumDeclarations title owner declare entries) := by
  induction entries with
  | nil => exact .pure []
  | cons e rest ih =>
    obtain ⟨name, schema, below⟩ := e
    unfold enumDeclarations
    refine .of_step fun hasEnum => .of_ite ih ?_
    refine .of_step fun fieldName => .of_step fun seen => ?_
    refine .of_ite ih (.of_step fun _ => .of_step fun
      | ⟨enumSchema, within⟩ => ?_)
    infer_instance

instance (title : String) (schema : Value) {declare : Below schema → SeenM (Option Enumeration)}
    [∀ e, FollowsSeen scope KindFault (declare e)] :
    FollowsSeen scope KindFault (propertyEnums title schema declare) := by
  unfold propertyEnums
  refine .of_step fun
    | none => inferInstance
    | some ⟨properties, below⟩ => inferInstance

instance follows_enumDeclaration (scope : Option RefScope) (file : Option String)
    (schema : Value) : FollowsSeen scope KindFault (enumDeclaration scope file schema) := by
  rw [enumDeclaration]
  refine .of_step fun
    | none => inferInstance
    | some title => ?_
  have hdeclare : ∀ e : Below schema, FollowsSeen scope KindFault
      (enumDeclaration scope file e.val) := fun e => follows_enumDeclaration scope file e.val
  infer_instance
termination_by schema.depth
decreasing_by exact e.property

instance : FollowsSeen scope KindFault (declaration scope file yaml schema) := by
  unfold declaration
  refine .of_step fun
    | none => inferInstance
    | some title => inferInstance

instance (i : Imports) : FailsWith KindFault (i.addFormat schema) := by
  unfold Imports.addFormat
  infer_instance

instance (i : Imports) : FailsWith KindFault (i.addProperty schema) := by
  unfold Imports.addProperty
  refine .of_step fun i => .of_step fun type => ?_
  refine .of_else (.of_step fun items => ?_)
  cases items <;> infer_instance

instance : Follows scope KindFault (followRef scope schema) := by
  unfold followRef
  cases scope <;> infer_instance

instance (i : Imports) : Follows scope KindFault (i.addProperties scope entries) := by
  induction entries generalizing i with
  | nil => exact .pure i
  | cons e rest ih =>
    unfold Imports.addProperties
    infer_instance

instance (declared : Option (List Scalar)) (i : Imports) :
    FailsWith KindFault (i.addDefinitions declared entries) := by
  induction entries generalizing i with
  | nil => exact .pure i
  | cons e rest ih =>
    unfold Imports.addDefinitions
    infer_instance

instance (declared : Option (List Scalar)) : Follows scope KindFault (imports scope declared schema) := by
  unfold imports
  infer_instance

instance (p : Plan) (t : Tables) (standalone : Bool) :
    FailsWith KindFault (p.addRef scope t standalone schema) := by
  unfold Plan.addRef
  cases scope <;> infer_instance

instance (p : Plan) (t : Tables) (standalone : Bool) :
    FailsWith KindFault (p.addProperty scope t standalone title name schema) := by
  unfold Plan.addProperty
  refine .of_step fun hasEnum => ?_
  dsimp only
  infer_instance

instance (t : Tables) : FailsWith KindFault (definitionFile scope t name schema) := by
  unfold definitionFile
  refine .of_step fun isRef => .of_else ?_
  split <;> infer_instance

instance : FailsWith KindFault (isUuid schema) := by
  unfold isUuid
  infer_instance

instance (p : Plan) (t : Tables) : FailsWith KindFault (p.addDefinition scope t name schema) := by
  unfold Plan.addDefinition
  refine .of_step fun
    | some (scope, ref) => inferInstance
    | none => inferInstance

instance (p : Plan) (t : Tables) (isMain standalone : Bool) :
    FailsWith KindFault (p.addSchema scope t isMain standalone schema) := by
  unfold Plan.addSchema
  infer_instance

instance : Follows scope KindFault (titleStandsForFile scope schema) := by
  unfold titleStandsForFile
  refine .of_else (.of_step fun title => ?_)
  split <;> infer_instance

instance (elsewhere : List String) : Follows r.scope KindFault (isLeftOut r title elsewhere schema) := by
  unfold isLeftOut
  infer_instance

instance (elsewhere : List String) :
    FollowsSeen r.scope KindFault (nestedDeclaration r title elsewhere schema) := by
  unfold nestedDeclaration
  infer_instance

instance : Follows r.scope KindFault (analyse r title) := by
  unfold analyse
  generalize r.scope = scope
  cases scope <;> infer_instance

instance (elsewhere : List String) : FollowsSeen r.scope KindFault (declarations r title elsewhere) := by
  unfold declarations
  infer_instance

instance (package : String) : Follows r.scope KindFault (fileOf package r) := by
  unfold fileOf
  infer_instance

instance (package : String) : Follows r.scope KindFault (sourceFile package r) := by
  unfold sourceFile
  infer_instance

end Go

/-! ## C# -/

namespace CSharpType

instance : FailsWith KindFault (ofName name) := by
  unfold ofName
  infer_instance

instance (scope : RefScope) (ref : Value) : Follows (some scope) AnyFault (ofRef scope ref name) := by
  unfold ofRef
  refine .of_step fun text => .of_else (.of_else ?_)
  refine .of_step fun t => .of_step fun known => ?_
  refine .of_else ?_
  split <;> infer_instance

instance : Follows scope KindFault (ofOwnRef scope schema name) := by
  unfold ofOwnRef
  cases scope <;> infer_instance

instance follows_ofSchema (scope : Option RefScope) (schema : Value) (name : Scalar) :
    Follows scope KindFault (ofSchema scope schema name) := by
  rw [ofSchema]
  refine .of_step fun found => ?_
  cases found
  case some found => infer_instance
  refine .of_step fun hasOneOf => .of_else ?_
  refine .of_step fun hasAnyOf => .of_else ?_
  refine .of_step fun hasAllOf => .of_ite ?allOf ?_
  case allOf =>
    refine .of_step fun ⟨all, hall⟩ => .of_step fun ⟨last, hlast⟩ => ?_
    exact follows_ofSchema scope last name
  refine .of_step fun hasNot => .of_else ?_
  refine .of_step fun hasEnum => .of_else ?_
  refine .of_step fun type => .of_step fun format => ?_
  refine .of_else (.of_else (.of_else (.of_else (.of_ite ?array (.of_ite ?object inferInstance)))))
  case array =>
    refine .of_step fun
      | none => inferInstance
      | some ⟨items, hitems⟩ => ?_
    exact .of_bind (follows_ofSchema scope items _) fun item => inferInstance
  case object =>
    refine .of_step fun hasProperties => .of_else ?_
    refine .of_step fun
      | none => inferInstance
      | some ⟨more, hmore⟩ => .of_ite ?_ inferInstance
    exact .of_bind (follows_ofSchema scope more _) fun value => inferInstance
termination_by schema.depth
decreasing_by all_goals omega

end CSharpType

namespace CSharp

instance (names descriptions : Value) (i : Nat) (values : List Value) :
    FailsWith KindFault (members title names descriptions i values) := by
  induction values generalizing i with
  | nil => exact .pure []
  | cons value rest ih =>
    unfold members
    infer_instance

instance (level : Nat) : FailsWith KindFault (enumeration schema level) := by
  unfold enumeration
  infer_instance

instance : FailsWith KindFault (ranges schema) := by
  unfold ranges
  infer_instance

instance : Follows scope KindFault (field scope required name schema) := by
  unfold field
  infer_instance

instance : Follows scope KindFault (fields scope required entries) := by
  induction entries with
  | nil => exact .pure []
  | cons e rest ih =>
    unfold fields
    infer_instance

instance (level : Nat) : Follows scope KindFault (declaration scope schema level) := by
  unfold declaration
  infer_instance

instance (namespaceName : String) : Follows r.scope KindFault (sourceFile namespaceName r) := by
  unfold sourceFile
  infer_instance

end CSharp

/-! ## TypeScript -/

namespace TypeScriptScope

/-- If references are resolved, it is in this scope. -/
class In (scope : TypeScriptScope) (given : Option RefScope) : Prop where
  resolver : ∀ s, scope = .resolver s → given = some s

instance : In (ofResolver scope) scope where
  resolver s h := by
    cases scope with
    | none => cases h
    | some scope =>
      cases h
      rfl

instance (typeName : Scalar) : In (ofBody typeName) scope where
  resolver s h := by
    unfold ofBody at h
    split at h <;> cases h

end TypeScriptScope

namespace TypeScriptType

instance : FailsWith KindFault (ofName name) := by
  unfold ofName
  infer_instance

instance (scope : RefScope) (ref : Value) : Work .names (some scope) AnyFault (ofRef scope ref name) := by
  unfold ofRef
  refine .of_step fun text => .of_tables (fun t t' h => ?_) fun t => .of_ite ?_ inferInstance
  · unfold Tables.typeOf
    simp only [h.1, h.2]
  · split <;> infer_instance

instance (typeName : Scalar) (ref : Value) : FailsWith KindFault (ofBodyRef typeName ref) := by
  unfold ofBodyRef
  infer_instance

variable {given : Option RefScope}

instance (scope : TypeScriptScope) [h : scope.In given] :
    Work .names given KindFault (ofOwnRef scope schema name) := by
  unfold ofOwnRef
  cases scope with
  | none => infer_instance
  | body typeName => infer_instance
  | resolver scope =>
    obtain rfl := h.resolver scope rfl
    infer_instance

instance : FailsWith KindFault (ofEnum schema) := by
  unfold ofEnum
  infer_instance

theorem follows_ofOptions {ofOption : Within options → Scalar → RefM TypeScriptType}
    (h : ∀ option name, Work .names given KindFault (ofOption option name)) (name : Scalar) (suffix : String)
    (i : Nat) (rest : List (Within options)) : Work .names given KindFault (ofOptions ofOption name suffix i rest) := by
  induction rest generalizing i with
  | nil =>
    unfold ofOptions
    infer_instance
  | cons option rest ih =>
    unfold ofOptions
    exact .of_bind (h option _) fun first => .of_bind (ih (i + 1)) fun _ => inferInstance

instance follows_ofSchema (scope : TypeScriptScope) [scope.In given] (schema : Value)
    (name : Scalar) : Work .names given KindFault (ofSchema scope schema name) := by
  have hoption : ∀ group : Value, group.depth < schema.depth → ∀ (option : Within group) (name : Scalar),
      Work .names given KindFault (ofSchema scope option.val name) := by
    intro group hbelow option name
    have hdepth : option.val.depth < schema.depth := Nat.lt_of_le_of_lt option.property hbelow
    exact follows_ofSchema scope option.val name
  rw [ofSchema]
  refine .of_step fun found => ?_
  cases found
  case some found => infer_instance
  refine .of_step fun hasOneOf => .of_ite ?oneOf (.of_step fun hasAnyOf => .of_ite ?anyOf
    (.of_step fun hasAllOf => .of_ite ?allOf ?_))
  case oneOf | anyOf | allOf =>
    refine .of_step fun options => .of_step fun items => ?_
    exact .of_bind (follows_ofOptions (hoption _ options.property) _ _ _ _) fun _ => inferInstance
  refine .of_step fun hasNot => .of_else ?_
  refine .of_step fun type => .of_step fun format => ?_
  dsimp only
  split
  · infer_instance
  refine .of_else (.of_else (.of_else (.of_ite ?array (.of_ite ?object inferInstance))))
  case array =>
    refine .of_step fun items => ?_
    rcases items with _ | ⟨items, hitems⟩
    · infer_instance
    refine .of_step fun hasOneOf => .of_ite ?_ ?_
    · refine .of_step fun options => .of_step fun parts => ?_
      have hinside := Nat.lt_trans options.property hitems
      exact .of_bind (follows_ofOptions (hoption _ hinside) _ _ _ _) fun _ => inferInstance
    · exact .of_bind (follows_ofSchema scope items _) fun item => inferInstance
  case object =>
    refine .of_step fun hasProperties => .of_else ?_
    refine .of_step fun more => ?_
    rcases more with _ | ⟨more, hmore⟩
    · infer_instance
    refine .of_ite ?_ inferInstance
    exact .of_bind (follows_ofSchema scope more _) fun value => inferInstance
termination_by schema.depth

end TypeScriptType

namespace TypeScript

instance (title : String) (names descriptions : Value) (i : Nat) (values : List Value) :
    FailsWith KindFault (members title names descriptions i values) := by
  induction values generalizing i with
  | nil => exact .pure []
  | cons value rest ih =>
    unfold members
    infer_instance

instance : FailsWith KindFault (enumeration title schema) := by
  unfold enumeration
  infer_instance

section Declarations

variable {given : Option RefScope} (scope : TypeScriptScope) [scope.In given]

instance : Work .names given KindFault (field scope required name schema) := by
  unfold field
  infer_instance

instance : Work .names given KindFault (fields scope required entries) := by
  induction entries with
  | nil => exact .pure []
  | cons e rest ih =>
    unfold fields
    infer_instance

instance : Work .names given KindFault (declaration scope schema) := by
  unfold declaration
  infer_instance

instance : Work .names given KindFault (declared scope schema) := by
  unfold declared
  infer_instance

end Declarations

instance (used : List String) (ref : Value) : Work look scope KindFault (addRef scope used ref) := by
  unfold addRef
  cases scope with
  | none => infer_instance
  | some scope =>
    refine .of_step fun text => .of_else (.of_else ?_)
    refine .of_tables (fun t t' h => by rw [h.definitions]) fun t => ?_
    split <;> infer_instance

instance (used : List String) : Work look scope KindFault (addOwnRef scope used entries) := by
  unfold addOwnRef
  split <;> infer_instance

mutual

theorem follows_refsIn (scope : Option RefScope) (used : List String) :
    (v : Value) → Work look scope KindFault (refsIn scope used v)
  | .map entries => by
    rw [refsIn]
    exact .of_step fun used => follows_refsInEntries scope used entries
  | .list items => by
    rw [refsIn]
    exact follows_refsInItems scope used items
  | .scalar value => by
    rw [refsIn]
    · infer_instance
    all_goals nofun
  | .set members => by
    rw [refsIn]
    · infer_instance
    all_goals nofun
  | .pair left right => by
    rw [refsIn]
    · infer_instance
    all_goals nofun

theorem follows_refsInItems (scope : Option RefScope) (used : List String) :
    (items : List Value) → Work look scope KindFault (refsInItems scope used items)
  | [] => by
    rw [refsInItems]
    infer_instance
  | v :: rest => by
    rw [refsInItems]
    exact .of_bind (follows_refsIn scope used v) fun used => follows_refsInItems scope used rest

theorem follows_refsInEntries (scope : Option RefScope) (used : List String) : (entries : List (Scalar × Value)) →
      Work look scope KindFault (refsInEntries scope used entries)
  | [] => by
    rw [refsInEntries]
    infer_instance
  | e :: rest => by
    rw [refsInEntries]
    exact .of_bind (follows_refsInEntry scope used e) fun used =>
      follows_refsInEntries scope used rest

theorem follows_refsInEntry (scope : Option RefScope) (used : List String) :
    (e : Scalar × Value) → Work look scope KindFault (refsInEntry scope used e)
  | (_, v) => by
    rw [refsInEntry]
    exact follows_refsIn scope used v

end

instance (scope : Option RefScope) (used : List String) (entries : Entries) :
    Work look scope KindFault (refsInEntries scope used entries) :=
  follows_refsInEntries scope used entries

instance (scope : Option RefScope) (schema : Value) : Work look scope KindFault (usedRefs scope schema) := by
  unfold usedRefs
  infer_instance

instance (scope : RefScope) (used : List String) :
    Work look (some scope) KindFault (addPropertyRefs scope used entries) := by
  induction entries generalizing used with
  | nil => exact .pure used
  | cons e rest ih =>
    unfold addPropertyRefs
    infer_instance

instance : Follows r.scope KindFault (imports r) := by
  unfold imports
  generalize r.scope = scope
  split <;> infer_instance

instance : WorkSeen .names scope KindFault (definitionDeclarations scope entries) := by
  induction entries with
  | nil => exact .pure []
  | cons e rest ih =>
    unfold definitionDeclarations
    refine .of_step fun seen => .of_ite ih ?_
    refine .of_step fun isFile => .of_step fun _ => .of_ite ih ?_
    infer_instance

instance : WorkSeen .names scope KindFault (propertyDeclarations scope entries) := by
  induction entries with
  | nil => exact .pure []
  | cons e rest ih =>
    unfold propertyDeclarations
    refine .of_step fun isFile => .of_ite ih ?_
    infer_instance

instance : WorkSeen .names scope KindFault (nestedDeclarations scope schema) := by
  unfold nestedDeclarations
  refine .of_step fun hasDefinitions => ?_
  dsimp only
  infer_instance

instance : Follows r.scope KindFault (fileOf r) := by
  unfold fileOf
  infer_instance

instance : Follows r.scope KindFault (sourceFile r) := by
  unfold sourceFile
  infer_instance

end TypeScript

/-! ## Python -/

namespace PythonType

instance : FailsWith KindFault (ofName name) := by
  unfold ofName
  infer_instance

instance (scope : RefScope) (ref : Value) : Work .names (some scope) AnyFault (ofRef scope ref name) := by
  have hname : Work .names (some scope) AnyFault (do
      let ref ← textOf ref
      if isDefinition ref then return .name (lastName ref)
      if isInner ref then return ← ofName name
      match (← RefM.tables).types.get? (scope.path ref) with
      | some known => return .name known
      | none => return .name (Naming.capitalWords (Path.stem ref)) : RefM PythonType) := by
    refine .of_step fun text => .of_else (.of_else ?_)
    refine .of_tables (fun t t' h => by rw [h.2]) fun t => ?_
    split <;> infer_instance
  unfold ofRef
  refine .of_step fun target => ?_
  dsimp only
  infer_instance

instance : Work .names scope KindFault (ofOwnRef scope schema name) := by
  unfold ofOwnRef
  cases scope <;> infer_instance

instance (items : Value) : Work .names scope KindFault (ofItemRef scope items) := by
  unfold ofItemRef
  cases scope with
  | none => infer_instance
  | some scope =>
    refine .of_step fun isRef => .of_else ?_
    refine .of_step fun ref => .of_step fun text => ?_
    refine .of_else (.of_else ?_)
    exact .of_tables (fun t t' h => by rw [h.2]) inferInstance

instance : FailsWith KindFault (ofEnum schema) := by
  unfold ofEnum
  infer_instance

theorem follows_ofOptions {ofOption : Within options → Scalar → RefM PythonType}
    (h : ∀ option name, Work .names scope KindFault (ofOption option name)) (name : Scalar) (i : Nat)
    (rest : List (Within options)) : Work .names scope KindFault (ofOptions ofOption name i rest) := by
  induction rest generalizing i with
  | nil =>
    unfold ofOptions
    infer_instance
  | cons option rest ih =>
    unfold ofOptions
    exact .of_bind (h option _) fun first => .of_bind (ih (i + 1)) fun _ => inferInstance

instance follows_ofSchema (scope : Option RefScope) (style : PythonStyle) (schema : Value)
    (name : Scalar) : Work .names scope KindFault (ofSchema scope style schema name) := by
  have hoption : ∀ group : Value, group.depth < schema.depth → ∀ (option : Within group) (name : Scalar),
      Work .names scope KindFault (ofSchema scope style option.val name) := by
    intro group hbelow option name
    have hdepth : option.val.depth < schema.depth := Nat.lt_of_le_of_lt option.property hbelow
    exact follows_ofSchema scope style option.val name
  rw [ofSchema]
  refine .of_step fun found => ?_
  cases found
  case some found => infer_instance
  refine .of_step fun hasOneOf => .of_ite ?oneOf (.of_step fun hasAnyOf => .of_ite ?anyOf ?_)
  case oneOf | anyOf =>
    refine .of_step fun options => .of_step fun items => ?_
    exact .of_bind (follows_ofOptions (hoption _ options.property) _ _ _) fun _ => inferInstance
  refine .of_step fun hasAllOf => .of_ite ?allOf ?_
  case allOf =>
    refine .of_step fun all => .of_step fun last => ?_
    exact hoption _ all.property last name
  refine .of_step fun hasNot => .of_else ?_
  refine .of_step fun type => .of_step fun format => ?_
  refine .of_step fun values => ?_
  cases values
  case some values => infer_instance
  refine .of_else (.of_else (.of_else (.of_else (.of_ite ?array (.of_ite ?object inferInstance)))))
  case array =>
    refine .of_step fun items => ?_
    rcases items with _ | ⟨items, hitems⟩
    · infer_instance
    refine .of_step fun item => ?_
    cases item with
    | some item => infer_instance
    | none => exact .of_bind (follows_ofSchema scope style items _) fun item => inferInstance
  case object =>
    refine .of_step fun hasProperties => .of_else ?_
    refine .of_step fun more => ?_
    rcases more with _ | ⟨more, hmore⟩
    · infer_instance
    refine .of_ite ?_ inferInstance
    exact .of_bind (follows_ofSchema scope style more _) fun value => inferInstance
termination_by schema.depth

end PythonType

namespace Reference

/-- What a visitor does at references only follows references. -/
class FollowsVisitor {σ : Type} (scope : Option RefScope) (visitor : Visitor σ) : Prop where
  onProperty : ∀ s ref, Follows scope KindFault (visitor.onProperty s ref)
  onItem : ∀ s ref, Follows scope KindFault (visitor.onItem s ref)
  onDefinition : ∀ f, visitor.onDefinition = some f → ∀ s ref, Follows scope KindFault (f s ref)

attribute [instance] FollowsVisitor.onProperty FollowsVisitor.onItem

instance follows_walk {σ : Type} {scope : Option RefScope} (visitor : Visitor σ)
    [h : FollowsVisitor scope visitor] (s : σ) (schema : Value) :
    Follows scope KindFault (walk visitor s schema) := by
  refine walk_keeps (P := fun _ => Follows scope KindFault) (k := fun _ => ())
    ⟨fun _ => .pure _, fun hx hf => .of_bind hx fun a => hf a a rfl, ?_⟩ h.onProperty h.onItem h.onDefinition s schema
  intro _ _ r hfails f _ hf
  cases r with
  | ok a => exact hf a rfl
  | error e => exact .throw (hfails.fault e rfl)

end Reference

namespace Python

instance (title : String) (names descriptions : Value) (i : Nat) (values : List Value) :
    FailsWith KindFault (members title names descriptions i values) := by
  induction values generalizing i with
  | nil => exact .pure []
  | cons value rest ih =>
    unfold members
    infer_instance

instance : FailsWith KindFault (enumLines style title schema) := by
  unfold enumLines
  infer_instance

instance : FailsWith KindFault (Bounds.ofSchema schema) := by
  unfold Bounds.ofSchema
  infer_instance

instance (v : Value) : FailsWith KindFault (descriptionText v) := by
  unfold descriptionText
  infer_instance

instance : Work .names scope KindFault (field scope style required name schema) := by
  unfold field
  infer_instance

instance : Work .names scope KindFault (fields scope style required entries) := by
  induction entries with
  | nil => exact .pure []
  | cons e rest ih =>
    unfold fields
    infer_instance

instance : Work .names scope KindFault (declaration scope style schema) := by
  unfold declaration
  infer_instance

section Imports

variable {scope : RefScope} {next : List String → Value → RefM (List String)}
  [∀ used schema, Follows (some scope) KindFault (next used schema)]

instance (used : List String) (ref : String) :
    Follows (some scope) KindFault (usedInFile scope next used ref) := by
  unfold usedInFile
  refine .of_step fun t => .of_step fun
    | none => inferInstance
    | some schema => ?_
  refine .of_else (.of_step fun title => ?_)
  dsimp only
  infer_instance

instance (used : List String) (ref : Value) :
    Follows (some scope) KindFault (usedByRef scope next used ref) := by
  unfold usedByRef
  refine .of_step fun text => .of_else (.of_else ?_)
  refine .of_step fun t => ?_
  split <;> infer_instance

instance (used : Option (List String)) (statements : List String) (ref : Value) :
    Follows (some scope) KindFault (importByRef scope used next statements ref) := by
  unfold importByRef
  refine .of_step fun text => .of_else ?_
  refine .of_step fun t => .of_step fun
    | none => inferInstance
    | some schema => inferInstance

end Imports

theorem follows_tooDeep {α : Type} (scope : Option RefScope) : Follows scope KindFault (throw .tooDeep : RefM α) :=
  .throw rfl

instance follows_usedVisitor (scope : RefScope) (fuel : Nat) :
    FollowsVisitor (some scope) (usedVisitor scope fuel) := by
  induction fuel with
  | zero =>
    refine ⟨fun _ _ => follows_tooDeep _, fun _ _ => follows_tooDeep _, ?_⟩
    rintro f ⟨⟩ s ref
    exact follows_tooDeep _
  | succ fuel ih =>
    refine ⟨fun s ref => ?_, fun s ref => ?_, ?_⟩
    · exact inferInstanceAs (Follows _ _ (usedByRef scope _ s ref))
    · exact inferInstanceAs (Follows _ _ (usedByRef scope _ s ref))
    · rintro f ⟨⟩ s ref
      exact inferInstanceAs (Follows _ _ (usedByRef scope _ s ref))

instance (scope : RefScope) : Follows (some scope) KindFault (usedTypes scope schema) := by
  unfold usedTypes
  infer_instance

instance follows_importVisitor (scope : RefScope) (used : Option (List String)) (fuel : Nat) :
    FollowsVisitor (some scope) (importVisitor scope used fuel) := by
  induction fuel with
  | zero => exact ⟨fun _ _ => follows_tooDeep _, fun _ _ => follows_tooDeep _, nofun⟩
  | succ fuel ih =>
    have honItem : ∀ statements ref, Follows (some scope) KindFault
        (importByRef scope used (walk (importVisitor scope used fuel)) statements ref) :=
      fun statements ref => inferInstance
    refine ⟨fun statements ref => ?_, honItem, nofun⟩
    refine .of_bind (honItem statements ref) fun statements => .of_step fun
      | none => inferInstance
      | some schema => inferInstance

instance (scope : Option RefScope) (visitor : Visitor (List String))
    [FollowsVisitor scope visitor] (size : Nat) (statements : List String)
    (documents : Table Value) :
    Follows scope KindFault (importsOfDocuments visitor size statements documents) := by
  induction documents generalizing statements with
  | nil => exact .pure statements
  | cons e rest ih =>
    have hgrown : Follows scope KindFault (throw .grownTable : RefM (List String)) := .throw rfl
    have hgrown' : Follows scope KindFault (throw .grownTable : RefM PUnit) := .throw rfl
    unfold importsOfDocuments
    infer_instance

instance (scope : RefScope) (used : Option (List String)) :
    Follows (some scope) KindFault (importStatements scope used) := by
  unfold importStatements
  infer_instance

instance : FailsWith KindFault (hasUuid entries) := by
  induction entries with
  | nil => exact .pure false
  | cons e rest ih =>
    unfold hasUuid
    infer_instance

instance : FailsWith KindFault (styleImports style schema) := by
  unfold styleImports
  infer_instance

instance : Follows r.scope KindFault (fileImports r) := by
  unfold fileImports
  generalize r.scope = scope
  split <;> infer_instance

instance : FailsWith KindFault (namesFileProperty name entries) := by
  induction entries with
  | nil => exact .pure false
  | cons e rest ih =>
    unfold namesFileProperty
    infer_instance

instance (imported : List String) : FailsWith KindFault (isLeftOut r imported name) := by
  unfold isLeftOut
  refine .of_else (.of_step fun definitions => ?_)
  dsimp only
  split <;> infer_instance

instance : Work .names scope KindFault (declared scope style schema) := by
  unfold declared
  infer_instance

instance (imported : List String) : WorkSeen .names r.scope KindFault (visit style r imported schema name) := by
  unfold visit
  infer_instance

instance : Follows r.scope KindFault (fileOf style r) := by
  unfold fileOf
  infer_instance

instance : Follows r.scope KindFault (sourceFile style r) := by
  unfold sourceFile
  infer_instance

end Python

/-! ## All languages -/

namespace Generate

theorem follows_sourceFile {l : Language} (handles : l ≠ .proto) (o : Options) (r : Request) :
    Follows r.scope KindFault (sourceFile l o r) := by
  cases l with
  | go => exact inferInstanceAs (Follows _ _ (Go.sourceFile _ r))
  | python => exact inferInstanceAs (Follows _ _ (Python.sourceFile _ r))
  | typescript => exact inferInstanceAs (Follows _ _ (TypeScript.sourceFile r))
  | csharp => exact inferInstanceAs (Follows _ _ (CSharp.sourceFile _ r))
  | proto => exact absurd rfl handles

end Generate

end Typewright
