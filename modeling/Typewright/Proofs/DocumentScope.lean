import Typewright.Proofs.Generators
import Typewright.Proofs.OutputFiles

/-!
# What inner references mean in a document

In a run over a schema and its documents there is one scope for all, so an inner reference of a document is looked up
among the definitions of the schema.
-/

namespace Typewright

open RefM

variable {given : Option RefScope}

theorem Follows.weaken {α : Type} {P : Fault → Prop} {work : RefM α} (h : Follows given P work) :
    Follows given AnyFault work := by
  induction h with
  | of_ask => exact .of_ask inferInstance
  | report lines => exact .report lines
  | of_tables hread _ ih => exact .of_tables hread ih
  | of_bind _ _ hx hf => exact .of_bind hx hf
  | of_tryCatch _ _ hx hh => exact .of_tryCatch hx hh
  | of_attempt _ hx => exact .of_attempt hx
  | of_resolve h ref => exact .of_resolve h ref

/-! ## Protocol buffers -/

namespace Proto

instance (scope : RefScope) (ref : Value) (name : Scalar) :
    Follows (some scope) AnyFault (ofRef scope ref name) := by
  unfold ofRef
  refine .of_step fun target => .of_step fun text => ?_
  dsimp only
  infer_instance

instance (schema : Value) (name : Scalar) : Follows given AnyFault (ofOwnRef given schema name) := by
  unfold ofOwnRef
  cases given <;> infer_instance

theorem follows_slots {owner : Value} {typeOf : Below owner → Scalar → SeenM FieldType}
    (h : ∀ property name, FollowsSeen given AnyFault (typeOf property name)) (number : Nat)
    (entries : List (Scalar × Below owner)) : FollowsSeen given AnyFault (slots typeOf number entries) := by
  induction entries generalizing number with
  | nil => exact .pure []
  | cons e rest ih =>
    unfold slots
    infer_instance

mutual

theorem follows_fieldType (schema : Value) (name : Scalar) :
    FollowsSeen given AnyFault (fieldType given schema name) := by
  rw [fieldType]
  refine .of_step fun hasOneOf => .of_ite ?oneOf (.of_step fun hasAnyOf => .of_ite ?anyOf
    (.of_step fun hasAllOf => .of_ite ?allOf ?_))
  case oneOf | anyOf | allOf =>
    refine .of_step fun group => .of_else (.of_step fun option => ?_)
    have hdepth : option.val.depth < schema.depth := Nat.lt_of_le_of_lt option.property group.property
    exact follows_fieldType option.val name
  refine .of_step fun hasNot => .of_else (.of_step fun found => ?_)
  cases found
  case some found => infer_instance
  refine .of_step fun type => .of_ite ?array ?_
  case array =>
    refine .of_step fun items => ?_
    rcases items with _ | ⟨items, hbelow⟩
    · infer_instance
    refine .of_step fun itemType => .of_ite (.of_step fun pascal => ?_) ?_
    · refine .of_step fun inner => ?_
      rcases inner with _ | ⟨inner, hinner⟩
      · infer_instance
      · exact .of_bind (follows_fieldType inner _) fun item => inferInstance
    · refine .of_step fun itemName => ?_
      exact .of_bind (follows_fieldType items _) fun item => inferInstance
  refine .of_step fun hasEnum => .of_else (.of_ite ?_ inferInstance)
  refine .of_step fun typeName => .of_step fun properties => ?_
  refine .of_step fun seen => .of_else (.of_step fun text => ?_)
  have hmessage : FollowsSeen given AnyFault (message given schema typeName) := follows_message schema typeName
  infer_instance
termination_by 3 * schema.depth + 2

theorem follows_message (schema : Value) (typeName : String) :
    FollowsSeen given AnyFault (message given schema typeName) := by
  have hown : FollowsSeen given AnyFault (ownSlots given schema) := follows_ownSlots schema
  have hmore : ∀ number, FollowsSeen given AnyFault (moreSlots given schema number) := follows_moreSlots schema
  rw [message]
  infer_instance
termination_by 3 * schema.depth + 1

theorem follows_ownSlots (schema : Value) : FollowsSeen given AnyFault (ownSlots given schema) := by
  rw [ownSlots]
  refine .of_step fun properties => ?_
  rcases properties with _ | ⟨properties, hbelow⟩
  · infer_instance
  · refine .of_step fun entries => follows_slots (fun property name => ?_) 1 entries
    exact follows_fieldType property.val name
termination_by 3 * schema.depth

theorem follows_moreSlots (schema : Value) (number : Nat) :
    FollowsSeen given AnyFault (moreSlots given schema number) := by
  rw [moreSlots]
  refine .of_step fun more => ?_
  rcases more with _ | ⟨more, hbelow⟩
  · infer_instance
  · have hvalue : FollowsSeen given AnyFault (fieldType given more (.str "value")) :=
      follows_fieldType more (.str "value")
    infer_instance
termination_by 3 * schema.depth

end

instance (schema : Value) (typeName : String) : FollowsSeen given AnyFault (message given schema typeName) :=
  follows_message schema typeName

instance (schema : Value) (name : String) : FollowsSeen given AnyFault (definition given schema name) := by
  unfold definition
  infer_instance

instance (entries : Entries) : FollowsSeen given AnyFault (definitions given entries) := by
  induction entries with
  | nil => exact .pure []
  | cons e rest ih =>
    unfold definitions
    refine .of_step fun typeName => .of_step fun seen => .of_ite ih ?_
    exact .of_step fun own => .of_bind ih fun others => inferInstance

instance (schema : Value) : FollowsSeen given AnyFault (rootDeclaration given schema) := by
  unfold rootDeclaration
  infer_instance

instance (schema : Value) : FollowsSeen given AnyFault (declarations given schema) := by
  unfold declarations
  infer_instance

instance (package : String) (goPackage : Option String) (more : List String) (r : Request) :
    Follows r.scope AnyFault (sourceFile package goPackage more r) := by
  unfold sourceFile fileOf
  infer_instance

end Proto

theorem Generate.follows_sourceFile_all (l : Language) (o : Options) (r : Request) :
    Follows r.scope AnyFault (sourceFile l o r) := by
  by_cases h : l = .proto
  · subst h
    exact inferInstanceAs (Follows _ _ (Proto.sourceFile _ _ _ r))
  · exact (follows_sourceFile h o r).weaken

/-! ## Inner references -/

namespace Reference

structure Defines (schema : Value) (name : String) (definition : Value) : Prop where
  found : definition? schema name = .ok (some definition)
  plain : definition.has "$ref" = .ok false

/-- What is said of an inner reference that leads nowhere. -/
def unresolved (ref : String) : Fault :=
  .content ("Internal reference '" ++ ref ++ "' could not be resolved")

variable {scope : RefScope} {ref : String}

theorem exec_resolve_defines {definition : Value} (inner : isDefinition ref)
    (h : Defines scope.root (lastName ref) definition) (s : RefState) :
    exec (scope.resolve (.str ref)) s = (.ok definition, s) := by
  refine RefScope.exec_resolve_definition ?_ s
  show destination scope.root (definitionCount scope.root + 1) ref = _
  unfold destination
  rw [if_pos inner, h.found, Outcome.ok_bind]
  dsimp only
  rw [h.plain]
  rfl

theorem exec_resolve_undefined (inner : isDefinition ref)
    (h : definition? scope.root (lastName ref) = .ok none) (s : RefState) :
    exec (scope.resolve (.str ref)) s = (.error (unresolved ref), s) := by
  refine RefScope.exec_resolve_error ?_ s
  show destination scope.root (definitionCount scope.root + 1) ref = _
  unfold destination
  rw [if_pos inner, h]
  rfl

end Reference

/-! ## Documents of a run -/

namespace Generate

open Reference

theorem exec_of_mem_documents {language : Language} {o : Options} {scope : RefScope}
    {stamp main path name : String} {schema : Value} {documents : Table (Value × String)} {s s' : RefState}
    {texts : List String} (h : exec (documentTexts language o scope stamp main documents) s = (.ok texts, s'))
    (document : (path, schema, name) ∈ documents) :
    ∃ s₁ s₂ text, (documentPath language main path, text) ∈ documentOutputs language main documents texts ∧
      exec (sourceFile language o (documentRequest scope stamp main path schema)) s₁ = (.ok text, s₂) := by
  induction documents generalizing s texts with
  | nil => cases document
  | cons d rest ih =>
    obtain ⟨text, s₁, htext, h⟩ := exec_bind_ok h
    obtain ⟨more, s₂, hmore, h⟩ := exec_bind_ok h
    cases h
    rcases List.mem_cons.mp document with rfl | document
    · exact ⟨s, s₁, text, .head _, htext⟩
    · obtain ⟨s3, s4, text', hmem, hrun⟩ := ih hmore document
      exact ⟨s3, s4, text', .tail _ hmem, hrun⟩

/-- Inner references of a document mean definitions of the schema that the run is about. In a scope of its own the
document would find its definition. -/
theorem inner_refs_mean_root {language : Language} {o : Options} {stamp : String} {scope : RefScope}
    {documents : Table (Value × String)} {outputs : List (String × String)} {last : RefState}
    (run : Generates language o stamp scope documents outputs last) {path name : String} {schema : Value}
    (document : (path, schema, name) ∈ documents) :
    (∃ s₁ s₂ text, (documentPath language (mainPath language o.output) path, text) ∈ outputs ∧
      exec (sourceFile language o
        (documentRequest scope stamp (mainPath language o.output) path schema)) s₁ = (.ok text, s₂) ∧
      Relation.ReflTransGen (Turn scope) s₁ s₂) ∧
    ∀ ref own, isDefinition ref = true → Defines schema (lastName ref) own → ∀ s,
      exec (RefScope.resolve ⟨scope.files, path, schema⟩ (.str ref)) s = (.ok own, s) ∧
      (∀ other, Defines scope.root (lastName ref) other → exec (scope.resolve (.str ref)) s = (.ok other, s)) ∧
      (definition? scope.root (lastName ref) = .ok none →
        exec (scope.resolve (.str ref)) s = (.error (unresolved ref), s)) := by
  refine ⟨?_, fun ref own inner hown s => ⟨?_, ?_, ?_⟩⟩
  · obtain ⟨_, _, _, texts, _, _, _, htexts, rfl⟩ := run
    obtain ⟨s₁, s₂, text, hmem, hrun⟩ := exec_of_mem_documents htexts document
    have hturns := (follows_sourceFile_all language o
      (documentRequest scope stamp (mainPath language o.output) path schema)).turns scope rfl s₁
    exact ⟨s₁, s₂, text, .tail _ hmem, hrun, steps_of_exec hturns hrun⟩
  · refine exec_resolve_defines inner ?_ s
    exact hown
  · exact fun other hother => exec_resolve_defines inner hother s
  · exact fun hnone => exec_resolve_undefined inner hnone s

def item : Value :=
  .map [("properties", .map [("price", .map [("$ref", "#/definitions/Price")])]),
    ("definitions", .map [("Price", .map [("type", "number")])])]

def shop (definitions : Entries) : RefScope :=
  { files :=
      { cwd := []
        entries := [(["item.json"], .file
          ("\x7b\"properties\":\x7b\"price\":\x7b\"$ref\":\"#/definitions/Price\"\x7d\x7d," ++
            "\"definitions\":\x7b\"Price\":\x7b\"type\":\"number\"\x7d\x7d\x7d").toUTF8.toList)] }
    base := "shop.json"
    root := .map [("properties", .map [("item", .map [("$ref", "item.json")])]),
      ("definitions", .map definitions)] }

theorem inner_refs_mean_root_shop : let pricing := shop [(.str "Price", .map [(.str "type", .str "string")])]
    ∃ documents outputs last, Generates .go {} "now" pricing documents outputs last ∧
      ("item.json", item, "Item") ∈ documents ∧
      ∀ s, exec (RefScope.resolve ⟨pricing.files, "item.json", item⟩ (.str "#/definitions/Price")) s =
          (.ok (.map [(.str "type", .str "number")]), s) ∧
        exec (pricing.resolve (.str "#/definitions/Price")) s =
          (.ok (.map [(.str "type", .str "string")]), s) := by
  intro pricing
  obtain ⟨hok, hlisted⟩ : (exec (sourceFiles "go" {} "now" pricing) {}).1.isOk = true ∧
      (exec (sourceFile .go {} (mainRequest pricing "now"))
        (exec (Reference.prepare pricing pricing.root) {}).2).2.tables.documents =
          .ok [("item.json", item, "Item")] := by
    decide +kernel
  obtain ⟨files, hfiles⟩ := Outcome.eq_ok_of_isOk hok
  have hrun : exec (sourceFiles "go" {} "now" pricing) {} = (.ok files, _) := Prod.ext hfiles rfl
  obtain ⟨language, documents, outputs, hlanguage, hgenerates, -⟩ := exec_sourceFiles_eq_ok hrun
  cases hlanguage
  have hdocuments : documents = [("item.json", item, "Item")] := by
    rw [hgenerates.documents_eq] at hlisted
    exact Except.ok.inj hlisted
  have document : ("item.json", item, "Item") ∈ documents := by
    rw [hdocuments]
    exact .head _
  refine ⟨documents, outputs, _, hgenerates, document, fun s => ?_⟩
  obtain ⟨-, hmeans⟩ := inner_refs_mean_root hgenerates document
  obtain ⟨hown, hother, -⟩ := hmeans "#/definitions/Price" (.map [(.str "type", .str "number")])
    (by decide +kernel) ⟨by decide +kernel, by decide +kernel⟩ s
  exact ⟨hown, hother _ ⟨by decide +kernel, by decide +kernel⟩⟩

/-- The schema has no price, and the price of the item is not found while the file for it is made. -/
theorem inner_ref_lost_shop : let s := (exec (sourceFile .python {} (mainRequest (shop []) "now"))
      (exec (Reference.prepare (shop []) (shop []).root) {}).2).2
    s.tables.documents = .ok [("item.json", item, "Item")] ∧
      definition? item "Price" = .ok (some (.map [(.str "type", .str "number")])) ∧
      (exec ((shop []).resolve (.str "#/definitions/Price")) s).1 =
        .error (unresolved "#/definitions/Price") ∧
      "Warning: Could not resolve reference #/definitions/Price: " ++
          (unresolved "#/definitions/Price").message ∈
        (exec (sourceFile .python {} (documentRequest (shop []) "now" "output" "item.json" item)) s).2.log := by
  decide +kernel

end Generate

end Typewright
