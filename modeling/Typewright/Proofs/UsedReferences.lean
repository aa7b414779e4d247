import Typewright.Proofs.Preparation
import Typewright.Proofs.TextParts
import Typewright.SourceFile.TypeScript

/-!
# The references that a schema uses

The references below the properties and definitions of a schema are collected while the files that they name are
loaded.
-/

namespace Typewright

open RefM

variable {scope : RefScope} {schema v ref : Value} {s s' s1 : RefState} {used used' : List String} {file : String}

namespace Reference

/-! ## Loading a file names no definition -/

def SameDefinitions (s s' : RefState) : Prop :=
  s'.tables.definitions = s.tables.definitions

theorem load_keeps_definitions (scope : RefScope) (fuel : Nat) (ref : String) (s : RefState) :
    Makes SameDefinitions (load scope fuel ref) s := by
  induction fuel generalizing ref s with
  | zero =>
    unfold load
    refine makes_bind makes_tables fun t s1 _ => ?_
    split
    · exact makes_pure _
    · exact makes_throw _
  | succ fuel ih =>
    unfold load
    refine makes_bind makes_tables fun t s1 _ => ?_
    split
    · exact makes_pure _
    refine makes_tryCatch ?_ fun _ _ _ => makes_throw _
    refine makes_bind (makes_report rfl) fun _ _ _ => makes_bind (makes_lift _) fun schema _ _ => ?_
    refine makes_bind (makes_update rfl) fun _ _ _ => makes_bind (makes_lift _) fun name _ _ => ?_
    refine makes_bind (makes_update rfl) fun _ _ _ => makes_bind (makes_lift _) fun properties s2 _ => ?_
    exact makes_bind (loadItems_makes (fun ref s _ => ih ref s) properties s2) fun _ _ _ => makes_pure _

theorem external_keeps_definitions (scope : RefScope) (ref : String) (s : RefState) :
    (exec (external scope ref) s).2.tables.definitions = s.tables.definitions := by
  have hmakes : Makes SameDefinitions (external scope ref) s := by
    refine makes_bind makes_tables fun t s1 _ => ?_
    split
    · exact makes_pure _
    · exact load_keeps_definitions scope _ ref s1
  exact keep_of_steps (P := fun s1 => s1.tables.definitions = s.tables.definitions)
    (fun _ _ hstep hs => hstep.trans hs) hmakes rfl

end Reference

namespace TypeScript

open Reference

/-! ## Where references occur -/

/-- A map inside a value, or the value itself, has a reference. -/
inductive RefAt (ref : Value) : Value → Prop
  | own {entries : Entries} (found : Entries.find? entries (.str "$ref") = some ref) : RefAt ref (.map entries)
  | entry {entries : Entries} {e : Scalar × Value} (mem : e ∈ entries) (inside : RefAt ref e.2) :
      RefAt ref (.map entries)
  | item {items : List Value} {v : Value} (mem : v ∈ items) (inside : RefAt ref v) : RefAt ref (.list items)

/-- A reference occurs below the properties or the definitions of a schema. -/
def RefBelow (schema : Value) (ref : String) : Prop :=
  ∃ e ∈ schema.entriesOf "properties" ++ schema.entriesOf "definitions", RefAt (.str ref) e.2

mutual

/-- The references in a value, in the order of a walk. -/
def refsOf : Value → List Value
  | .map entries => (Entries.find? entries (.str "$ref")).toList ++ refsOfEntries entries
  | .list items => refsOfItems items
  | _ => []

def refsOfItems : List Value → List Value
  | [] => []
  | v :: rest => refsOf v ++ refsOfItems rest

def refsOfEntries : List (Scalar × Value) → List Value
  | [] => []
  | e :: rest => refsOfEntry e ++ refsOfEntries rest

def refsOfEntry : Scalar × Value → List Value
  | (_, v) => refsOf v

end

/-- The references below the properties and definitions of a schema, in the order of a walk. -/
def refsBelow (schema : Value) : List Value :=
  refsOfEntries (schema.entriesOf "properties" ++ schema.entriesOf "definitions")

mutual

theorem refsIn_eq (scope : Option RefScope) (used : List String) :
    (v : Value) → refsIn scope used v = (refsOf v).foldlM (addRef scope) used
  | .map entries => by
    rw [refsIn, refsOf, List.foldlM_append]
    congr 1
    · unfold addOwnRef
      cases Entries.find? entries (.str "$ref") <;> simp
    · exact funext fun used => refsInEntries_eq scope used entries
  | .list items => by
    rw [refsIn, refsOf]
    exact refsInItems_eq scope used items
  | .scalar _ | .set _ | .pair _ _ => by
    rw [refsIn, refsOf]
    · rfl
    all_goals nofun

theorem refsInItems_eq (scope : Option RefScope) (used : List String) :
    (items : List Value) → refsInItems scope used items = (refsOfItems items).foldlM (addRef scope) used
  | [] => by
    rw [refsInItems, refsOfItems]
    rfl
  | v :: rest => by
    rw [refsInItems, refsOfItems, List.foldlM_append, refsIn_eq scope used v]
    exact bind_congr fun used => refsInItems_eq scope used rest

theorem refsInEntries_eq (scope : Option RefScope) (used : List String) : (entries : List (Scalar × Value)) →
    refsInEntries scope used entries = (refsOfEntries entries).foldlM (addRef scope) used
  | [] => by
    rw [refsInEntries, refsOfEntries]
    rfl
  | e :: rest => by
    rw [refsInEntries, refsOfEntries, List.foldlM_append, refsInEntry_eq scope used e]
    exact bind_congr fun used => refsInEntries_eq scope used rest

theorem refsInEntry_eq (scope : Option RefScope) (used : List String) :
    (e : Scalar × Value) → refsInEntry scope used e = (refsOfEntry e).foldlM (addRef scope) used
  | (_, v) => by
    rw [refsInEntry, refsOfEntry]
    exact refsIn_eq scope used v

end

mutual

theorem mem_refsOf_iff : (v : Value) → (ref ∈ refsOf v ↔ RefAt ref v)
  | .map entries => by
    rw [refsOf, List.mem_append, Option.mem_toList, mem_refsOfEntries_iff entries]
    constructor
    · rintro (found | ⟨e, he, inside⟩)
      · exact .own found
      · exact .entry he inside
    · rintro (found | ⟨he, inside⟩)
      · exact .inl found
      · exact .inr ⟨_, he, inside⟩
  | .list items => by
    rw [refsOf, mem_refsOfItems_iff items]
    exact ⟨fun ⟨_, hv, inside⟩ => .item hv inside, fun (.item hv inside) => ⟨_, hv, inside⟩⟩
  | .scalar _ | .set _ | .pair _ _ => by
    rw [refsOf]
    · exact ⟨nofun, nofun⟩
    all_goals nofun

theorem mem_refsOfItems_iff : (items : List Value) → (ref ∈ refsOfItems items ↔ ∃ v ∈ items, RefAt ref v)
  | [] => by simp [refsOfItems]
  | v :: rest => by
    rw [refsOfItems, List.mem_append, mem_refsOf_iff v, mem_refsOfItems_iff rest, List.exists_mem_cons_iff]

theorem mem_refsOfEntries_iff : (entries : List (Scalar × Value)) →
    (ref ∈ refsOfEntries entries ↔ ∃ e ∈ entries, RefAt ref e.2)
  | [] => by simp [refsOfEntries]
  | e :: rest => by
    rw [refsOfEntries, List.mem_append, mem_refsOfEntry_iff e, mem_refsOfEntries_iff rest, List.exists_mem_cons_iff]

theorem mem_refsOfEntry_iff : (e : Scalar × Value) → (ref ∈ refsOfEntry e ↔ RefAt ref e.2)
  | (_, v) => by
    rw [refsOfEntry]
    exact mem_refsOf_iff v

end

theorem refsOfEntries_append (entries more : Entries) :
    refsOfEntries (entries ++ more) = refsOfEntries entries ++ refsOfEntries more := by
  induction entries with
  | nil => simp [refsOfEntries]
  | cons e rest ih => simp [refsOfEntries, ih]

theorem mem_refsBelow_iff {text : String} : .str text ∈ refsBelow schema ↔ RefBelow schema text :=
  mem_refsOfEntries_iff _

theorem foldlM_of_exec_usedRefs {scope : Option RefScope} (h : exec (usedRefs scope schema) s = (.ok used, s')) :
    exec ((refsBelow schema).foldlM (addRef scope) []) s = (.ok used, s') := by
  obtain ⟨properties, hprops, h1⟩ := exec_ask_ok h
  obtain ⟨used1, s1, hfirst, h2⟩ := exec_bind_ok h1
  obtain ⟨hasDefinitions, hhas, h3⟩ := exec_ask_ok h2
  rw [refsInEntries_eq] at hfirst
  unfold refsBelow
  rw [refsOfEntries_append, List.foldlM_append, Value.entriesOf_eq hprops, exec_bind_of_ok hfirst]
  cases hasDefinitions with
  | false =>
    rw [Value.entriesOf_of_has hhas, refsOfEntries]
    exact h3
  | true =>
    obtain ⟨definitions, hdefs, h4⟩ := exec_ask_ok h3
    obtain ⟨entries, hentries, h5⟩ := exec_ask_ok h4
    rwa [refsInEntries_eq, ← Value.entriesOf_eq ((Value.entriesAt_of_field hdefs).trans hentries)] at h5

/-! ## What a walk collects -/

/-- A reference makes a file used: it names the file, or a definition that stands for it. -/
def Uses (definitions : Table String) (ref file : String) : Prop :=
  isInner ref = false ∧ file = ref ∨ isDefinition ref = true ∧ definitions.get? (lastName ref) = some file

/-- What one reference adds. -/
structure Adds (scope : RefScope) (s : RefState) (used : List String) (ref : String) (used' : List String)
    (s' : RefState) : Prop where
  definitions : s'.tables.definitions = s.tables.definitions
  changes : Changes scope s s'
  nodup : used.Nodup → used'.Nodup
  mem : ∀ file, file ∈ used' ↔ file ∈ used ∨ Uses s.tables.definitions ref file
  loaded : isInner ref = false → ∀ v, (exec (scope.resolve (.str ref)) s).1 = .ok v →
    s'.tables.loaded.get? (scope.path ref) = some v

theorem adds_of_addRef (h : exec (addRef (some scope) used ref) s = (.ok used', s')) :
    ∃ text, ref = .str text ∧ Adds scope s used text used' s' := by
  obtain ⟨text, htext, h1⟩ := exec_ask_ok h
  obtain rfl := textOf_eq_ok htext
  refine ⟨text, rfl, ?_⟩
  cases hinner : isInner text with
  | false =>
    rw [hinner] at h1
    rcases hrun : exec (scope.resolve (.str text)) s with ⟨r, s1⟩
    have hattempt : exec (discard (attempt (scope.resolve (.str text)))) s =
        (.ok (), (exec (scope.resolve (.str text)) s).2) := rfl
    rw [hrun] at hattempt
    obtain ⟨_, _, h2, h3⟩ := exec_bind_ok h1
    cases hattempt.symm.trans h2
    cases h3
    have hexternal := hrun
    rw [RefScope.exec_resolve_file (leadsTo_of_outer scope hinner)] at hexternal
    refine ⟨?_, steps_of_exec (resolve_changes scope _ s) hrun, fun h => Text.nodup_add h text, fun file => ?_, ?_⟩
    · rw [← external_keeps_definitions scope text s]
      exact congrArg (·.2.tables.definitions) hexternal.symm
    · rw [Text.mem_add_iff]
      simp [Uses, hinner, Bool.eq_false_iff.mpr fun hd => Bool.false_ne_true (hinner ▸ isInner_of_isDefinition hd)]
    rintro - v hv
    rw [hrun] at hv
    cases hv
    exact loaded_of_exec_external hexternal
  | true =>
    rw [hinner] at h1
    cases hdef : isDefinition text with
    | false =>
      rw [hdef] at h1
      cases h1
      exact ⟨rfl, .refl, id, by simp [Uses, hinner, hdef], by simp [hinner]⟩
    | true =>
      rw [hdef] at h1
      obtain ⟨_, _, htables, h2⟩ := exec_bind_ok h1
      cases htables
      cases hfile : s.tables.definitions.get? (lastName text) with
      | none =>
        rw [hfile] at h2
        cases h2
        exact ⟨rfl, .refl, id, by simp [Uses, hinner, hfile], by simp [hinner]⟩
      | some file =>
        rw [hfile] at h2
        cases h2
        refine ⟨rfl, .refl, fun h => Text.nodup_add h file, fun other => ?_, by simp [hinner]⟩
        simp [Uses, hinner, hdef, hfile, Text.mem_add_iff, eq_comm]

theorem adds_of_foldlM {refs : List Value} (h : exec (refs.foldlM (addRef (some scope)) used) s = (.ok used', s')) :
    s'.tables.definitions = s.tables.definitions ∧ Changes scope s s' ∧ (used.Nodup → used'.Nodup) ∧
      (∀ ref ∈ refs, ∃ text, ref = .str text) ∧
      ∀ file, file ∈ used' ↔ file ∈ used ∨ ∃ text, .str text ∈ refs ∧ Uses s.tables.definitions text file := by
  induction refs generalizing used s with
  | nil =>
    cases h
    exact ⟨rfl, .refl, id, nofun, by simp⟩
  | cons ref rest ih =>
    rw [List.foldlM_cons] at h
    obtain ⟨used1, s1, hfirst, hrest⟩ := exec_bind_ok h
    obtain ⟨text, rfl, hadds⟩ := adds_of_addRef hfirst
    obtain ⟨hdefs, hchanges, hnodup, htexts, hmem⟩ := ih hrest
    refine ⟨hdefs.trans hadds.definitions, hadds.changes.trans hchanges, hnodup ∘ hadds.nodup,
      List.forall_mem_cons.mpr ⟨⟨text, rfl⟩, htexts⟩, fun file => ?_⟩
    rw [hmem, hadds.mem, hadds.definitions, or_assoc]
    simp [or_and_right, exists_or]

/-- What is collected below a schema is each file that a reference there names, itself or through a definition that
stands for it, and no more. The walk records no definition, and what was loaded for a reference stays loaded. -/
theorem usedRefs_exact (h : exec (usedRefs (some scope) schema) s = (.ok used, s')) : used.Nodup ∧
      (∀ file, file ∈ used ↔ ∃ ref, RefBelow schema ref ∧ Uses s.tables.definitions ref file) ∧
      s'.tables.definitions = s.tables.definitions ∧ (∀ ref, RefBelow schema ref ↔ .str ref ∈ refsBelow schema) ∧
      ∀ before ref after, refsBelow schema = before ++ .str ref :: after → isInner ref = false →
        ∃ used1 s1, exec (before.foldlM (addRef (some scope)) []) s = (.ok used1, s1) ∧
          ∀ v, (exec (scope.resolve (.str ref)) s1).1 = .ok v → s'.tables.loaded.get? (scope.path ref) = some v := by
  have hfold := foldlM_of_exec_usedRefs h
  obtain ⟨hdefinitions, -, hnodup, -, hmem⟩ := adds_of_foldlM hfold
  refine ⟨hnodup List.nodup_nil, fun file => ?_, hdefinitions, fun ref => mem_refsBelow_iff.symm, ?_⟩
  · simp [hmem, mem_refsBelow_iff]
  intro before ref after hsplit outer
  rw [hsplit, List.foldlM_append] at hfold
  obtain ⟨used1, s1, hbefore, h1⟩ := exec_bind_ok hfold
  rw [List.foldlM_cons] at h1
  obtain ⟨used2, s2, hstep, hafter⟩ := exec_bind_ok h1
  obtain ⟨text, htext, hadds⟩ := adds_of_addRef hstep
  cases htext
  obtain ⟨-, hchanges, -⟩ := adds_of_foldlM hafter
  refine ⟨used1, s1, hbefore, fun v hv => ?_⟩
  exact keep_of_steps (fun _ _ hc => hc.keeps_loaded) hchanges (hadds.loaded outer v hv)

/-- A list of pets, whose file is there, an owner, whose definition stands for a file, and a missing file. -/
def petShop : RefScope :=
  let link ref := .map [("$ref", .str ref)]
  { files := textFiles [("pets.json", "\x7b\"title\": \"Pet\"\x7d")]
    base := "shop.json"
    root := .map [("properties", .map [("pets", .map [("items", link "pets.json")]),
      ("owner", link "#/definitions/Owner"), ("sign", .map [("oneOf", .list [link "gone.json"])])])] }

theorem usedRefs_exact_petShop : ∃ s', exec (usedRefs (some petShop) petShop.root)
      { tables := { definitions := [("Owner", "people.json")] } } =
        (.ok ["pets.json", "people.json", "gone.json"], s') ∧
    (∃ ref, RefBelow petShop.root ref ∧ Uses [("Owner", "people.json")] ref "people.json") ∧
    s'.tables.definitions = [("Owner", "people.json")] ∧ ∃ v, s'.tables.loaded.get? "pets.json" = some v := by
  have hrun : exec (usedRefs (some petShop) petShop.root) { tables := { definitions := [("Owner", "people.json")] } } =
        (.ok ["pets.json", "people.json", "gone.json"], _) := Prod.ext (by decide +kernel) rfl
  obtain ⟨-, hmem, hdefinitions, -, hloaded⟩ := usedRefs_exact hrun
  obtain ⟨_, _, hnothing, hpets⟩ :=
    hloaded [] "pets.json" [.str "#/definitions/Owner", .str "gone.json"] rfl (by decide)
  cases hnothing
  obtain ⟨v, hv⟩ := Outcome.eq_ok_of_isOk (by decide +kernel : (exec (petShop.resolve (.str "pets.json"))
    { tables := { definitions := [("Owner", "people.json")] } }).1.isOk = true)
  exact ⟨_, hrun, (hmem "people.json").mp (by decide), hdefinitions, v, hpets v hv⟩

end TypeScript

end Typewright
