import Mathlib.Data.List.Dedup
import Typewright.Proofs.WholeDocuments

/-!
# Loading ends

Documents may refer to each other in circles. Loading them ends all the same, since a document is in the tables before
the files are loaded that its array properties refer to.
-/

namespace Typewright.Reference

open RefM

variable {scope : RefScope} {s s' : RefState} {ref item : String} {v : Value} {properties : Entries}
  {fuel fuel' : Nat} {items : List String}

/-! ## What is waiting -/

/-- The references of array items, in all files, whose documents are not loaded. -/
def waiting (scope : RefScope) (s : RefState) : Finset String :=
  (itemRefsOfFiles scope.files).toFinset.filter fun item => s.tables.loaded.get? (scope.path item) = none

theorem mem_waiting : item ∈ waiting scope s ↔
    item ∈ itemRefsOfFiles scope.files ∧ s.tables.loaded.get? (scope.path item) = none := by
  rw [waiting, Finset.mem_filter, List.mem_toFinset]

theorem keeps_loaded_of_steps {p : String} (h : Relation.ReflTransGen (Step scope) s s')
    (found : s.tables.loaded.get? p = some v) : s'.tables.loaded.get? p = some v := by
  induction h with
  | refl => exact found
  | tail _ step ih => exact step.keeps_loaded ih

theorem fresh_of_steps {p : String} (h : Relation.ReflTransGen (Step scope) s s')
    (fresh : s'.tables.loaded.get? p = none) : s.tables.loaded.get? p = none := by
  cases hfound : s.tables.loaded.get? p with
  | none => rfl
  | some v => cases fresh.symm.trans (keeps_loaded_of_steps h hfound)

theorem waiting_subset (h : Relation.ReflTransGen (Step scope) s s') : waiting scope s' ⊆ waiting scope s := by
  intro item hitem
  obtain ⟨listed, fresh⟩ := mem_waiting.mp hitem
  exact mem_waiting.mpr ⟨listed, fresh_of_steps h fresh⟩

theorem card_waiting_lt (listed : item ∈ itemRefsOfFiles scope.files) (outer : isInner item = false)
    (fresh : s.tables.loaded.get? (scope.path item) = none) (read : readOf scope item = .ok v) :
    (waiting scope (withDocument scope item v s)).card < (waiting scope s).card := by
  refine Finset.card_lt_card ⟨waiting_subset (.single (.document s outer fresh read)), fun hsub => ?_⟩
  obtain ⟨-, hgone⟩ := mem_waiting.mp (hsub (mem_waiting.mpr ⟨listed, fresh⟩))
  cases hgone.symm.trans (noted_withDocument scope item v s).2

/-! ## Fuel -/

/-- There is fuel for a file, if it has to be loaded, and for all that waits behind it. -/
def Enough (scope : RefScope) (fuel : Nat) (ref : String) (s : RefState) : Prop :=
  s.tables.loaded.get? (scope.path ref) = none → 0 < fuel ∧
    ∀ v, readOf scope ref = .ok v → (waiting scope (withDocument scope ref v s)).card < fuel

theorem exec_loadItems_eq {f g : String → RefM Value} {P : RefState → Prop}
    (same : ∀ item ∈ itemsIn properties, isInner item = false → ∀ s, P s →
      exec (f item) s = exec (g item) s ∧ P (exec (f item) s).2) (hs : P s) :
    exec (loadItems f properties) s = exec (loadItems g properties) s := by
  induction properties generalizing s with
  | nil => rfl
  | cons p rest ih =>
    rw [exec_loadItems_cons, exec_loadItems_cons]
    rcases hitem : itemRef p.2 with e | _ | item
    · rfl
    · rw [itemsIn_cons hitem] at same
      exact ih same hs
    rw [itemsIn_cons hitem] at same
    obtain ⟨hfirst, hrest⟩ := List.forall_mem_cons.mp same
    obtain ⟨hsame, hkept⟩ := hfirst (isInner_of_itemRef hitem) s hs
    dsimp only
    rw [← hsame]
    rcases hrun : exec (f item) s with ⟨e | w, t⟩
    · rfl
    · rw [hrun] at hkept
      exact ih hrest hkept

theorem mem_itemRefsOfFiles_of_entries (rooted : scope.files.Rooted) (read : readOf scope ref = .ok v)
    (hprops : v.entriesAt "properties" = .ok properties) (h : item ∈ itemsIn properties) :
    item ∈ itemRefsOfFiles scope.files := by
  refine mem_itemRefsOfFiles rooted read ?_
  unfold itemRefs
  rw [hprops]
  exact h

theorem exec_items_eq (rooted : scope.files.Rooted) (read : readOf scope ref = .ok v)
    (hprops : v.entriesAt "properties" = .ok properties) {f g : String → RefM Value} {n : Nat}
    (same : ∀ item s, isInner item = false → Enough scope n item s →
      exec (f item) s = exec (g item) s ∧ Relation.ReflTransGen (Step scope) s (exec (f item) s).2)
    (hs : (waiting scope s).card ≤ n) : exec (loadItems f properties) s = exec (loadItems g properties) s := by
  refine exec_loadItems_eq (P := fun s => (waiting scope s).card ≤ n) (fun item hitem outer s hs => ?_) hs
  have hlisted := mem_itemRefsOfFiles_of_entries rooted read hprops hitem
  have henough : Enough scope n item s := fun fresh =>
    ⟨Nat.lt_of_lt_of_le (Finset.card_pos.mpr ⟨item, mem_waiting.mpr ⟨hlisted, fresh⟩⟩) hs,
      fun v read => Nat.lt_of_lt_of_le (card_waiting_lt hlisted outer fresh read) hs⟩
  obtain ⟨hsame, hsteps⟩ := same item s outer henough
  exact ⟨hsame, Nat.le_trans (Finset.card_le_card (waiting_subset hsteps)) hs⟩

/-- Fuel beyond what is waiting makes no difference. -/
theorem exec_load_eq (rooted : scope.files.Rooted) (outer : isInner ref = false) (enough : Enough scope fuel ref s)
    (more : fuel ≤ fuel') : exec (load scope fuel ref) s = exec (load scope fuel' ref) s := by
  -- each step down takes one unit of fuel and one reference from those that wait
  induction fuel generalizing fuel' ref s with
  | zero =>
    cases hfound : s.tables.loaded.get? (scope.path ref) with
    | some v => rw [exec_load_cached _ hfound, exec_load_cached _ hfound]
    | none => exact absurd (enough hfound).1 (Nat.lt_irrefl 0)
  | succ fuel ih =>
    obtain ⟨fuel', rfl⟩ := Nat.exists_eq_add_of_le' (Nat.le_trans (Nat.le_add_left 1 fuel) more)
    cases hfound : s.tables.loaded.get? (scope.path ref)
    case some v => rw [exec_load_cached _ hfound, exec_load_cached _ hfound]
    cases hread : readOf scope ref with
    | error e => rw [exec_load_unread _ hfound hread, exec_load_unread _ hfound hread]
    | ok v =>
      have hregister : exec (register scope fuel ref v) (withDocument scope ref v s) =
          exec (register scope fuel' ref v) (withDocument scope ref v s) := by
        rw [exec_register, exec_register]
        cases typeName ref v with
        | error e => rfl
        | ok name =>
          dsimp only
          rw [exec_bind, exec_bind, exec_lift]
          cases hprops : v.entriesAt "properties" with
          | error e => rfl
          | ok properties =>
            refine exec_items_eq rooted hread hprops (n := fuel) (fun item s outer enough => ?_)
              (Nat.le_of_lt_succ ((enough hfound).2 v hread))
            exact ⟨ih outer enough (Nat.le_of_succ_le_succ more), load_makes scope fuel item s outer⟩
      rw [exec_load_read _ hfound hread, exec_load_read _ hfound hread, hregister]

/-- How many references to files the array items of all documents have. -/
def itemRefCount (scope : RefScope) : Nat :=
  (itemRefsOfFiles scope.files).dedup.length

theorem card_waiting_le (scope : RefScope) (s : RefState) : (waiting scope s).card ≤ itemRefCount scope := by
  rw [itemRefCount, ← List.card_toFinset]
  exact Finset.card_filter_le _ _

theorem itemRefCount_le (scope : RefScope) : itemRefCount scope ≤ (itemRefsOfFiles scope.files).length :=
  (List.dedup_sublist _).length_le

theorem enough_of_lt (h : itemRefCount scope < fuel) : Enough scope fuel ref s := fun _ =>
  ⟨Nat.zero_lt_of_lt h, fun _ _ => Nat.lt_of_le_of_lt (card_waiting_le scope _) h⟩

theorem exec_external_eq (rooted : scope.files.Rooted) (outer : isInner ref = false)
    (enough : Enough scope fuel ref s) (le : fuel ≤ (itemRefsOfFiles scope.files).length + 1) :
    exec (load scope fuel ref) s = exec (external scope ref) s := by
  cases hfound : s.tables.loaded.get? (scope.path ref) with
  | some v => rw [exec_load_cached _ hfound, exec_external_cached hfound]
  | none => rw [exec_external_fresh hfound, exec_load_eq rooted outer enough le]

/-! ## Files that are being loaded -/

/-- What a file comes to whose items were gone over. -/
def afterItems (path : String) (v : Value) : Except Fault Unit × RefState → Except Fault Value × RefState
  | (.ok (), s) => (.ok v, s)
  | (.error e, s) => (.error (loadFailure path e), s)

theorem exec_external_items (rooted : scope.files.Rooted) {name : String}
    (fresh : s.tables.loaded.get? (scope.path ref) = none) (read : readOf scope ref = .ok v)
    (named : typeName ref v = .ok name) (listed : v.entriesAt "properties" = .ok properties) :
    exec (external scope ref) s = afterItems (scope.path ref) v
      (exec (loadItems (external scope) properties) (withArrival scope ref v s)) := by
  have hitems : exec (loadItems (load scope (itemRefsOfFiles scope.files).length) properties)
      (withArrival scope ref v s) = exec (loadItems (external scope) properties) (withArrival scope ref v s) := by
    refine exec_items_eq rooted read listed (fun item s outer enough => ?_)
      (Nat.le_trans (card_waiting_le scope _) (itemRefCount_le scope))
    exact ⟨exec_external_eq rooted outer enough (Nat.le_succ _), load_makes scope _ item s outer⟩
  rw [exec_external_fresh fresh, exec_load_read _ fresh read, exec_register, named]
  dsimp only
  rw [exec_bind, exec_lift, listed]
  dsimp only
  rw [hitems]
  rcases exec (loadItems (external scope) properties) (withArrival scope ref v s) with ⟨e | u, s'⟩ <;> rfl

/-- While a reference is followed, these files are being loaded below its own at one moment: each for an
item of the one before it, whose earlier items are loaded. -/
inductive Opens (scope : RefScope) : RefState → String → List String → Prop
  | here {s : RefState} {ref : String} (fresh : s.tables.loaded.get? (scope.path ref) = none) :
    Opens scope s ref []
  | nested {s s' : RefState} {ref name item : String} {v property : Value} {before after : Entries} {key : Scalar}
    {items : List String} (fresh : s.tables.loaded.get? (scope.path ref) = none)
    (read : readOf scope ref = .ok v) (named : typeName ref v = .ok name)
    (listed : v.entriesAt "properties" = .ok (before ++ (key, property) :: after))
    (loaded : exec (loadItems (external scope) before) (withArrival scope ref v s) = (.ok (), s'))
    (refers : itemRef property = .ok (some item)) (inner : Opens scope s' item items) :
    Opens scope s ref (item :: items)

theorem Opens.apart (rooted : scope.files.Rooted) (outer : isInner ref = false) (h : Opens scope s ref items) :
    (∀ r ∈ ref :: items, s.tables.loaded.get? (scope.path r) = none) ∧
      ((ref :: items).map scope.path).Nodup ∧ ∀ r ∈ items, r ∈ itemRefsOfFiles scope.files := by
  induction h with
  | here fresh => exact ⟨List.forall_mem_singleton.mpr fresh, List.nodup_singleton _, nofun⟩
  | @nested s s' ref name item v property before after key items fresh read named listed loaded refers _ ih =>
    obtain ⟨hfresh, hnodup, hitems⟩ := ih (isInner_of_itemRef refers)
    have hbefore : Relation.ReflTransGen (Step scope) (withArrival scope ref v s) s' :=
      steps_of_exec (loadItems_makes (fun ref s => external_makes scope ref s) before _) loaded
    have hearly : ∀ r ∈ item :: items, (withArrival scope ref v s).tables.loaded.get? (scope.path r) = none :=
      fun r hr => fresh_of_steps hbefore (hfresh r hr)
    refine ⟨List.forall_mem_cons.mpr ⟨fresh, fun r hr => ?_⟩, List.nodup_cons.mpr ⟨fun hmem => ?_, hnodup⟩,
      List.forall_mem_cons.mpr ⟨?_, hitems⟩⟩
    · exact fresh_of_steps (.single (.document s outer fresh read)) (hearly r hr)
    · obtain ⟨r, hr, hpath⟩ := List.mem_map.mp hmem
      have hthere := (noted_withDocument scope ref v s).2
      rw [← hpath] at hthere
      cases (hearly r hr).symm.trans hthere
    · refine mem_itemRefsOfFiles_of_entries rooted read listed (List.mem_filterMap.mpr ⟨(key, property), ?_, ?_⟩)
      · exact List.mem_append_right _ (.head _)
      · rw [refers]
        rfl

/-- Loading a file ends, whatever is loaded already: beyond the number of references that array items have to
files, fuel makes no difference. The files that are being loaded at one moment have different paths, so that
they are no more than one and those references. -/
theorem loads_end {scope : RefScope} {ref : String} (rooted : scope.files.Rooted) (outer : isInner ref = false)
    (s : RefState) :
    (∀ fuel, itemRefCount scope < fuel → exec (load scope fuel ref) s = exec (scope.resolve (.str ref)) s) ∧
    (∀ v name properties, s.tables.loaded.get? (scope.path ref) = none → readOf scope ref = .ok v →
      typeName ref v = .ok name → v.entriesAt "properties" = .ok properties →
      exec (scope.resolve (.str ref)) s = afterItems (scope.path ref) v
        (exec (loadItems (external scope) properties) (withArrival scope ref v s))) ∧ ∀ items, Opens scope s ref items →
      ((ref :: items).map scope.path).Nodup ∧ (ref :: items).length ≤ itemRefCount scope + 1 := by
  have hresolve : exec (scope.resolve (.str ref)) s = exec (external scope ref) s :=
    RefScope.exec_resolve_file (leadsTo_of_outer scope outer) s
  refine ⟨fun fuel hfuel => ?_, fun v name properties fresh read named listed => ?_, fun items hopens => ?_⟩
  · have henough : Enough scope (itemRefCount scope + 1) ref s := enough_of_lt (Nat.lt_succ_self _)
    rw [hresolve, ← exec_load_eq rooted outer henough hfuel]
    exact exec_external_eq rooted outer henough (Nat.succ_le_succ (itemRefCount_le scope))
  · rw [hresolve, exec_external_items rooted fresh read named listed]
  obtain ⟨-, hnodup, hlisted⟩ := hopens.apart rooted outer
  refine ⟨hnodup, Nat.succ_le_succ ?_⟩
  have hitems : items.Nodup := (List.nodup_cons.mp (List.Nodup.of_map _ hnodup)).2
  exact (hitems.subperm fun r hr => List.mem_dedup.mpr (hlisted r hr)).length_le

def ring : RefScope :=
  let text ref := "\x7b\"properties\": \x7b\"xs\": \x7b\"type\": \"array\", " ++
    "\"items\": \x7b\"$ref\": \"" ++ ref ++ "\"\x7d\x7d\x7d\x7d"
  { files := textFiles [("a.json", text "b.json"), ("b.json", text "a.json")], base := "s.json", root := .map [] }

theorem loads_end_ring : ring.files.Rooted ∧ Opens ring {} "a.json" ["b.json"] ∧
    (["a.json", "b.json"].map ring.path).Nodup ∧ itemRefCount ring = 2 ∧
    exec (load ring 3 "a.json") {} = exec (ring.resolve (.str "a.json")) {} := by
  have hrooted : ring.files.Rooted := by
    refine FileTree.rooted_of_entries (fun x hx => ?_) rfl nofun
    obtain ⟨f, -, rfl⟩ := List.mem_map.mp hx
    rfl
  have hread : (readOf ring "a.json").toOption = some (.map [(.str "properties", .map [(.str "xs", .map
      [(.str "type", .str "array"), (.str "items", .map [(.str "$ref", .str "b.json")])])])]) := by
    decide +kernel
  have hopens : Opens ring {} "a.json" ["b.json"] := by
    rcases hv : readOf ring "a.json" with e | v
    · rw [hv] at hread
      cases hread
    · cases hread.symm.trans (congrArg Except.toOption hv)
      exact .nested rfl hv rfl (show _ = Except.ok ([] ++ (_, _) :: []) from rfl) rfl rfl (.here (by decide +kernel))
  have hcount : itemRefCount ring = 2 := by decide +kernel
  obtain ⟨hfuel, -, hstack⟩ := loads_end hrooted (by decide : isInner "a.json" = false) {}
  exact ⟨hrooted, hopens, (hstack _ hopens).1, hcount, hfuel 3 (by rw [hcount]; decide)⟩

end Typewright.Reference
