import Typewright.Proofs.ListedFiles
import Mathlib.Data.Finset.Card

/-!
# Documents that load whole

A document brings those with it that its array properties refer to.
-/

namespace Typewright

variable {k key : String} {ks tops : List String} {f : String → String}

namespace Table

variable {α : Type}

theorem mem_keys_of_get? {t : Table α} {v : α} (h : t.get? k = some v) : k ∈ t.keys :=
  List.mem_map.mpr ⟨_, mem_of_get? h, rfl⟩

theorem get?_of_not_mem_keys {t : Table α} (h : k ∉ t.keys) : t.get? k = none := by
  cases hfound : t.get? k with
  | none => rfl
  | some v => exact absurd (mem_keys_of_get? hfound) h

theorem get?_map_of_mem {g : String → α} (h : k ∈ ks)
    (apart : ∀ l ∈ ks, f l = f k → l = k) : get? (ks.map fun l => (f l, g l)) (f k) = some (g k) := by
  induction ks with
  | nil => cases h
  | cons l rest ih =>
    simp only [List.map_cons, get?]
    split
    · next hl => rw [apart l (.head _) hl]
    · next hl =>
      have hne : k ≠ l := fun heq => hl (congrArg f heq.symm)
      exact ih ((List.mem_cons.mp h).resolve_left hne) fun m hm => apart m (.tail _ hm)

theorem get?_map_of_not_mem {g : String → α}
    (h : ∀ k ∈ ks, f k ≠ key) : get? (ks.map fun l => (f l, g l)) key = none := by
  refine get?_of_not_mem_keys fun hmem => ?_
  unfold keys at hmem
  rw [List.map_map] at hmem
  obtain ⟨k, hk, heq⟩ := List.mem_map.mp hmem
  exact h k hk heq

theorem keys_append (t t' : Table α) : keys (t ++ t') = t.keys ++ keys t' :=
  List.map_append

theorem keys_prefix_put (t : Table α) (k : String) (v : α) : t.keys <+: (t.put k v).keys := by
  by_cases hk : k ∈ t.keys
  · rw [keys_put_of_mem hk]
  · rw [put_of_fresh hk, keys_append]
    exact List.prefix_append _ _

end Table

namespace Reference

open RefM

/-! ## Conditions -/

def readOf (scope : RefScope) (ref : String) : Except Fault Value :=
  (Load.load scope.files .on (scope.path ref)).2

/-- A reference to a file that can be read. -/
structure Available (scope : RefScope) (ref : String) : Prop where
  outer : isInner ref = false
  read : ∃ v, readOf scope ref = .ok v

/-- A document that loads whole: its type has a name, and all files that its array properties refer to can
be read. -/
structure LoadsWhole (scope : RefScope) (ref : String) (v : Value) : Prop where
  named : ∃ name, typeName ref v = .ok name
  listed : ∃ properties, v.entriesAt "properties" = .ok properties ∧
    ∀ p ∈ properties, ∃ item, itemRef p.2 = .ok item
  items : ∀ item ∈ itemRefs v, ∃ w, readOf scope item = .ok w

/-- All documents that can be read load whole, no two of them get in each other's way under a path, and no
definition is only another name for a file. -/
structure Whole (scope : RefScope) : Prop where
  rooted : scope.files.Rooted
  document : ∀ ref v, isInner ref = false → readOf scope ref = .ok v → LoadsWhole scope ref v
  apart : ∀ ref ref', Available scope ref → Available scope ref' →
    scope.path ref = scope.path ref' ∨ scope.path ref = ref' → ref = ref'
  plain : ∀ name file, ¬ NamesFile scope.root name file

variable {scope : RefScope} {s s' : RefState} {ref : String} {v : Value}

/-- The document of the one reference has array properties that refer to the other. -/
def ItemOf (scope : RefScope) (ref item : String) : Prop :=
  ∃ v, readOf scope ref = .ok v ∧ item ∈ itemRefs v

def Beneath (scope : RefScope) : String → String → Prop :=
  Relation.ReflTransGen (ItemOf scope)

/-! ## Clean tables -/

def documentOf (scope : RefScope) (ref : String) : Value :=
  (readOf scope ref).toOption.getD .null

/-- The name of the type that a reference stands for. -/
def nameOf (scope : RefScope) (ref : String) : String :=
  (typeName ref (documentOf scope ref)).toOption.getD ""

theorem documentOf_eq (read : readOf scope ref = .ok v) : documentOf scope ref = v := by
  unfold documentOf
  rw [read]
  rfl

theorem nameOf_eq {name : String} (read : readOf scope ref = .ok v) (named : typeName ref v = .ok name) :
    nameOf scope ref = name := by
  unfold nameOf
  rw [documentOf_eq read, named]
  rfl

def known (s : RefState) : List String :=
  s.tables.refs.keys

/-- A name is that of the type of a known reference, under the reference itself or under its path. -/
def IsTypeUnder (scope : RefScope) (s : RefState) (key name : String) : Prop :=
  ∃ ref ∈ known s, (key = ref ∨ key = scope.path ref) ∧ name = nameOf scope ref

/-- The tables are made of whole documents: each known reference has its path, its document and the name of
its type in them, and there is nothing else. -/
structure Clean (scope : RefScope) (s : RefState) : Prop where
  available : ∀ ref ∈ known s, Available scope ref
  refs : s.tables.refs = (known s).map fun ref => (ref, scope.path ref)
  loaded : s.tables.loaded = (known s).map fun ref => (scope.path ref, documentOf scope ref)
  types : ∀ key name, s.tables.types.get? key = some name ↔ IsTypeUnder scope s key name
  definitions : s.tables.definitions = []
  nodup : (known s).Nodup

theorem clean_empty (scope : RefScope) : Clean scope {} where
  available := nofun
  refs := rfl
  loaded := rfl
  types _ _ := ⟨nofun, nofun⟩
  definitions := rfl
  nodup := List.nodup_nil

theorem Clean.loaded_known (whole : Whole scope) (h : Clean scope s) (read : readOf scope ref = .ok v)
    (there : ref ∈ known s) : s.tables.loaded.get? (scope.path ref) = some v := by
  rw [h.loaded, ← documentOf_eq read]
  exact Table.get?_map_of_mem there fun other hother heq =>
    whole.apart other ref (h.available other hother) (h.available ref there) (.inl heq)

theorem Clean.loaded_unknown (whole : Whole scope) (h : Clean scope s) (available : Available scope ref)
    (fresh : ref ∉ known s) : s.tables.loaded.get? (scope.path ref) = none := by
  rw [h.loaded]
  refine Table.get?_map_of_not_mem fun other hother heq => fresh ?_
  rwa [← whole.apart other ref (h.available other hother) available (.inl heq)]

theorem Clean.loaded_unreadable (h : Clean scope s) {e : Fault} (unread : readOf scope ref = .error e) :
    s.tables.loaded.get? (scope.path ref) = none := by
  rw [h.loaded]
  refine Table.get?_map_of_not_mem fun other hother heq => ?_
  obtain ⟨v, hread⟩ := (h.available other hother).read
  unfold readOf at hread unread
  rw [heq, unread] at hread
  cases hread

theorem Whole.same_key (whole : Whole scope) {ref' : String} (h : Available scope ref)
    (h' : Available scope ref') (hkey : key = ref ∨ key = scope.path ref)
    (hkey' : key = ref' ∨ key = scope.path ref') : ref = ref' := by
  rcases hkey with hkey | hkey <;> rcases hkey' with hkey' | hkey'
  · exact hkey.symm.trans hkey'
  · exact (whole.apart ref' ref h' h (.inr (hkey'.symm.trans hkey))).symm
  · exact whole.apart ref ref' h h' (.inr (hkey.symm.trans hkey'))
  · exact whole.apart ref ref' h h' (.inl (hkey.symm.trans hkey'))

theorem Clean.arrival (whole : Whole scope) (h : Clean scope s) (outer : isInner ref = false)
    (read : readOf scope ref = .ok v) (fresh : ref ∉ known s) :
    Clean scope (withArrival scope ref v s) ∧ known (withArrival scope ref v s) = known s ++ [ref] := by
  have havailable : Available scope ref := ⟨outer, v, read⟩
  obtain ⟨name, hname⟩ := (whole.document ref v outer read).named
  have hrefs : (withArrival scope ref v s).tables.refs = s.tables.refs ++ [(ref, scope.path ref)] :=
    Table.put_of_fresh fresh
  have hloaded : (withArrival scope ref v s).tables.loaded = s.tables.loaded ++ [(scope.path ref, v)] := by
    refine Table.put_of_fresh ?_
    rw [h.loaded]
    unfold Table.keys
    rw [List.map_map]
    intro hmem
    obtain ⟨other, hother, heq⟩ := List.mem_map.mp hmem
    exact fresh (whole.apart other ref (h.available other hother) havailable (.inl heq) ▸ hother)
  have hknown : known (withArrival scope ref v s) = known s ++ [ref] := by
    unfold known
    rw [hrefs, Table.keys_append]
    rfl
  refine ⟨⟨?_, ?_, ?_, ?_, h.definitions, ?_⟩, hknown⟩
  · rw [hknown]
    intro other hother
    rcases List.mem_append.mp hother with hother | hother
    · exact h.available other hother
    · rwa [List.mem_singleton.mp hother]
  · rw [hrefs, hknown, List.map_append, ← h.refs]
    rfl
  · rw [hloaded, hknown, List.map_append, ← h.loaded, List.map_singleton, documentOf_eq read]
  · intro key name'
    have htypes : (withArrival scope ref v s).tables.types =
        (s.tables.types.put (scope.path ref) name).put ref name := typesWith_of_name hname _
    have hother : IsTypeUnder scope (withArrival scope ref v s) key name' ↔
        IsTypeUnder scope s key name' ∨ (key = ref ∨ key = scope.path ref) ∧ name' = name := by
      unfold IsTypeUnder
      simp only [hknown, List.mem_append, List.mem_singleton, or_and_right, exists_or, exists_eq_left,
        nameOf_eq read hname]
    rw [hother, ← h.types, htypes]
    by_cases hkey : key = ref ∨ key = scope.path ref
    -- under its own keys there was nothing before
    · have hold : s.tables.types.get? key = none := by
        cases hfound : s.tables.types.get? key with
        | none => rfl
        | some found =>
          obtain ⟨other, hmem, hunder, -⟩ := (h.types key found).mp hfound
          exact absurd (whole.same_key (h.available other hmem) havailable hunder hkey ▸ hmem) fresh
      have hnew : ((s.tables.types.put (scope.path ref) name).put ref name).get? key = some name := by
        rcases hkey with rfl | rfl
        · exact Table.get?_put_self _ _ _
        · exact typesWith_of_name hname s.tables.types ▸ get?_typesWith_path hname s.tables.types
      rw [hold, hnew]
      simp only [Option.some.injEq, reduceCtorEq, false_or, hkey, true_and]
      exact eq_comm
    · rw [Table.get?_put_of_ne _ _ fun heq => hkey (.inl heq.symm),
        Table.get?_put_of_ne _ _ fun heq => hkey (.inr heq.symm)]
      simp only [hkey, false_and, or_false]
  · rw [hknown]
    refine List.nodup_append.mpr ⟨h.nodup, List.nodup_singleton ref, ?_⟩
    rintro a ha b hb rfl
    exact fresh (List.mem_singleton.mp hb ▸ ha)

/-! ## The search -/

/-- What loading some references leaves, also while other documents wait for their items: all that is new
lies below these references, and the items of what is new are there. -/
structure Reached (scope : RefScope) (tops : List String) (s s' : RefState) : Prop where
  clean : Clean scope s'
  grows : ∀ x ∈ known s, x ∈ known s'
  there : ∀ x ∈ tops, x ∈ known s'
  done : ∀ x ∈ known s', x ∉ known s → ∀ item, ItemOf scope x item → item ∈ known s'
  below : ∀ x ∈ known s', x ∉ known s → ∃ top ∈ tops, Beneath scope top x

theorem Reached.refl (clean : Clean scope s) (h : ∀ x ∈ tops, x ∈ known s) : Reached scope tops s s :=
  ⟨clean, fun _ h => h, h, fun _ h h' => absurd h h', fun _ h h' => absurd h h'⟩

theorem Reached.trans {tops' : List String} {s1 s2 : RefState} (h : Reached scope tops s s1)
    (h' : Reached scope tops' s1 s2) : Reached scope (tops ++ tops') s s2 := by
  refine ⟨h'.clean, fun x hx => h'.grows x (h.grows x hx), fun x hx => ?_, ?_, ?_⟩
  · rcases List.mem_append.mp hx with hx | hx
    · exact h'.grows x (h.there x hx)
    · exact h'.there x hx
  · intro x hx hnew item hitem
    by_cases hearly : x ∈ known s1
    · exact h'.grows item (h.done x hearly hnew item hitem)
    · exact h'.done x hx hearly item hitem
  intro x hx hnew
  by_cases hearly : x ∈ known s1
  · obtain ⟨top, htop, hbelow⟩ := h.below x hearly hnew
    exact ⟨top, List.mem_append_left _ htop, hbelow⟩
  · obtain ⟨top, htop, hbelow⟩ := h'.below x hx hearly
    exact ⟨top, List.mem_append_right _ htop, hbelow⟩

/-- The references of items that are not loaded yet. -/
def left (scope : RefScope) (s : RefState) : Finset String :=
  (itemRefsOfFiles scope.files).toFinset \ (known s).toFinset

theorem left_subset (h : ∀ x ∈ known s, x ∈ known s') : left scope s' ⊆ left scope s := by
  intro x hx
  simp only [left, Finset.mem_sdiff, List.mem_toFinset] at hx ⊢
  exact ⟨hx.1, fun hknown => hx.2 (h x hknown)⟩

theorem card_left_lt {item : String} (listed : item ∈ itemRefsOfFiles scope.files) (fresh : item ∉ known s)
    (h : ∀ x ∈ known s, x ∈ known s') (there : item ∈ known s') : (left scope s').card < (left scope s).card := by
  refine Finset.card_lt_card ⟨left_subset h, fun hsub => ?_⟩
  have hitem : item ∈ left scope s := by
    simp only [left, Finset.mem_sdiff, List.mem_toFinset]
    exact ⟨listed, fresh⟩
  have hgone := hsub hitem
  simp only [left, Finset.mem_sdiff, List.mem_toFinset] at hgone
  exact hgone.2 there

/-- Loading with this much fuel reaches what it should, if fewer items are left than there is fuel. -/
def LoadReaches (scope : RefScope) (fuel : Nat) : Prop :=
  ∀ ref v s, Clean scope s → isInner ref = false → readOf scope ref = .ok v →
    (ref ∉ known s → (left scope (withArrival scope ref v s)).card < fuel) →
    ∃ s', exec (load scope fuel ref) s = (.ok v, s') ∧ Reached scope [ref] s s'

/-- The references to files in array properties. -/
def itemsIn (properties : Entries) : List String :=
  properties.filterMap fun p => (itemRef p.2).toOption.join

theorem itemsIn_cons {p : Scalar × Value} {found : Option String} {rest : Entries} (h : itemRef p.2 = .ok found) :
    itemsIn (p :: rest) = found.toList ++ itemsIn rest := by
  cases found <;> simp [itemsIn, h, Except.toOption]

theorem exec_loadItems_cons (f : String → RefM Value) (p : Scalar × Value) (rest : Entries) (s : RefState) :
    exec (loadItems f (p :: rest)) s =
      match itemRef p.2 with
      | .error e => (.error e, s)
      | .ok none => exec (loadItems f rest) s
      | .ok (some item) =>
        match exec (f item) s with
        | (.ok _, t) => exec (loadItems f rest) t
        | (.error e, t) => (.error e, t) := by
  rw [loadItems, exec_bind, exec_lift]
  rcases itemRef p.2 with e | _ | item
  · rfl
  · rfl
  show exec ((f item >>= fun _ => pure ()) >>= fun _ => loadItems f rest) s = _
  rw [exec_bind, exec_bind]
  dsimp only
  rcases exec (f item) s with ⟨e | v, t⟩ <;> rfl

theorem loadItems_reaches (whole : Whole scope) {fuel : Nat} (hload : LoadReaches scope fuel)
    {properties : Entries} (items : ∀ p ∈ properties, ∃ item, itemRef p.2 = .ok item)
    (readable : ∀ item ∈ itemsIn properties, item ∈ itemRefsOfFiles scope.files ∧ ∃ w, readOf scope item = .ok w)
    (clean : Clean scope s) (enough : (left scope s).card ≤ fuel) :
    ∃ s', exec (loadItems (load scope fuel) properties) s = (.ok (), s') ∧ Reached scope (itemsIn properties) s s' := by
  induction properties generalizing s with
  | nil => exact ⟨s, rfl, .refl clean nofun⟩
  | cons p rest ih =>
    obtain ⟨⟨found, hfound⟩, hitems⟩ := List.forall_mem_cons.mp items
    rw [itemsIn_cons hfound] at readable ⊢
    rw [exec_loadItems_cons, hfound]
    cases found with
    | none => exact ih hitems readable clean enough
    | some item =>
      obtain ⟨⟨hlisted, w, hread⟩, hreadable⟩ := List.forall_mem_cons.mp readable
      have houter := isInner_of_itemRef hfound
      have hfuel : item ∉ known s → (left scope (withArrival scope item w s)).card < fuel := by
        intro hfresh
        obtain ⟨-, hknown⟩ := clean.arrival whole houter hread hfresh
        refine Nat.lt_of_lt_of_le (card_left_lt hlisted hfresh (fun x hx => ?_) ?_) enough
        · rw [hknown]
          exact List.mem_append_left _ hx
        · rw [hknown]
          exact List.mem_append_right _ (List.mem_singleton_self item)
      obtain ⟨s1, hrun, hreached⟩ := hload item w s clean houter hread hfuel
      obtain ⟨s2, hrun', hreached'⟩ := ih hitems hreadable hreached.clean
        (Nat.le_trans (Finset.card_le_card (left_subset hreached.grows)) enough)
      refine ⟨s2, ?_, hreached.trans hreached'⟩
      dsimp only
      rw [hrun]
      exact hrun'

theorem load_reaches (whole : Whole scope) (fuel : Nat) : LoadReaches scope fuel := by
  induction fuel with
  | zero =>
    intro ref v s clean outer read enough
    by_cases hknown : ref ∈ known s
    · exact ⟨s, exec_load_cached 0 (clean.loaded_known whole read hknown),
        .refl clean fun x hx => List.mem_singleton.mp hx ▸ hknown⟩
    · exact absurd (enough hknown) (Nat.not_lt_zero _)
  | succ fuel ih =>
    intro ref v s clean outer read enough
    by_cases hknown : ref ∈ known s
    · exact ⟨s, exec_load_cached _ (clean.loaded_known whole read hknown),
        .refl clean fun x hx => List.mem_singleton.mp hx ▸ hknown⟩
    have hdocument := whole.document ref v outer read
    obtain ⟨name, hname⟩ := hdocument.named
    obtain ⟨properties, hprops, hitems⟩ := hdocument.listed
    obtain ⟨hclean, hafter⟩ := clean.arrival whole outer read hknown
    have hitemRefs : itemRefs v = itemsIn properties := by
      unfold itemRefs
      rw [hprops]
      rfl
    obtain ⟨s', hrun, hreached⟩ := loadItems_reaches whole ih hitems
      (fun item hitem => ⟨mem_itemRefsOfFiles whole.rooted read (hitemRefs ▸ hitem),
        hdocument.items item (hitemRefs ▸ hitem)⟩) hclean (Nat.le_of_lt_succ (enough hknown))
    refine ⟨s', ?_, ?_⟩
    · have hfresh := clean.loaded_unknown whole ⟨outer, v, read⟩ hknown
      rw [exec_load_read fuel hfresh read, exec_register, hname]
      dsimp only
      rw [exec_bind, exec_lift, hprops]
      dsimp only
      rw [hrun]
    -- the document itself is new as well, and its items are the ones that were loaded
    · have hstart : ∀ x ∈ known s, x ∈ known (withArrival scope ref v s) := by
        rw [hafter]
        exact fun x hx => List.mem_append_left _ hx
      have hold : ∀ x, x ∉ known s → x ≠ ref → x ∉ known (withArrival scope ref v s) := by
        intro x hx hne
        rw [hafter]
        intro hmem
        rcases List.mem_append.mp hmem with hmem | hmem
        · exact hx hmem
        · exact hne (List.mem_singleton.mp hmem)
      have hthere : ref ∈ known s' := by
        refine hreached.grows ref ?_
        rw [hafter]
        exact List.mem_append_right _ (List.mem_singleton_self ref)
      refine ⟨hreached.clean, fun x hx => hreached.grows x (hstart x hx),
        fun x hx => List.mem_singleton.mp hx ▸ hthere, ?_, ?_⟩
      · intro x hx hnew item hitem
        by_cases heq : x = ref
        · subst heq
          obtain ⟨w, hw, hmem⟩ := hitem
          cases read.symm.trans hw
          exact hreached.there item (hitemRefs ▸ hmem)
        · exact hreached.done x hx (hold x hnew heq) item hitem
      · intro x hx hnew
        refine ⟨ref, List.mem_singleton_self ref, ?_⟩
        by_cases heq : x = ref
        · subst heq
          exact .refl
        · obtain ⟨top, htop, hbelow⟩ := hreached.below x hx (hold x hnew heq)
          exact .head ⟨v, read, hitemRefs ▸ htop⟩ hbelow

/-! ## Resolving -/

/-- Clean tables in which nothing waits: the items of known documents are known. -/
structure Good (scope : RefScope) (s : RefState) : Prop where
  clean : Clean scope s
  closed : ∀ ref ∈ known s, ∀ item, ItemOf scope ref item → item ∈ known s

theorem good_empty (scope : RefScope) : Good scope {} :=
  ⟨clean_empty scope, nofun⟩

theorem Good.report (h : Good scope s) (lines : List String) : Good scope { s with log := s.log ++ lines } :=
  ⟨⟨h.clean.available, h.clean.refs, h.clean.loaded, h.clean.types, h.clean.definitions, h.clean.nodup⟩,
    h.closed⟩

theorem Good.below (h : Good scope s) {x : String} (there : ref ∈ known s) (hx : Beneath scope ref x) :
    x ∈ known s := by
  induction hx with
  | refl => exact there
  | tail _ hitem ih => exact h.closed _ ih _ hitem

theorem exec_external_available (whole : Whole scope) (good : Good scope s) (outer : isInner ref = false)
    (read : readOf scope ref = .ok v) : ∃ s', exec (external scope ref) s = (.ok v, s') ∧ Good scope s' ∧
      ∀ x, x ∈ known s' ↔ x ∈ known s ∨ Beneath scope ref x := by
  by_cases hknown : ref ∈ known s
  · refine ⟨s, exec_external_cached (good.clean.loaded_known whole read hknown), good, fun x => ?_⟩
    exact ⟨.inl, fun h => h.elim id (good.below hknown)⟩
  have henough : (left scope (withArrival scope ref v s)).card < (itemRefsOfFiles scope.files).length + 1 :=
    Nat.lt_succ_of_le (Nat.le_trans (Finset.card_le_card Finset.sdiff_subset)
      (List.toFinset_card_le (itemRefsOfFiles scope.files)))
  obtain ⟨s', hrun, hreached⟩ := load_reaches whole _ ref v s good.clean outer read fun _ => henough
  have hgood : Good scope s' := by
    refine ⟨hreached.clean, fun x hx item hitem => ?_⟩
    by_cases hold : x ∈ known s
    · exact hreached.grows item (good.closed x hold item hitem)
    · exact hreached.done x hx hold item hitem
  refine ⟨s', ?_, hgood, fun x => ⟨fun hx => ?_, fun hx => ?_⟩⟩
  · rw [exec_external_fresh (good.clean.loaded_unknown whole ⟨outer, v, read⟩ hknown)]
    exact hrun
  · by_cases hold : x ∈ known s
    · exact .inl hold
    · obtain ⟨top, htop, hbelow⟩ := hreached.below x hx hold
      exact .inr (List.mem_singleton.mp htop ▸ hbelow)
  · exact hx.elim (hreached.grows x) (hgood.below (hreached.there ref (List.mem_singleton_self ref)))

/-- What a reference comes to. -/
def outcomeOf (scope : RefScope) (ref : Value) : Except Fault Value :=
  match scope.leadsTo ref with
  | .error e => .error e
  | .ok (.definition v) => .ok v
  | .ok (.file _ file) => (readOf scope file).mapError (loadFailure (scope.path file))

/-- What resolving a reference makes known. -/
def Brings (scope : RefScope) (ref : Value) (x : String) : Prop :=
  ∃ via file v, scope.leadsTo ref = .ok (.file via file) ∧ readOf scope file = .ok v ∧ Beneath scope file x

theorem exec_resolve_whole (whole : Whole scope) (good : Good scope s) (ref : Value) :
    ∃ s', exec (scope.resolve ref) s = (outcomeOf scope ref, s') ∧ Good scope s' ∧
      ∀ x, x ∈ known s' ↔ x ∈ known s ∨ Brings scope ref x := by
  have hnothing : (∀ via file v, scope.leadsTo ref = .ok (.file via file) → readOf scope file ≠ .ok v) →
      ∀ x, x ∈ known s ↔ x ∈ known s ∨ Brings scope ref x := by
    intro hnone x
    exact ⟨.inl, fun h => h.elim id fun ⟨via, file, v, hlead, hread, _⟩ =>
      absurd hread (hnone via file v hlead)⟩
  unfold outcomeOf
  cases hlead : scope.leadsTo ref with
  | error e =>
    refine ⟨s, RefScope.exec_resolve_error hlead s, good, hnothing fun via file v h => ?_⟩
    cases hlead.symm.trans h
  | ok d =>
    cases d with
    | definition w =>
      refine ⟨s, RefScope.exec_resolve_definition hlead s, good, hnothing fun via file v h => ?_⟩
      cases hlead.symm.trans h
    | file via file =>
      obtain ⟨houter, hnames⟩ := RefScope.leadsTo_file hlead
      -- no definition is on the way, so nothing is recorded before the file is looked for
      obtain rfl : via = none := by
        cases via with
        | none => rfl
        | some name => exact absurd (hnames name rfl) (whole.plain name file)
      rw [RefScope.exec_resolve_file hlead]
      dsimp only [record]
      cases hread : readOf scope file with
      | error e =>
        refine ⟨_, exec_external_unread (good.clean.loaded_unreadable hread) hread, good.report _, ?_⟩
        refine hnothing fun via' file' v h hread' => ?_
        cases hlead.symm.trans h
        cases hread.symm.trans hread'
      | ok v =>
        obtain ⟨s', hrun, hgood, hknown⟩ := exec_external_available whole good houter hread
        refine ⟨s', hrun, hgood, fun x => (hknown x).trans (or_congr_right ⟨fun hx => ?_, ?_⟩)⟩
        · exact ⟨none, file, v, hlead, hread, hx⟩
        · rintro ⟨via', file', v', h, -, hx⟩
          cases hlead.symm.trans h
          exact hx

/-! ## Work that follows references -/

theorem Turn.keeps_good (whole : Whole scope) (h : Turn scope s s') (good : Good scope s) : Good scope s' := by
  cases h with
  | report lines => exact good.report lines
  | resolve ref =>
    obtain ⟨t, hrun, hgood, -⟩ := exec_resolve_whole whole good ref
    rw [hrun]
    exact hgood

theorem Arrival.known_grows (h : Arrival scope s s') : known s <+: known s' := by
  cases h with
  | report lines => exact List.prefix_rfl
  | document => exact Table.keys_prefix_put _ _ _
  | definition => exact List.prefix_rfl

theorem Turn.known_grows (h : Turn scope s s') : known s <+: known s' := by
  cases h with
  | report lines => exact List.prefix_rfl
  | resolve ref =>
    exact keep_of_steps (P := fun t => known s <+: known t)
      (fun _ _ arrival hstart => hstart.trans arrival.known_grows) (resolve_arrives scope ref s)
      List.prefix_rfl

theorem known_grows_of_follows {α : Type} {P : Fault → Prop} {work : RefM α} (h : Follows (some scope) P work)
    (s : RefState) : known s <+: known (exec work s).2 :=
  keep_of_steps (P := fun t => known s <+: known t)
    (fun _ _ turn hstart => hstart.trans turn.known_grows) (h.turns scope rfl s) List.prefix_rfl

end Reference

end Typewright
