import Typewright.Proofs.Arrivals
import Typewright.Proofs.Paths
import Typewright.Proofs.TypeNames
import Typewright.Proofs.UnreadableFiles

/-!
# What is known between calls

A reference is noted under an assumed name, and the name of its document takes the place of that once the document is
read: in the midst of a call the assumed name may still stand there, but between calls it does not.
-/

namespace Typewright

open RefM

variable {s s' : RefState} {v : Value} {ref name type : String}

namespace Reference

/-- A reference that is spelt like the path leads there. -/
def Alone (scope : RefScope) (t : Tables) (path : String) : Prop :=
  path ∈ t.refs.keys → scope.path path = path

/-- The name under a path is that of another document, since a reference to that one is spelt like the path. -/
structure Overwritten (scope : RefScope) (t : Tables) (path : String) : Prop where
  elsewhere : scope.path path ≠ path
  noted : (path, scope.path path) ∈ t.refs
  name : ∃ w other, t.loaded.get? (scope.path path) = some w ∧ typeName path w = .ok other ∧
    t.types.get? path = some other

/-- Each document that was read has its own name in the table of types, unless that was overwritten. -/
def Labelled (scope : RefScope) (t : Tables) : Prop :=
  ∀ path v name, t.loaded.get? path = some v → typeName path v = .ok name →
    t.types.get? path = some name ∨ Overwritten scope t path

theorem typeName_path (scope : RefScope) (ref : String) (v : Value) : typeName (scope.path ref) v = typeName ref v := by
  unfold typeName RefScope.path
  rw [Path.stem_join]

theorem typeName_of_title (ref : String) {title : String} (h : v.title = .ok title)
    (ne : title ≠ "") : typeName ref v = .ok title := by
  obtain ⟨raw, hraw, hblanks⟩ := bind_ok h
  rcases Value.field_of_fieldD hraw with hfield | rfl
  · unfold typeName
    rw [Value.has_of_field hfield, hfield]
    exact hblanks
  · cases hblanks
    exact absurd rfl ne

variable {scope : RefScope} {t : Tables} {path : String}

theorem Overwritten.not_alone (h : Overwritten scope t path) : ¬ Alone scope t path :=
  fun alone => h.elsewhere (alone (List.mem_map_of_mem h.noted))

theorem Labelled.own (h : Labelled scope t) (hloaded : t.loaded.get? path = some v)
    (alone : Alone scope t path) (hname : typeName path v = .ok name) : t.types.get? path = some name :=
  (h path v name hloaded hname).resolve_right fun overwritten => overwritten.not_alone alone

theorem Overwritten.keep {t' : Tables} (h : Overwritten scope t path)
    (noted : (path, scope.path path) ∈ t.refs → (path, scope.path path) ∈ t'.refs)
    (loaded : ∀ p w, t.loaded.get? p = some w → t'.loaded.get? p = some w)
    (types : t'.types.get? path = t.types.get? path) : Overwritten scope t' path := by
  obtain ⟨w, other, hloaded, hname, htype⟩ := h.name
  exact ⟨h.elsewhere, noted h.noted, w, other, loaded _ w hloaded, hname, types.trans htype⟩

theorem Labelled.document (hs : Labelled scope s.tables) (fresh : s.tables.loaded.get? (scope.path ref) = none) :
    Labelled scope (withArrival scope ref v s).tables := by
  intro path w name hloaded hname
  by_cases hpath : path = scope.path ref
  · subst hpath
    cases hloaded.symm.trans (Table.get?_put_self _ _ _)
    exact .inl (get?_typesWith_path ((typeName_path scope ref v).symm.trans hname) _)
  have hold : s.tables.loaded.get? path = some w := (Table.get?_put_of_ne _ _ (Ne.symm hpath)).symm.trans hloaded
  have hnoted : (path, scope.path path) ∈ s.tables.refs →
      (path, scope.path path) ∈ s.tables.refs.put ref (scope.path ref) :=
    fun h => Table.mem_put_of_mem h fun heq => by rw [heq]
  have hkeep : (typesWith scope ref v s.tables.types).get? path = s.tables.types.get? path →
      (withArrival scope ref v s).tables.types.get? path = some name ∨
        Overwritten scope (withArrival scope ref v s).tables path := by
    intro htypes
    refine (hs path w name hold hname).imp htypes.trans fun h => h.keep hnoted ?_ htypes
    exact fun p u hp => Table.get?_put_of_fresh fresh hp
  by_cases href : path = ref
  · -- the reference to the new document is spelt like the path of the old one
    subst href
    cases hother : typeName path v with
    | error e => exact hkeep (by rw [typesWith_of_error hother])
    | ok other =>
      exact .inr ⟨Ne.symm hpath, Table.mem_put_self _ _ _, v, other, Table.get?_put_self _ _ _, hother,
        get?_typesWith_ref hother _⟩
  · exact hkeep (get?_typesWith_of_ne v _ hpath href)

def KeepsNames (scope : RefScope) (s s' : RefState) : Prop :=
  Labelled scope s.tables → Labelled scope s'.tables

theorem Arrival.keepsNames (h : Arrival scope s s') : KeepsNames scope s s' := by
  intro hs
  cases h with
  | report lines => exact hs
  | document outer fresh read => exact hs.document fresh
  | definition names =>
    exact fun path v name hloaded hname => (hs path v name hloaded hname).imp id fun h =>
      h.keep id (fun _ _ => id) rfl

theorem resolve_keepsNames (scope : RefScope) (ref : Value) (s : RefState) :
    Makes (KeepsNames scope) (scope.resolve ref) s :=
  makes_mono (fun _ _ => Arrival.keepsNames) (resolve_arrives scope ref s)

/-- Noting a reference keeps the names of documents, as it adds a name only where there is none. -/
theorem note_keepsNames (scope : RefScope) (ref : Value) (s : RefState) :
    Makes (KeepsNames scope) (scope.note ref) s := by
  refine makes_bind (makes_lift _) fun text s1 _ => ?_
  split
  · exact makes_pure ()
  refine makes_bind (makes_update ?_) fun _ s2 _ => ?_
  · intro hs path v name hloaded hname
    exact (hs path v name hloaded hname).imp id fun h =>
      h.keep (fun hmem => Table.mem_put_of_mem hmem fun heq => by rw [heq]) (fun _ _ => id) rfl
  refine makes_bind makes_tables fun t s3 h3 => ?_
  cases h3
  split
  · next hunknown =>
    refine makes_update fun hs path v name hloaded hname => ?_
    have hput : ∀ {other}, s2.tables.types.get? path = some other →
        (s2.tables.types.put (scope.path text) (assumedName text)).get? path =
          s2.tables.types.get? path := by
      intro other hknown
      refine Table.get?_put_of_ne _ _ ?_
      rintro rfl
      rw [Table.has, hknown] at hunknown
      cases hunknown
    rcases hs path v name hloaded hname with hknown | hover
    · exact .inl ((hput hknown).trans hknown)
    · obtain ⟨w, other, _, _, hknown⟩ := hover.name
      exact .inr (hover.keep id (fun _ _ => id) (hput hknown))
  · exact makes_pure ()

/-! ## At rest -/

/-- What holds of the tables between calls. -/
structure AtRest (scope : RefScope) (t : Tables) : Prop where
  sound : Sound scope t
  stand : TypesStand scope t
  complete : ReadComplete scope t
  labelled : Labelled scope t

theorem Turn.atRest (h : Turn scope s s') (hs : AtRest scope s.tables) : AtRest scope s'.tables where
  sound := keep_of_steps (P := fun s => Sound scope s.tables) (fun _ _ h => h.sound) h.steps hs.sound
  stand := keep_of_steps (P := fun s => TypesStand scope s.tables)
    (fun _ _ h => (Change.resolving h).typesStand) h.steps hs.stand
  complete := keep_of_steps (P := fun s => ReadComplete scope s.tables) (fun _ _ h => h.keeps_complete)
    h.steps hs.complete
  labelled := by
    cases h with
    | report lines => exact hs.labelled
    | resolve ref =>
      exact keep_of_steps (P := fun s => Labelled scope s.tables) (fun _ _ h => h)
        (resolve_keepsNames scope ref s) hs.labelled

theorem atRest_prepare (scope : RefScope) (schema : Value) :
    AtRest scope (exec (prepare scope schema) {}).2.tables where
  sound := sound_of_changes (prepareFrom_changes scope nestingLimit schema {}) (sound_empty scope)
  stand := typesStand_of_changes (prepareFrom_changes scope nestingLimit schema {}) (typesStand_empty scope)
  complete := prepare_readComplete scope schema
  labelled := by
    have hcalls : CallsMake (KeepsNames scope) scope := ⟨fun _ _ => id, note_keepsNames scope, resolve_keepsNames scope⟩
    exact keep_of_steps (P := fun s => Labelled scope s.tables) (fun _ _ h => h)
      (prepareFrom_makes (prepareEntry_makes hcalls) nestingLimit schema {}) nofun

theorem AtRest.type_of_read (h : AtRest scope t) (noted : ∃ ref, (ref, path) ∈ t.refs)
    (read : (Load.load scope.files .on path).2 = .ok v) (alone : Alone scope t path)
    (hname : typeName path v = .ok name) : t.types.get? path = some name := by
  obtain ⟨ref, noted⟩ := noted
  obtain ⟨w, hloaded⟩ := loaded_of_readable h.complete noted ⟨v, read⟩
  cases read.symm.trans (h.sound.loaded path w (Table.mem_of_get? hloaded))
  exact h.labelled.own hloaded alone hname

theorem Change.keeps_refKey (h : Change scope s s') (hmem : path ∈ s.tables.refs.keys) :
    path ∈ s'.tables.refs.keys := by
  cases h with
  | reference outer => exact Table.mem_keys_put hmem
  | assumedName _ _ => exact hmem
  | resolving h =>
    cases h with
    | report lines => exact hmem
    | document outer fresh read => exact Table.mem_keys_put hmem
    | typeNames _ _ _ => exact hmem
    | definition names => exact hmem

theorem Alone.earlier (alone : Alone scope s'.tables path) (h : Changes scope s s') : Alone scope s.tables path :=
  fun hmem => alone (keep_of_steps (P := fun s => path ∈ s.tables.refs.keys)
    (fun _ _ hc => hc.keeps_refKey) h hmem)

/-! ## The type that a reference leads to -/

/-- The path is noted, as the path of a reference or as a reference itself. -/
def Known (scope : RefScope) (t : Tables) (path : String) : Prop :=
  ∃ ref, (ref, scope.path ref) ∈ t.refs ∧ (path = scope.path ref ∨ path = ref)

theorem Known.later (known : Known scope s.tables path) (h : Changes scope s s') : Known scope s'.tables path := by
  obtain ⟨ref, noted, hpath⟩ := known
  have hnoted := keep_of_steps (P := fun s => (ref, scope.path ref) ∈ s.tables.refs)
    (fun _ _ hc => hc.keeps_noted) h noted
  exact ⟨ref, hnoted, hpath⟩

theorem Known.noted (known : Known scope t path) (alone : Alone scope t path) : ∃ ref, (ref, path) ∈ t.refs := by
  obtain ⟨ref, noted, rfl | rfl⟩ := known
  · exact ⟨ref, noted⟩
  · have hsame := alone (List.mem_map_of_mem noted)
    rw [hsame] at noted
    exact ⟨path, noted⟩

theorem Known.mem_keys (known : Known scope t (scope.path ref))
    (hpath : ∀ r, scope.path r = r) : ref ∈ t.refs.keys := by
  obtain ⟨ref', noted, heq⟩ := known
  rw [hpath, hpath, or_self] at heq
  exact heq ▸ List.mem_map_of_mem noted

theorem AtRest.known_of_type (h : AtRest scope t) (htype : t.types.get? path = some name) : Known scope t path := by
  obtain ⟨ref, noted, hpath, _⟩ := h.stand path name htype
  exact ⟨ref, noted, hpath⟩

/-- The type of a known reference. It is that of its document, if that can be read and has a name, and if no
other reference is spelt like its path. -/
structure HasType (scope : RefScope) (t : Tables) (ref type : String) : Prop where
  known : Known scope t (scope.path ref)
  own : Alone scope t (scope.path ref) → ∀ v name, (Load.load scope.files .on (scope.path ref)).2 = .ok v →
    typeName ref v = .ok name → name ≠ "" → type = name

theorem HasType.later (hasType : HasType scope s.tables ref type)
    (h : Changes scope s s') : HasType scope s'.tables ref type :=
  ⟨hasType.known.later h, fun alone => hasType.own (alone.earlier h)⟩

theorem AtRest.hasType (h : AtRest scope t) (known : Known scope t (scope.path ref))
    (htype : ∀ name, t.types.get? (scope.path ref) = some name → name ≠ "" → type = name) :
    HasType scope t ref type := by
  refine ⟨known, fun alone v name read hname ne => ?_⟩
  rw [← typeName_path scope] at hname
  exact htype name (h.type_of_read (known.noted alone) read alone hname) ne

theorem AtRest.hasType_of_title (h : AtRest scope t)
    (hloaded : t.loaded.get? (scope.path ref) = some v) (htitle : v.title = .ok type) (ne : type ≠ "") :
    HasType scope t ref type := by
  have hmem := Table.mem_of_get? hloaded
  obtain ⟨ref', noted⟩ := h.sound.loaded_refs _ v hmem
  have hpath : scope.path ref = scope.path ref' := (h.sound.refs ref' _ noted).2
  refine ⟨⟨ref', hpath ▸ noted, .inl hpath⟩, fun _ w name read hname _ => ?_⟩
  cases read.symm.trans (h.sound.loaded _ v hmem)
  exact Except.ok.inj ((typeName_of_title ref htitle ne).symm.trans hname)

end Reference

theorem Follows.atRest {α : Type} {P : Fault → Prop} {scope : RefScope} {work : RefM α}
    {r : Except Fault α} (h : Follows (some scope) P work) (hrun : exec work s = (r, s'))
    (hs : Reference.AtRest scope s.tables) : Reference.AtRest scope s'.tables :=
  keep_of_steps (P := fun s => Reference.AtRest scope s.tables) (fun _ _ turn => turn.atRest)
    (steps_of_exec (h.turns scope rfl s) hrun) hs

end Typewright
