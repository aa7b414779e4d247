import Typewright.Proofs.Parts
import Typewright.Proofs.ResolvingAgain
import Typewright.Reference.Prepare

/-!
# Preparing a schema reaches every reference

Preparation follows the references on the properties and definitions of a schema, then those of the schemas that they
lead to, and so on.
-/

namespace Typewright

open RefM

variable {s s' s1 : RefState} {v ref schema : Value} {step : RefState → RefState → Prop}
  {file text what : String} {t : Tables} {P : String → Prop} {refs : Table String} {scope : RefScope}
  {next : Value → RefM Unit}

namespace Reference

/-- A reference stands directly on a property or on a definition of a schema. -/
def HasRef (schema ref : Value) : Prop :=
  ∃ part ∈ ["properties", "definitions"], ∃ group es e,
    schema.field part = .ok group ∧ group.entries = .ok es ∧ e ∈ es ∧ e.2.field "$ref" = .ok ref

/-- A reference on the first schema resolves to the second one. -/
def Leads (scope : RefScope) (s : RefState) (schema target : Value) : Prop :=
  ∃ ref s', HasRef schema ref ∧ exec (scope.resolve ref) s = (.ok target, s')

/-- The schemas that references lead to from a schema, itself included. -/
def Reach (scope : RefScope) (s : RefState) : Value → Value → Prop :=
  Relation.ReflTransGen (Leads scope s)

theorem isMap_of_hasRef (h : HasRef schema ref) : schema.isMap := by
  obtain ⟨part, _, group, es, e, hgroup, _⟩ := h
  obtain ⟨entries, rfl, _⟩ := Value.field_eq_ok hgroup
  rfl

/-! ## Warnings -/

def warningMark : String := "Warning: Could not resolve "

def isWarning (line : String) : Bool :=
  Text.startsWith line warningMark

def Quiet (s : RefState) : Prop :=
  ∀ line ∈ s.log, isWarning line = false

theorem isWarning_append (rest : String) : isWarning (warningMark ++ rest) := by
  unfold isWarning Text.startsWith
  rw [String.toList_append, List.isPrefixOf_iff_prefix]
  exact List.prefix_append _ _

theorem Change.keeps_log (h : Change scope s s') : s.log <+: s'.log := by
  cases h with
  | reference outer => exact List.prefix_rfl
  | assumedName _ _ => exact List.prefix_rfl
  | resolving h =>
    cases h with
    | report lines => exact List.prefix_append _ _
    | document outer fresh read => exact List.prefix_rfl
    | typeNames _ _ _ => exact List.prefix_rfl
    | definition names => exact List.prefix_rfl

theorem Quiet.before (quiet : Quiet s') (h : Changes scope s s') : Quiet s := by
  have hkept : s.log <+: s'.log :=
    keep_of_steps (P := fun t => s.log <+: t.log) (fun _ _ hc hp => hp.trans hc.keeps_log) h
      List.prefix_rfl
  exact fun line hline => quiet line (hkept.subset hline)

/-! ## Preparation is made of steps -/

/-- Follows a reference, and goes on with the schema that it leads to. -/
def attend (scope : RefScope) (what : String) (next : Value → RefM Unit) (ref : Value) :
    RefM Unit :=
  tryCatch (do
    let target ← scope.resolve ref
    if target.isMap then next target) fun e =>
      RefM.report ["Warning: Could not resolve " ++ what ++ " " ++ ref.text ++ ": " ++ e.message]

/-- What reports, notes and resolved references are made of. -/
structure CallsMake (step : RefState → RefState → Prop) (scope : RefScope) : Prop where
  report : ∀ s lines, step s { s with log := s.log ++ lines }
  note : ∀ ref s, Makes step (scope.note ref) s
  resolve : ∀ ref s, Makes step (scope.resolve ref) s

theorem callsMake_change (scope : RefScope) : CallsMake (Change scope) scope :=
  ⟨fun s lines => .resolving (.report s lines), note_changes scope, resolve_changes scope⟩

theorem attend_makes (hcalls : CallsMake step scope) (hnext : ∀ v s, Makes step (next v) s) (what : String) (ref : Value)
    (s : RefState) : Makes step (attend scope what next ref) s := by
  refine makes_tryCatch ?_ fun e s1 _ => makes_report (hcalls.report s1 _)
  refine makes_bind (hcalls.resolve ref s) fun target s1 _ => ?_
  split
  · exact hnext target s1
  · exact makes_pure ()

theorem prepareEntry_makes (hcalls : CallsMake step scope) (next : Value → RefM Unit) (hnext : ∀ v s, Makes step (next v) s)
    (what : String) (schema : Value) (s : RefState) : Makes step (prepareEntry scope what next schema) s := by
  refine makes_bind (makes_lift _) fun isRef s1 _ => ?_
  split
  · exact makes_pure ()
  · refine makes_bind (makes_lift _) fun ref s2 _ => ?_
    refine makes_bind (hcalls.note ref s2) fun _ s3 _ => ?_
    exact attend_makes hcalls hnext what ref s3

theorem prepareAll_makes (hentry : ∀ schema s, Makes step (prepareEntry scope what next schema) s)
    (entries : Entries) (s : RefState) : Makes step (prepareAll scope what next entries) s := by
  induction entries generalizing s with
  | nil => exact makes_pure ()
  | cons e rest ih => exact makes_bind (hentry e.2 s) fun _ s1 _ => ih s1

theorem prepareFrom_makes (hentry : ∀ next : Value → RefM Unit, (∀ v s, Makes step (next v) s) →
      ∀ what schema s, Makes step (prepareEntry scope what next schema) s)
    (fuel : Nat) (schema : Value) (s : RefState) : Makes step (prepareFrom scope fuel schema) s := by
  induction fuel generalizing schema s with
  | zero => exact makes_throw _
  | succ fuel ih =>
    unfold prepareFrom
    refine makes_bind (makes_lift _) fun properties s1 _ => ?_
    refine makes_bind (prepareAll_makes (hentry _ ih _) properties s1) fun _ s2 _ => ?_
    refine makes_bind (makes_lift _) fun hasDefinitions s3 _ => ?_
    split
    · refine makes_bind (makes_lift _) fun definitions s4 _ => ?_
      refine makes_bind (makes_lift _) fun entries s5 _ => ?_
      exact prepareAll_makes (hentry _ ih _) entries s5
    · exact makes_pure ()

theorem prepareAll_changes (hnext : ∀ v s, Makes (Change scope) (next v) s) (what : String) (entries : Entries)
    (s : RefState) : Makes (Change scope) (prepareAll scope what next entries) s :=
  prepareAll_makes (prepareEntry_makes (callsMake_change scope) next hnext what) entries s

theorem prepareFrom_changes (scope : RefScope) (fuel : Nat) (schema : Value) (s : RefState) :
    Makes (Change scope) (prepareFrom scope fuel schema) s :=
  prepareFrom_makes (prepareEntry_makes (callsMake_change scope)) fuel schema s

/-! ## One visit -/

theorem prepareEntry_cases (hrun : exec (prepareEntry scope what next schema) s = (.ok (), s')) (quiet : Quiet s') :
    ((∀ ref, schema.field "$ref" ≠ .ok ref) ∧ s' = s) ∨
    ∃ ref s1 s2 v, schema.field "$ref" = .ok ref ∧ exec (scope.note ref) s = (.ok (), s1) ∧
      exec (scope.resolve ref) s1 = (.ok v, s2) ∧
      (v.isMap ∧ exec (next v) s2 = (.ok (), s') ∨ v.isMap = false ∧ s' = s2) := by
  obtain ⟨isRef, hisRef, hrun⟩ := exec_ask_ok hrun
  split at hrun
  · next hno =>
    cases hrun
    refine .inl ⟨fun ref href => ?_, rfl⟩
    rw [Value.has_of_field href] at hisRef
    cases hisRef
    cases hno
  obtain ⟨ref, href, hrun⟩ := exec_ask_ok hrun
  obtain ⟨_, s1, hnote, hrun⟩ := exec_bind_ok hrun
  rw [exec_tryCatch] at hrun
  split at hrun
  · next u s2 htry =>
    cases hrun
    obtain ⟨v, s2, hresolve, hnext⟩ := exec_bind_ok htry
    refine .inr ⟨ref, s1, s2, v, href, hnote, hresolve, ?_⟩
    split at hnext
    · next hmap => exact .inl ⟨hmap, hnext⟩
    · next hmap =>
      cases hnext
      exact .inr ⟨by simpa using hmap, rfl⟩
  · next e s2 htry =>
    -- the handler reports a warning, which a quiet end rules out
    cases hrun
    have hline := quiet _ (List.mem_append_right _ (List.mem_singleton_self _))
    simp only [String.append_assoc] at hline
    cases (isWarning_append _).symm.trans hline

theorem isInner_of_isDefinition {ref : String} (h : isDefinition ref) : isInner ref := by
  unfold isDefinition Text.startsWith at h
  unfold isInner Text.startsWith
  rw [List.isPrefixOf_iff_prefix] at h ⊢
  exact List.IsPrefix.trans (by decide) h

theorem leadsTo_of_outer (scope : RefScope) (outer : isInner file = false) :
    scope.leadsTo (.str file) = .ok (.file none file) := by
  have hdef : isDefinition file = false := by
    cases hd : isDefinition file with
    | false => rfl
    | true =>
      rw [isInner_of_isDefinition hd] at outer
      cases outer
  show destination scope.root (definitionCount scope.root + 1) file = _
  unfold destination
  rw [hdef, outer]
  rfl

theorem loaded_of_resolved (outer : isInner text = false) (h : exec (scope.resolve (.str text)) s = (.ok v, s')) :
    s'.tables.loaded.get? (scope.path text) = some v := by
  cases settled_of_exec_resolve h with
  | definition lead => cases (leadsTo_of_outer scope outer).symm.trans lead
  | file lead found _ =>
    cases (leadsTo_of_outer scope outer).symm.trans lead
    exact found

theorem resolved_of_resolved? (h : exec (scope.resolve? ref) s = (.ok (some v), s')) :
    exec (scope.resolve ref) s = (.ok v, s') := by
  unfold RefScope.resolve? RefM.recover at h
  rw [exec_tryCatch] at h
  split at h
  · next found s1 hfound =>
    cases h
    obtain ⟨w, s2, hw, hend⟩ := exec_bind_ok hfound
    cases hend
    exact hw
  · split at h <;> cases h

theorem loaded_of_resolved? (outer : isInner text = false) (h : exec (scope.resolve? (.str text)) s = (.ok (some v), s')) :
    s'.tables.loaded.get? (scope.path text) = some v :=
  loaded_of_resolved outer (resolved_of_resolved? h)

theorem exec_note_eq_ok (h : exec (scope.note ref) s = (.ok (), s')) :
    ∃ text, ref = .str text ∧ s'.tables.loaded = s.tables.loaded ∧ s'.tables.refs =
        if isInner text then s.tables.refs else s.tables.refs.put text (scope.path text) := by
  obtain ⟨text, htext, h⟩ := exec_ask_ok h
  refine ⟨text, textOf_eq_ok htext, ?_⟩
  split at h
  · next hinner =>
    cases h
    exact ⟨rfl, (if_pos hinner).symm⟩
  · next hinner =>
    obtain ⟨_, s1, h1, h⟩ := exec_bind_ok h
    cases h1
    obtain ⟨t, s2, h2, h⟩ := exec_bind_ok h
    cases h2
    rw [if_neg hinner]
    split at h
    · cases h
      exact ⟨rfl, rfl⟩
    · cases h
      exact ⟨rfl, rfl⟩

theorem noted_of_exec_note (h : exec (scope.note (.str file)) s = (.ok (), s')) (outer : isInner file = false) :
    s'.tables.refs.get? file = some (scope.path file) := by
  obtain ⟨text, htext, _, hrefs⟩ := exec_note_eq_ok h
  cases htext
  rw [hrefs, outer]
  exact Table.get?_put_self _ _ _

/-! ## Every noted path has its document -/

/-- Every noted path has its document, but for those in `P`. -/
def CompleteBut (P : String → Prop) (t : Tables) : Prop :=
  ∀ r p, (r, p) ∈ t.refs → P p ∨ ∃ v, t.loaded.get? p = some v

/-- Every noted path has its document. -/
def Complete (t : Tables) : Prop :=
  CompleteBut (fun _ => False) t

theorem Step.keeps_complete (h : Step scope s s') (hs : CompleteBut P s.tables) : CompleteBut P s'.tables := by
  intro r p hmem
  have hold : (r, p) ∈ s.tables.refs → P p ∨ ∃ v, s'.tables.loaded.get? p = some v := by
    intro hmem
    refine (hs r p hmem).imp id ?_
    rintro ⟨v, hv⟩
    exact ⟨v, h.keeps_loaded hv⟩
  cases h with
  | report lines => exact hold hmem
  | typeNames _ _ _ => exact hold hmem
  | definition names => exact hold hmem
  | @document ref v outer fresh read =>
    rcases Table.eq_or_mem_of_mem_put hmem with heq | hmem
    · cases heq
      exact .inr ⟨v, Table.get?_put_self _ _ _⟩
    · exact hold hmem

theorem completeBut_of_exec_note (hs : CompleteBut P s.tables) (hnote : exec (scope.note ref) s = (.ok (), s1)) :
    ∃ text, ref = .str text ∧ CompleteBut (fun p => P p ∨ isInner text = false ∧ p = scope.path text) s1.tables := by
  obtain ⟨text, rfl, hloaded, hrefs⟩ := exec_note_eq_ok hnote
  refine ⟨text, rfl, fun r p hmem => ?_⟩
  rw [hloaded]
  rw [hrefs] at hmem
  split at hmem
  · exact (hs r p hmem).imp_left .inl
  · next houter =>
    rcases Table.eq_or_mem_of_mem_put hmem with heq | hmem
    · cases heq
      exact .inl (.inr ⟨by simpa using houter, rfl⟩)
    · exact (hs r p hmem).imp_left .inl

theorem complete_of_resolved {s2 : RefState} (hs : Complete s.tables) (hnote : exec (scope.note ref) s = (.ok (), s1))
    (hresolve : exec (scope.resolve ref) s1 = (.ok v, s2)) : Complete s2.tables := by
  obtain ⟨text, rfl, hnoted⟩ := completeBut_of_exec_note hs hnote
  have hresolved := keep_of_steps (fun _ _ h => h.keeps_complete)
    (steps_of_exec (resolve_makes scope _ s1) hresolve) hnoted
  intro r p hmem
  rcases hresolved r p hmem with (hfalse | ⟨houter, rfl⟩) | hfound
  · exact hfalse.elim
  · refine .inr ⟨v, ?_⟩
    cases settled_of_exec_resolve hresolve with
    | definition lead => cases (leadsTo_of_outer scope houter).symm.trans lead
    | file lead found _ =>
      cases (leadsTo_of_outer scope houter).symm.trans lead
      exact found
  · exact .inr hfound

/-! ## Every reference that can be reached was visited -/

/-- A reference resolves without a change, and its path is noted if it is a file. -/
def Ready (scope : RefScope) (s : RefState) (ref : Value) : Prop :=
  (∃ v, Settled scope s.tables ref v) ∧
    ∀ file, ref = .str file → isInner file = false →
      s.tables.refs.get? file = some (scope.path file)

/-- All references that can be reached from a schema are ready. -/
def Covered (scope : RefScope) (s : RefState) (schema : Value) : Prop :=
  ∀ reached, Reach scope s schema reached → ∀ ref, HasRef reached ref → Ready scope s ref

theorem Settled.unique {v' : Value}
    (h : Settled scope s.tables ref v) (h' : Settled scope s.tables ref v') : v = v' := by
  have heq := h.exec_resolve.symm.trans h'.exec_resolve
  cases heq
  rfl

theorem covered_of_refs (h : ∀ ref, HasRef schema ref → Ready scope s ref ∧
      ∀ v, Settled scope s.tables ref v → Covered scope s v) : Covered scope s schema := by
  intro reached hreach
  rcases Relation.ReflTransGen.cases_head hreach with rfl | ⟨v, ⟨ref, s', href, hresolve⟩, hreach⟩
  · exact fun ref href => (h ref href).1
  obtain ⟨⟨⟨w, hw⟩, _⟩, hcovered⟩ := h ref href
  have heq : v = w := by
    rw [hw.exec_resolve] at hresolve
    cases hresolve
    rfl
  subst heq
  exact hcovered v hw reached hreach

theorem Change.keeps_ref (h : Change scope s s') (noted : s.tables.refs.get? file = some (scope.path file)) :
    s'.tables.refs.get? file = some (scope.path file) := by
  have hput : ∀ ref, (s.tables.refs.put ref (scope.path ref)).get? file = some (scope.path file) := by
    intro ref
    rw [Table.get?_put]
    split
    · next heq => rw [heq]
    · exact noted
  cases h with
  | @reference ref outer => exact hput ref
  | assumedName _ _ => exact noted
  | resolving h =>
    cases h with
    | report lines => exact noted
    | @document ref v outer fresh read => exact hput ref
    | typeNames _ _ _ => exact noted
    | definition names => exact noted

/-- A reference is ready, and what it leads to is covered. -/
def Visited (scope : RefScope) (s : RefState) (ref : Value) : Prop :=
  Ready scope s ref ∧ ∀ v, Settled scope s.tables ref v → Covered scope s v

/-- A run on a schema that ends without a warning leaves no path without its document, and the schema
is covered from then on. -/
def Prepares (scope : RefScope) (next : Value → RefM Unit) : Prop :=
  ∀ schema s s', exec (next schema) s = (.ok (), s') → Quiet s' →
    (Complete s.tables → Complete s'.tables) ∧
      ∀ t, Changes scope s' t → Covered scope t schema

section Visits

variable {scope : RefScope} {next : Value → RefM Unit}
  (hchanges : ∀ v s, Makes (Change scope) (next v) s) (hnext : Prepares scope next)
include hchanges hnext

theorem prepareEntry_visits (hrun : exec (prepareEntry scope what next schema) s = (.ok (), s')) (quiet : Quiet s') :
    (Complete s.tables → Complete s'.tables) ∧
      ∀ t, Changes scope s' t → ∀ ref, schema.field "$ref" = .ok ref → Visited scope t ref := by
  rcases prepareEntry_cases hrun quiet with
    ⟨hno, rfl⟩ | ⟨ref, s1, s2, v, href, hnote, hresolve, hend⟩
  · exact ⟨id, fun t _ ref href => absurd href (hno ref)⟩
  have hafter : Changes scope s2 s' ∧ (Complete s2.tables → Complete s'.tables) ∧
      ∀ t, Changes scope s' t → Covered scope t v := by
    rcases hend with ⟨_, hgoOn⟩ | ⟨hmap, rfl⟩
    · exact ⟨steps_of_exec (hchanges v s2) hgoOn, hnext v s2 s' hgoOn quiet⟩
    · refine ⟨.refl, id, fun t _ => covered_of_refs fun ref href => ?_⟩
      cases hmap.symm.trans (isMap_of_hasRef href)
  obtain ⟨hlater, hcomplete, hcovered⟩ := hafter
  refine ⟨fun hs => hcomplete (complete_of_resolved hs hnote hresolve), ?_⟩
  intro t ht ref' href'
  cases href.symm.trans href'
  have hsettled : Settled scope t.tables ref v := (settled_of_exec_resolve hresolve).keep (hlater.trans ht)
  refine ⟨⟨⟨v, hsettled⟩, ?_⟩, fun w hw => hw.unique hsettled ▸ hcovered t ht⟩
  rintro file rfl houter
  have hnoted := noted_of_exec_note hnote houter
  have hresolving : Changes scope s1 s2 := steps_of_exec (resolve_changes scope _ s1) hresolve
  exact keep_of_steps (fun _ _ hc => hc.keeps_ref) ((hresolving.trans hlater).trans ht) hnoted

theorem prepareAll_visits {entries : Entries}
    (hrun : exec (prepareAll scope what next entries) s = (.ok (), s')) (quiet : Quiet s') :
    (Complete s.tables → Complete s'.tables) ∧
      ∀ t, Changes scope s' t → ∀ e ∈ entries, ∀ ref, e.2.field "$ref" = .ok ref → Visited scope t ref := by
  induction entries generalizing s with
  | nil =>
    cases hrun
    exact ⟨id, fun t _ e he => absurd he List.not_mem_nil⟩
  | cons e rest ih =>
    obtain ⟨_, s1, hfirst, hrest⟩ := exec_bind_ok hrun
    have hlater : Changes scope s1 s' := steps_of_exec (prepareAll_changes hchanges _ _ s1) hrest
    obtain ⟨hcomplete1, hvisited1⟩ := prepareEntry_visits hchanges hnext hfirst (quiet.before hlater)
    obtain ⟨hcomplete, hvisited⟩ := ih hrest
    refine ⟨fun hs => hcomplete (hcomplete1 hs), fun t ht f hf => ?_⟩
    rcases List.mem_cons.mp hf with rfl | hf
    · exact hvisited1 t (hlater.trans ht)
    · exact hvisited t ht f hf

end Visits

theorem prepareFrom_prepares (scope : RefScope) (fuel : Nat) : Prepares scope (prepareFrom scope fuel) := by
  induction fuel with
  | zero =>
    intro schema s s' hrun
    cases hrun
  | succ fuel ih =>
    -- the definitions are visited last; the properties before them are covered at the end only
    -- because `ih` speaks of every later state
    intro schema s s' hrun quiet
    have hchanges := prepareFrom_changes scope fuel
    unfold prepareFrom at hrun
    obtain ⟨properties, hprops, hrun⟩ := exec_ask_ok hrun
    obtain ⟨_, s1, hfirst, hrun⟩ := exec_bind_ok hrun
    obtain ⟨hasDefinitions, hhas, hrun⟩ := exec_ask_ok hrun
    have hsecond : Changes scope s1 s' ∧ (Complete s1.tables → Complete s'.tables) ∧
        ∀ t, Changes scope s' t → ∀ group es, schema.field "definitions" = .ok group →
          group.entries = .ok es → ∀ e ∈ es, ∀ ref, e.2.field "$ref" = .ok ref →
            Visited scope t ref := by
      split at hrun
      · obtain ⟨definitions, hdefs, hrun⟩ := exec_ask_ok hrun
        obtain ⟨entries, hentries, hrun⟩ := exec_ask_ok hrun
        obtain ⟨hcomplete, hvisited⟩ := prepareAll_visits hchanges ih hrun quiet
        refine ⟨steps_of_exec (prepareAll_changes hchanges _ _ s1) hrun, hcomplete, ?_⟩
        intro t ht group es hgroup hes
        cases hdefs.symm.trans hgroup
        cases hentries.symm.trans hes
        exact hvisited t ht
      · next hno =>
        cases hrun
        refine ⟨.refl, id, fun t _ group es hgroup => ?_⟩
        cases hhas.symm.trans (Value.has_of_field hgroup)
        exact absurd rfl hno
    obtain ⟨hlater, hcomplete, hdefs⟩ := hsecond
    obtain ⟨hcomplete1, hvisited1⟩ := prepareAll_visits hchanges ih hfirst (quiet.before hlater)
    refine ⟨fun hs => hcomplete (hcomplete1 hs), fun t ht => covered_of_refs fun ref href => ?_⟩
    obtain ⟨part, hpart, group, es, e, hgroup, hes, he, href⟩ := href
    simp only [List.mem_cons, List.not_mem_nil, or_false] at hpart
    rcases hpart with rfl | rfl
    · rw [Value.entriesAt_of_field hgroup, hes] at hprops
      cases hprops
      exact hvisited1 t (hlater.trans ht) e he ref href
    · exact hdefs t ht group es hgroup hes e he ref href

/-! ## Listing the documents -/

/-- What is listed under a path: its document and the name of its type. -/
def listing (t : Tables) (path : String) : Option (Value × String) :=
  (t.loaded.get? path).map fun v => (v, (t.types.get? path).getD "")

def addListings (t : Tables) (found : Table (Value × String)) (refs : Table String) :
    Except Fault (Table (Value × String)) :=
  refs.foldlM (fun found r => do
    match t.loaded.get? r.2 with
    | some schema => return Table.put found r.2 (schema, (t.types.get? r.2).getD "")
    | none => throw (.missingKey (.str r.2))) found

theorem addListings_ok (found : Table (Value × String)) (h : ∀ r p, (r, p) ∈ refs → ∃ v, t.loaded.get? p = some v) :
    ∃ found', addListings t found refs = .ok found' ∧
      (∀ p x, found.get? p = some x → listing t p = some x → found'.get? p = some x) ∧
      ∀ r p, (r, p) ∈ refs → ∃ x, listing t p = some x ∧ found'.get? p = some x := by
  induction refs generalizing found with
  | nil => exact ⟨found, rfl, fun p x hp _ => hp, nofun⟩
  | cons e rest ih =>
    obtain ⟨r, p⟩ := e
    obtain ⟨v, hv⟩ := h r p (.head _)
    obtain ⟨x, hx⟩ : ∃ x, listing t p = some x := by
      unfold listing
      rw [hv]
      exact ⟨_, rfl⟩
    obtain ⟨found', hfound', hold, hnew⟩ := ih (found.put p x) fun r p hmem => h r p (.tail _ hmem)
    have hp : found'.get? p = some x := hold p x (Table.get?_put_self _ _ _) hx
    refine ⟨found', ?_, fun q y hq hy => ?_, fun r' q hmem => ?_⟩
    · have hfirst : addListings t found ((r, p) :: rest) = addListings t (found.put p x) rest := by
        unfold listing at hx
        rw [hv] at hx
        cases hx
        unfold addListings
        rw [List.foldlM_cons, hv]
        rfl
      rw [hfirst, hfound']
    · by_cases hpq : p = q
      -- two references may have one path, and what they list under it is the same
      · subst hpq
        rw [← hy, hx]
        exact hp
      · exact hold q y (by rw [Table.get?_put_of_ne _ _ hpq, hq]) hy
    · rcases List.mem_cons.mp hmem with heq | hmem
      · cases heq
        exact ⟨x, hx, hp⟩
      · exact hnew r' q hmem

theorem loaded_of_mem_addListings {found found' : Table (Value × String)}
    (hfound : ∀ d ∈ found, t.loaded.get? d.1 = some d.2.1) (h : addListings t found refs = .ok found') :
    ∀ d ∈ found', t.loaded.get? d.1 = some d.2.1 := by
  induction refs generalizing found with
  | nil =>
    cases h
    exact hfound
  | cons r rest ih =>
    unfold addListings at h
    rw [List.foldlM_cons] at h
    obtain ⟨next, hnext, h⟩ := bind_ok h
    split at hnext
    · next schema hloaded =>
      cases hnext
      refine ih (fun d hd => ?_) h
      rcases Table.eq_or_mem_of_mem_put hd with rfl | hd
      · exact hloaded
      · exact hfound d hd
    · cases hnext

theorem documents_of_complete (h : Complete t) : ∃ found, t.documents = .ok found ∧
      ∀ r p, (r, p) ∈ t.refs → ∃ x, listing t p = some x ∧ found.get? p = some x := by
  obtain ⟨found, hfound, _, hlisted⟩ := addListings_ok (t := t) [] fun r p hmem => (h r p hmem).resolve_left id
  exact ⟨found, hfound, hlisted⟩

/-- After a preparation without a warning, every reference that can be reached resolves and changes
nothing, a reference to a file has its path noted and its document loaded, and the documents can be
listed and hold all these paths. -/
theorem prepare_complete {scope : RefScope} {schema : Value} {t : RefState}
    (h : exec (prepare scope schema) {} = (.ok (), t)) (quiet : Quiet t) :
    (∀ reached, Reach scope t schema reached → ∀ ref, HasRef reached ref →
      (∃ v, exec (scope.resolve ref) t = (.ok v, t)) ∧ ∀ file, ref = .str file → isInner file = false →
        t.tables.refs.get? file = some (scope.path file) ∧ ∃ v, t.tables.loaded.get? (scope.path file) = some v) ∧
    ∃ found, t.tables.documents = .ok found ∧
      ∀ reached, Reach scope t schema reached → ∀ file, HasRef reached (.str file) →
        isInner file = false → found.has (scope.path file) = true := by
  obtain ⟨hcomplete, hcovered⟩ := prepareFrom_prepares scope nestingLimit schema {} t h quiet
  have hcomplete : Complete t.tables := hcomplete nofun
  have hcovered : Covered scope t schema := hcovered t .refl
  obtain ⟨found, hfound, hlisted⟩ := documents_of_complete hcomplete
  refine ⟨fun reached hreach ref href => ?_, found, hfound, fun reached hreach file href houter => ?_⟩
  · obtain ⟨⟨v, hv⟩, hnoted⟩ := hcovered reached hreach ref href
    refine ⟨⟨v, hv.exec_resolve⟩, fun file hfile houter => ?_⟩
    have hmem := Table.mem_of_get? (hnoted file hfile houter)
    exact ⟨hnoted file hfile houter, (hcomplete file _ hmem).resolve_left id⟩
  obtain ⟨_, hnoted⟩ := hcovered reached hreach _ href
  obtain ⟨v, _, hv⟩ := hlisted file _ (Table.mem_of_get? (hnoted file rfl houter))
  unfold Table.has
  rw [hv]
  rfl

/-- A definition with a reference to a file on a property. -/
def bookDefinition : Value :=
  .map [("properties", .map [("author", .map [("$ref", "person.json")])])]

/-- A schema that refers to a file, and to another one by way of a definition. -/
def library : RefScope :=
  { files := textFiles [("address.json", "\x7b\x7d"), ("person.json", "\x7b\"properties\": " ++
      "\x7b\"home\": \x7b\"$ref\": \"address.json\"\x7d\x7d\x7d")]
    base := "library.json"
    root := .map [
      ("properties", .map [("place", .map [("$ref", "address.json")]),
        ("book", .map [("$ref", "#/definitions/Book")])]),
      ("definitions", .map [("Book", bookDefinition)])] }

/-- The file that only the definition refers to is loaded and listed. -/
theorem prepare_complete_library : ∃ t, exec (prepare library library.root) {} = (.ok (), t) ∧ Quiet t ∧
      Reach library t library.root bookDefinition ∧ (∃ v, exec (library.resolve (.str "person.json")) t = (.ok v, t)) ∧
      ∃ found, t.tables.documents = .ok found ∧ found.has "person.json" = true := by
  have hok : (exec (prepare library library.root) {}).1.isOk = true := by decide +kernel
  have hquiet : Quiet (exec (prepare library library.root) {}).2 := by
    unfold Quiet
    decide +kernel
  obtain ⟨_, hdone⟩ := Outcome.eq_ok_of_isOk hok
  have hrun : exec (prepare library library.root) {} = (.ok (), _) := Prod.ext hdone rfl
  have hbook : HasRef library.root (.str "#/definitions/Book") :=
    ⟨"properties", .head _, _, _, _, rfl, rfl, .tail _ (.head _), rfl⟩
  have hperson : HasRef bookDefinition (.str "person.json") := ⟨"properties", .head _, _, _, _, rfl, rfl, .head _, rfl⟩
  have hlead : library.leadsTo (.str "#/definitions/Book") = .ok (.definition bookDefinition) := rfl
  have hreach : ∀ t, Reach library t library.root bookDefinition := fun t =>
    .single ⟨_, t, hbook, RefScope.exec_resolve_definition hlead t⟩
  obtain ⟨hresolves, found, hfound, hlisted⟩ := prepare_complete hrun hquiet
  exact ⟨_, hrun, hquiet, hreach _, (hresolves _ (hreach _) _ hperson).1, found, hfound,
    hlisted _ (hreach _) _ hperson rfl⟩

end Reference

end Typewright
