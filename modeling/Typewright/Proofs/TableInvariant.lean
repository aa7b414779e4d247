import Typewright.Proofs.Arrivals

/-!
# The tables agree with the files and the root schema

A resolver is used by calls that resolve or note a reference.
-/

namespace Typewright.Reference

open RefM

variable {scope : RefScope} {t : Tables} {s s' : RefState} {ref : String}

/-! ## Calls -/

/-- A call on the resolver. The reference is any value; text is the case that does not fail at once. -/
inductive Call where
  | resolve (ref : Value)
  | note (ref : Value)

namespace Call

def work (scope : RefScope) : Call → RefM Unit
  | .resolve ref => discard (scope.resolve ref)
  | .note ref => scope.note ref

theorem work_changes (scope : RefScope) (call : Call) (s : RefState) : Makes (Change scope) (call.work scope) s := by
  cases call with
  | resolve ref => exact makes_discard (resolve_changes scope ref s)
  | note ref => exact note_changes scope ref s

end Call

/-- The scope with other files in the place of the old ones. -/
def withFiles (scope : RefScope) (files : FileTree) : RefScope :=
  { scope with files := files }

/-- The state after calls, each with the files that it finds. A call that fails leaves its state to
the next one. -/
def runCalls (scope : RefScope) : List (FileTree × Call) → RefState → RefState
  | [], s => s
  | (files, call) :: rest, s =>
    runCalls scope rest (exec (call.work (withFiles scope files)) s).2

/-! ## The invariant -/

/-- The tables agree with the files and the root schema. -/
structure Sound (scope : RefScope) (t : Tables) : Prop where
  refs : ∀ r p, (r, p) ∈ t.refs →
    isInner r = false ∧ p = Path.join (Path.directory scope.base) r
  loaded : ∀ p v, (p, v) ∈ t.loaded → (Load.load scope.files .on p).2 = .ok v
  loaded_refs : ∀ p v, (p, v) ∈ t.loaded → ∃ r, (r, p) ∈ t.refs
  definitions : ∀ d e, (d, e) ∈ t.definitions →
    definitionRef scope.root d = .ok (.str e) ∧ isInner e = false

theorem sound_empty (scope : RefScope) : Sound scope {} :=
  ⟨nofun, nofun, nofun, nofun⟩

theorem Sound.putRef (h : Sound scope t) (outer : isInner ref = false) :
    Sound scope { t with refs := t.refs.put ref (scope.path ref) } where
  refs := by
    intro r p hmem
    rcases Table.eq_or_mem_of_mem_put hmem with heq | hmem
    · cases heq
      exact ⟨outer, rfl⟩
    · exact h.refs r p hmem
  loaded := h.loaded
  loaded_refs := by
    intro p v hmem
    obtain ⟨r, hr⟩ := h.loaded_refs p v hmem
    -- an old path under the same reference is the path that is put there
    refine ⟨r, Table.mem_put_of_mem hr ?_⟩
    rintro rfl
    exact (h.refs r p hr).2
  definitions := h.definitions

theorem Sound.putLoaded (h : Sound scope t) {v : Value} (noted : (ref, scope.path ref) ∈ t.refs)
    (read : (Load.load scope.files .on (scope.path ref)).2 = .ok v) :
    Sound scope { t with loaded := t.loaded.put (scope.path ref) v } where
  refs := h.refs
  loaded := by
    intro p w hmem
    rcases Table.eq_or_mem_of_mem_put hmem with heq | hmem
    · cases heq
      exact read
    · exact h.loaded p w hmem
  loaded_refs := by
    intro p w hmem
    rcases Table.eq_or_mem_of_mem_put hmem with heq | hmem
    · cases heq
      exact ⟨ref, noted⟩
    · exact h.loaded_refs p w hmem
  definitions := h.definitions

theorem Sound.putDefinition (h : Sound scope t) {name file : String} (names : NamesFile scope.root name file) :
    Sound scope { t with definitions := t.definitions.put name file } where
  refs := h.refs
  loaded := h.loaded
  loaded_refs := h.loaded_refs
  definitions := by
    intro d e hmem
    rcases Table.eq_or_mem_of_mem_put hmem with heq | hmem
    · cases heq
      exact names
    · exact h.definitions d e hmem

theorem Sound.setTypes (h : Sound scope t) (types : Table String) : Sound scope { t with types := types } :=
  ⟨h.refs, h.loaded, h.loaded_refs, h.definitions⟩

theorem Step.sound (h : Step scope s s') (hs : Sound scope s.tables) : Sound scope s'.tables := by
  cases h with
  | report lines => exact hs
  | document outer fresh read =>
    exact (hs.putRef outer).putLoaded (Table.mem_put_self _ _ _) read
  | typeNames _ _ _ => exact hs.setTypes _
  | definition names => exact hs.putDefinition names

theorem Change.sound (h : Change scope s s') (hs : Sound scope s.tables) : Sound scope s'.tables := by
  cases h with
  | resolving h => exact h.sound hs
  | reference outer => exact hs.putRef outer
  | assumedName _ _ => exact hs.setTypes _

theorem sound_of_changes (h : Changes scope s s') (hs : Sound scope s.tables) : Sound scope s'.tables :=
  keep_of_steps (P := fun t => Sound scope t.tables) (fun _ _ => Change.sound) h hs

theorem sound_runCalls_from (calls : List Call) (hs : Sound scope s.tables) :
    Sound scope (runCalls scope (calls.map fun call => (scope.files, call)) s).tables := by
  induction calls generalizing s with
  | nil => exact hs
  | cons call rest ih =>
    exact ih (sound_of_changes (call.work_changes scope s) hs)

/-- Over files that stay as they are, the tables agree with the files and the root schema after every
sequence of calls, whichever of them fail. -/
theorem sound_runCalls (scope : RefScope) (calls : List Call) :
    Sound scope (runCalls scope (calls.map fun call => (scope.files, call)) {}).tables :=
  sound_runCalls_from calls (sound_empty scope)

end Typewright.Reference
