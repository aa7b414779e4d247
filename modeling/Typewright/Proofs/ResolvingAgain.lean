import Typewright.Proofs.TableInvariant

/-!
# Resolving a reference again

What a reference was resolved to once, it is resolved to ever after, whatever calls come between and whatever happens
to the files.
-/

namespace Typewright.Reference

open RefM RefScope

variable {scope : RefScope} {s s' : RefState} {v ref : Value} {p file : String} {via : Option String}
  {t : Tables} {e : Fault} {r : Except Fault Value}

/-! ## What the tables keep -/

theorem Step.keeps_loaded (h : Step scope s s') (found : s.tables.loaded.get? p = some v) :
    s'.tables.loaded.get? p = some v := by
  cases h with
  | report lines => exact found
  | document outer fresh read => exact Table.get?_put_of_fresh fresh found
  | typeNames _ _ _ => exact found
  | definition names => exact found

theorem Change.keeps_loaded (h : Change scope s s') (found : s.tables.loaded.get? p = some v) :
    s'.tables.loaded.get? p = some v := by
  cases h with
  | resolving h => exact h.keeps_loaded found
  | reference outer => exact found
  | assumedName _ _ => exact found

theorem Change.keeps_definition (h : Change scope s s') {name : String} (names : NamesFile scope.root name file)
    (recorded : s.tables.definitions.get? name = some file) : s'.tables.definitions.get? name = some file := by
  cases h with
  | reference outer => exact recorded
  | assumedName _ _ => exact recorded
  | resolving h =>
    cases h with
    | report lines => exact recorded
    | document outer fresh read => exact recorded
    | typeNames _ _ _ => exact recorded
    | @definition name' file' names' =>
      show (s.tables.definitions.put name' file').get? name = some file
      rw [Table.get?_put]
      split
      · next heq =>
        subst heq
        rw [names'.unique names]
      · exact recorded

/-! ## References that are settled -/

inductive Settled (scope : RefScope) (t : Tables) (ref v : Value) : Prop
  | definition (lead : scope.leadsTo ref = .ok (.definition v))
  | file {via : Option String} {file : String} (lead : scope.leadsTo ref = .ok (.file via file))
      (found : t.loaded.get? (scope.path file) = some v)
      (recorded : ∀ name, via = some name → t.definitions.get? name = some file)

theorem Settled.withFiles (h : Settled scope t ref v) (files : FileTree) : Settled (withFiles scope files) t ref v := by
  cases h with
  | definition lead => exact .definition lead
  | file lead found recorded => exact .file lead found recorded

theorem Change.keeps_settled (s s' : RefState) (h : Change scope s s') (hs : Settled scope s.tables ref v) :
    Settled scope s'.tables ref v := by
  cases hs with
  | definition lead => exact .definition lead
  | file lead found recorded =>
    refine .file lead (h.keeps_loaded found) ?_
    intro name hvia
    exact h.keeps_definition ((leadsTo_file lead).2 name hvia) (recorded name hvia)

theorem Settled.keep (hs : Settled scope s.tables ref v) (h : Changes scope s s') : Settled scope s'.tables ref v :=
  keep_of_steps Change.keeps_settled h hs

theorem Settled.exec_resolve (h : Settled scope s.tables ref v) : exec (scope.resolve ref) s = (.ok v, s) := by
  cases h with
  | definition lead => exact exec_resolve_definition lead s
  | file lead found recorded =>
    rw [exec_resolve_file lead, record_eq_self recorded]
    exact exec_external_cached found

theorem exec_external_unread {ref : String} (fresh : s.tables.loaded.get? (scope.path ref) = none)
    (unread : (Load.load scope.files .on (scope.path ref)).2 = .error e) : exec (external scope ref) s =
      (.error (loadFailure (scope.path ref) e),
        { s with log := s.log ++ (Load.load scope.files .on (scope.path ref)).1 }) := by
  rw [exec_external_fresh fresh, exec_load_unread _ fresh unread]

theorem exec_external_read {ref : String} (fresh : s.tables.loaded.get? (scope.path ref) = none)
    (read : (Load.load scope.files .on (scope.path ref)).2 = .ok v) (h : exec (external scope ref) s = (r, s')) :
    s'.tables.loaded.get? (scope.path ref) = some v ∧ ∀ w, r = .ok w → w = v := by
  rw [exec_external_fresh fresh, exec_load_read _ fresh read] at h
  -- the document is put there before all else, and no step after that takes it away
  have hkept : ∀ r' s'', exec (register scope (itemRefsOfFiles scope.files).length ref v)
      (withDocument scope ref v s) = (r', s'') →
      s''.tables.loaded.get? (scope.path ref) = some v := by
    intro r' s'' hrun
    have hrest : Changes scope (withArrival scope ref v s) s'' := by
      rw [show s'' = _ from (congrArg Prod.snd hrun).symm]
      exact register_rest s fun ref s outer => makes_mono (fun _ _ => .resolving) (load_makes scope _ ref s outer)
    exact keep_of_steps (fun _ _ hc => hc.keeps_loaded) hrest (Table.get?_put_self s.tables.loaded (scope.path ref) v)
  split at h
  · next s'' hrun =>
    cases h
    exact ⟨hkept _ _ hrun, fun w hw => by cases hw; rfl⟩
  · next e s'' hrun =>
    cases h
    exact ⟨hkept _ _ hrun, nofun⟩

theorem loaded_of_exec_external {ref : String} (h : exec (external scope ref) s = (.ok v, s')) :
    s'.tables.loaded.get? (scope.path ref) = some v := by
  cases hfound : s.tables.loaded.get? (scope.path ref)
  case some w =>
    rw [exec_external_cached hfound] at h
    cases h
    exact hfound
  cases hread : (Load.load scope.files .on (scope.path ref)).2 with
  | error e =>
    rw [exec_external_unread hfound hread] at h
    cases h
  | ok w =>
    obtain ⟨hloaded, hresult⟩ := exec_external_read hfound hread h
    rw [hresult v rfl]
    exact hloaded

theorem recorded_of_exec_resolve (lead : scope.leadsTo ref = .ok (.file via file))
    (h : exec (scope.resolve ref) s = (r, s')) :
    ∀ name, via = some name → s'.tables.definitions.get? name = some file := by
  intro name hvia
  obtain ⟨houter, hnames⟩ := leadsTo_file lead
  rw [exec_resolve_file lead] at h
  have hchanges : Changes scope (record via file s) s' :=
    steps_of_exec (makes_mono (fun _ _ => .resolving) (external_makes scope file _ houter)) h
  exact keep_of_steps (fun _ _ hc => hc.keeps_definition (hnames name hvia)) hchanges
    (recorded_record via file s name hvia)

theorem settled_of_exec_resolve (h : exec (scope.resolve ref) s = (.ok v, s')) : Settled scope s'.tables ref v := by
  cases hlead : scope.leadsTo ref with
  | error e =>
    rw [exec_resolve_error hlead] at h
    cases h
  | ok d =>
    cases d with
    | definition w =>
      rw [exec_resolve_definition hlead] at h
      cases h
      exact .definition hlead
    | file via file =>
      refine .file hlead ?_ (recorded_of_exec_resolve hlead h)
      rw [exec_resolve_file hlead] at h
      exact loaded_of_exec_external h

theorem settled_iff : Settled scope s.tables ref v ↔ exec (scope.resolve ref) s = (.ok v, s) :=
  ⟨Settled.exec_resolve, settled_of_exec_resolve⟩

/-! ## After a success -/

theorem Settled.runCalls (calls : List (FileTree × Call)) (h : Settled scope s.tables ref v) :
    Settled scope (runCalls scope calls s).tables ref v := by
  induction calls generalizing s with
  | nil => exact h
  | cons c rest ih =>
    obtain ⟨files, call⟩ := c
    have hnext := (h.withFiles files).keep (call.work_changes (Reference.withFiles scope files) s)
    exact ih (hnext.withFiles scope.files)

/-- A reference that was resolved once is resolved to the same value ever after: after any calls over
any files it returns the value again, and the state stays as it is. -/
theorem resolve_again {scope : RefScope} {ref v : Value} {s s' : RefState}
    (h : exec (scope.resolve ref) s = (.ok v, s')) (calls : List (FileTree × Call)) (files : FileTree) :
    exec ((withFiles scope files).resolve ref) (runCalls scope calls s') = (.ok v, runCalls scope calls s') :=
  (((settled_of_exec_resolve h).runCalls calls).withFiles files).exec_resolve

/-- Files with the given texts in the working directory. -/
def textFiles (files : List (String × String)) : FileTree :=
  { cwd := [], entries := files.map fun f => ([f.1], .file f.2.toUTF8.toList) }

/-- Definition `A` leads to definition `B`, and this one to a file. -/
def chained : RefScope :=
  { files := textFiles [("a.json", "\x7b\"title\": \"A\"\x7d")]
    base := "s.json"
    root := .map [("definitions", .map
      [("A", .map [("$ref", "#/definitions/B")]),
        ("B", .map [("$ref", "a.json")])])] }

/-- Calls after all files were removed. The second one fails. -/
def callsWithoutFiles : List (FileTree × Call) :=
  [(textFiles [], .note (.str "a.json")), (textFiles [], .resolve (.str "b.json"))]

theorem resolve_again_removed_file : ∃ v s, exec (chained.resolve (.str "#/definitions/A")) {} = (.ok v, s) ∧
      exec ((withFiles chained (textFiles [])).resolve (.str "#/definitions/A"))
        (runCalls chained callsWithoutFiles s) = (.ok v, runCalls chained callsWithoutFiles s) := by
  have hok : (exec (chained.resolve (.str "#/definitions/A")) {}).1.isOk = true := by
    decide +kernel
  obtain ⟨v, hv⟩ := Outcome.eq_ok_of_isOk hok
  have hrun : exec (chained.resolve (.str "#/definitions/A")) {} = (.ok v, _) := Prod.ext hv rfl
  exact ⟨v, _, hrun, resolve_again hrun callsWithoutFiles (textFiles [])⟩

/-! ## After a failure -/

/-- The file that a reference leads to, if it leads to one, cannot be read. -/
def Unreadable (scope : RefScope) (ref : Value) : Prop :=
  ∀ via file, scope.leadsTo ref = .ok (.file via file) →
    ∃ e, (Load.load scope.files .on (scope.path file)).2 = .error e

/-- The definition on the way to a file, if a reference has one, is recorded. -/
def Recorded (scope : RefScope) (t : Tables) (ref : Value) : Prop :=
  ∀ name file, scope.leadsTo ref = .ok (.file (some name) file) →
    t.definitions.get? name = some file

theorem unreadable_iff_of_file (lead : scope.leadsTo ref = .ok (.file via file)) :
    Unreadable scope ref ↔ ∃ e, (Load.load scope.files .on (scope.path file)).2 = .error e := by
  refine ⟨fun h => h via file lead, fun h via' file' heq => ?_⟩
  cases lead.symm.trans heq
  exact h

theorem recorded_iff_of_file (lead : scope.leadsTo ref = .ok (.file via file)) :
    Recorded scope t ref ↔ ∀ name, via = some name → t.definitions.get? name = some file := by
  constructor
  · rintro h name rfl
    exact h name file lead
  · intro h name file' heq
    cases lead.symm.trans heq
    exact h name rfl

theorem failed_resolve_cases (h : exec (scope.resolve ref) s = (.error e, s')) :
    (scope.leadsTo ref = .error e ∧ s' = s) ∨ ∃ via file, scope.leadsTo ref = .ok (.file via file) ∧
      s.tables.loaded.get? (scope.path file) = none ∧
      ((∃ e', (Load.load scope.files .on (scope.path file)).2 = .error e' ∧ s'.tables = (record via file s).tables) ∨
        ∃ v, (Load.load scope.files .on (scope.path file)).2 = .ok v ∧ Settled scope s'.tables ref v) := by
  cases hlead : scope.leadsTo ref with
  | error e' =>
    rw [exec_resolve_error hlead] at h
    cases h
    exact .inl ⟨rfl, rfl⟩
  | ok d =>
    cases d with
    | definition w =>
      rw [exec_resolve_definition hlead] at h
      cases h
    | file via file =>
      have hrecorded := recorded_of_exec_resolve hlead h
      rw [exec_resolve_file hlead] at h
      refine .inr ⟨via, file, rfl, ?_⟩
      cases hfound : s.tables.loaded.get? (scope.path file)
      case some w =>
        rw [← record_loaded via file] at hfound
        rw [exec_external_cached hfound] at h
        cases h
      refine ⟨rfl, ?_⟩
      rw [← record_loaded via file] at hfound
      cases hread : (Load.load scope.files .on (scope.path file)).2 with
      | error e' =>
        rw [exec_external_unread hfound hread] at h
        cases h
        exact .inl ⟨e', rfl, rfl⟩
      | ok w =>
        exact .inr ⟨w, rfl, .file hlead (exec_external_read hfound hread h).1 hrecorded⟩

/-- After a failure the tables are as they were exactly if the file cannot be read and the definition on
the way was recorded before, and the failure repeats exactly if the file cannot be read. -/
theorem failed_resolve_iff {scope : RefScope} {ref : Value} {s s' : RefState} {e : Fault}
    (h : exec (scope.resolve ref) s = (.error e, s')) :
    (s'.tables = s.tables ↔ Unreadable scope ref ∧ Recorded scope s.tables ref) ∧
    ((∃ e' s'', exec (scope.resolve ref) s' = (.error e', s'')) ↔ Unreadable scope ref) := by
  rcases failed_resolve_cases h with ⟨hlead, rfl⟩ | ⟨via, file, hlead, hfresh, hunread | hread⟩
  · have hnowhere : ∀ via file, scope.leadsTo ref ≠ .ok (.file via file) := by
      rw [hlead]
      exact nofun
    have hunreadable : Unreadable scope ref := fun via file heq => absurd heq (hnowhere via file)
    refine ⟨iff_of_true rfl ⟨hunreadable, ?_⟩, iff_of_true ⟨e, s', h⟩ hunreadable⟩
    exact fun name file heq => absurd heq (hnowhere (some name) file)
  · obtain ⟨e', hunread, htables⟩ := hunread
    have hunreadable : Unreadable scope ref := (unreadable_iff_of_file hlead).mpr ⟨e', hunread⟩
    have hagain : ∃ e' s'', exec (scope.resolve ref) s' = (.error e', s'') := by
      rw [exec_resolve_file hlead]
      refine ⟨_, _, exec_external_unread ?_ hunread⟩
      rw [record_loaded, htables, record_loaded]
      exact hfresh
    -- all that was written is the definition, so it has to be there before
    rw [recorded_iff_of_file hlead]
    refine ⟨⟨fun hsame => ⟨hunreadable, ?_⟩, fun hcond => ?_⟩, iff_of_true hagain hunreadable⟩
    · rw [← hsame, htables]
      exact recorded_record via file s
    · rw [htables, record_eq_self hcond.2]
  · obtain ⟨v, hread, hsettled⟩ := hread
    have hreadable : ¬ Unreadable scope ref := by
      rw [unreadable_iff_of_file hlead]
      rintro ⟨e', he'⟩
      cases hread.symm.trans he'
    -- the reference is settled now, and it was not before
    refine ⟨iff_of_false ?_ fun hcond => hreadable hcond.1, iff_of_false ?_ hreadable⟩
    · intro hsame
      rw [hsame] at hsettled
      cases hsettled.exec_resolve.symm.trans h
    · rintro ⟨e', s'', hagain⟩
      cases hsettled.exec_resolve.symm.trans hagain

/-- A file with an array whose items refer to a file that is missing. -/
def danglingItems : RefScope :=
  { files := textFiles [("a.json", "\x7b\"properties\": \x7b\"xs\": " ++
      "\x7b\"type\": \"array\", \"items\": \x7b\"$ref\": \"gone.json\"\x7d\x7d\x7d\x7d")]
    base := "s.json"
    root := .map [] }

theorem failed_resolve_missing_file :
    ∃ e s, exec (danglingItems.resolve (.str "gone.json")) {} = (.error e, s) ∧ s.tables = {} ∧
      ∃ e' s', exec (danglingItems.resolve (.str "gone.json")) s = (.error e', s') := by
  have hfails : (exec (danglingItems.resolve (.str "gone.json")) {}).1.isOk = false := by
    decide +kernel
  obtain ⟨e, he⟩ := Outcome.eq_error_of_not_isOk hfails
  have hrun : exec (danglingItems.resolve (.str "gone.json")) {} = (.error e, _) := Prod.ext he rfl
  have hlead : danglingItems.leadsTo (.str "gone.json") = .ok (.file none "gone.json") := rfl
  have hunreadable : Unreadable danglingItems (.str "gone.json") :=
    (unreadable_iff_of_file hlead).mpr (Outcome.eq_error_of_not_isOk (by decide +kernel))
  have hrecorded : Recorded danglingItems {} (.str "gone.json") := (recorded_iff_of_file hlead).mpr nofun
  obtain ⟨htables, hagain⟩ := failed_resolve_iff hrun
  exact ⟨e, _, hrun, htables.mpr ⟨hunreadable, hrecorded⟩, hagain.mpr hunreadable⟩

/-- The file with the array is read before its items are looked at. Its reference fails, but the file
stays in the tables, and the second time its reference is resolved. -/
theorem failed_resolve_keeps_document : (exec (danglingItems.resolve (.str "a.json")) {}).1.isOk = false ∧
    (exec (danglingItems.resolve (.str "a.json")) {}).2.tables.loaded.keys = ["a.json"] ∧
    (exec (danglingItems.resolve (.str "a.json"))
      (exec (danglingItems.resolve (.str "a.json")) {}).2).1.isOk = true := by
  decide +kernel

end Typewright.Reference
