import Typewright.Proofs.DefinitionChain

/-!
# Where preparation meets its limit

Preparation goes from a schema to the schemas that its references lead to, and keeps no record of those that it came
through.
-/

namespace Typewright

open RefM Value

variable {v root schema target definition : Value} {n : Nat} {t : FileTree} {name path text : String}
  {content : List UInt8} {ref : Value} {scope : RefScope} {next : Value → RefM Unit} {es : Entries}
  {s s' : RefState}

namespace Reference

/-! ## One visit, with its reference noted -/

section Attend

variable {scope : RefScope} {what : String} {next : Value → RefM Unit} {s : RefState}

theorem exec_prepareEntry_ref (href : schema.field "$ref" = .ok ref) : exec (prepareEntry scope what next schema) s =
      exec (scope.note ref >>= fun _ => attend scope what next ref) s := by
  unfold prepareEntry
  simp only [exec_bind, exec_lift, has_of_field href, href, Bool.not_true, Bool.false_eq_true, if_false]
  rfl

variable (scope what next s) in
theorem exec_attend_ok (ref : Value) : ∃ s', exec (attend scope what next ref) s = (.ok (), s') := by
  unfold attend
  rw [exec_tryCatch]
  split
  · next s' _ => exact ⟨s', rfl⟩
  · exact ⟨_, rfl⟩

theorem exec_attend_map {s1 : RefState}
    (hresolve : exec (scope.resolve ref) s = (.ok target, s1)) (hmap : target.isMap) :
    exec (attend scope what next ref) s =
      match exec (next target) s1 with
      | (.ok (), s') => (.ok (), s')
      | (.error e, s') => exec (RefM.report
          ["Warning: Could not resolve " ++ what ++ " " ++ ref.text ++ ": " ++ e.message]) s' := by
  unfold attend
  rw [exec_tryCatch, exec_bind, hresolve]
  simp only [hmap, if_true]
  rcases exec (next target) s1 with ⟨e | u, s'⟩ <;> rfl

end Attend

theorem exec_note_text (scope : RefScope) (text : String) (s : RefState) :
    ∃ s', exec (scope.note (.str text)) s = (.ok (), s') := by
  unfold RefScope.note
  simp only [exec_bind, exec_lift, textOf]
  split
  · exact ⟨s, rfl⟩
  simp only [exec_bind, exec_update, exec_tables]
  split
  · exact ⟨_, rfl⟩
  · exact ⟨_, rfl⟩

/-! ## The definitions of a schema -/

def prepareDefinitions (scope : RefScope) (next : Value → RefM Unit) (schema : Value) :
    RefM Unit := do
  if ← schema.has "definitions" then
    prepareAll scope "definition reference" next (← (← schema.field "definitions").entries)

theorem prepareFrom_succ (scope : RefScope) (n : Nat) (schema : Value) :
    prepareFrom scope (n + 1) schema = (do
      prepareAll scope "reference" (prepareFrom scope n) (← schema.entriesAt "properties")
      prepareDefinitions scope (prepareFrom scope n) schema) := rfl

theorem prepareDefinitions_changes (hnext : ∀ v s, Makes (Change scope) (next v) s) (schema : Value) (s : RefState) :
    Makes (Change scope) (prepareDefinitions scope next schema) s := by
  refine makes_bind (makes_lift _) fun hasDefinitions s1 _ => ?_
  split
  · refine makes_bind (makes_lift _) fun definitions s2 _ => ?_
    refine makes_bind (makes_lift _) fun entries s3 _ => ?_
    exact prepareAll_changes hnext _ entries s3
  · exact makes_pure ()

theorem exec_prepareDefinitions {group : Value} (hgroup : schema.field "definitions" = .ok group)
    (hes : group.entries = .ok es) (s : RefState) : exec (prepareDefinitions scope next schema) s =
      exec (prepareAll scope "definition reference" next es) s := by
  unfold prepareDefinitions
  simp only [exec_bind, exec_lift, has_of_field hgroup, if_true, hgroup, hes]

/-! ## Runs that meet the limit -/

/-- On the way through the entries a reference is noted, and the state is the second one then. -/
inductive VisitsEntry (scope : RefScope) (what : String) (next : Value → RefM Unit) :
    Entries → RefState → Value → RefState → Prop
  | here {e : Scalar × Value} {rest : Entries} {s s' : RefState} {ref : Value}
      (href : e.2.field "$ref" = .ok ref) (hnote : exec (scope.note ref) s = (.ok (), s')) :
      VisitsEntry scope what next (e :: rest) s ref s'
  | later {e : Scalar × Value} {rest : Entries} {s s1 s' : RefState} {ref : Value}
      (hfirst : exec (prepareEntry scope what next e.2) s = (.ok (), s1))
      (hrest : VisitsEntry scope what next rest s1 ref s') :
      VisitsEntry scope what next (e :: rest) s ref s'

/-- In the run on a schema, with `n` schemas allowed below it, a reference is noted, and the state is
the second one then. -/
inductive Visits (scope : RefScope) (n : Nat) (schema : Value) (s : RefState) (ref : Value)
    (s' : RefState) : Prop
  | property {es : Entries} (hes : schema.entriesAt "properties" = .ok es)
      (hvisit : VisitsEntry scope "reference" (prepareFrom scope n) es s ref s')
  | definition {ps es : Entries} {group : Value} {s1 : RefState}
      (hps : schema.entriesAt "properties" = .ok ps)
      (hfirst : exec (prepareAll scope "reference" (prepareFrom scope n) ps) s = (.ok (), s1))
      (hgroup : schema.field "definitions" = .ok group) (hes : group.entries = .ok es)
      (hvisit : VisitsEntry scope "definition reference" (prepareFrom scope n) es s1 ref s')

/-- The run from a schema, over at most `n` schemas below each other, comes to a schema at the limit or
to a reference whose definitions have no end. -/
inductive MeetsLimit (scope : RefScope) : Nat → Value → RefState → Prop
  | limit (schema : Value) (s : RefState) : MeetsLimit scope 0 schema s
  | chain {n : Nat} {schema ref : Value} {s s1 : RefState} (hvisit : Visits scope n schema s ref s1)
      (hendless : scope.leadsTo ref = .error .tooDeep) : MeetsLimit scope (n + 1) schema s
  | nested {n : Nat} {schema ref target : Value} {s s1 s2 : RefState}
      (hvisit : Visits scope n schema s ref s1)
      (hresolve : exec (scope.resolve ref) s1 = (.ok target, s2)) (hmap : target.isMap = true)
      (hbelow : MeetsLimit scope n target s2) : MeetsLimit scope (n + 1) schema s

section VisitsEntry

variable {scope : RefScope} {what : String} {next : Value → RefM Unit} {es : Entries}
  {s s' : RefState} {ref : Value}

theorem VisitsEntry.mem (h : VisitsEntry scope what next es s ref s') : ∃ e ∈ es, e.2.field "$ref" = .ok ref := by
  induction h with
  | here href _ => exact ⟨_, .head _, href⟩
  | later _ _ ih =>
    obtain ⟨e, he, href⟩ := ih
    exact ⟨e, .tail _ he, href⟩

theorem VisitsEntry.changes (hnext : ∀ v s, Makes (Change scope) (next v) s)
    (h : VisitsEntry scope what next es s ref s') : Changes scope s s' := by
  induction h with
  | here _ hnote => exact steps_of_exec (note_changes scope _ _) hnote
  | later hfirst _ ih =>
    exact (steps_of_exec (prepareEntry_makes (callsMake_change scope) _ hnext _ _ _) hfirst).trans ih

theorem VisitsEntry.exec_prepareAll (h : VisitsEntry scope what next es s ref s') :
    ∃ rest, exec (prepareAll scope what next es) s =
      exec (attend scope what next ref >>= fun _ => prepareAll scope what next rest) s' := by
  induction h with
  | @here e rest s s' ref href hnote =>
    refine ⟨rest, ?_⟩
    rw [prepareAll, exec_bind, exec_prepareEntry_ref href, exec_bind, hnote]
    exact (exec_bind _ _ s').symm
  | later hfirst _ ih =>
    obtain ⟨rest, heq⟩ := ih
    refine ⟨rest, ?_⟩
    rw [prepareAll, exec_bind, hfirst]
    exact heq

end VisitsEntry

theorem Visits.hasRef (h : Visits scope n schema s ref s') : HasRef schema ref := by
  cases h with
  | property hes hvisit =>
    obtain ⟨e, he, href⟩ := hvisit.mem
    obtain ⟨group, hgroup, hes⟩ := field_of_entriesAt hes he
    exact ⟨"properties", by simp, group, _, e, hgroup, hes, he, href⟩
  | definition hps hfirst hgroup hes hvisit =>
    obtain ⟨e, he, href⟩ := hvisit.mem
    exact ⟨"definitions", by simp, _, _, e, hgroup, hes, he, href⟩

theorem Visits.changes {scope : RefScope} {ref : Value} {s s' : RefState}
    (h : Visits scope n schema s ref s') : Changes scope s s' := by
  have hnext := prepareFrom_changes scope n
  cases h with
  | property hes hvisit => exact hvisit.changes hnext
  | definition hps hfirst hgroup hes hvisit =>
    exact (steps_of_exec (prepareAll_changes hnext _ _ _) hfirst).trans (hvisit.changes hnext)

theorem VisitsEntry.goesOn {what : String} (hnext : ∀ v s, Makes (Change scope) (next v) s)
    (h : VisitsEntry scope what next es s ref s') : Changes scope (exec (attend scope what next ref) s').2
      (exec (prepareAll scope what next es) s).2 := by
  obtain ⟨rest, heq⟩ := h.exec_prepareAll
  obtain ⟨s1, hattend⟩ := exec_attend_ok scope what next s' ref
  rw [heq, exec_bind, hattend]
  exact prepareAll_changes hnext what rest s1

theorem Visits.goesOn {scope : RefScope} {ref : Value} {s s' : RefState} (h : Visits scope n schema s ref s') :
    ∃ what, Changes scope (exec (attend scope what (prepareFrom scope n) ref) s').2
      (exec (prepareFrom scope (n + 1) schema) s).2 := by
  have hnext := prepareFrom_changes scope n
  rw [prepareFrom_succ]
  cases h with
  | @property es hes hvisit =>
    refine ⟨"reference", (hvisit.goesOn hnext).trans ?_⟩
    simp only [exec_bind, exec_lift, hes]
    rcases exec (prepareAll scope "reference" (prepareFrom scope n) es) s with ⟨e | u, s1⟩
    · exact .refl
    · exact prepareDefinitions_changes hnext schema s1
  | definition hps hfirst hgroup hes hvisit =>
    refine ⟨"definition reference", ?_⟩
    simp only [exec_bind, exec_lift, hps, hfirst, exec_prepareDefinitions hgroup hes]
    exact hvisit.goesOn hnext

/-! ## The warning -/

def tooDeepWarning (what : String) (ref : Value) : String :=
  "Warning: Could not resolve " ++ what ++ " " ++ ref.text ++ ": " ++ Fault.tooDeep.message

theorem mem_log_of_changes (h : Changes scope s s') {line : String} (hline : line ∈ s.log) : line ∈ s'.log :=
  keep_of_steps (P := fun t => line ∈ t.log) (fun _ _ hc hmem => hc.keeps_log.subset hmem) h hline

theorem MeetsLimit.warns (h : MeetsLimit scope (n + 1) schema s) :
    ∃ line, (∃ what ref, line = tooDeepWarning what ref) ∧
      line ∈ (exec (prepareFrom scope (n + 1) schema) s).2.log := by
  generalize hm : n + 1 = m at h
  induction h generalizing n with
  | limit schema s => cases hm
  | @chain m schema ref s s1 hvisit hendless =>
    cases hm
    obtain ⟨what, hlater⟩ := hvisit.goesOn
    refine ⟨tooDeepWarning what ref, ⟨what, ref, rfl⟩, mem_log_of_changes hlater ?_⟩
    unfold attend
    rw [exec_tryCatch, exec_bind, RefScope.exec_resolve_error hendless]
    exact List.mem_append_right _ (List.mem_singleton_self _)
  | @nested m schema ref target s s1 s2 hvisit hresolve hmap hbelow ih =>
    cases hm
    obtain ⟨what, hlater⟩ := hvisit.goesOn
    rw [exec_attend_map hresolve hmap] at hlater
    cases m with
    | zero =>
      refine ⟨tooDeepWarning what ref, ⟨what, ref, rfl⟩, mem_log_of_changes hlater ?_⟩
      exact List.mem_append_right _ (List.mem_singleton_self _)
    | succ m =>
      obtain ⟨line, hP, hline⟩ := ih rfl
      refine ⟨line, hP, mem_log_of_changes hlater ?_⟩
      rcases hrun : exec (prepareFrom scope (m + 1) target) s2 with ⟨e | u, s'⟩
      · rw [hrun] at hline
        exact List.mem_append_left _ hline
      · rw [hrun] at hline
        exact hline

theorem MeetsLimit.prepare_warns (h : MeetsLimit scope nestingLimit schema s) :
    ∃ line, (∃ what ref, line = tooDeepWarning what ref) ∧ line ∈ (exec (prepare scope schema) s).2.log := by
  obtain ⟨n, hn⟩ : ∃ n, nestingLimit = n + 1 := ⟨999, rfl⟩
  unfold prepare
  rw [hn] at h ⊢
  exact h.warns

/-! ## Runs that do not meet the limit -/

section SameRun

variable {scope : RefScope} {what : String} {next next' : Value → RefM Unit}

theorem exec_attend_congr (h : ∀ target s1, exec (scope.resolve ref) s = (.ok target, s1) → target.isMap →
      exec (next' target) s1 = exec (next target) s1) :
    exec (attend scope what next' ref) s = exec (attend scope what next ref) s := by
  unfold attend
  rw [exec_tryCatch, exec_tryCatch, exec_bind, exec_bind]
  rcases hresolve : exec (scope.resolve ref) s with ⟨e | target, s1⟩
  · rfl
  · by_cases hmap : target.isMap
    · simp only [hmap, if_true, h target s1 hresolve hmap]
    · simp only [hmap, Bool.false_eq_true, if_false]

theorem exec_prepareAll_congr (h : ∀ ref s1 target s2, VisitsEntry scope what next es s ref s1 →
      exec (scope.resolve ref) s1 = (.ok target, s2) → target.isMap → exec (next' target) s2 = exec (next target) s2) :
    exec (prepareAll scope what next' es) s = exec (prepareAll scope what next es) s := by
  induction es generalizing s with
  | nil => rfl
  | cons e rest ih =>
    have hfirst : exec (prepareEntry scope what next' e.2) s = exec (prepareEntry scope what next e.2) s := by
      cases href : e.2.field "$ref" with
      | error fault =>
        unfold prepareEntry
        simp only [exec_bind, exec_lift, href]
        rcases e.2.has "$ref" with fault' | isRef
        · rfl
        · cases isRef <;> rfl
      | ok ref =>
        rw [exec_prepareEntry_ref href, exec_prepareEntry_ref href, exec_bind, exec_bind]
        rcases hnote : exec (scope.note ref) s with ⟨fault | u, s1⟩
        · rfl
        · exact exec_attend_congr fun target s2 => h ref s1 target s2 (.here href hnote)
    unfold prepareAll
    rw [exec_bind, exec_bind, hfirst]
    rcases hrun : exec (prepareEntry scope what next e.2) s with ⟨fault | u, s1⟩
    · rfl
    · exact ih fun ref s2 target s3 hvisit => h ref s2 target s3 (.later hrun hvisit)

theorem exec_prepareDefinitions_congr (h : ∀ group es, schema.field "definitions" = .ok group → group.entries = .ok es →
      ∀ ref s1 target s2, VisitsEntry scope "definition reference" next es s ref s1 →
      exec (scope.resolve ref) s1 = (.ok target, s2) → target.isMap → exec (next' target) s2 = exec (next target) s2) :
    exec (prepareDefinitions scope next' schema) s = exec (prepareDefinitions scope next schema) s := by
  unfold prepareDefinitions
  simp only [exec_bind, exec_lift]
  rcases schema.has "definitions" with e | hasDefinitions
  · simp only []
  cases hasDefinitions with
  | false => simp only [Bool.false_eq_true, if_false]
  | true =>
    simp only [if_true, exec_bind, exec_lift]
    cases hgroup : schema.field "definitions" with
    | error e => simp only []
    | ok group =>
      simp only []
      cases hes : group.entries with
      | error e => simp only []
      | ok es => exact exec_prepareAll_congr (h group es hgroup hes)

end SameRun

theorem exec_prepareFrom_of_not_meetsLimit {m : Nat} (h : ¬ MeetsLimit scope n schema s) (le : n ≤ m) :
    exec (prepareFrom scope m schema) s = exec (prepareFrom scope n schema) s := by
  induction n generalizing m schema s with
  | zero => exact absurd (.limit schema s) h
  | succ n ih =>
    obtain ⟨m, rfl⟩ : ∃ k, m = k + 1 := ⟨m - 1, by omega⟩
    have hbelow : ∀ ref s1 target s2, Visits scope n schema s ref s1 →
        exec (scope.resolve ref) s1 = (.ok target, s2) → target.isMap →
        exec (prepareFrom scope m target) s2 = exec (prepareFrom scope n target) s2 := by
      intro ref s1 target s2 hvisit hresolve hmap
      exact ih (fun hmeets => h (.nested hvisit hresolve hmap hmeets)) (by omega)
    rw [prepareFrom_succ, prepareFrom_succ, exec_bind, exec_bind, exec_lift]
    cases hps : schema.entriesAt "properties" with
    | error e => rfl
    | ok ps =>
      simp only []
      rw [exec_bind, exec_bind, exec_prepareAll_congr fun ref s1 target s2 hvisit =>
        hbelow ref s1 target s2 (.property hps hvisit)]
      rcases hfirst : exec (prepareAll scope "reference" (prepareFrom scope n) ps) s with
        ⟨e | u, s1⟩
      · rfl
      · exact exec_prepareDefinitions_congr fun group es hgroup hes ref s2 target s3 hvisit =>
          hbelow ref s2 target s3 (.definition hps hfirst hgroup hes hvisit)

/-! ## Where references may lead, and where they must -/

/-- A reference on the first schema leads to the second one, from some state of the tables. -/
def MayLead (scope : RefScope) (schema target : Value) : Prop :=
  target.isMap = true ∧ ∃ s, Sound scope s.tables ∧ Leads scope s schema target

/-- A reference on the schema leads over definitions without end. -/
def MayStick (scope : RefScope) (schema : Value) : Prop :=
  ∃ text, HasRef schema (.str text) ∧ EndlessChain scope.root text

/-- The schema is not a reference, or its reference is text. -/
def PlainEntry (schema : Value) : Prop :=
  schema.has "$ref" = .ok false ∨ ∃ text, schema.field "$ref" = .ok (.str text)

structure Plain (schema : Value) : Prop where
  properties : ∃ es, schema.entriesAt "properties" = .ok es ∧ ∀ e ∈ es, PlainEntry e.2
  definitions : schema.has "definitions" = .ok false ∨ ∃ group es,
    schema.field "definitions" = .ok group ∧ group.entries = .ok es ∧ ∀ e ∈ es, PlainEntry e.2

/-- A reference on the first schema, which is plain, leads to the second one from every state of the
tables. -/
def MustLead (scope : RefScope) (schema target : Value) : Prop :=
  Plain schema ∧ target.isMap = true ∧ ∃ ref, HasRef schema ref ∧
    ∀ s, Sound scope s.tables → ∃ s', exec (scope.resolve ref) s = (.ok target, s')

/-- The schema is plain, and a reference on it leads over definitions without end. -/
def MustStick (scope : RefScope) (schema : Value) : Prop :=
  Plain schema ∧ MayStick scope schema

theorem MeetsLimit.descends (h : MeetsLimit scope n schema s) (hs : Sound scope s.tables) :
    Descends (MayLead scope) (MayStick scope) n schema := by
  induction h with
  | limit schema s => trivial
  | chain hvisit hendless =>
    obtain ⟨text, rfl, hchain⟩ := leadsTo_eq_tooDeep_iff.mp hendless
    exact .inl ⟨text, hvisit.hasRef, hchain⟩
  | @nested n schema ref target s s1 s2 hvisit hresolve hmap _ ih =>
    have hs1 := sound_of_changes hvisit.changes hs
    have hs2 := sound_of_changes (steps_of_exec (resolve_changes scope ref s1) hresolve) hs1
    exact .inr ⟨target, ⟨hmap, s1, hs1, ref, s2, hvisit.hasRef, hresolve⟩, ih hs2⟩

section PlainRuns

variable {scope : RefScope} {what : String} {next : Value → RefM Unit}

theorem exec_prepareEntry_plain (h : PlainEntry schema) (s : RefState) :
    ∃ s', exec (prepareEntry scope what next schema) s = (.ok (), s') := by
  rcases h with hno | ⟨text, href⟩
  · refine ⟨s, ?_⟩
    unfold prepareEntry
    rw [exec_bind, exec_lift, hno]
    rfl
  · obtain ⟨s1, hnote⟩ := exec_note_text scope text s
    rw [exec_prepareEntry_ref href, exec_bind, hnote]
    exact exec_attend_ok scope what next s1 _

theorem exec_prepareAll_plain (h : ∀ e ∈ es, PlainEntry e.2) (s : RefState) :
    ∃ s', exec (prepareAll scope what next es) s = (.ok (), s') := by
  induction es generalizing s with
  | nil => exact ⟨s, rfl⟩
  | cons e rest ih =>
    obtain ⟨s1, hfirst⟩ := exec_prepareEntry_plain (h e (.head _)) s
    rw [prepareAll, exec_bind, hfirst]
    exact ih (fun f hf => h f (.tail _ hf)) s1

theorem visitsEntry_of_plain (h : ∀ e ∈ es, PlainEntry e.2) {e : Scalar × Value}
    (he : e ∈ es) (href : e.2.field "$ref" = .ok (.str text)) (s : RefState) :
    ∃ s', VisitsEntry scope what next es s (.str text) s' := by
  induction es generalizing s with
  | nil => cases he
  | cons f rest ih =>
    rcases List.mem_cons.mp he with rfl | he
    · obtain ⟨s', hnote⟩ := exec_note_text scope text s
      exact ⟨s', .here href hnote⟩
    · obtain ⟨s1, hfirst⟩ := exec_prepareEntry_plain (h f (.head _)) s
      obtain ⟨s', hvisit⟩ := ih (fun g hg => h g (.tail _ hg)) he s1
      exact ⟨s', .later hfirst hvisit⟩

end PlainRuns

theorem PlainEntry.ref_text (h : PlainEntry schema)
    (href : schema.field "$ref" = .ok ref) : ∃ text, ref = .str text := by
  rcases h with hno | ⟨text, htext⟩
  · cases hno.symm.trans (has_of_field href)
  · cases href.symm.trans htext
    exact ⟨text, rfl⟩

theorem Plain.visits {ref : Value} (h : Plain schema) (href : HasRef schema ref)
    (scope : RefScope) (n : Nat) (s : RefState) : ∃ s', Visits scope n schema s ref s' := by
  obtain ⟨ps, hps, hplain⟩ := h.properties
  obtain ⟨part, hpart, group, es, e, hgroup, hes, he, hfield⟩ := href
  simp only [List.mem_cons, List.not_mem_nil, or_false] at hpart
  rcases hpart with rfl | rfl
  · rw [entriesAt_of_field hgroup, hes] at hps
    cases hps
    obtain ⟨text, rfl⟩ := (hplain e he).ref_text hfield
    obtain ⟨s', hvisit⟩ := visitsEntry_of_plain hplain he hfield s
    exact ⟨s', .property ((entriesAt_of_field hgroup).trans hes) hvisit⟩
  obtain ⟨s1, hfirst⟩ := exec_prepareAll_plain hplain s
  rcases h.definitions with hno | ⟨group', es', hgroup', hes', hplain'⟩
  · cases hno.symm.trans (has_of_field hgroup)
  cases hgroup.symm.trans hgroup'
  cases hes.symm.trans hes'
  obtain ⟨text, rfl⟩ := (hplain' e he).ref_text hfield
  obtain ⟨s', hvisit⟩ := visitsEntry_of_plain hplain' he hfield s1
  exact ⟨s', .definition hps hfirst hgroup hes hvisit⟩

theorem exec_prepareFrom_plain (h : Plain schema) (scope : RefScope) (n : Nat)
    (s : RefState) : ∃ s', exec (prepareFrom scope (n + 1) schema) s = (.ok (), s') := by
  obtain ⟨ps, hps, hplain⟩ := h.properties
  obtain ⟨s1, hfirst⟩ : ∃ s1, exec (prepareAll scope "reference" (prepareFrom scope n) ps) s =
      (.ok (), s1) := exec_prepareAll_plain hplain s
  rw [prepareFrom_succ]
  simp only [exec_bind, exec_lift, hps, hfirst]
  rcases h.definitions with hno | ⟨group, es, hgroup, hes, hplain'⟩
  · refine ⟨s1, ?_⟩
    unfold prepareDefinitions
    rw [exec_bind, exec_lift, hno]
    rfl
  · rw [exec_prepareDefinitions hgroup hes]
    exact exec_prepareAll_plain hplain' s1

theorem meetsLimit_of_descends (h : Descends (MustLead scope) (MustStick scope) n schema) (hs : Sound scope s.tables) :
    MeetsLimit scope n schema s := by
  induction n generalizing schema s with
  | zero => exact .limit schema s
  | succ n ih =>
    rcases h with ⟨hplain, text, href, hchain⟩ | ⟨target, ⟨hplain, hmap, ref, href, hleads⟩, hbelow⟩
    · obtain ⟨s1, hvisit⟩ := hplain.visits href scope n s
      exact .chain hvisit (leadsTo_eq_tooDeep_iff.mpr ⟨text, rfl, hchain⟩)
    obtain ⟨s1, hvisit⟩ := hplain.visits href scope n s
    have hs1 := sound_of_changes hvisit.changes hs
    obtain ⟨s2, hresolve⟩ := hleads s1 hs1
    have hs2 := sound_of_changes (steps_of_exec (resolve_changes scope ref s1) hresolve) hs1
    exact .nested hvisit hresolve hmap (ih hbelow hs2)

/-! ## The schemas that references lead to -/

/-- What the content of a file can be read as. -/
def readings : Entry → List Value
  | .file content =>
    [do Yaml.read (← decodeText false content), do Json.read (← decodeText true content)].filterMap
      Except.toOption
  | .directory => []

def definitionValues (root : Value) : List Value :=
  match root.entriesAt "definitions" with
  | .ok definitions => definitions.map (·.2)
  | .error _ => []

/-- The schemas that references can lead to: the definitions, and what the files can be read as. -/
def targets (scope : RefScope) : List Value :=
  definitionValues scope.root ++ scope.files.entries.flatMap fun e => readings e.2

theorem mem_entries_of_walk {dir parts names : List String}
    (h : t.walk dir parts = .ok ⟨names, some (.file content)⟩) : (names, Entry.file content) ∈ t.entries := by
  induction parts generalizing dir with
  | nil => cases h
  | cons part rest ih =>
    unfold FileTree.walk at h
    split at h
    · exact ih h
    split at h
    · exact ih h
    dsimp only at h
    split at h
    · exact ih h
    · next e _ hfound =>
      split at h
      · cases h
        unfold FileTree.find? at hfound
        split at hfound
        · cases hfound
        obtain ⟨x, hx, hentry⟩ := Option.map_eq_some_iff.mp hfound
        have hnames : x.1 = dir ++ [part] := by simpa using List.find?_some hx
        rw [← hnames, ← hentry]
        exact List.mem_of_find?_eq_some hx
      · cases h
    · split at h <;> cases h

theorem mem_entries_of_read (h : t.read path = .ok content) : ∃ names, (names, Entry.file content) ∈ t.entries := by
  unfold FileTree.read at h
  split at h
  · next names content' hlocate =>
    cases h
    unfold FileTree.locate at hlocate
    split at hlocate
    · cases hlocate
    · exact ⟨names, mem_entries_of_walk hlocate⟩
  all_goals cases h

theorem mem_readings_of_load (h : (Load.load t .on path).2 = .ok v) : ∃ e ∈ t.entries, v ∈ readings e.2 := by
  have hdocument : Load.document t .on path = .ok v := by
    unfold Load.load at h
    dsimp only at h
    split at h
    · next hdocument => rwa [hdocument]
    · cases h
  obtain ⟨content, hread, hv⟩ := bind_ok hdocument
  obtain ⟨names, hmem⟩ := mem_entries_of_read hread
  refine ⟨_, hmem, ?_⟩
  have hchecked : ∀ {w : Value}, Load.checkMap path w = .ok v → w = v := by
    intro w hw
    unfold Load.checkMap at hw
    split at hw
    · cases hw
      rfl
    · cases hw
  split at hv
  · obtain ⟨text, htext, hv⟩ := bind_ok hv
    obtain ⟨w, hw, hv⟩ := bind_ok hv
    cases hchecked hv
    simp [readings, htext, hw, Except.toOption]
  · obtain ⟨text, htext, hv⟩ := bind_ok hv
    obtain ⟨w, hw, hv⟩ := bind_ok hv
    cases hchecked hv
    simp [readings, htext, hw, Except.toOption]

theorem mem_definitionValues (h : definition? root name = .ok (some definition)) :
    definition ∈ definitionValues root := by
  obtain ⟨definitions, hdefs, hfield⟩ := bind_ok (definition?_eq_some h)
  obtain ⟨es, rfl, hfound⟩ := field_eq_ok hfield
  obtain ⟨key, _, hmem⟩ := mem_of_find? hfound
  unfold definitionValues
  rw [entriesAt_of_field hdefs]
  exact List.mem_map.mpr ⟨(key, definition), hmem, rfl⟩

theorem definition?_of_destination {fuel : Nat} {ref : String}
    (h : destination root fuel ref = .ok (.definition definition)) :
    ∃ name, definition? root name = .ok (some definition) ∧ definition.has "$ref" = .ok false := by
  induction fuel generalizing ref with
  | zero => cases h
  | succ fuel ih =>
    unfold destination at h
    split at h
    · obtain ⟨found, hfound, h⟩ := bind_ok h
      cases found with
      | none => cases h
      | some d =>
        obtain ⟨isRef, hisRef, h⟩ := bind_ok h
        split at h
        · next hno =>
          cases h
          exact ⟨_, hfound, hisRef.trans (by simpa using hno)⟩
        obtain ⟨target, _, h⟩ := bind_ok h
        obtain ⟨next, _, h⟩ := bind_ok h
        split at h
        · exact ih h
        · cases h
    · split at h <;> cases h

theorem mem_targets (h : MayLead scope schema target) : target ∈ targets scope := by
  obtain ⟨_, s, hs, ref, s', _, hresolve⟩ := h
  have hs' := sound_of_changes (steps_of_exec (resolve_changes scope ref s) hresolve) hs
  cases settled_of_exec_resolve hresolve with
  | definition lead =>
    obtain ⟨text, _, hdestination⟩ := bind_ok lead
    obtain ⟨name, hname, _⟩ := definition?_of_destination hdestination
    exact List.mem_append_left _ (mem_definitionValues hname)
  | file lead found recorded =>
    obtain ⟨e, he, hmem⟩ := mem_readings_of_load (hs'.loaded _ _ (Table.mem_of_get? found))
    exact List.mem_append_right _ (List.mem_flatMap.mpr ⟨e, he, hmem⟩)

/-- References that must lead in a circle, or over definitions without end, meet every limit and are
reported as unresolvable. References that cannot do so come to an end: no limit above the number of
schemas that references can lead to is met, and none of these limits changes the run. -/
theorem prepareFrom_depth (scope : RefScope) (schema : Value) :
    (Endless (MustLead scope) (MustStick scope) schema → ∀ n,
      MeetsLimit scope n schema {} ∧ ∃ line, (∃ what ref, line = tooDeepWarning what ref) ∧
        line ∈ (exec (prepareFrom scope (n + 1) schema) {}).2.log) ∧
    (¬ Endless (MayLead scope) (MayStick scope) schema → ∀ n, (targets scope).length < n →
      ¬ MeetsLimit scope n schema {} ∧ ∀ m, n ≤ m →
        exec (prepareFrom scope m schema) {} = exec (prepareFrom scope n schema) {}) := by
  constructor
  · intro hendless n
    have hmeets : ∀ n, MeetsLimit scope n schema {} := fun n =>
      meetsLimit_of_descends (hendless.descends n) (sound_empty scope)
    exact ⟨hmeets n, (hmeets (n + 1)).warns⟩
  intro hends n hn
  have hnot : ¬ MeetsLimit scope n schema {} := by
    intro hmeets
    have hdescends := (hmeets.descends (sound_empty scope)).of_le hn
    exact hends (endless_of_descends (targets scope) (fun _ _ _ => mem_targets) hdescends)
  exact ⟨hnot, fun m hm => exec_prepareFrom_of_not_meetsLimit hnot hm⟩

/-! ## Lists and files that refer to each other -/

theorem mustLead_of_definition (hplain : Plain schema) (href : HasRef schema (.str text))
    (lead : scope.leadsTo (.str text) = .ok (.definition target)) (hmap : target.isMap) :
    MustLead scope schema target :=
  ⟨hplain, hmap, .str text, href, fun s _ => ⟨s, RefScope.exec_resolve_definition lead s⟩⟩

theorem exec_loadItems_none {load : String → RefM Value} (hitems : ∀ e ∈ es, itemRef e.2 = .ok none) (s : RefState) :
    exec (loadItems load es) s = (.ok (), s) := by
  induction es with
  | nil => rfl
  | cons e rest ih =>
    unfold loadItems
    rw [exec_bind, exec_lift, hitems e (.head _)]
    exact ih fun f hf => hitems f (.tail _ hf)

theorem exec_register_without_items (scope : RefScope) {ref : String}
    (hname : typeName ref v = .ok name) (hes : v.entriesAt "properties" = .ok es)
    (hitems : ∀ e ∈ es, itemRef e.2 = .ok none) (fuel : Nat) (s : RefState) :
    ∃ s', exec (register scope fuel ref v) s = (.ok (), s') := by
  unfold register
  simp only [exec_bind, exec_lift, hname, exec_update, hes, exec_loadItems_none hitems]
  exact ⟨_, rfl⟩

theorem mustLead_of_file {file : String} (hplain : Plain schema) (href : HasRef schema (.str file))
    (outer : isInner file = false) (read : (Load.load scope.files .on (scope.path file)).2 = .ok target)
    (hmap : target.isMap) (hname : typeName file target = .ok name)
    (hes : target.entriesAt "properties" = .ok es) (hitems : ∀ e ∈ es, itemRef e.2 = .ok none) :
    MustLead scope schema target := by
  refine ⟨hplain, hmap, .str file, href, fun s hs => ?_⟩
  rw [RefScope.exec_resolve_file (leadsTo_of_outer scope outer)]
  cases hfound : s.tables.loaded.get? (scope.path file)
  case some v =>
    cases (hs.loaded _ _ (Table.mem_of_get? hfound)).symm.trans read
    exact ⟨s, exec_external_cached hfound⟩
  obtain ⟨s', hregister⟩ := exec_register_without_items scope hname hes hitems
    (itemRefsOfFiles scope.files).length (withDocument scope file target s)
  refine ⟨s', ?_⟩
  show exec (external scope file) s = _
  rw [exec_external_fresh hfound, exec_load_read _ hfound read, hregister]

def referring (property ref : String) : Value :=
  .map [("properties", .map [(.str property, .map [("$ref", .str ref)])])]

theorem hasRef_referring (property ref : String) : HasRef (referring property ref) (.str ref) :=
  ⟨"properties", .head _, _, _, _, rfl, rfl, .head _, rfl⟩

theorem plain_referring (property ref : String) : Plain (referring property ref) :=
  ⟨⟨_, rfl, fun e he => .inr ⟨ref, by rw [List.mem_singleton.mp he]; rfl⟩⟩, .inl rfl⟩

def linkedList : RefScope :=
  { files := textFiles []
    base := "s.json"
    root := .map [
      ("properties", .map [("head", .map [("$ref", "#/definitions/Node")])]),
      ("definitions", .map [("Node", referring "next" "#/definitions/Node")])] }

def mutualFiles : RefScope :=
  { files := textFiles [
      ("a.json", "\x7b\"properties\": \x7b\"b\": \x7b\"$ref\": \"b.json\"\x7d\x7d\x7d"),
      ("b.json", "\x7b\"properties\": \x7b\"a\": \x7b\"$ref\": \"a.json\"\x7d\x7d\x7d")]
    base := "s.json"
    root := referring "a" "a.json" }

theorem endless_linkedList : Endless (MustLead linkedList) (MustStick linkedList) linkedList.root := by
  have hlead : linkedList.leadsTo (.str "#/definitions/Node") =
      .ok (.definition (referring "next" "#/definitions/Node")) := rfl
  have hplain : Plain linkedList.root := ⟨⟨_, rfl, fun e he =>
        .inr ⟨"#/definitions/Node", by rw [List.mem_singleton.mp he]; rfl⟩⟩,
      .inr ⟨_, _, rfl, rfl, fun e he => .inl (by rw [List.mem_singleton.mp he]; rfl)⟩⟩
  have href : HasRef linkedList.root (.str "#/definitions/Node") :=
    ⟨"properties", .head _, _, _, _, rfl, rfl, .head _, rfl⟩
  exact ⟨_, .single (mustLead_of_definition hplain href hlead rfl), .inr (.single
    (mustLead_of_definition (plain_referring _ _) (hasRef_referring _ _) hlead rfl))⟩

theorem endless_mutualFiles : Endless (MustLead mutualFiles) (MustStick mutualFiles) mutualFiles.root := by
  have hreadA : (Load.load mutualFiles.files .on (mutualFiles.path "a.json")).2 =
      .ok (referring "b" "b.json") := by decide +kernel
  have hreadB : (Load.load mutualFiles.files .on (mutualFiles.path "b.json")).2 =
      .ok (referring "a" "a.json") := by decide +kernel
  have hitems : ∀ property ref, ∀ e ∈ [(Scalar.str property, Value.map [(.str "$ref", .str ref)])],
      itemRef e.2 = .ok none := by
    intro property ref e he
    rw [List.mem_singleton.mp he]
    rfl
  have hleadA : ∀ property, MustLead mutualFiles (referring property "a.json")
      (referring "b" "b.json") := fun property =>
    mustLead_of_file (plain_referring _ _) (hasRef_referring _ _) rfl hreadA rfl rfl rfl
      (hitems _ _)
  have hleadB : MustLead mutualFiles (referring "b" "b.json") (referring "a" "a.json") :=
    mustLead_of_file (plain_referring _ _) (hasRef_referring _ _) rfl hreadB rfl rfl rfl
      (hitems _ _)
  exact ⟨_, .single (hleadA "a"), .inr (.tail (.single hleadB) (hleadA "a"))⟩

/-- A list and two files that refer to each other meet every limit, and preparing the list ends with a
warning about its reference, which can be resolved. -/
theorem prepare_linkedList_meets_every_limit : (∀ n, MeetsLimit linkedList n linkedList.root {}) ∧
    (∀ n, MeetsLimit mutualFiles n mutualFiles.root {}) ∧ (∃ line, (∃ what ref, line = tooDeepWarning what ref) ∧
      line ∈ (exec (prepare linkedList linkedList.root) {}).2.log) ∧
    ∃ v, exec (linkedList.resolve (.str "#/definitions/Node")) {} = (.ok v, {}) := by
  have hmeets : ∀ n, MeetsLimit linkedList n linkedList.root {} := fun n =>
    meetsLimit_of_descends (endless_linkedList.descends n) (sound_empty _)
  exact ⟨hmeets, fun n => meetsLimit_of_descends (endless_mutualFiles.descends n) (sound_empty _),
    (hmeets nestingLimit).prepare_warns, _, RefScope.exec_resolve_definition rfl {}⟩

end Reference

end Typewright
