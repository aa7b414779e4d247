import Typewright.Proofs.Generators
import Typewright.Proofs.NestingLimit
import Typewright.Proofs.OutputFiles

/-!
# References to files that cannot be read

A reference to a file is noted before the file is read. If the file cannot be read, generation goes on, but listing
the documents ends the run.
-/

namespace Typewright

open RefM

variable {s s' s₁ s₂ : RefState} {ref schema : Value} {p r file stamp : String} {l : Language} {n : Nat}
  {e : Fault} {next : Value → RefM Unit} {after before : Table String} {o : Options} {scope : RefScope}
  {t : Tables}

namespace Reference

/-- A document can be read at a path. -/
def Readable (scope : RefScope) (path : String) : Prop :=
  ∃ v, (Load.load scope.files .on path).2 = .ok v

theorem not_readable {path : String} (h : (Load.load scope.files .on path).2 = .error e) : ¬ Readable scope path := by
  rintro ⟨v, hv⟩
  cases h.symm.trans hv

/-- Every noted path that can be read has its document. -/
abbrev ReadComplete (scope : RefScope) (t : Tables) : Prop :=
  CompleteBut (fun p => ¬ Readable scope p) t

/-! ## Noted paths during preparation -/

theorem loaded_of_exec_resolve {text : String} {r : Except Fault Value} (outer : isInner text = false)
    (h : exec (scope.resolve (.str text)) s = (r, s')) :
    ¬ Readable scope (scope.path text) ∨ ∃ v, s'.tables.loaded.get? (scope.path text) = some v := by
  rw [RefScope.exec_resolve_file (leadsTo_of_outer scope outer)] at h
  cases hfound : s.tables.loaded.get? (scope.path text) with
  | some v =>
    rw [record, exec_external_cached hfound] at h
    cases h
    exact .inr ⟨v, hfound⟩
  | none =>
    cases hread : (Load.load scope.files .on (scope.path text)).2 with
    | error e => exact .inl (not_readable hread)
    | ok v => exact .inr ⟨v, (exec_external_read hfound hread h).1⟩

theorem readComplete_of_exec_resolve {r : Except Fault Value} (hs : ReadComplete scope s.tables)
    (hnote : exec (scope.note ref) s = (.ok (), s₁))
    (hresolve : exec (scope.resolve ref) s₁ = (r, s₂)) : ReadComplete scope s₂.tables := by
  obtain ⟨text, rfl, hnoted⟩ := completeBut_of_exec_note hs hnote
  have hresolved := keep_of_steps (fun _ _ h => h.keeps_complete)
    (steps_of_exec (resolve_makes scope _ s₁) hresolve) hnoted
  intro r p hmem
  rcases hresolved r p hmem with (hunread | ⟨houter, rfl⟩) | hfound
  · exact .inl hunread
  · exact loaded_of_exec_resolve houter hresolve
  · exact .inr hfound

/-- A step that keeps all noted paths read that can be. -/
def KeepsRead (scope : RefScope) (s s' : RefState) : Prop :=
  ReadComplete scope s.tables → ReadComplete scope s'.tables

theorem attend_keepsRead (hnext : ∀ v s, Makes (KeepsRead scope) (next v) s) (what : String)
    (hnote : exec (scope.note ref) s = (.ok (), s₁)) :
    Relation.ReflTransGen (KeepsRead scope) s (exec (attend scope what next ref) s₁).2 := by
  unfold attend
  rw [exec_tryCatch, exec_bind]
  rcases hresolve : exec (scope.resolve ref) s₁ with ⟨e | target, s₂⟩
  all_goals
    have hstep : KeepsRead scope s s₂ := fun hs => readComplete_of_exec_resolve hs hnote hresolve
  · exact .head hstep (.single id)
  refine .head hstep ?_
  have hrest : Makes (KeepsRead scope) (if target.isMap then next target else pure ()) s₂ := by
    split
    · exact hnext target s₂
    · exact makes_pure ()
  rcases hrun : exec (if target.isMap then next target else pure ()) s₂ with ⟨e | u, s3⟩
  · simp only [hrun]
    exact .tail (steps_of_exec hrest hrun) id
  · simp only [hrun]
    exact steps_of_exec hrest hrun

theorem exec_note_cases (scope : RefScope) (ref : Value) (s : RefState) :
    (∃ e, exec (scope.note ref) s = (.error e, s)) ∨ ∃ s', exec (scope.note ref) s = (.ok (), s') := by
  cases htext : textOf ref with
  | error e =>
    refine .inl ⟨e, ?_⟩
    unfold RefScope.note
    rw [exec_bind, exec_lift, htext]
  | ok text =>
    rw [textOf_eq_ok htext]
    exact .inr (exec_note_text scope text s)

theorem prepareEntry_keepsRead (next : Value → RefM Unit)
    (hnext : ∀ v s, Makes (KeepsRead scope) (next v) s) (what : String) (schema : Value)
    (s : RefState) : Makes (KeepsRead scope) (prepareEntry scope what next schema) s := by
  cases href : schema.field "$ref" with
  | error fault =>
    refine makes_bind (makes_lift _) fun isRef s₁ _ => ?_
    split
    · exact makes_pure ()
    · rw [href]
      exact makes_bind (makes_lift _) nofun
  | ok ref =>
    unfold Makes
    rw [exec_prepareEntry_ref href, exec_bind]
    rcases exec_note_cases scope ref s with ⟨e, hnote⟩ | ⟨s₁, hnote⟩
    · rw [hnote]
    · rw [hnote]
      exact attend_keepsRead hnext what hnote

theorem prepare_readComplete (scope : RefScope) (schema : Value) :
    ReadComplete scope (exec (prepare scope schema) {}).2.tables := by
  have hmakes : Makes (KeepsRead scope) (prepare scope schema) {} :=
    prepareFrom_makes prepareEntry_keepsRead nestingLimit schema {}
  have hempty : ReadComplete scope ({} : RefState).tables := nofun
  exact keep_of_steps (P := fun s => ReadComplete scope s.tables) (fun _ _ h => h) hmakes hempty

/-! ## The warning -/

/-- The warning that a reference could not be followed. -/
def failureWarning (what : String) (ref : Value) (e : Fault) : String :=
  "Warning: Could not resolve " ++ what ++ " " ++ ref.text ++ ": " ++ e.message

theorem Visits.warns (h : Visits scope n schema s (.str file) s')
    (hs : Sound scope s.tables) (outer : isInner file = false)
    (unread : (Load.load scope.files .on (scope.path file)).2 = .error e) :
    ∃ what, failureWarning what (.str file) (loadFailure (scope.path file) e) ∈
      (exec (prepareFrom scope (n + 1) schema) s).2.log := by
  have hfresh : s'.tables.loaded.get? (scope.path file) = none := by
    cases hfound : s'.tables.loaded.get? (scope.path file) with
    | none => rfl
    | some v =>
      have hread := (sound_of_changes h.changes hs).loaded _ _ (Table.mem_of_get? hfound)
      cases unread.symm.trans hread
  have hattend : ∀ what, failureWarning what (.str file) (loadFailure (scope.path file) e) ∈
      (exec (attend scope what (prepareFrom scope n) (.str file)) s').2.log := by
    intro what
    unfold attend
    rw [exec_tryCatch, exec_bind, RefScope.exec_resolve_file (leadsTo_of_outer scope outer), record,
      exec_external_unread hfresh unread]
    exact List.mem_append_right _ (List.mem_singleton_self _)
  obtain ⟨what, hlater⟩ := h.goesOn
  exact ⟨what, mem_log_of_changes hlater (hattend what)⟩

theorem VisitsEntry.noted {what : String} {es : Entries}
    (h : VisitsEntry scope what next es s (.str file) s') (outer : isInner file = false) :
    s'.tables.refs.get? file = some (scope.path file) := by
  generalize href : Value.str file = ref at h
  induction h with
  | here _ hnote =>
    cases href
    exact noted_of_exec_note hnote outer
  | later _ _ ih => exact ih href

theorem Visits.noted {scope : RefScope} (h : Visits scope n schema s (.str file) s') (outer : isInner file = false) :
    s'.tables.refs.get? file = some (scope.path file) := by
  cases h with
  | property _ hvisit => exact hvisit.noted outer
  | definition _ _ _ _ hvisit => exact hvisit.noted outer

theorem Visits.notes (h : Visits scope n schema s (.str file) s') (outer : isInner file = false) :
    (exec (prepareFrom scope (n + 1) schema) s).2.tables.refs.get? file = some (scope.path file) := by
  obtain ⟨what, hlater⟩ := h.goesOn
  have hattend := attend_makes (callsMake_change scope) (prepareFrom_changes scope n) what (.str file) s'
  exact keep_of_steps (P := fun t => t.tables.refs.get? file = some (scope.path file))
    (fun _ _ hc => hc.keeps_ref) (hattend.trans hlater) (h.noted outer)

theorem exec_prepare_plain (h : Plain schema) (scope : RefScope) : ∃ s, exec (prepare scope schema) {} = (.ok (), s) ∧
      ∀ file, HasRef schema (.str file) → isInner file = false → s.tables.refs.get? file = some (scope.path file) ∧
        ∀ e, (Load.load scope.files .on (scope.path file)).2 = .error e →
          ∃ what, failureWarning what (.str file) (loadFailure (scope.path file) e) ∈ s.log := by
  unfold prepare
  obtain ⟨n, hn⟩ : ∃ n, nestingLimit = n + 1 := ⟨999, rfl⟩
  rw [hn]
  obtain ⟨s, hrun⟩ := exec_prepareFrom_plain h scope n {}
  refine ⟨s, hrun, fun file href outer => ?_⟩
  obtain ⟨s', hvisit⟩ := h.visits href scope n {}
  refine ⟨?_, fun e hunread => ?_⟩
  · have hnoted := hvisit.notes outer
    rwa [hrun] at hnoted
  · obtain ⟨what, hwarning⟩ := hvisit.warns (sound_empty scope) outer hunread
    rw [hrun] at hwarning
    exact ⟨what, hwarning⟩

/-! ## Listing the documents -/

theorem addListings_missing (hbefore : ∀ x ∈ before, ∃ v, t.loaded.get? x.2 = some v) (hmissing : t.loaded.get? p = none)
    (found : Table (Value × String)) :
    addListings t found (before ++ (r, p) :: after) = .error (.missingKey (.str p)) := by
  induction before generalizing found with
  | nil =>
    unfold addListings
    rw [List.nil_append, List.foldlM_cons, hmissing]
    rfl
  | cons x rest ih =>
    obtain ⟨v, hv⟩ := hbefore x (.head _)
    unfold addListings at ih ⊢
    rw [List.cons_append, List.foldlM_cons, hv]
    exact ih (fun y hy => hbefore y (.tail _ hy)) _

theorem loaded_of_addListings {refs : Table String}
    {found found' : Table (Value × String)} (h : addListings t found refs = .ok found')
    (noted : (r, p) ∈ refs) : ∃ v, t.loaded.get? p = some v := by
  induction refs generalizing found with
  | nil => cases noted
  | cons x rest ih =>
    unfold addListings at h
    rw [List.foldlM_cons] at h
    obtain ⟨next, hnext, h⟩ := bind_ok h
    rcases List.mem_cons.mp noted with rfl | noted
    · split at hnext
      · next v hv => exact ⟨v, hv⟩
      · cases hnext
    · exact ih h noted

section Listing

variable {scope : RefScope} {t : Tables} (hsound : Sound scope t) (hcomplete : ReadComplete scope t)
include hcomplete

theorem loaded_of_readable (noted : (r, p) ∈ t.refs) (h : Readable scope p) : ∃ v, t.loaded.get? p = some v :=
  (hcomplete r p noted).resolve_left (not_not_intro h)

theorem documents_of_readable (h : ∀ r p, (r, p) ∈ t.refs → Readable scope p) :
    ∃ documents, t.documents = .ok documents := by
  obtain ⟨documents, hdocuments, _⟩ := documents_of_complete fun r p noted =>
    .inr (loaded_of_readable hcomplete noted (h r p noted))
  exact ⟨documents, hdocuments⟩

include hsound

theorem documents_of_not_readable
    (hrefs : t.refs = before ++ (r, p) :: after) (hbefore : ∀ x ∈ before, Readable scope x.2)
    (hunread : ¬ Readable scope p) : t.documents = .error (.missingKey (.str p)) := by
  have hloaded : ∀ x ∈ before, ∃ v, t.loaded.get? x.2 = some v := by
    intro x hx
    refine loaded_of_readable hcomplete (r := x.1) ?_ (hbefore x hx)
    rw [hrefs]
    exact List.mem_append_left _ hx
  have hmissing : t.loaded.get? p = none := by
    cases hfound : t.loaded.get? p with
    | none => rfl
    | some v => exact absurd ⟨v, hsound.loaded p v (Table.mem_of_get? hfound)⟩ hunread
  show addListings t [] t.refs = _
  rw [hrefs]
  exact addListings_missing hloaded hmissing []

end Listing

end Reference

namespace Generate

open Reference

/-! ## After preparation -/

/-- What a run does after its preparation. -/
def texts (l : Language) (o : Options) (stamp : String) (scope : RefScope) : RefM (Table String) := do
  let text ← sourceFile l o (mainRequest scope stamp)
  let documents ← (← RefM.tables).documents
  addDocuments l o scope stamp (mainPath l o.output) [(mainPath l o.output, text)] documents

theorem exec_sourceFiles {languageName : String} (known : Language.ofName? languageName = some l)
    (hprepare : exec (prepare scope scope.root) {} = (.ok (), s)) :
    exec (sourceFiles languageName o stamp scope) {} = exec (texts l o stamp scope) s := by
  unfold sourceFiles
  rw [exec_bind, hprepare, known]
  rfl

instance (t : Tables) : FailsWith KindFault t.documents := by
  unfold Tables.documents
  refine @FailsWith.foldlM _ _ _ _ (fun found r => ?_) _ _
  split <;> infer_instance

theorem follows_addDocuments (handles : l ≠ .proto) (o : Options) (scope : RefScope)
    (stamp main : String) (found : Table String) (documents : Table (Value × String)) :
    Follows (some scope) KindFault (addDocuments l o scope stamp main found documents) := by
  induction documents generalizing found with
  | nil => exact .pure found
  | cons d rest ih =>
    exact .of_bind (follows_sourceFile handles o (documentRequest scope stamp main d.1 d.2.1)) fun text => ih _

theorem follows_texts (handles : l ≠ .proto) (o : Options) (stamp : String)
    (scope : RefScope) : Follows (some scope) KindFault (texts l o stamp scope) := by
  refine .of_bind (follows_sourceFile handles o (mainRequest scope stamp)) fun text => ?_
  refine .of_bind inferInstance fun t => .of_bind inferInstance fun documents => ?_
  exact follows_addDocuments handles o scope stamp _ _ documents

theorem sound_readComplete (handles : l ≠ .proto) {r : Except Fault Unit} {r' : Except Fault String}
    (hprepare : exec (prepare scope scope.root) {} = (r, s₁))
    (hmain : exec (sourceFile l o (mainRequest scope stamp)) s₁ = (r', s₂)) :
    Sound scope s₂.tables ∧ ReadComplete scope s₂.tables := by
  have hsteps := steps_of_exec ((follows_sourceFile handles o (mainRequest scope stamp)).steps scope rfl s₁) hmain
  have hchanges := steps_of_exec (prepareFrom_changes scope nestingLimit scope.root {}) hprepare
  have hsound : Sound scope s₁.tables := sound_of_changes hchanges (sound_empty scope)
  have hcomplete : ReadComplete scope s₁.tables := by
    have hafter := prepare_readComplete scope scope.root
    rwa [hprepare] at hafter
  exact ⟨keep_of_steps (P := fun s => Sound scope s.tables) (fun _ _ => Step.sound) hsteps hsound,
    keep_of_steps (fun _ _ h => h.keeps_complete) hsteps hcomplete⟩

/-- Each reference to a file that cannot be read costs a warning. But once the main text is there, the first noted
path that cannot be read ends the run as a missing key, so a run that returns has read all files that the schema
refers to. -/
theorem sourceFiles_unreadable {languageName : String} {l : Language}
    (known : Language.ofName? languageName = some l) (handles : l ≠ .proto) {scope : RefScope}
    (plain : Plain scope.root) (o : Options) (stamp : String) :
    (∀ file e, HasRef scope.root (.str file) → isInner file = false →
      (Load.load scope.files .on (scope.path file)).2 = .error e →
      ∃ what, failureWarning what (.str file) (loadFailure (scope.path file) e) ∈
        (exec (sourceFiles languageName o stamp scope) {}).2.log) ∧
    (∀ e s', exec (sourceFiles languageName o stamp scope) {} = (.error e, s') → e.isContent = false) ∧
    (∃ s₁, exec (prepare scope scope.root) {} = (.ok (), s₁) ∧
      ∀ text s₂, exec (sourceFile l o (mainRequest scope stamp)) s₁ = (.ok text, s₂) →
        (∀ before r p after, s₂.tables.refs = before ++ (r, p) :: after →
          (∀ x ∈ before, Readable scope x.2) → ¬ Readable scope p →
          exec (sourceFiles languageName o stamp scope) {} = (.error (.missingKey (.str p)), s₂)) ∧
        ((∀ r p, (r, p) ∈ s₂.tables.refs → Readable scope p) → ∃ documents, s₂.tables.documents = .ok documents ∧
            exec (sourceFiles languageName o stamp scope) {} = exec (addDocuments l o scope stamp (mainPath l o.output)
                [(mainPath l o.output, text)] documents) s₂)) ∧
    (∀ files s', exec (sourceFiles languageName o stamp scope) {} = (.ok files, s') →
      files.has (mainPath l o.output) = true ∧ ∀ file, HasRef scope.root (.str file) → isInner file = false →
        Readable scope (scope.path file)) := by
  obtain ⟨s₁, hprepare, hrefs⟩ := exec_prepare_plain plain scope
  have hfollows := follows_texts handles o stamp scope
  rw [exec_sourceFiles known hprepare]
  refine ⟨fun file e href outer hunread => ?_, hfollows.fault s₁, ⟨s₁, hprepare, ?_⟩, ?_⟩
  · obtain ⟨what, hwarning⟩ := (hrefs file href outer).2 e hunread
    have hchanges : Changes scope s₁ (exec (texts l o stamp scope) s₁).2 :=
      makes_mono (fun _ _ => .resolving) (hfollows.steps scope rfl s₁)
    exact ⟨what, mem_log_of_changes hchanges hwarning⟩
  · intro text s₂ hmain
    obtain ⟨hsound, hcomplete⟩ := sound_readComplete handles hprepare hmain
    have hrest : ∀ result, s₂.tables.documents = result → exec (texts l o stamp scope) s₁ =
        match result with
        | .error e => (.error e, s₂)
        | .ok documents => exec (addDocuments l o scope stamp (mainPath l o.output)
            [(mainPath l o.output, text)] documents) s₂ := by
      rintro _ rfl
      unfold texts
      simp only [exec_bind, hmain, exec_tables, exec_lift]
      cases s₂.tables.documents <;> rfl
    refine ⟨fun before r p after hnoted hbefore hunread => ?_, fun hreadable => ?_⟩
    · exact hrest _ (documents_of_not_readable hsound hcomplete hnoted hbefore hunread)
    · obtain ⟨documents, hdocuments⟩ := documents_of_readable hcomplete hreadable
      exact ⟨documents, hdocuments, hrest _ hdocuments⟩
  intro files s' hrun
  obtain ⟨text, s₂, hmain, hrun⟩ := exec_bind_ok hrun
  obtain ⟨t, s3, ht, hrun⟩ := exec_bind_ok hrun
  cases ht
  obtain ⟨documents, hdocuments, hrun⟩ := exec_ask_ok hrun
  obtain ⟨more, _, rfl⟩ := exec_addDocuments_eq_ok hrun
  refine ⟨Table.has_putAll ?_ _, fun file href outer => ?_⟩
  · unfold Table.has Table.get?
    rw [if_pos rfl]
    rfl
  obtain ⟨hsound, _⟩ := sound_readComplete handles hprepare hmain
  have hsteps := steps_of_exec ((follows_sourceFile handles o (mainRequest scope stamp)).steps scope rfl s₁) hmain
  have hnoted : s₂.tables.refs.get? file = some (scope.path file) :=
    keep_of_steps (P := fun s => s.tables.refs.get? file = some (scope.path file))
      (fun _ _ h => (Change.resolving h).keeps_ref) hsteps (hrefs file href outer).1
  obtain ⟨v, hv⟩ := loaded_of_addListings hdocuments (Table.mem_of_get? hnoted)
  exact ⟨v, hsound.loaded _ _ (Table.mem_of_get? hv)⟩

/-- A schema that refers to a file that is there, and to one that is not. -/
def lostBox : RefScope :=
  { files := textFiles [("box.json", "\x7b\"title\": \"Box\"\x7d")]
    base := "shelf.json"
    root := .map [("title", "Shelf"), ("properties", .map
      [("upper", .map [("$ref", "box.json")]),
        ("lower", .map [("$ref", "gone.json")])])] }

/-- The missing file costs its warning, and the run does not return. -/
theorem sourceFiles_unreadable_lostBox : Plain lostBox.root ∧ HasRef lostBox.root (.str "gone.json") ∧
      ¬ Readable lostBox (lostBox.path "gone.json") ∧ (∃ what e, failureWarning what (.str "gone.json") e ∈
        (exec (sourceFiles "python" {} "now" lostBox) {}).2.log) ∧
      ∀ files s', exec (sourceFiles "python" {} "now" lostBox) {} ≠ (.ok files, s') := by
  have hplain : Plain lostBox.root := ⟨⟨_, rfl, by rintro e (_ | ⟨_, _ | ⟨_, ⟨⟩⟩⟩) <;> exact .inr ⟨_, rfl⟩⟩, .inl rfl⟩
  have href : HasRef lostBox.root (.str "gone.json") :=
    ⟨"properties", .head _, _, _, _, rfl, rfl, .tail _ (.head _), rfl⟩
  obtain ⟨e, hunread⟩ : ∃ e, (Load.load lostBox.files .on (lostBox.path "gone.json")).2 = .error e :=
    Outcome.eq_error_of_not_isOk (by decide +kernel)
  have known : Language.ofName? "python" = some .python := rfl
  obtain ⟨hwarned, _, _, hreturns⟩ := sourceFiles_unreadable known nofun hplain {} "now"
  obtain ⟨what, hwarning⟩ := hwarned "gone.json" e href rfl hunread
  refine ⟨hplain, href, not_readable hunread, ⟨what, _, hwarning⟩, fun files s' hrun => ?_⟩
  exact not_readable hunread ((hreturns files s' hrun).2 "gone.json" href rfl)

/-- The main text is generated although one file is missing, but the run ends in the missing path. -/
theorem sourceFiles_lostBox_missing_key : (exec (sourceFile .go {} (mainRequest lostBox "now"))
      (exec (prepare lostBox lostBox.root) {}).2).1.isOk = true ∧
    (exec (sourceFiles "go" {} "now" lostBox) {}).1 = .error (.missingKey (.str "gone.json")) := by
  decide +kernel

end Generate

end Typewright
