import Typewright.Proofs.Table
import Typewright.Proofs.RefRun
import Typewright.Reference.Resolve

/-!
# What resolving does

Resolving a reference has a pure part, the chain of definitions that leads to a definition of the
root schema or to a file, and a part with effects, which records the definition that names the file
and then looks the file up or loads it.
-/

namespace Typewright

open RefM

variable {scope : RefScope} {ref file name : String} {s : RefState} {v root : Value} {via : Option String}
  {fuel : Nat} {e : Fault}

namespace Reference

/-! ## Where a reference leads -/

/-- Where a reference leads: to a definition that is not itself a reference, or to a file. `via` is the
definition that names the file, if it was reached through one. -/
inductive Destination where
  | definition (schema : Value)
  | file (via : Option String) (ref : String)

/-- Where a reference leads, over at most `fuel` definitions. -/
def destination (root : Value) (fuel : Nat) (ref : String) : Except Fault Destination :=
  match fuel with
  | 0 => throw .tooDeep
  | fuel + 1 => do
    if isDefinition ref then
      match ← definition? root (lastName ref) with
      | none => throw (.content ("Internal reference '" ++ ref ++ "' could not be resolved"))
      | some definition =>
        if !(← definition.has "$ref") then return .definition definition
        let next ← textOf (← definition.field "$ref")
        if isInner next then destination root fuel next
        else return .file (some (lastName ref)) next
    else if !isInner ref then return .file none ref
    else throw (.content ("Unsupported reference format: " ++ ref))

/-- What is done at the place where a reference leads. -/
def arrive (scope : RefScope) : Destination → RefM Value
  | .definition schema => return schema
  | .file none ref => external scope ref
  | .file (some name) ref => do
    RefM.update fun t => { t with definitions := t.definitions.put name ref }
    external scope ref

def record (via : Option String) (file : String) (s : RefState) : RefState :=
  match via with
  | none => s
  | some name =>
    { s with tables := { s.tables with definitions := s.tables.definitions.put name file } }

@[simp] theorem record_loaded (via : Option String) (file : String) (s : RefState) :
    (record via file s).tables.loaded = s.tables.loaded := by
  cases via <;> rfl

theorem recorded_record (via : Option String) (file : String) (s : RefState) : ∀ name, via = some name →
      (record via file s).tables.definitions.get? name = some file := by
  rintro name rfl
  exact Table.get?_put_self _ _ _

theorem record_eq_self (recorded : ∀ name, via = some name → s.tables.definitions.get? name = some file) :
    record via file s = s := by
  cases via with
  | none => rfl
  | some name =>
    unfold record
    simp only [Table.put_of_get? (recorded name rfl)]

theorem follow_eq (scope : RefScope) (fuel : Nat) (ref : String) :
    follow scope fuel ref = liftM (destination scope.root fuel ref) >>= arrive scope := by
  induction fuel generalizing ref with
  | zero => rfl
  | succ fuel ih =>
    unfold follow destination
    split
    · simp only [lift_bind, bind_assoc]
      congr 1
      funext found
      cases found with
      | none => rfl
      | some definition =>
        simp only [lift_bind, bind_assoc]
        congr 1
        funext isRef
        cases isRef with
        | false => rfl
        | true =>
          simp only [Bool.not_true, Bool.false_eq_true, if_false, lift_bind, bind_assoc]
          congr 1
          funext target
          congr 1
          funext next
          split
          · exact ih next
          · rfl
    · split <;> rfl

def definitionRef (root : Value) (name : String) : Except Fault Value := do
  (← (← root.field "definitions").field name).field "$ref"

/-- The definition of this name is only another name for a file. -/
def NamesFile (root : Value) (name file : String) : Prop :=
  definitionRef root name = .ok (.str file) ∧ isInner file = false

theorem NamesFile.unique {file' : String} (h : NamesFile root name file)
    (h' : NamesFile root name file') : file = file' := by
  have heq := h.1.symm.trans h'.1
  cases heq
  rfl

theorem textOf_eq_ok {text : String} (h : textOf v = .ok text) : v = .str text := by
  unfold textOf at h
  split at h
  · cases h
    rfl
  · cases h
  · cases h

theorem definition?_eq_some {d : Value} (h : definition? root name = .ok (some d)) :
    (do (← root.field "definitions").field name) = .ok d := by
  obtain ⟨hasDefinitions, _, h⟩ := bind_ok h
  split at h
  · cases h
  obtain ⟨definitions, hd, h⟩ := bind_ok h
  obtain ⟨hasName, _, h⟩ := bind_ok h
  split at h
  · cases h
  obtain ⟨d', hd', h⟩ := bind_ok h
  cases h
  rw [hd]
  exact hd'

theorem destination_file (h : destination root fuel ref = .ok (.file via file)) :
    isInner file = false ∧ ∀ name, via = some name → NamesFile root name file := by
  induction fuel generalizing ref with
  | zero => cases h
  | succ fuel ih =>
    unfold destination at h
    split at h
    · obtain ⟨found, hfound, h⟩ := bind_ok h
      cases found with
      | none => cases h
      | some definition =>
        obtain ⟨isRef, _, h⟩ := bind_ok h
        split at h
        · cases h
        obtain ⟨target, htarget, h⟩ := bind_ok h
        obtain ⟨next, hnext, h⟩ := bind_ok h
        split at h
        · exact ih h
        · next houter =>
          cases h
          have hinner : isInner file = false := by simpa using houter
          refine ⟨hinner, ?_⟩
          intro name hname
          cases hname
          refine ⟨?_, hinner⟩
          rw [definitionRef, ← bind_assoc, definition?_eq_some hfound, Outcome.ok_bind, htarget, textOf_eq_ok hnext]
    · split at h
      · next houter =>
        cases h
        exact ⟨by simpa using houter, nofun⟩
      · cases h

end Reference

namespace RefScope

/-- Where a reference leads. Nothing but the root schema is looked at. -/
def leadsTo (scope : RefScope) (ref : Value) : Except Fault Reference.Destination := do
  Reference.destination scope.root (Reference.definitionCount scope.root + 1)
    (← Reference.textOf ref)

theorem leadsTo_file {ref : Value} (h : scope.leadsTo ref = .ok (.file via file)) : Reference.isInner file = false ∧
      ∀ name, via = some name → Reference.NamesFile scope.root name file := by
  obtain ⟨text, _, h⟩ := bind_ok h
  exact Reference.destination_file h

theorem exec_resolve (scope : RefScope) (ref : Value) (s : RefState) : exec (scope.resolve ref) s =
      match scope.leadsTo ref with
      | .ok d => exec (Reference.arrive scope d) s
      | .error e => (.error e, s) := by
  have heq : scope.resolve ref = liftM (scope.leadsTo ref) >>= Reference.arrive scope := by
    unfold resolve leadsTo
    simp only [Reference.follow_eq, lift_bind, bind_assoc]
  rw [heq, exec_bind, exec_lift]
  cases scope.leadsTo ref <;> rfl

theorem exec_resolve_error {ref : Value} (lead : scope.leadsTo ref = .error e) (s : RefState) :
    exec (scope.resolve ref) s = (.error e, s) := by
  rw [exec_resolve, lead]

theorem exec_resolve_definition {ref : Value} (lead : scope.leadsTo ref = .ok (.definition v)) (s : RefState) :
    exec (scope.resolve ref) s = (.ok v, s) := by
  rw [exec_resolve, lead]
  rfl

theorem exec_resolve_file {ref : Value} (lead : scope.leadsTo ref = .ok (.file via file)) (s : RefState) :
    exec (scope.resolve ref) s = exec (Reference.external scope file) (Reference.record via file s) := by
  rw [exec_resolve, lead]
  cases via <;> rfl

end RefScope

namespace Reference

/-! ## Loading a file -/

/-- What loading a file leaves at once: its document by path, and its path by reference. -/
def withDocument (scope : RefScope) (ref : String) (schema : Value) (s : RefState) : RefState :=
  { s with
    tables := { s.tables with
      loaded := s.tables.loaded.put (scope.path ref) schema
      refs := s.tables.refs.put ref (scope.path ref) } }

/-- What is left to do for a document that was just read: the names of its type are noted, and what its
array properties refer to is loaded. -/
def register (scope : RefScope) (fuel : Nat) (ref : String) (schema : Value) : RefM Unit := do
  let name ← typeName ref schema
  RefM.update fun t => { t with types := (t.types.put (scope.path ref) name).put ref name }
  loadItems (load scope fuel) (← schema.entriesAt "properties")

theorem load_eq_of_ok {t : FileTree} {path : String}
    (read : (Load.load t .on path).2 = .ok v) : Load.load t .on path = ([], .ok v) := by
  have hnotices : Load.notices .on path = [] := by
    unfold Load.notices
    split <;> rfl
  unfold Load.load at read ⊢
  rw [hnotices] at read ⊢
  split at read
  · cases read
    rfl
  · cases read

theorem exec_load_cached (fuel : Nat) (found : s.tables.loaded.get? (scope.path ref) = some v) :
    exec (load scope fuel ref) s = (.ok v, s) := by
  unfold load
  simp only [exec_bind, exec_tables, found, exec_pure]

theorem exec_load_unread (fuel : Nat) (fresh : s.tables.loaded.get? (scope.path ref) = none)
    (unread : (Load.load scope.files .on (scope.path ref)).2 = .error e) : exec (load scope (fuel + 1) ref) s =
      (.error (loadFailure (scope.path ref) e),
        { s with log := s.log ++ (Load.load scope.files .on (scope.path ref)).1 }) := by
  unfold load
  simp only [exec_bind, exec_tables, fresh, exec_tryCatch, exec_report, exec_lift, unread, exec_throw]

theorem exec_load_read (fuel : Nat) (fresh : s.tables.loaded.get? (scope.path ref) = none)
    (read : (Load.load scope.files .on (scope.path ref)).2 = .ok v) : exec (load scope (fuel + 1) ref) s =
      match exec (register scope fuel ref v) (withDocument scope ref v s) with
      | (.ok (), s') => (.ok v, s')
      | (.error e, s') => (.error (loadFailure (scope.path ref) e), s') := by
  unfold load
  simp only [exec_bind, exec_tables, fresh, exec_tryCatch, load_eq_of_ok read, exec_report,
    exec_lift, exec_update, List.append_nil]
  unfold register withDocument
  simp only [exec_bind, exec_lift, exec_update]
  cases typeName ref v with
  | error e => rfl
  | ok name =>
    cases v.entriesAt "properties" with
    | error e => rfl
    | ok properties =>
      simp only []
      rcases exec (loadItems (load scope fuel) properties) _ with ⟨e | u, s'⟩ <;> rfl

theorem exec_external_cached (found : s.tables.loaded.get? (scope.path ref) = some v) :
    exec (external scope ref) s = (.ok v, s) := by
  unfold external
  simp only [exec_bind, exec_tables, found, exec_pure]

theorem exec_external_fresh (fresh : s.tables.loaded.get? (scope.path ref) = none) : exec (external scope ref) s =
      exec (load scope ((itemRefsOfFiles scope.files).length + 1) ref) s := by
  unfold external
  simp only [exec_bind, exec_tables, fresh]

/-! ## Steps -/

inductive Step (scope : RefScope) : RefState → RefState → Prop
  | report (s : RefState) (lines : List String) : Step scope s { s with log := s.log ++ lines }
  | document (s : RefState) {ref : String} {v : Value} (outer : isInner ref = false)
      (fresh : s.tables.loaded.get? (scope.path ref) = none)
      (read : (Load.load scope.files .on (scope.path ref)).2 = .ok v) :
      Step scope s (withDocument scope ref v s)
  | typeNames (s : RefState) {ref name : String} {v : Value}
      (noted : (ref, scope.path ref) ∈ s.tables.refs)
      (found : s.tables.loaded.get? (scope.path ref) = some v) (named : typeName ref v = .ok name) :
      Step scope s { s with
        tables := { s.tables with
          types := (s.tables.types.put (scope.path ref) name).put ref name } }
  | definition (s : RefState) {name file : String} (names : NamesFile scope.root name file) :
      Step scope s { s with
        tables := { s.tables with definitions := s.tables.definitions.put name file } }

/-- The name that the type of a file is assumed to have before the file is read. -/
def assumedName (ref : String) : String :=
  let stem := Path.stem ref
  Naming.capitalWords (if Text.startsWith stem "U" then Text.dropFirst 1 stem else stem)

/-- One step of resolving or noting. -/
inductive Change (scope : RefScope) : RefState → RefState → Prop
  | resolving {s s' : RefState} (h : Step scope s s') : Change scope s s'
  | reference (s : RefState) {ref : String} (outer : isInner ref = false) :
      Change scope s { s with
        tables := { s.tables with refs := s.tables.refs.put ref (scope.path ref) } }
  | assumedName (s : RefState) {ref : String} (noted : (ref, scope.path ref) ∈ s.tables.refs)
      (unknown : s.tables.types.has (scope.path ref) = false) :
      Change scope s { s with
        tables := { s.tables with
          types := s.tables.types.put (scope.path ref) (assumedName ref) } }

/-- Any number of steps of resolving and noting. -/
abbrev Changes (scope : RefScope) : RefState → RefState → Prop :=
  Relation.ReflTransGen (Change scope)

theorem isInner_of_itemRef {property : Value} (h : itemRef property = .ok (some ref)) : isInner ref = false := by
  obtain ⟨type, _, h⟩ := bind_ok h
  split at h
  · cases h
  obtain ⟨hasItems, _, h⟩ := bind_ok h
  split at h
  · cases h
  obtain ⟨items, _, h⟩ := bind_ok h
  obtain ⟨isRef, _, h⟩ := bind_ok h
  split at h
  · cases h
  obtain ⟨target, _, h⟩ := bind_ok h
  obtain ⟨text, _, h⟩ := bind_ok h
  split at h
  · cases h
  · next houter =>
    cases h
    simpa using houter

theorem loadItems_makes {step : RefState → RefState → Prop} {load : String → RefM Value}
    (hload : ∀ ref s, isInner ref = false → Makes step (load ref) s)
    (properties : Entries) (s : RefState) : Makes step (loadItems load properties) s := by
  induction properties generalizing s with
  | nil => exact makes_pure ()
  | cons e rest ih =>
    unfold loadItems
    refine makes_bind (makes_lift _) fun found s1 h1 => ?_
    cases found with
    | none => exact makes_bind (makes_pure ()) fun _ s2 _ => ih s2
    | some ref =>
      have houter : isInner ref = false := isInner_of_itemRef (congrArg Prod.fst h1)
      exact makes_bind (makes_discard (hload ref s1 houter)) fun _ s2 _ => ih s2

theorem noted_withDocument (scope : RefScope) (ref : String) (v : Value) (s : RefState) :
    (ref, scope.path ref) ∈ (withDocument scope ref v s).tables.refs ∧
      (withDocument scope ref v s).tables.loaded.get? (scope.path ref) = some v :=
  ⟨Table.mem_put_self _ _ _, Table.get?_put_self _ _ _⟩

end Reference

end Typewright
