import Typewright.Proofs.Resolving

/-!
# Documents come with their names

A document is put into the tables first, and the names of its type right after it: nothing is looked up or loaded in
between.
-/

namespace Typewright

open RefM

namespace Reference

variable {scope : RefScope} {ref name : String} {v : Value} {fuel : Nat}

/-- The names of types with those of a document: under its path and under the reference to it. A document
whose title is no text has no name. -/
def typesWith (scope : RefScope) (ref : String) (v : Value) (types : Table String) : Table String :=
  match typeName ref v with
  | .ok name => (types.put (scope.path ref) name).put ref name
  | .error _ => types

theorem typesWith_of_name (h : typeName ref v = .ok name) (types : Table String) :
    typesWith scope ref v types = (types.put (scope.path ref) name).put ref name := by
  unfold typesWith
  rw [h]

theorem typesWith_of_error {e : Fault}
    (h : typeName ref v = .error e) (types : Table String) : typesWith scope ref v types = types := by
  unfold typesWith
  rw [h]

theorem get?_typesWith_path (h : typeName ref v = .ok name) (types : Table String) :
    (typesWith scope ref v types).get? (scope.path ref) = some name := by
  rw [typesWith_of_name h, Table.get?_put]
  split
  · rfl
  · exact Table.get?_put_self _ _ _

theorem get?_typesWith_ref (h : typeName ref v = .ok name) (types : Table String) :
    (typesWith scope ref v types).get? ref = some name := by
  rw [typesWith_of_name h]
  exact Table.get?_put_self _ _ _

theorem get?_typesWith_of_ne {key : String} (v : Value) (types : Table String)
    (hpath : key ≠ scope.path ref) (href : key ≠ ref) : (typesWith scope ref v types).get? key = types.get? key := by
  unfold typesWith
  split
  · rw [Table.get?_put_of_ne _ _ (Ne.symm href), Table.get?_put_of_ne _ _ (Ne.symm hpath)]
  · rfl

/-- The state with a document and its names. -/
def withArrival (scope : RefScope) (ref : String) (v : Value) (s : RefState) : RefState :=
  { s with
    tables := { (withDocument scope ref v s).tables with
      types := typesWith scope ref v s.tables.types } }

/-- A step of resolving in which a document comes with its names. -/
inductive Arrival (scope : RefScope) : RefState → RefState → Prop
  | report (s : RefState) (lines : List String) : Arrival scope s { s with log := s.log ++ lines }
  | document (s : RefState) {ref : String} {v : Value} (outer : isInner ref = false)
      (fresh : s.tables.loaded.get? (scope.path ref) = none)
      (read : (Load.load scope.files .on (scope.path ref)).2 = .ok v) :
      Arrival scope s (withArrival scope ref v s)
  | definition (s : RefState) {name file : String} (names : NamesFile scope.root name file) :
      Arrival scope s { s with
        tables := { s.tables with definitions := s.tables.definitions.put name file } }

theorem exec_register (s : RefState) : exec (register scope fuel ref v) (withDocument scope ref v s) =
      match typeName ref v with
      | .ok _ => exec (liftM (v.entriesAt "properties") >>= loadItems (load scope fuel)) (withArrival scope ref v s)
      | .error e => (.error e, withArrival scope ref v s) := by
  unfold register withArrival
  rw [exec_bind, exec_lift]
  cases hname : typeName ref v with
  | error e =>
    rw [typesWith_of_error hname]
    rfl
  | ok name =>
    rw [typesWith_of_name hname]
    rfl

/-- Once a document has come, only other documents are loaded. -/
theorem register_rest {step : RefState → RefState → Prop} (s : RefState)
    (hload : ∀ ref s, isInner ref = false → Makes step (load scope fuel ref) s) :
    Relation.ReflTransGen step (withArrival scope ref v s)
      (exec (register scope fuel ref v) (withDocument scope ref v s)).2 := by
  rw [exec_register]
  split
  · exact makes_bind (makes_lift _) fun properties s1 _ => loadItems_makes hload properties s1
  · exact .refl

theorem load_arrives (scope : RefScope) (fuel : Nat) (ref : String) (s : RefState)
    (outer : isInner ref = false) : Makes (Arrival scope) (load scope fuel ref) s := by
  induction fuel generalizing ref s with
  | zero =>
    unfold load
    refine makes_bind makes_tables fun t s1 _ => ?_
    split
    · exact makes_pure _
    · exact makes_throw _
  | succ fuel ih =>
    unfold Makes
    cases hfound : s.tables.loaded.get? (scope.path ref)
    case some v => rw [exec_load_cached _ hfound]
    cases hread : (Load.load scope.files .on (scope.path ref)).2 with
    | error e =>
      rw [exec_load_unread _ hfound hread]
      exact .single (.report s _)
    | ok v =>
      rw [exec_load_read _ hfound hread]
      have hregister := Relation.ReflTransGen.head (Arrival.document s outer hfound hread) (register_rest s ih)
      rcases hrun : exec (register scope fuel ref v) (withDocument scope ref v s) with ⟨e | u, s'⟩
      all_goals
        rw [hrun] at hregister
        exact hregister

theorem external_arrives (scope : RefScope) (ref : String) (s : RefState) (outer : isInner ref = false) :
    Makes (Arrival scope) (external scope ref) s := by
  refine makes_bind makes_tables fun t s1 _ => ?_
  split
  · exact makes_pure _
  · exact load_arrives scope _ ref s1 outer

/-- A document comes in two steps if its type has a name, and else in one. -/
theorem Arrival.steps {s s' : RefState} (h : Arrival scope s s') : Relation.ReflTransGen (Step scope) s s' := by
  cases h with
  | report lines => exact .single (.report s lines)
  | definition names => exact .single (.definition s names)
  | @document ref v outer fresh read =>
    refine .head (.document s outer fresh read) ?_
    unfold withArrival
    cases hname : typeName ref v with
    | error e =>
      rw [typesWith_of_error hname]
      exact .refl
    | ok name =>
      obtain ⟨hnoted, hfound⟩ := noted_withDocument scope ref v s
      rw [typesWith_of_name hname]
      exact .single (.typeNames _ hnoted hfound hname)

theorem makes_of_arrives {α : Type} {work : RefM α} {s : RefState} (h : Makes (Arrival scope) work s) :
    Makes (Step scope) work s :=
  Relation.ReflTransGen.lift' id (fun _ _ => Arrival.steps) _ _ h

theorem load_makes (scope : RefScope) (fuel : Nat) (ref : String) (s : RefState) (outer : isInner ref = false) :
    Makes (Step scope) (load scope fuel ref) s :=
  makes_of_arrives (load_arrives scope fuel ref s outer)

theorem external_makes (scope : RefScope) (ref : String) (s : RefState) (outer : isInner ref = false) :
    Makes (Step scope) (external scope ref) s :=
  makes_of_arrives (external_arrives scope ref s outer)

theorem resolve_arrives (scope : RefScope) (ref : Value) (s : RefState) : Makes (Arrival scope) (scope.resolve ref) s := by
  unfold Makes
  cases hlead : scope.leadsTo ref with
  | error e => rw [RefScope.exec_resolve_error hlead]
  | ok d =>
    cases d with
    | definition v => rw [RefScope.exec_resolve_definition hlead]
    | file via file =>
      obtain ⟨houter, hnames⟩ := RefScope.leadsTo_file hlead
      rw [RefScope.exec_resolve_file hlead]
      have hrecord : Relation.ReflTransGen (Arrival scope) s (record via file s) := by
        cases via with
        | none => exact .refl
        | some name => exact .single (.definition s (hnames name rfl))
      exact hrecord.trans (external_arrives scope file _ houter)

end Reference

open Reference

theorem resolve_makes (scope : RefScope) (ref : Value) (s : RefState) : Makes (Step scope) (scope.resolve ref) s :=
  makes_of_arrives (resolve_arrives scope ref s)

theorem resolve_changes (scope : RefScope) (ref : Value) (s : RefState) : Makes (Change scope) (scope.resolve ref) s :=
  makes_mono (fun _ _ => .resolving) (resolve_makes scope ref s)

theorem note_changes (scope : RefScope) (ref : Value) (s : RefState) : Makes (Change scope) (scope.note ref) s := by
  refine makes_bind (makes_lift _) fun text s1 _ => ?_
  split
  · exact makes_pure ()
  · next houter =>
    have houter : isInner text = false := by simpa using houter
    refine makes_bind (makes_update (.reference s1 houter)) fun _ s2 h2 => ?_
    cases h2
    refine makes_bind makes_tables fun t s3 h3 => ?_
    cases h3
    split
    · next hunknown =>
      exact makes_update (.assumedName _ (Table.mem_put_self _ _ _) (by simpa using hunknown))
    · exact makes_pure ()

end Typewright
