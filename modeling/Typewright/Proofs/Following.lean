import Typewright.Proofs.Arrivals
import Typewright.Proofs.SeenRun

/-!
# Work that only follows references

Types and files are generated by work that reads the tables, reports lines and resolves references, and does nothing
else to the state.
-/

namespace Typewright

open RefM

variable {c : Prop} {s s' : RefState}

def AnyFault (_ : Fault) : Prop := True

/-- A fault that does not lie in the content of a file or a reference. -/
def KindFault (e : Fault) : Prop := e.isContent = false

variable {α β : Type} {P : Fault → Prop}

/-! ## Questions -/

/-- A question without effects fails, if it does, with a fault of this kind. -/
class FailsWith (P : Fault → Prop) (r : Except Fault α) : Prop where
  fault : ∀ e, r = .error e → P e

namespace FailsWith

instance any (r : Except Fault α) : FailsWith AnyFault r := ⟨fun _ _ => trivial⟩

instance ok (a : α) : FailsWith P (.ok a : Except Fault α) := ⟨nofun⟩

instance pure (a : α) : FailsWith P (Pure.pure a : Except Fault α) := ⟨nofun⟩

theorem of_bind {x : Except Fault α} {f : α → Except Fault β} (hx : FailsWith P x)
    (hf : ∀ a, FailsWith P (f a)) : FailsWith P (x >>= f) where
  fault e h := by
    cases x with
    | error e' =>
      cases h
      exact hx.fault e rfl
    | ok a => exact (hf a).fault e h

instance bind {x : Except Fault α} {f : α → Except Fault β} [hx : FailsWith P x]
    [hf : ∀ a, FailsWith P (f a)] : FailsWith P (x >>= f) :=
  of_bind hx hf

theorem of_step {x : Except Fault α} {f : α → Except Fault β} [hx : FailsWith P x]
    (hf : ∀ a, FailsWith P (f a)) : FailsWith P (x >>= f) :=
  of_bind hx hf

theorem of_ite [Decidable c] {x y : Except Fault α} (hx : FailsWith P x)
    (hy : FailsWith P y) : FailsWith P (if c then x else y) := by
  split
  · exact hx
  · exact hy

instance ite [Decidable c] {x y : Except Fault α} [hx : FailsWith P x]
    [hy : FailsWith P y] : FailsWith P (if c then x else y) :=
  of_ite hx hy

theorem of_else [Decidable c] {x y : Except Fault α} [hx : FailsWith P x] (hy : FailsWith P y) :
    FailsWith P (if c then x else y) :=
  of_ite hx hy

instance mapM {f : α → Except Fault β} [hf : ∀ a, FailsWith P (f a)] (as : List α) :
    FailsWith P (as.mapM f) := by
  induction as with
  | nil => exact pure []
  | cons a rest ih =>
    rw [List.mapM_cons]
    infer_instance

instance foldlM {f : β → α → Except Fault β} [hf : ∀ b a, FailsWith P (f b a)] (init : β)
    (as : List α) : FailsWith P (as.foldlM f init) := by
  induction as generalizing init with
  | nil => exact pure init
  | cons a rest ih =>
    rw [List.foldlM_cons]
    infer_instance

end FailsWith

/-! ## Work -/

/-- What a report or a call to `resolve` does to the state, whether the call returns or not. -/
inductive Reference.Turn (scope : RefScope) : RefState → RefState → Prop
  | report (s : RefState) (lines : List String) : Turn scope s { s with log := s.log ++ lines }
  | resolve (s : RefState) (ref : Value) : Turn scope s (exec (scope.resolve ref) s).2

theorem Reference.Turn.steps {scope : RefScope} (h : Turn scope s s') : Relation.ReflTransGen (Step scope) s s' := by
  cases h with
  | report lines => exact .single (.report s lines)
  | resolve ref => exact resolve_makes scope ref s

/-- How much of the tables some work looks at. -/
inductive Look
  | definitions
  | names
  | all

/-- Tables that are the same to work that looks at so much of them. -/
def Look.Agree : Look → Tables → Tables → Prop
  | .definitions, t, t' => t.definitions = t'.definitions
  | .names, t, t' => t.definitions = t'.definitions ∧ ∀ key, t.types.get? key = t'.types.get? key
  | .all, t, t' => t = t'

theorem Look.Agree.definitions {look : Look} {t t' : Tables} (h : look.Agree t t') :
    t.definitions = t'.definitions := by
  cases look with
  | definitions => exact h
  | names => exact h.1
  | all => exact congrArg Tables.definitions h

/-- Work that is put together from questions, reports, looks at the tables and calls to `resolve` in the
scope, if there is one. It fails, if it does, with a fault of this kind. -/
class inductive Work (look : Look) (scope : Option RefScope) : (Fault → Prop) → {γ : Type} → RefM γ → Prop
  | of_ask {P : Fault → Prop} {γ : Type} {r : Except Fault γ} (h : FailsWith P r) :
    Work look scope P (liftM r : RefM γ)
  | report {P : Fault → Prop} (lines : List String) : Work look scope P (RefM.report lines)
  | of_tables {P : Fault → Prop} {γ : Type} {f : Tables → RefM γ}
    (hread : ∀ t t', look.Agree t t' → f t = f t') (h : ∀ t, Work look scope P (f t)) :
    Work look scope P (RefM.tables >>= f)
  | of_bind {P : Fault → Prop} {γ δ : Type} {x : RefM γ} {f : γ → RefM δ} (hx : Work look scope P x)
    (hf : ∀ a, Work look scope P (f a)) : Work look scope P (x >>= f)
  | of_tryCatch {P : Fault → Prop} {γ : Type} {x : RefM γ} {handler : Fault → RefM γ}
    (hx : Work look scope AnyFault x) (hh : ∀ e, Work look scope P (handler e)) :
    Work look scope P (tryCatch x handler)
  | of_attempt {P : Fault → Prop} {γ : Type} {x : RefM γ} (hx : Work look scope AnyFault x) :
    Work look scope P (RefM.attempt x)
  | of_resolve {given : RefScope} (h : scope = some given) (ref : Value) :
    Work look scope AnyFault (given.resolve ref)

/-- Work that may look at everything in the tables. -/
abbrev Follows (scope : Option RefScope) (P : Fault → Prop) (work : RefM α) : Prop :=
  Work .all scope P work

variable {look : Look} {scope : Option RefScope}

namespace Work

attribute [instance] Work.report

instance ask {r : Except Fault α} [h : FailsWith P r] : Work look scope P (liftM r : RefM α) :=
  .of_ask h

instance pure (a : α) : Work look scope P (Pure.pure a : RefM α) :=
  .of_ask (FailsWith.ok a)

theorem throw {e : Fault} (h : P e) : Work look scope P (throw e : RefM α) :=
  .of_ask (r := .error e) ⟨by rintro _ ⟨⟩; exact h⟩

instance tables : Work .all scope P RefM.tables := by
  rw [← bind_pure RefM.tables]
  exact .of_tables (fun _ _ h => congrArg _ h) inferInstance

instance bind {x : RefM α} {f : α → RefM β} [hx : Work look scope P x]
    [hf : ∀ a, Work look scope P (f a)] : Work look scope P (x >>= f) :=
  .of_bind hx hf

theorem of_step {x : RefM α} {f : α → RefM β} [hx : Work look scope P x]
    (hf : ∀ a, Work look scope P (f a)) : Work look scope P (x >>= f) :=
  .of_bind hx hf

theorem of_ite [Decidable c] {x y : RefM α} (hx : Work look scope P x)
    (hy : Work look scope P y) : Work look scope P (if c then x else y) := by
  split
  · exact hx
  · exact hy

instance ite [Decidable c] {x y : RefM α} [hx : Work look scope P x]
    [hy : Work look scope P y] : Work look scope P (if c then x else y) :=
  of_ite hx hy

theorem of_else [Decidable c] {x y : RefM α} [hx : Work look scope P x] (hy : Work look scope P y) :
    Work look scope P (if c then x else y) :=
  of_ite hx hy

instance discard {x : RefM α} [hx : Work look scope P x] : Work look scope P (discard x) :=
  bind (f := fun _ => Pure.pure ())

instance tryCatch {x : RefM α} {handler : Fault → RefM α} [hx : Work look scope AnyFault x]
    [hh : ∀ e, Work look scope P (handler e)] : Work look scope P (tryCatch x handler) :=
  .of_tryCatch hx hh

/-- Work that goes on after a fault in the content of a file ends in no such fault. -/
instance recover {x : RefM α} {handler : Fault → RefM α} [hx : Work look scope AnyFault x]
    [hh : ∀ e, Work look scope KindFault (handler e)] :
    Work look scope KindFault (RefM.recover x handler) := by
  refine .of_tryCatch hx fun e => ?_
  split
  · exact hh e
  · next hkind => exact throw (Bool.eq_false_iff.mpr hkind)

instance attempt {x : RefM α} [hx : Work look scope AnyFault x] : Work look scope P (RefM.attempt x) :=
  .of_attempt hx

instance resolve (scope : RefScope) (ref : Value) : Work look (some scope) AnyFault (scope.resolve ref) :=
  .of_resolve rfl ref

instance resolve? (scope : RefScope) (ref : Value) :
    Work look (some scope) KindFault (scope.resolve? ref) := by
  unfold RefScope.resolve?
  infer_instance

theorem mono {look' : Look} {work : RefM α} (h : Work look scope P work)
    (hlook : ∀ t t', look'.Agree t t' → look.Agree t t') : Work look' scope P work := by
  induction h with
  | of_ask h => exact .of_ask h
  | report lines => exact .report lines
  | of_tables hread _ ih => exact .of_tables (fun t t' h => hread t t' (hlook t t' h)) ih
  | of_bind _ _ hx hf => exact .of_bind hx hf
  | of_tryCatch _ _ hx hh => exact .of_tryCatch hx hh
  | of_attempt _ hx => exact .of_attempt hx
  | of_resolve h ref => exact .of_resolve h ref

instance (priority := low) of_names {work : RefM α} [h : Work .names scope P work] :
    Follows scope P work :=
  h.mono fun _ _ h => h ▸ ⟨rfl, fun _ => rfl⟩

theorem turns {work : RefM α} (h : Work look scope P work) (given : RefScope) (hscope : scope = some given) :
    ∀ s, Makes (Reference.Turn given) work s := by
  induction h with
  | of_ask h => exact fun _ => makes_lift _
  | report lines => exact fun s => makes_report (.report s lines)
  | of_tables _ _ ih => exact fun s => makes_bind makes_tables fun t s' _ => ih t s'
  | of_bind _ _ hx hf => exact fun s => makes_bind (hx s) fun a s' _ => hf a s'
  | of_tryCatch _ _ hx hh => exact fun s => makes_tryCatch (hx s) fun e s' _ => hh e s'
  | of_attempt _ hx => exact hx
  | of_resolve h ref =>
    cases h.symm.trans hscope
    exact fun s => .single (.resolve s ref)

theorem fault {work : RefM α} (h : Work look scope P work) (s : RefState) (e : Fault) (s' : RefState)
    (hrun : exec work s = (.error e, s')) : P e := by
  induction h generalizing s e s' with
  | of_ask h => exact h.fault e (congrArg Prod.fst hrun)
  | report lines => cases hrun
  | of_tables _ _ ih => exact ih s.tables s e s' hrun
  | of_bind _ _ hx hf =>
    rw [exec_bind] at hrun
    split at hrun
    · exact hf _ _ e s' hrun
    · next hrun' =>
      cases hrun
      exact hx s e s' hrun'
  | of_tryCatch _ _ _ hh =>
    rw [exec_tryCatch] at hrun
    split at hrun
    · cases hrun
    · exact hh _ _ e s' hrun
  | of_attempt => cases hrun
  | of_resolve => trivial

theorem steps {work : RefM α} (h : Work look scope P work) (given : RefScope) (hscope : scope = some given)
    (s : RefState) : Makes (Reference.Step given) work s :=
  keep_of_steps (P := Relation.ReflTransGen (Reference.Step given) s)
    (fun _ _ turn hs => hs.trans turn.steps) (h.turns given hscope s) .refl

theorem changes {given : RefScope} {work : RefM α} {r : Except Fault α}
    (h : Work look (some given) P work) (hrun : exec work s = (r, s')) : Reference.Changes given s s' :=
  steps_of_exec (makes_mono (fun _ _ => .resolving) (h.steps given rfl s)) hrun

end Work

namespace Follows

theorem exec_attempt (x : RefM α) (s : RefState) : exec (RefM.attempt x) s = (.ok (exec x s).1, (exec x s).2) := rfl

theorem changes {given : RefScope} {work : RefM α} {r : Except Fault α} {s s' : RefState}
    (h : Follows (some given) P work) (hrun : exec work s = (r, s')) : Reference.Changes given s s' :=
  Work.changes h hrun

end Follows

/-- Work that keeps the names of types, whatever names were seen before. -/
class WorkSeen (look : Look) (scope : Option RefScope) (P : Fault → Prop) (work : SeenM α) : Prop where
  keepsSeen : KeepsSeen work
  run : ∀ seen, Work look scope P (work.run seen)

/-- Work that keeps the names of types and may look at everything in the tables. -/
abbrev FollowsSeen (scope : Option RefScope) (P : Fault → Prop) (work : SeenM α) : Prop :=
  WorkSeen .all scope P work

namespace WorkSeen

attribute [instance] WorkSeen.run

instance pure (a : α) : WorkSeen look scope P (Pure.pure a : SeenM α) :=
  ⟨.pure a, fun seen => Work.pure (a, seen)⟩

instance lift {x : RefM α} [hx : Work look scope P x] : WorkSeen look scope P (liftM x : SeenM α) :=
  ⟨.lift x, fun seen => Work.bind (f := fun a => Pure.pure (a, seen))⟩

instance ask {r : Except Fault α} [hr : FailsWith P r] : WorkSeen look scope P (liftM r : SeenM α) :=
  ⟨.lift (liftM r), fun seen => Work.bind (x := (liftM r : RefM α)) (f := fun a => Pure.pure (a, seen))⟩

theorem of_bind {x : SeenM α} {f : α → SeenM β} (hx : WorkSeen look scope P x)
    (hf : ∀ a, WorkSeen look scope P (f a)) : WorkSeen look scope P (x >>= f) :=
  ⟨.of_bind hx.keepsSeen fun a => (hf a).keepsSeen, fun seen => .of_bind (hx.run seen) fun r => (hf r.1).run r.2⟩

instance bind {x : SeenM α} {f : α → SeenM β} [hx : WorkSeen look scope P x]
    [hf : ∀ a, WorkSeen look scope P (f a)] : WorkSeen look scope P (x >>= f) :=
  of_bind hx hf

theorem of_step {x : SeenM α} {f : α → SeenM β} [hx : WorkSeen look scope P x]
    (hf : ∀ a, WorkSeen look scope P (f a)) : WorkSeen look scope P (x >>= f) :=
  .of_bind hx hf

theorem of_ite [Decidable c] {x y : SeenM α} (hx : WorkSeen look scope P x)
    (hy : WorkSeen look scope P y) : WorkSeen look scope P (if c then x else y) := by
  split
  · exact hx
  · exact hy

instance ite [Decidable c] {x y : SeenM α} [hx : WorkSeen look scope P x]
    [hy : WorkSeen look scope P y] : WorkSeen look scope P (if c then x else y) :=
  of_ite hx hy

theorem of_else [Decidable c] {x y : SeenM α} [hx : WorkSeen look scope P x] (hy : WorkSeen look scope P y) :
    WorkSeen look scope P (if c then x else y) :=
  of_ite hx hy

instance discard {x : SeenM α} [hx : WorkSeen look scope P x] : WorkSeen look scope P (discard x) :=
  bind (f := fun _ => Pure.pure ())

instance isSeen (name : Scalar) : WorkSeen look scope P (SeenM.isSeen name) :=
  ⟨.isSeen name, fun seen => Work.pure (Seen.has seen name, seen)⟩

instance mark (name : Scalar) : WorkSeen look scope P (SeenM.mark name) :=
  ⟨.mark name, fun seen => Work.pure ((), Seen.add seen name)⟩

instance (priority := low) of_names {work : SeenM α} [h : WorkSeen .names scope P work] :
    FollowsSeen scope P work :=
  ⟨h.keepsSeen, fun seen => (h.run seen).of_names⟩

end WorkSeen

end Typewright
