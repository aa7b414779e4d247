import Typewright.Reference.Tables
import Mathlib.Data.List.Forall2
import Mathlib.Logic.Relation

/-!
# Runs of work on references

What work comes to from a state, part by part, and how the steps that its parts make add up.
-/

namespace Typewright

variable {α β : Type} {s s' s1 : RefState} {c : Prop}

/-! ## Outcomes without a state -/

instance decidableEqExcept {ε : Type} [DecidableEq ε] [DecidableEq α] : DecidableEq (Except ε α)
  | .error e, .error e' => decidable_of_iff (e = e') (by rw [Except.error.injEq])
  | .ok a, .ok a' => decidable_of_iff (a = a') (by rw [Except.ok.injEq])
  | .error _, .ok _ => isFalse nofun
  | .ok _, .error _ => isFalse nofun

theorem bind_ok {x : Except Fault α} {f : α → Except Fault β} {b : β}
    (h : (x >>= f) = .ok b) : ∃ a, x = .ok a ∧ f a = .ok b := by
  cases x with
  | error e => cases h
  | ok a => exact ⟨a, rfl, h⟩

namespace Outcome

@[simp] theorem ok_bind (a : α) (f : α → Except Fault β) : (.ok a >>= f) = f a := rfl

@[simp] theorem isOk_ok (a : α) : (Except.ok a : Except Fault α).isOk = true := rfl

@[simp] theorem isOk_error (e : Fault) : (Except.error e : Except Fault α).isOk = false := rfl

theorem eq_ok_of_isOk {x : Except Fault α} (h : x.isOk) : ∃ a, x = .ok a := by
  cases x with
  | error e => cases h
  | ok a => exact ⟨a, rfl⟩

theorem eq_error_of_not_isOk {x : Except Fault α} (h : x.isOk = false) : ∃ e, x = .error e := by
  cases x with
  | error e => exact ⟨e, rfl⟩
  | ok a => cases h

theorem foldlM_eq_ok {f : β → α → Except Fault β} {as : List α}
    (h : ∀ b, ∀ a ∈ as, ∃ b', f b a = .ok b') (b : β) : ∃ b', as.foldlM f b = .ok b' := by
  induction as generalizing b with
  | nil => exact ⟨b, rfl⟩
  | cons a rest ih =>
    obtain ⟨b1, hb1⟩ := h b a (.head _)
    rw [List.foldlM_cons, hb1]
    exact ih (fun b a ha => h b a (.tail _ ha)) b1

theorem step_of_foldlM {f : β → α → Except Fault β} {as : List α} {b b' : β}
    (h : as.foldlM f b = .ok b') : ∀ a ∈ as, ∃ b1 b2, f b1 a = .ok b2 := by
  induction as generalizing b with
  | nil => nofun
  | cons a rest ih =>
    rw [List.foldlM_cons] at h
    obtain ⟨b1, hb1, hrest⟩ := bind_ok h
    intro a' ha'
    rcases List.mem_cons.mp ha' with rfl | ha'
    · exact ⟨b, b1, hb1⟩
    · exact ih hrest a' ha'

end Outcome

namespace RefM

/-- What work comes to from a state: its result or fault, and the state that it leaves. -/
def exec (work : RefM α) (s : RefState) : Except Fault α × RefState :=
  work.run.run s

/-! ## Parts of work -/

@[simp] theorem exec_pure (a : α) (s : RefState) : exec (pure a) s = (.ok a, s) := rfl

@[simp] theorem exec_throw (e : Fault) (s : RefState) : exec (throw e : RefM α) s = (.error e, s) := rfl

@[simp] theorem exec_lift (r : Except Fault α) (s : RefState) : exec (liftM r : RefM α) s = (r, s) := rfl

@[simp] theorem exec_tables (s : RefState) : exec tables s = (.ok s.tables, s) := rfl

@[simp] theorem exec_update (f : Tables → Tables) (s : RefState) :
    exec (update f) s = (.ok (), { s with tables := f s.tables }) := rfl

@[simp] theorem exec_report (lines : List String) (s : RefState) :
    exec (report lines) s = (.ok (), { s with log := s.log ++ lines }) := rfl

theorem exec_bind (x : RefM α) (f : α → RefM β) (s : RefState) : exec (x >>= f) s =
      match exec x s with
      | (.ok a, s') => exec (f a) s'
      | (.error e, s') => (.error e, s') := by
  unfold exec
  rw [ExceptT.run_bind, StateT.run_bind]
  rcases x.run.run s with ⟨e | a, s'⟩ <;> rfl

theorem exec_tryCatch (x : RefM α) (handler : Fault → RefM α) (s : RefState) : exec (tryCatch x handler) s =
      match exec x s with
      | (.ok a, s') => (.ok a, s')
      | (.error e, s') => exec (handler e) s' := by
  unfold exec
  rw [ExceptT.run_tryCatch, StateT.run_bind]
  rcases x.run.run s with ⟨e | a, s'⟩ <;> rfl

theorem lift_bind (x : Except Fault α) (f : α → Except Fault β) :
    (liftM (x >>= f) : RefM β) = liftM x >>= fun a => liftM (f a) := by
  cases x <;> rfl

theorem exec_bind_ok {x : RefM α} {f : α → RefM β} {b : β} (h : exec (x >>= f) s = (.ok b, s')) :
    ∃ a s1, exec x s = (.ok a, s1) ∧ exec (f a) s1 = (.ok b, s') := by
  rw [exec_bind] at h
  rcases hx : exec x s with ⟨e | a, s1⟩
  · rw [hx] at h
    cases h
  · rw [hx] at h
    exact ⟨a, s1, rfl, h⟩

theorem exec_ask_ok {r : Except Fault α} {f : α → RefM β} {b : β}
    (h : exec (liftM r >>= f) s = (.ok b, s')) : ∃ a, r = .ok a ∧ exec (f a) s = (.ok b, s') := by
  cases r with
  | error e => cases h
  | ok a => exact ⟨a, rfl, h⟩

theorem exec_bind_of_ok {x : RefM α} {f : α → RefM β} {a : α}
    (hx : exec x s = (.ok a, s1)) : exec (x >>= f) s = exec (f a) s1 := by
  rw [exec_bind, hx]

theorem exec_bind_of_error {x : RefM α} {f : α → RefM β} {e : Fault}
    (hx : exec x s = (.error e, s1)) : exec (x >>= f) s = (.error e, s1) := by
  rw [exec_bind, hx]

theorem exec_mapM_eq_ok {f : α → RefM β} {as : List α} {bs : List β} (h : exec (as.mapM f) s = (.ok bs, s')) :
    List.Forall₂ (fun a b => ∃ s1 s2, exec (f a) s1 = (.ok b, s2)) as bs := by
  induction as generalizing bs s with
  | nil =>
    rw [List.mapM_nil] at h
    cases h
    exact .nil
  | cons a rest ih =>
    rw [List.mapM_cons] at h
    obtain ⟨b, s1, hfirst, h1⟩ := exec_bind_ok h
    obtain ⟨more, s2, hmore, h2⟩ := exec_bind_ok h1
    cases h2
    exact .cons ⟨s, s1, hfirst⟩ (ih hmore)

/-- Whatever the work returns, from any state, meets the condition. -/
def Returns (Q : α → Prop) (x : RefM α) : Prop :=
  ∀ s a s', exec x s = (.ok a, s') → Q a

namespace Returns

variable {Q : α → Prop} {R : β → Prop}

theorem pure {a : α} (h : Q a) : Returns Q (Pure.pure a) := by
  intro s a' s' hrun
  cases hrun
  exact h

theorem of_bind {x : RefM α} {f : α → RefM β} (hx : Returns Q x) (hf : ∀ a, Q a → Returns R (f a)) :
    Returns R (x >>= f) := by
  intro s b s' hrun
  obtain ⟨a, s1, hfirst, hrest⟩ := exec_bind_ok hrun
  exact hf a (hx s a s1 hfirst) s1 b s' hrest

theorem of_ask {r : Except Fault α} {f : α → RefM β} (hf : ∀ a, r = .ok a → Returns R (f a)) :
    Returns R (liftM r >>= f) := by
  intro s b s' hrun
  obtain ⟨a, ha, hrest⟩ := exec_ask_ok hrun
  exact hf a ha s b s' hrest

theorem of_known {r : Except Fault α} {f : α → RefM β} {a : α} (ha : r = .ok a)
    (hf : Returns R (f a)) : Returns R (liftM r >>= f) := by
  subst ha
  exact hf

theorem of_ite [Decidable c] {x y : RefM α} (hx : c → Returns Q x) (hy : ¬ c → Returns Q y) :
    Returns Q (if c then x else y) := by
  split
  · exact hx ‹_›
  · exact hy ‹_›

end Returns

/-- Where the work returns from a state that meets the one condition, its result and the state that it leaves
meet the other. -/
def Ensures (P : RefState → Prop) (x : RefM α) (Q : α → RefState → Prop) : Prop :=
  ∀ s a s', P s → exec x s = (.ok a, s') → Q a s'

namespace Ensures

variable {P : RefState → Prop} {Q : α → RefState → Prop} {R : β → RefState → Prop}
  {R' : Tables → RefState → Prop}

theorem pure {a : α} (h : ∀ s, P s → Q a s) : Ensures P (Pure.pure a) Q := by
  intro s a' s' hs hrun
  cases hrun
  exact h s hs

theorem throw (e : Fault) : Ensures P (MonadExcept.throw e : RefM α) Q :=
  nofun

theorem tables (h : ∀ s, P s → R' s.tables s) : Ensures P RefM.tables R' := by
  intro s t s' hs hrun
  cases hrun
  exact h s hs

theorem of_imp {P' : RefState → Prop} {x : RefM α} (h : ∀ s, P' s → P s) (hx : Ensures P x Q) : Ensures P' x Q :=
  fun s a s' hs => hx s a s' (h s hs)

theorem of_bind {x : RefM α} {f : α → RefM β} (hx : Ensures P x Q) (hf : ∀ a, Ensures (Q a) (f a) R) :
    Ensures P (x >>= f) R := by
  intro s b s' hs hrun
  obtain ⟨a, s1, hfirst, hrest⟩ := exec_bind_ok hrun
  exact hf a s1 b s' (hx s a s1 hs hfirst) hrest

theorem of_ask {r : Except Fault α} {f : α → RefM β} (hf : ∀ a, r = .ok a → Ensures P (f a) R) :
    Ensures P (liftM r >>= f) R := by
  intro s b s' hs hrun
  obtain ⟨a, ha, hrest⟩ := exec_ask_ok hrun
  exact hf a ha s b s' hs hrest

theorem of_ite [Decidable c] {x y : RefM α} (hx : c → Ensures P x Q) (hy : ¬ c → Ensures P y Q) :
    Ensures P (if c then x else y) Q := by
  split
  · exact hx ‹_›
  · exact hy ‹_›

end Ensures

/-! ## Steps -/

theorem keep_of_steps {step : RefState → RefState → Prop} {P : RefState → Prop}
    (hP : ∀ s s', step s s' → P s → P s') (h : Relation.ReflTransGen step s s') (hs : P s) : P s' := by
  induction h with
  | refl => exact hs
  | tail _ hstep ih => exact hP _ _ hstep ih

def Makes (step : RefState → RefState → Prop) (work : RefM α) (s : RefState) : Prop :=
  Relation.ReflTransGen step s (exec work s).2

variable {step : RefState → RefState → Prop} {s : RefState}

theorem steps_of_exec {work : RefM α} {r : Except Fault α}
    (h : Makes step work s) (hrun : exec work s = (r, s')) : Relation.ReflTransGen step s s' := by
  unfold Makes at h
  rwa [hrun] at h

theorem makes_mono {step' : RefState → RefState → Prop} {work : RefM α}
    (hstep : ∀ s s', step s s' → step' s s') (h : Makes step work s) : Makes step' work s :=
  Relation.ReflTransGen.mono hstep _ _ h

theorem makes_pure (a : α) : Makes step (pure a) s := .refl

theorem makes_throw (e : Fault) : Makes step (throw e : RefM α) s := .refl

theorem makes_lift (r : Except Fault α) : Makes step (liftM r : RefM α) s := .refl

theorem makes_tables : Makes step tables s := .refl

theorem makes_update {f : Tables → Tables} (h : step s { s with tables := f s.tables }) :
    Makes step (update f) s :=
  .single h

theorem makes_report {lines : List String} (h : step s { s with log := s.log ++ lines }) :
    Makes step (report lines) s :=
  .single h

theorem makes_bind {x : RefM α} {f : α → RefM β} (hx : Makes step x s)
    (hf : ∀ a s', exec x s = (.ok a, s') → Makes step (f a) s') : Makes step (x >>= f) s := by
  unfold Makes at hx ⊢
  rw [exec_bind]
  rcases h : exec x s with ⟨e | a, s'⟩
  · rw [h] at hx
    exact hx
  · rw [h] at hx
    exact hx.trans (hf a s' h)

theorem makes_discard {x : RefM α} (hx : Makes step x s) : Makes step (discard x) s :=
  makes_bind hx fun _ _ _ => .refl

theorem makes_tryCatch {x : RefM α} {handler : Fault → RefM α} (hx : Makes step x s)
    (hh : ∀ e s', exec x s = (.error e, s') → Makes step (handler e) s') : Makes step (tryCatch x handler) s := by
  unfold Makes at hx ⊢
  rw [exec_tryCatch]
  rcases h : exec x s with ⟨e | a, s'⟩
  · rw [h] at hx
    exact hx.trans (hh e s' h)
  · rw [h] at hx
    exact hx

end RefM

end Typewright
