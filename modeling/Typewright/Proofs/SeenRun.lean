import Typewright.Proofs.Parts
import Typewright.Seen

/-!
# Runs that keep the names that were seen

What work on types comes to part by part, and what it adds to the names that were seen.
-/

namespace Typewright

open RefM

variable {seen : List Scalar} {text : String} {x : Scalar} {r : Except Fault Bool} {c : Prop}

namespace Seen

theorem has_str_iff : has seen (.str text) ↔ .str text ∈ seen := by
  unfold has
  rw [List.any_eq_true]
  constructor
  · rintro ⟨x, hx, hsame⟩
    rw [Bool.or_eq_true, decide_eq_true_iff, Scalar.same_str_iff, or_self] at hsame
    exact hsame ▸ hx
  · exact fun h => ⟨_, h, by simp⟩

theorem has_add_iff : has (add seen x) (.str text) ↔ has seen (.str text) ∨ x = .str text := by
  unfold add
  split
  · next hx =>
    refine ⟨.inl, fun h => h.elim id ?_⟩
    rintro rfl
    exact hx
  · rw [has_str_iff, has_str_iff, List.mem_append, List.mem_singleton, eq_comm (a := x)]

theorem has_add_of_has {y : Scalar} (h : has seen x) : has (add seen y) x := by
  unfold add
  split
  · exact h
  · unfold has at h ⊢
    rw [List.any_append, h, Bool.true_or]

theorem has_add_self (seen : List Scalar) (x : Scalar) : has (add seen x) x := by
  unfold add
  split
  · next hx => exact hx
  · simp [has]

end Seen

section Runs

variable {α β : Type} {seen : List Scalar} {s s' : RefState} {b : β × List Scalar}

theorem run_bind_ok {x : SeenM α} {f : α → SeenM β} (h : exec ((x >>= f).run seen) s = (.ok b, s')) :
    ∃ a seen1 s1, exec (x.run seen) s = (.ok (a, seen1), s1) ∧ exec ((f a).run seen1) s1 = (.ok b, s') := by
  obtain ⟨⟨a, seen1⟩, s1, hx, hf⟩ := exec_bind_ok (x := x.run seen) (f := fun p => (f p.1).run p.2) h
  exact ⟨a, seen1, s1, hx, hf⟩

theorem run_lift_ok {x : RefM α} {f : α → SeenM β} (h : exec ((liftM x >>= f).run seen) s = (.ok b, s')) :
    ∃ a s1, exec x s = (.ok a, s1) ∧ exec ((f a).run seen) s1 = (.ok b, s') := by
  obtain ⟨a, seen1, s1, hx, hf⟩ := run_bind_ok h
  obtain ⟨a', s2, hx', hend⟩ := exec_bind_ok (x := x) (f := fun a => pure (a, seen)) hx
  cases hend
  exact ⟨_, _, hx', hf⟩

theorem run_ask_ok {r : Except Fault α} {f : α → SeenM β} (h : exec ((liftM r >>= f).run seen) s = (.ok b, s')) :
    ∃ a, r = .ok a ∧ exec ((f a).run seen) s = (.ok b, s') := by
  cases r with
  | error e => cases h
  | ok a => exact ⟨a, rfl, h⟩

theorem run_discard_ok {x : SeenM α} {u : Unit × List Scalar}
    (h : exec ((discard x).run seen) s = (.ok u, s')) : ∃ a, exec (x.run seen) s = (.ok (a, u.2), s') := by
  obtain ⟨⟨a, seen1⟩, s1, hx, hend⟩ := exec_bind_ok (x := x.run seen) (f := fun p => pure ((), p.2)) h
  cases hend
  exact ⟨a, hx⟩

theorem run_discard_ask_ok {r : Except Fault α} {f : Unit → SeenM β}
    (h : exec ((discard (liftM r : SeenM α) >>= f).run seen) s = (.ok b, s')) :
    ∃ a, r = .ok a ∧ exec ((f ()).run seen) s = (.ok b, s') := by
  cases r with
  | error e => cases h
  | ok a => exact ⟨a, rfl, h⟩

theorem run_no_bind {x y : SeenM β} (hr : r = .ok false)
    (h : exec ((liftM r >>= fun yes => if yes = true then x else y).run seen) s = (.ok b, s')) :
    exec (y.run seen) s = (.ok b, s') := by
  subst hr
  exact h

namespace SeenM

/-! ### What is returned -/

/-- Whatever the work returns, from any names and any state, meets the condition. -/
def Returns (Q : α → Prop) (x : SeenM α) : Prop :=
  ∀ seen s a seen' s', exec (x.run seen) s = (.ok (a, seen'), s') → Q a

namespace Returns

variable {Q : α → Prop} {R : β → Prop}

theorem pure {a : α} (h : Q a) : Returns Q (Pure.pure a) := by
  intro seen s a' seen' s' hrun
  cases hrun
  exact h

theorem of_bind {x : SeenM α} {f : α → SeenM β} (hx : Returns Q x) (hf : ∀ a, Q a → Returns R (f a)) :
    Returns R (x >>= f) := by
  intro seen s b seen' s' hrun
  obtain ⟨a, seen1, s1, hfirst, hrest⟩ := run_bind_ok hrun
  exact hf a (hx _ _ _ _ _ hfirst) _ _ _ _ _ hrest

theorem of_any {x : SeenM α} {f : α → SeenM β} (hf : ∀ a, Returns R (f a)) : Returns R (x >>= f) := by
  intro seen s b seen' s' hrun
  obtain ⟨a, seen1, s1, _, hrest⟩ := run_bind_ok hrun
  exact hf a _ _ _ _ _ hrest

theorem of_lift {x : RefM α} {f : α → SeenM β} (hx : RefM.Returns Q x)
    (hf : ∀ a, Q a → Returns R (f a)) : Returns R (liftM x >>= f) := by
  intro seen s b seen' s' hrun
  obtain ⟨a, s1, hfirst, hrest⟩ := run_lift_ok hrun
  exact hf a (hx _ _ _ hfirst) _ _ _ _ _ hrest

theorem of_ask {r : Except Fault α} {f : α → SeenM β} (hf : ∀ a, r = .ok a → Returns R (f a)) :
    Returns R (liftM r >>= f) := by
  intro seen s b seen' s' hrun
  obtain ⟨a, ha, hrest⟩ := run_ask_ok hrun
  exact hf a ha _ _ _ _ _ hrest

theorem of_ite [Decidable c] {x y : SeenM α} (hx : c → Returns Q x) (hy : ¬ c → Returns Q y) :
    Returns Q (if c then x else y) := by
  split
  · exact hx ‹_›
  · exact hy ‹_›

end Returns

/-! ### What succeeds -/

/-- The work returns something, from any names and any state. -/
def Succeeds (x : SeenM α) : Prop :=
  ∀ seen s, ∃ a seen' s', exec (x.run seen) s = (.ok (a, seen'), s')

namespace Succeeds

theorem pure (a : α) : Succeeds (Pure.pure a) := fun seen s => ⟨a, seen, s, rfl⟩

theorem isSeen (name : Scalar) : Succeeds (SeenM.isSeen name) := fun seen s => ⟨_, seen, s, rfl⟩

theorem mark (name : Scalar) : Succeeds (SeenM.mark name) := fun _ s => ⟨(), _, s, rfl⟩

theorem of_bind {x : SeenM α} {f : α → SeenM β} (hx : Succeeds x) (hf : ∀ a, Succeeds (f a)) : Succeeds (x >>= f) := by
  intro seen s
  obtain ⟨a, seen1, s1, hfirst⟩ := hx seen s
  obtain ⟨b, seen2, s2, hrest⟩ := hf a seen1 s1
  refine ⟨b, seen2, s2, ?_⟩
  exact (exec_bind_of_ok (f := fun p => (f p.1).run p.2) hfirst).trans hrest

theorem of_known {r : Except Fault α} {f : α → SeenM β} {a : α} (ha : r = .ok a) (hf : Succeeds (f a)) :
    Succeeds (liftM r >>= f) := by
  subst ha
  exact hf

theorem of_lift_pure {x : RefM α} {f : α → SeenM β} {a : α} (hx : x = Pure.pure a) (hf : Succeeds (f a)) :
    Succeeds (liftM x >>= f) := by
  subst hx
  exact hf

theorem of_no {x y : SeenM β} (hr : r = .ok false) (hy : Succeeds y) :
    Succeeds (liftM r >>= fun yes => if yes = true then x else y) := by
  subst hr
  exact hy

theorem of_ite [Decidable c] {x y : SeenM α} (hx : c → Succeeds x) (hy : ¬ c → Succeeds y) :
    Succeeds (if c then x else y) := by
  split
  · exact hx ‹_›
  · exact hy ‹_›

end Succeeds

end SeenM

end Runs

/-! ## What is kept -/

class KeepsSeen {α : Type} (work : SeenM α) : Prop where
  keeps : ∀ {seen seen' : List Scalar} {s s' : RefState} {a : α},
    exec (work.run seen) s = (.ok (a, seen'), s') →
      ∀ name, Seen.has seen name = true → Seen.has seen' name = true

namespace KeepsSeen

variable {α β : Type}

instance pure (a : α) : KeepsSeen (Pure.pure a : SeenM α) :=
  ⟨fun h => by
    cases h
    exact fun _ hseen => hseen⟩

theorem of_bind {x : SeenM α} {f : α → SeenM β} (hx : KeepsSeen x) (hf : ∀ a, KeepsSeen (f a)) :
    KeepsSeen (x >>= f) where
  keeps h name hseen := by
    obtain ⟨a, seen1, s1, hfirst, hrest⟩ := run_bind_ok h
    exact (hf a).keeps hrest name (hx.keeps hfirst name hseen)

theorem lift (x : RefM α) : KeepsSeen (liftM x : SeenM α) where
  keeps {seen} _ _ _ _ h := by
    obtain ⟨a, s1, _, hend⟩ := exec_bind_ok (x := x) (f := fun a => Pure.pure (a, seen)) h
    cases hend
    exact fun _ hseen => hseen

theorem isSeen (name : Scalar) : KeepsSeen (SeenM.isSeen name) :=
  ⟨fun h => by
    cases h
    exact fun _ hseen => hseen⟩

theorem mark (name : Scalar) : KeepsSeen (SeenM.mark name) :=
  ⟨fun h => by
    cases h
    exact fun _ hseen => Seen.has_add_of_has hseen⟩

end KeepsSeen

/-! ## What is added -/

/-- Names are only added, and a name that matters is added only if it is declared. -/
structure Adds (Own : String → Prop) (seen seen' : List Scalar) (declared : List String) : Prop where
  mono : ∀ text, Seen.has seen (.str text) = true → Seen.has seen' (.str text) = true
  declares : ∀ text, Own text → Seen.has seen' (.str text) = true →
    Seen.has seen (.str text) = true ∨ text ∈ declared

namespace Adds

variable {Own : String → Prop} {seen seen1 seen2 : List Scalar} {declared declared' : List String}

theorem refl (seen : List Scalar) : Adds Own seen seen declared :=
  ⟨fun _ h => h, fun _ _ h => .inl h⟩

theorem trans (h : Adds Own seen seen1 declared) (h' : Adds Own seen1 seen2 declared') :
    Adds Own seen seen2 (declared ++ declared') where
  mono text hseen := h'.mono text (h.mono text hseen)
  declares text own hseen := by
    rcases h'.declares text own hseen with hseen | hnew
    · exact (h.declares text own hseen).imp id (List.mem_append_left _)
    · exact .inr (List.mem_append_right _ hnew)

theorem subset (h : Adds Own seen seen1 declared) (hsub : ∀ text ∈ declared, text ∈ declared') :
    Adds Own seen seen1 declared' :=
  ⟨h.mono, fun text own hseen => (h.declares text own hseen).imp id (hsub text)⟩

theorem mark (h : ∀ text, x = .str text → Own text → text ∈ declared) : Adds Own seen (Seen.add seen x) declared where
  mono _ hseen := Seen.has_add_iff.mpr (.inl hseen)
  declares text own hseen :=
    (Seen.has_add_iff.mp hseen).imp id fun heq => h text heq own

end Adds

end Typewright
