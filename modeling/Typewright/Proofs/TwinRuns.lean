import Typewright.Proofs.TwoRuns

/-!
# Twin runs

Two pieces of work that start from one state and go the same way: both return, with results that stand in some
relation, or both fail with the same fault, and they end in one state.
-/

namespace Typewright

open RefM

variable {α β γ δ : Type} {c : Prop}

/-! ## Questions -/

namespace Outcome.Paired

variable {Q : α → β → Prop} {R : γ → δ → Prop} {r : Except Fault α} {r' : Except Fault β}

theorem bind {f : α → Except Fault γ} {g : β → Except Fault δ} (h : Paired Q r r')
    (hf : ∀ a b, Q a b → Paired R (f a) (g b)) : Paired R (r >>= f) (r' >>= g) := by
  cases h with
  | ok h => exact hf _ _ h
  | error e => exact .error e

theorem mono {Q' : α → β → Prop} (h : Paired Q r r') (himp : ∀ a b, r = .ok a → Q a b → Q' a b) : Paired Q' r r' := by
  cases h with
  | ok h => exact .ok (himp _ _ rfl h)
  | error e => exact .error e

theorem same {f : α → Except Fault γ} {g : α → Except Fault δ} {r' : Except Fault α} (h : r = r')
    (hf : ∀ a, r = .ok a → Paired R (f a) (g a)) : Paired R (r >>= f) (r' >>= g) := by
  subst h
  cases r with
  | ok a => exact hf a rfl
  | error e => exact .error e

theorem of_val {p : α → Prop} {q : β → Prop} {r : Except Fault (Subtype p)} {r' : Except Fault (Subtype q)}
    (h : Paired Q (r >>= fun a => pure a.val) (r' >>= fun b => pure b.val)) :
    Paired (fun a b => Q a.val b.val) r r' := by
  match r, r', h with
  | .error e, .error _, .error _ => exact .error e
  | .ok a, .ok b, .ok hab => exact .ok hab

theorem ite [Decidable c] {x x' : Except Fault α} {y y' : Except Fault β} (hx : c → Paired Q x y)
    (hy : ¬ c → Paired Q x' y') : Paired Q (if c then x else x') (if c then y else y') := by
  split
  · exact hx ‹_›
  · exact hy ‹_›

theorem foldlM {step : γ → α → Except Fault γ} {step' : γ → β → Except Fault γ}
    (hstep : ∀ c a b, Q a b → step c a = step' c b) {as : List α} {bs : List β} (h : List.Forall₂ Q as bs)
    (c : γ) : as.foldlM step c = bs.foldlM step' c := by
  induction h generalizing c with
  | nil => rfl
  | cons hab _ ih =>
    rw [List.foldlM_cons, List.foldlM_cons, hstep c _ _ hab]
    exact congrArg _ (funext ih)

end Outcome.Paired

/-! ## Work on references -/

namespace RefM

/-- From any state, both pieces of work come to related results or the same fault, and to one state. -/
def Twin (Q : α → β → Prop) (x : RefM α) (y : RefM β) : Prop :=
  ∀ s, Outcome.Paired Q (exec x s).1 (exec y s).1 ∧ (exec x s).2 = (exec y s).2

namespace Twin

variable {Q : α → β → Prop} {R : γ → δ → Prop}

theorem pure {a : α} {b : β} (h : Q a b) : Twin Q (Pure.pure a) (Pure.pure b) :=
  fun _ => ⟨.ok h, rfl⟩

theorem self (x : RefM α) : Twin Eq x x :=
  fun _ => ⟨.of_eq rfl, rfl⟩

theorem of_question {r : Except Fault α} {r' : Except Fault β} (h : Outcome.Paired Q r r') :
    Twin Q (liftM r) (liftM r') :=
  fun _ => ⟨h, rfl⟩

theorem of_fault {x : RefM α} {y : RefM β} {e : Fault} (hx : ∀ s, exec x s = (.error e, s))
    (hy : ∀ s, exec y s = (.error e, s)) : Twin Q x y := by
  intro s
  rw [hx, hy]
  exact ⟨.error e, rfl⟩

theorem of_bind {x : RefM α} {y : RefM β} {f : α → RefM γ} {g : β → RefM δ} (h : Twin Q x y)
    (hf : ∀ a b, Q a b → Twin R (f a) (g b)) : Twin R (x >>= f) (y >>= g) := by
  intro s
  obtain ⟨hresult, hstate⟩ := h s
  rw [exec_bind, exec_bind]
  generalize exec x s = out at hresult hstate ⊢
  generalize exec y s = out' at hresult hstate ⊢
  obtain ⟨r, t⟩ := out
  obtain ⟨r', t'⟩ := out'
  cases hstate
  cases hresult with
  | ok h => exact hf _ _ h t
  | error e => exact ⟨.error e, rfl⟩

theorem of_ask {r : Except Fault α} {r' : Except Fault β} {f : α → RefM γ} {g : β → RefM δ}
    (h : Outcome.Paired Q r r') (hf : ∀ a b, Q a b → Twin R (f a) (g b)) : Twin R (liftM r >>= f) (liftM r' >>= g) :=
  of_bind (of_question h) hf

theorem of_same {r r' : Except Fault α} {f : α → RefM γ} {g : α → RefM δ} (h : r = r')
    (hf : ∀ a, r = .ok a → Twin R (f a) (g a)) : Twin R (liftM r >>= f) (liftM r' >>= g) := by
  subst h
  refine of_ask (Q := fun a b => r = .ok a ∧ a = b) ?_ fun a b hab => hab.2 ▸ hf a hab.1
  cases r with
  | ok a => exact .ok ⟨rfl, rfl⟩
  | error e => exact .error e

theorem of_shared {x : RefM α} {f : α → RefM γ} {g : α → RefM δ} (hf : ∀ a, Twin R (f a) (g a)) :
    Twin R (x >>= f) (x >>= g) :=
  of_bind (self x) fun a _ hab => hab ▸ hf a

theorem of_ite [Decidable c] {x x' : RefM α} {y y' : RefM β} (hx : c → Twin Q x y)
    (hy : ¬ c → Twin Q x' y') : Twin Q (if c then x else x') (if c then y else y') := by
  split
  · exact hx ‹_›
  · exact hy ‹_›

end Twin

end RefM

/-! ## Work with the names that were seen -/

namespace SeenM

/-- Twin work that also ends with the same names, whatever names were seen before. -/
def Twin (Q : α → β → Prop) (x : SeenM α) (y : SeenM β) : Prop :=
  ∀ seen, RefM.Twin (fun a b => Q a.1 b.1 ∧ a.2 = b.2) (x.run seen) (y.run seen)

namespace Twin

variable {Q : α → β → Prop} {R : γ → δ → Prop}

theorem pure {a : α} {b : β} (h : Q a b) : Twin Q (Pure.pure a) (Pure.pure b) :=
  fun _ => .pure ⟨h, rfl⟩

theorem self (x : SeenM α) : Twin Eq x x := by
  intro seen s
  refine ⟨?_, rfl⟩
  cases (exec (x.run seen) s).1 with
  | ok a => exact .ok ⟨rfl, rfl⟩
  | error e => exact .error e

theorem of_bind {x : SeenM α} {y : SeenM β} {f : α → SeenM γ} {g : β → SeenM δ} (h : Twin Q x y)
    (hf : ∀ a b, Q a b → Twin R (f a) (g b)) : Twin R (x >>= f) (y >>= g) := by
  intro seen
  refine RefM.Twin.of_bind (h seen) ?_
  rintro ⟨a, seen1⟩ ⟨b, seen2⟩ ⟨hab, hseen⟩
  cases hseen
  exact hf a b hab seen1

theorem of_lift {x : RefM α} {y : RefM β} (h : RefM.Twin Q x y) : Twin Q (liftM x) (liftM y) :=
  fun _ => RefM.Twin.of_bind h fun _ _ hab => .pure ⟨hab, rfl⟩

theorem of_question {r : Except Fault α} {r' : Except Fault β} (h : Outcome.Paired Q r r') :
    Twin Q (liftM r) (liftM r') :=
  of_lift (.of_question h)

theorem of_ask {r : Except Fault α} {r' : Except Fault β} {f : α → SeenM γ} {g : β → SeenM δ}
    (h : Outcome.Paired Q r r') (hf : ∀ a b, Q a b → Twin R (f a) (g b)) : Twin R (liftM r >>= f) (liftM r' >>= g) :=
  of_bind (of_question h) hf

theorem of_same {r r' : Except Fault α} {f : α → SeenM γ} {g : α → SeenM δ} (h : r = r')
    (hf : ∀ a, r = .ok a → Twin R (f a) (g a)) : Twin R (liftM r >>= f) (liftM r' >>= g) := by
  subst h
  refine of_ask (Q := fun a b => r = .ok a ∧ a = b) ?_ fun a b hab => hab.2 ▸ hf a hab.1
  cases r with
  | ok a => exact .ok ⟨rfl, rfl⟩
  | error e => exact .error e

theorem of_shared {x : SeenM α} {f : α → SeenM γ} {g : α → SeenM δ} (hf : ∀ a, Twin R (f a) (g a)) :
    Twin R (x >>= f) (x >>= g) :=
  of_bind (self x) fun a _ hab => hab ▸ hf a

theorem of_ite [Decidable c] {x x' : SeenM α} {y y' : SeenM β} (hx : c → Twin Q x y)
    (hy : ¬ c → Twin Q x' y') : Twin Q (if c then x else x') (if c then y else y') := by
  split
  · exact hx ‹_›
  · exact hy ‹_›

theorem discard {x : SeenM α} {y : SeenM β} (h : Twin Q x y) : Twin (fun _ _ => True) (discard x) (discard y) :=
  of_bind (f := fun _ => Pure.pure ()) (g := fun _ => Pure.pure ()) h fun _ _ _ => .pure trivial

end Twin

end SeenM

end Typewright
