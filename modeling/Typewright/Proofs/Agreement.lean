import Typewright.Proofs.SeenRun

/-!
# Work that agrees

Two pieces of work that start where nothing is known about references yet, of which the first one asks more of a
schema.
-/

namespace Typewright

open RefM

variable {α β : Type} {P : Prop} {c : Prop}

/-- From the start, both pieces of work leave the state as it is, the second one returns what the first
one returns, and if `P` holds the first one returns what the second one returns. -/
class Agree (P : Prop) (x y : RefM α) : Prop where
  agree : ∃ r r', exec x {} = (r, {}) ∧ exec y {} = (r', {}) ∧
    (∀ a, r = .ok a → r' = .ok a) ∧ (P → ∀ a, r' = .ok a → r = .ok a)

namespace Agree

theorem of_same {x y : RefM α} {r : Except Fault α} (hx : exec x {} = (r, {}))
    (hy : exec y {} = (r, {})) : Agree P x y :=
  ⟨r, r, hx, hy, fun _ hr => hr, fun _ _ hr => hr⟩

instance pure (a : α) : Agree P (Pure.pure a : RefM α) (Pure.pure a) :=
  of_same rfl rfl

instance lift {r : Except Fault α} : Agree P (liftM r : RefM α) (liftM r) :=
  of_same rfl rfl

theorem of_bind {x y : RefM α} {f g : α → RefM β} (hxy : Agree P x y)
    (hfg : ∀ a, exec y {} = (.ok a, {}) → Agree P (f a) (g a)) : Agree P (x >>= f) (y >>= g) := by
  obtain ⟨r, r', hx, hy, sound, complete⟩ := hxy
  cases r' with
  | error e' =>
    cases r with
    | ok a => cases sound a rfl
    | error e =>
      exact ⟨.error e, .error e', exec_bind_of_error hx, exec_bind_of_error hy, nofun, nofun⟩
  | ok a =>
    obtain ⟨q, q', hf, hg, sound', complete'⟩ := hfg a hy
    cases r with
    | ok a' =>
      cases sound a' rfl
      exact ⟨q, q', (exec_bind_of_ok hx).trans hf, (exec_bind_of_ok hy).trans hg, sound', complete'⟩
    | error e =>
      refine ⟨.error e, q', exec_bind_of_error hx, (exec_bind_of_ok hy).trans hg, nofun, fun holds => ?_⟩
      cases complete holds a rfl

instance bind {x y : RefM α} {f g : α → RefM β} [hxy : Agree P x y] [hfg : ∀ a, Agree P (f a) (g a)] :
    Agree P (x >>= f) (y >>= g) :=
  of_bind hxy fun a _ => hfg a

theorem of_ask {r : Except Fault α} {f g : α → RefM β} (hfg : ∀ a, r = .ok a → Agree P (f a) (g a)) :
    Agree P (liftM r >>= f) (liftM r >>= g) :=
  of_bind lift fun a ha => hfg a (congrArg Prod.fst ha)

theorem of_ite [Decidable c] {x y x' y' : RefM α} (h : c → Agree P x y)
    (h' : ¬ c → Agree P x' y') : Agree P (if c then x else x') (if c then y else y') := by
  split
  · exact h ‹_›
  · exact h' ‹_›

instance ite [Decidable c] {x y x' y' : RefM α} [h : Agree P x y] [h' : Agree P x' y'] :
    Agree P (if c then x else x') (if c then y else y') :=
  of_ite (fun _ => h) fun _ => h'

theorem of_else [Decidable c] {x y x' y' : RefM α} [h : Agree P x y] (h' : ¬ c → Agree P x' y') :
    Agree P (if c then x else x') (if c then y else y') :=
  of_ite (fun _ => h) h'

instance discard {x y : RefM α} [h : Agree P x y] : Agree P (discard x) (discard y) :=
  bind (f := fun _ => Pure.pure ()) (g := fun _ => Pure.pure ())

theorem of_questions {r r' : Except Fault α} (sound : ∀ a, r = .ok a → r' = .ok a)
    (complete : P → ∀ a, r' = .ok a → r = .ok a) : Agree P (liftM r : RefM α) (liftM r') :=
  ⟨r, r', rfl, rfl, sound, complete⟩

theorem ask_left {r : Except Fault α} {f : α → RefM β} {y : RefM β} (hy : ∃ q, exec y {} = (q, {}))
    (hr : P → ∃ a, r = .ok a) (hf : ∀ a, r = .ok a → Agree P (f a) y) : Agree P (liftM r >>= f) y := by
  cases r with
  | error e =>
    obtain ⟨q, hy⟩ := hy
    refine ⟨.error e, q, rfl, hy, nofun, fun holds => ?_⟩
    obtain ⟨a, ha⟩ := hr holds
    cases ha
  | ok a => exact hf a rfl

theorem after {x : RefM α} {f : α → RefM β} {y : RefM β} {a : α} (hx : Agree P x (Pure.pure a))
    (hf : Agree P (f a) y) : Agree P (x >>= f) y := by
  have hbind : Agree P (x >>= f) (Pure.pure a >>= fun _ => y) := of_bind hx fun a' ha' => by
      cases ha'
      exact hf
  exact hbind

theorem sound {x y : RefM α} {a : α} (h : Agree P x y) (hx : (exec x {}).1 = .ok a) : (exec y {}).1 = .ok a := by
  obtain ⟨r, r', hr, hr', sound, _⟩ := h
  rw [hr] at hx
  rw [hr']
  exact sound a hx

theorem complete {x y : RefM α} {a : α} (h : Agree P x y) (holds : P) (hy : (exec y {}).1 = .ok a) :
    (exec x {}).1 = .ok a := by
  obtain ⟨r, r', hr, hr', _, complete⟩ := h
  rw [hr'] at hy
  rw [hr]
  exact complete holds a hy

theorem mono {P' : Prop} {x y : RefM α} (h : Agree P x y) (himp : P' → P) : Agree P' x y := by
  obtain ⟨r, r', hx, hy, sound, complete⟩ := h
  exact ⟨r, r', hx, hy, sound, fun holds => complete (himp holds)⟩

end Agree

/-- Work that keeps the names of types agrees, whatever names were seen before. -/
class AgreeSeen (P : Prop) (x y : SeenM α) : Prop where
  run : ∀ seen, Agree P (x.run seen) (y.run seen)

namespace AgreeSeen

attribute [instance] AgreeSeen.run

instance pure (a : α) : AgreeSeen P (Pure.pure a : SeenM α) (Pure.pure a) :=
  ⟨fun seen => Agree.pure (a, seen)⟩

instance lift {x y : RefM α} [h : Agree P x y] : AgreeSeen P (liftM x : SeenM α) (liftM y) :=
  ⟨fun seen => Agree.bind (f := fun a => Pure.pure (a, seen)) (g := fun a => Pure.pure (a, seen))⟩

theorem of_questions {r r' : Except Fault α} (h : Agree P (liftM r : RefM α) (liftM r')) :
    AgreeSeen P (liftM r : SeenM α) (liftM r') :=
  ⟨fun seen => Agree.bind (x := (liftM r : RefM α)) (y := (liftM r' : RefM α))
    (f := fun a => Pure.pure (a, seen)) (g := fun a => Pure.pure (a, seen))⟩

instance ask {r : Except Fault α} : AgreeSeen P (liftM r : SeenM α) (liftM r) :=
  of_questions inferInstance

theorem of_bind {x y : SeenM α} {f g : α → SeenM β} (hxy : AgreeSeen P x y)
    (hfg : ∀ a, AgreeSeen P (f a) (g a)) : AgreeSeen P (x >>= f) (y >>= g) :=
  ⟨fun seen => Agree.of_bind (hxy.run seen) fun r _ => (hfg r.1).run r.2⟩

instance bind {x y : SeenM α} {f g : α → SeenM β} [hxy : AgreeSeen P x y]
    [hfg : ∀ a, AgreeSeen P (f a) (g a)] : AgreeSeen P (x >>= f) (y >>= g) :=
  of_bind hxy hfg

theorem of_ask {r : Except Fault α} {f g : α → SeenM β} (hfg : ∀ a, r = .ok a → AgreeSeen P (f a) (g a)) :
    AgreeSeen P (liftM r >>= f) (liftM r >>= g) := by
  cases r with
  | error e => exact ⟨fun seen => ⟨.error e, .error e, rfl, rfl, nofun, nofun⟩⟩
  | ok a => exact ⟨fun seen => (hfg a rfl).run seen⟩

theorem of_lift {x y : RefM α} {f g : α → SeenM β} (hxy : Agree P x y)
    (hfg : ∀ a, exec y {} = (.ok a, {}) → AgreeSeen P (f a) (g a)) : AgreeSeen P (liftM x >>= f) (liftM y >>= g) where
  run seen := by
    have hlift : ∀ (z : RefM α) (h : α → SeenM β),
        (liftM z >>= h : SeenM β).run seen = z >>= fun a => (h a).run seen := by
      intro z h
      show (z >>= fun a => Pure.pure (a, seen)) >>= (fun p => (h p.1).run p.2) = _
      rw [bind_assoc]
      rfl
    rw [hlift, hlift]
    exact Agree.of_bind hxy fun a ha => (hfg a ha).run seen

theorem of_ite [Decidable c] {x y x' y' : SeenM α} (h : c → AgreeSeen P x y)
    (h' : ¬ c → AgreeSeen P x' y') : AgreeSeen P (if c then x else x') (if c then y else y') := by
  split
  · exact h ‹_›
  · exact h' ‹_›

instance ite [Decidable c] {x y x' y' : SeenM α} [h : AgreeSeen P x y]
    [h' : AgreeSeen P x' y'] : AgreeSeen P (if c then x else x') (if c then y else y') :=
  of_ite (fun _ => h) fun _ => h'

theorem of_else [Decidable c] {x y x' y' : SeenM α} [h : AgreeSeen P x y] (h' : ¬ c → AgreeSeen P x' y') :
    AgreeSeen P (if c then x else x') (if c then y else y') :=
  of_ite (fun _ => h) h'

instance discard {x y : SeenM α} [h : AgreeSeen P x y] : AgreeSeen P (discard x) (discard y) :=
  bind (f := fun _ => Pure.pure ()) (g := fun _ => Pure.pure ())

instance isSeen (name : Scalar) : AgreeSeen P (SeenM.isSeen name) (SeenM.isSeen name) :=
  ⟨fun seen => Agree.pure (Seen.has seen name, seen)⟩

instance mark (name : Scalar) : AgreeSeen P (SeenM.mark name) (SeenM.mark name) :=
  ⟨fun seen => Agree.pure ((), Seen.add seen name)⟩

end AgreeSeen

end Typewright
