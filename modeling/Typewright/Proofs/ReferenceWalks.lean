import Typewright.Proofs.KindFaults
import Typewright.Proofs.SchemaShape

/-!
# Two walks over references

What holds of the calls that two visitors make at the same references holds of their walks, if work that is
done in parts keeps it.
-/

namespace Typewright.Reference

variable {σ τ ι : Type} {k : σ → τ → ι} {Q : σ → τ → Prop} {R : ι → RefM σ → RefM τ → Prop}
  {visitor : Visitor σ} {visitor' : Visitor τ} {owner : Value} {S A : Value → Prop}

/-- Work on two sides is related from where it starts: it starts with two values, and may ask the same
questions on both sides and go on with related work. -/
structure Steady (k : σ → τ → ι) (Q : σ → τ → Prop) (R : ι → RefM σ → RefM τ → Prop) : Prop where
  done : ∀ {a b}, Q a b → R (k a b) (pure a) (pure b)
  bind : ∀ {i x y} {f : σ → RefM σ} {g : τ → RefM τ}, R i x y → (∀ a b, Q a b → R (k a b) (f a) (g b)) →
    R i (x >>= f) (y >>= g)
  ask : ∀ {α : Type} {i} {r : Except Fault α} [FailsWith KindFault r] {f : α → RefM σ} {g : α → RefM τ},
    (∀ x, r = .ok x → R i (f x) (g x)) → R i (liftM r >>= f) (liftM r >>= g)

/-- Schemas of a kind that passes to what is inside them, and the references that they have. -/
structure Carries (S A : Value → Prop) : Prop where
  inside : ∀ {v w}, S v → Value.Inside w v → S w
  ref : ∀ {v ref}, S v → v.field "$ref" = .ok ref → A ref

theorem carries_all : Carries (fun _ => True) fun _ => True :=
  ⟨fun _ _ => trivial, fun _ _ => trivial⟩

/-- What two visitors do at references of a kind is related. -/
structure RelatedVisitors (k : σ → τ → ι) (Q : σ → τ → Prop) (R : ι → RefM σ → RefM τ → Prop)
    (A : Value → Prop) (visitor : Visitor σ) (visitor' : Visitor τ) : Prop where
  onProperty : ∀ a b ref, Q a b → A ref → R (k a b) (visitor.onProperty a ref) (visitor'.onProperty b ref)
  onItem : ∀ a b ref, Q a b → A ref → R (k a b) (visitor.onItem a ref) (visitor'.onItem b ref)
  onDefinition : visitor.onDefinition = none ∧ visitor'.onDefinition = none ∨
    ∃ f g, visitor.onDefinition = some f ∧ visitor'.onDefinition = some g ∧
      ∀ a b ref, Q a b → A ref → R (k a b) (f a ref) (g b ref)

theorem related_ite {c : Prop} [Decidable c] {i : ι} {x x' : RefM σ} {y y' : RefM τ} (hx : R i x y)
    (hy : R i x' y') : R i (if c then x else x') (if c then y else y') := by
  split
  · exact hx
  · exact hy

theorem related_walkProperties (steady : Steady k Q R) (carries : Carries S A)
    (h : RelatedVisitors k Q R A visitor visitor') {next : σ → Below owner → RefM σ} {next' : τ → Below owner → RefM τ}
    (hnext : ∀ a b inner, Q a b → S inner.val → R (k a b) (next a inner) (next' b inner)) {a : σ} {b : τ}
    (hab : Q a b) (rest : List (Scalar × Below owner)) (hrest : ∀ e ∈ rest, S e.2.val) :
    R (k a b) (walkProperties visitor owner next a rest) (walkProperties visitor' owner next' b rest) := by
  induction rest generalizing a b with
  | nil => exact steady.done hab
  | cons e rest ih =>
    obtain ⟨_, property, below⟩ := e
    obtain ⟨hproperty, hrest⟩ := List.forall_mem_cons.mp hrest
    -- the object inside the property, and then the other properties
    have htail : ∀ (isObject : Bool) (a : σ) (b : τ), Q a b → R (k a b) (if isObject = true
          then next a ⟨property, below⟩ >>= fun a => walkProperties visitor owner next a rest
          else pure a >>= fun a => walkProperties visitor owner next a rest)
        (if isObject = true
          then next' b ⟨property, below⟩ >>= fun b => walkProperties visitor' owner next' b rest
          else pure b >>= fun b => walkProperties visitor' owner next' b rest) :=
      fun _ a b hab => related_ite (steady.bind (hnext a b _ hab hproperty) fun _ _ hab => ih hab hrest)
        (steady.bind (steady.done hab) fun _ _ hab => ih hab hrest)
    unfold walkProperties
    refine steady.ask fun isRef _ => ?_
    dsimp only
    refine related_ite (steady.ask fun ref href => steady.bind
        (h.onProperty a b ref hab (carries.ref hproperty href)) fun a b hab => ?_)
      (steady.bind (steady.done hab) fun a b hab => ?_)
    all_goals
      refine steady.ask fun type _ => related_ite (steady.ask fun items hpart => ?_)
        (steady.bind (steady.done hab) (htail _))
      rcases items with _ | ⟨items, inside⟩
      · exact steady.bind (steady.done hab) (htail _)
      have hitems : S items := carries.inside hproperty (Value.inside_of_field (Value.field_of_part? hpart))
      refine related_ite (steady.ask fun ref href => steady.bind
        (h.onItem a b ref hab (carries.ref hitems href)) (htail _)) ?_
      exact related_ite (steady.bind (hnext a b _ hab hitems) (htail _)) (steady.bind (steady.done hab) (htail _))

theorem related_walkDefinitions (steady : Steady k Q R) (carries : Carries S A) {f : σ → Value → RefM σ}
    {g : τ → Value → RefM τ} {next : σ → Below owner → RefM σ} {next' : τ → Below owner → RefM τ}
    (hvisit : ∀ a b ref, Q a b → A ref → R (k a b) (f a ref) (g b ref))
    (hnext : ∀ a b inner, Q a b → S inner.val → R (k a b) (next a inner) (next' b inner)) {a : σ} {b : τ}
    (hab : Q a b) (rest : List (Below owner)) (hrest : ∀ e ∈ rest, S e.val) :
    R (k a b) (walkDefinitions f owner next a rest) (walkDefinitions g owner next' b rest) := by
  induction rest generalizing a b with
  | nil => exact steady.done hab
  | cons e rest ih =>
    obtain ⟨definition, below⟩ := e
    obtain ⟨hdef, hrest⟩ := List.forall_mem_cons.mp hrest
    unfold walkDefinitions
    refine steady.ask fun isRef _ => ?_
    dsimp only
    refine related_ite (steady.ask fun ref href => steady.bind
      (hvisit a b ref hab (carries.ref hdef href)) fun _ _ hab => ih hab hrest) ?_
    exact related_ite (steady.bind (hnext a b _ hab hdef) fun _ _ hab => ih hab hrest)
      (steady.bind (steady.done hab) fun _ _ hab => ih hab hrest)

theorem related_walk (steady : Steady k Q R) (carries : Carries S A) (h : RelatedVisitors k Q R A visitor visitor')
    {a : σ} {b : τ} (hab : Q a b) (schema : Value) (hschema : S schema) :
    R (k a b) (walk visitor a schema) (walk visitor' b schema) := by
  have hinside : ∀ group : Value, group.depth < schema.depth → ∀ a b (inner : Below group), Q a b → S inner.val →
      R (k a b) (walk visitor a inner.val) (walk visitor' b inner.val) := by
    intro group hbelow a b inner hab hinner
    have hdepth : inner.val.depth < schema.depth := Nat.lt_trans inner.property hbelow
    exact related_walk steady carries h hab inner.val hinner
  have hentry : ∀ {name group es}, schema.field name = .ok group → group.entries = .ok es → ∀ e ∈ es, S e.2 :=
    fun hgroup hes _ he => carries.inside (carries.inside hschema (Value.inside_of_field hgroup))
      (Value.inside_of_entries hes he)
  rw [walk, walk]
  refine steady.ask fun properties hprops => ?_
  rcases properties with _ | ⟨properties, hbelow⟩
  on_goal 1 => refine steady.bind (steady.done hab) fun a b hab => ?_
  on_goal 2 =>
    refine steady.ask fun entries hentries => ?_
    have hvalues : ∀ e ∈ entries, S e.2.val := fun e he =>
      hentry (Value.field_of_part? hprops) (Value.entries_of_entriesBelow hentries) _ (List.mem_map_of_mem he)
    refine steady.bind
      (related_walkProperties steady carries h (hinside properties hbelow) hab entries hvalues) fun a b hab => ?_
  -- the definitions come after the properties, whether there are any of these or not
  all_goals
    rcases h.onDefinition with ⟨hnone, hnone'⟩ | ⟨f, g, hf, hg, hvisit⟩
    · rw [hnone, hnone']
      exact steady.done hab
    rw [hf, hg]
    refine steady.ask fun definitions hdefs => ?_
    rcases definitions with _ | ⟨definitions, hinner⟩
    · exact steady.done hab
    refine steady.ask fun values hvalues => ?_
    refine related_walkDefinitions steady carries hvisit (hinside definitions hinner) hab values fun u hu => ?_
    obtain ⟨es, hes, k, he⟩ := Value.entries_of_valuesBelow hvalues hu
    exact hentry (Value.field_of_part? hdefs) hes _ he
termination_by schema.depth

theorem walk_keeps {P : ι → RefM σ → Prop} {k : σ → ι}
    (steady : Steady (fun a _ => k a) Eq fun i work (_ : RefM σ) => P i work)
    (onProperty : ∀ a ref, P (k a) (visitor.onProperty a ref)) (onItem : ∀ a ref, P (k a) (visitor.onItem a ref))
    (onDefinition : ∀ f, visitor.onDefinition = some f → ∀ a ref, P (k a) (f a ref)) (a : σ) (schema : Value) :
    P (k a) (walk visitor a schema) := by
  have related : RelatedVisitors (fun a _ => k a) Eq (fun i work (_ : RefM σ) => P i work) (fun _ => True)
      visitor visitor := by
    refine ⟨fun a _ ref _ _ => onProperty a ref, fun a _ ref _ _ => onItem a ref, ?_⟩
    cases hvisit : visitor.onDefinition with
    | none => exact .inl ⟨rfl, rfl⟩
    | some f => exact .inr ⟨f, f, rfl, rfl, fun a _ ref _ _ => onDefinition f hvisit a ref⟩
  exact related_walk steady carries_all related rfl schema trivial

end Typewright.Reference
