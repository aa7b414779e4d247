import Typewright.Proofs.Preparation

/-!
# Chains of definitions

A definition may be a reference to another definition. Resolving gives up only on a chain that has come back to one of
them.
-/

namespace Typewright

open Outcome (ok_bind)

variable {root : Value} {name next ref : String} {fuel : Nat}

/-! ## Going down a relation -/

section Descending

variable {α : Type}

/-- From here one can go down `n` times, or fewer times to a place that is stuck. -/
def Descends (lead : α → α → Prop) (stuck : α → Prop) : Nat → α → Prop
  | 0, _ => True
  | n + 1, a => stuck a ∨ ∃ b, lead a b ∧ Descends lead stuck n b

/-- Some place below this one, or this one, is stuck or lies below itself. -/
def Endless (lead : α → α → Prop) (stuck : α → Prop) (a : α) : Prop :=
  ∃ b, Relation.ReflTransGen lead a b ∧ (stuck b ∨ Relation.TransGen lead b b)

variable {lead : α → α → Prop} {stuck : α → Prop}

theorem Endless.descends {a : α} (h : Endless lead stuck a) (n : Nat) : Descends lead stuck n a := by
  obtain ⟨b, hreach, hend⟩ := h
  -- every place from which `b` can be reached will do, those on its cycle among them
  induction n generalizing a with
  | zero => trivial
  | succ n ih =>
    rcases Relation.ReflTransGen.cases_head hreach with rfl | ⟨c, hstep, hreach⟩
    · rcases hend with hstuck | hcycle
      · exact .inl hstuck
      · obtain ⟨c, hstep, hback⟩ := Relation.TransGen.head'_iff.mp hcycle
        exact .inr ⟨c, hstep, ih hback⟩
    · exact .inr ⟨c, hstep, ih hreach⟩

theorem Descends.of_le {m n : Nat} {a : α} (h : Descends lead stuck n a) (le : m ≤ n) : Descends lead stuck m a := by
  induction m generalizing n a with
  | zero => trivial
  | succ m ih =>
    obtain ⟨n, rfl⟩ : ∃ k, n = k + 1 := ⟨n - 1, by omega⟩
    rcases h with hstuck | ⟨b, hstep, hbelow⟩
    · exact .inl hstuck
    · exact .inr ⟨b, hstep, ih hbelow (by omega)⟩

theorem endless_of_descends (places : List α) {a : α}
    (hplaces : ∀ b c, Relation.ReflTransGen lead a b → lead b c → c ∈ places)
    (h : Descends lead stuck (places.length + 1) a) : Endless lead stuck a := by
  induction hlength : places.length generalizing places a with
  | zero =>
    obtain rfl := List.length_eq_zero_iff.mp hlength
    rcases h with hstuck | ⟨b, hstep, _⟩
    · exact ⟨a, .refl, .inl hstuck⟩
    · cases hplaces a b .refl hstep
  | succ n ih =>
    rcases h with hstuck | ⟨b, hstep, hbelow⟩
    · exact ⟨a, .refl, .inl hstuck⟩
    by_cases hcycle : Relation.TransGen lead b b
    · exact ⟨b, .single hstep, .inr hcycle⟩
    -- `b` is not met again, so one place less is left below it
    obtain ⟨before, after, rfl⟩ := List.append_of_mem (hplaces a b .refl hstep)
    have hlength' : (before ++ after).length = n := by
      simp only [List.length_append, List.length_cons] at hlength ⊢
      omega
    have hplaces' : ∀ c d, Relation.ReflTransGen lead b c → lead c d → d ∈ before ++ after := by
      intro c d hreach hstep'
      have hmem := hplaces c d (.head hstep hreach) hstep'
      have hne : d ≠ b := by
        rintro rfl
        exact hcycle (Relation.TransGen.tail' hreach hstep')
      simpa [hne] using hmem
    obtain ⟨c, hreach, hend⟩ := ih (before ++ after) hplaces' (hbelow.of_le (by omega)) hlength'
    exact ⟨c, .head hstep hreach, hend⟩

end Descending

theorem bind_eq_error {α β : Type} {x : Except Fault α} {f : α → Except Fault β} {e : Fault}
    (h : (x >>= f) = .error e) (hx : x ≠ .error e) : ∃ a, x = .ok a ∧ f a = .error e := by
  cases x with
  | error e' =>
    cases h
    exact absurd rfl hx
  | ok a => exact ⟨a, rfl, h⟩

/-! ## Faults of single questions -/

namespace Value

theorem has_ne_tooDeep (v : Value) (name : String) : v.has name ≠ .error .tooDeep := by
  unfold has holds
  split <;> nofun

theorem field_ne_tooDeep (v : Value) (name : String) : v.field name ≠ .error .tooDeep := by
  intro h
  obtain ⟨w, _, h⟩ := bind_eq_error h (by
    unfold part
    repeat' split
    all_goals nofun)
  cases h

end Value

namespace Reference

theorem textOf_ne_tooDeep (v : Value) : textOf v ≠ .error .tooDeep := by
  unfold textOf
  split <;> nofun

theorem definition?_ne_tooDeep (root : Value) (name : String) : definition? root name ≠ .error .tooDeep := by
  intro h
  obtain ⟨hasDefinitions, _, h⟩ := bind_eq_error h (root.has_ne_tooDeep _)
  split at h
  · cases h
  obtain ⟨definitions, _, h⟩ := bind_eq_error h (root.field_ne_tooDeep _)
  obtain ⟨hasName, _, h⟩ := bind_eq_error h (definitions.has_ne_tooDeep _)
  split at h
  · cases h
  · obtain ⟨definition, _, h⟩ := bind_eq_error h (definitions.field_ne_tooDeep _)
    cases h

/-! ## Definitions that are names for definitions -/

/-- The definition that a reference names is only another name for what `next` refers to. -/
def Renames (root : Value) (ref next : String) : Prop :=
  isDefinition ref = true ∧ definitionRef root (lastName ref) = .ok (.str next) ∧
    isInner next = true

/-- The definitions that a reference leads over have no end. -/
def EndlessChain (root : Value) : String → Prop :=
  Endless (Renames root) fun _ => False

theorem definitionRef_eq_ok {ref : Value} (h : definitionRef root name = .ok ref) :
    ∃ es definition, root.field "definitions" = .ok (.map es) ∧
      Entries.find? es (.str name) = some definition ∧ definition.field "$ref" = .ok ref := by
  obtain ⟨definitions, hdefs, hrest⟩ := bind_ok h
  obtain ⟨definition, hdef, href⟩ := bind_ok hrest
  obtain ⟨es, rfl, hfound⟩ := Value.field_eq_ok hdef
  exact ⟨es, definition, hdefs, hfound, href⟩

theorem definition?_of_find? {definition : Value} {es : Entries} (hdefs : root.field "definitions" = .ok (.map es))
    (hfound : Entries.find? es (.str name) = some definition) : definition? root name = .ok (some definition) := by
  have hfield : (Value.map es).field name = .ok definition := by
    unfold Value.field Value.part
    dsimp only
    split
    · next w hw =>
      cases hfound.symm.trans hw
      rfl
    · next hnone => cases hfound.symm.trans hnone
  unfold definition?
  simp only [Value.has_of_field hdefs, hdefs, Value.has_of_field hfield, hfield,
    ok_bind, Bool.not_true, Bool.false_eq_true, if_false]
  rfl

theorem destination_of_renames (h : Renames root ref next)
    (fuel : Nat) : destination root (fuel + 1) ref = destination root fuel next := by
  obtain ⟨hisDefinition, href, hinner⟩ := h
  obtain ⟨es, definition, hdefs, hfound, href⟩ := definitionRef_eq_ok href
  rw [destination]
  simp only [hisDefinition, if_true, definition?_of_find? hdefs hfound,
    Value.has_of_field href, href, ok_bind, Bool.not_true, Bool.false_eq_true, if_false]
  show (if isInner next then _ else _) = _
  rw [if_pos hinner]

/-- Only a definition that is another name costs fuel. -/
theorem renames_of_tooDeep (h : destination root (fuel + 1) ref = .error .tooDeep) :
    ∃ next, Renames root ref next ∧ destination root fuel next = .error .tooDeep := by
  unfold destination at h
  split at h
  · next hisDefinition =>
    obtain ⟨found, hfound, h⟩ := bind_eq_error h (definition?_ne_tooDeep _ _)
    cases found with
    | none => cases h
    | some definition =>
      obtain ⟨isRef, _, h⟩ := bind_eq_error h (definition.has_ne_tooDeep _)
      split at h
      · cases h
      obtain ⟨target, htarget, h⟩ := bind_eq_error h (definition.field_ne_tooDeep _)
      obtain ⟨next, hnext, h⟩ := bind_eq_error h (textOf_ne_tooDeep _)
      split at h
      · next hinner =>
        refine ⟨next, ⟨hisDefinition, ?_, hinner⟩, h⟩
        rw [definitionRef, ← bind_assoc, definition?_eq_some hfound, ok_bind, htarget, textOf_eq_ok hnext]
      · cases h
  · split at h <;> cases h

theorem destination_eq_tooDeep_iff : destination root fuel ref = .error .tooDeep ↔
      Descends (Renames root) (fun _ => False) fuel ref := by
  induction fuel generalizing ref with
  | zero => exact ⟨fun _ => trivial, fun _ => rfl⟩
  | succ fuel ih =>
    constructor
    · intro h
      obtain ⟨next, hrenames, h⟩ := renames_of_tooDeep h
      exact .inr ⟨next, hrenames, ih.mp h⟩
    rintro (hstuck | ⟨next, hrenames, h⟩)
    · exact hstuck.elim
    · rw [destination_of_renames hrenames]
      exact ih.mpr h

/-- The references that stand on definitions in the place of a schema. -/
def definitionRefs (root : Value) : List String :=
  match root.entriesAt "definitions" with
  | .ok definitions =>
    definitions.filterMap fun d => (do textOf (← d.2.field "$ref")).toOption
  | .error _ => []

theorem length_definitionRefs_le (root : Value) : (definitionRefs root).length ≤ definitionCount root := by
  unfold definitionRefs definitionCount
  cases root.entriesAt "definitions" with
  | error e => exact Nat.le_refl 0
  | ok definitions => exact List.length_filterMap_le _ _

theorem Renames.mem_definitionRefs (h : Renames root ref next) : next ∈ definitionRefs root := by
  obtain ⟨es, definition, hdefs, hfound, href⟩ := definitionRef_eq_ok h.2.1
  obtain ⟨key, _, hmem⟩ := Value.mem_of_find? hfound
  unfold definitionRefs
  rw [Value.entriesAt_of_field hdefs]
  refine List.mem_filterMap.mpr ⟨(key, definition), hmem, ?_⟩
  simp only [href, ok_bind]
  rfl

theorem leadsTo_eq_tooDeep_iff {scope : RefScope} {ref : Value} : scope.leadsTo ref = .error .tooDeep ↔
      ∃ text, ref = .str text ∧ EndlessChain scope.root text := by
  constructor
  · intro h
    obtain ⟨text, htext, h⟩ := bind_eq_error h (textOf_ne_tooDeep ref)
    refine ⟨text, textOf_eq_ok htext, ?_⟩
    have hdescends := (destination_eq_tooDeep_iff.mp h).of_le (Nat.succ_le_succ (length_definitionRefs_le scope.root))
    exact endless_of_descends _ (fun _ _ _ hrenames => hrenames.mem_definitionRefs) hdescends
  · rintro ⟨text, rfl, hendless⟩
    exact destination_eq_tooDeep_iff.mpr (hendless.descends _)

end Reference

end Typewright
