import Typewright.Proofs.WholeDocuments

/-!
# Two runs with different documents loaded

The same work is done from two states, of which the second may know more documents.
-/

namespace Typewright

open RefM Reference

variable {α β γ δ : Type} {c : Prop} {P : Fault → Prop} {owner : Value}

/-! ## Linked states -/

/-- Two states with whole documents. The second knows all that the first knows, and beyond that at most the
extra references. -/
structure Linked (scope : RefScope) (extra : List String) (s s' : RefState) : Prop where
  whole : Whole scope
  good : Good scope s
  good' : Good scope s'
  kept : ∀ x ∈ known s, x ∈ known s'
  only : ∀ x ∈ known s', x ∈ known s ∨ x ∈ extra

namespace Linked

variable {scope : RefScope} {extra : List String} {s s' s'' : RefState}

theorem report (h : Linked scope extra s s') (lines lines' : List String) :
    Linked scope extra { s with log := s.log ++ lines } { s' with log := s'.log ++ lines' } :=
  ⟨h.whole, h.good.report lines, h.good'.report lines', h.kept, h.only⟩

theorem caught_up (h : Linked scope extra s s') (hextra : ∀ x ∈ extra, x ∈ known s) : Linked scope [] s s' :=
  ⟨h.whole, h.good, h.good', h.kept, fun x hx => .inl ((h.only x hx).elim id (hextra x))⟩

theorem mem_iff (h : Linked scope [] s s') (x : String) : x ∈ known s ↔ x ∈ known s' :=
  ⟨h.kept x, fun hx => (h.only x hx).resolve_right List.not_mem_nil⟩

theorem symm (h : Linked scope [] s s') : Linked scope [] s' s :=
  ⟨h.whole, h.good', h.good, fun x => (h.mem_iff x).mpr, fun x hx => .inl (h.kept x hx)⟩

theorem trans (h : Linked scope [] s s') (h' : Linked scope [] s' s'') : Linked scope [] s s'' :=
  ⟨h.whole, h.good, h'.good', fun x hx => h'.kept x (h.kept x hx),
    fun x hx => .inl ((h.mem_iff x).mpr ((h'.mem_iff x).mpr hx))⟩

theorem definitions (h : Linked scope extra s s') : s.tables.definitions = s'.tables.definitions :=
  h.good.clean.definitions.trans h.good'.clean.definitions.symm

theorem types (h : Linked scope [] s s') (key : String) : s.tables.types.get? key = s'.tables.types.get? key := by
  refine Option.ext fun name => ?_
  rw [h.good.clean.types, h.good'.clean.types]
  unfold IsTypeUnder
  simp only [h.mem_iff]

theorem perm (h : Linked scope [] s s') : (known s).Perm (known s') :=
  (List.perm_ext_iff_of_nodup h.good.clean.nodup h.good'.clean.nodup).mpr h.mem_iff

theorem perm_refs (h : Linked scope [] s s') : s.tables.refs.Perm s'.tables.refs := by
  rw [h.good.clean.refs, h.good'.clean.refs]
  exact h.perm.map _

theorem perm_loaded (h : Linked scope [] s s') : s.tables.loaded.Perm s'.tables.loaded := by
  rw [h.good.clean.loaded, h.good'.clean.loaded]
  exact h.perm.map _

end Linked

/-! ## Work that agrees -/

/-- Both return, with results that stand in this relation, or both fail with the same fault. -/
inductive Outcome.Paired (Q : α → β → Prop) : Except Fault α → Except Fault β → Prop
  | ok {a : α} {b : β} (h : Q a b) : Outcome.Paired Q (.ok a) (.ok b)
  | error (e : Fault) : Outcome.Paired Q (.error e) (.error e)

theorem Outcome.Paired.of_eq {r r' : Except Fault α} (h : r = r') : Outcome.Paired Eq r r' := by
  subst h
  cases r with
  | ok a => exact .ok rfl
  | error e => exact .error e

theorem Outcome.Paired.eq {r r' : Except Fault α} (h : Outcome.Paired Eq r r') : r = r' := by
  cases h with
  | ok h => rw [h]
  | error e => rfl

/-- From linked states, two pieces of work agree and leave linked states. -/
def Like (scope : RefScope) (extra : List String) (Q : α → β → Prop) (x : RefM α) (y : RefM β) : Prop :=
  ∀ s s', Linked scope extra s s' →
    Outcome.Paired Q (exec x s).1 (exec y s').1 ∧ Linked scope extra (exec x s).2 (exec y s').2

namespace Like

variable {scope : RefScope} {extra : List String} {Q : α → β → Prop} {R : γ → δ → Prop}

theorem pure {a : α} {b : β} (h : Q a b) : Like scope extra Q (Pure.pure a) (Pure.pure b) :=
  fun _ _ linked => ⟨.ok h, linked⟩

theorem throw (e : Fault) : Like scope extra Q (MonadExcept.throw e : RefM α) (MonadExcept.throw e : RefM β) :=
  fun _ _ linked => ⟨.error e, linked⟩

theorem of_bind {x : RefM α} {y : RefM β} {f : α → RefM γ} {g : β → RefM δ} (hx : Like scope extra Q x y)
    (hf : ∀ a b, Q a b → Like scope extra R (f a) (g b)) : Like scope extra R (x >>= f) (y >>= g) := by
  intro s s' linked
  obtain ⟨hresult, hlinked⟩ := hx s s' linked
  rw [exec_bind, exec_bind]
  generalize exec x s = out at hresult hlinked ⊢
  generalize exec y s' = out' at hresult hlinked ⊢
  obtain ⟨r, t⟩ := out
  obtain ⟨r', t'⟩ := out'
  cases hresult with
  | ok h => exact hf _ _ h t t' hlinked
  | error e => exact ⟨.error e, hlinked⟩

theorem of_ask {r : Except Fault α} {f : α → RefM γ} {g : α → RefM δ}
    (h : ∀ a, r = .ok a → Like scope extra R (f a) (g a)) : Like scope extra R (liftM r >>= f) (liftM r >>= g) := by
  cases r with
  | error e => exact throw e
  | ok a => exact h a rfl

theorem of_ite [Decidable c] {x x' : RefM α} {y y' : RefM β} (hx : c → Like scope extra Q x y)
    (hy : ¬ c → Like scope extra Q x' y') : Like scope extra Q (if c then x else x') (if c then y else y') := by
  split
  · exact hx ‹_›
  · exact hy ‹_›

theorem of_tables {f : Tables → RefM γ} {g : Tables → RefM δ}
    (h : ∀ s s', Linked scope extra s s' → Like scope extra R (f s.tables) (g s'.tables)) :
    Like scope extra R (RefM.tables >>= f) (RefM.tables >>= g) :=
  fun s s' linked => h s s' linked s s' linked

end Like

/-- Work that comes to the same from linked states and leaves linked states. -/
class Same (scope : RefScope) (extra : List String) (work : RefM α) : Prop where
  like : Like scope extra Eq work work

namespace Same

variable {scope : RefScope} {extra : List String}

instance pure (a : α) : Same scope extra (Pure.pure a : RefM α) := ⟨.pure rfl⟩

instance lift (r : Except Fault α) : Same scope extra (liftM r : RefM α) :=
  ⟨fun _ _ linked => ⟨.of_eq rfl, linked⟩⟩

theorem report (lines : List String) : Same scope extra (RefM.report lines) :=
  ⟨fun _ _ linked => ⟨.ok rfl, linked.report lines lines⟩⟩

theorem of_bind {x : RefM α} {f : α → RefM β} (hx : Same scope extra x) (hf : ∀ a, Same scope extra (f a)) :
    Same scope extra (x >>= f) :=
  ⟨.of_bind hx.like fun a _ h => h ▸ (hf a).like⟩

theorem of_ite [Decidable c] {x y : RefM α} (hx : Same scope extra x) (hy : Same scope extra y) :
    Same scope extra (if c then x else y) := by
  split
  · exact hx
  · exact hy

theorem of_tryCatch {x : RefM α} {handler : Fault → RefM α} (hx : Same scope extra x)
    (hh : ∀ e, Same scope extra (handler e)) : Same scope extra (tryCatch x handler) where
  like s s' linked := by
    obtain ⟨hresult, hlinked⟩ := hx.like s s' linked
    rw [exec_tryCatch, exec_tryCatch]
    generalize exec x s = out at hresult hlinked ⊢
    generalize exec x s' = out' at hresult hlinked ⊢
    obtain ⟨r, t⟩ := out
    obtain ⟨r', t'⟩ := out'
    cases hresult with
    | ok h => exact ⟨.ok h, hlinked⟩
    | error e => exact (hh e).like t t' hlinked

theorem of_attempt {x : RefM α} (hx : Same scope extra x) : Same scope extra (RefM.attempt x) where
  like s s' linked := by
    obtain ⟨hresult, hlinked⟩ := hx.like s s' linked
    exact ⟨.ok hresult.eq, hlinked⟩

theorem of_tables {f : Tables → RefM α} (hread : ∀ s s', Linked scope extra s s' → f s.tables = f s'.tables)
    (h : ∀ t, Same scope extra (f t)) : Same scope extra (RefM.tables >>= f) where
  like := .of_tables fun s s' linked => hread s s' linked ▸ (h s.tables).like

theorem resolve (ref : Value) : Same scope extra (scope.resolve ref) where
  like s s' linked := by
    obtain ⟨t, hrun, hgood, hknown⟩ := exec_resolve_whole linked.whole linked.good ref
    obtain ⟨t', hrun', hgood', hknown'⟩ := exec_resolve_whole linked.whole linked.good' ref
    rw [hrun, hrun']
    refine ⟨.of_eq rfl, linked.whole, hgood, hgood', fun x hx => ?_, fun x hx => ?_⟩
    · exact (hknown' x).mpr (((hknown x).mp hx).imp_left (linked.kept x))
    · rcases (hknown' x).mp hx with hx | hx
      · exact (linked.only x hx).imp_left fun hx => (hknown x).mpr (.inl hx)
      · exact .inl ((hknown x).mpr (.inr hx))

theorem of_work {look : Look} {work : RefM α} (h : Work look (some scope) P work)
    (hlook : ∀ s s', Linked scope extra s s' → look.Agree s.tables s'.tables) : Same scope extra work := by
  induction h with
  | of_ask => exact .lift _
  | report lines => exact .report lines
  | of_tables hread _ ih => exact .of_tables (fun s s' linked => hread _ _ (hlook s s' linked)) ih
  | of_bind _ _ hx hf => exact .of_bind hx hf
  | of_tryCatch _ _ hx hh => exact .of_tryCatch hx hh
  | of_attempt _ hx => exact .of_attempt hx
  | of_resolve h ref =>
    cases h
    exact .resolve ref

theorem of_definitions {work : RefM α} (h : Work .definitions (some scope) P work) : Same scope extra work :=
  of_work h fun _ _ linked => linked.definitions

theorem of_names {work : RefM α} (h : Work .names (some scope) P work) : Same scope [] work :=
  of_work h fun _ _ linked => ⟨linked.definitions, linked.types⟩

instance resolve? (ref : Value) : Same scope extra (scope.resolve? ref) :=
  of_definitions (P := KindFault) inferInstance

end Same

/-! ## Walks -/

namespace Reference

variable {σ τ : Type} {scope : RefScope} {extra : List String} {Q : σ → τ → Prop} {visitor : Visitor σ}
  {visitor' : Visitor τ}

abbrev LikeVisitor (scope : RefScope) (extra : List String) (Q : σ → τ → Prop) (visitor : Visitor σ)
    (visitor' : Visitor τ) : Prop :=
  RelatedVisitors (fun _ _ => ()) Q (fun _ => Like scope extra Q) (fun _ => True) visitor visitor'

theorem like_walk (h : LikeVisitor scope extra Q visitor visitor') {a : σ} {b : τ} (hab : Q a b)
    (schema : Value) : Like scope extra Q (walk visitor a schema) (walk visitor' b schema) :=
  related_walk ⟨.pure, .of_bind, .of_ask⟩ carries_all h hab schema trivial

end Reference

end Typewright
