import Typewright.Proofs.TwoRuns

/-!
# TypeScript files from linked tables

The references of a schema are gone over before anything else, and all of them are resolved.
-/

namespace Typewright

open RefM Reference
open Generate (mainRequest)

namespace TypeScript

variable {scope : RefScope} {extra : List String} {s s' : RefState}

/-! ## References that are used -/

/-- The references that the imports of a file are for. All of them are resolved on the way. -/
def importedRefs (scope : RefScope) : RefM (List String) := do
  let used ← usedRefs (some scope) scope.root
  addPropertyRefs scope used (← scope.root.entriesAt "properties")

instance {look : Look} : Work look (some scope) KindFault (importedRefs scope) := by
  unfold importedRefs
  infer_instance

theorem same_importedRefs (scope : RefScope) (extra : List String) : Same scope extra (importedRefs scope) :=
  .of_definitions (P := KindFault) inferInstance

/-! ## Files -/

theorem perm_importsOf (linked : Linked scope [] s s') (file : String) (used : Option (List String)) :
    (importsOf scope s.tables file used).Perm (importsOf scope s'.tables file used) := by
  unfold importsOf importOf
  simp only [linked.types]
  exact linked.perm_refs.filterMap _

/-- Files that differ in the order of their imports at most. -/
structure Reordered (f f' : SourceFile) : Prop where
  stamp : f.stamp = f'.stamp
  imports : f.imports.Perm f'.imports
  exported : f.exported = f'.exported

def exportedTypes (scope : RefScope) : RefM (List Declared) := do
  let (nested, _) ← (nestedDeclarations (some scope) scope.root).run []
  return nested ++ [← declared (.ofResolver (some scope)) scope.root]

theorem same_exportedTypes (scope : RefScope) : Same scope [] (exportedTypes scope) := by
  refine .of_names (P := KindFault) ?_
  unfold exportedTypes
  infer_instance

/-- What is made of the references that were found. -/
def fileWith (scope : RefScope) (stamp : String) (used : List String) : RefM SourceFile := do
  let imports := importsOf scope (← RefM.tables) scope.base (some used)
  return ⟨stamp, imports, ← exportedTypes scope⟩

theorem fileOf_eq (scope : RefScope) (stamp : String) :
    fileOf (mainRequest scope stamp) = importedRefs scope >>= fileWith scope stamp := by
  unfold fileOf imports importedRefs fileWith exportedTypes
  simp only [mainRequest, Request.scope, bind_assoc, pure_bind]

instance (stamp : String) (used : List String) : Follows (some scope) KindFault (fileWith scope stamp used) := by
  unfold fileWith exportedTypes
  infer_instance

theorem paired_fileWith {Q : SourceFile → SourceFile → Prop} {stamp : String} {used : List String}
    (linked : Linked scope [] s s')
    (hQ : ∀ exported, Q ⟨stamp, importsOf scope s.tables scope.base (some used), exported⟩
      ⟨stamp, importsOf scope s'.tables scope.base (some used), exported⟩) :
    Outcome.Paired Q (exec (fileWith scope stamp used) s).1 (exec (fileWith scope stamp used) s').1 := by
  have hlike : Like scope [] Q (exportedTypes scope >>= fun exported =>
        pure ⟨stamp, importsOf scope s.tables scope.base (some used), exported⟩)
      (exportedTypes scope >>= fun exported =>
        pure ⟨stamp, importsOf scope s'.tables scope.base (some used), exported⟩) := by
    refine .of_bind (same_exportedTypes scope).like ?_
    rintro exported _ rfl
    exact .pure (hQ exported)
  exact (hlike s s' linked).1

theorem paired_fileOf_of_fileWith {Q : SourceFile → SourceFile → Prop} (linked : Linked scope extra s s')
    (stamp : String) (within : ∀ x ∈ extra, x ∈ known (exec (importedRefs scope) s).2)
    (h : ∀ used, Linked scope [] (exec (importedRefs scope) s).2 (exec (importedRefs scope) s').2 →
      Outcome.Paired Q (exec (fileWith scope stamp used) (exec (importedRefs scope) s).2).1
        (exec (fileWith scope stamp used) (exec (importedRefs scope) s').2).1) :
    Outcome.Paired Q (exec (fileOf (mainRequest scope stamp)) s).1 (exec (fileOf (mainRequest scope stamp)) s').1 := by
  obtain ⟨hused, hlinked⟩ := (same_importedRefs scope extra).like s s' linked
  rw [fileOf_eq, exec_bind, exec_bind]
  generalize exec (importedRefs scope) s = out at within hused hlinked h ⊢
  generalize exec (importedRefs scope) s' = out' at hused hlinked h ⊢
  obtain ⟨r, t⟩ := out
  obtain ⟨r', t'⟩ := out'
  cases hused with
  | error e => exact .error e
  | ok heq =>
    subst heq
    exact h _ (hlinked.caught_up within)

theorem paired_fileOf (linked : Linked scope extra s s') (stamp : String)
    (within : ∀ x ∈ extra, x ∈ known (exec (importedRefs scope) s).2) :
    Outcome.Paired Reordered (exec (fileOf (mainRequest scope stamp)) s).1
      (exec (fileOf (mainRequest scope stamp)) s').1 :=
  paired_fileOf_of_fileWith linked stamp within fun _ hlinked =>
    paired_fileWith hlinked fun _ => ⟨rfl, perm_importsOf hlinked _ _, rfl⟩

theorem exec_fileOf_eq (linked : Linked scope extra s s') (stamp : String)
    (within : ∀ x ∈ extra, x ∈ known (exec (importedRefs scope) s).2)
    (order : known (exec (importedRefs scope) s).2 <+: known s') : (exec (fileOf (mainRequest scope stamp)) s).1 =
      (exec (fileOf (mainRequest scope stamp)) s').1 := by
  refine (paired_fileOf_of_fileWith linked stamp within fun used hlinked => ?_).eq
  have hfollows : Follows (some scope) KindFault (importedRefs scope) := inferInstance
  have hstart := order.trans (known_grows_of_follows hfollows s')
  have hknown := hstart.eq_of_length hlinked.perm.length_eq
  have himports : importsOf scope (exec (importedRefs scope) s).2.tables scope.base (some used) =
      importsOf scope (exec (importedRefs scope) s').2.tables scope.base (some used) := by
    unfold importsOf importOf
    rw [hlinked.good.clean.refs, hlinked.good'.clean.refs, hknown]
    simp only [hlinked.types]
  exact paired_fileWith hlinked fun _ => by rw [himports]

end TypeScript

end Typewright
