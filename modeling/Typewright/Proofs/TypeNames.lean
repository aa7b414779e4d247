import Typewright.Proofs.ResolvingAgain

/-!
# The names that the tables give to types

The table of types has a name for each file that was noted or read: the name that was assumed from the reference, or
the one that the document gives.
-/

namespace Typewright.Reference

open RefM

variable {scope : RefScope} {s s' : RefState} {key name : String}

/-- The name stands under the key for the type of a file: the key is the path of the file or a reference
to it, and the name is the assumed one or the one of the document. -/
def Stands (scope : RefScope) (t : Tables) (key name : String) : Prop :=
  ∃ ref, (ref, scope.path ref) ∈ t.refs ∧ (key = scope.path ref ∨ key = ref) ∧
    (name = assumedName ref ∨
      ∃ v, t.loaded.get? (scope.path ref) = some v ∧ typeName ref v = .ok name)

def TypesStand (scope : RefScope) (t : Tables) : Prop :=
  ∀ key name, t.types.get? key = some name → Stands scope t key name

theorem typesStand_empty (scope : RefScope) : TypesStand scope {} := nofun

theorem Change.keeps_noted (h : Change scope s s') {r : String}
    (noted : (r, scope.path r) ∈ s.tables.refs) : (r, scope.path r) ∈ s'.tables.refs := by
  have hput : ∀ ref, (r, scope.path r) ∈ s.tables.refs.put ref (scope.path ref) :=
    fun ref => Table.mem_put_of_mem noted fun heq => by rw [heq]
  cases h with
  | @reference ref outer => exact hput ref
  | assumedName _ _ => exact noted
  | resolving h =>
    cases h with
    | report lines => exact noted
    | @document ref v outer fresh read => exact hput ref
    | typeNames _ _ _ => exact noted
    | definition names => exact noted

theorem Change.keeps_stands (h : Change scope s s')
    (hs : Stands scope s.tables key name) : Stands scope s'.tables key name := by
  obtain ⟨ref, noted, hkey, hname⟩ := hs
  refine ⟨ref, h.keeps_noted noted, hkey, hname.imp id ?_⟩
  rintro ⟨v, found, named⟩
  exact ⟨v, h.keeps_loaded found, named⟩

theorem Stands.keep (hs : Stands scope s.tables key name) (h : Changes scope s s') : Stands scope s'.tables key name :=
  keep_of_steps (P := fun t => Stands scope t.tables key name) (fun _ _ hc => hc.keeps_stands) h hs

theorem Change.typesStand (h : Change scope s s') (hs : TypesStand scope s.tables) : TypesStand scope s'.tables := by
  intro key name hkey
  have hold : s.tables.types.get? key = some name → Stands scope s'.tables key name :=
    fun hkey => h.keeps_stands (hs key name hkey)
  cases h with
  | reference outer => exact hold hkey
  | @assumedName ref noted unknown =>
    rw [Table.get?_put] at hkey
    split at hkey
    · next heq =>
      obtain rfl := Option.some.inj hkey
      exact ⟨ref, noted, .inl heq.symm, .inl rfl⟩
    · exact hold hkey
  | resolving h =>
    cases h with
    | report lines => exact hold hkey
    | document outer fresh read => exact hold hkey
    | definition names => exact hold hkey
    | @typeNames ref name' v noted found named =>
      rw [Table.get?_put, Table.get?_put] at hkey
      split at hkey
      · next heq =>
        obtain rfl := Option.some.inj hkey
        exact ⟨ref, noted, .inr heq.symm, .inr ⟨v, found, named⟩⟩
      split at hkey
      · next heq =>
        obtain rfl := Option.some.inj hkey
        exact ⟨ref, noted, .inl heq.symm, .inr ⟨v, found, named⟩⟩
      · exact hold hkey

theorem typesStand_of_changes (h : Changes scope s s') (hs : TypesStand scope s.tables) : TypesStand scope s'.tables :=
  keep_of_steps (P := fun t => TypesStand scope t.tables) (fun _ _ hc => hc.typesStand) h hs

end Typewright.Reference
