import Typewright.Proofs.KeptFiles

/-!
# What writing files does to a tree

Several texts are written to files, one after the other.
-/

namespace Typewright

open WorldM

variable {sources : Table String} {b done : Bool}

namespace FileTree

variable {t t' : FileTree} {path : String}

theorem find?_put_self {names : List String} (hne : names ≠ []) (e : Entry) : (t.put names e).find? names = some e := by
  have hcons : names.isEmpty = false := by simpa using hne
  unfold put find?
  rw [hcons, if_neg Bool.false_ne_true]
  split
  · next hany =>
    obtain ⟨x, hx, hsame⟩ := List.any_eq_true.mp hany
    have hmem : (names, e) ∈ t.entries.map fun x => if x.1 == names then (x.1, e) else x := by
      refine List.mem_map.mpr ⟨x, hx, ?_⟩
      rw [if_pos hsame, eq_of_beq hsame]
    -- every entry under the names is the new one
    cases hfound : (t.entries.map fun x => if x.1 == names then (x.1, e) else x).find? (·.1 == names) with
    | none => exact absurd (List.find?_eq_none.mp hfound _ hmem) (by simp)
    | some y =>
      obtain ⟨z, _, hz⟩ := List.mem_map.mp (List.mem_of_find?_eq_some hfound)
      have hy : (y.1 == names) = true := by simpa using List.find?_some hfound
      split at hz
      · rw [← hz]
        rfl
      · next hother => exact absurd (hz ▸ hy) hother
  · next hany =>
    have hnone : t.entries.find? (·.1 == names) = none := by
      rw [List.find?_eq_none]
      exact fun x hx hsame => hany (List.any_eq_true.mpr ⟨x, hx, hsame⟩)
    simp [List.find?_append, hnone]

theorem namesOf_of_cwd (h : t'.cwd = t.cwd) (path : String) : t'.namesOf path = t.namesOf path := by
  unfold namesOf
  rw [h]

end FileTree

namespace Output

variable {mode : WriteMode} {mayCreate keepExisting : Bool} {t t' : FileTree} {path : String}

/-- What the flags promise of a tree after texts were written to these paths. -/
structure Effects (mode : WriteMode) (mayCreate keepExisting : Bool) (paths : List String) (t t' : FileTree) :
    Prop where
  rooted : t'.Rooted
  cwd : t'.cwd = t.cwd
  unnamed : ∀ names e, (∀ path ∈ paths, t.namesOf path ≠ names) → t.find? names = some e →
    t'.find? names = some e
  /-- What was there is as it was, if nothing may be overwritten or added to. -/
  kept : mode ≠ .append → keepExisting = true → ∀ names e, t.find? names = some e → t'.find? names = some e
  /-- Nothing is there that was not there, if nothing may be made. -/
  nothingNew : mayCreate = false → ∀ names e, t'.find? names = some e → ∃ e', t.find? names = some e'
  /-- Files are only added to, if they are to be. -/
  addedTo : mode = .append → ∀ names old, t.find? names = some (.file old) →
    ∃ new, t'.find? names = some (.file new) ∧ old <+: new

namespace Effects

variable {paths : List String}

theorem refl (rooted : t.Rooted) : Effects mode mayCreate keepExisting paths t t where
  rooted := rooted
  cwd := rfl
  unnamed _ _ _ there := there
  kept _ _ _ _ there := there
  nothingNew _ _ e there := ⟨e, there⟩
  addedTo _ _ old there := ⟨old, there, List.prefix_rfl⟩

theorem trans {t'' : FileTree} (h : Effects mode mayCreate keepExisting paths t t')
    (h' : Effects mode mayCreate keepExisting paths t' t'') : Effects mode mayCreate keepExisting paths t t'' where
  rooted := h'.rooted
  cwd := h'.cwd.trans h.cwd
  unnamed names e hother there := by
    refine h'.unnamed names e (fun path hpath => ?_) (h.unnamed names e hother there)
    rw [FileTree.namesOf_of_cwd h.cwd]
    exact hother path hpath
  kept hmode hkeep names e there := h'.kept hmode hkeep names e (h.kept hmode hkeep names e there)
  nothingNew hno names e there := by
    obtain ⟨e', there'⟩ := h'.nothingNew hno names e there
    exact h.nothingNew hno names e' there'
  addedTo hmode names old there := by
    obtain ⟨new, there', hnew⟩ := h.addedTo hmode names old there
    obtain ⟨newer, there'', hnewer⟩ := h'.addedTo hmode names new there'
    exact ⟨newer, there'', hnew.trans hnewer⟩

end Effects

section Cons

variable {source : String × String} {rest : Table String} {w : World}

def skip (source : String × String) (w : World) : World :=
  { w with out := w.out ++ ["Warning: Skipping empty file " ++ source.1] }

end Cons

end Output

end Typewright
