import Mathlib.Data.List.Perm.Subperm
import Mathlib.Data.List.Nodup
import Typewright.Proofs.DefinitionChain

/-!
# The names along a chain of definitions

A reference to a definition gives a name. The definition of that name may be a reference to a definition again, and so
on.
-/

namespace Typewright.Reference

open RefM Value
open Outcome (ok_bind)

variable {root d : Value} {scope : RefScope} {name n m ref next : String} {i j k fuel : Nat}

/-! ## Names -/

/-- The definitions of a schema, if it has any, stand under names. -/
structure DefinesByName (root : Value) : Prop where
  isMap : root.isMap = true
  group : ∀ group, root.field "definitions" = .ok group → ∃ es, group = .map es

def definitionAt (root : Value) (name : String) : Option Value :=
  Entries.find? (root.entriesOf "definitions") (.str name)

/-- The name that the reference on a definition gives, if it is one to a definition. -/
def nextName? (root : Value) (name : String) : Option String := do
  let ref ← ((← definitionAt root name).field "$ref").toOption
  let next ← (textOf ref).toOption
  if isDefinition next then some (lastName next) else none

/-- The names that are met from this one on, as far as they go. -/
def nameAt (root : Value) (name : String) : Nat → Option String
  | 0 => some name
  | k + 1 => nameAt root name k >>= nextName? root

theorem nextName?_eq_some (h : nextName? root name = some m) :
    ∃ d next, definitionAt root name = some d ∧ d.field "$ref" = .ok (.str next) ∧
      isDefinition next ∧ lastName next = m := by
  simp only [nextName?, Option.bind_eq_bind, Option.bind_eq_some_iff] at h
  obtain ⟨d, hd, ref, href, next, hnext, h⟩ := h
  split at h
  · next hdef =>
    cases hfield : d.field "$ref" <;> rw [hfield] at href <;> cases href
    cases htext : textOf ref <;> rw [htext] at hnext <;> cases hnext
    cases textOf_eq_ok htext
    exact ⟨d, next, hd, hfield, hdef, Option.some.inj h⟩
  · cases h

theorem nextName?_of_ref (hd : definitionAt root name = some d) (href : d.field "$ref" = .ok (.str next)) :
    nextName? root name = if isDefinition next then some (lastName next) else none := by
  simp [nextName?, hd, href, Except.toOption, textOf]

theorem nameAt_of_le (h : nameAt root name k = some n) (le : i ≤ k) : ∃ m, nameAt root name i = some m := by
  induction k generalizing n with
  | zero => exact ⟨n, Nat.le_zero.mp le ▸ h⟩
  | succ k ih =>
    rcases Nat.lt_or_eq_of_le le with lt | rfl
    · obtain ⟨m, hm, _⟩ := Option.bind_eq_some_iff.mp h
      exact ih hm (Nat.le_of_lt_succ lt)
    · exact ⟨n, h⟩

theorem nameAt_add (h : nameAt root name i = nameAt root name j) (k : Nat) :
    nameAt root name (i + k) = nameAt root name (j + k) := by
  induction k with
  | zero => exact h
  | succ k ih => rw [← Nat.add_assoc, ← Nat.add_assoc, nameAt, nameAt, ih]

theorem exists_nameAt_of_revisit (lt : i < j) (hi : nameAt root name i = some n)
    (hj : nameAt root name j = some n) (k : Nat) : ∃ m, nameAt root name k = some m := by
  induction k using Nat.strongRecOn with
  | ind k ih =>
    rcases Nat.lt_or_ge k j with hk | hk
    · exact nameAt_of_le hj (Nat.le_of_lt hk)
    have hback := nameAt_add (hj.trans hi.symm) (k - j)
    rw [Nat.add_sub_cancel' hk] at hback
    rw [hback]
    exact ih (i + (k - j)) (by omega)

/-! ## Not too many names -/

/-- The first names, as many as this, are all different and stand for definitions. -/
def Apart (root : Value) (name : String) (k : Nat) : Prop :=
  (∀ i j, i < j → j < k → nameAt root name i ≠ nameAt root name j) ∧
    ∀ i < k, ∃ n d, nameAt root name i = some n ∧ definitionAt root n = some d

theorem Apart.le_definitionCount (h : Apart root name k) : k ≤ definitionCount root := by
  have hcount : definitionCount root = (root.entriesOf "definitions").length := by
    unfold definitionCount Value.entriesOf
    cases root.entriesAt "definitions" <;> rfl
  -- the names, as keys, are among the keys of the definitions
  let keys := (List.range k).map fun i => (nameAt root name i).map Scalar.str
  have hnodup : keys.Nodup := by
    refine List.Nodup.map_on (fun i hi j hj heq => ?_) List.nodup_range
    rw [List.mem_range] at hi hj
    have hsame : nameAt root name i = nameAt root name j := Option.map_injective (fun _ _ => Scalar.str.inj) heq
    rcases Nat.lt_trichotomy i j with lt | rfl | lt
    · exact absurd hsame (h.1 i j lt hj)
    · rfl
    · exact absurd hsame.symm (h.1 j i lt hi)
  have hsubset : keys ⊆ (root.entriesOf "definitions").map fun e => some e.1 := by
    intro key hkey
    obtain ⟨i, hi, rfl⟩ := List.mem_map.mp hkey
    obtain ⟨n, d, hn, hd⟩ := h.2 i (List.mem_range.mp hi)
    obtain ⟨k, hk, hmem⟩ := mem_of_find? hd
    rw [hn]
    exact List.mem_map.mpr ⟨_, hmem, congrArg some (Scalar.same_str_iff.mp hk)⟩
  have hlength := (List.subperm_of_subset hnodup hsubset).length_le
  simpa [keys, hcount] using hlength

theorem apart_of_last (hk : nameAt root name k = some n) (last : nextName? root n = none) :
    Apart root name k ∧ ((∃ d, definitionAt root n = some d) → Apart root name (k + 1)) := by
  have hend : nameAt root name (k + 1) = none := by
    rw [nameAt, hk]
    exact last
  have hne : ∀ i j, i < j → j < k + 1 → nameAt root name i ≠ nameAt root name j := by
    intro i j lt hj heq
    obtain ⟨m, hm⟩ := nameAt_of_le hk (Nat.le_of_lt_succ hj)
    obtain ⟨m', hm'⟩ := exists_nameAt_of_revisit lt (heq.trans hm) hm (k + 1)
    cases hend.symm.trans hm'
  have hdefined : ∀ i < k, ∃ n d, nameAt root name i = some n ∧ definitionAt root n = some d := by
    intro i hi
    obtain ⟨m, hm⟩ := nameAt_of_le hk hi
    obtain ⟨n, hn, hnext⟩ := Option.bind_eq_some_iff.mp hm
    obtain ⟨d, _, hd, _⟩ := nextName?_eq_some hnext
    exact ⟨n, d, hn, hd⟩
  refine ⟨⟨fun i j lt hj => hne i j lt (Nat.lt_succ_of_lt hj), hdefined⟩, fun ⟨d, hd⟩ => ⟨hne, fun i hi => ?_⟩⟩
  rcases Nat.lt_or_eq_of_le (Nat.le_of_lt_succ hi) with lt | rfl
  · exact hdefined i lt
  · exact ⟨n, d, hk, hd⟩

theorem exists_revisit (h : ∀ k, ∃ m, nameAt root name k = some m) :
    ∃ i j n, i < j ∧ nameAt root name i = some n ∧ nameAt root name j = some n := by
  by_contra hno
  have hapart : Apart root name (definitionCount root + 1) := by
    refine ⟨fun i j lt _ heq => ?_, fun i _ => ?_⟩
    · obtain ⟨n, hn⟩ := h i
      exact hno ⟨i, j, n, lt, hn, heq.symm.trans hn⟩
    obtain ⟨m, hm⟩ := h (i + 1)
    obtain ⟨n, hn, hnext⟩ := Option.bind_eq_some_iff.mp hm
    obtain ⟨d, _, hd, _⟩ := nextName?_eq_some hnext
    exact ⟨n, d, hn, hd⟩
  exact Nat.not_succ_le_self _ hapart.le_definitionCount

/-! ## Resolving along the names -/

theorem definition?_eq (shaped : DefinesByName root) : definition? root name = .ok (definitionAt root name) := by
  unfold definition? definitionAt
  rw [has_eq_isMapWith _ shaped.isMap]
  cases hgroup : root.isMapWith "definitions" with
  | false =>
    rw [entriesOf_of_has ((has_eq_isMapWith _ shaped.isMap).trans (congrArg _ hgroup))]
    rfl
  | true =>
    obtain ⟨group, hfield⟩ :=
      field_of_has shaped.isMap ((has_eq_isMapWith _ shaped.isMap).trans (congrArg _ hgroup))
    obtain ⟨es, rfl⟩ := shaped.group _ hfield
    rw [hfield, entriesOf_eq (entriesAt_of_field hfield)]
    simp only [ok_bind, has_eq_isMapWith (v := .map es) _ rfl, isMapWith_map, field_map]
    cases Entries.find? es (.str name) <;> rfl

theorem definitionRef_eq (hd : definitionAt root name = some d) : definitionRef root name = d.field "$ref" := by
  obtain ⟨key, _, hmem⟩ := mem_of_find? hd
  obtain ⟨group, hgroup, hes⟩ := field_of_entriesAt (entriesAt_of_mem_entriesOf hmem) hmem
  cases group with
  | map es =>
    cases hes
    have hfield : (Value.map (root.entriesOf "definitions")).field name = .ok d := by
      rw [field_map, show Entries.find? _ _ = some d from hd]
    unfold definitionRef
    rw [hgroup, ok_bind, hfield, ok_bind]
  | _ => cases hes

theorem destination_of_nameAt (isRef : isDefinition ref) (h : nameAt root (lastName ref) k = some n) :
    ∃ last, isDefinition last ∧ lastName last = n ∧
      ∀ fuel, destination root (fuel + k) ref = destination root fuel last := by
  induction k generalizing n with
  | zero => exact ⟨ref, isRef, Option.some.inj h, fun _ => rfl⟩
  | succ k ih =>
    obtain ⟨m, hm, hnext⟩ := Option.bind_eq_some_iff.mp h
    obtain ⟨d, next, hd, href, hdef, hlast⟩ := nextName?_eq_some hnext
    obtain ⟨last, hisRef, rfl, heq⟩ := ih hm
    have hrenames : Renames root last next := ⟨hisRef, (definitionRef_eq hd).trans href, isInner_of_isDefinition hdef⟩
    refine ⟨next, hdef, hlast, fun fuel => ?_⟩
    rw [← Nat.add_assoc, Nat.add_right_comm, heq, destination_of_renames hrenames]

theorem destination_eq (shaped : DefinesByName root) (isRef : isDefinition ref) : destination root (fuel + 1) ref =
      match definitionAt root (lastName ref) with
      | none => .error (.content ("Internal reference '" ++ ref ++ "' could not be resolved"))
      | some d => do
        if !(← d.has "$ref") then return .definition d
        let next ← textOf (← d.field "$ref")
        if isInner next then destination root fuel next else return .file (some (lastName ref)) next := by
  rw [destination, if_pos isRef, definition?_eq shaped, ok_bind]
  cases definitionAt root (lastName ref) <;> rfl

theorem destination_of_ref (shaped : DefinesByName root) (isRef : isDefinition ref)
    (hd : definitionAt root (lastName ref) = some d) (href : d.field "$ref" = .ok (.str next)) :
    destination root (fuel + 1) ref =
      if isInner next then destination root fuel next else .ok (.file (some (lastName ref)) next) := by
  rw [destination_eq shaped isRef, hd]
  simp only [has_of_field href, href, ok_bind]
  rfl

theorem tooDeep_iff_revisit (isRef : isDefinition ref) : (∀ fuel, destination root fuel ref = .error .tooDeep) ↔
      ∃ i j n, i < j ∧ nameAt root (lastName ref) i = some n ∧ nameAt root (lastName ref) j = some n := by
  constructor
  · refine fun h => exists_revisit fun k => ?_
    induction k with
    | zero => exact ⟨_, rfl⟩
    | succ k ih =>
      obtain ⟨n, hn⟩ := ih
      obtain ⟨last, _, rfl, heq⟩ := destination_of_nameAt isRef hn
      obtain ⟨next, ⟨_, href, hinner⟩, hdeep⟩ := renames_of_tooDeep ((heq 2).symm.trans (h _))
      -- only a definition can be gone over once more
      have hdef : isDefinition next := by
        by_contra hno
        rw [destination, if_neg hno, hinner] at hdeep
        cases hdeep
      obtain ⟨es, d, hgroup, hd, href⟩ := definitionRef_eq_ok href
      rw [← entriesOf_eq (entriesAt_of_field hgroup)] at hd
      exact ⟨lastName next, by rw [nameAt, hn]; exact (nextName?_of_ref hd href).trans (if_pos hdef)⟩
  · rintro ⟨i, j, n, lt, hi, hj⟩ fuel
    obtain ⟨m, hm⟩ := exists_nameAt_of_revisit lt hi hj fuel
    obtain ⟨last, _, _, heq⟩ := destination_of_nameAt isRef hm
    rw [← Nat.zero_add fuel, heq]
    rfl

theorem exec_follow (scope : RefScope) (fuel : Nat) (ref : String) (s : RefState) : exec (follow scope fuel ref) s =
      match destination scope.root fuel ref with
      | .ok d => exec (arrive scope d) s
      | .error e => (.error e, s) := by
  rw [follow_eq, exec_bind, exec_lift]
  cases destination scope.root fuel ref <;> rfl

theorem exec_external_ne_tooDeep (s : RefState) : (exec (external scope ref) s).1 ≠ .error .tooDeep := by
  cases hknown : s.tables.loaded.get? (scope.path ref)
  case some v =>
    rw [exec_external_cached hknown]
    nofun
  rw [exec_external_fresh hknown]
  cases hread : (Load.load scope.files .on (scope.path ref)).2 with
  | error e =>
    rw [exec_load_unread _ hknown hread]
    nofun
  | ok v =>
    rw [exec_load_read _ hknown hread]
    split <;> nofun

theorem exec_arrive_ne_tooDeep (d : Destination) (s : RefState) : (exec (arrive scope d) s).1 ≠ .error .tooDeep := by
  match d with
  | .definition schema => nofun
  | .file none file => exact exec_external_ne_tooDeep s
  | .file (some name) file => exact exec_external_ne_tooDeep _

theorem exec_resolve_of_nameAt (isRef : isDefinition ref)
    (hk : nameAt scope.root (lastName ref) k = some n) (le : k ≤ definitionCount scope.root) :
    ∃ last, isDefinition last ∧ lastName last = n ∧ ∀ s, exec (scope.resolve (.str ref)) s =
      match destination scope.root (definitionCount scope.root - k + 1) last with
      | .ok d => exec (arrive scope d) s
      | .error e => (.error e, s) := by
  obtain ⟨last, hlast, hname, heq⟩ := destination_of_nameAt isRef hk
  refine ⟨last, hlast, hname, fun s => ?_⟩
  rw [← heq, show definitionCount scope.root - k + 1 + k = definitionCount scope.root + 1 by omega]
  exact exec_follow scope _ ref s

section Ends

variable (shaped : DefinesByName scope.root) (isRef : isDefinition ref)
  (hk : nameAt scope.root (lastName ref) k = some n)
include shaped isRef hk

theorem follow_to_definition (hd : definitionAt scope.root n = some d) (hno : d.has "$ref" = .ok false) :
    k < definitionCount scope.root ∧ ∀ s fuel,
      exec (follow scope fuel ref) s = (if k < fuel then .ok d else .error .tooDeep, s) := by
  have hend : nextName? scope.root n = none := by
    by_contra hsome
    obtain ⟨m, hm⟩ := Option.ne_none_iff_exists'.mp hsome
    obtain ⟨_, _, hd', href, _⟩ := nextName?_eq_some hm
    cases hd.symm.trans hd'
    cases hno.symm.trans (has_of_field href)
  refine ⟨((apart_of_last hk hend).2 ⟨d, hd⟩).le_definitionCount, fun s fuel => ?_⟩
  rw [exec_follow]
  by_cases lt : k < fuel
  · obtain ⟨last, hlast, rfl, heq⟩ := destination_of_nameAt isRef hk
    obtain ⟨rest, rfl⟩ : ∃ rest, fuel = rest + 1 + k := ⟨fuel - k - 1, by omega⟩
    rw [if_pos lt, heq, destination_eq shaped hlast, hd]
    simp only [hno, ok_bind]
    rfl
  · obtain ⟨m, hm⟩ := nameAt_of_le hk (Nat.le_of_not_lt lt)
    obtain ⟨_, _, _, heq⟩ := destination_of_nameAt isRef hm
    rw [if_neg lt, ← Nat.zero_add fuel, heq]
    rfl

theorem resolve_missing_name (hnone : definitionAt scope.root n = none) :
    ∃ last, isDefinition last ∧ lastName last = n ∧ ∀ s, exec (scope.resolve (.str ref)) s =
      (.error (.content ("Internal reference '" ++ last ++ "' could not be resolved")), s) := by
  have hend : nextName? scope.root n = none := by
    rw [nextName?, hnone]
    rfl
  obtain ⟨last, hlast, rfl, hresolve⟩ := exec_resolve_of_nameAt isRef hk (apart_of_last hk hend).1.le_definitionCount
  refine ⟨last, hlast, rfl, fun s => ?_⟩
  rw [hresolve, destination_eq shaped hlast, hnone]

theorem resolve_leaving_definitions (hd : definitionAt scope.root n = some d)
    (href : d.field "$ref" = .ok (.str next)) (hother : isDefinition next = false) (s : RefState) :
    exec (scope.resolve (.str ref)) s =
      if isInner next then (.error (.content ("Unsupported reference format: " ++ next)), s)
      else exec (scope.resolve (.str next)) (record (some n) next s) := by
  have hend : nextName? scope.root n = none := by
    rw [nextName?_of_ref hd href, hother]
    rfl
  have hcount := ((apart_of_last hk hend).2 ⟨d, hd⟩).le_definitionCount
  obtain ⟨last, hlast, rfl, hresolve⟩ := exec_resolve_of_nameAt isRef hk (Nat.le_of_lt hcount)
  obtain ⟨rest, hrest⟩ : ∃ rest, definitionCount scope.root - k = rest + 1 :=
    ⟨definitionCount scope.root - k - 1, by omega⟩
  rw [hresolve, destination_of_ref shaped hlast hd href, hrest]
  cases hinner : isInner next with
  | true =>
    rw [if_pos rfl, if_pos rfl, destination, hother, hinner]
    rfl
  | false =>
    rw [if_neg Bool.false_ne_true, if_neg Bool.false_ne_true,
      RefScope.exec_resolve_file (leadsTo_of_outer scope hinner)]
    rfl

end Ends

/-- Resolving a reference to a definition goes along the names, to a definition that is no reference, to a file, which
alone is recorded, or to a fault. Following has no end exactly when a name comes twice. -/
theorem resolve_along_names (shaped : DefinesByName scope.root) (isRef : isDefinition ref = true) :
    (∀ k n, nameAt scope.root (lastName ref) k = some n →
      (∀ d, definitionAt scope.root n = some d → d.has "$ref" = .ok false →
        k < definitionCount scope.root ∧ ∀ s, exec (scope.resolve (.str ref)) s = (.ok d, s) ∧
          ∀ fuel, exec (follow scope fuel ref) s = (if k < fuel then .ok d else .error .tooDeep, s)) ∧
      (definitionAt scope.root n = none →
        ∃ last, isDefinition last = true ∧ lastName last = n ∧ ∀ s, exec (scope.resolve (.str ref)) s =
          (.error (.content ("Internal reference '" ++ last ++ "' could not be resolved")), s)) ∧
      ∀ d next, definitionAt scope.root n = some d → d.field "$ref" = .ok (.str next) →
        isDefinition next = false → ∀ s, exec (scope.resolve (.str ref)) s =
          if isInner next then (.error (.content ("Unsupported reference format: " ++ next)), s)
          else exec (scope.resolve (.str next)) (record (some n) next s)) ∧
    ((∀ fuel s, exec (follow scope fuel ref) s = (.error .tooDeep, s)) ↔
      ∃ i j n, i < j ∧ nameAt scope.root (lastName ref) i = some n ∧ nameAt scope.root (lastName ref) j = some n) := by
  refine ⟨fun k n hk => ⟨fun d hd hno => ?_, resolve_missing_name shaped isRef hk,
    fun d next => resolve_leaving_definitions shaped isRef hk⟩, ?_⟩
  · obtain ⟨hcount, hfollow⟩ := follow_to_definition shaped isRef hk hd hno
    refine ⟨hcount, fun s => ⟨?_, hfollow s⟩⟩
    have hresolve := hfollow s (definitionCount scope.root + 1)
    rw [if_pos (Nat.lt_succ_of_lt hcount)] at hresolve
    exact hresolve
  rw [← tooDeep_iff_revisit isRef]
  simp only [exec_follow]
  refine ⟨fun h fuel => ?_, fun h fuel s => by rw [h]⟩
  have hdeep := congrArg Prod.fst (h fuel {})
  cases hdestination : destination scope.root fuel ref with
  | ok d =>
    rw [hdestination] at hdeep
    exact absurd hdeep (exec_arrive_ne_tooDeep d {})
  | error e =>
    rw [hdestination] at hdeep
    rw [Except.error.inj hdeep]

def signposts : RefScope :=
  let refersTo ref := .map [("$ref", .str ref)]
  { files := textFiles []
    base := "s.json"
    root := .map [("definitions", .map [("A", refersTo "#/definitions/B"), ("B", .map []),
      ("D", refersTo "d.json"), ("X", refersTo "#/definitions/Y"), ("Y", refersTo "#/definitions/X")])] }

theorem resolve_along_names_signposts : DefinesByName signposts.root ∧
    (∀ s, exec (signposts.resolve (.str "#/definitions/A")) s = (.ok (.map []), s)) ∧
    (∀ s, exec (signposts.resolve (.str "#/definitions/D")) s =
      exec (signposts.resolve (.str "d.json")) (record (some "D") "d.json" s)) ∧
    ∀ fuel s, exec (follow signposts fuel "#/definitions/X") s = (.error .tooDeep, s) := by
  have hshaped : DefinesByName signposts.root := by
    refine ⟨rfl, fun group h => ?_⟩
    cases h
    exact ⟨_, rfl⟩
  have hisRef : ∀ ref ∈ ["#/definitions/A", "#/definitions/D", "#/definitions/X"], isDefinition ref = true := by
    decide
  refine ⟨hshaped, fun s => ?_, fun s => ?_, ?_⟩
  · obtain ⟨hends, -⟩ := resolve_along_names hshaped (hisRef "#/definitions/A" (by decide))
    exact (((hends 1 "B" (by decide +kernel)).1 (.map []) (by decide +kernel) rfl).2 s).1
  · obtain ⟨hends, -⟩ := resolve_along_names hshaped (hisRef "#/definitions/D" (by decide))
    exact (hends 0 "D" (by decide +kernel)).2.2 _ "d.json" rfl rfl (by decide) s
  · obtain ⟨-, hdeep⟩ := resolve_along_names hshaped (hisRef "#/definitions/X" (by decide))
    exact hdeep.mpr ⟨0, 2, "X", by decide, by decide +kernel, by decide +kernel⟩

end Typewright.Reference
