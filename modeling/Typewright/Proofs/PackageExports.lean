import Typewright.Proofs.InnerTypes
import Typewright.Proofs.KeptFiles

/-!
# Classes that the package file exports

A package file lists the classes of the modules beside it, which are found by the look of their declarations.
-/

namespace Typewright

open WorldM

theorem WorldM.write_eq_ok {t : Except Fault FileTree} {line : String} {w w' : World}
    (h : exec (do setFiles (← t); print line) w = (.ok (), w')) : t = .ok w'.files := by
  cases t with
  | error e => cases h
  | ok files =>
    cases h
    rfl

/-- A world with one file in a directory `m`. -/
def World.ofFile (file text : String) : World where
  files :=
    { cwd := ["w"]
      entries := [(["w"], .directory), (["w", "m"], .directory), (["w", "m", file], .file (Output.bytes text))] }

namespace Text

theorem mem_findAll {α : Type} {pattern : List Char → Option α} {x : α} {s : List Char} (hne : s ≠ [])
    (h : pattern s = some x) (before : List Char) : x ∈ findAll pattern (before ++ s) := by
  induction before with
  | nil =>
    obtain ⟨c, rest, rfl⟩ := List.exists_cons_of_ne_nil hne
    rw [List.nil_append, findAll, h]
    exact .head _
  | cons c rest ih =>
    rw [List.cons_append, findAll]
    split
    · exact .tail _ ih
    · exact ih

theorem nameAtStart_of_all {p : Char → Bool} {name : String} {c : Char} (hne : name ≠ "") (hp : ∀ d ∈ name.toList, p d)
    (hblank : ∀ d ∈ name.toList, isBlank d = false) (hc : p c = false) (rest : List Char) :
    nameAtStart p (afterBlanks (name.toList ++ c :: rest)) = some (name, c :: rest) := by
  have hblanks : afterBlanks (name.toList ++ c :: rest) = name.toList ++ c :: rest := by
    obtain ⟨d, ds, hds⟩ := List.exists_cons_of_ne_nil (mt String.toList_eq_nil_iff.mp hne)
    rw [hds, List.cons_append, afterBlanks, List.dropWhile_cons_of_neg]
    exact Bool.eq_false_iff.mp (hblank d (hds ▸ .head _))
  rw [hblanks, nameAtStart, List.takeWhile_append_of_pos hp, List.dropWhile_append_of_pos hp,
    List.takeWhile_cons_of_neg (by simp [hc]), List.dropWhile_cons_of_neg (by simp [hc]), List.append_nil]
  simp [hne]

end Text

namespace Exports.Python

open Text Typewright.Python

variable {dir name module file text : String} {w w' : World}

/-! ## Reading a class -/

/-- The lines have a name in the list of all names. -/
def Lists (lines : List String) (name : String) : Prop :=
  ∃ before names after, lines = before ++ "__all__ = [" :: (names ++ "]" :: after) ∧ "]" ∉ names ∧
    ("    '" ++ name ++ "',") ∈ names

/-- The lines import a name from a module. -/
def Imports (lines : List String) (module name : String) : Prop :=
  ∃ before names after, lines = before ++ ("from ." ++ module ++ " import (") :: (names ++ ")" :: after) ∧
    ")" ∉ names ∧ ("    " ++ name ++ ",") ∈ names

variable {table : Table (List String)} {found : List String}

end Exports.Python

end Typewright
