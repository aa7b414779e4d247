import Typewright.Text.Classes
import Typewright.Text.Pieces
import Typewright.Text.Sorted
import Mathlib.Data.List.Infix

/-!
# Text inside text

Where a piece of text occurs, what joined text is made of, and which texts a list of texts holds.
-/

namespace Typewright.Text

variable {c mark : Char} {pat s x : String} {cs : List Char} {xs : List String}

theorem isUpper_iff_toNat : c.isUpper ↔ 65 ≤ c.toNat ∧ c.toNat ≤ 90 := by
  show decide (65 ≤ c.val ∧ c.val ≤ 90) = true ↔ _
  rw [decide_eq_true_iff, UInt32.le_iff_toNat_le, UInt32.le_iff_toNat_le]
  exact Iff.rfl

theorem isLower_iff_toNat : c.isLower ↔ 97 ≤ c.toNat ∧ c.toNat ≤ 122 := by
  show (decide (97 ≤ c.val) && decide (c.val ≤ 122)) = true ↔ _
  rw [Bool.and_eq_true, decide_eq_true_iff, decide_eq_true_iff, UInt32.le_iff_toNat_le, UInt32.le_iff_toNat_le]
  exact Iff.rfl

theorem isAlphanum_iff : c.isAlphanum ↔ (c.isUpper ∨ c.isLower) ∨ c.isDigit := by
  show ((c.isUpper || c.isLower) || c.isDigit) = true ↔ _
  rw [Bool.or_eq_true, Bool.or_eq_true]

/-- What is to hold of all characters of ASCII can be looked up. -/
@[elab_as_elim]
theorem forall_ascii {P : Char → Prop} (hall : ∀ n < 128, P (Char.ofNat n)) (h : c.toNat < 128) : P c :=
  c.ofNat_toNat ▸ hall c.toNat h

theorem toNat_lt_of_isAsciiWord (h : isAsciiWord c) : c.toNat < 128 := by
  rw [isAsciiWord, Bool.or_eq_true, isAlphanum_iff, beq_iff_eq, isUpper_iff_toNat, isLower_iff_toNat,
    Char.isDigit_iff_toNat] at h
  rcases h with h | rfl
  · have hnine : '9'.toNat = 57 := rfl
    omega
  · decide

theorem hasInfix_iff {pat s : List Char} : hasInfix pat s ↔ pat <:+: s := by
  induction s with
  | nil => simp [hasInfix]
  | cons c rest ih =>
    rw [hasInfix, Bool.or_eq_true, List.isPrefixOf_iff_prefix, ih, List.infix_cons_iff]

theorem contains_iff : contains s pat ↔ pat.toList <:+: s.toList :=
  hasInfix_iff

theorem contains_trans {t : String} (hst : contains s t) (h : contains t pat) : contains s pat :=
  contains_iff.mpr ((contains_iff.mp h).trans (contains_iff.mp hst))

theorem contains_append_left (s t : String) : contains (s ++ t) s := by
  rw [contains_iff, String.toList_append]
  exact (List.prefix_append _ _).isInfix

theorem infix_intercalate {α : Type} {sep part : List α} {parts : List (List α)} (h : part ∈ parts) :
    part <:+: sep.intercalate parts := by
  induction parts with
  | nil => cases h
  | cons first rest ih =>
    cases rest with
    | nil =>
      rw [List.mem_singleton.mp h, List.intercalate_singleton]
    | cons second rest =>
      rw [List.intercalate_cons_cons]
      rcases List.mem_cons.mp h with rfl | h
      · exact ⟨[], sep ++ sep.intercalate (second :: rest), by simp⟩
      · exact (ih h).trans (List.suffix_append _ _).isInfix

theorem contains_join {sep part : String} {parts : List String} (h : part ∈ parts) :
    contains (join sep parts) part := by
  rw [contains_iff, join, String.toList_intercalate]
  exact infix_intercalate (List.mem_map_of_mem h)

/-! ## Pieces between marks -/

theorem splitChars_of_not_mem (h : mark ∉ cs) : splitChars mark cs = [cs] := by
  induction cs with
  | nil => rfl
  | cons c rest ih =>
    have hc : c ≠ mark := fun heq => h (heq ▸ (.head _))
    rw [splitChars, if_neg hc, ih fun hmem => h (.tail _ hmem)]

theorem splitChars_ne_nil (mark : Char) (cs : List Char) : splitChars mark cs ≠ [] := by
  cases cs with
  | nil => nofun
  | cons c rest =>
    unfold splitChars
    split
    · nofun
    · split <;> nofun

theorem splitChars_append (mark : Char) (cs more : List Char) :
    splitChars mark (cs ++ mark :: more) = splitChars mark cs ++ splitChars mark more := by
  induction cs with
  | nil =>
    show splitChars mark (mark :: more) = [[]] ++ splitChars mark more
    rw [splitChars, if_pos rfl]
    rfl
  | cons c rest ih =>
    rw [List.cons_append, splitChars, splitChars, ih]
    split
    · rfl
    · cases hpieces : splitChars mark rest with
      | nil => exact absurd hpieces (splitChars_ne_nil mark rest)
      | cons piece pieces => rfl

theorem not_mem_of_mem_splitChars {piece : List Char} (h : piece ∈ splitChars mark cs) : mark ∉ piece := by
  induction cs generalizing piece with
  | nil =>
    rw [List.mem_singleton.mp h]
    exact List.not_mem_nil
  | cons c rest ih =>
    rw [splitChars] at h
    split at h
    · rcases List.mem_cons.mp h with rfl | h
      · exact List.not_mem_nil
      · exact ih h
    · next hc =>
      cases hpieces : splitChars mark rest with
      | nil => exact absurd hpieces (splitChars_ne_nil mark rest)
      | cons first others =>
        rw [hpieces] at h ih
        rcases List.mem_cons.mp h with rfl | h
        · rw [List.mem_cons, not_or]
          exact ⟨fun heq => hc heq.symm, ih (.head _)⟩
        · exact ih (.tail _ h)

theorem lastPiece_append (before : String) {after : String} (h : mark ∉ after.toList) :
    lastPiece mark (before ++ String.singleton mark ++ after) = after := by
  unfold lastPiece split
  have hchars : (before ++ String.singleton mark ++ after).toList = before.toList ++ mark :: after.toList := by simp
  rw [hchars, splitChars_append, splitChars_of_not_mem h, List.map_append, List.map_singleton]
  simp

theorem not_mem_lastPiece (mark : Char) (text : String) : mark ∉ (lastPiece mark text).toList := by
  rw [lastPiece, List.getLastD_eq_getLast?]
  cases hlast : (split mark text).getLast? with
  | none => exact List.not_mem_nil
  | some piece =>
    obtain ⟨cs, hcs, rfl⟩ := List.mem_map.mp (List.mem_of_getLast? hlast)
    rw [Option.getD_some, String.toList_ofList]
    exact not_mem_of_mem_splitChars hcs

theorem replaceChars_of_not_mem (pat new : List Char) (h : mark ∉ cs) : replaceChars (mark :: pat) new cs = cs := by
  induction cs with
  | nil => rw [replaceChars]
  | cons c rest ih =>
    have hc : (mark == c) = false := beq_false_of_ne fun heq => h (heq ▸ (.head _))
    rw [replaceChars, List.isPrefixOf_cons_cons, hc, Bool.false_and, Bool.false_and, if_neg Bool.false_ne_true,
      ih fun hmem => h (.tail _ hmem)]

theorem mem_of_mem_replaceChars {pat : List Char} (h : c ∈ replaceChars pat [] cs) : c ∈ cs := by
  fun_induction replaceChars pat [] cs with
  | case1 => exact h
  | case2 d rest _ ih => exact .tail _ (List.mem_of_mem_drop (ih h))
  | case3 d rest _ ih =>
    rcases List.mem_cons.mp h with rfl | h
    · exact .head _
    · exact .tail _ (ih h)

/-! ## Lists of texts as sets -/

theorem mem_add_iff {y : String} : y ∈ add xs x ↔ y ∈ xs ∨ y = x := by
  unfold add
  split
  · next hx =>
    refine ⟨.inl, fun h => h.elim id ?_⟩
    rintro rfl
    simpa using hx
  · rw [List.mem_append, List.mem_singleton]

theorem nodup_add (h : xs.Nodup) (x : String) : (add xs x).Nodup := by
  unfold add
  split
  · exact h
  · next hfresh =>
    rw [List.contains_iff_mem] at hfresh
    exact List.nodup_append.mpr ⟨h, by simp, fun a ha b hb heq =>
      hfresh (List.mem_singleton.mp hb ▸ heq ▸ ha)⟩

theorem mem_foldl_add {ys : List String} : x ∈ xs.foldl add ys ↔ x ∈ ys ∨ x ∈ xs := by
  induction xs generalizing ys with
  | nil => simp
  | cons y rest ih => rw [List.foldl_cons, ih, mem_add_iff, List.mem_cons, or_assoc]

theorem mem_sortedSet : x ∈ sortedSet xs ↔ x ∈ xs := by
  unfold sortedSet sorted
  rw [List.mem_mergeSort, mem_foldl_add]
  simp

end Typewright.Text
