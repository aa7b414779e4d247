import Typewright.Text.Pieces

/-!
# Squeezing runs

Replacing a mark that stands twice by a single one, again and again until no two of them are neighbours.
-/

namespace Typewright.Text

theorem length_replaceChars_le {pat new : List Char} (hlen : new.length ≤ pat.length)
    (s : List Char) : (replaceChars pat new s).length ≤ s.length := by
  fun_induction replaceChars pat new s with
  | case1 => exact Nat.le_refl _
  | case2 c rest h ih =>
    have hp := (List.isPrefixOf_iff_prefix.mp (Bool.and_eq_true _ _ ▸ h).1).length_le
    simp only [List.length_append, List.length_drop, List.length_cons] at *
    omega
  | case3 c rest h ih =>
    simp only [List.length_cons]
    omega

theorem length_replaceChars_lt {pat new : List Char} (hlen : new.length < pat.length)
    {s : List Char} (h : hasInfix pat s = true) : (replaceChars pat new s).length < s.length := by
  have hne : pat.isEmpty = false := by
    cases pat with
    | nil => simp at hlen
    | cons _ _ => rfl
  fun_induction replaceChars pat new s with
  | case1 =>
    rw [hasInfix, hne] at h
    cases h
  | case2 c rest hp ih =>
    have hp := (List.isPrefixOf_iff_prefix.mp (Bool.and_eq_true _ _ ▸ hp).1).length_le
    have := length_replaceChars_le (Nat.le_of_lt hlen) (rest.drop (pat.length - 1))
    simp only [List.length_append, List.length_drop, List.length_cons] at *
    omega
  | case3 c rest hp ih =>
    rw [hne] at hp
    rw [hasInfix] at h
    have hrest : hasInfix pat rest = true := by
      cases hpre : pat.isPrefixOf (c :: rest) with
      | true => rw [hpre] at hp; exact absurd rfl hp
      | false => rw [hpre] at h; exact h
    have := ih hrest
    simp only [List.length_cons]
    omega

/-- The characters with every run of `mark` made into a single one. -/
def squeeze (mark : Char) (s : List Char) : List Char :=
  if _h : hasInfix [mark, mark] s = true then squeeze mark (replaceChars [mark, mark] [mark] s) else s
termination_by s.length
decreasing_by exact length_replaceChars_lt (by simp) (by assumption)

end Typewright.Text
