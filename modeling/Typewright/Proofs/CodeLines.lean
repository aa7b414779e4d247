import Typewright.Proofs.Braces
import Mathlib.Data.List.Forall2
import Mathlib.Data.List.TakeWhile

/-!
# Lines of code

What is left of a text without its comments, which go from two slashes to the end of the line.
-/

namespace Typewright.Text

/-! ## Code -/

def beforeComment : List Char → List Char
  | [] => []
  | c :: rest => if c = '/' ∧ rest.head? = some '/' then [] else c :: beforeComment rest

def codeOf (lines : List (List Char)) : List (List Char) :=
  (lines.map beforeComment).filter fun line => !line.all isBlank

def codeChars (cs : List Char) : List (List Char) :=
  codeOf (splitChars '\n' cs)

/-- The code on the lines after the first, as characters. -/
def spillChars (cs : List Char) : List (List Char) :=
  codeOf (splitChars '\n' cs).tail

/-- The lines of a text without their comments, and without those that are then blank. -/
def codeLines (text : String) : List String :=
  (codeChars text.toList).map String.ofList

theorem codeOf_append (lines more : List (List Char)) : codeOf (lines ++ more) = codeOf lines ++ codeOf more := by
  unfold codeOf
  rw [List.map_append, List.filter_append]

theorem codeChars_append (cs ds : List Char) : codeChars (cs ++ '\n' :: ds) = codeChars cs ++ codeChars ds := by
  unfold codeChars
  rw [splitChars_append, codeOf_append]

/-! ## Comments -/

theorem splitChars_glue (mark : Char) (cs : List Char) : ∃ front last, splitChars mark cs = front ++ [last] ∧
    ∀ ds first tail, splitChars mark ds = first :: tail →
      splitChars mark (cs ++ ds) = front ++ (last ++ first) :: tail := by
  induction cs with
  | nil => exact ⟨[], [], rfl, fun ds first tail h => h⟩
  | cons c rest ih =>
    obtain ⟨front, last, hrest, hglue⟩ := ih
    by_cases hc : c = mark
    · refine ⟨[] :: front, last, ?_, fun ds first tail h => ?_⟩
      · rw [splitChars, if_pos hc, hrest, List.cons_append]
      · rw [List.cons_append, splitChars, if_pos hc, hglue ds first tail h, List.cons_append]
    -- the character joins the first line, which is the last one if nothing is in front of it
    cases front with
    | nil =>
      refine ⟨[], c :: last, ?_, fun ds first tail h => ?_⟩
      · rw [splitChars, if_neg hc, hrest]
        rfl
      · rw [List.cons_append, splitChars, if_neg hc, hglue ds first tail h]
        rfl
    | cons piece pieces =>
      refine ⟨(c :: piece) :: pieces, last, ?_, fun ds first tail h => ?_⟩
      · rw [splitChars, if_neg hc, hrest]
        rfl
      · rw [List.cons_append, splitChars, if_neg hc, hglue ds first tail h]
        rfl

theorem beforeComment_append (cs ds : List Char) :
    beforeComment (cs ++ '/' :: '/' :: ds) = beforeComment (cs ++ ['/', '/']) := by
  induction cs with
  | nil => rfl
  | cons c rest ih =>
    have hhead : (rest ++ '/' :: '/' :: ds).head? = (rest ++ ['/', '/']).head? := by
      cases rest <;> rfl
    rw [List.cons_append, List.cons_append, beforeComment, beforeComment, hhead, ih]

theorem codeChars_comment (before cs : List Char) :
    codeChars (before ++ '/' :: '/' :: cs) = codeChars (before ++ ['/', '/']) ++ spillChars cs := by
  obtain ⟨front, last, _, hglue⟩ := splitChars_glue '\n' before
  obtain ⟨first, tail, hsplit⟩ := List.exists_cons_of_ne_nil (splitChars_ne_nil '\n' cs)
  have hslashes : splitChars '\n' ('/' :: '/' :: cs) = ('/' :: '/' :: first) :: tail := by
    rw [splitChars, splitChars, hsplit]
    rfl
  have hline : codeOf [last ++ '/' :: '/' :: first] = codeOf [last ++ ['/', '/']] := by
    unfold codeOf
    rw [List.map_singleton, List.map_singleton, beforeComment_append]
  unfold codeChars spillChars
  rw [hglue _ _ _ hslashes, hglue _ ['/', '/'] [] rfl, hsplit, ← List.singleton_append, codeOf_append,
    codeOf_append, codeOf_append, hline, List.append_assoc]
  rfl

theorem spillChars_append {cs : List Char} (h : '\n' ∉ cs) (ds : List Char) :
    spillChars (cs ++ ds) = spillChars ds := by
  obtain ⟨front, last, hcs, hglue⟩ := splitChars_glue '\n' cs
  obtain ⟨first, tail, hsplit⟩ := List.exists_cons_of_ne_nil (splitChars_ne_nil '\n' ds)
  rw [splitChars_of_not_mem h] at hcs
  obtain ⟨rfl, rfl⟩ : front = [] ∧ last = cs := by
    cases front with
    | nil => exact ⟨rfl, (List.singleton_inj.mp hcs).symm⟩
    | cons piece pieces => simp at hcs
  unfold spillChars
  rw [hglue _ _ _ hsplit, hsplit]
  rfl

/-! ## Texts with the same code -/

/-- The texts have the same code, whatever stands before them. -/
def SameCode (a b : String) : Prop :=
  ∀ before : List Char, codeChars (before ++ a.toList) = codeChars (before ++ b.toList)

namespace SameCode

variable {a b : String}

theorem refl (a : String) : SameCode a a := fun _ => rfl

instance : Std.Refl SameCode := ⟨refl⟩

theorem codeLines (h : SameCode a b) : codeLines a = codeLines b :=
  congrArg (List.map String.ofList) (h [])

theorem prepend (h : SameCode a b) (start : String) : SameCode (start ++ a) (start ++ b) := by
  intro before
  rw [String.toList_append, String.toList_append, ← List.append_assoc, ← List.append_assoc]
  exact h _

theorem comment (start : String) {said : String} (hsaid : '\n' ∉ said.toList)
    (h : spillChars a.toList = spillChars b.toList) :
    SameCode (start ++ "//" ++ said ++ a) (start ++ "//" ++ said ++ b) := by
  have hcode : ∀ (before : List Char) (c : String), codeChars (before ++ (start ++ "//" ++ said ++ c).toList) =
        codeChars (before ++ start.toList ++ ['/', '/']) ++ spillChars c.toList := by
    intro before c
    rw [← spillChars_append hsaid, ← codeChars_comment]
    simp [String.toList_append]
  intro before
  rw [hcode, hcode, h]

theorem join {as bs : List String} (h : List.Forall₂ SameCode as bs) : SameCode (join "\n" as) (join "\n" bs) := by
  have hjoin : ∀ cs : List String, (Text.join "\n" cs).toList = ['\n'].intercalate (cs.map String.toList) :=
    fun cs => String.toList_intercalate
  unfold SameCode
  simp only [hjoin]
  induction h with
  | nil => exact fun _ => rfl
  | @cons a b as bs hab hrest ih =>
    intro before
    cases hrest with
    | nil =>
      rw [List.map_singleton, List.map_singleton, List.intercalate_singleton, List.intercalate_singleton]
      exact hab before
    | @cons c d cs ds hcd hmore =>
      have hsplit : ∀ (x y : String) (rest : List String),
          codeChars (before ++ ['\n'].intercalate ((x :: y :: rest).map String.toList)) =
            codeChars (before ++ x.toList) ++ codeChars (['\n'].intercalate ((y :: rest).map String.toList)) := by
        intro x y rest
        rw [← codeChars_append, List.map_cons, List.map_cons, List.intercalate_cons_cons]
        simp
      rw [hsplit, hsplit, hab before]
      exact congrArg _ (ih [])

end SameCode

abbrev SameLines (lines lines' : List String) : Prop :=
  List.Forall₂ SameCode lines lines'

theorem sameLines_refl (lines : List String) : SameLines lines lines :=
  List.forall₂_refl lines

/-! ## Remarks -/

/-- The texts make the same of a comment: they are there or not, and spill the same. -/
def SameSpill (a b : String) : Prop :=
  a.isEmpty = b.isEmpty ∧ spillChars a.toList = spillChars b.toList

/-- The texts make the same of a comment, with and without the blanks around them. -/
def SameRemark (a b : String) : Prop :=
  SameSpill a b ∧ SameSpill (trim a) (trim b)

instance (a b : String) : Decidable (SameSpill a b) :=
  inferInstanceAs (Decidable (_ ∧ _))

instance (a b : String) : Decidable (SameRemark a b) :=
  inferInstanceAs (Decidable (_ ∧ _))

theorem SameSpill.refl (a : String) : SameSpill a a := ⟨rfl, rfl⟩

theorem SameSpill.of_line {a b : String} (ha : '\n' ∉ a.toList) (hb : '\n' ∉ b.toList)
    (hthere : a.isEmpty = b.isEmpty) : SameSpill a b := by
  have hspill : ∀ {cs : List Char}, '\n' ∉ cs → spillChars cs = [] := by
    intro cs hcs
    unfold spillChars
    rw [splitChars_of_not_mem hcs]
    rfl
  exact ⟨hthere, (hspill ha).trans (hspill hb).symm⟩

theorem isEmpty_trim (a : String) : (trim a).isEmpty = a.toList.all isBlank := by
  have hdrop : ∀ {cs : List Char}, (∀ c ∈ cs.dropWhile isBlank, isBlank c) → ∀ c ∈ cs, isBlank c := by
    intro cs hcs
    cases hleft : cs.dropWhile isBlank with
    | nil => exact List.dropWhile_eq_nil_iff.mp hleft
    | cons d rest =>
      have hd := hcs d (hleft ▸ (.head _))
      have := List.head_dropWhile_not isBlank (l := cs) (by rw [hleft]; nofun)
      simp [hleft, hd] at this
  rw [Bool.eq_iff_iff, String.isEmpty_iff, List.all_eq_true]
  unfold trim trimChars
  rw [String.ofList_eq_empty_iff, List.reverse_eq_nil_iff, List.dropWhile_eq_nil_iff]
  simp only [List.mem_reverse]
  exact ⟨hdrop, fun h c hc => h c ((List.dropWhile_sublist _).subset hc)⟩

theorem SameRemark.of_line {a b : String} (ha : '\n' ∉ a.toList) (hb : '\n' ∉ b.toList)
    (hblank : a.toList.all isBlank = false) (hblank' : b.toList.all isBlank = false) : SameRemark a b := by
  have hsome : ∀ {c : String}, c.toList.all isBlank = false → c.isEmpty = false := by
    intro c hc
    rw [Bool.eq_false_iff, Ne, String.isEmpty_iff]
    rintro rfl
    cases hc
  have htrim : ∀ {c : String}, '\n' ∉ c.toList → '\n' ∉ (trim c).toList := by
    intro c hc hmem
    unfold trim at hmem
    rw [String.toList_ofList] at hmem
    exact hc (mem_of_mem_trimChars hmem)
  refine ⟨.of_line ha hb ?_, .of_line (htrim ha) (htrim hb) ?_⟩
  · rw [hsome hblank, hsome hblank']
  · rw [isEmpty_trim, isEmpty_trim, hblank, hblank']

end Typewright.Text
