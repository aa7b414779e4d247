import Typewright.Files.Path
import Typewright.Proofs.Braces
import Mathlib.Data.List.TakeWhile

/-!
# Paths and names

How the parts of a path go with joining, and which spellings of a path come to the same.
-/

namespace Typewright.Path

variable {name path : String}

/-! ## The last part of a path -/

theorem splitLast_eq {head tail : List Char} (hpath : path.toList = head ++ tail)
    (hhead : head = [] ∨ ∃ before, head = before ++ ['/']) (htail : '/' ∉ tail) : splitLast path = (head, tail) := by
  have hall : ∀ c ∈ tail.reverse, (c != '/') := by
    intro c hc
    rw [List.mem_reverse] at hc
    exact bne_iff_ne.mpr fun heq => htail (heq ▸ hc)
  have hstop : head.reverse.takeWhile (· != '/') = [] := by
    rcases hhead with rfl | ⟨before, rfl⟩ <;> simp
  have hrest : (head ++ tail).reverse.takeWhile (· != '/') = tail.reverse := by
    rw [List.reverse_append, List.takeWhile_append_of_pos hall, hstop, List.append_nil]
  simp only [splitLast, hpath, hrest, List.reverse_reverse, List.length_append, Nat.add_sub_cancel, List.take_left]

theorem slash_not_mem_fileName (path : String) : '/' ∉ (fileName path).toList := by
  unfold fileName splitLast
  rw [String.toList_ofList, List.mem_reverse]
  intro h
  have hne := List.mem_takeWhile_imp (p := fun c : Char => c != '/') h
  simp at hne

theorem mem_fileName_of_mem_stem {c : Char} (h : c ∈ (stem path).toList) : c ∈ (fileName path).toList := by
  unfold stem splitExtension at h
  rw [splitLast_eq (List.nil_append _).symm (.inl rfl) (slash_not_mem_fileName path)] at h
  dsimp only at h
  split at h
  · rw [String.toList_ofList, List.nil_append, List.mem_append] at h
    rcases h with h | h
    · exact (List.takeWhile_prefix _).subset h
    · exact List.mem_of_mem_drop (List.mem_of_mem_take h)
  · exact h

theorem mem_of_mem_fileName {c : Char} (h : c ∈ (fileName path).toList) : c ∈ path.toList := by
  unfold fileName splitLast at h
  rw [String.toList_ofList, List.mem_reverse] at h
  exact List.mem_reverse.mp ((List.takeWhile_prefix _).subset h)

theorem slash_not_mem_stem (path : String) : '/' ∉ (stem path).toList :=
  fun h => slash_not_mem_fileName path (mem_fileName_of_mem_stem h)

theorem fileName_append_slash (before after : String) : fileName (before ++ "/" ++ after) = fileName after := by
  have hchars : (before ++ "/" ++ after).toList.reverse = after.toList.reverse ++ '/' :: before.toList.reverse := by
    simp
  have htail : (before ++ "/" ++ after).toList.reverse.takeWhile (· != '/') =
      after.toList.reverse.takeWhile (· != '/') := by
    rw [hchars, List.takeWhile_append]
    split
    · next hall =>
      rw [List.takeWhile_cons_of_neg (by decide), List.append_nil]
      exact (List.IsPrefix.eq_of_length (List.takeWhile_prefix _) hall).symm
    · rfl
  exact congrArg (fun tail => String.ofList tail.reverse) htail

/-! ## Joining -/

/-- What a path is joined to: nothing, or a text with a slash at its end. -/
inductive IsStart : String → Prop
  | empty : IsStart ""
  | slash (before : String) : IsStart (before ++ "/")

theorem join_eq (dir : String) :
    ∃ start, IsStart start ∧ ∀ path, Text.startsWith path "/" = false → join dir path = start ++ path := by
  have hjoin : ∀ path, Text.startsWith path "/" = false → join dir path =
      if dir.isEmpty || Text.endsWith dir "/" then dir ++ path else dir ++ "/" ++ path := by
    intro path hpath
    unfold join
    rw [hpath]
    rfl
  by_cases hdir : (dir.isEmpty || Text.endsWith dir "/")
  · refine ⟨dir, ?_, fun path hpath => (hjoin path hpath).trans (if_pos hdir)⟩
    rcases Bool.or_eq_true_iff.mp hdir with hempty | hslash
    · rw [String.isEmpty_iff.mp hempty]
      exact .empty
    obtain ⟨before, hbefore⟩ := List.isSuffixOf_iff_suffix.mp hslash
    have heq : dir = String.ofList before ++ "/" := by
      rw [← String.toList_inj, String.toList_append, String.toList_ofList]
      exact hbefore.symm
    rw [heq]
    exact .slash _
  · exact ⟨dir ++ "/", .slash dir, fun path hpath => (hjoin path hpath).trans (if_neg hdir)⟩

theorem join_empty (path : String) : join "" path = path := by
  unfold join
  split
  · rfl
  · exact String.empty_append

theorem fileName_join (dir path : String) : fileName (join dir path) = fileName path := by
  obtain ⟨start, hstart, hjoin⟩ := join_eq dir
  cases hpath : Text.startsWith path "/" with
  | true =>
    unfold join
    rw [if_pos hpath]
  | false =>
    rw [hjoin path hpath]
    cases hstart with
    | empty => rw [String.empty_append]
    | slash before => exact fileName_append_slash before path

theorem stem_join (dir path : String) : stem (join dir path) = stem path := by
  unfold stem
  rw [fileName_join]

theorem startsWith_slash_of_not_mem (h : '/' ∉ name.toList) : Text.startsWith name "/" = false := by
  rw [Bool.eq_false_iff]
  intro hstart
  obtain ⟨rest, hrest⟩ := List.isPrefixOf_iff_prefix.mp hstart
  exact h (hrest ▸ (.head _))

/-! ## Directories -/

theorem directory_cases (path : String) : (∀ c ∈ (directory path).toList, c = '/') ∨
      ∃ before c, (directory path).toList = before ++ [c] ∧ c ≠ '/' := by
  unfold directory
  dsimp only
  split
  · next hall =>
    refine .inl fun c hc => ?_
    rw [String.toList_ofList] at hc
    exact eq_of_beq (List.all_eq_true.mp hall c hc)
  · next hall =>
    refine .inr ?_
    rw [String.toList_ofList]
    have hne : (splitLast path).1.reverse.dropWhile (· == '/') ≠ [] := by
      intro hnil
      refine hall (List.all_eq_true.mpr fun c hc => ?_)
      exact List.dropWhile_eq_nil_iff.mp hnil c (List.mem_reverse.mpr hc)
    cases hrest : (splitLast path).1.reverse.dropWhile (· == '/') with
    | nil => exact absurd hrest hne
    | cons c rest =>
      refine ⟨rest.reverse, c, List.reverse_cons, ?_⟩
      rintro rfl
      have hhead := List.head_dropWhile_not (· == '/') hne
      simp [hrest] at hhead

theorem directory_join (path : String) (hname : '/' ∉ name.toList) :
    directory (join (directory path) name) = directory path := by
  generalize hdir : directory path = dir
  have hpath := startsWith_slash_of_not_mem hname
  rcases hdir ▸ directory_cases path with hall | ⟨before, c, hchars, hc⟩
  · -- slashes only, or nothing: the name comes right after them
    have hend : dir.toList = [] ∨ ∃ before, dir.toList = before ++ ['/'] := by
      rcases List.eq_nil_or_concat' dir.toList with hnil | ⟨before, c, hchars⟩
      · exact .inl hnil
      · refine .inr ⟨before, ?_⟩
        rw [hchars, hall c (hchars ▸ List.mem_append_right _ (List.mem_singleton_self c))]
    have hjoin : join dir name = dir ++ name := by
      have hslash : (dir.isEmpty || Text.endsWith dir "/") := by
        rcases hend with hnil | ⟨before, hchars⟩
        · simp [String.toList_eq_nil_iff.mp hnil]
        · have hsuffix : Text.endsWith dir "/" := List.isSuffixOf_iff_suffix.mpr ⟨before, hchars.symm⟩
          rw [hsuffix, Bool.or_true]
      unfold join
      rw [hpath, hslash]
      rfl
    have hsplit : splitLast (join dir name) = (dir.toList, name.toList) :=
      splitLast_eq (by rw [hjoin, String.toList_append]) hend hname
    have hslashes : dir.toList.all (· == '/') := List.all_eq_true.mpr fun c hc => beq_iff_eq.mpr (hall c hc)
    unfold directory
    rw [hsplit]
    simp only [hslashes, if_true, String.ofList_toList]
  · have hjoin : join dir name = dir ++ "/" ++ name := by
      have hslash : (dir.isEmpty || Text.endsWith dir "/") = false := by
        rw [Bool.or_eq_false_iff, Bool.eq_false_iff, Bool.eq_false_iff]
        constructor
        · intro hempty
          rw [String.isEmpty_iff.mp hempty] at hchars
          simp at hchars
        · intro hsuffix
          obtain ⟨before', hbefore'⟩ := List.isSuffixOf_iff_suffix.mp hsuffix
          exact hc (List.append_inj' (hchars.symm.trans hbefore'.symm) rfl |>.2 |> List.singleton_inj.mp)
      unfold join
      rw [hpath, hslash]
      rfl
    have hsplit : splitLast (join dir name) = (dir.toList ++ ['/'], name.toList) :=
      splitLast_eq (by rw [hjoin, String.toList_append, String.toList_append]; rfl) (.inr ⟨_, rfl⟩) hname
    have hslashes : (dir.toList ++ ['/']).all (· == '/') = false := by
      simp [hchars, hc]
    unfold directory
    rw [hsplit]
    simp only [hslashes, List.reverse_append, List.reverse_singleton, List.singleton_append]
    rw [if_neg Bool.false_ne_true, List.dropWhile_cons_of_pos rfl, hchars, List.reverse_append,
      List.reverse_singleton, List.singleton_append, List.dropWhile_cons_of_neg (by simpa using hc),
      List.reverse_cons, List.reverse_reverse, ← hchars, String.ofList_toList]

/-! ## Other spellings -/

theorem takeWhile_append_of_stop {α : Type} {p : α → Bool} (as : List α) {bs : List α}
    (h : ∀ b ∈ bs.head?, p b = false) : (as ++ bs).takeWhile p = as.takeWhile p := by
  induction as with
  | nil =>
    cases bs with
    | nil => rfl
    | cons b rest => exact List.takeWhile_cons_of_neg (by simp [h b rfl])
  | cons a rest ih =>
    rw [List.cons_append, List.takeWhile_cons, List.takeWhile_cons, ih]

theorem split_append_slash (before after : String) :
    Text.split '/' (before ++ "/" ++ after) = Text.split '/' before ++ Text.split '/' after := by
  have hchars : (before ++ "/" ++ after).toList = before.toList ++ '/' :: after.toList := by simp
  unfold Text.split
  rw [hchars, Text.splitChars_append, List.map_append]

theorem IsStart.split {start : String} (h : IsStart start) :
    ∃ pieces, ∀ path, Text.split '/' (start ++ path) = pieces ++ Text.split '/' path := by
  cases h with
  | empty => exact ⟨[], fun path => by rw [String.empty_append, List.nil_append]⟩
  | slash before => exact ⟨Text.split '/' before, split_append_slash before⟩

theorem normal_join_dot (dir : String) (hname : '/' ∉ name.toList) :
    normal (join dir ("./" ++ name)) = normal (join dir name) := by
  obtain ⟨start, hstart, hjoin⟩ := join_eq dir
  have hpoint : Text.startsWith ("./" ++ name) "/" = false := by
    unfold Text.startsWith
    rw [String.toList_append]
    rfl
  rw [hjoin _ hpoint, hjoin _ (startsWith_slash_of_not_mem hname)]
  have hlead : ∀ path : String, (∀ c ∈ path.toList.head?, (c == '/') = false) →
      (start ++ path).toList.takeWhile (· == '/') = start.toList.takeWhile (· == '/') := by
    intro path hpath
    rw [String.toList_append]
    exact takeWhile_append_of_stop _ hpath
  have hpointed := hlead ("./" ++ name) (by simp)
  have hnamed := hlead name fun c hc =>
    beq_false_of_ne fun heq => hname (heq ▸ List.mem_of_mem_head? hc)
  obtain ⟨pieces, hpieces⟩ := hstart.split
  have hdot : Text.split '/' ("./" ++ name) = "." :: Text.split '/' name := split_append_slash "." name
  have hskip : ∀ rooted names, addName rooted names "." = names := fun _ _ => rfl
  simp only [normal, hpointed, hnamed, hpieces, hdot, List.foldl_append, List.foldl_cons, hskip]

theorem relative_eq_dot {cwd start : String} (h : names cwd path = names cwd start) :
    relative cwd path start = "." := by
  have hshared : ∀ l : List String, dropShared l l = ([], []) := by
    intro l
    induction l with
    | nil => rfl
    | cons a rest ih => rw [dropShared, if_pos rfl, ih]
  unfold relative
  rw [h, hshared]
  rfl

end Typewright.Path
