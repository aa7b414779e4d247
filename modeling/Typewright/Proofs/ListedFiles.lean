import Typewright.Proofs.FileTrees
import Typewright.Proofs.MadeFiles

/-!
# Files that can be read are listed

The files that the items of documents refer to are counted over all entries of the tree, each at its path from the
root.
-/

namespace Typewright

variable {name path : String} {v : Value}

namespace Text

/-! ## Lower case after a slash -/

theorem nextIsCased_slash (before more : List Char) : nextIsCased (before ++ '/' :: more) = nextIsCased before := by
  have hslash : inRanges caseIgnorableRanges '/'.toNat = false := by decide +kernel
  have hcased : inRanges casedRanges '/'.toNat = false := by decide +kernel
  unfold nextIsCased
  induction before with
  | nil =>
    rw [List.nil_append, List.dropWhile_cons, hslash]
    exact hcased
  | cons c rest ih =>
    rw [List.cons_append, List.dropWhile_cons, List.dropWhile_cons]
    cases inRanges caseIgnorableRanges c.toNat with
    | true => exact ih
    | false => rfl

theorem lowerFrom_slash (before more cs : List Char) : lowerFrom (before ++ '/' :: more) cs = lowerFrom before cs := by
  induction cs generalizing before with
  | nil => rfl
  | cons c rest ih =>
    unfold lowerFrom lowerAmid
    rw [nextIsCased_slash, ← List.cons_append, ih]

theorem exists_lowerFrom_append (before cs ds : List Char) :
    ∃ es, lowerFrom before (cs ++ ds) = es ++ lowerFrom (cs.reverse ++ before) ds := by
  induction cs generalizing before with
  | nil => exact ⟨[], rfl⟩
  | cons c rest ih =>
    obtain ⟨es, hes⟩ := ih (c :: before)
    refine ⟨lowerAmid before c (rest ++ ds) ++ es, ?_⟩
    rw [List.cons_append, lowerFrom, hes, List.reverse_cons, List.append_assoc, List.append_assoc,
      List.singleton_append]

theorem exists_lower_append_slash (before name : String) :
    ∃ start, lower (before ++ "/" ++ name) = start ++ "/" ++ lower name := by
  obtain ⟨es, hes⟩ := exists_lowerFrom_append [] before.toList ('/' :: name.toList)
  have hslash : lowerFrom (before.toList.reverse ++ []) ('/' :: name.toList) = '/' :: lowerFrom [] name.toList := by
    have hamid : ∀ ds, lowerAmid (before.toList.reverse ++ []) '/' ds = ['/'] := fun _ => by
      unfold lowerAmid
      rw [if_neg (by decide)]
      decide +kernel
    rw [lowerFrom, hamid]
    exact congrArg ('/' :: ·) (lowerFrom_slash [] _ _)
  refine ⟨String.ofList es, ?_⟩
  rw [← String.toList_inj]
  unfold lower
  rw [hslash] at hes
  simp [hes]

theorem slash_not_mem_lower (h : '/' ∉ name.toList) : '/' ∉ (lower name).toList := by
  have hfrom : ∀ (cs before : List Char), '/' ∉ cs → '/' ∉ lowerFrom before cs := by
    intro cs
    induction cs with
    | nil => exact fun _ _ => List.not_mem_nil
    | cons c rest ih =>
      intro before hcs hmem
      rw [lowerFrom] at hmem
      rcases List.mem_append.mp hmem with hmem | hmem
      · unfold lowerAmid at hmem
        split at hmem
        · have hsigma := List.mem_singleton.mp hmem
          split at hsigma <;> cases hsigma
        · exact hcs (Generate.uncased_slash.eq_of_mem_lowerChar hmem ▸ (.head _))
      · exact ih _ (fun hrest => hcs (.tail _ hrest)) hmem
  unfold lower
  rw [String.toList_ofList]
  exact hfrom _ _ h

end Text

namespace Path

theorem extension_append_slash (before : String) (h : '/' ∉ name.toList) :
    extension (before ++ "/" ++ name) = extension name := by
  have hlong : splitLast (before ++ "/" ++ name) = (before.toList ++ ['/'], name.toList) :=
    splitLast_eq (by simp) (.inr ⟨_, rfl⟩) h
  have hshort : splitLast name = ([], name.toList) := splitLast_eq rfl (.inl rfl) h
  unfold extension splitExtension
  rw [hlong, hshort]
  dsimp only
  split <;> rfl

theorem slash_cases (path : String) :
    '/' ∉ path.toList ∨ ∃ before name, path = before ++ "/" ++ name ∧ '/' ∉ name.toList := by
  by_cases h : '/' ∈ path.toList
  · obtain ⟨as, bs, hreverse, has⟩ := List.eq_append_cons_of_mem (List.mem_reverse.mpr h)
    refine .inr ⟨String.ofList bs.reverse, String.ofList as.reverse, ?_, by simpa using has⟩
    have hpath := congrArg List.reverse hreverse
    rw [List.reverse_reverse] at hpath
    rw [← String.toList_inj, hpath]
    simp
  · exact .inl h

end Path

open Path

theorem Load.isYaml_append_slash (before : String) (h : '/' ∉ name.toList) :
    isYaml (before ++ "/" ++ name) = isYaml name := by
  obtain ⟨start, hlower⟩ := Text.exists_lower_append_slash before name
  unfold isYaml
  rw [hlower, extension_append_slash start (Text.slash_not_mem_lower h)]

namespace FileTree

variable {t : FileTree} {path : String} {names : List String} {content : List UInt8}

/-! ## Readings at a path and at the root -/

theorem last_of_walk {dir parts : List String} (h : t.walk dir parts = .ok ⟨names, some (.file content)⟩) :
    ∃ above before last, names = above ++ [last] ∧ parts = before ++ [last] := by
  induction parts generalizing dir with
  | nil => cases h
  | cons part rest ih =>
    have hlater : ∀ {dir}, t.walk dir rest = .ok ⟨names, some (.file content)⟩ →
        ∃ above before last, names = above ++ [last] ∧ part :: rest = before ++ [last] := by
      intro dir hwalk
      obtain ⟨above, before, last, hnames, rfl⟩ := ih hwalk
      exact ⟨above, part :: before, last, hnames, rfl⟩
    unfold walk at h
    split at h
    · exact hlater h
    split at h
    · exact hlater h
    dsimp only at h
    split at h
    · exact hlater h
    · split at h
      · next hend =>
        cases h
        rw [List.isEmpty_iff.mp hend]
        exact ⟨dir, [], part, rfl, rfl⟩
      · cases h
    · split at h <;> cases h

theorem isYaml_of_locate (h : t.locate path = .ok ⟨names, some (.file content)⟩) :
    ∃ above last, names = above ++ [last] ∧ Load.isYaml path = Load.isYaml last := by
  unfold locate at h
  split at h
  · cases h
  obtain ⟨above, before, last, hnames, hparts⟩ := last_of_walk h
  refine ⟨above, last, hnames, ?_⟩
  rcases slash_cases path with hslash | ⟨start, name, rfl, hname⟩
  · rw [split_of_no_slash hslash, ← List.nil_append [path]] at hparts
    rw [List.singleton_inj.mp (List.append_inj' hparts rfl).2]
  · rw [split_append_slash, split_of_no_slash hname] at hparts
    rw [Load.isYaml_append_slash start hname, List.singleton_inj.mp (List.append_inj' hparts rfl).2]

theorem along_eq (hne : names ≠ []) : along names = "/" ++ Text.join "/" names := by
  induction names using List.reverseRecOn with
  | nil => exact absurd rfl hne
  | append_singleton init last ih =>
    rw [along_append]
    by_cases hinit : init = []
    · subst hinit
      show "" ++ "/" ++ last = "/" ++ String.intercalate "/" [last]
      rw [String.intercalate_singleton, String.empty_append]
    · rw [ih hinit, join_append_last hinit, ← String.append_assoc, ← String.append_assoc]

theorem Rooted.document_along (h : t.Rooted) (hread : Load.document t .on path = .ok v) :
    ∃ e ∈ t.entries, Load.document t .on ("/" ++ Text.join "/" e.1) = .ok v := by
  obtain ⟨content, hcontent, hv⟩ := bind_ok hread
  have hlocate : ∃ names, t.locate path = .ok ⟨names, some (.file content)⟩ := by
    unfold read at hcontent
    split at hcontent
    · next names content' hlocate =>
      cases hcontent
      exact ⟨names, hlocate⟩
    all_goals cases hcontent
  obtain ⟨names, hlocate⟩ := hlocate
  obtain ⟨hfound, -⟩ := h.find?_of_locate hlocate
  dsimp only at hfound
  obtain ⟨above, last, hlast, hyaml⟩ := isYaml_of_locate hlocate
  have hnames : ∀ name ∈ names, IsName name := by
    have hsaid := names_of_locate hlocate
    dsimp only at hsaid
    rw [hsaid]
    exact h.isName_of_mem_namesOf path
  have hne : names ≠ [] := by
    rw [hlast]
    exact List.append_ne_nil_of_right_ne_nil _ (List.cons_ne_nil _ _)
  have hname : '/' ∉ last.toList :=
    (hnames last (hlast ▸ List.mem_append_right _ (List.mem_singleton_self last))).no_slash
  have hmem : (names, Entry.file content) ∈ t.entries := by
    unfold locate at hlocate
    split at hlocate
    · cases hlocate
    · exact Reference.mem_entries_of_walk hlocate
  refine ⟨_, hmem, ?_⟩
  rw [← along_eq hne]
  have hsame : Load.isYaml (along names) = Load.isYaml path := by
    rw [hyaml, hlast, along_append, Load.isYaml_append_slash _ hname]
  have hroot : t.read (along names) = .ok content := by
    unfold read
    rw [h.locate_along hne hnames hfound]
  unfold Load.document
  rw [hroot, Outcome.ok_bind, hsame]
  -- only the text of a fault names the path
  have hchecked : ∀ {w : Value} {place : String}, Load.checkMap path w = .ok v → Load.checkMap place w = .ok v := by
    intro w place hw
    unfold Load.checkMap at hw ⊢
    split at hw
    · next hmap =>
      cases hw
      rw [if_pos hmap]
    · cases hw
  split at hv
  · next hyes =>
    rw [if_pos hyes]
    obtain ⟨text, htext, hv⟩ := bind_ok hv
    obtain ⟨w, hw, hv⟩ := bind_ok hv
    simp only [htext, hw, Outcome.ok_bind]
    exact hchecked hv
  · next hno =>
    rw [if_neg hno]
    obtain ⟨text, htext, hv⟩ := bind_ok hv
    obtain ⟨w, hw, hv⟩ := bind_ok hv
    simp only [htext, hw, Outcome.ok_bind]
    exact hchecked hv

end FileTree

namespace Reference

theorem document_of_load {t : FileTree} (h : (Load.load t .on path).2 = .ok v) : Load.document t .on path = .ok v := by
  unfold Load.load at h
  dsimp only at h
  split at h
  · next hdocument => rwa [hdocument]
  · cases h

theorem mem_itemRefsOfFiles {files : FileTree} (rooted : files.Rooted) {item : String}
    (read : (Load.load files .on path).2 = .ok v) (h : item ∈ itemRefs v) : item ∈ itemRefsOfFiles files := by
  obtain ⟨e, he, hdocument⟩ := rooted.document_along (document_of_load read)
  refine List.mem_flatMap.mpr ⟨e, he, ?_⟩
  rw [hdocument]
  exact h

end Reference

end Typewright
