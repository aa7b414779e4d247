import Typewright.Files.Tree
import Typewright.Proofs.Paths

/-!
# Places in a tree of files

A path is followed name by name, and it fails where a directory on the way is missing.
-/

namespace Typewright

variable {name part : String} {above parts : List String} {e : Entry} {place : Place} {names : List String}
  {path : String}

namespace Path

/-- A name that a file can have: it is not empty, leads neither to the same place nor up, and has no slash. -/
structure IsName (name : String) : Prop where
  ne_empty : name ≠ ""
  ne_dot : name ≠ "."
  ne_up : name ≠ ".."
  no_slash : '/' ∉ name.toList

/-- The names on the way after one more part of a path. -/
def goTo (names : List String) (part : String) : List String :=
  if part = "" || part = "." then names
  else if part = ".." then names.dropLast
  else names ++ [part]

theorem goTo_same (h : (part = "" || part = ".")) (names : List String) : goTo names part = names := if_pos h

theorem goTo_up (h : part = "..") (names : List String) : goTo names part = names.dropLast := by
  subst h
  rfl

theorem goTo_down (h : ¬ (part = "" || part = ".")) (hup : part ≠ "..")
    (names : List String) : goTo names part = names ++ [part] := by
  unfold goTo
  rw [if_neg h, if_neg hup]

theorem goTo_name (h : IsName name) (names : List String) : goTo names name = names ++ [name] :=
  goTo_down (by simp [h.ne_empty, h.ne_dot]) h.ne_up names

theorem foldl_goTo_names (h : ∀ name ∈ names, IsName name) (start : List String) :
    names.foldl goTo start = start ++ names := by
  induction names generalizing start with
  | nil => exact (List.append_nil start).symm
  | cons name rest ih =>
    rw [List.foldl_cons, goTo_name (h name (.head _)),
      ih fun name hname => h name (.tail _ hname), List.append_assoc, List.singleton_append]

theorem foldl_goTo_slashes (h : parts.all (· == "")) (names : List String) : parts.foldl goTo names = names := by
  induction parts with
  | nil => rfl
  | cons part rest ih =>
    rw [List.all_cons, Bool.and_eq_true] at h
    rw [List.foldl_cons, eq_of_beq h.1]
    exact ih h.2

/-! ## The pieces of a path -/

theorem split_of_no_slash (h : '/' ∉ name.toList) : Text.split '/' name = [name] := by
  unfold Text.split
  rw [Text.splitChars_of_not_mem h, List.map_singleton, String.ofList_toList]

theorem join_append_last {init : List String} (hne : init ≠ []) (last : String) :
    Text.join "/" (init ++ [last]) = Text.join "/" init ++ "/" ++ last := by
  rw [← String.toList_inj]
  unfold Text.join
  rw [String.toList_append, String.toList_append, String.toList_intercalate, String.toList_intercalate,
    List.map_append, List.map_singleton]
  induction init with
  | nil => exact absurd rfl hne
  | cons first rest ih =>
    cases rest with
    | nil => simp [List.intercalate_cons_cons]
    | cons second rest =>
      have hrest := ih nofun
      simp only [List.map_cons, List.cons_append, List.intercalate_cons_cons] at hrest ⊢
      rw [hrest]
      simp

theorem split_join (hne : names ≠ []) (h : ∀ name ∈ names, '/' ∉ name.toList) :
    Text.split '/' (Text.join "/" names) = names := by
  induction names using List.reverseRecOn with
  | nil => exact absurd rfl hne
  | append_singleton init last ih =>
    have hlast := split_of_no_slash (h last (List.mem_append_right _ (List.mem_singleton_self last)))
    by_cases hinit : init = []
    · subst hinit
      show Text.split '/' (String.intercalate "/" [last]) = [last]
      rw [String.intercalate_singleton, hlast]
    · rw [join_append_last hinit, split_append_slash, hlast,
        ih hinit fun name hname => h name (List.mem_append_left _ hname)]

/-- The names in a path, without the empty pieces between slashes. -/
def pieces (path : String) : List String :=
  (Text.split '/' path).filter (· ≠ "")

theorem pieces_append_slash (before after : String) :
    pieces (before ++ "/" ++ after) = pieces before ++ pieces after := by
  unfold pieces
  rw [split_append_slash, List.filter_append]

theorem pieces_empty : pieces "" = [] := rfl

theorem pieces_join (h : ∀ name ∈ names, IsName name) : pieces (Text.join "/" names) = names := by
  by_cases hne : names = []
  · subst hne
    rfl
  · unfold pieces
    rw [split_join hne fun name hname => (h name hname).no_slash]
    exact List.filter_eq_self.mpr fun name hname => by simpa using (h name hname).ne_empty

theorem pieces_dropWhile_slash (cs : List Char) :
    pieces (String.ofList (cs.reverse.dropWhile (· == '/')).reverse) = pieces (String.ofList cs) := by
  induction cs using List.reverseRecOn with
  | nil => rfl
  | append_singleton init c ih =>
    rw [List.reverse_append, List.reverse_singleton, List.singleton_append]
    by_cases hc : c = '/'
    · subst hc
      rw [List.dropWhile_cons_of_pos rfl, ih]
      have hslash : String.ofList (init ++ ['/']) = String.ofList init ++ "/" ++ "" := by
        rw [← String.toList_inj]
        simp
      rw [hslash, pieces_append_slash, pieces_empty, List.append_nil]
    · rw [List.dropWhile_cons_of_neg (by simpa using hc), List.reverse_cons, List.reverse_reverse]

theorem directory_pieces {before : String} (h : '/' ∉ name.toList) :
    pieces (directory (before ++ "/" ++ name)) = pieces before := by
  have hsplit : splitLast (before ++ "/" ++ name) = (before.toList ++ ['/'], name.toList) :=
    splitLast_eq (by simp) (.inr ⟨_, rfl⟩) h
  have hhead : String.ofList (before.toList ++ ['/']) = before ++ "/" ++ "" := by
    rw [← String.toList_inj]
    simp
  have hslash : pieces (String.ofList (before.toList ++ ['/'])) = pieces before := by
    rw [hhead, pieces_append_slash, pieces_empty, List.append_nil]
  unfold directory
  rw [hsplit]
  dsimp only
  split
  · exact hslash
  · exact (pieces_dropWhile_slash _).trans hslash

/-! ## The normal form of a path from the root -/

theorem addName_reverse (h : ".." ∉ names) (part : String) :
    (addName true names part).reverse = goTo names.reverse part ∧ ".." ∉ addName true names part := by
  unfold addName goTo
  by_cases hsame : (part = "" || part = ".")
  · rw [if_pos hsame, if_pos hsame]
    exact ⟨rfl, h⟩
  rw [if_neg hsame, if_neg hsame]
  by_cases hup : part = ".."
  · rw [if_neg (not_not.mpr hup), if_pos hup]
    split
    · exact ⟨rfl, h⟩
    · exact absurd (.head _) h
    · rw [List.reverse_cons, List.dropLast_concat]
      exact ⟨rfl, fun hmem => h (.tail _ hmem)⟩
  · rw [if_pos hup, if_neg hup, List.reverse_cons]
    exact ⟨rfl, List.not_mem_cons_of_ne_of_not_mem (Ne.symm hup) h⟩

theorem foldl_addName (h : ".." ∉ names) :
    (parts.foldl (addName true) names).reverse = parts.foldl goTo names.reverse := by
  induction parts generalizing names with
  | nil => rfl
  | cons part rest ih =>
    obtain ⟨hstep, hkept⟩ := addName_reverse h part
    rw [List.foldl_cons, List.foldl_cons, ih hkept, hstep]

theorem isName_of_mem_foldl (hparts : ∀ part ∈ parts, '/' ∉ part.toList)
    (h : ∀ name ∈ names, IsName name) : ∀ name ∈ parts.foldl goTo names, IsName name := by
  induction parts generalizing names with
  | nil => exact h
  | cons part rest ih =>
    refine ih (fun part hpart => hparts part (.tail _ hpart)) fun name hname => ?_
    unfold goTo at hname
    split at hname
    · exact h name hname
    · next hsame =>
      simp only [Bool.or_eq_true, decide_eq_true_eq, not_or] at hsame
      split at hname
      · exact h name (List.mem_of_mem_dropLast hname)
      · next hup =>
        rcases List.mem_append.mp hname with hname | hname
        · exact h name hname
        · rw [List.mem_singleton.mp hname]
          exact ⟨hsame.1, hsame.2, hup, hparts part (.head _)⟩

theorem slash_not_mem_split (h : part ∈ Text.split '/' path) : '/' ∉ part.toList := by
  obtain ⟨piece, hpiece, rfl⟩ := List.mem_map.mp h
  rw [String.toList_ofList]
  exact Text.not_mem_of_mem_splitChars hpiece

def namesFromRoot (path : String) : List String :=
  (Text.split '/' path).foldl goTo []

theorem isName_of_mem_namesFromRoot (h : name ∈ namesFromRoot path) : IsName name :=
  isName_of_mem_foldl (fun _ => slash_not_mem_split) (fun _ h => absurd h List.not_mem_nil) name h

theorem normal_of_rooted (h : Text.startsWith path "/") :
    ∃ lead, (lead = "/" ∨ lead = "//") ∧ normal path = lead ++ Text.join "/" (namesFromRoot path) := by
  obtain ⟨rest, hrest⟩ := List.isPrefixOf_iff_prefix.mp h
  have hslashes : 0 < (path.toList.takeWhile (· == '/')).length := by
    rw [← hrest]
    simp
  have hnames : ((Text.split '/' path).foldl (addName true) []).reverse = namesFromRoot path :=
    foldl_addName List.not_mem_nil
  unfold normal
  simp only [hslashes, decide_true, if_true, hnames]
  split
  · refine ⟨"//", .inr rfl, if_neg ?_⟩
    simp
  · refine ⟨"/", .inl rfl, if_neg ?_⟩
    simp

theorem pieces_directory_normal (h : Text.startsWith path "/") :
    pieces (directory (normal path)) = (namesFromRoot path).dropLast := by
  obtain ⟨lead, hlead, hnormal⟩ := normal_of_rooted h
  have hnames : ∀ name ∈ namesFromRoot path, IsName name := fun _ => isName_of_mem_namesFromRoot
  rw [hnormal]
  generalize namesFromRoot path = names at hnames
  rcases List.eq_nil_or_concat' names with rfl | ⟨init, last, rfl⟩
  · rcases hlead with rfl | rfl <;> decide +kernel
  have hlast := hnames last (List.mem_append_right _ (List.mem_singleton_self last))
  have hinit : ∀ name ∈ init, IsName name := fun name hname => hnames name (List.mem_append_left _ hname)
  have hlead' : ∃ start, lead = start ++ "/" ∧ pieces start = [] := by
    rcases hlead with rfl | rfl
    · exact ⟨"", rfl, rfl⟩
    · exact ⟨"/", rfl, by decide +kernel⟩
  obtain ⟨start, rfl, hstart⟩ := hlead'
  rw [List.dropLast_concat]
  by_cases hne : init = []
  · subst hne
    show pieces (directory (start ++ "/" ++ String.intercalate "/" [last])) = []
    rw [String.intercalate_singleton, directory_pieces hlast.no_slash, hstart]
  · rw [join_append_last hne, ← String.append_assoc, ← String.append_assoc,
      directory_pieces hlast.no_slash, pieces_append_slash, hstart, List.nil_append, pieces_join hinit]

theorem foldl_goTo_join (dir : String) (h : Text.startsWith path "/" = false) (start : List String) :
    (Text.split '/' (join dir path)).foldl goTo start =
      (Text.split '/' path).foldl goTo ((Text.split '/' dir).foldl goTo start) := by
  unfold join
  rw [h, if_neg Bool.false_ne_true]
  split
  · next hdir =>
    rcases Bool.or_eq_true_iff.mp hdir with hempty | hslash
    · rw [String.isEmpty_iff.mp hempty, String.empty_append]
      rfl
    obtain ⟨before, hbefore⟩ := List.isSuffixOf_iff_suffix.mp hslash
    have hdir : dir = String.ofList before ++ "/" ++ "" := by
      rw [← String.toList_inj]
      simpa using hbefore.symm
    have hpath : dir ++ path = String.ofList before ++ "/" ++ path := by
      rw [hdir, String.append_empty]
    rw [hpath, split_append_slash, hdir, split_append_slash, List.foldl_append, List.foldl_append]
    rfl
  · rw [split_append_slash, List.foldl_append]

end Path

open Path

namespace FileTree

variable {t t' : FileTree} {names dir : List String} {path : String}

/-! ## Entries -/

theorem find?_put_of_ne (t : FileTree) {other : List String} (hne : other ≠ names) (e : Entry) :
    (t.put names e).find? other = t.find? other := by
  have hput : ∀ x : List String × Entry, ((fun y : List String × Entry => y.1 == other) ∘
        fun x => if x.1 == names then (x.1, e) else x) x = (x.1 == other) := by
    intro x
    simp only [Function.comp]
    split <;> rfl
  unfold put find?
  split
  · rfl
  split
  · rw [List.find?_map, funext hput]
    cases hfound : t.entries.find? (fun x => x.1 == other) with
    | none => rfl
    | some x =>
      have hx : x.1 = other := by simpa using List.find?_some hfound
      simp [hx, hne]
  · have hlast : (names == other) = false := beq_false_of_ne (Ne.symm hne)
    simp [List.find?_append, hlast]

/-- The names that a path says, seen from the working directory. -/
def namesOf (t : FileTree) (path : String) : List String :=
  (Text.split '/' path).foldl goTo (if Text.startsWith path "/" then [] else t.cwd)

theorem names_of_walk (h : t.walk dir parts = .ok place) : place.names = parts.foldl goTo dir := by
  induction parts generalizing dir with
  | nil =>
    cases h
    rfl
  | cons part rest ih =>
    rw [List.foldl_cons]
    unfold walk at h
    split at h
    · next hsame => rw [goTo_same hsame, ih h]
    · next hsame =>
      split at h
      · next hup => rw [goTo_up hup, ih h]
      · next hup =>
        rw [goTo_down hsame hup]
        dsimp only at h
        split at h
        · exact ih h
        · split at h
          · next hend =>
            cases h
            rw [List.isEmpty_iff.mp hend]
            rfl
          · cases h
        · split at h
          · next hend =>
            cases h
            exact (foldl_goTo_slashes hend _).symm
          · cases h

theorem names_of_locate (h : t.locate path = .ok place) : place.names = t.namesOf path := by
  unfold locate at h
  split at h
  · cases h
  · exact names_of_walk h

/-! ## Rooted trees -/

/-- All that is in the tree lies in a directory, up to the root. So does the working directory, whose names
are names of files. -/
structure Rooted (t : FileTree) : Prop where
  parent : ∀ names e, t.find? names = some e → t.find? names.dropLast = some .directory
  cwd : t.find? t.cwd = some .directory
  proper : ∀ name ∈ t.cwd, IsName name

theorem rooted_of_entries (entries : ∀ x ∈ t.entries, t.find? x.1.dropLast = some .directory)
    (cwd : t.find? t.cwd = some .directory) (proper : ∀ name ∈ t.cwd, IsName name) : t.Rooted := by
  refine ⟨fun names e h => ?_, cwd, proper⟩
  unfold find? at h
  split at h
  · next hempty =>
    rw [List.isEmpty_iff.mp hempty]
    rfl
  obtain ⟨x, hx, -⟩ := Option.map_eq_some_iff.mp h
  have hnames : x.1 = names := by simpa using List.find?_some hx
  rw [← hnames]
  exact entries x (List.mem_of_find?_eq_some hx)

theorem Rooted.of_above (h : t.Rooted) (hstart : above <+: names)
    (hne : above ≠ names) (there : t.find? names = some e) : t.find? above = some .directory := by
  induction names using List.reverseRecOn generalizing e with
  | nil => exact absurd (List.prefix_nil.mp hstart) hne
  | append_singleton init last ih =>
    have hinit := h.parent _ _ there
    rw [List.dropLast_concat] at hinit
    rcases List.prefix_concat_iff.mp hstart with heq | hstart
    · exact absurd heq hne
    · by_cases heq : above = init
      · exact heq ▸ hinit
      · exact ih hstart heq hinit

theorem Rooted.find?_of_walk (h : t.Rooted)
    (hdir : t.find? dir = some .directory) (hwalk : t.walk dir parts = .ok place) : t.find? place.names = place.entry ∧
      (place.entry = none → t.find? place.names.dropLast = some .directory) := by
  induction parts generalizing dir with
  | nil =>
    cases hwalk
    exact ⟨hdir, nofun⟩
  | cons part rest ih =>
    unfold walk at hwalk
    split at hwalk
    · exact ih hdir hwalk
    split at hwalk
    · exact ih (h.parent _ _ hdir) hwalk
    dsimp only at hwalk
    split at hwalk
    · next hfound => exact ih hfound hwalk
    · next hfound =>
      split at hwalk
      · cases hwalk
        exact ⟨hfound, nofun⟩
      · cases hwalk
    · next hfound =>
      split at hwalk
      · cases hwalk
        refine ⟨hfound, fun _ => ?_⟩
        rw [List.dropLast_concat]
        exact hdir
      · cases hwalk

theorem Rooted.find?_of_locate (h : t.Rooted) (hlocate : t.locate path = .ok place) :
    t.find? place.names = place.entry ∧ (place.entry = none → t.find? place.names.dropLast = some .directory) := by
  unfold locate at hlocate
  split at hlocate
  · cases hlocate
  refine h.find?_of_walk ?_ hlocate
  split
  · rfl
  · exact h.cwd

theorem put_cwd (t : FileTree) (names : List String) (e : Entry) : (t.put names e).cwd = t.cwd := by
  unfold put
  split <;> rfl

theorem Rooted.put (h : t.Rooted) (hparent : t.find? names.dropLast = some .directory)
    (free : t.find? names ≠ some .directory) : (t.put names e).Rooted := by
  have hkeep : ∀ {other}, t.find? other = some .directory → (t.put names e).find? other = some .directory := by
    intro other hother
    have hne : other ≠ names := by
      rintro rfl
      exact free hother
    rw [find?_put_of_ne t hne]
    exact hother
  refine ⟨fun other x hother => ?_, ?_, ?_⟩
  · by_cases heq : other = names
    · exact hkeep (heq ▸ hparent)
    · rw [find?_put_of_ne t heq] at hother
      exact hkeep (h.parent _ _ hother)
  · rw [put_cwd]
    exact hkeep h.cwd
  · rw [put_cwd]
    exact h.proper

/-! ## Making directories -/

/-- The tree has all that the other one has, in the same places, and is rooted again. -/
structure Grows (t t' : FileTree) : Prop where
  keeps : ∀ names e, t.find? names = some e → t'.find? names = some e
  cwd : t'.cwd = t.cwd
  rooted : t'.Rooted

theorem Grows.refl (h : t.Rooted) : t.Grows t := ⟨fun _ _ h => h, rfl, h⟩

theorem Grows.trans {t'' : FileTree} (h : t.Grows t') (h' : t'.Grows t'') : t.Grows t'' :=
  ⟨fun names e hfound => h'.keeps names e (h.keeps names e hfound), h'.cwd.trans h.cwd, h'.rooted⟩

theorem Rooted.grows_put (h : t.Rooted) (hlocate : t.locate path = .ok ⟨names, none⟩)
    (e : Entry) : t.Grows (t.put names e) := by
  obtain ⟨hfree, hparent⟩ := h.find?_of_locate hlocate
  dsimp only at hfree hparent
  refine ⟨fun other x hother => ?_, put_cwd t names e, h.put (hparent rfl) (by rw [hfree]; exact nofun)⟩
  rw [find?_put_of_ne]
  · exact hother
  · rintro rfl
    cases hfree.symm.trans hother

theorem Rooted.makeDirectory_grows (h : t.Rooted) (hmade : t.makeDirectory path = .ok t') : t.Grows t' := by
  unfold makeDirectory at hmade
  split at hmade
  · cases hmade
  · next names hlocate =>
    cases hmade
    exact h.grows_put hlocate .directory
  · cases hmade

theorem Rooted.makeAll_grows (h : t.Rooted) (above : String) (names : List String) :
    t.Grows (makeAll above names t).2 := by
  induction names generalizing above t with
  | nil => exact .refl h
  | cons name rest ih =>
    have hhere : ∀ t', (if t.hasDirectory (above ++ "/" ++ name) then .ok t
        else if t.has (above ++ "/" ++ name) && !rest.isEmpty then .ok t
        else t.makeDirectory (above ++ "/" ++ name)) = .ok t' → t.Grows t' := by
      intro t' ht'
      split at ht'
      · cases ht'
        exact .refl h
      split at ht'
      · cases ht'
        exact .refl h
      · exact h.makeDirectory_grows ht'
    unfold makeAll
    dsimp only
    split
    · next t' ht' => exact (hhere t' ht').trans (ih (hhere t' ht').rooted _)
    · exact .refl h

theorem Rooted.makeParents_grows (h : t.Rooted) (path : String) : t.Grows (t.makeParents path).2 :=
  h.makeAll_grows _ _

/-! ## What lies at a path from the root -/

theorem walk_of_there (hne : names ≠ []) (hnames : ∀ name ∈ names, IsName name)
    (habove : ∀ above, above <+: names → above ≠ names → t.find? (dir ++ above) = some .directory)
    (hthere : t.find? (dir ++ names) = some e) : t.walk dir names = .ok ⟨dir ++ names, some e⟩ := by
  induction names generalizing dir with
  | nil => exact absurd rfl hne
  | cons name rest ih =>
    have hname := hnames name (.head _)
    unfold walk
    rw [if_neg (by simp [hname.ne_empty, hname.ne_dot]), if_neg hname.ne_up]
    dsimp only
    by_cases hrest : rest = []
    · subst hrest
      rw [hthere]
      cases e with
      | file content => rfl
      | directory =>
        dsimp only
        rw [walk]
    have hfound := habove [name] (List.cons_prefix_cons.mpr ⟨rfl, List.nil_prefix⟩) (by simpa using Ne.symm hrest)
    have happend : dir ++ name :: rest = (dir ++ [name]) ++ rest := by simp
    rw [hfound]
    dsimp only
    rw [happend] at hthere ⊢
    refine ih hrest (fun name hmem => hnames name (.tail _ hmem)) ?_ hthere
    intro above hstart hneq
    have hup := habove (name :: above) (List.cons_prefix_cons.mpr ⟨rfl, hstart⟩) (by simpa using hneq)
    rwa [List.append_assoc, List.singleton_append]

/-- The path that goes from the root along names. -/
def along (names : List String) : String :=
  names.foldl (fun path name => path ++ "/" ++ name) ""

theorem along_append (names : List String) (name : String) : along (names ++ [name]) = along names ++ "/" ++ name := by
  unfold along
  rw [List.foldl_append]
  rfl

theorem split_along (h : ∀ name ∈ names, IsName name) : Text.split '/' (along names) = "" :: names := by
  induction names using List.reverseRecOn with
  | nil => rfl
  | append_singleton init last ih =>
    have hlast := h last (List.mem_append_right _ (List.mem_singleton_self last))
    rw [along_append, split_append_slash, ih fun name hname => h name (List.mem_append_left _ hname),
      split_of_no_slash hlast.no_slash]
    rfl

theorem startsWith_along (hne : names ≠ []) : Text.startsWith (along names) "/" := by
  induction names using List.reverseRecOn with
  | nil => exact absurd rfl hne
  | append_singleton init last ih =>
    rw [along_append]
    refine List.isPrefixOf_iff_prefix.mpr ?_
    by_cases hinit : init = []
    · subst hinit
      exact ⟨last.toList, by simp [along]⟩
    · obtain ⟨rest, hrest⟩ := List.isPrefixOf_iff_prefix.mp (ih hinit)
      exact ⟨rest ++ '/' :: last.toList, by rw [← List.append_assoc, hrest]; simp⟩

theorem Rooted.locate_along (h : t.Rooted) (hne : names ≠ [])
    (hnames : ∀ name ∈ names, IsName name) (there : t.find? names = some e) :
    t.locate (along names) = .ok ⟨names, some e⟩ := by
  have hstart := startsWith_along hne
  have hempty : (along names).isEmpty = false := by
    rw [Bool.eq_false_iff]
    intro hempty
    rw [String.isEmpty_iff.mp hempty] at hstart
    cases hstart
  have hskip : t.walk [] ("" :: names) = t.walk [] names := rfl
  unfold locate
  rw [hempty, if_neg Bool.false_ne_true, hstart, if_pos rfl, split_along hnames, hskip]
  exact walk_of_there hne hnames (fun above hstart hneq => h.of_above hstart hneq there) there

theorem Rooted.makeAll_of_directories (h : t.Rooted) (hnames : ∀ name ∈ above ++ names, IsName name)
    (hthere : ∀ up, up <+: above ++ names → t.find? up = some .directory) :
    makeAll (along above) names t = (.ok (), t) := by
  induction names generalizing above with
  | nil => rfl
  | cons name rest ih =>
    have happend : above ++ name :: rest = (above ++ [name]) ++ rest := by simp
    rw [happend] at hnames hthere
    have hhere : t.hasDirectory (along above ++ "/" ++ name) := by
      have hne : above ++ [name] ≠ [] := List.append_ne_nil_of_right_ne_nil _ (List.cons_ne_nil _ _)
      unfold hasDirectory
      rw [← along_append, h.locate_along hne (fun name hname => hnames name (List.mem_append_left _ hname))
        (hthere _ (List.prefix_append _ _))]
      rfl
    unfold makeAll
    dsimp only
    rw [if_pos hhere, ← along_append]
    exact ih hnames hthere

theorem namesFromRoot_cwdPath (h : ∀ name ∈ t.cwd, IsName name) : namesFromRoot t.cwdPath = t.cwd := by
  have hsplit : Text.split '/' t.cwdPath = "" :: Text.split '/' (Text.join "/" t.cwd) := by
    have hpath : t.cwdPath = "" ++ "/" ++ Text.join "/" t.cwd := rfl
    rw [hpath, split_append_slash]
    rfl
  unfold namesFromRoot
  rw [hsplit, List.foldl_cons, goTo_same rfl]
  by_cases hne : t.cwd = []
  · rw [hne]
    rfl
  · rw [split_join hne fun name hname => (h name hname).no_slash, foldl_goTo_names h, List.nil_append]

theorem pieces_directory_absolute (h : ∀ name ∈ t.cwd, IsName name) (path : String) :
    pieces (Path.directory (Path.absolute t.cwdPath path)) = (t.namesOf path).dropLast := by
  unfold Path.absolute namesOf
  cases hstart : Text.startsWith path "/" with
  | true =>
    rw [if_pos rfl, if_pos rfl]
    exact pieces_directory_normal hstart
  | false =>
    have hjoin : Text.startsWith (Path.join t.cwdPath path) "/" := by
      have hcwd : ∀ rest : String, Text.startsWith (t.cwdPath ++ rest) "/" := by
        intro rest
        refine List.isPrefixOf_iff_prefix.mpr ⟨(Text.join "/" t.cwd ++ rest).toList, ?_⟩
        simp [cwdPath]
      unfold Path.join
      rw [hstart, if_neg Bool.false_ne_true]
      split
      · exact hcwd path
      · rw [String.append_assoc]
        exact hcwd _
    rw [if_neg Bool.false_ne_true, if_neg Bool.false_ne_true, pieces_directory_normal hjoin]
    unfold namesFromRoot
    rw [foldl_goTo_join _ hstart]
    exact congrArg (fun start => (List.foldl goTo start (Text.split '/' path)).dropLast) (namesFromRoot_cwdPath h)

theorem Rooted.isName_of_mem_namesOf (h : t.Rooted) (path : String) : ∀ name ∈ t.namesOf path, IsName name := by
  refine isName_of_mem_foldl (fun _ => slash_not_mem_split) ?_
  split
  · exact fun _ hname => absurd hname List.not_mem_nil
  · exact h.proper

theorem Rooted.makeParents_of_there (h : t.Rooted) (there : t.find? (t.namesOf path) = some e) :
    t.makeParents path = (.ok (), t) := by
  have hmade : t.makeParents path = makeAll (along []) (t.namesOf path).dropLast t := by
    rw [← pieces_directory_absolute h.proper]
    rfl
  rw [hmade]
  refine h.makeAll_of_directories
    (fun name hname => h.isName_of_mem_namesOf path name (List.mem_of_mem_dropLast hname)) ?_
  intro up hstart
  have hparent := h.parent _ _ there
  rw [List.nil_append] at hstart
  by_cases heq : up = (t.namesOf path).dropLast
  · exact heq ▸ hparent
  · exact h.of_above hstart heq hparent

end FileTree

end Typewright
