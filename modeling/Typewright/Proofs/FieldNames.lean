import Typewright.Proofs.ConstantNames
import Typewright.Proofs.SurvivedNames

/-!
# Letters of field names

Cutting a name into words and raising them loses none of its letters and digits, and adds none.
-/

namespace Typewright.Naming

open Text

variable {c : Char} {cs word text : List Char} {name : String}

theorem toUpper_ascii (h : c.toNat < 128) :
    c.toUpper.toNat < 128 ∧ c.toUpper.isLower = false ∧ c.toUpper.toLower = c.toLower :=
  forall_ascii (by decide +kernel) h

/-! ## Cutting at humps -/

theorem isSmallOrDigit_or_isCapital (h : c.isAlphanum) : isSmallOrDigit c ∨ isCapital c := by
  rw [isAlphanum_iff] at h
  simp only [isSmallOrDigit, isCapital, Bool.or_eq_true]
  tauto

theorem dropLast_append_toList (cs : List Char) : cs.dropLast ++ cs.getLast?.toList = cs := by
  cases hlast : cs.getLast? with
  | none => rw [List.getLast?_eq_none_iff.mp hlast]; rfl
  | some c => exact List.dropLast_append_getLast? c hlast

/-- The words of a name of letters and digits are the name. -/
theorem flatten_humpWords (h : ∀ c ∈ cs, c.isAlphanum) : (humpWords cs).flatten = cs := by
  have hdrop : ∀ {p : Char → Bool} {c : Char} {rest : List Char}, (∀ d ∈ c :: rest, d.isAlphanum) →
      ∀ d ∈ rest.dropWhile p, d.isAlphanum :=
    fun h d hd => h d (.tail _ ((List.dropWhile_sublist _).subset hd))
  fun_induction humpWords cs with
  | case1 => rfl
  | case2 c rest hsmall ih | case3 c rest hsmall hcapital hnext ih | case4 c rest hsmall hcapital hnext more after hend ih =>
    rw [List.flatten_cons, ih (hdrop h), List.cons_append, List.takeWhile_append_dropWhile]
  | case5 c rest hsmall hcapital hnext more after hend hnone ih =>
    -- what follows a single capital is small, or there is nothing
    cases rest with
    | nil => exact absurd rfl hend
    | cons d rest =>
      rcases isSmallOrDigit_or_isCapital (h d (.tail _ (.head _))) with hd | hd
      · exact absurd hd hnext
      · simp [more, hd] at hnone
  | case6 c rest hsmall hcapital hnext more after hend hmore ih =>
    have hrest : ∀ d ∈ more.getLast?.toList ++ after, d.isAlphanum := by
      intro d hd
      rcases List.mem_append.mp hd with hd | hd
      · have hlast : d ∈ more := List.mem_of_getLast? (Option.mem_toList.mp hd)
        exact h d (.tail _ ((List.takeWhile_sublist _).subset hlast))
      · exact hdrop h d hd
    rw [List.flatten_cons, ih hrest, List.cons_append, ← List.append_assoc, dropLast_append_toList,
      List.takeWhile_append_dropWhile]
  | case7 c rest hsmall hcapital ih =>
    exact absurd (isSmallOrDigit_or_isCapital (h c (.head _))) (by simp [hsmall, hcapital])

/-! ## Raising words -/

/-- The text is the word with some of its letters raised, the first one among them. -/
structure Raised (word text : List Char) : Prop where
  lower_eq : text.map Char.toLower = word.map Char.toLower
  ascii : ∀ c ∈ text, c.toNat < 128
  first : ∀ c, text.head? = some c → c.isLower = false

theorem Raised.append {words texts : List Char} (h : Raised word text) (hne : word ≠ []) (h' : Raised words texts) :
    Raised (word ++ words) (text ++ texts) := by
  refine ⟨?_, List.forall_mem_append.mpr ⟨h.ascii, h'.ascii⟩, fun c hc => h.first c ?_⟩
  · rw [List.map_append, List.map_append, h.lower_eq, h'.lower_eq]
  · cases text with
    | nil => exact absurd (List.map_eq_nil_iff.mp h.lower_eq.symm) hne
    | cons d rest => exact hc

theorem acronym_raised : ∀ e ∈ acronyms, e.2.toList.map Char.toLower = e.1.toList ∧
    ∀ c ∈ e.2.toList, c.toNat < 128 ∧ c.isLower = false := by
  simp only [← List.forall_iff_forall_mem]
  decide

theorem raised_toUpper (h : ∀ d ∈ c :: cs, d.toNat < 128) : Raised (c :: cs) (c.toUpper :: cs) := by
  obtain ⟨hascii, hfirst, hlower⟩ := toUpper_ascii (h c (.head _))
  refine ⟨?_, List.forall_mem_cons.mpr ⟨hascii, fun d hd => h d (.tail _ hd)⟩, ?_⟩
  · rw [List.map_cons, List.map_cons, hlower]
  · rintro d ⟨⟩
    exact hfirst

theorem exists_fieldWord (hne : word ≠ []) (h : ∀ c ∈ word, c.toNat < 128) :
    ∃ text, fieldWord (String.ofList word) = .ok text ∧ Raised word text.toList := by
  unfold fieldWord
  cases hfound : acronyms.find? (·.1 == lower (String.ofList word))
  case some e =>
    obtain ⟨hsame, hcapitals⟩ := acronym_raised e (List.mem_of_find?_eq_some hfound)
    have hkey : e.1 = lower (String.ofList word) := by simpa using List.find?_some hfound
    refine ⟨e.2, rfl, ?_, fun c hc => (hcapitals c hc).1, fun c hc => (hcapitals c (List.mem_of_head? hc)).2⟩
    rw [hsame, hkey, lower_ascii (by rwa [String.toList_ofList]), String.toList_ofList, String.toList_ofList]
  obtain ⟨c, rest, rfl⟩ := List.exists_cons_of_ne_nil hne
  have htext : (upperFirst (String.ofList (c :: rest))).toList = c.toUpper :: rest := by
    rw [upperFirst, String.toList_ofList, String.toList_ofList]
    show upperChar c ++ rest = _
    rw [upperChar, if_pos (h c (.head _))]
    rfl
  exact ⟨_, if_neg (by simp), htext ▸ raised_toUpper h⟩

theorem exists_fieldWords {words : List (List Char)} (hne : [] ∉ words) (h : ∀ word ∈ words, ∀ c ∈ word, c.toNat < 128) :
    ∃ texts, (words.map String.ofList).mapM fieldWord = .ok texts ∧ Raised words.flatten (join "" texts).toList := by
  induction words with
  | nil => exact ⟨[], rfl, rfl, nofun, nofun⟩
  | cons word rest ih =>
    rw [List.mem_cons, not_or] at hne
    obtain ⟨text, htext, hraised⟩ := exists_fieldWord (Ne.symm hne.1) (h word (.head _))
    obtain ⟨texts, htexts, hrest⟩ := ih hne.2 fun word hword => h word (.tail _ hword)
    refine ⟨text :: texts, ?_, ?_⟩
    · rw [List.map_cons, List.mapM_cons, htext, htexts]
      rfl
    · rw [toList_join_empty] at hrest ⊢
      exact hraised.append (Ne.symm hne.1) hrest

/-! ## Fields -/

theorem flatten_fieldPieces (h : ∀ c ∈ name.toList, isAsciiWord c) :
    (fieldPieces name).flatten = name.toList.filter (· != '_') := by
  unfold fieldPieces
  split
  · exact flatten_splitChars '_' name.toList
  · next hmark =>
    have hne : ∀ c ∈ name.toList, c ≠ '_' := fun c hc heq => hmark (heq ▸ hc)
    rw [List.filter_eq_self.mpr fun c hc => bne_iff_ne.mpr (hne c hc)]
    exact flatten_humpWords fun c hc => by simpa [isAsciiWord, hne c hc] using h c hc

theorem nil_notMem_fieldPieces (h : Worded name) : [] ∉ fieldPieces name := by
  unfold fieldPieces
  split
  · exact h
  · exact nil_notMem_humpWords _

theorem filter_ne_nil_of_worded (h : Worded name) : name.toList.filter (· != '_') ≠ [] := by
  intro hnil
  rw [← flatten_splitChars, List.flatten_eq_nil_iff] at hnil
  obtain ⟨piece, pieces, hpieces⟩ := List.exists_cons_of_ne_nil (splitChars_ne_nil '_' name.toList)
  have hpiece : piece ∈ splitChars '_' name.toList := hpieces ▸ .head _
  exact h (hnil piece hpiece ▸ hpiece)

/-- The field of a name of ASCII letters, digits and underscores without empty words has no underscore and starts with
no small letter, and in small letters it is the name without its underscores. -/
theorem fieldName_keeps_letters (hword : ∀ c ∈ name.toList, isAsciiWord c) (hworded : Worded name) :
    ∃ text, fieldName (.str name) = .ok text ∧ '_' ∉ text.toList ∧
      (∃ c rest, text.toList = c :: rest ∧ c.isLower = false) ∧ lower text = without '_' (lower name) := by
  have hascii : ∀ c ∈ name.toList, c.toNat < 128 := fun c hc => toNat_lt_of_isAsciiWord (hword c hc)
  have hflat := flatten_fieldPieces hword
  have hkept : ∀ c ∈ name.toList.filter (· != '_'), c.toNat < 128 ∧ c ≠ '_' := fun c hc =>
    ⟨hascii c (List.mem_filter.mp hc).1, bne_iff_ne.mp (List.mem_filter.mp hc).2⟩
  obtain ⟨texts, htexts, hraised⟩ := exists_fieldWords (nil_notMem_fieldPieces hworded) fun word hpiece c hc =>
    (hkept c (hflat ▸ List.mem_flatten.mpr ⟨word, hpiece, hc⟩)).1
  rw [hflat] at hraised
  refine ⟨join "" texts, by rw [fieldName_str, htexts]; rfl, fun hmark => ?_, ?_, ?_⟩
  · have hmem : '_' ∈ (join "" texts).toList.map Char.toLower := List.mem_map.mpr ⟨'_', hmark, rfl⟩
    rw [hraised.lower_eq] at hmem
    obtain ⟨c, hc, heq⟩ := List.mem_map.mp hmem
    exact (hkept c hc).2 ((toLower_ascii (hkept c hc).1).2.2.mp heq)
  · cases htext : (join "" texts).toList with
    | nil =>
      have hnone := hraised.lower_eq
      rw [htext] at hnone
      exact absurd (List.map_eq_nil_iff.mp hnone.symm) (filter_ne_nil_of_worded hworded)
    | cons c rest => exact ⟨c, rest, rfl, hraised.first c (by rw [htext]; rfl)⟩
  · rw [lower_ascii hraised.ascii, lower_ascii hascii, without, String.toList_ofList, hraised.lower_eq,
      filter_map_toLower hascii]

theorem fieldName_keeps_letters_userId : ∃ text, fieldName (.str "user_HTTPId2") = .ok text ∧ '_' ∉ text.toList ∧
      (∃ c rest, text.toList = c :: rest ∧ c.isLower = false) ∧ lower text = "userhttpid2" := by
  have h := @fieldName_keeps_letters "user_HTTPId2" (List.all_eq_true.mp (by decide)) (by unfold Worded; decide)
  exact h

end Typewright.Naming
