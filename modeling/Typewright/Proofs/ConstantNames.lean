import Typewright.Naming.ConstantCase
import Typewright.Proofs.TextParts
import Mathlib.Data.List.TakeWhile
import Mathlib.Logic.Function.Iterate

/-!
# Words of constants

What constant case keeps of a name, and so which names it takes to one.
-/

namespace Typewright

variable {word : List Char} {words : List (List Char)} {name : String}

namespace Text

variable {mark c : Char} {p : Char → Bool} {cs ds : List Char}

/-! ## Words between marks -/

def wordsBetween (mark : Char) (cs : List Char) : List (List Char) :=
  (splitChars mark cs).filter (!·.isEmpty)

@[simp] theorem wordsBetween_nil : wordsBetween mark [] = [] := rfl

theorem wordsBetween_append (mark : Char) (cs ds : List Char) :
    wordsBetween mark (cs ++ mark :: ds) = wordsBetween mark cs ++ wordsBetween mark ds := by
  unfold wordsBetween
  rw [splitChars_append, List.filter_append]

@[simp] theorem wordsBetween_mark (mark : Char) (cs : List Char) :
    wordsBetween mark (mark :: cs) = wordsBetween mark cs :=
  wordsBetween_append mark [] cs

theorem wordsBetween_of_not_mem (h : mark ∉ cs) (hne : cs ≠ []) : wordsBetween mark cs = [cs] := by
  unfold wordsBetween
  rw [splitChars_of_not_mem h, List.filter_cons_of_pos (by simpa using hne), List.filter_nil]

theorem word_of_mem (h : word ∈ wordsBetween mark cs) : word ≠ [] ∧ mark ∉ word := by
  obtain ⟨hpiece, hne⟩ := List.mem_filter.mp h
  refine ⟨?_, not_mem_of_mem_splitChars hpiece⟩
  rintro rfl
  cases hne

theorem wordsBetween_intercalate (h : ∀ word ∈ words, word ≠ [] ∧ mark ∉ word) :
    wordsBetween mark ([mark].intercalate words) = words := by
  induction words with
  | nil => rfl
  | cons word rest ih =>
    obtain ⟨hne, hmark⟩ := h word (.head _)
    have hrest := ih fun other hother => h other (.tail _ hother)
    cases rest with
    | nil => rw [List.intercalate_singleton, wordsBetween_of_not_mem hmark hne]
    | cons next rest =>
      rw [List.intercalate_cons_cons, List.append_assoc, List.singleton_append, wordsBetween_append,
        wordsBetween_of_not_mem hmark hne, hrest]
      rfl

theorem flatten_splitChars (mark : Char) (cs : List Char) : (splitChars mark cs).flatten = cs.filter (· != mark) := by
  induction cs with
  | nil => rfl
  | cons c rest ih =>
    rw [splitChars]
    split
    · next hc =>
      rw [List.flatten_cons, List.nil_append, ih, List.filter_cons_of_neg (by simp [hc])]
    · next hc =>
      cases hrest : splitChars mark rest with
      | nil => exact absurd hrest (splitChars_ne_nil mark rest)
      | cons piece pieces =>
        rw [hrest] at ih
        rw [List.filter_cons_of_pos (by simpa using hc), ← ih]
        rfl

theorem flatten_wordsBetween (mark : Char) (cs : List Char) :
    (wordsBetween mark cs).flatten = cs.filter (· != mark) := by
  rw [wordsBetween, List.flatten_filter_not_isEmpty, flatten_splitChars]

/-! ## What squeezing and trimming keep -/

theorem wordsBetween_replaceChars (mark : Char) (before cs : List Char) :
    wordsBetween mark (before ++ replaceChars [mark, mark] [mark] cs) = wordsBetween mark (before ++ cs) := by
  fun_induction replaceChars [mark, mark] [mark] cs generalizing before with
  | case1 => rfl
  | case2 c rest hmarks ih =>
    obtain ⟨more, hmore⟩ := List.isPrefixOf_iff_prefix.mp (Bool.and_eq_true _ _ ▸ hmarks).1
    obtain ⟨rfl, rfl⟩ : mark = c ∧ mark :: more = rest := List.cons_eq_cons.mp hmore
    have hone : wordsBetween mark (replaceChars [mark, mark] [mark] more) = wordsBetween mark more := ih []
    show wordsBetween mark (before ++ mark :: replaceChars [mark, mark] [mark] more) = _
    rw [wordsBetween_append, wordsBetween_append, wordsBetween_mark, hone]
  | case3 c rest _ ih =>
    have hmoved := ih (before ++ [c])
    rwa [List.append_assoc, List.append_assoc] at hmoved

theorem wordsBetween_squeeze (mark : Char) (cs : List Char) :
    wordsBetween mark (squeeze mark cs) = wordsBetween mark cs := by
  fun_induction squeeze mark cs with
  | case1 cs _ ih => rw [ih, ← List.nil_append (replaceChars _ _ cs), wordsBetween_replaceChars, List.nil_append]
  | case2 => rfl

theorem not_hasInfix_squeeze (mark : Char) (cs : List Char) : hasInfix [mark, mark] (squeeze mark cs) = false := by
  fun_induction squeeze mark cs with
  | case1 _ _ ih => exact ih
  | case2 cs hnone => exact Bool.eq_false_iff.mpr hnone

theorem wordsBetween_dropWhile (mark : Char) (cs : List Char) :
    wordsBetween mark (cs.dropWhile (· == mark)) = wordsBetween mark cs := by
  induction cs with
  | nil => rfl
  | cons c rest ih =>
    by_cases hc : c = mark
    · rw [hc, List.dropWhile_cons_of_pos (by simp), ih, wordsBetween_mark]
    · rw [List.dropWhile_cons_of_neg (by simpa using hc)]

theorem wordsBetween_append_marks {marks : List Char} (h : ∀ c ∈ marks, c = mark) (cs : List Char) :
    wordsBetween mark (cs ++ marks) = wordsBetween mark cs := by
  induction marks generalizing cs with
  | nil => rw [List.append_nil]
  | cons c rest ih =>
    have hrest := ih (fun d hd => h d (.tail _ hd)) []
    rw [List.nil_append, wordsBetween_nil] at hrest
    rw [h c (.head _), wordsBetween_append, hrest, List.append_nil]

theorem wordsBetween_trimChars (mark : Char) (cs : List Char) :
    wordsBetween mark (trimChars (· == mark) cs) = wordsBetween mark cs := by
  have hsplit : cs.dropWhile (· == mark) = trimChars (· == mark) cs ++
      ((cs.dropWhile (· == mark)).reverse.takeWhile (· == mark)).reverse := by
    unfold trimChars
    rw [← List.reverse_append, List.takeWhile_append_dropWhile, List.reverse_reverse]
  have hmarks : ∀ c ∈ ((cs.dropWhile (· == mark)).reverse.takeWhile (· == mark)).reverse, c = mark := by
    intro c hc
    simpa using List.mem_takeWhile_imp (List.mem_reverse.mp hc)
  rw [← wordsBetween_dropWhile mark cs, hsplit, wordsBetween_append_marks hmarks]

/-- No mark at either end, and no two of them neighbours. -/
structure Apart (mark : Char) (cs : List Char) : Prop where
  first : cs.head? ≠ some mark
  last : cs.getLast? ≠ some mark
  single : hasInfix [mark, mark] cs = false

theorem head?_dropWhile_ne (mark : Char) (cs : List Char) : (cs.dropWhile (· == mark)).head? ≠ some mark := by
  intro h
  have := List.head?_dropWhile_not (· == mark) cs
  rw [h] at this
  simp at this

theorem apart_trimChars (h : hasInfix [mark, mark] cs = false) : Apart mark (trimChars (· == mark) cs) := by
  have hlast : (trimChars (· == mark) cs).getLast? ≠ some mark := by
    unfold trimChars
    rw [List.getLast?_reverse]
    exact head?_dropWhile_ne mark _
  have hprefix : trimChars (· == mark) cs <+: cs.dropWhile (· == mark) := by
    unfold trimChars
    rw [← List.reverse_suffix, List.reverse_reverse]
    exact List.dropWhile_suffix _
  refine ⟨?_, hlast, ?_⟩
  · intro hhead
    obtain ⟨more, hmore⟩ := hprefix
    cases htrimmed : trimChars (· == mark) cs with
    | nil => rw [htrimmed] at hhead; cases hhead
    | cons c rest =>
      rw [htrimmed] at hhead hmore
      cases hhead
      exact head?_dropWhile_ne mark cs (by rw [← hmore]; rfl)
  · rw [Bool.eq_false_iff] at h ⊢
    intro hinfix
    refine h (hasInfix_iff.mpr ((hasInfix_iff.mp hinfix).trans ?_))
    exact hprefix.isInfix.trans (List.dropWhile_suffix _).isInfix

theorem intercalate_splitChars (mark : Char) (cs : List Char) : [mark].intercalate (splitChars mark cs) = cs := by
  induction cs with
  | nil => rfl
  | cons c rest ih =>
    rw [splitChars]
    cases hrest : splitChars mark rest with
    | nil => exact absurd hrest (splitChars_ne_nil mark rest)
    | cons piece pieces =>
      rw [hrest] at ih
      split
      · next hc => rw [List.intercalate_cons_cons, ih, hc]; rfl
      cases pieces with
      | nil =>
        rw [List.intercalate_singleton] at ih ⊢
        rw [ih]
      | cons second others =>
        rw [List.intercalate_cons_cons] at ih ⊢
        rw [← ih]
        rfl

theorem infix_or_last_of_nil_mem_tail (h : [] ∈ (splitChars mark cs).tail) :
    [mark, mark] <:+: cs ∨ cs.getLast? = some mark := by
  induction cs with
  | nil => cases h
  | cons c rest ih =>
    have hlift : [] ∈ (splitChars mark rest).tail → [mark, mark] <:+: c :: rest ∨ (c :: rest).getLast? = some mark := by
      intro hrest
      refine (ih hrest).imp (fun hinfix => hinfix.trans (List.suffix_cons c rest).isInfix) fun hlast => ?_
      rw [List.getLast?_cons, hlast]
      rfl
    rw [splitChars] at h
    split at h
    · next hc =>
      rw [hc] at hlift ⊢
      cases rest with
      | nil => exact .inr rfl
      | cons d rest =>
        by_cases hd : d = mark
        · exact .inl ⟨[], rest, by rw [hd]; rfl⟩
        refine hlift ?_
        rw [List.tail_cons, splitChars, if_neg hd] at h
        rw [splitChars, if_neg hd]
        split at h
        · simp at h
        · rw [List.mem_cons] at h
          exact h.resolve_left (List.cons_ne_nil _ _).symm
    · refine hlift ?_
      split at h
      · cases h
      · next hrest =>
        rw [hrest]
        exact h

theorem Apart.intercalate_wordsBetween (h : Apart mark cs) : [mark].intercalate (wordsBetween mark cs) = cs := by
  cases cs with
  | nil => rfl
  | cons c rest =>
    have hc : c ≠ mark := fun heq => h.first (congrArg some heq)
    have hnone : [] ∉ splitChars mark (c :: rest) := by
      intro hmem
      have htail : [] ∈ (splitChars mark (c :: rest)).tail := by
        rw [splitChars, if_neg hc] at hmem ⊢
        split at hmem
        · simp at hmem
        · exact (List.mem_cons.mp hmem).resolve_left (List.cons_ne_nil _ _).symm
      rcases infix_or_last_of_nil_mem_tail htail with hinfix | hlast
      · exact Bool.false_ne_true (h.single.symm.trans (hasInfix_iff.mpr hinfix))
      · exact h.last hlast
    have hall : wordsBetween mark (c :: rest) = splitChars mark (c :: rest) := by
      refine List.filter_eq_self.mpr fun piece hpiece => ?_
      cases piece with
      | nil => exact absurd hpiece hnone
      | cons _ _ => rfl
    rw [hall, intercalate_splitChars]

/-! ## Runs of characters -/

/-- The rounds of squeezing come to an end: each but the last one finds two marks that are neighbours. -/
theorem squeeze_eq_iterate (mark : Char) (cs : List Char) :
    ∃ rounds, squeeze mark cs = (replaceChars [mark, mark] [mark])^[rounds] cs ∧
      ∀ k < rounds, hasInfix [mark, mark] ((replaceChars [mark, mark] [mark])^[k] cs) := by
  fun_induction squeeze mark cs with
  | case1 cs hneighbours ih =>
    obtain ⟨rounds, hend, hbefore⟩ := ih
    refine ⟨rounds + 1, hend, fun k hk => ?_⟩
    cases k with
    | zero => exact hneighbours
    | succ k => exact hbefore k (Nat.lt_of_succ_lt_succ hk)
  | case2 cs _ => exact ⟨0, rfl, nofun⟩

/-- The longest stretches of characters of a class. -/
def runs (p : Char → Bool) (cs : List Char) : List (List Char) :=
  (cs.splitOnP (!p ·)).filter (!·.isEmpty)

theorem runs_ne_nil (hc : p c) (cs : List Char) : runs p (c :: cs) ≠ [] := by
  unfold runs
  rw [List.splitOnP_cons_eq_if_modifyHead, hc]
  obtain ⟨piece, pieces, hpieces⟩ := List.exists_cons_of_ne_nil (List.splitOnP_ne_nil (!p ·) cs)
  rw [hpieces]
  simp

end Text

namespace Naming

open Text

/-! ## Constants -/

/-- The characters of a constant other than the underscore. -/
def isCapitalOrDigit (c : Char) : Bool :=
  c.isUpper || c.isDigit

/-- The name with every character that a constant does not have made an underscore. -/
def markOthers (name : List Char) : List Char :=
  name.map fun c => if isConstantChar c then c else '_'

/-- The words of a constant: the runs of capitals and digits of the name, behind `VALUE` if the name
starts with a digit. -/
def constantWords (name : String) : List (List Char) :=
  (if name.toList.head?.any Char.isDigit then ["VALUE".toList] else []) ++
    wordsBetween '_' (markOthers name.toList)

theorem word_of_mem_constantWords (h : word ∈ constantWords name) : word ≠ [] ∧ '_' ∉ word := by
  rcases List.mem_append.mp h with h | h
  · split at h
    · rw [List.mem_singleton.mp h]
      decide
    · cases h
  · exact word_of_mem h

theorem isDigit_head?_markOthers (name : List Char) :
    (markOthers name).head?.any Char.isDigit = name.head?.any Char.isDigit := by
  cases name with
  | nil => rfl
  | cons c rest =>
    show (if isConstantChar c then c else '_').isDigit = c.isDigit
    cases hc : isConstantChar c with
    | true => rfl
    | false =>
      unfold isConstantChar at hc
      have hdigit : c.isDigit = false := by simp_all
      rw [hdigit]
      rfl

theorem constantCase_eq (name : String) :
    constantCase name = String.ofList (['_'].intercalate (constantWords name)) := by
  have hwords : ∀ led, trimChars (· == '_') (squeeze '_' led) = ['_'].intercalate (wordsBetween '_' led) := by
    intro led
    rw [← (apart_trimChars (not_hasInfix_squeeze '_' led)).intercalate_wordsBetween, wordsBetween_trimChars,
      wordsBetween_squeeze]
  show String.ofList (trimChars (· == '_') (squeeze '_' (if (markOthers name.toList).head?.any Char.isDigit then
    "VALUE_".toList ++ markOthers name.toList else markOthers name.toList))) = _
  rw [hwords, isDigit_head?_markOthers]
  unfold constantWords
  split
  · show String.ofList (['_'].intercalate (wordsBetween '_' ("VALUE".toList ++ '_' :: markOthers name.toList))) = _
    rw [wordsBetween_append]
    rfl
  · rfl

theorem constantCase_inj_iff {other : String} :
    constantCase name = constantCase other ↔ constantWords name = constantWords other := by
  constructor
  · intro h
    rw [constantCase_eq, constantCase_eq, String.ofList_inj] at h
    rw [← wordsBetween_intercalate fun _ => @word_of_mem_constantWords _ name,
      ← wordsBetween_intercalate fun _ => @word_of_mem_constantWords _ other, h]
  · intro h
    rw [constantCase_eq, constantCase_eq, h]

/-- Whether the text starts as a name does: it is not empty, and its first character is no digit. -/
def startsAsName (text : String) : Bool :=
  text.toList.head?.any (!·.isDigit)

theorem head?_intercalate (h : ∀ word ∈ words, word ≠ []) : (['_'].intercalate words).head? = words.flatten.head? := by
  cases words with
  | nil => rfl
  | cons word rest =>
    cases word with
    | nil => exact absurd rfl (h [] (.head _))
    | cons c more =>
      cases rest with
      | nil => rfl
      | cons _ _ =>
        rw [List.intercalate_cons_cons]
        rfl

theorem marked_bne (c : Char) : ((if isConstantChar c then c else '_') != '_') = isCapitalOrDigit c := by
  unfold isConstantChar isCapitalOrDigit
  by_cases hc : c = '_'
  · rw [hc]
    decide
  rw [beq_false_of_ne hc, Bool.or_false]
  cases c.isUpper || c.isDigit with
  | true => simpa using hc
  | false => rfl

theorem isConstantChar_of_isCapitalOrDigit {c : Char} (h : isCapitalOrDigit c) : isConstantChar c := by
  unfold isCapitalOrDigit at h
  rw [isConstantChar, h, Bool.true_or]

theorem filter_markOthers (name : List Char) : (markOthers name).filter (· != '_') = name.filter isCapitalOrDigit := by
  induction name with
  | nil => rfl
  | cons c rest ih =>
    show ((if isConstantChar c then c else '_') :: markOthers rest).filter _ = _
    rw [List.filter_cons, List.filter_cons, marked_bne, ih]
    cases hkeep : isCapitalOrDigit c with
    | false => rfl
    | true => rw [isConstantChar_of_isCapitalOrDigit hkeep]; rfl

/-- A constant starts as a name does if the name starts with a digit, which brings a word before it, or
if its first capital or digit is a capital. -/
theorem startsAsName_constantCase (name : String) : startsAsName (constantCase name) =
    (name.toList.head?.any Char.isDigit || (name.toList.find? isCapitalOrDigit).any (!·.isDigit)) := by
  unfold startsAsName
  rw [constantCase_eq, String.toList_ofList, head?_intercalate fun word hword => (word_of_mem_constantWords hword).1]
  unfold constantWords
  split
  · next hdigit =>
    rw [hdigit]
    rfl
  · next hdigit =>
    rw [List.nil_append, flatten_wordsBetween, filter_markOthers, List.head?_filter,
      Bool.eq_false_iff.mpr hdigit, Bool.false_or]

/-- Whether the name is a constant already: capitals, digits and single underscores, from a capital on
and not up to an underscore. -/
def isConstant (name : String) : Bool :=
  name.toList.head?.any Char.isUpper && name.toList.all isConstantChar &&
    !hasInfix ['_', '_'] name.toList && name.toList.getLast? != some '_'

theorem not_isDigit_of_isUpper {c : Char} (h : c.isUpper) : c.isDigit = false := by
  rw [Bool.eq_false_iff, Ne, Char.isDigit_iff_toNat]
  rw [isUpper_iff_toNat] at h
  exact fun hdigit => absurd (h.1.trans hdigit.2) (by decide)

theorem constantCase_of_isConstant (h : isConstant name) : constantCase name = name := by
  unfold isConstant at h
  simp only [Bool.and_eq_true, Bool.not_eq_true', bne_iff_ne] at h
  obtain ⟨⟨⟨hfirst, hall⟩, hsingle⟩, hlast⟩ := h
  obtain ⟨c, hc, hupper⟩ := (Option.any_eq_true _ _).mp hfirst
  have hmarked : markOthers name.toList = name.toList :=
    (List.map_congr_left fun d hd => if_pos (List.all_eq_true.mp hall d hd)).trans (List.map_id _)
  have hapart : Apart '_' name.toList := by
    refine ⟨?_, hlast, hsingle⟩
    rw [hc]
    rintro heq
    cases heq
    cases hupper
  have hdigit : name.toList.head?.any Char.isDigit = false := by
    rw [hc]
    exact not_isDigit_of_isUpper hupper
  rw [constantCase_eq]
  unfold constantWords
  rw [hdigit, hmarked]
  show String.ofList (['_'].intercalate (wordsBetween '_' name.toList)) = name
  rw [hapart.intercalate_wordsBetween, String.ofList_toList]

/-! ## Runs of capitals and digits -/

theorem splitChars_markOthers (cs : List Char) :
    splitChars '_' (markOthers cs) = cs.splitOnP (!isCapitalOrDigit ·) := by
  induction cs with
  | nil => rfl
  | cons c rest ih =>
    have hmark := marked_bne c
    show splitChars '_' ((if isConstantChar c then c else '_') :: markOthers rest) = _
    rw [List.splitOnP_cons_eq_if_modifyHead, splitChars, ih]
    cases hkeep : isCapitalOrDigit c with
    | false =>
      rw [hkeep, bne_eq_false_iff_eq] at hmark
      rw [hmark]
      rfl
    | true =>
      rw [hkeep, bne_iff_ne] at hmark
      rw [if_neg hmark, isConstantChar_of_isCapitalOrDigit hkeep]
      obtain ⟨piece, pieces, hpieces⟩ := List.exists_cons_of_ne_nil (List.splitOnP_ne_nil (!isCapitalOrDigit ·) rest)
      rw [hpieces]
      rfl

theorem runs_ne_nil_of_isDigit {cs : List Char} (h : cs.head?.any Char.isDigit) : runs isCapitalOrDigit cs ≠ [] := by
  cases cs with
  | nil => cases h
  | cons c rest =>
    have hc : c.isDigit := h
    exact runs_ne_nil (by rw [isCapitalOrDigit, hc, Bool.or_true]) rest

/-- The name before squeezing. -/
def led (name : String) : List Char :=
  if name.toList.head?.any Char.isDigit then "VALUE_".toList ++ markOthers name.toList else markOthers name.toList

theorem constantCase_eq_squeeze (name : String) :
    constantCase name = String.ofList (trimChars (· == '_') (squeeze '_' (led name))) := by
  rw [led, ← isDigit_head?_markOthers]
  rfl

theorem constantCase_runs (name : String) : (∃ rounds, constantCase name =
        String.ofList (trimChars (· == '_') ((replaceChars ['_', '_'] ['_'])^[rounds] (led name))) ∧
      hasInfix ['_', '_'] ((replaceChars ['_', '_'] ['_'])^[rounds] (led name)) = false ∧
      ∀ k < rounds, hasInfix ['_', '_'] ((replaceChars ['_', '_'] ['_'])^[k] (led name))) ∧
    constantCase name = (if name.toList.head?.any Char.isDigit then "VALUE_" else "") ++
      join "_" ((runs isCapitalOrDigit name.toList).map String.ofList) ∧ Apart '_' (constantCase name).toList := by
  have hsqueezed := constantCase_eq_squeeze name
  obtain ⟨rounds, hend, hbefore⟩ := squeeze_eq_iterate '_' (led name)
  have hlast := not_hasInfix_squeeze '_' (led name)
  refine ⟨⟨rounds, hend ▸ hsqueezed, hend ▸ hlast, hbefore⟩, ?_, ?_⟩
  · have hruns : wordsBetween '_' (markOthers name.toList) = runs isCapitalOrDigit name.toList := by
      rw [wordsBetween, splitChars_markOthers, runs]
    have hjoined : (join "_" ((runs isCapitalOrDigit name.toList).map String.ofList)).toList =
        ['_'].intercalate (runs isCapitalOrDigit name.toList) := by
      rw [join, String.toList_intercalate, List.map_map]
      simp [Function.comp_def]
    rw [constantCase_eq, constantWords, hruns, ← String.toList_inj, String.toList_ofList, String.toList_append, hjoined]
    split
    · next hdigit =>
      obtain ⟨word, words, hwords⟩ := List.exists_cons_of_ne_nil (runs_ne_nil_of_isDigit hdigit)
      rw [hwords, List.singleton_append, List.intercalate_cons_cons]
      rfl
    · rfl
  · rw [hsqueezed, String.toList_ofList]
    exact apart_trimChars hlast

end Naming

end Typewright
