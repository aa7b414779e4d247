import Typewright.Naming.Words
import Typewright.Proofs.TextParts
import Mathlib.Data.List.Basic
import Mathlib.Data.List.TakeWhile

/-!
# Humps in names

What snake case makes of the capitals of a name, and which names it keeps apart.
-/

namespace Typewright.Naming

open Text


variable {c : Char} {cs ds : List Char} {name : String}

/-! ## Underscores before capitals -/

/-- Whether the characters are ASCII and each capital comes right after a small letter or a digit. The first
of them may be a capital if `mayRise`. -/
def humpsApart (mayRise : Bool) : List Char → Bool
  | [] => true
  | c :: rest => decide (c.toNat < 128) && (!isCapital c || mayRise) && humpsApart (isSmallOrDigit c) rest

/-- A capital behind an underscore, any other character by itself. -/
def spread (c : Char) : List Char :=
  if isCapital c then ['_', c] else [c]

theorem not_isSmallOrDigit_of_isCapital (h : isCapital c) : isSmallOrDigit c = false := by
  have hplace := isUpper_iff_toNat.mp h
  rw [isSmallOrDigit, Bool.or_eq_false_iff, Bool.eq_false_iff, Bool.eq_false_iff, Ne, Ne, isLower_iff_toNat,
    Char.isDigit_iff_toNat]
  exact ⟨fun hlower => absurd (hlower.1.trans hplace.2) (by decide),
    fun hdigit => absurd (hplace.1.trans hdigit.2) (by decide)⟩

theorem breakJoints_cons_of_not {a : Char} (h : isSmallOrDigit a = false) (cs : List Char) :
    breakJoints (a :: cs) = a :: breakJoints cs := by
  cases cs with
  | nil => rfl
  | cons b rest =>
    rw [breakJoints, if_neg]
    rw [h]
    exact fun hboth => Bool.false_ne_true hboth.1

theorem breakJoints_cons_cons (a b : Char) (rest : List Char) : breakJoints (a :: b :: rest) =
    (if isSmallOrDigit a && isCapital b then [a, '_'] else [a]) ++ breakJoints (b :: rest) := by
  rw [breakJoints]
  by_cases hboth : isSmallOrDigit a ∧ isCapital b
  · rw [if_pos hboth, hboth.1, hboth.2, breakJoints_cons_of_not (not_isSmallOrDigit_of_isCapital hboth.2)]
    rfl
  · rw [if_neg hboth, if_neg (by simpa using hboth)]
    rfl

theorem breakHumps_cons (c : Char) (cs : List Char) : ∃ more, breakHumps (c :: cs) = c :: more := by
  rw [breakHumps.eq_def]
  split
  · next heq =>
    cases heq
    split
    · exact ⟨_, rfl⟩
    · exact ⟨_, rfl⟩
  · exact ⟨cs, rfl⟩

theorem breakJoints_cons_breakHumps {before : Char} (h : humpsApart (isSmallOrDigit before) cs)
    (broken : ∀ c rest, cs = c :: rest → breakJoints (breakHumps (c :: rest)) = c :: rest.flatMap spread) :
    breakJoints (before :: breakHumps cs) = before :: cs.flatMap spread := by
  cases cs with
  | nil =>
    rw [breakHumps.eq_def]
    rfl
  | cons c rest =>
    obtain ⟨more, hmore⟩ := breakHumps_cons c rest
    have hrest := broken c rest rfl
    rw [hmore] at hrest ⊢
    rw [breakJoints_cons_cons, hrest, List.flatMap_cons]
    unfold humpsApart at h
    unfold spread
    cases hcapital : isCapital c with
    | false => rw [Bool.and_false]; rfl
    | true =>
      have hbefore : isSmallOrDigit before := by simp_all
      rw [hbefore]
      rfl

theorem not_isCapital_of_isLower (h : c.isLower) : isCapital c = false := by
  rw [isCapital, Bool.eq_false_iff, Ne, isUpper_iff_toNat]
  exact fun hupper => absurd ((isLower_iff_toNat.mp h).1.trans hupper.2) (by decide)

theorem isSmallOrDigit_of_isLower (h : c.isLower) : isSmallOrDigit c := by
  unfold isSmallOrDigit
  rw [h, Bool.true_or]

section Small

variable {small cs : List Char}

theorem breakJoints_small_append {broken : List Char} (hsmall : ∀ c ∈ small, c.isLower)
    (hlast : ∀ c : Char, c.isLower → breakJoints (c :: cs) = c :: broken)
    (hc : c.isLower) : breakJoints (c :: (small ++ cs)) = c :: (small ++ broken) := by
  induction small generalizing c with
  | nil => exact hlast c hc
  | cons d rest ih =>
    have hd : d.isLower := hsmall d (.head _)
    rw [List.cons_append, breakJoints_cons_cons, not_isCapital_of_isLower hd, Bool.and_false,
      ih (fun e he => hsmall e (.tail _ he)) hd]
    rfl

theorem flatMap_spread_small (hsmall : ∀ c ∈ small, c.isLower) : small.flatMap spread = small := by
  induction small with
  | nil => rfl
  | cons c rest ih =>
    unfold spread at ih ⊢
    rw [List.flatMap_cons, not_isCapital_of_isLower (hsmall c (.head _)), ih fun d hd => hsmall d (.tail _ hd)]
    rfl

theorem humpsApart_of_small_append (hsmall : ∀ c ∈ small, c.isLower)
    (h : humpsApart true (small ++ cs)) : humpsApart true cs := by
  induction small with
  | nil => exact h
  | cons c rest ih =>
    rw [List.cons_append, humpsApart, isSmallOrDigit_of_isLower (hsmall c (.head _))] at h
    exact ih (fun d hd => hsmall d (.tail _ hd)) (Bool.and_eq_true _ _ ▸ h).2

end Small

theorem breakJoints_breakHumps (c : Char) (cs : List Char) (h : humpsApart (isSmallOrDigit c) cs) :
    breakJoints (breakHumps (c :: cs)) = c :: cs.flatMap spread := by
  -- by length, since the small letters after a capital are passed over in one step
  induction hlength : cs.length using Nat.strong_induction_on generalizing c cs with
  | _ n ih =>
    have hafter : ∀ (before : Char) (ds : List Char), humpsApart (isSmallOrDigit before) ds →
        ds.length ≤ n → breakJoints (before :: breakHumps ds) = before :: ds.flatMap spread := by
      intro before ds hds hle
      refine breakJoints_cons_breakHumps hds fun d rest heq => ?_
      rw [heq, humpsApart] at hds
      rw [heq, List.length_cons] at hle
      exact ih rest.length (by omega) d rest (Bool.and_eq_true _ _ ▸ hds).2 rfl
    rw [breakHumps.eq_def]
    split
    · next u l rest heq =>
      obtain ⟨rfl, rfl⟩ := List.cons_eq_cons.mp heq
      split
      · next hhump =>
        obtain ⟨_, hu, hl⟩ := hhump
        have hrest : humpsApart true rest := by
          rw [humpsApart, humpsApart, isSmallOrDigit_of_isLower hl] at h
          simp_all
        have hsmall : ∀ d ∈ rest.takeWhile Char.isLower, d.isLower := fun d => List.mem_takeWhile_imp
        have hdrop : humpsApart true (rest.dropWhile Char.isLower) := by
          rw [← List.takeWhile_append_dropWhile (p := Char.isLower) (l := rest)] at hrest
          exact humpsApart_of_small_append hsmall hrest
        have hshort : (rest.dropWhile Char.isLower).length ≤ n := by
          have := (List.dropWhile_sublist (p := Char.isLower) (l := rest)).length_le
          simp only [List.length_cons] at hlength
          omega
        have hlast : ∀ d : Char, d.isLower → breakJoints (d :: breakHumps (rest.dropWhile Char.isLower)) =
            d :: (rest.dropWhile Char.isLower).flatMap spread := by
          intro d hd
          exact hafter d _ (isSmallOrDigit_of_isLower hd ▸ hdrop) hshort
        have hall : rest.takeWhile Char.isLower ++ (rest.dropWhile Char.isLower).flatMap spread =
            rest.flatMap spread := by
          rw [← flatMap_spread_small hsmall, ← List.flatMap_append, List.takeWhile_append_dropWhile]
        rw [breakJoints_cons_cons, breakJoints_cons_of_not (by decide : isSmallOrDigit '_' = false),
          breakJoints_cons_of_not (not_isSmallOrDigit_of_isCapital hu),
          breakJoints_small_append hsmall hlast hl, hall]
        simp [spread, hu, not_isCapital_of_isLower hl, show isCapital '_' = false by decide]
      · exact hafter c (u :: l :: rest) h (Nat.le_of_eq hlength)
    · next hshort =>
      -- one character or two, where only the joint between them can be broken
      cases cs with
      | nil => rfl
      | cons u rest =>
        cases rest with
        | cons l rest => exact absurd rfl (hshort c u l rest)
        | nil =>
          have hpair := hafter c [u] h (Nat.le_of_eq hlength)
          rwa [breakHumps.eq_def] at hpair

/-! ## Small letters for capitals -/

/-- A capital as a small letter behind an underscore, any other character by itself. -/
def hump (c : Char) : List Char :=
  if isCapital c then ['_', c.toLower] else [c]

theorem toLower_of_not_isCapital (h : isCapital c = false) : c.toLower = c := by
  unfold Char.toLower
  rw [dif_neg]
  exact fun hplace => Bool.eq_false_iff.mp h (isUpper_iff_toNat.mpr hplace)

theorem map_toLower_spread (c : Char) : (spread c).map Char.toLower = hump c := by
  unfold spread hump
  split
  · rfl
  · next hcapital =>
    rw [List.map_singleton, toLower_of_not_isCapital (Bool.eq_false_iff.mpr hcapital)]

theorem lowerFrom_ascii (before : List Char) (h : ∀ c ∈ cs, c.toNat < 128) :
    lowerFrom before cs = cs.map Char.toLower := by
  induction cs generalizing before with
  | nil => rfl
  | cons c rest ih =>
    have hc := h c (.head _)
    have hsigma : c ≠ 'Σ' := by
      rintro rfl
      exact absurd hc (by decide)
    rw [lowerFrom, ih _ fun d hd => h d (.tail _ hd), lowerAmid, if_neg hsigma, lowerChar, if_pos hc]
    rfl

theorem ascii_of_humpsApart {mayRise : Bool} (h : humpsApart mayRise cs) : ∀ c ∈ cs, c.toNat < 128 := by
  induction cs generalizing mayRise with
  | nil => nofun
  | cons c rest ih =>
    rw [humpsApart] at h
    simp only [Bool.and_eq_true, decide_eq_true_eq] at h
    exact List.forall_mem_cons.mpr ⟨h.1.1, ih h.2⟩

theorem snakeChars_eq (h : humpsApart false cs) : snakeChars cs = cs.flatMap hump := by
  have hascii := ascii_of_humpsApart h
  have hbroken : breakJoints (breakHumps cs) = cs.flatMap spread := by
    cases cs with
    | nil => rw [breakHumps.eq_def]; rfl
    | cons c rest =>
      rw [humpsApart] at h
      simp only [Bool.and_eq_true, Bool.or_false, Bool.not_eq_true'] at h
      rw [breakJoints_breakHumps c rest h.2, List.flatMap_cons, spread, h.1.2]
      rfl
  have hspread : ∀ c ∈ cs.flatMap spread, c.toNat < 128 := by
    intro d hd
    obtain ⟨c, hc, hd⟩ := List.mem_flatMap.mp hd
    unfold spread at hd
    split at hd
    · rcases List.mem_cons.mp hd with rfl | hd
      · decide
      · exact List.mem_singleton.mp hd ▸ hascii c hc
    · exact List.mem_singleton.mp hd ▸ hascii c hc
  unfold snakeChars
  rw [hbroken, lowerFrom_ascii [] hspread, List.map_flatMap]
  exact congrArg cs.flatMap (funext map_toLower_spread)

/-- Whether the name is in camel case: ASCII without underscores, each capital after a small letter or a
digit. -/
def isCamel (name : String) : Bool :=
  humpsApart false name.toList && !name.toList.contains '_'

/-- Whether the name is in snake case: ASCII without capitals. -/
def isSnake (name : String) : Bool :=
  name.toList.all fun c => decide (c.toNat < 128) && !isCapital c

theorem toLower_inj {d : Char} (hc : isCapital c) (hd : isCapital d) (h : c.toLower = d.toLower) : c = d := by
  have hcval : c.val ≥ 'A'.val ∧ c.val ≤ 'Z'.val := of_decide_eq_true hc
  have hdval : d.val ≥ 'A'.val ∧ d.val ≤ 'Z'.val := of_decide_eq_true hd
  unfold Char.toLower at h
  rw [dif_pos hcval, dif_pos hdval, Char.mk.injEq] at h
  exact Char.ext (by simpa using h)

theorem flatMap_hump_inj (hcs : '_' ∉ cs) (hds : '_' ∉ ds) (h : cs.flatMap hump = ds.flatMap hump) : cs = ds := by
  have hne : ∀ d, hump d ≠ [] := by
    intro d
    unfold hump
    split <;> nofun
  induction cs generalizing ds with
  | nil =>
    cases ds with
    | nil => rfl
    | cons d rest =>
      rw [List.flatMap_cons] at h
      exact absurd (List.append_eq_nil_iff.mp h.symm).1 (hne d)
  | cons c cs ih =>
    cases ds with
    | nil =>
      rw [List.flatMap_cons] at h
      exact absurd (List.append_eq_nil_iff.mp h).1 (hne c)
    | cons d ds =>
      rw [List.mem_cons, not_or] at hcs hds
      obtain ⟨hc, hcs⟩ := hcs
      obtain ⟨hd, hds⟩ := hds
      rw [List.flatMap_cons, List.flatMap_cons] at h
      unfold hump at h
      cases hcapital : isCapital c <;> cases hcapital' : isCapital d <;> rw [hcapital, hcapital'] at h
      · obtain ⟨rfl, hrest⟩ := List.cons_eq_cons.mp h
        rw [ih hcs hds hrest]
      · exact absurd (List.cons_eq_cons.mp h).1.symm hc
      · exact absurd (List.cons_eq_cons.mp h).1 hd
      · obtain ⟨hlower, hrest⟩ := List.cons_eq_cons.mp (List.cons_eq_cons.mp h).2
        rw [toLower_inj hcapital hcapital' hlower, ih hcs hds hrest]

theorem snake_inj_iff {other : String} (h : isCamel name) (h' : isCamel other) :
    snake name = snake other ↔ name = other := by
  unfold isCamel at h h'
  simp only [Bool.and_eq_true, Bool.not_eq_true', List.contains_eq_mem, decide_eq_false_iff_not] at h h'
  refine ⟨fun heq => ?_, congrArg snake⟩
  unfold snake at heq
  rw [String.ofList_inj, snakeChars_eq h.1, snakeChars_eq h'.1] at heq
  exact String.toList_injective (flatMap_hump_inj h.2 h'.2 heq)

theorem humpsApart_of_no_capital (hascii : ∀ c ∈ cs, c.toNat < 128)
    (hsmall : ∀ c ∈ cs, isCapital c = false) (mayRise : Bool) : humpsApart mayRise cs := by
  induction cs generalizing mayRise with
  | nil => rfl
  | cons c rest ih =>
    rw [humpsApart, hsmall c (.head _), decide_eq_true (hascii c (.head _))]
    exact ih (fun d hd => hascii d (.tail _ hd)) (fun d hd => hsmall d (.tail _ hd)) _

theorem snake_of_isSnake (h : isSnake name) : snake name = name := by
  unfold isSnake at h
  simp only [List.all_eq_true, Bool.and_eq_true, decide_eq_true_eq, Bool.not_eq_true'] at h
  have hapart := humpsApart_of_no_capital (fun c hc => (h c hc).1) (fun c hc => (h c hc).2) false
  have hsame : name.toList.flatMap hump = name.toList.flatMap fun c => [c] := by
    refine List.flatMap_congr fun c hc => ?_
    rw [hump, (h c hc).2]
    rfl
  unfold snake
  rw [snakeChars_eq hapart, hsame, List.flatMap_singleton', String.ofList_toList]

/-! ## What snake case adds -/

theorem lower_ascii (h : ∀ c ∈ name.toList, c.toNat < 128) :
    lower name = String.ofList (name.toList.map Char.toLower) := by
  rw [lower, lowerFrom_ascii [] h]

theorem toLower_ascii (h : c.toNat < 128) :
    c.toLower.toNat < 128 ∧ isCapital c.toLower = false ∧ (c.toLower = '_' ↔ c = '_') :=
  forall_ascii (by decide +kernel) h

theorem filter_map_toLower (h : ∀ c ∈ cs, c.toNat < 128) :
    (cs.map Char.toLower).filter (· != '_') = (cs.filter (· != '_')).map Char.toLower := by
  rw [List.filter_map]
  refine congrArg _ (List.filter_congr fun c hc => ?_)
  rw [Function.comp_apply, Bool.eq_iff_iff, bne_iff_ne, bne_iff_ne, Ne, (toLower_ascii (h c hc)).2.2]

/-- The second list is the first one with underscores put in. -/
structure Underscored (cs ds : List Char) : Prop where
  sublist : cs.Sublist ds
  filter_eq : ds.filter (· != '_') = cs.filter (· != '_')

namespace Underscored

theorem refl (cs : List Char) : Underscored cs cs :=
  ⟨.refl cs, rfl⟩

theorem trans {es : List Char} (h : Underscored cs ds) (h' : Underscored ds es) : Underscored cs es :=
  ⟨h.sublist.trans h'.sublist, h'.filter_eq.trans h.filter_eq⟩

theorem append {cs' ds' : List Char} (h : Underscored cs ds) (h' : Underscored cs' ds') :
    Underscored (cs ++ cs') (ds ++ ds') := by
  refine ⟨h.sublist.append h'.sublist, ?_⟩
  rw [List.filter_append, List.filter_append, h.filter_eq, h'.filter_eq]

theorem cons (c : Char) (h : Underscored cs ds) : Underscored (c :: cs) (c :: ds) :=
  append (refl [c]) h

theorem insert (h : Underscored cs ds) : Underscored cs ('_' :: ds) :=
  ⟨h.sublist.cons _, h.filter_eq⟩

theorem eq_or_mem (h : Underscored cs ds) (hc : c ∈ ds) : c = '_' ∨ c ∈ cs := by
  by_cases hmark : c = '_'
  · exact .inl hmark
  · have hkept : c ∈ ds.filter (· != '_') := List.mem_filter.mpr ⟨hc, bne_iff_ne.mpr hmark⟩
    rw [h.filter_eq] at hkept
    exact .inr (List.mem_filter.mp hkept).1

theorem map_toLower (h : Underscored cs ds) (hascii : ∀ c ∈ ds, c.toNat < 128) :
    Underscored (cs.map Char.toLower) (ds.map Char.toLower) := by
  refine ⟨h.sublist.map _, ?_⟩
  rw [filter_map_toLower hascii, filter_map_toLower fun c hc => hascii c (h.sublist.subset hc), h.filter_eq]

end Underscored

theorem underscored_breakHumps (cs : List Char) : Underscored cs (breakHumps cs) := by
  fun_induction breakHumps cs with
  | case1 c u l rest hhump ih =>
    have hrest : Underscored rest (rest.takeWhile Char.isLower ++ breakHumps (rest.dropWhile Char.isLower)) := by
      have happend := (Underscored.refl (rest.takeWhile Char.isLower)).append ih
      rwa [List.takeWhile_append_dropWhile] at happend
    exact .cons c ((hrest.cons l).cons u).insert
  | case2 c u l rest hhump ih => exact ih.cons c
  | case3 cs => exact .refl cs

theorem underscored_breakJoints (cs : List Char) : Underscored cs (breakJoints cs) := by
  fun_induction breakJoints cs with
  | case1 a b rest hjoint ih => exact .cons a (ih.cons b).insert
  | case2 a b rest hjoint ih => exact ih.cons a
  | case3 cs => exact .refl cs

/-- Snake case only puts underscores into a name and makes its capitals small: without underscores both are
the same text in small letters, the name with its own underscores is still there in order, no capital is left,
and there is nothing left to do a second time. -/
theorem snake_only_underscores (h : ∀ c ∈ name.toList, c.toNat < 128) :
    Text.without '_' (snake name) = Text.without '_' (Text.lower name) ∧
      (Text.lower name).toList.Sublist (snake name).toList ∧
      (∀ c ∈ (snake name).toList, isCapital c = false) ∧ snake (snake name) = snake name := by
  have hput := (underscored_breakHumps name.toList).trans (underscored_breakJoints _)
  have hascii : ∀ c ∈ breakJoints (breakHumps name.toList), c.toNat < 128 := by
    intro c hc
    rcases hput.eq_or_mem hc with rfl | hc
    · decide
    · exact h c hc
  have hsnake : snake name = String.ofList ((breakJoints (breakHumps name.toList)).map Char.toLower) := by
    rw [snake, snakeChars, lowerFrom_ascii [] hascii]
  have hsmall : ∀ c ∈ (snake name).toList, c.toNat < 128 ∧ isCapital c = false := by
    rw [hsnake, String.toList_ofList]
    refine List.forall_mem_map.mpr fun c hc => ?_
    obtain ⟨hlower, hsmall, -⟩ := toLower_ascii (hascii c hc)
    exact ⟨hlower, hsmall⟩
  have hlower := hput.map_toLower hascii
  refine ⟨?_, ?_, fun c hc => (hsmall c hc).2, snake_of_isSnake ?_⟩
  · rw [without, without, hsnake, lower_ascii h, String.toList_ofList, String.toList_ofList, hlower.filter_eq]
  · rw [hsnake, lower_ascii h, String.toList_ofList, String.toList_ofList]
    exact hlower.sublist
  · unfold isSnake
    simpa using hsmall

theorem snake_only_underscores_httpServer : Text.without '_' (snake "HTTPServer_2Go") = "httpserver2go" ∧
      (Text.lower "HTTPServer_2Go").toList.Sublist (snake "HTTPServer_2Go").toList ∧
      (∀ c ∈ (snake "HTTPServer_2Go").toList, isCapital c = false) ∧
      snake (snake "HTTPServer_2Go") = snake "HTTPServer_2Go" := by
  have h := @snake_only_underscores "HTTPServer_2Go" (List.forall_iff_forall_mem.mp (by decide))
  exact ⟨h.1.trans (by decide), h.2⟩

end Typewright.Naming
