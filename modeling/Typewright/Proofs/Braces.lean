import Typewright.Naming.ConstantCase
import Typewright.Proofs.SnakeNames
import Mathlib.Tactic.SplitIfs

/-!
# Braces in text

Reading text from left to right, how many braces are open, and which texts have no braces at all.
-/

namespace Typewright

variable {already n : Nat} {c mark : Char} {cs ds : List Char} {name s : String}

namespace Text

def isBrace (c : Char) : Bool :=
  c == '\x7b' || c == '\x7d'

/-- How many braces are open after one more character, if it does not close a brace that was not opened. -/
def braceStep (already : Nat) (c : Char) : Option Nat :=
  if c = '\x7b' then some (already + 1)
  else if c = '\x7d' then
    if already = 0 then none else some (already - 1)
  else some already

/-- How many braces are open after the characters, if so many are open already. -/
def openAfter (already : Nat) (cs : List Char) : Option Nat :=
  cs.foldlM braceStep already

/-- The characters close only braces that they open, and leave `n` of them open. -/
def Opens (n : Nat) (cs : List Char) : Prop :=
  ∀ already, openAfter already cs = some (already + n)

theorem openAfter_append (already : Nat) (cs ds : List Char) :
    openAfter already (cs ++ ds) = (openAfter already cs).bind (openAfter · ds) :=
  List.foldlM_append

theorem openAfter_filter (already : Nat) (cs : List Char) :
    openAfter already (cs.filter isBrace) = openAfter already cs := by
  have hstep : (fun already c => if isBrace c then braceStep already c else pure already) = braceStep := by
    funext already c
    unfold isBrace braceStep
    by_cases hopen : c = '\x7b'
    · simp [hopen]
    · by_cases hclose : c = '\x7d' <;> simp [hopen, hclose]
  unfold openAfter
  rw [List.foldlM_filter, hstep]

theorem count_of_braceStep {next : Nat} (h : braceStep already c = some next) :
    next + [c].count '\x7d' = already + [c].count '\x7b' := by
  unfold braceStep at h
  split_ifs at h with hopen hclose hzero
  · cases h
    rw [hopen]
    rfl
  · cases h
    rw [hclose]
    show already - 1 + 1 = already
    omega
  · cases h
    simp [hopen, hclose]

theorem count_of_openAfter (h : openAfter already cs = some n) :
    (∀ front, front <+: cs → front.count '\x7d' ≤ already + front.count '\x7b') ∧
      already + cs.count '\x7b' = n + cs.count '\x7d' := by
  induction cs generalizing already with
  | nil =>
    cases h
    refine ⟨fun front hfront => ?_, rfl⟩
    rw [List.prefix_nil.mp hfront]
    exact Nat.zero_le _
  | cons c rest ih =>
    obtain ⟨next, hnext, hrest⟩ := Option.bind_eq_some_iff.mp h
    have hcount := count_of_braceStep hnext
    obtain ⟨hclosed, hall⟩ := ih hrest
    have hcons : ∀ (brace : Char) (ds : List Char), (c :: ds).count brace = [c].count brace + ds.count brace :=
      fun brace ds => (List.count_append : ([c] ++ ds).count brace = _)
    refine ⟨fun front hfront => ?_, by rw [hcons _ rest, hcons _ rest]; omega⟩
    rcases List.prefix_cons_iff.mp hfront with rfl | ⟨ds, rfl, hds⟩
    · exact Nat.zero_le _
    · have := hclosed ds hds
      rw [hcons _ ds, hcons _ ds]
      omega

namespace Opens

variable {m n : Nat} {cs ds : List Char}

theorem nil : Opens 0 [] := fun _ => rfl

theorem append (hcs : Opens m cs) (hds : Opens n ds) : Opens (m + n) (cs ++ ds) := by
  intro already
  rw [openAfter_append, hcs already]
  exact (hds (already + m)).trans (congrArg some (Nat.add_assoc _ _ _))

theorem close (hcs : Opens (n + 1) cs) : Opens n (cs ++ ['\x7d']) := by
  intro already
  rw [openAfter_append, hcs already]
  rfl

theorem of_filter (h : cs.filter isBrace = ds.filter isBrace) (hcs : Opens n cs) : Opens n ds := by
  intro already
  rw [← openAfter_filter, ← h, openAfter_filter]
  exact hcs already

end Opens

def Braceless (cs : List Char) : Prop :=
  ∀ c ∈ cs, isBrace c = false

-- the characters are gone through one by one, and not all characters there are
instance : DecidablePred Braceless :=
  List.decidableBAll fun c => isBrace c = false

@[simp] theorem braceless_nil : Braceless [] := by
  simp [Braceless]

@[simp] theorem braceless_cons : Braceless (c :: cs) ↔ isBrace c = false ∧ Braceless cs := by
  simp [Braceless]

@[simp] theorem braceless_append : Braceless (cs ++ ds) ↔ Braceless cs ∧ Braceless ds := by
  simp [Braceless, or_imp, forall_and]

theorem braceless_concat {t : String} : Braceless (s ++ t).toList ↔ Braceless s.toList ∧ Braceless t.toList := by
  rw [String.toList_append, braceless_append]

namespace Braceless

variable {cs ds : List Char}

theorem opens (h : Braceless cs) : Opens 0 cs := by
  refine .of_filter ?_ .nil
  rw [List.filter_nil, eq_comm, List.filter_eq_nil_iff]
  exact fun c hc => by simp [h c hc]

theorem of_mem (h : Braceless cs) (hmem : ∀ c ∈ ds, c ∈ cs) : Braceless ds :=
  fun c hc => h c (hmem c hc)

theorem flatMap {f : Char → List Char} (h : ∀ c ∈ cs, Braceless (f c)) : Braceless (cs.flatMap f) := by
  intro d hd
  obtain ⟨c, hc, hd⟩ := List.mem_flatMap.mp hd
  exact h c hc d hd

theorem replicate (n : Nat) {c : Char} (h : isBrace c = false) : Braceless (List.replicate n c) := by
  intro d hd
  rw [List.eq_of_mem_replicate hd]
  exact h

theorem intercalate {sep : List Char} {parts : List (List Char)} (hsep : Braceless sep)
    (h : ∀ part ∈ parts, Braceless part) : Braceless (sep.intercalate parts) := by
  induction parts with
  | nil => exact braceless_nil
  | cons part rest ih =>
    have hpart := h part (.head _)
    cases rest with
    | nil => rwa [List.intercalate_singleton]
    | cons next rest =>
      rw [List.intercalate_cons_cons, braceless_append, braceless_append]
      exact ⟨⟨hpart, hsep⟩, ih fun part hmem => h part (.tail _ hmem)⟩

end Braceless

theorem braceless_join {sep : String} {parts : List String} (hsep : Braceless sep.toList)
    (h : ∀ part ∈ parts, Braceless part.toList) : Braceless (sep.intercalate parts).toList := by
  rw [String.toList_intercalate]
  refine .intercalate hsep fun cs hcs => ?_
  obtain ⟨part, hpart, rfl⟩ := List.mem_map.mp hcs
  exact h part hpart

/-! ### Digits -/

theorem isBrace_digitChar (n : Nat) : isBrace n.digitChar = false := by
  rcases Nat.lt_or_ge n 16 with hlt | hge
  · decide +revert
  have hother : n.digitChar = '*' := by
    unfold Nat.digitChar
    simp (disch := omega) only [if_neg]
  rw [hother]
  decide

theorem braceless_toDigits {base : Nat} (hbase : 1 < base) (n : Nat) : Braceless (Nat.toDigits base n) := by
  induction n using Nat.strongRecOn with
  | ind n ih =>
    rw [Nat.toDigits_eq_if hbase]
    split_ifs with hlt
    · simp [isBrace_digitChar]
    · have hless : n / base < n := Nat.div_lt_self (by omega) hbase
      simp [ih _ hless, isBrace_digitChar]

theorem braceless_toString_nat (n : Nat) : Braceless (toString n).toList := by
  show Braceless (String.ofList (Nat.toDigits 10 n)).toList
  rw [String.toList_ofList]
  exact braceless_toDigits (by decide) n

theorem braceless_toString_int (n : Int) : Braceless (toString n).toList := by
  cases n with
  | ofNat n => exact braceless_toString_nat n
  | negSucc n =>
    show Braceless ("-" ++ toString (n + 1)).toList
    exact braceless_concat.mpr ⟨by decide, braceless_toString_nat (n + 1)⟩

theorem braceless_hex (width n : Nat) : Braceless (hex width n) := by
  unfold hex
  rw [braceless_append]
  exact ⟨.replicate _ (by decide), braceless_toDigits (by decide) n⟩

/-! ### Quotes -/

theorem braceless_quoteChar (hc : isBrace c = false) : Braceless (quoteChar mark c) := by
  have hslash : isBrace '\\' = false := by decide
  have hhex := braceless_hex
  unfold quoteChar
  split_ifs <;> simp [hc, hslash, hhex] <;> decide

theorem isBrace_quoteMark (cs : List Char) : isBrace (quoteMark cs) = false := by
  unfold quoteMark
  split_ifs <;> decide

theorem braceless_quote (h : Braceless s.toList) : Braceless (quote s).toList := by
  have hmark := isBrace_quoteMark s.toList
  have hinner : Braceless (s.toList.flatMap (quoteChar (quoteMark s.toList))) :=
    .flatMap fun c hc => braceless_quoteChar (h c hc)
  unfold quote
  simp [hmark, hinner]

def bytesBraceless (bytes : List UInt8) : Bool :=
  bytes.all fun b => !isBrace (Char.ofNat b.toNat)

theorem braceless_quoteBytes {bytes : List UInt8} (h : bytesBraceless bytes) : Braceless (quoteBytes bytes).toList := by
  have hmark := isBrace_quoteMark (bytes.map fun b => Char.ofNat b.toNat)
  have hinner : ∀ mark, Braceless (bytes.flatMap (quoteByte mark)) := by
    intro mark c hc
    obtain ⟨b, hb, hc⟩ := List.mem_flatMap.mp hc
    have hbyte : isBrace (Char.ofNat b.toNat) = false := by
      simpa using List.all_eq_true.mp h b hb
    unfold quoteByte at hc
    split at hc
    · exact braceless_quoteChar hbyte c hc
    have hescape : Braceless ('\\' :: 'x' :: hex 2 b.toNat) := by
      simp [braceless_hex]
      decide
    exact hescape c hc
  unfold quoteBytes
  simp [hmark, hinner]
  decide

/-! ### Letter case -/

theorem CaseRun.lookup_eq_some {runs : List CaseRun} {m : Nat} (h : lookup runs n = some m) :
    ∃ r ∈ runs, r.covers n ∧ r.apply n = m := by
  induction runs with
  | nil => cases h
  | cons r rest ih =>
    unfold lookup at h
    split_ifs at h with hlt hcovers
    · cases h
      exact ⟨r, .head _, hcovers, rfl⟩
    · obtain ⟨r', hr', hmove⟩ := ih h
      exact ⟨r', .tail _ hr', hmove⟩

theorem toNat_of_ofNat_eq (hpos : 0 < mark.toNat) (h : Char.ofNat n = mark) : n = mark.toNat := by
  subst h
  by_cases hvalid : n.isValidChar
  · rw [Char.ofNat, dif_pos hvalid]
    rfl
  -- any other number stands for the character at place 0
  · rw [Char.ofNat, dif_neg hvalid] at hpos
    cases hpos

def CaseRun.misses (r : CaseRun) (place : Nat) : Bool :=
  !r.covers ((place : Int) - r.shift).toNat

theorem CaseRun.apply_ne_of_misses {r : CaseRun} {place : Nat} (hpos : 0 < place)
    (hmisses : r.misses place) (hcovers : r.covers n) : r.apply n ≠ place := by
  rintro rfl
  have hback : ((r.apply n : Int) - r.shift).toNat = n := by
    unfold CaseRun.apply at hpos ⊢
    omega
  unfold CaseRun.misses at hmisses
  rw [hback, hcovers] at hmisses
  cases hmisses

/-- A character that comes out of a change of case only where it went in. -/
structure Uncased (mark : Char) : Prop where
  pos : 0 < mark.toNat
  runs : ∀ r ∈ upperRuns ++ lowerRuns, r.misses mark.toNat = true
  long : ∀ e ∈ upperLong ++ lowerLong, mark.toNat ∉ e.2
  ascii : ∀ n < 128, (Char.ofNat n).toUpper = mark ∨ (Char.ofNat n).toLower = mark → Char.ofNat n = mark

theorem uncased_of_isBrace (h : isBrace c) : Uncased c := by
  have hc : c = '\x7b' ∨ c = '\x7d' := by simpa [isBrace] using h
  rcases hc with rfl | rfl
  · exact ⟨by decide, by decide +kernel, by decide +kernel, by decide +kernel⟩
  · exact ⟨by decide, by decide +kernel, by decide +kernel, by decide +kernel⟩

namespace Uncased

variable {mark c : Char}

theorem of_ascii {f : Char → Char} (hf : ∀ n < 128, f (Char.ofNat n) = mark → Char.ofNat n = mark)
    (hlt : c.toNat < 128) (hc : mark ∈ [f c]) : c = mark := by
  have h := hf c.toNat hlt
  rw [Char.ofNat_toNat] at h
  exact h (List.mem_singleton.mp hc).symm

theorem of_longCase (h : Uncased mark) {table : List (Nat × List Nat)}
    (htable : ∀ e ∈ table, e ∈ upperLong ++ lowerLong) (hcs : longCase table c.toNat = some cs)
    (hmem : mark ∈ cs) : c = mark := by
  obtain ⟨e, he, rfl⟩ := Option.map_eq_some_iff.mp hcs
  obtain ⟨m, hm, hmark⟩ := List.mem_map.mp hmem
  rw [toNat_of_ofNat_eq h.pos hmark] at hm
  exact absurd hm (h.long e (htable e (List.mem_of_find?_eq_some he)))

theorem of_lookup (h : Uncased mark) {runs : List CaseRun} (hruns : ∀ r ∈ runs, r ∈ upperRuns ++ lowerRuns)
    (hmem : mark ∈ [((CaseRun.lookup runs c.toNat).map Char.ofNat).getD c]) : c = mark := by
  cases hlookup : CaseRun.lookup runs c.toNat with
  | none =>
    rw [hlookup] at hmem
    exact (List.mem_singleton.mp hmem).symm
  | some m =>
    rw [hlookup] at hmem
    obtain ⟨r, hr, hcovers, rfl⟩ := CaseRun.lookup_eq_some hlookup
    have hplace := toNat_of_ofNat_eq h.pos (List.mem_singleton.mp hmem).symm
    exact absurd hplace (CaseRun.apply_ne_of_misses h.pos (h.runs r (hruns r hr)) hcovers)

theorem eq_of_mem_upperChar (h : Uncased mark) (hmem : mark ∈ upperChar c) : c = mark := by
  unfold upperChar at hmem
  split_ifs at hmem with hlt
  · exact of_ascii (fun n hn heq => h.ascii n hn (.inl heq)) hlt hmem
  · split at hmem
    · next cs hcs => exact h.of_longCase (fun e he => List.mem_append_left _ he) hcs hmem
    · exact h.of_lookup (fun r hr => List.mem_append_left _ hr) hmem

theorem eq_of_mem_lowerChar (h : Uncased mark) (hmem : mark ∈ lowerChar c) : c = mark := by
  unfold lowerChar at hmem
  split_ifs at hmem with hlt
  · exact of_ascii (fun n hn heq => h.ascii n hn (.inr heq)) hlt hmem
  · split at hmem
    · next cs hcs => exact h.of_longCase (fun e he => List.mem_append_right _ he) hcs hmem
    · exact h.of_lookup (fun r hr => List.mem_append_right _ hr) hmem

theorem mem_of_mem_upperFirstChars (h : Uncased mark) (hmem : mark ∈ upperFirstChars cs) : mark ∈ cs := by
  cases cs with
  | nil => exact hmem
  | cons c rest =>
    rcases List.mem_append.mp hmem with hmem | hmem
    · rw [h.eq_of_mem_upperChar hmem]
      exact .head _
    · exact .tail _ hmem

end Uncased

theorem braceless_of_uncased (h : ∀ mark, Uncased mark → mark ∈ ds → mark ∈ cs)
    (hcs : Braceless cs) : Braceless ds := by
  intro d hd
  rw [Bool.eq_false_iff]
  intro hbrace
  exact Bool.eq_false_iff.mp (hcs d (h d (uncased_of_isBrace hbrace) hd)) hbrace

theorem braceless_upperChar (hc : isBrace c = false) : Braceless (upperChar c) := by
  have hsingle : Braceless [c] := by simpa using hc
  exact braceless_of_uncased (fun _ h hmem => List.mem_singleton.mpr (h.eq_of_mem_upperChar hmem).symm) hsingle

theorem braceless_lowerChar (hc : isBrace c = false) : Braceless (lowerChar c) := by
  have hsingle : Braceless [c] := by simpa using hc
  exact braceless_of_uncased (fun _ h hmem => List.mem_singleton.mpr (h.eq_of_mem_lowerChar hmem).symm) hsingle

theorem braceless_lowerFrom (before : List Char) (h : Braceless cs) : Braceless (lowerFrom before cs) := by
  induction cs generalizing before with
  | nil => exact h
  | cons c rest ih =>
    rw [braceless_cons] at h
    unfold lowerFrom lowerAmid
    rw [braceless_append]
    refine ⟨?_, ih _ h.2⟩
    split_ifs
    · simp [isBrace]
    · simp [isBrace]
    · exact braceless_lowerChar h.1

theorem braceless_upper (h : Braceless s.toList) : Braceless (upper s).toList := by
  unfold upper
  rw [String.toList_ofList]
  exact .flatMap fun c hc => braceless_upperChar (h c hc)

/-! ### Pieces -/

theorem mem_of_mem_splitChars {piece : List Char} (hpiece : piece ∈ splitChars mark cs) (hc : c ∈ piece) : c ∈ cs := by
  induction cs generalizing piece with
  | nil =>
    rw [List.mem_singleton.mp hpiece] at hc
    exact hc
  | cons d rest ih =>
    unfold splitChars at hpiece
    split_ifs at hpiece
    · rcases List.mem_cons.mp hpiece with rfl | hpiece
      · cases hc
      · exact .tail _ (ih hpiece hc)
    split at hpiece
    · rw [List.mem_singleton.mp hpiece] at hc
      rw [List.mem_singleton.mp hc]
      exact .head _
    · next first others hsplit =>
      rw [hsplit] at ih
      rcases List.mem_cons.mp hpiece with rfl | hpiece
      · rcases List.mem_cons.mp hc with rfl | hc
        · exact .head _
        · exact .tail _ (ih (.head _) hc)
      · exact .tail _ (ih (.tail _ hpiece) hc)

theorem mem_of_mem_trimChars {p : Char → Bool} (h : c ∈ trimChars p cs) : c ∈ cs := by
  unfold trimChars at h
  rw [List.mem_reverse] at h
  have h := (List.dropWhile_sublist p).subset h
  rw [List.mem_reverse] at h
  exact (List.dropWhile_sublist p).subset h

theorem braceless_trim (h : Braceless s.toList) : Braceless (trim s).toList := by
  unfold trim
  rw [String.toList_ofList]
  exact h.of_mem fun c hc => mem_of_mem_trimChars hc

theorem braceless_replaceChars {pat new : List Char} (hnew : Braceless new) (h : Braceless cs) :
    Braceless (replaceChars pat new cs) := by
  fun_induction replaceChars pat new cs with
  | case1 => exact h
  | case2 c rest _ ih =>
    rw [braceless_append]
    exact ⟨hnew, ih ((braceless_cons.mp h).2.of_mem fun d hd => List.mem_of_mem_drop hd)⟩
  | case3 c rest _ ih =>
    rw [braceless_cons] at h ⊢
    exact ⟨h.1, ih h.2⟩

theorem braceless_squeeze (hmark : isBrace mark = false) (h : Braceless cs) : Braceless (squeeze mark cs) := by
  fun_induction squeeze mark cs with
  | case1 cs _ ih => exact ih (braceless_replaceChars (by simp [hmark]) h)
  | case2 => exact h

end Text

/-! ## Names -/

namespace Naming

open Text

theorem mem_of_mem_pascal (h : Uncased mark) (hne : mark ≠ '_')
    (hmem : mark ∈ (pascal name).toList) : mark ∈ name.toList := by
  unfold pascal at hmem
  rw [String.toList_ofList] at hmem
  obtain ⟨piece, hpiece, hmem⟩ := List.mem_flatMap.mp hmem
  obtain ⟨c, hc, hmark⟩ := List.mem_map.mp (mem_of_mem_splitChars hpiece (h.mem_of_mem_upperFirstChars hmem))
  split_ifs at hmark
  · exact absurd hmark.symm hne
  · exact hmark ▸ hc

theorem braceless_pascal (h : Braceless name.toList) : Braceless (pascal name).toList := by
  intro d hd
  rw [Bool.eq_false_iff]
  intro hbrace
  have hne : d ≠ '_' := by
    rintro rfl
    cases hbrace
  exact Bool.eq_false_iff.mp (h d (mem_of_mem_pascal (uncased_of_isBrace hbrace) hne hd)) hbrace

theorem braceless_snake (h : Braceless name.toList) : Braceless (snake name).toList := by
  unfold snake snakeChars
  rw [String.toList_ofList]
  refine braceless_lowerFrom [] fun c hc => ?_
  rcases ((underscored_breakHumps _).trans (underscored_breakJoints _)).eq_or_mem hc with rfl | hc
  · decide
  · exact h c hc

theorem braceless_constantCase (name : String) : Braceless (constantCase name).toList := by
  have hmarked : Braceless (name.toList.map fun c => if isConstantChar c then c else '_') := by
    intro d hd
    obtain ⟨c, _, rfl⟩ := List.mem_map.mp hd
    split_ifs with hconstant
    · rw [isBrace, Bool.or_eq_false_iff, beq_eq_false_iff_ne, beq_eq_false_iff_ne]
      constructor <;> (rintro rfl; exact absurd hconstant (by decide))
    · decide
  unfold constantCase
  rw [String.toList_ofList]
  refine Braceless.of_mem (braceless_squeeze (by decide) ?_) fun c hc => mem_of_mem_trimChars hc
  split_ifs
  · rw [braceless_append]
    exact ⟨by simp [isBrace], hmarked⟩
  · exact hmarked

end Naming

end Typewright
