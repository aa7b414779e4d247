import Typewright.Declaration.CSharp
import Typewright.Declaration.Python
import Typewright.Declaration.TypeScript
import Typewright.Proofs.RefRun
import Typewright.Proofs.TextParts

/-!
# Names of members without a table of names

A text that an enumeration lists is raised to capitals for the name of its member, and loses the title if it then
starts with it.
-/

namespace Typewright

open Text


variable {title v w : String} {cs : List Char}

namespace Naming

/-- The name of the member for a text: its capitals, without the title if they start with it. -/
def textName (title text : String) : String :=
  if Text.startsWith (upper text) title then dropFirst title.length (upper text)
  else upper text

theorem memberName_text (title text : String) (i : Int) :
    memberName .empty (.str text) i (.str title) = .ok (.str (textName title text)) := by
  show dropTitle (.str title) (.str (upper text)) = _
  rw [dropTitle, textName]
  cases htitle : (Value.str title).truthy with
  | true => rfl
  | false =>
    have hempty : title = "" := by simpa [Value.truthy, Scalar.truthy] using htitle
    subst hempty
    simp [startsWith, dropFirst]

theorem exists_memberDescription (descriptions value : Value) (i : Nat) :
    ∃ description, memberDescription descriptions value i = .ok description := by
  suffices h : ∃ beside, besideValue descriptions value i = .ok beside by
    obtain ⟨beside, hbeside⟩ := h
    exact ⟨beside.getD .null, by rw [memberDescription, hbeside]; rfl⟩
  cases descriptions with
  | list xs =>
    by_cases hi : i < xs.length
    · have hplace : itemAtPlace xs i = .ok (xs.get ⟨i, hi⟩) := by
        simp [itemAtPlace, show ¬ (i : Int) < 0 by omega, List.getElem?_eq_getElem hi]
      exact ⟨some _, by rw [besideValue, if_pos (Int.ofNat_lt.mpr hi), hplace]; rfl⟩
    · exact ⟨none, if_neg fun hlt => hi (Int.ofNat_lt.mp hlt)⟩
  | _ => exact ⟨_, rfl⟩

/-! ## Which texts share a name -/

theorem startsWith_iff {text start : String} : startsWith text start ↔ ∃ rest, text = start ++ rest := by
  rw [startsWith, List.isPrefixOf_iff_prefix]
  constructor
  · rintro ⟨rest, hrest⟩
    exact ⟨String.ofList rest, String.toList_injective (by simp [hrest])⟩
  · rintro ⟨rest, rfl⟩
    exact ⟨rest.toList, by simp⟩

theorem dropFirst_append (start rest : String) : dropFirst start.length (start ++ rest) = rest := by
  rw [dropFirst, String.toList_append, ← String.length_toList, List.drop_left, String.ofList_toList]

/-- One text in capitals is the other, or is the other behind the title. -/
def SharesName (title v w : String) : Prop :=
  upper v = upper w ∨
    (upper v = title ++ upper w ∧ Text.startsWith (upper w) title = false) ∨
    (upper w = title ++ upper v ∧ Text.startsWith (upper v) title = false)

theorem textName_eq_iff : textName title v = textName title w ↔ SharesName title v w := by
  unfold textName SharesName
  cases hv : startsWith (upper v) title with
  | true =>
    obtain ⟨a, ha⟩ := startsWith_iff.mp hv
    rw [if_pos rfl, ha, dropFirst_append]
    cases hw : startsWith (upper w) title with
    | true =>
      obtain ⟨b, hb⟩ := startsWith_iff.mp hw
      rw [if_pos rfl, hb, dropFirst_append]
      simp
    | false =>
      have hne : title ++ a ≠ upper w := by
        intro heq
        rw [← heq, ← ha, hv] at hw
        cases hw
      simp [hne]
  | false =>
    rw [if_neg Bool.false_ne_true]
    cases hw : startsWith (upper w) title with
    | true =>
      obtain ⟨b, hb⟩ := startsWith_iff.mp hw
      rw [if_pos rfl, hb, dropFirst_append]
      have hne : upper v ≠ title ++ b := by
        intro heq
        rw [heq, ← hb, hw] at hv
        cases hv
      simp [hne, eq_comm]
    | false =>
      have hne : ∀ {a b : String}, startsWith a title = false → a ≠ title ++ b := by
        rintro a b ha rfl
        rw [startsWith_iff.mpr ⟨b, rfl⟩] at ha
        cases ha
      simp [hne hv, hne hw]

/-! ## Legal names -/

/-- Letters, digits and underscores, and no digit first. -/
def isLegalName (name : String) : Bool :=
  !name.toList.isEmpty && name.toList.all (fun c => c.isAlphanum || c = '_') && !name.toList.head?.any Char.isDigit

def isAscii (text : String) : Bool :=
  text.toList.all (·.toNat < 128)

theorem toList_upper_of_isAscii (h : isAscii v) : (upper v).toList = v.toList.map Char.toUpper := by
  rw [upper, String.toList_ofList, List.map_eq_flatMap]
  refine List.flatMap_congr fun c hc => ?_
  rw [upperChar, if_pos (of_decide_eq_true (List.all_eq_true.mp h c hc))]

theorem isLegalName_map_toUpper (h : ∀ c ∈ cs, c.toNat < 128) :
    isLegalName (String.ofList (cs.map Char.toUpper)) = isLegalName (String.ofList cs) := by
  have hchar : ∀ c ∈ cs, (c.toUpper.isAlphanum || decide (c.toUpper = '_')) = (c.isAlphanum || decide (c = '_')) ∧
      c.toUpper.isDigit = c.isDigit := fun c hc => forall_ascii (by decide +kernel) (h c hc)
  unfold isLegalName
  rw [String.toList_ofList, String.toList_ofList, List.all_map]
  have hwords : cs.all ((fun c => c.isAlphanum || decide (c = '_')) ∘ Char.toUpper) =
      cs.all fun c => c.isAlphanum || decide (c = '_') := by
    rw [Bool.eq_iff_iff, List.all_eq_true, List.all_eq_true]
    exact forall₂_congr fun c hc => by rw [Function.comp_apply, (hchar c hc).1]
  rw [hwords]
  cases cs with
  | nil => rfl
  | cons c rest => simp [(hchar c (.head _)).2]

/-- What the name of a member is made of: the text, without as many characters as the title has if its capitals
start with that. -/
def ownPart (title text : String) : String :=
  if Text.startsWith (upper text) title then dropFirst title.length text else text

theorem isLegalName_textName (h : isAscii v) : isLegalName (textName title v) = isLegalName (ownPart title v) := by
  have hupper := toList_upper_of_isAscii h
  have hascii : ∀ c ∈ v.toList, c.toNat < 128 := fun c hc => of_decide_eq_true (List.all_eq_true.mp h c hc)
  unfold textName ownPart
  split
  · rw [dropFirst, hupper, ← List.map_drop]
    exact isLegalName_map_toUpper fun c hc => hascii c (List.mem_of_mem_drop hc)
  · rw [← String.ofList_toList (s := upper v), hupper, isLegalName_map_toUpper hascii, String.ofList_toList]

end Naming

/-! ## The members of enumerations -/

open Naming

theorem exists_members {α : Type} {f : Nat → List Value → Except Fault (List α)} {n : α → String}
    (hnil : ∀ i, f i [] = .ok []) (hcons : ∀ i text rest ms, f (i + 1) rest = .ok ms →
      ∃ m, f i (.str text :: rest) = .ok (m :: ms) ∧ n m = textName title text) (values : List String) (i : Nat) :
    ∃ ms, f i (values.map .str) = .ok ms ∧ ms.map n = values.map (textName title) := by
  induction values generalizing i with
  | nil => exact ⟨[], hnil i, rfl⟩
  | cons text rest ih =>
    obtain ⟨ms, hms, hnames⟩ := ih (i + 1)
    obtain ⟨m, hm, hname⟩ := hcons i text _ ms hms
    exact ⟨m :: ms, hm, by rw [List.map_cons, List.map_cons, hname, hnames]⟩

/-- The enumerations of three languages have the same members for a list of texts. Their names differ exactly if
no two of the texts share one. The name for a text in ASCII is legal exactly if what the title leaves of the text
is. -/
theorem member_names_legal_iff (title : String) (values : List String) : (∀ descriptions i, ∃ ps ts cs,
      Python.members title .empty descriptions i (values.map .str) = .ok ps ∧
      TypeScript.members title .empty descriptions i (values.map .str) = .ok ts ∧
      CSharp.members title .empty descriptions i (values.map .str) = .ok cs ∧
      ps.map (·.name) = values.map (textName title) ∧ ts.map (·.name) = values.map (textName title) ∧
      cs.map (·.name) = values.map (textName title)) ∧
    ((values.map (textName title)).Nodup ↔ values.Pairwise fun v w => ¬ SharesName title v w) ∧
    ∀ v ∈ values, isAscii v = true →
      (isLegalName (textName title v) = true ↔ isLegalName (ownPart title v) = true) := by
  refine ⟨fun descriptions i => ?_, ?_, fun v _ hascii => by rw [isLegalName_textName hascii]⟩
  · have hdescribed := fun text i => exists_memberDescription descriptions (.str text) i
    obtain ⟨ps, hps, hpnames⟩ := exists_members (f := Python.members title .empty descriptions) (n := (·.name))
      (fun _ => rfl) (fun i text rest ms hms => by
        obtain ⟨description, hdescription⟩ := hdescribed text i
        exact ⟨_, by rw [Python.members, memberName_text, hdescription, hms]; rfl, rfl⟩) values i
    obtain ⟨ts, hts, htnames⟩ := exists_members (f := TypeScript.members title .empty descriptions) (n := (·.name))
      (fun _ => rfl) (fun i text rest ms hms => by
        obtain ⟨description, hdescription⟩ := hdescribed text i
        exact ⟨_, by rw [TypeScript.members, memberName_text, hdescription, hms]; rfl, rfl⟩) values i
    obtain ⟨cs, hcs, hcnames⟩ := exists_members (f := CSharp.members title .empty descriptions) (n := (·.name))
      (fun _ => rfl) (fun i text rest ms hms => by
        obtain ⟨description, hdescription⟩ := hdescribed text i
        exact ⟨_, by rw [CSharp.members, memberName_text, hdescription, hms]; rfl, rfl⟩) values i
    exact ⟨ps, ts, cs, hps, hts, hcs, hpnames, htnames, hcnames⟩
  · rw [List.Nodup, List.pairwise_map]
    simp only [ne_eq, textName_eq_iff]

/-- Values that differ can have one name, and characters that no name can hold stay. -/
theorem member_names_shared : (Python.members "Mark" .empty .empty 0 (["a-b", "x", "X", "MarkX"].map .str)).map
      (·.map fun m => (m.name, isLegalName m.name)) =
      .ok [("A-B", false), ("X", true), ("X", true), ("MARKX", true)] := by
  decide +kernel

end Typewright
