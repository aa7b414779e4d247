import Typewright.Naming.EnumMember
import Typewright.Proofs.Braces
import Typewright.Proofs.SchemaShape

/-!
# Values without braces

A value is braceless if no text in it, be it a key, a member or an item, has a brace.
-/

namespace Typewright

open Text

variable {name part s : String} {v : Value}

/-! ## Numbers and dates -/

namespace Binary64

theorem braceless_digits_shortest (m : Nat) (e : Int) : Braceless (shortest m e).digits := by
  have hdigits : Braceless (Nat.toDigits 10 (shortestFrom m e 17 1).1) := braceless_toDigits (by decide) _
  refine hdigits.of_mem fun c hc => ?_
  have hc := (List.dropWhile_sublist _).subset (List.mem_reverse.mp hc)
  exact List.mem_reverse.mp hc

theorem braceless_exponentText (e : Int) : Braceless (exponentText e) := by
  have hdigits : Braceless (Nat.toDigits 10 e.natAbs) := braceless_toDigits (by decide) _
  unfold exponentText
  dsimp only
  split_ifs <;> simp [hdigits] <;> decide

theorem Decimal.braceless_text {d : Decimal} (h : Braceless d.digits) : Braceless d.text := by
  have hexponent := braceless_exponentText (d.point - 1)
  have hpoint : isBrace '.' = false := by decide
  have hzero : isBrace '0' = false := by decide
  have he : isBrace 'e' = false := by decide
  have hscientific : Braceless d.scientific := by
    unfold scientific
    split
    · simp [hzero]
    · next c hdigits =>
      rw [hdigits] at h
      simp_all
    · next c rest _ hdigits =>
      rw [hdigits] at h
      simp_all
  have hpositional : Braceless d.positional := by
    unfold positional
    dsimp only
    have hzeros := fun n => Braceless.replicate n hzero
    have htake := h.of_mem fun c hc => List.mem_of_mem_take (i := d.point.toNat) hc
    have hdrop := h.of_mem fun c hc => List.mem_of_mem_drop (i := d.point.toNat) hc
    split_ifs <;> simp [h, hzero, hpoint, hzeros, htake, hdrop]
  unfold text
  split_ifs
  · exact hscientific
  · exact hpositional

theorem braceless_text (x : Binary64) : Braceless x.text.toList := by
  unfold text
  split
  · simp [isBrace]
  · simp [isBrace]
  · simp [isBrace]
  · next negative m e =>
    have hbody := Decimal.braceless_text (braceless_digits_shortest m e)
    rw [String.toList_ofList]
    split_ifs <;> simp [hbody] <;> decide

end Binary64

theorem braceless_padded (width n : Nat) : Braceless (padded width n).toList := by
  unfold padded
  rw [String.toList_ofList, braceless_append]
  exact ⟨.replicate _ (by decide), braceless_toDigits (by decide) n⟩

namespace Date

theorem braceless_text (d : Date) : Braceless d.text.toList := by
  have hpadded := braceless_padded
  have hdash : Braceless "-".toList := by decide
  simp only [text, braceless_concat, hpadded, hdash, and_self]

theorem braceless_parts (d : Date) : ∀ part ∈ d.parts, Braceless part.toList := by
  simp only [parts, List.forall_mem_cons, braceless_toString_nat, true_and, List.not_mem_nil, false_imp_iff,
    implies_true]

end Date

namespace Timestamp

theorem braceless_offsetText (minutes : Int) : Braceless (offsetText minutes).toList := by
  have hsign : Braceless (if minutes < 0 then "-" else "+").toList := by
    split_ifs <;> decide
  have hcolon : Braceless ":".toList := by decide
  simp only [offsetText, braceless_concat, braceless_padded, hsign, hcolon, and_self]

theorem braceless_text (t : Timestamp) : Braceless t.text.toList := by
  have hoffset : Braceless ((t.offset.map offsetText).getD "").toList := by
    cases t.offset with
    | none => decide
    | some minutes => exact braceless_offsetText minutes
  have hmicro : Braceless (if t.micro = 0 then "" else "." ++ padded 6 t.micro).toList := by
    split_ifs
    · decide
    · exact braceless_concat.mpr ⟨by decide, braceless_padded _ _⟩
  have hblank : Braceless " ".toList := by decide
  have hcolon : Braceless ":".toList := by decide
  simp only [text, braceless_concat, braceless_padded, Date.braceless_text, hoffset, hmicro, hblank, hcolon, and_self]

theorem braceless_spanText (minutes : Int) : Braceless (spanText minutes).toList := by
  have hpart : ∀ (name : String) (n : Int), Braceless name.toList →
      ∀ part ∈ (if n = 0 then [] else [name ++ toString n]), Braceless part.toList := by
    intro name n hname part hpart
    split_ifs at hpart
    · cases hpart
    · rw [List.mem_singleton.mp hpart]
      exact braceless_concat.mpr ⟨hname, braceless_toString_int n⟩
  have hjoined : ∀ parts : List String, (∀ part ∈ parts, Braceless part.toList) →
      Braceless (if parts.isEmpty then "0" else ", ".intercalate parts).toList := by
    intro parts hparts
    split_ifs
    · decide
    · exact braceless_join (by decide) hparts
  unfold spanText
  refine braceless_concat.mpr ⟨braceless_concat.mpr ⟨by decide, hjoined _ ?_⟩, by decide⟩
  exact List.forall_mem_append.mpr ⟨hpart "days=" _ (by decide), hpart "seconds=" _ (by decide)⟩

theorem braceless_zoneText (minutes : Int) : Braceless (zoneText minutes).toList := by
  unfold zoneText
  split_ifs
  · decide
  · exact braceless_concat.mpr ⟨braceless_concat.mpr ⟨by decide, braceless_spanText minutes⟩, by decide⟩

theorem braceless_parts (t : Timestamp) : ∀ part ∈ t.parts, Braceless part.toList := by
  have hnumber : ∀ (shown : Bool) (n : Nat), ∀ part ∈ (if shown then [] else [toString n]), Braceless part.toList := by
    intro shown n part hpart
    cases shown with
    | true => cases hpart
    | false =>
      rw [List.mem_singleton.mp hpart]
      exact braceless_toString_nat n
  unfold parts
  simp only [List.forall_mem_append]
  refine ⟨⟨⟨⟨Date.braceless_parts t.date, ?_⟩, ?_⟩, ?_⟩, ?_⟩
  · simp only [List.forall_mem_cons, braceless_toString_nat, true_and, List.not_mem_nil, false_imp_iff, implies_true]
  · exact hnumber _ _
  · have hmicro := hnumber (decide (t.micro = 0)) t.micro
    simpa only [decide_eq_true_eq] using hmicro
  intro part hpart
  split at hpart
  · cases hpart
  · rw [List.mem_singleton.mp hpart]
    exact braceless_concat.mpr ⟨by decide, braceless_zoneText _⟩

end Timestamp

/-! ## Scalars -/

namespace Scalar

/-- Whether the scalar has no brace, if it is a text or bytes. -/
def isBraceless : Scalar → Bool
  | .str s => s.toList.all (!isBrace ·)
  | .bytes b => bytesBraceless b
  | _ => true

theorem isBraceless_str_iff : (Scalar.str s).isBraceless ↔ Braceless s.toList := by
  simp [isBraceless, Braceless]

theorem braceless_quoted {s : Scalar} (h : s.isBraceless) : Braceless s.quoted.toList := by
  cases s with
  | null => decide
  | bool b => cases b <;> decide
  | int n => exact braceless_toString_int n
  | float x => exact Binary64.braceless_text x
  | str s => exact braceless_quote (isBraceless_str_iff.mp h)
  | date d =>
    have hparts : Braceless (", ".intercalate d.parts).toList := braceless_join (by decide) d.braceless_parts
    exact braceless_concat.mpr ⟨braceless_concat.mpr ⟨by decide, hparts⟩, by decide⟩
  | timestamp t =>
    have hparts : Braceless (", ".intercalate t.parts).toList := braceless_join (by decide) t.braceless_parts
    exact braceless_concat.mpr ⟨braceless_concat.mpr ⟨by decide, hparts⟩, by decide⟩
  | bytes b => exact braceless_quoteBytes h

theorem braceless_text {s : Scalar} (h : s.isBraceless) : Braceless s.text.toList := by
  unfold text
  split
  · exact isBraceless_str_iff.mp h
  · exact Date.braceless_text _
  · exact Timestamp.braceless_text _
  · exact braceless_quoted h

end Scalar

/-! ## Values -/

namespace Value

/-- Whether the keys or members of a value, or the value itself, have no braces. -/
def bracelessHere : Value → Bool
  | .scalar s => s.isBraceless
  | .map es => es.all (·.1.isBraceless)
  | .set members => members.all Scalar.isBraceless
  | _ => true

def isBraceless (v : Value) : Bool :=
  v.everywhere bracelessHere

theorem opens_intercalate {parts : List String} (h : ∀ part ∈ parts, Opens 0 part.toList) :
    Opens 0 (", ".intercalate parts).toList := by
  have hcomma : Opens 0 ", ".toList := Braceless.opens (by decide)
  induction parts with
  | nil => exact .nil
  | cons part rest ih =>
    have hpart := h part (.head _)
    cases rest with
    | nil => rwa [String.intercalate_singleton]
    | cons next rest =>
      rw [String.intercalate_cons_cons, String.toList_append, String.toList_append]
      exact (hpart.append hcomma).append (ih fun part hmem => h part (.tail _ hmem))

theorem opens_inBraces (h : Opens 0 s.toList) : Opens 0 ("\x7b" ++ s ++ "\x7d").toList := by
  have hopen : Opens 1 "\x7b".toList := fun _ => rfl
  rw [String.toList_append, String.toList_append]
  exact (hopen.append h).close

theorem mem_quotedItems {items : List Value} (h : part ∈ quotedItems items) : ∃ v ∈ items, part = v.quoted := by
  induction items with
  | nil => cases h
  | cons v rest ih =>
    rcases List.mem_cons.mp h with rfl | h
    · exact ⟨v, .head _, rfl⟩
    · obtain ⟨w, hw, rfl⟩ := ih h
      exact ⟨w, .tail _ hw, rfl⟩

theorem mem_quotedEntries {es : Entries} (h : part ∈ quotedEntries es) :
    ∃ e ∈ es, part = e.1.quoted ++ ": " ++ e.2.quoted := by
  induction es with
  | nil => cases h
  | cons e rest ih =>
    obtain ⟨key, v⟩ := e
    rcases List.mem_cons.mp h with rfl | h
    · exact ⟨(key, v), .head _, rfl⟩
    · obtain ⟨e', he', rfl⟩ := ih h
      exact ⟨e', .tail _ he', rfl⟩

/-- Maps and sets close the braces that they open. The recursion is on the depth. -/
theorem opens_quoted : (v : Value) → v.isBraceless → Opens 0 v.quoted.toList
  | .scalar s, h => (Scalar.braceless_quoted h).opens
  | .list items, h => by
    have hitems : Opens 0 (", ".intercalate (quotedItems items)).toList := by
      refine opens_intercalate fun part hpart => ?_
      obtain ⟨v, hv, rfl⟩ := mem_quotedItems hpart
      have := depth_lt_of_mem hv
      exact opens_quoted v ((everywhere_list_iff.mp h).2 v hv)
    have hleft : Opens 0 "[".toList := Braceless.opens (by decide)
    have hright : Opens 0 "]".toList := Braceless.opens (by decide)
    rw [quoted, String.toList_append, String.toList_append]
    exact (hleft.append hitems).append hright
  | .map es, h => by
    have hcolon : Opens 0 ": ".toList := Braceless.opens (by decide)
    obtain ⟨hkeys, hvalues⟩ := everywhere_map_iff.mp h
    rw [quoted]
    refine opens_inBraces (opens_intercalate fun part hpart => ?_)
    obtain ⟨e, he, rfl⟩ := mem_quotedEntries hpart
    have hkey := (Scalar.braceless_quoted (List.all_eq_true.mp hkeys e he)).opens
    have := depth_lt_of_mem_entries he
    rw [String.toList_append, String.toList_append]
    exact (hkey.append hcolon).append (opens_quoted e.2 (hvalues e he))
  | .set members, h => by
    cases members with
    | nil => exact Braceless.opens (by decide)
    | cons member rest =>
      refine opens_inBraces (opens_intercalate fun part hpart => ?_)
      obtain ⟨s, hs, rfl⟩ := List.mem_map.mp hpart
      exact (Scalar.braceless_quoted (List.all_eq_true.mp h s hs)).opens
  | .pair left right, h => by
    obtain ⟨_, hleft, hright⟩ := everywhere_pair_iff.mp h
    have hopen : Opens 0 "(".toList := Braceless.opens (by decide)
    have hcomma : Opens 0 ", ".toList := Braceless.opens (by decide)
    have hclose : Opens 0 ")".toList := Braceless.opens (by decide)
    rw [quoted]
    simp only [String.toList_append]
    exact (((hopen.append (opens_quoted left hleft)).append hcomma).append (opens_quoted right hright)).append hclose
termination_by v => v.depth
decreasing_by all_goals simp_all only [depth] <;> omega

theorem opens_text (h : v.isBraceless) : Opens 0 v.text.toList := by
  cases v with
  | scalar s => exact (Scalar.braceless_text h).opens
  | _ => exact opens_quoted _ h

theorem opens_saying (h : v.isBraceless) : Opens 0 v.saying.toList := by
  unfold saying
  split_ifs
  · exact opens_text h
  · exact .nil

theorem braceless_trimmed {text : String} (h : v.isBraceless)
    (htext : v.trimmed = .ok text) : Braceless text.toList := by
  unfold trimmed at htext
  split at htext
  · cases htext
    exact braceless_trim (Scalar.isBraceless_str_iff.mp h)
  · next b =>
    cases htext
    split_ifs
    · decide
    refine braceless_quoteBytes (List.all_eq_true.mpr fun x hx => ?_)
    have hx := (List.dropWhile_sublist _).subset (List.mem_reverse.mp hx)
    have hx := (List.dropWhile_sublist _).subset (List.mem_reverse.mp hx)
    exact List.all_eq_true.mp h x hx
  · cases htext

theorem braceless_pascalOf (h : v.isBraceless) (hname : Naming.pascalOf v = .ok name) : Braceless name.toList := by
  unfold Naming.pascalOf at hname
  split_ifs at hname
  · cases hname
    decide
  obtain ⟨text, htext, hend⟩ := bind_ok hname
  cases hend
  cases v with
  | scalar s =>
    cases s with
    | str s =>
      cases htext
      exact Naming.braceless_pascal (Scalar.isBraceless_str_iff.mp h)
    | _ => cases htext
  | _ => cases htext

theorem braceless_snakeOf (h : v.isBraceless) (hname : Naming.snakeOf v = .ok name) : Braceless name.toList := by
  unfold Naming.snakeOf at hname
  obtain ⟨text, htext, hend⟩ := bind_ok hname
  cases hend
  cases v with
  | scalar s =>
    cases s with
    | str s =>
      cases htext
      exact Naming.braceless_snake (Scalar.isBraceless_str_iff.mp h)
    | _ => cases htext
  | _ => cases htext

/-! ### Parts -/

namespace Braceless

variable {v w : Value} {name : String}

theorem of_inside (h : v.isBraceless) (inside : Inside w v) : w.isBraceless :=
  everywhere_of_inside h inside

theorem field (h : v.isBraceless) (hw : v.field name = .ok w) : w.isBraceless :=
  of_inside h (inside_of_field hw)

theorem fieldD {default : Value} (h : v.isBraceless) (hdefault : default.isBraceless)
    (hw : v.fieldD name default = .ok w) : w.isBraceless := by
  rcases field_of_fieldD hw with hfield | rfl
  · exact field h hfield
  · exact hdefault

theorem item {ws : List Value} (h : v.isBraceless) (hitems : v.items = .ok ws) (hw : w ∈ ws) : w.isBraceless := by
  unfold items at hitems
  split at hitems
  · cases hitems
    exact of_inside h (.item hw .self)
  · cases hitems
    obtain ⟨e, he, rfl⟩ := List.mem_map.mp hw
    exact List.all_eq_true.mp (everywhere_map_iff.mp h).1 e he
  · cases hitems
    obtain ⟨x, hx, rfl⟩ := List.mem_map.mp hw
    exact List.all_eq_true.mp h x hx
  · cases hitems
    simp only [List.mem_cons, List.not_mem_nil, or_false] at hw
    rcases hw with rfl | rfl
    · exact of_inside h (.left .self)
    · exact of_inside h (.right .self)
  · cases hitems
    obtain ⟨c, hc, rfl⟩ := List.mem_map.mp hw
    have hletter := List.all_eq_true.mp h c hc
    simpa [isBraceless, everywhere, bracelessHere, Scalar.isBraceless] using hletter
  · cases hitems
    obtain ⟨x, _, rfl⟩ := List.mem_map.mp hw
    rfl
  · cases hitems

theorem itemAt {pick : List Value → Option Value} {index : Int} (h : v.isBraceless)
    (hpick : ∀ ws u, pick ws = some u → u ∈ ws) (hw : v.itemAt pick index = .ok w) : w.isBraceless := by
  rcases mem_of_itemAt hpick hw with ⟨ws, hitems, mem⟩ | ⟨es, rfl, found⟩
  · exact item h hitems mem
  · obtain ⟨k, _, mem⟩ := mem_of_find? found
    exact of_inside h (.entry mem .self)

theorem entries {es : Entries} (h : v.isBraceless) (hes : v.entries = .ok es) :
    ∀ e ∈ es, e.1.isBraceless ∧ e.2.isBraceless := by
  intro e he
  cases v with
  | map es' =>
    cases hes
    obtain ⟨hkeys, hvalues⟩ := everywhere_map_iff.mp h
    exact ⟨List.all_eq_true.mp hkeys e he, hvalues e he⟩
  | _ => cases hes

theorem entriesAt {es : Entries} (h : v.isBraceless) (hes : v.entriesAt name = .ok es) :
    ∀ e ∈ es, e.1.isBraceless ∧ e.2.isBraceless := by
  intro e he
  obtain ⟨group, hgroup, hentries⟩ := field_of_entriesAt hes he
  exact entries (field h hgroup) hentries e he

end Braceless

end Value

end Typewright
