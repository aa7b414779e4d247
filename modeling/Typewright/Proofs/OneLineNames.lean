import Typewright.Naming.FieldName
import Typewright.Proofs.Braces
import Typewright.Proofs.SchemaShape

/-!
# Names on one line

The names that are made from the keys and titles of a schema are on one line if these are.
-/

namespace Typewright

variable {text : String} {c : Char} {name : Scalar} {es : Entries} {v : Value}

namespace Text

theorem uncased_lineEnd : Uncased '\n' :=
  ⟨by decide, by decide +kernel, by decide +kernel, by decide +kernel⟩

def isInLine (text : String) : Bool :=
  !text.toList.contains '\n'

theorem isInLine_iff : isInLine text ↔ '\n' ∉ text.toList := by
  simp [isInLine]

theorem toList_join_empty (parts : List String) : (join "" parts).toList = parts.flatMap String.toList := by
  rw [join, String.toList_intercalate, List.flatMap_def]
  induction parts with
  | nil => rfl
  | cons part rest ih =>
    cases rest with
    | nil => simp
    | cons next rest =>
      rw [List.map_cons, List.map_cons, List.intercalate_cons_cons, List.flatten_cons, ← List.map_cons, ih]
      simp

theorem mem_join_empty {parts : List String} (h : c ∈ (join "" parts).toList) : ∃ part ∈ parts, c ∈ part.toList := by
  rwa [toList_join_empty, List.mem_flatMap] at h

end Text

namespace Naming

open Text

theorem mem_of_mem_humpWords {cs word : List Char} (hword : word ∈ humpWords cs) (hc : c ∈ word) : c ∈ cs := by
  have htake : ∀ {p : Char → Bool} {ds : List Char}, c ∈ ds.takeWhile p → c ∈ ds :=
    fun h => (List.takeWhile_sublist _).subset h
  have hdrop : ∀ {p : Char → Bool} {ds : List Char}, c ∈ ds.dropWhile p → c ∈ ds :=
    fun h => (List.dropWhile_sublist _).subset h
  have hcons : ∀ {d : Char} {front rest : List Char}, (c ∈ front → c ∈ rest) → c ∈ d :: front → c ∈ d :: rest := by
    intro d front rest hfront hmem
    rcases List.mem_cons.mp hmem with rfl | hmem
    · exact .head _
    · exact .tail _ (hfront hmem)
  fun_induction humpWords cs with
  | case1 => cases hword
  | case2 d rest _ ih =>
    rcases List.mem_cons.mp hword with rfl | hword
    · exact hcons htake hc
    · exact .tail _ (hdrop (ih hword))
  | case3 d rest _ _ _ ih =>
    rcases List.mem_cons.mp hword with rfl | hword
    · exact hcons htake hc
    · exact .tail _ (hdrop (ih hword))
  | case4 d rest _ _ _ more after _ ih =>
    rcases List.mem_cons.mp hword with rfl | hword
    · exact hcons htake hc
    · exact .tail _ (hdrop (ih hword))
  | case5 d rest _ _ _ more after _ _ ih => exact .tail _ (ih hword)
  | case6 d rest _ _ _ more after _ _ ih =>
    rcases List.mem_cons.mp hword with rfl | hword
    · exact hcons (fun h => htake (List.dropLast_subset _ h)) hc
    -- the last capital is handed on to the words after it
    rcases List.mem_append.mp (ih hword) with hlast | hafter
    · exact .tail _ (htake (List.mem_of_getLast? (Option.mem_toList.mp hlast)))
    · exact .tail _ (hdrop hafter)
  | case7 d rest _ _ ih => exact .tail _ (ih hword)

theorem lineEnd_not_mem_pascalOf (h : pascalOf (.scalar name) = .ok text)
    (hname : ∀ key, name = .str key → '\n' ∉ key.toList) : '\n' ∉ text.toList := by
  unfold pascalOf at h
  split_ifs at h
  · cases h
    decide
  obtain ⟨key, hkey, hend⟩ := bind_ok h
  cases hend
  cases name with
  | str text =>
    cases hkey
    have hne : '\n' ≠ '_' := by decide
    exact fun hmem => hname key rfl (mem_of_mem_pascal uncased_lineEnd hne hmem)
  | _ => cases hkey

theorem lineEnd_not_mem_fieldWord {word : String} (h : fieldWord word = .ok text)
    (hword : '\n' ∉ word.toList) : '\n' ∉ text.toList := by
  have hcapitals : acronyms.all (fun a => isInLine a.2) = true := by decide
  unfold fieldWord at h
  split at h
  · next found =>
    cases h
    exact isInLine_iff.mp (List.all_eq_true.mp hcapitals _ (List.mem_of_find?_eq_some found))
  split_ifs at h
  cases h
  unfold upperFirst
  rw [String.toList_ofList]
  exact fun hmem => hword (uncased_lineEnd.mem_of_mem_upperFirstChars hmem)

theorem lineEnd_not_mem_fieldWords {words texts : List String} (h : words.mapM fieldWord = .ok texts)
    (hwords : ∀ word ∈ words, '\n' ∉ word.toList) : ∀ text ∈ texts, '\n' ∉ text.toList := by
  induction words generalizing texts with
  | nil =>
    cases h
    nofun
  | cons word rest ih =>
    rw [List.mapM_cons] at h
    obtain ⟨first, hfirst, h⟩ := bind_ok h
    obtain ⟨others, hothers, hend⟩ := bind_ok h
    cases hend
    rw [List.forall_mem_cons] at hwords ⊢
    exact ⟨lineEnd_not_mem_fieldWord hfirst hwords.1, ih hothers hwords.2⟩

theorem lineEnd_not_mem_fieldName (h : fieldName (.scalar name) = .ok text)
    (hname : ∀ key, name = .str key → '\n' ∉ key.toList) : '\n' ∉ text.toList := by
  have hjoin : ∀ words : List String, (∀ word ∈ words, '\n' ∉ word.toList) →
      (do return join "" (← words.mapM fieldWord)) = (.ok text : Except Fault String) → '\n' ∉ text.toList := by
    intro words hwords hrest hmem
    obtain ⟨texts, htexts, hend⟩ := bind_ok hrest
    cases hend
    obtain ⟨word, hword, hmem⟩ := mem_join_empty hmem
    exact lineEnd_not_mem_fieldWords htexts hwords word hword hmem
  cases name with
  | str key =>
    have hkey := hname key rfl
    unfold fieldName at h
    obtain ⟨cut, hcut, hrest⟩ := bind_ok h
    split_ifs at hrest
    · refine hjoin _ (fun word hword hmem => hkey ?_) hrest
      obtain ⟨piece, hpiece, rfl⟩ := List.mem_map.mp hword
      rw [String.toList_ofList] at hmem
      exact mem_of_mem_splitChars hpiece hmem
    · refine hjoin _ (fun word hword hmem => hkey ?_) hrest
      obtain ⟨piece, hpiece, rfl⟩ := List.mem_map.mp hword
      rw [String.toList_ofList] at hmem
      exact mem_of_mem_humpWords hpiece hmem
  | _ =>
    obtain ⟨cut, hcut, _⟩ := bind_ok h
    cases hcut

end Naming

/-! ## Schemas -/

theorem Entries.eq_or_mem_of_mem_put_str {key : String} {e : Scalar × Value}
    (h : e ∈ put es (.str key) v) : e = (.str key, v) ∨ e ∈ es := by
  induction es with
  | nil => exact .inl (List.mem_singleton.mp h)
  | cons f rest ih =>
    unfold put at h
    split at h
    · next hsame =>
      rcases List.mem_cons.mp h with rfl | h
      · exact .inl (by rw [Scalar.same_str_iff.mp hsame])
      · exact .inr (.tail _ h)
    · rcases List.mem_cons.mp h with rfl | h
      · exact .inr (.head _)
      · exact (ih h).imp id (List.mem_cons_of_mem _)

namespace Value

theorem eq_str_of_replaceable (h : v.replaceable = .ok text) : v = .str text := by
  cases v with
  | scalar x =>
    cases x with
    | str s =>
      cases h
      rfl
    | _ => cases h
  | _ => cases h

def isInLine : Value → Bool
  | .str text => Text.isInLine text
  | _ => true

/-- Whether the keys of a map are on one line, and so is its title. -/
def namedInLineHere : Value → Bool
  | .map es => es.all fun e => (Value.scalar e.1).isInLine && (!e.1.isStr "title" || e.2.isInLine)
  | _ => true

/-- Whether no key and no title in the value has a line end. -/
def isNamedInLine (v : Value) : Bool :=
  v.everywhere namedInLineHere

variable {v w : Value}

theorem isNamedInLine_of_inside (h : v.isNamedInLine) (inside : Inside w v) : w.isNamedInLine :=
  everywhere_of_inside h inside

def NamedInLine (e : Scalar × Value) : Prop :=
  (∀ key, e.1 = .str key → '\n' ∉ key.toList) ∧ e.2.isNamedInLine = true

theorem isInLine_of_key (h : ∀ key, name = .str key → '\n' ∉ key.toList) : (Value.scalar name).isInLine := by
  cases name with
  | str key => exact Text.isInLine_iff.mpr (h key rfl)
  | _ => rfl

theorem namedInLine_of_entries (h : v.isNamedInLine) (hes : v.entries = .ok es) : ∀ e ∈ es, NamedInLine e := by
  intro e he
  refine ⟨fun key hkey => ?_, isNamedInLine_of_inside h (inside_of_entries hes he)⟩
  cases v with
  | map entries =>
    cases hes
    have hhere := List.all_eq_true.mp (everywhere_map_iff.mp h).1 e he
    rw [Bool.and_eq_true, hkey] at hhere
    exact Text.isInLine_iff.mp hhere.1
  | _ => cases hes

theorem namedInLine_of_entriesAt {name : String} (h : v.isNamedInLine)
    (hes : v.entriesAt name = .ok es) : ∀ e ∈ es, NamedInLine e := by
  intro e he
  obtain ⟨group, hgroup, hentries⟩ := field_of_entriesAt hes he
  exact namedInLine_of_entries (isNamedInLine_of_inside h (inside_of_field hgroup)) hentries e he

theorem isInLine_title {title : Value} (h : (Value.map es).isNamedInLine)
    (found : Entries.find? es (.str "title") = some title) : title.isInLine := by
  obtain ⟨k, hsame, hmem⟩ := mem_of_find? found
  have hhere := List.all_eq_true.mp (everywhere_map_iff.mp h).1 _ hmem
  rw [Bool.and_eq_true, Scalar.same_str_iff.mp hsame] at hhere
  simpa [Scalar.isStr] using hhere.2

theorem lineEnd_not_mem_titleOrRoot {title : String} (h : v.isNamedInLine)
    (htitle : v.titleOrRoot = .ok title) : '\n' ∉ title.toList := by
  obtain ⟨text, htext, hend⟩ := bind_ok htitle
  cases hend
  split_ifs
  · decide
  obtain ⟨raw, hraw, hwithout⟩ := bind_ok htext
  obtain ⟨given, hgiven, hend⟩ := bind_ok hwithout
  cases hend
  have hline : raw.isInLine := by
    rcases field_of_fieldD hraw with hfield | rfl
    · obtain ⟨es, rfl, found⟩ := field_eq_ok hfield
      exact isInLine_title h found
    · decide
  have hraw : raw = .str given := eq_str_of_replaceable hgiven
  rw [hraw] at hline
  unfold Text.without
  rw [String.toList_ofList]
  exact fun hmem => Text.isInLine_iff.mp hline (List.mem_of_mem_filter hmem)

theorem isNamedInLine_withTitle {title : Scalar} {w : Within v} (h : v.isNamedInLine)
    (htitle : (Value.scalar title).isInLine) (hw : v.withTitle title = .ok w) : w.val.isNamedInLine := by
  unfold withTitle at hw
  split at hw
  · next es =>
    cases hw
    obtain ⟨hhere, hbelow⟩ := everywhere_map_iff.mp h
    refine everywhere_map_iff.mpr ⟨List.all_eq_true.mpr fun e he => ?_, fun e he => ?_⟩
    · rcases Entries.eq_or_mem_of_mem_put_str he with rfl | hmem
      · simp only [htitle, Bool.or_true, Bool.and_true]
        decide
      · exact List.all_eq_true.mp hhere e hmem
    · rcases Entries.eq_or_mem_of_mem_put_str he with rfl | hmem
      · rfl
      · exact hbelow e hmem
  all_goals cases hw

end Value

end Typewright
