import Typewright.Proofs.GoFields
import Typewright.Proofs.InnerTypes

/-!
# Reading struct tags

A struct tag stands between backquotes: pairs of a key and a value in quotes. It can be read back if no value in it
holds a quote, a backslash or a backquote.
-/

namespace Typewright.Go

open RefM

variable {f : Field} {schema : Value} {limits : List String} {out : List String}

/-- Where a reader of struct tags stands. It keeps what it has read of a pair, last character first. -/
inductive TagPlace where
  | inKey (read : List Char)
  | afterColon (key : List Char)
  | inValue (key read : List Char)
  | afterPair

def readPairs : TagPlace → List Char → Option (List Tag)
  | _, [] => none
  | .inKey read, c :: rest =>
    if c = ':' then (if read.isEmpty then none else readPairs (.afterColon read) rest)
    else if c ∈ [' ', '"', '`'] then none
    else readPairs (.inKey (c :: read)) rest
  | .afterColon key, c :: rest => if c = '"' then readPairs (.inValue key []) rest else none
  | .inValue key read, c :: rest =>
    if c = '"' then
      (readPairs .afterPair rest).map (⟨String.ofList key.reverse, String.ofList read.reverse⟩ :: ·)
    else if c ∈ ['\\', '`'] then none
    else readPairs (.inValue key (c :: read)) rest
  | .afterPair, c :: rest =>
    if c = ' ' then readPairs (.inKey []) rest
    else if c = '`' ∧ rest = [] then some []
    else none

/-- The pairs of a struct tag; none if it cannot be read. -/
def readTags (text : String) : Option (List Tag) :=
  match text.toList with
  | '`' :: rest => readPairs (.inKey []) rest
  | _ => none

def isQuotable (text : String) : Bool :=
  text.toList.all fun c => c ∉ ['"', '\\', '`']

/-! ## Reading what was written -/

theorem readPairs_key {key : List Char} (h : ∀ c ∈ key, c ∉ [':', ' ', '"', '`']) (read rest : List Char) :
    readPairs (.inKey read) (key ++ ':' :: rest) =
      if (key.reverse ++ read).isEmpty then none else readPairs (.afterColon (key.reverse ++ read)) rest := by
  induction key generalizing read with
  | nil => rfl
  | cons c key ih =>
    have hc := h c (.head _)
    rw [List.mem_cons, not_or] at hc
    rw [List.cons_append, readPairs, if_neg hc.1, if_neg hc.2, ih fun d hd => h d (.tail _ hd)]
    simp

theorem readPairs_value {value : List Char} (h : ∀ c ∈ value, c ∉ ['"', '\\', '`']) (key read rest : List Char) :
    readPairs (.inValue key read) (value ++ '"' :: rest) = (readPairs .afterPair rest).map
        (⟨String.ofList key.reverse, String.ofList (value.reverse ++ read).reverse⟩ :: ·) := by
  induction value generalizing read with
  | nil => rfl
  | cons c value ih =>
    have hc := h c (.head _)
    rw [List.mem_cons, not_or] at hc
    rw [List.cons_append, readPairs, if_neg hc.1, if_neg hc.2, ih fun d hd => h d (.tail _ hd)]
    simp

/-- A pair with a key that ends at its colon. -/
def Tag.HasKey (t : Tag) : Prop :=
  t.key.toList ≠ [] ∧ ∀ c ∈ t.key.toList, c ∉ [':', ' ', '"', '`']

theorem readPairs_pair {t : Tag} (hkey : t.HasKey) (hvalue : isQuotable t.value) (rest : List Char) :
    readPairs (.inKey []) (t.text.toList ++ rest) = (readPairs .afterPair rest).map (t :: ·) := by
  have hchars : t.text.toList ++ rest = t.key.toList ++ ':' :: '"' :: (t.value.toList ++ '"' :: rest) := by
    simp [Tag.text, String.toList_append]
  have hquotable : ∀ c ∈ t.value.toList, c ∉ ['"', '\\', '`'] := by
    intro c hc
    exact of_decide_eq_true (List.all_eq_true.mp hvalue c hc)
  rw [hchars, readPairs_key hkey.2, if_neg (by simpa using hkey.1), readPairs, if_pos rfl, readPairs_value hquotable]
  simp

theorem readPairs_pairs {t : Tag} {ts : List Tag} (h : ∀ u ∈ t :: ts, u.HasKey ∧ isQuotable u.value) :
    readPairs (.inKey []) ((Text.join " " ((t :: ts).map Tag.text)).toList ++ ['`']) = some (t :: ts) := by
  induction ts generalizing t with
  | nil =>
    obtain ⟨hkey, hvalue⟩ := h t (.head _)
    rw [List.map_singleton, Text.join, String.intercalate_singleton, readPairs_pair hkey hvalue]
    rfl
  | cons u ts ih =>
    obtain ⟨hkey, hvalue⟩ := h t (.head _)
    have hchars : (Text.join " " ((t :: u :: ts).map Tag.text)).toList ++ ['`'] =
        t.text.toList ++ ' ' :: ((Text.join " " ((u :: ts).map Tag.text)).toList ++ ['`']) := by
      simp [Text.join, String.toList_intercalate]
    rw [hchars, readPairs_pair hkey hvalue, readPairs, if_pos rfl, ih fun v hv => h v (.tail _ hv)]
    rfl

theorem isQuotable_of_readPairs {place : TagPlace} {cs : List Char} {ts : List Tag}
    (hread : ∀ key read, place = .inValue key read → ∀ c ∈ read, c ∉ ['"', '\\', '`'])
    (h : readPairs place cs = some ts) : ∀ t ∈ ts, isQuotable t.value := by
  induction cs generalizing place ts with
  | nil => cases place <;> cases h
  | cons c rest ih =>
    cases place with
    | inKey read =>
      rw [readPairs] at h
      split at h
      · split at h
        · cases h
        · exact ih (by rintro _ _ ⟨⟩) h
      · split at h
        · cases h
        · exact ih (by rintro _ _ ⟨⟩) h
    | afterColon key =>
      rw [readPairs] at h
      split at h
      · refine ih ?_ h
        rintro _ _ ⟨⟩ c hc
        cases hc
      · cases h
    | inValue key read =>
      have hvalue := hread key read rfl
      rw [readPairs] at h
      split at h
      · obtain ⟨others, hothers, rfl⟩ := Option.map_eq_some_iff.mp h
        rintro t (_ | ⟨_, ht⟩)
        · rw [isQuotable, String.toList_ofList, List.all_reverse, List.all_eq_true]
          exact fun c hc => decide_eq_true (hvalue c hc)
        · exact ih (by rintro _ _ ⟨⟩) hothers t ht
      · next hquote =>
        split at h
        · cases h
        · next hstop =>
          refine ih ?_ h
          rintro _ _ ⟨⟩ d (_ | ⟨_, hd⟩)
          · exact List.not_mem_cons_of_ne_of_not_mem hquote hstop
          · exact hvalue d hd
    | afterPair =>
      rw [readPairs] at h
      split at h
      · exact ih (by rintro _ _ ⟨⟩) h
      split at h
      · cases h
        exact fun t ht => absurd ht List.not_mem_nil
      · cases h

theorem readTags_tagText_iff (hne : f.tags ≠ []) (hkeys : ∀ t ∈ f.tags, t.HasKey) :
    readTags f.tagText = some f.tags ↔ ∀ t ∈ f.tags, isQuotable t.value := by
  have hread : readTags f.tagText = readPairs (.inKey []) ((Text.join " " (f.tags.map Tag.text)).toList ++ ['`']) := by
    have hchars : f.tagText.toList = '`' :: ((Text.join " " (f.tags.map Tag.text)).toList ++ ['`']) := by
      simp [Field.tagText, String.toList_append]
    rw [readTags, hchars]
    rfl
  rw [hread]
  constructor
  · exact fun h => isQuotable_of_readPairs (by rintro _ _ ⟨⟩) h
  intro h
  cases htags : f.tags with
  | nil => exact absurd htags hne
  | cons t ts =>
    rw [htags] at h hkeys
    exact readPairs_pairs fun u hu => ⟨hkeys u hu, h u hu⟩

/-! ## Texts that can stand between quotes -/

theorem isQuotable_append (a b : String) : isQuotable (a ++ b) = (isQuotable a && isQuotable b) := by
  rw [isQuotable, String.toList_append, List.all_append]
  rfl

theorem isQuotable_join (parts : List String) : isQuotable (Text.join "," parts) ↔ ∀ part ∈ parts, isQuotable part := by
  rw [Text.join]
  induction parts with
  | nil => simp [isQuotable]
  | cons first rest ih =>
    cases rest with
    | nil => simp
    | cons second rest =>
      rw [String.intercalate_cons_cons, isQuotable_append, isQuotable_append, List.forall_mem_cons, ← ih]
      simp [show isQuotable "," = true from by decide]

theorem tags_isQuotable_iff (yaml : Bool) (name : String) (limits : List String) :
    (∀ t ∈ tags yaml name limits, isQuotable t.value) ↔ isQuotable name ∧ ∀ limit ∈ limits, isQuotable limit := by
  rw [← isQuotable_join, tags]
  cases limits with
  | nil => cases yaml <;> simp [show isQuotable (Text.join "," []) = true from by decide]
  | cons limit rest => cases yaml <;> simp

theorem hasKey_of_mem_tags {yaml : Bool} {name : String} {t : Tag} (h : t ∈ tags yaml name limits) : t.HasKey := by
  have hkey : t.key ∈ ["json", "yaml", "validate"] := by
    cases yaml <;> cases limits <;> simp [tags] at h <;> rcases h with rfl | rfl | rfl <;> simp
  simp only [List.mem_cons, List.not_mem_nil, or_false] at hkey
  rcases hkey with h | h | h <;> rw [Tag.HasKey, h] <;> simp

/-! ## Constraints -/

theorem isQuotable_bounds {pairs : List (String × String)} (hnames : ∀ p ∈ pairs, isQuotable p.2)
    (hbounds : ∀ p ∈ pairs, ∀ v, schema.field? p.1 = .ok (some v) → isQuotable v.text)
    (h : bounds schema pairs = .ok out) : ∀ limit ∈ out, isQuotable limit := by
  induction pairs generalizing out with
  | nil =>
    cases h
    exact fun _ hmem => absurd hmem List.not_mem_nil
  | cons p rest ih =>
    obtain ⟨key, name⟩ := p
    obtain ⟨more, hmore, h1⟩ := bind_ok h
    obtain ⟨bound, hbound, h2⟩ := bind_ok h1
    have hrest := ih (fun p hp => hnames p (.tail _ hp)) (fun p hp => hbounds p (.tail _ hp)) hmore
    cases bound with
    | none =>
      cases h2
      exact hrest
    | some v =>
      cases h2
      rw [List.forall_mem_cons, isQuotable_append, isQuotable_append, hnames _ (.head _), hbounds _ (.head _) v hbound]
      exact ⟨rfl, hrest⟩

theorem isQuotable_defaultConstraint_iff (h : defaultConstraint schema = .ok out) : (∀ limit ∈ out, isQuotable limit) ↔
      ∀ v, schema.field? "default" = .ok (some v) → v.isText = false ∧ isQuotable v.text := by
  obtain ⟨default, hdefault, h1⟩ := bind_ok h
  rw [hdefault]
  split at h1
  · cases h1
    simp
  · next text =>
    cases h1
    have hquotes : isQuotable ("default=\"" ++ text ++ "\"") = false := by
      rw [isQuotable_append, show isQuotable "\"" = false from by decide, Bool.and_false]
    simp [hquotes, Value.isText]
  · next v hv =>
    cases h1
    have hother : v.isText = false := by
      unfold Value.isText
      split
      · next text => exact (hv text rfl).elim
      · rfl
    simp [hother, isQuotable_append, show isQuotable "default=" = true from by decide]

structure HasQuotableBounds (name : Scalar) (schema : Value) : Prop where
  name : isQuotable name.text = true
  bounds : ∀ key ∈ ["minimum", "maximum", "exclusiveMinimum", "exclusiveMaximum"], ∀ v,
    schema.field? key = .ok (some v) → isQuotable v.text = true

theorem isQuotable_constraints_iff {name : Scalar} {isRequired : Bool} (clean : HasQuotableBounds name schema)
    (h : constraints schema isRequired = .ok limits) : (∀ limit ∈ limits, isQuotable limit) ↔
      ∀ v, schema.field? "default" = .ok (some v) → v.isText = false ∧ isQuotable v.text := by
  obtain ⟨type, _, h1⟩ := bind_ok h
  obtain ⟨bounds, default, hbounds, hdefault, rfl⟩ : ∃ bounds default,
      (∀ limit ∈ bounds, isQuotable limit) ∧ defaultConstraint schema = .ok default ∧
      limits = bounds ++ default ++ (if isRequired then ["required"] else []) := by
    dsimp only at h1
    split at h1
    · obtain ⟨bounds, hbounds, h2⟩ := bind_ok h1
      obtain ⟨default, hdefault, h3⟩ := bind_ok h2
      cases h3
      refine ⟨bounds, default, isQuotable_bounds (by decide) ?_ hbounds, hdefault, rfl⟩
      exact fun p hp => clean.bounds p.1 (List.mem_map_of_mem (f := Prod.fst) hp)
    · obtain ⟨none, hnone, h2⟩ := bind_ok h1
      cases hnone
      obtain ⟨default, hdefault, h3⟩ := bind_ok h2
      cases h3
      exact ⟨[], default, nofun, hdefault, rfl⟩
  have hrequired : ∀ limit ∈ (if isRequired then ["required"] else []), isQuotable limit = true := by
    cases isRequired <;> decide
  rw [← isQuotable_defaultConstraint_iff hdefault]
  constructor
  · exact fun hall limit hlimit => hall limit (List.mem_append_left _ (List.mem_append_right _ hlimit))
  intro hall limit hlimit
  rcases List.mem_append.mp hlimit with hlimit | hlimit
  · rcases List.mem_append.mp hlimit with hlimit | hlimit
    · exact hbounds limit hlimit
    · exact hall limit hlimit
  · exact hrequired limit hlimit

/-- The tags that a property asks for: its name, and its constraints if there are any. -/
def wantedTags (yaml : Bool) (name : Scalar) (limits : List String) : List Tag :=
  [⟨"json", name.text⟩] ++ (if yaml then [⟨"yaml", name.text⟩] else []) ++
    (if limits = [] then [] else [⟨"validate", Text.join "," limits⟩])

/-- The tag of a property whose name and bounds can stand between quotes can be read, and says what the property asks
for, exactly if the default is no text and can stand between quotes too. -/
theorem tags_read_back_iff {scope : Option RefScope} {yaml : Bool} {title : String} {s s' : RefState} {st : Struct}
    (h : exec (struct scope yaml title schema) s = (.ok st, s')) :
    ∃ properties required, schema.entriesAt "properties" = .ok properties ∧
      schema.fieldD "required" (.list []) = .ok required ∧ List.Forall₂ (fun e f => HasQuotableBounds e.1 e.2 →
        ∃ isRequired limits, required.holds e.1 = .ok isRequired ∧ constraints e.2 isRequired = .ok limits ∧
          (readTags f.tagText = some (wantedTags yaml e.1 limits) ↔
            ∀ v, e.2.field? "default" = .ok (some v) → v.isText = false ∧ isQuotable v.text = true))
        properties st.fields := by
  obtain ⟨_, properties, required, hproperties, hrequired, hfields⟩ := exec_struct h
  refine ⟨properties, required, hproperties, hrequired, hfields.imp ?_⟩
  rintro ⟨name, property⟩ f ⟨isRequired, hfield⟩ clean
  obtain ⟨limits, hlimits, htags⟩ := hfield.tagged
  have hwanted : wantedTags yaml name limits = f.tags := by
    rw [htags, wantedTags, tags]
    cases yaml <;> cases limits <;> rfl
  refine ⟨isRequired, limits, hfield.required_eq, hlimits, ?_⟩
  rw [hwanted, readTags_tagText_iff (by rw [htags]; exact List.cons_ne_nil _ _)
    fun t ht => hasKey_of_mem_tags (htags ▸ ht), htags, tags_isQuotable_iff, isQuotable_constraints_iff clean hlimits]
  exact and_iff_right clean.name

/-- A required number with a bound and a default. -/
def gauge : Value :=
  .map [("properties", .map [("level", .map [("type", "integer"), ("minimum", .int 1),
    ("default", .int 3)])]), ("required", .list [.str "level"])]

theorem tags_read_back_iff_gauge : ∃ st s', exec (struct none true "Gauge" gauge) {} = (.ok st, s') ∧
    st.fields.map Field.tagText = ["`json:\"level\" yaml:\"level\" validate:\"min=1,default=3,required\"`"] ∧
    ∃ properties required, gauge.entriesAt "properties" = .ok properties ∧
      gauge.fieldD "required" (.list []) = .ok required ∧ List.Forall₂ (fun e f => HasQuotableBounds e.1 e.2 →
        ∃ isRequired limits, required.holds e.1 = .ok isRequired ∧ constraints e.2 isRequired = .ok limits ∧
          (readTags f.tagText = some (wantedTags true e.1 limits) ↔
            ∀ v, e.2.field? "default" = .ok (some v) → v.isText = false ∧ isQuotable v.text = true))
        properties st.fields := by
  obtain ⟨st, hst, hlines⟩ := exec_eq_of_any (x := struct none true "Gauge" gauge) (s := {})
    (p := fun st => st.fields.map Field.tagText =
      ["`json:\"level\" yaml:\"level\" validate:\"min=1,default=3,required\"`"]) (by decide +kernel)
  exact ⟨st, _, hst, of_decide_eq_true hlines, tags_read_back_iff hst⟩

theorem text_default_not_read : (exec (struct none true "Note" (.map [(.str "properties", .map [(.str "mood",
        .map [(.str "type", .str "string"), (.str "default", .str "calm")])])])) {}).1.map
      (·.fields.map fun f => (f.tagText, readTags f.tagText)) =
      .ok [("`json:\"mood\" yaml:\"mood\" validate:\"default=\"calm\"\"`", none)] := by
  decide +kernel

end Typewright.Go
