import Typewright.Proofs.CodeLines
import Typewright.Proofs.TwinRuns

/-!
# Schemas with other descriptions

Two schemas that differ in their descriptions only.
-/

namespace Typewright

open Outcome

variable {vs ws : List Value} {es fs : Entries}

namespace Value

/-! ## Values that differ in descriptions -/

/-- What stands at a place of a document: a schema, or schemas by name. -/
inductive Role where
  | schema
  | group
deriving DecidableEq, Repr

/-- What the part under a key is for: something with such parts of its own, data, or a remark. -/
inductive Use where
  | part (role : Role)
  | data
  | remark
deriving DecidableEq, Repr

def dataKeys : List String :=
  ["title", "type", "format", "required", "enum", "enumNames", "enumDescriptions", "default", "minimum",
    "maximum", "exclusiveMinimum", "exclusiveMaximum", "$ref"]

/-- The keys of a schema under which there are schemas by name. -/
def groupKeys : List String :=
  ["properties", "patternProperties", "definitions", "$defs", "dependentSchemas"]

/-- What the part under a key is for. -/
def Role.use : Role → Scalar → Use
  | .schema, .str key =>
    if key = "description" then .remark
    else if dataKeys.contains key then .data
    else if groupKeys.contains key then .part .group
    else .part .schema
  | _, _ => .part .schema

def sameRemark (v w : Value) : Bool :=
  identical v w ||
    match v, w with
    | .str a, .str b => decide (Text.SameRemark a b)
    | _, _ => false

mutual

/-- Whether two values are the same but for descriptions, which are the same as remarks. -/
def alike : Role → Value → Value → Bool
  | _, .scalar a, .scalar b => decide (a = b)
  | role, .list xs, .list ys => alikeItems role xs ys
  | role, .map es, .map fs => alikeEntries role es fs
  | _, .set xs, .set ys => decide (xs = ys)
  | role, .pair a b, .pair c d => alike role a c && alike role b d
  | _, _, _ => false

def alikeItems : Role → List Value → List Value → Bool
  | _, [], [] => true
  | role, v :: vs, w :: ws => alike role v w && alikeItems role vs ws
  | _, _, _ => false

/-- Whether the entries of two maps are alike, one by one. -/
def alikeEntries : Role → List (Scalar × Value) → List (Scalar × Value) → Bool
  | _, [], [] => true
  | role, e :: es, f :: fs => alikeEntry role e f && alikeEntries role es fs
  | _, _, _ => false

/-- Whether two entries have the same key and their values are alike as far as their use goes. -/
def alikeEntry : Role → Scalar × Value → Scalar × Value → Bool
  | role, (k, v), (l, w) =>
    decide (k = l) &&
      match role.use k with
      | .part role => alike role v w
      | .data => identical v w
      | .remark => sameRemark v w

end

/-- The first value has no references, and the second one is the same but for descriptions. -/
structure Kin (role : Role) (v w : Value) : Prop where
  similar : alike role v w = true
  fit : Fit false v

/-- The values are akin as far as their use goes. -/
def KinFor : Use → Value → Value → Prop
  | .part role, v, w => Kin role v w
  | .data, v, w => v = w
  | .remark, v, w => sameRemark v w = true

/-- The entries have the same key and values that are akin. -/
def KinEntry (role : Role) (e f : Scalar × Value) : Prop :=
  e.1 = f.1 ∧ KinFor (role.use e.1) e.2 f.2

/-- What two values that are akin look like. -/
inductive KinShape (role : Role) : Value → Value → Prop
  | scalar (a : Scalar) : KinShape role (.scalar a) (.scalar a)
  | list {vs ws : List Value} (items : List.Forall₂ (Kin role) vs ws) : KinShape role (.list vs) (.list ws)
  | map {es fs : Entries} (entries : List.Forall₂ (KinEntry role) es fs) : KinShape role (.map es) (.map fs)
  | set (xs : List Scalar) : KinShape role (.set xs) (.set xs)
  | pair {a b c d : Value} (left : Kin role a c) (right : Kin role b d) : KinShape role (.pair a b) (.pair c d)

variable {role : Role} {v w : Value} {name : String}

theorem forall₂_of_alikeItems (h : alikeItems role vs ws)
    (hfit : ∀ v ∈ vs, Fit false v) : List.Forall₂ (Kin role) vs ws := by
  induction vs generalizing ws with
  | nil =>
    cases ws with
    | nil => exact .nil
    | cons w ws => simp [alikeItems] at h
  | cons v vs ih =>
    cases ws with
    | nil => simp [alikeItems] at h
    | cons w ws =>
      rw [alikeItems, Bool.and_eq_true] at h
      rw [List.forall_mem_cons] at hfit
      exact .cons ⟨h.1, hfit.1⟩ (ih h.2 hfit.2)

theorem kinEntry_of_alikeEntry {e f : Scalar × Value} (h : alikeEntry role e f) (hfit : Fit false e.2) :
    KinEntry role e f := by
  obtain ⟨k, v⟩ := e
  obtain ⟨l, w⟩ := f
  rw [alikeEntry, Bool.and_eq_true, decide_eq_true_iff] at h
  refine ⟨h.1, ?_⟩
  have hvalues := h.2
  show KinFor (role.use k) v w
  split at hvalues
  · next huse => exact huse ▸ ⟨hvalues, hfit⟩
  · next huse => exact huse ▸ (identical_iff v w).mp hvalues
  · next huse => exact huse ▸ hvalues

theorem forall₂_of_alikeEntries (h : alikeEntries role es fs)
    (hfit : ∀ e ∈ es, Fit false e.2) : List.Forall₂ (KinEntry role) es fs := by
  induction es generalizing fs with
  | nil =>
    cases fs with
    | nil => exact .nil
    | cons f fs => simp [alikeEntries] at h
  | cons e es ih =>
    cases fs with
    | nil => simp [alikeEntries] at h
    | cons f fs =>
      rw [alikeEntries, Bool.and_eq_true] at h
      rw [List.forall_mem_cons] at hfit
      exact .cons (kinEntry_of_alikeEntry h.1 hfit.1) (ih h.2 hfit.2)

theorem Kin.shape (h : Kin role v w) : KinShape role v w := by
  obtain ⟨halike, hfit⟩ := h
  cases v with
  | scalar a =>
    cases w with
    | scalar b =>
      rw [alike, decide_eq_true_iff] at halike
      exact halike ▸ .scalar a
    | _ => simp [alike] at halike
  | list vs =>
    cases w with
    | list ws =>
      rw [alike] at halike
      exact .list (forall₂_of_alikeItems halike (everywhere_list_iff.mp hfit).2)
    | _ => simp [alike] at halike
  | map es =>
    cases w with
    | map fs =>
      rw [alike] at halike
      exact .map (forall₂_of_alikeEntries halike (everywhere_map_iff.mp hfit).2)
    | _ => simp [alike] at halike
  | set xs =>
    cases w with
    | set ys =>
      rw [alike, decide_eq_true_iff] at halike
      exact halike ▸ .set xs
    | _ => simp [alike] at halike
  | pair a b =>
    cases w with
    | pair c d =>
      rw [alike, Bool.and_eq_true] at halike
      obtain ⟨_, hleft, hright⟩ := everywhere_pair_iff.mp hfit
      exact .pair ⟨halike.1, hleft⟩ ⟨halike.2, hright⟩
    | _ => simp [alike] at halike

/-! ## Questions with one answer -/

namespace Kin

theorem isSame (h : Kin role v w) (x : Scalar) : v.isSame x = w.isSame x := by
  cases h.shape <;> rfl

theorem isMap (h : Kin role v w) : v.isMap = w.isMap := by
  cases h.shape <;> rfl

theorem isTrue (h : Kin role v w) : v.isTrue = w.isTrue := by
  cases h.shape <;> rfl

theorem truthy (h : Kin role v w) : v.truthy = w.truthy := by
  cases h.shape with
  | list items => cases items <;> rfl
  | map entries => cases entries <;> rfl
  | _ => rfl

theorem any_same (h : List.Forall₂ (KinEntry role) es fs) (x : Scalar) : es.any (·.1.same x) = fs.any (·.1.same x) := by
  induction h with
  | nil => rfl
  | cons hentry _ ih => rw [List.any_cons, List.any_cons, hentry.1, ih]

theorem any_isSame (h : List.Forall₂ (Kin role) vs ws) (x : Scalar) : vs.any (·.isSame x) = ws.any (·.isSame x) := by
  induction h with
  | nil => rfl
  | cons hitem _ ih => rw [List.any_cons, List.any_cons, hitem.isSame, ih]

theorem has (h : Kin role v w) (name : String) : v.has name = w.has name := by
  unfold Value.has holds
  cases h.shape with
  | scalar a => rfl
  | set xs => rfl
  | map entries => exact congrArg Except.ok (any_same entries _)
  | pair left right => exact congrArg Except.ok (by rw [left.isSame, right.isSame])
  | list items => exact congrArg Except.ok (any_isSame items _)

theorem isMapWith (h : Kin role v w) (name : String) : v.isMapWith name = w.isMapWith name := by
  unfold Value.isMapWith
  cases h.shape with
  | map entries => exact any_same entries _
  | _ => rfl

end Kin

/-! ## Parts of a schema -/

/-- The entries of groups have the same names, for schemas that are akin. -/
def KinNamed (e f : Scalar × Value) : Prop :=
  e.1 = f.1 ∧ Kin .schema e.2 f.2

theorem find?_kin (h : List.Forall₂ (KinEntry role) es fs) (key : Scalar) :
    Option.Rel (fun v w => ∃ k : Scalar, k.same key ∧ KinFor (role.use k) v w)
      (Entries.find? es key) (Entries.find? fs key) := by
  induction h with
  | nil => exact .none
  | @cons e f es fs hentry _ ih =>
    obtain ⟨k, v⟩ := e
    obtain ⟨l, w⟩ := f
    obtain ⟨rfl, hvalues⟩ := hentry
    simp only [Entries.find?]
    split
    · next hsame => exact .some ⟨k, hsame, hvalues⟩
    · exact ih

theorem Kin.field?_use (h : Kin role v w) (name : String) :
    Paired (Option.Rel (KinFor (role.use (.str name)))) (v.field? name) (w.field? name) := by
  cases h.shape with
  | map entries =>
    rw [field?_map, field?_map]
    refine .ok ?_
    have hfound := find?_kin entries (.str name)
    generalize Entries.find? _ _ = found at hfound ⊢
    generalize Entries.find? _ _ = found' at hfound ⊢
    cases hfound with
    | none => exact .none
    | some hkin =>
      obtain ⟨k, hsame, hkin⟩ := hkin
      rw [Scalar.same_str_iff.mp hsame] at hkin
      exact .some hkin
  | _ => exact .error _

theorem use_of_mem_dataKeys : ∀ name ∈ dataKeys, Role.schema.use (.str name) = .data := by decide

namespace Kin

theorem field?_data (h : Kin .schema v w) (hname : name ∈ dataKeys) : v.field? name = w.field? name := by
  have hfields := h.field?_use name
  rw [use_of_mem_dataKeys name hname] at hfields
  refine (hfields.mono fun a b _ hab => ?_).eq
  cases hab with
  | none => rfl
  | some hsame => exact congrArg some hsame

theorem fieldD_data (h : Kin .schema v w) (hname : name ∈ dataKeys) (default : Value) :
    v.fieldD name default = w.fieldD name default := by
  unfold fieldD
  rw [h.field?_data hname]

theorem titleOrRoot (h : Kin .schema v w) : v.titleOrRoot = w.titleOrRoot := by
  unfold Value.titleOrRoot title
  rw [h.fieldD_data (by decide)]

theorem title (h : Kin .schema v w) : v.title = w.title := by
  unfold Value.title
  rw [h.fieldD_data (by decide)]

theorem field? (h : Kin .schema v w) (inner : Role) (hname : Role.schema.use (.str name) = .part inner) :
    Paired (Option.Rel (Kin inner)) (v.field? name) (w.field? name) := by
  have hfields := h.field?_use name
  rw [hname] at hfields
  exact hfields

theorem fieldD (h : Kin .schema v w) (inner : Role) (hname : Role.schema.use (.str name) = .part inner)
    {default : Value} (hdefault : Kin inner default default) :
    Paired (Kin inner) (v.fieldD name default) (w.fieldD name default) := by
  refine (h.field? inner hname).bind fun a b hab => ?_
  cases hab with
  | none => exact .ok hdefault
  | some hkin => exact .ok hkin

theorem part? (h : Kin .schema v w) (inner : Role) (hname : Role.schema.use (.str name) = .part inner) :
    Paired (Option.Rel fun a b => Kin inner a.val b.val) (v.part? name) (w.part? name) := by
  have hfields := h.field? inner hname
  unfold Value.field? at hfields
  generalize v.part? name = found at hfields ⊢
  generalize w.part? name = found' at hfields ⊢
  match found, found', hfields with
  | .error e, .error _, .error _ => exact .error e
  | .ok none, .ok none, _ => exact .ok .none
  | .ok (some a), .ok (some b), .ok (.some hkin) => exact .ok (.some hkin)

theorem field (h : Kin .schema v w) (inner : Role) (hname : Role.schema.use (.str name) = .part inner) :
    Paired (Kin inner) (v.field name) (w.field name) := by
  have hfields := h.field? inner hname
  cases h.shape with
  | map entries =>
    rw [field?_map, field?_map] at hfields
    rw [field_map, field_map]
    generalize Entries.find? _ _ = found at hfields ⊢
    generalize Entries.find? _ _ = found' at hfields ⊢
    match found, found', hfields with
    | none, none, _ => exact .error _
    | some a, some b, .ok (.some hkin) => exact .ok hkin
  | scalar a => cases a <;> exact .error _
  | _ => exact .error _

theorem part (h : Kin .schema v w) (inner : Role) (hname : Role.schema.use (.str name) = .part inner) :
    Paired (fun a b => Kin inner a.val b.val) (v.part name) (w.part name) :=
  .of_val (h.field inner hname)

/-! ### Entries -/

theorem entries (h : Kin .group v w) : Paired (List.Forall₂ KinNamed) v.entries w.entries := by
  cases h.shape with
  | map entries => exact .ok entries
  | _ => exact .error _

theorem entriesBelow (h : Kin .group v w) :
    Paired (List.Forall₂ fun e f => KinNamed (e.1, e.2.val) (f.1, f.2.val)) v.entriesBelow w.entriesBelow := by
  have hentries := h.entries
  cases hv : v.entriesBelow with
  | error e =>
    cases h.shape with
    | map _ => cases hv
    | _ =>
      cases hv
      exact .error _
  | ok es =>
    cases hw : w.entriesBelow with
    | error e =>
      cases h.shape with
      | map _ => cases hw
      | _ => cases hv
    | ok fs =>
      rw [entries_of_entriesBelow hv, entries_of_entriesBelow hw] at hentries
      cases hentries with
      | ok hnamed => exact .ok (by simpa [List.forall₂_map_left_iff, List.forall₂_map_right_iff] using hnamed)

theorem scalar (role : Role) (x : Scalar) : Kin role (.scalar x) (.scalar x) :=
  ⟨by rw [Value.alike, decide_eq_true_iff], .scalar x⟩

theorem empty (role : Role) : Kin role .empty .empty :=
  ⟨by rw [Value.alike, alikeEntries], rfl⟩

theorem entriesAt (h : Kin .schema v w) (hname : Role.schema.use (.str name) = .part .group) :
    Paired (List.Forall₂ KinNamed) (v.entriesAt name) (w.entriesAt name) :=
  (h.fieldD .group hname (empty _)).bind fun _ _ hgroup => hgroup.entries

/-! ### Items -/

theorem items (h : Kin .schema v w) : Paired (List.Forall₂ (Kin .schema)) v.items w.items := by
  have hscalars : ∀ {α : Type} (f : α → Scalar) (xs : List α),
      List.Forall₂ (Kin .schema) (xs.map fun x => .scalar (f x)) (xs.map fun x => .scalar (f x)) := by
    intro α f xs
    rw [List.forall₂_map_left_iff, List.forall₂_map_right_iff, List.forall₂_same]
    exact fun x _ => scalar _ (f x)
  cases h.shape with
  | list items => exact .ok items
  | set xs => exact .ok (hscalars id xs)
  | pair left right => exact .ok (.cons left (.cons right .nil))
  | map entries =>
    refine .ok ?_
    rw [List.forall₂_map_left_iff, List.forall₂_map_right_iff]
    exact entries.imp fun e f hentry => hentry.1 ▸ scalar _ e.1
  | scalar a =>
    cases a with
    | str s => exact .ok (hscalars (fun c => .str (String.singleton c)) s.toList)
    | bytes b => exact .ok (hscalars (fun x => .int x.toNat) b)
    | _ => exact .error _

theorem itemAt {pick : List Value → Option Value} {index : Int}
    (hpick : ∀ vs ws, List.Forall₂ (Kin .schema) vs ws → Option.Rel (Kin .schema) (pick vs) (pick ws))
    (h : Kin .schema v w) : Paired (Kin .schema) (v.itemAt pick index) (w.itemAt pick index) := by
  have hpicked : ∀ kind, Paired (Kin .schema) (itemAt.pickFrom pick v kind) (itemAt.pickFrom pick w kind) := by
    refine fun kind => h.items.bind fun vs ws hitems => ?_
    have hrel := hpick vs ws hitems
    generalize pick vs = found at hrel ⊢
    generalize pick ws = found' at hrel ⊢
    cases hrel with
    | none => exact .error _
    | some hkin => exact .ok hkin
  cases h.shape with
  | list items => exact hpicked .list
  | pair left right => exact hpicked .pair
  | set xs => exact .error _
  | map entries =>
    have hfound := find?_kin entries (.int index)
    unfold Value.itemAt
    dsimp only
    generalize Entries.find? _ _ = found at hfound ⊢
    generalize Entries.find? _ _ = found' at hfound ⊢
    cases hfound with
    | none => exact .error _
    | some hkin =>
      -- a key that equals a number is no text, so it leads to a schema
      obtain ⟨k, hsame, hkin⟩ := hkin
      cases k with
      | str key => cases hsame
      | _ => exact .ok hkin
  | scalar a =>
    cases a with
    | str s => exact hpicked .str
    | bytes b => exact hpicked .bytes
    | _ => exact .error _

theorem first (h : Kin .schema v w) : Paired (fun a b => Kin .schema a.val b.val) v.first w.first := by
  have hval : ∀ u : Value, (u.first >>= fun a => pure a.val) = u.itemAt List.head? 0 := by
    intro u
    unfold Value.first
    split <;> next hitem => exact hitem.symm
  refine .of_val ?_
  rw [hval, hval]
  refine h.itemAt fun vs ws hitems => ?_
  cases hitems with
  | nil => exact .none
  | cons hkin _ => exact .some hkin

theorem last (h : Kin .schema v w) : Paired (fun a b => Kin .schema a.val b.val) v.last w.last := by
  have hval : ∀ u : Value, (u.last >>= fun a => pure a.val) = u.itemAt List.getLast? (-1) := by
    intro u
    unfold Value.last
    split <;> next hitem => exact hitem.symm
  refine .of_val ?_
  rw [hval, hval]
  refine h.itemAt fun vs ws hitems => ?_
  rw [← List.head?_reverse, ← List.head?_reverse]
  have hreverse := List.rel_reverse hitems
  generalize vs.reverse = vs' at hreverse ⊢
  generalize ws.reverse = ws' at hreverse ⊢
  cases hreverse with
  | nil => exact .none
  | cons hkin _ => exact .some hkin

/-! ### Titles -/

theorem alikeEntries_put (h : alikeEntries .schema es fs) (title : Scalar) :
    alikeEntries .schema (Entries.put es (.str "title") (.scalar title))
      (Entries.put fs (.str "title") (.scalar title)) := by
  have hsame : identical (.scalar title) (.scalar title) := (identical_iff _ _).mpr rfl
  induction es generalizing fs with
  | nil =>
    cases fs with
    | nil => simp [Entries.put, alikeEntries, alikeEntry, use_of_mem_dataKeys "title" (by decide), hsame]
    | cons f fs => simp [alikeEntries] at h
  | cons e es ih =>
    cases fs with
    | nil => simp [alikeEntries] at h
    | cons f fs =>
      obtain ⟨k, v⟩ := e
      obtain ⟨l, w⟩ := f
      rw [alikeEntries, Bool.and_eq_true] at h
      obtain ⟨hentry, hrest⟩ := h
      have hkey : k = l := by
        rw [alikeEntry, Bool.and_eq_true, decide_eq_true_iff] at hentry
        exact hentry.1
      subst hkey
      unfold Entries.put
      split
      · next hk =>
        rw [Scalar.same_str_iff.mp hk, alikeEntries, alikeEntry, use_of_mem_dataKeys "title" (by decide)]
        simp [hsame, hrest]
      · rw [alikeEntries, hentry, ih hrest]
        rfl

theorem withTitle (h : Kin .schema v w) (title : Scalar) :
    Paired (fun a b => Kin .schema a.val b.val) (v.withTitle title) (w.withTitle title) := by
  cases h.shape with
  | map entries =>
    have hsimilar := h.similar
    rw [Value.alike] at hsimilar
    refine .ok ⟨?_, h.fit.retitled (retitled_withTitle rfl)⟩
    rw [Value.alike]
    exact alikeEntries_put hsimilar title
  | _ => exact .error _

/-! ### References -/

theorem field_ref (h : Kin .schema v w) :
    ∃ e, v.field "$ref" = .error e ∧ w.field "$ref" = .error e ∧ e.isContent = false := by
  obtain ⟨e, he, hcontent⟩ := h.fit.field_ref
  refine ⟨e, he, ?_, hcontent⟩
  rw [← he]
  have hsame := h.field?_data (show "$ref" ∈ dataKeys by decide)
  cases h.shape with
  | map entries =>
    rw [field?_map, field?_map] at hsame
    rw [field_map, field_map, Except.ok.inj hsame]
  | _ => rfl

theorem twin_ref {α β : Type} {R : α → β → Prop} {f : Value → RefM α} {g : Value → RefM β} (h : Kin .schema v w) :
    RefM.Twin R (liftM (v.field "$ref") >>= f) (liftM (w.field "$ref") >>= g) := by
  obtain ⟨e, hv, hw, _⟩ := h.field_ref
  rw [hv, hw]
  exact .of_fault (fun _ => rfl) fun _ => rfl

theorem field?_ref (h : Kin .schema v w) {ref : Option Value} (href : v.field? "$ref" = .ok ref) : ref = none := by
  cases ref with
  | none => rfl
  | some ref =>
    obtain ⟨e, he, _⟩ := h.fit.field_ref
    rw [field_of_field? href] at he
    cases he

/-! ### Descriptions -/

theorem saying_str (text : String) : (Value.str text).saying = text := by
  unfold saying
  split
  · rfl
  · next hempty =>
    have hempty : text.isEmpty = true := by simpa [Value.truthy, Scalar.truthy] using hempty
    exact (String.isEmpty_iff.mp hempty).symm

theorem description (h : Kin .schema v w) :
    Paired (fun a b => Text.SameSpill a.saying b.saying ∧ Paired Text.SameSpill a.trimmed b.trimmed)
      (v.fieldD "description" (.str "")) (w.fieldD "description" (.str "")) := by
  have hrefl : ∀ u : Value, Text.SameSpill u.saying u.saying ∧ Paired Text.SameSpill u.trimmed u.trimmed := by
    refine fun u => ⟨.refl _, ?_⟩
    cases u.trimmed with
    | ok text => exact .ok (.refl text)
    | error e => exact .error e
  refine (h.field?_use "description").bind fun a b hab => .ok ?_
  cases hab with
  | none => exact hrefl _
  | @some a b hsame =>
    rcases Bool.or_eq_true_iff.mp hsame with hsame | hsame
    · rw [(identical_iff a b).mp hsame]
      exact hrefl b
    split at hsame
    · next c d =>
      obtain ⟨hspill, htrim⟩ := of_decide_eq_true hsame
      refine ⟨?_, .ok htrim⟩
      rw [Option.getD_some, Option.getD_some, saying_str, saying_str]
      exact hspill
    · cases hsame

end Kin

end Value

/-- The files that references lead to, and the path that they start from. -/
def RefScope.place (scope : RefScope) : FileTree × String :=
  (scope.files, scope.base)

/-- References are looked up in the same place, if they are followed at all. The schemas whose definitions are meant
may differ. -/
abbrev SamePlace (scope scope' : Option RefScope) : Prop :=
  scope.map RefScope.place = scope'.map RefScope.place

theorem Request.samePlace (r : Request) (other : Value) :
    SamePlace r.scope (Request.scope { r with schema := other }) := by
  unfold SamePlace Request.scope
  cases r.given <;> cases r.file <;> rfl

end Typewright
