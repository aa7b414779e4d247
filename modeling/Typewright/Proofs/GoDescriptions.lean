import Typewright.Proofs.Descriptions
import Typewright.Proofs.GoWithoutReferences
import Typewright.Proofs.OneLineNames

/-!
# Descriptions in Go files

Descriptions go into comments: before a declaration, after its title, and behind a field.
-/

namespace Typewright

open RefM Text Value Outcome

variable {scope scope' : Option RefScope} {v w : Value} {name title : String} {entries entries' : Entries}
  {e f : Scalar × Value}

/-! ## Schemas with names on one line -/

theorem Value.Kin.withTitle_inLine (h : Kin .schema v w) (hline : v.isNamedInLine) {title : Scalar}
    (htitle : (Value.scalar title).isInLine) :
    Paired (fun a b => Kin .schema a.val b.val ∧ a.val.isNamedInLine) (v.withTitle title) (w.withTitle title) :=
  (h.withTitle title).mono fun _ _ ha hab => ⟨hab, isNamedInLine_withTitle hline htitle ha⟩

theorem Value.Kin.entries_inLine (h : Kin .group v w) (hline : v.isNamedInLine) :
    Paired (List.Forall₂ fun e f => NamedInLine e ∧ KinNamed e f) v.entries w.entries :=
  h.entries.mono fun es fs hes hall => (List.forall₂_and_left es fs).mpr ⟨namedInLine_of_entries hline hes, hall⟩

theorem Value.Kin.entriesAt_inLine (h : Kin .schema v w) (hline : v.isNamedInLine)
    (hname : Role.schema.use (.str name) = .part .group) :
    Paired (List.Forall₂ fun e f => NamedInLine e ∧ KinNamed e f) (v.entriesAt name) (w.entriesAt name) :=
  (h.entriesAt hname).mono fun es fs hes hall =>
    (List.forall₂_and_left es fs).mpr ⟨namedInLine_of_entriesAt hline hes, hall⟩

/-! ## Types of properties -/

namespace GoType

theorem twin_ofOwnRef (hscope : SamePlace scope scope') (h : Kin .schema v w) (name : Scalar) :
    RefM.Twin (fun a b => a = none ∧ b = none) (ofOwnRef scope v name) (ofOwnRef scope' w name) := by
  refine .of_same (h.has "$ref") fun hasRef _ => .of_ite (fun _ => .pure ⟨rfl, rfl⟩) fun _ => ?_
  match scope, scope', hscope with
  | none, none, _ => exact .pure ⟨rfl, rfl⟩
  | some scope, some scope', _ =>
    obtain ⟨e, hv, hw, hcontent⟩ := h.field_ref
    rw [hv, hw]
    exact .of_fault (fun _ => exec_recover_of_error rfl hcontent) fun _ => exec_recover_of_error rfl hcontent

theorem twin_ofSchema (hscope : SamePlace scope scope') (v w : Value) (name : Scalar) (h : Kin .schema v w) :
    RefM.Twin (fun a b => a.1 = b.1) (ofSchema scope v name) (ofSchema scope' w name) := by
  rw [ofSchema, ofSchema]
  refine .of_bind (twin_ofOwnRef hscope h name) fun found found' hfound => ?_
  obtain ⟨rfl, rfl⟩ := hfound
  refine .of_same (h.has _) fun hasOneOf _ => .of_ite (fun _ => .pure rfl) fun _ => ?_
  refine .of_same (h.has _) fun hasAnyOf _ => .of_ite (fun _ => .pure rfl) fun _ => ?_
  refine .of_same (h.has _) fun hasAllOf _ => .of_ite (fun _ => ?allOf) fun _ => ?_
  case allOf =>
    refine .of_ask (h.part .schema (by decide)) fun ⟨all, hbelow⟩ ⟨all', _⟩ hall => ?_
    refine .of_ask hall.last fun ⟨last, hwithin⟩ ⟨last', _⟩ hlast => ?_
    have := Nat.lt_of_le_of_lt hwithin hbelow
    exact twin_ofSchema hscope last last' name hlast
  refine .of_same (h.has _) fun hasNot _ => .of_ite (fun _ => .pure rfl) fun _ => ?_
  refine .of_same (h.fieldD_data (by decide) _) fun type _ => ?_
  refine .of_same (h.fieldD_data (by decide) _) fun format _ => ?_
  refine .of_ite (fun _ => .pure rfl) fun _ => .of_ite (fun _ => .pure rfl) fun _ => ?_
  refine .of_ite (fun _ => .pure rfl) fun _ => .of_ite (fun _ => .pure rfl) fun _ => ?_
  refine .of_ite (fun _ => ?array) fun _ => .of_ite (fun _ => ?object) fun _ => .pure rfl
  case array =>
    refine .of_ask (h.part? .schema (by decide)) fun items items' hitems => ?_
    match items, items', hitems with
    | none, none, _ => exact .pure rfl
    | some ⟨items, hbelow⟩, some ⟨items', _⟩, .some hitems =>
      exact .of_bind (twin_ofSchema hscope items items' _ hitems) fun item item' hitem =>
        .pure (congrArg GoType.slice hitem)
  case object =>
    refine .of_same (h.has _) fun hasProperties _ => .of_ite (fun _ => ?_) fun _ => ?_
    · exact .of_same rfl fun type _ => .pure rfl
    refine .of_ask (h.part? .schema (by decide)) fun more more' hmore => ?_
    match more, more', hmore with
    | none, none, _ => exact .pure rfl
    | some ⟨more, hbelow⟩, some ⟨more', _⟩, .some hmore =>
      dsimp only at hmore ⊢
      rw [hmore.isMapWith]
      refine .of_ite (fun _ => ?_) fun _ => .pure rfl
      exact .of_bind (twin_ofSchema hscope more more' _ hmore) fun value value' hvalue =>
        .pure (congrArg GoType.map hvalue)
termination_by v.depth

end GoType

namespace Go

/-! ## Declarations -/

theorem sameCode_commentLine {a b : String} (htitle : '\n' ∉ title.toList) (h : SameSpill a b) :
    SameLines (commentLine title a) (commentLine title b) := by
  have hstart : ∀ c : String, "// " ++ title ++ " " ++ c = "" ++ "//" ++ (" " ++ title ++ " ") ++ c := by
    intro c
    have hslashes : "// " = "//" ++ " " := rfl
    simp only [hslashes, String.append_assoc, String.empty_append]
  have hsaid : '\n' ∉ (" " ++ title ++ " ").toList := by
    simp [htitle]
  unfold commentLine
  rw [h.1, hstart, hstart]
  split
  · exact .nil
  · exact .cons (.comment "" hsaid h.2) .nil

theorem paired_enumeration (htitle : '\n' ∉ title.toList) (h : Kin .schema v w) :
    Paired (fun a b => SameCode (enumText (some a)) (enumText (some b))) (enumeration title v)
      (enumeration title w) := by
  refine h.description.bind fun a b hsaid => .same (h.fieldD_data (by decide) _) fun values _ => ?_
  refine .same (h.fieldD_data (by decide) _) fun descriptions _ => ?_
  refine .same (h.fieldD_data (by decide) _) fun names _ => .same (h.field?_data (by decide)) fun type _ => ?_
  refine .same rfl fun items _ => .same rfl fun constants _ => .ok (.join ?_)
  exact List.rel_append (List.rel_append (List.rel_append (sameCode_commentLine htitle hsaid.1)
    (sameLines_refl _)) (sameLines_refl _)) (sameLines_refl _)

theorem bounds_eq (h : Kin .schema v w) {pairs : List (String × String)} (hpairs : ∀ p ∈ pairs, p.1 ∈ dataKeys) :
    bounds v pairs = bounds w pairs := by
  induction pairs with
  | nil => rfl
  | cons p rest ih =>
    rw [List.forall_mem_cons] at hpairs
    unfold bounds
    rw [ih hpairs.2, h.field?_data hpairs.1]

theorem constraints_eq (h : Kin .schema v w) (required : Bool) : constraints v required = constraints w required := by
  unfold constraints defaultConstraint
  rw [h.field?_data (by decide), h.field?_data (by decide), bounds_eq h (by decide)]

/-- The fields have the same code, whatever the widths of the columns. -/
def SameField (f g : Field) : Prop :=
  ∀ nameWidth typeWidth, SameCode (f.line nameWidth typeWidth) (g.line nameWidth typeWidth)

theorem twin_field (hscope : SamePlace scope scope') (h : Kin .schema v w)
    (yaml : Bool) (title : String) (required : Value) (name : Scalar) :
    RefM.Twin SameField (field scope yaml title required name v) (field scope' yaml title required name w) := by
  have htype : ∀ fieldName, RefM.Twin Eq (fieldType scope title fieldName v name)
      (fieldType scope' title fieldName w name) := by
    refine fun fieldName => .of_same (h.has _) fun hasEnum _ => .of_ite (fun _ => .pure rfl) fun _ => ?_
    exact .of_bind (GoType.twin_ofSchema hscope v w name h) fun found found' hfound => .pure hfound
  refine .of_same rfl fun fieldName _ => .of_bind (htype fieldName) fun type type' hsame => ?_
  subst hsame
  refine .of_same rfl fun isRequired _ => .of_same (constraints_eq h isRequired) fun limits _ => ?_
  refine .of_ask h.description fun a b hsaid => .pure fun nameWidth typeWidth => ?_
  unfold Field.line Field.typeText Field.tagText
  dsimp only
  refine .prepend ?_ _
  have hstart : " // " = " " ++ "//" ++ " " := rfl
  rw [hsaid.1.1, hstart]
  split
  · exact .refl _
  · exact .comment " " (by decide) hsaid.1.2

section Entries

variable {entries entries' : Entries} (h : List.Forall₂ KinNamed entries entries')
include h

theorem twin_fields (hscope : SamePlace scope scope') (yaml : Bool) (title : String) (required : Value) :
    RefM.Twin (List.Forall₂ SameField) (fields scope yaml title required entries)
      (fields scope' yaml title required entries') := by
  induction h with
  | nil => exact .pure .nil
  | @cons e f rest rest' hentry _ ih =>
    obtain ⟨name, schema⟩ := e
    obtain ⟨name', schema'⟩ := f
    obtain ⟨rfl, hkin⟩ := hentry
    refine .of_bind (twin_field hscope hkin yaml title required name) fun first first' hfirst => ?_
    exact .of_bind ih fun others others' hothers => .pure (.cons hfirst hothers)

theorem nameWidth_eq : nameWidth entries = nameWidth entries' := by
  induction h with
  | nil => rfl
  | cons hentry _ ih =>
    unfold nameWidth
    rw [hentry.1, ih]

theorem twin_typeWidth (hscope : SamePlace scope scope') :
    RefM.Twin Eq (typeWidth scope entries) (typeWidth scope' entries') := by
  induction h with
  | nil => exact .pure rfl
  | @cons e f rest rest' hentry _ ih =>
    obtain ⟨name, schema⟩ := e
    obtain ⟨name', schema'⟩ := f
    obtain ⟨rfl, hkin⟩ := hentry
    refine .of_bind (GoType.twin_ofSchema hscope schema schema' name hkin) fun first first' hfirst => ?_
    refine .of_bind ih fun others others' hothers => .pure ?_
    rw [hfirst, hothers]

end Entries

theorem twin_struct (hscope : SamePlace scope scope') (h : Kin .schema v w)
    (yaml : Bool) (htitle : '\n' ∉ title.toList) :
    RefM.Twin (fun a b => SameLines a.lines b.lines) (struct scope yaml title v) (struct scope' yaml title w) := by
  refine .of_ask h.description fun a b hsaid => ?_
  refine .of_ask (h.entriesAt (by decide)) fun properties properties' hprops => ?_
  refine .of_same (nameWidth_eq hprops) fun nameWidth _ => ?_
  refine .of_bind (twin_typeWidth hprops hscope) fun typeWidth typeWidth' hwidth => ?_
  subst hwidth
  refine .of_same (h.fieldD_data (by decide) _) fun required _ => ?_
  refine .of_bind (twin_fields hprops hscope yaml title required) fun fields fields' hfields => .pure ?_
  refine List.rel_append (List.rel_append (sameCode_commentLine htitle hsaid.1) (.cons (.refl _) ?_)) (sameLines_refl _)
  rw [List.forall₂_map_left_iff, List.forall₂_map_right_iff]
  exact hfields.imp fun f g hfield => hfield nameWidth typeWidth

theorem typesElsewhere_eq {scope scope' : RefScope} (hplace : scope.place = scope'.place) (file : Option String)
    (t : Tables) : typesElsewhere scope file t = typesElsewhere scope' file t := by
  have hfiles : scope.files = scope'.files := congrArg Prod.fst hplace
  unfold typesElsewhere samePlace
  rw [hfiles]

theorem twin_isElsewhere (hscope : SamePlace scope scope') (h : Kin .schema v w)
    (file : Option String) (title : String) :
    RefM.Twin Eq (isElsewhere scope file title v) (isElsewhere scope' file title w) := by
  match scope, scope', hscope with
  | none, none, _ => exact .pure rfl
  | some scope, some scope', hscope =>
    refine .of_shared fun t => ?_
    rw [typesElsewhere_eq (Option.some.inj hscope)]
    refine .of_ite (fun _ => .pure rfl) fun _ => .of_same (h.has _) fun hasRef _ => .of_ite (fun _ => ?_) fun _ => ?_
    · exact h.twin_ref
    · exact .pure rfl

theorem twin_claimTitle (hscope : SamePlace scope scope') (h : Kin .schema v w)
    (hline : v.isNamedInLine) (file : Option String) :
    SeenM.Twin (fun a b => a = b ∧ ∀ title, a = some title → '\n' ∉ title.toList) (claimTitle scope file v)
      (claimTitle scope' file w) := by
  refine .of_same h.titleOrRoot fun title htitle => .of_same (h.fieldD_data (by decide) _) fun rawTitle _ => ?_
  have hrest : SeenM.Twin (fun a b => a = b ∧ ∀ title, a = some title → '\n' ∉ title.toList)
      (do if ← isElsewhere scope file title v then return none
          SeenM.mark (.str title)
          return some title)
      (do if ← isElsewhere scope' file title w then return none
          SeenM.mark (.str title)
          return some title) := by
    refine .of_bind (.of_lift (twin_isElsewhere hscope h file title)) fun found found' hfound => ?_
    subst hfound
    refine .of_ite (fun _ => .pure ⟨rfl, nofun⟩) fun _ => .of_shared fun _ => .pure ⟨rfl, ?_⟩
    intro claimed hclaimed
    cases hclaimed
    exact lineEnd_not_mem_titleOrRoot hline htitle
  refine .of_ite (fun _ => ?_) fun _ => hrest
  exact .of_shared fun seen => .of_ite (fun _ => .pure ⟨rfl, nofun⟩) fun _ => hrest

/-- The enumerations, if they are declared, have the same code. -/
def SameEnum (a b : Option Enumeration) : Prop :=
  SameCode (enumText a) (enumText b)

theorem isInLine_append (htitle : '\n' ∉ title.toList) (hname : '\n' ∉ name.toList) :
    (Value.str (title ++ name)).isInLine := by
  rw [Value.isInLine, isInLine_iff, String.toList_append, List.mem_append, not_or]
  exact ⟨htitle, hname⟩

theorem twin_enumDeclarations {owner owner' : Value} {declare : Below owner → SeenM (Option Enumeration)}
    {declare' : Below owner' → SeenM (Option Enumeration)}
    (hdeclare : ∀ (e : Below owner) (f : Below owner'), Kin .schema e.val f.val → e.val.isNamedInLine →
      SeenM.Twin SameEnum (declare e) (declare' f)) (htitle : '\n' ∉ title.toList)
    {entries : List (Scalar × Below owner)} {entries' : List (Scalar × Below owner')}
    (h : List.Forall₂ (fun e f => NamedInLine (e.1, e.2.val) ∧ KinNamed (e.1, e.2.val) (f.1, f.2.val)) entries
      entries') : SeenM.Twin (List.Forall₂ SameEnum) (enumDeclarations title owner declare entries)
      (enumDeclarations title owner' declare' entries') := by
  induction h with
  | nil => exact .pure .nil
  | @cons e f rest rest' hentry _ ih =>
    obtain ⟨name, schema, below⟩ := e
    obtain ⟨name', schema', below'⟩ := f
    obtain ⟨⟨hkey, hline⟩, rfl, hkin⟩ := hentry
    dsimp only at hkey hline hkin
    refine .of_same (hkin.has _) fun hasEnum _ => .of_ite (fun _ => ih) fun _ => ?_
    refine .of_same rfl fun fieldName hfieldName => .of_shared fun seen => ?_
    refine .of_ite (fun _ => ih) fun _ => .of_shared fun _ => ?_
    have hname := isInLine_append htitle (Naming.lineEnd_not_mem_fieldName hfieldName hkey)
    refine .of_ask (hkin.withTitle_inLine hline hname) fun ⟨enumSchema, _⟩ ⟨enumSchema', _⟩ hschema => ?_
    refine .of_bind (hdeclare _ _ hschema.1 hschema.2) fun first first' hfirst => ?_
    exact .of_bind ih fun others others' hothers => .pure (.cons hfirst hothers)

theorem twin_propertyEnums (h : Kin .schema v w) (hline : v.isNamedInLine)
    (htitle : '\n' ∉ title.toList) {declare : Below v → SeenM (Option Enumeration)}
    {declare' : Below w → SeenM (Option Enumeration)}
    (hdeclare : ∀ (e : Below v) (f : Below w), Kin .schema e.val f.val → e.val.isNamedInLine →
      SeenM.Twin SameEnum (declare e) (declare' f)) :
    SeenM.Twin (List.Forall₂ SameEnum) (propertyEnums title v declare) (propertyEnums title w declare') := by
  have hparts : Paired (Option.Rel fun a b => Kin .group a.val b.val) (v.part? "properties")
      (w.part? "properties") := h.part? .group (by decide)
  have hinside : ∀ {a : Option (Below v)}, v.part? "properties" = .ok a →
      ∀ p : Below v, a = some p → p.val.isNamedInLine := by
    rintro _ ha p rfl
    exact isNamedInLine_of_inside hline (inside_of_field (field_of_part? ha))
  have hnamed := hparts.mono fun a b ha hab => And.intro hab (hinside ha)
  refine .of_ask hnamed fun properties properties' hprops => ?_
  match properties, properties', hprops with
  | none, none, _ => exact .pure .nil
  | some ⟨properties, below⟩, some ⟨properties', below'⟩, ⟨.some hkin, hinLine⟩ =>
    have hentries := hkin.entriesBelow.mono fun es fs hes hall =>
      have hinner := namedInLine_of_entries (hinLine _ rfl) (entries_of_entriesBelow hes)
      (List.forall₂_and_left es fs).mpr ⟨fun e he => hinner _ (List.mem_map_of_mem he), hall⟩
    refine .of_ask hentries fun es fs hall => ?_
    refine twin_enumDeclarations (fun e f hakin hbelow => ?_) htitle hall
    exact hdeclare ⟨e.val, Nat.lt_trans e.property below⟩ ⟨f.val, Nat.lt_trans f.property below'⟩ hakin hbelow

theorem twin_enumDeclaration (hscope : SamePlace scope scope') (file : Option String)
    (v w : Value) (h : Kin .schema v w) (hline : v.isNamedInLine) :
    SeenM.Twin SameEnum (enumDeclaration scope file v) (enumDeclaration scope' file w) := by
  rw [enumDeclaration, enumDeclaration]
  refine .of_bind (twin_claimTitle hscope h hline file) fun title title' htitle => ?_
  obtain ⟨rfl, htitle⟩ := htitle
  match title with
  | none => exact .pure (.refl _)
  | some title =>
    have hinLine := htitle title rfl
    refine .of_bind (.discard (twin_propertyEnums h hline hinLine fun e f hkin hbelow => ?_)) fun _ _ _ => ?_
    · have := e.property
      exact twin_enumDeclaration hscope file e.val f.val hkin hbelow
    · exact .of_ask (paired_enumeration hinLine h) fun e e' he => .pure he
termination_by v.depth

/-- The declarations, if there are any, have the same code. -/
def SameDeclaration (a b : Option Declaration) : Prop :=
  SameCode (declarationText a) (declarationText b)

theorem twin_declaration (hscope : SamePlace scope scope') (file : Option String)
    (yaml : Bool) (h : Kin .schema v w) (hline : v.isNamedInLine) :
    SeenM.Twin SameDeclaration (declaration scope file yaml v) (declaration scope' file yaml w) := by
  refine .of_bind (twin_claimTitle hscope h hline file) fun title title' htitle => ?_
  obtain ⟨rfl, htitle⟩ := htitle
  match title with
  | none => exact .pure (.refl _)
  | some title =>
    have hinLine := htitle title rfl
    refine .of_bind (twin_propertyEnums h hline hinLine fun e f hkin hbelow =>
      twin_enumDeclaration hscope file e.val f.val hkin hbelow) fun enums enums' henums => ?_
    refine .of_same (h.has _) fun hasEnum _ => .of_ite (fun _ => ?_) fun _ => ?_
    · exact .of_ask (paired_enumeration hinLine h) fun e e' he => .pure he
    refine .of_bind (.of_lift (twin_struct hscope h yaml hinLine)) fun s s' hs => .pure (.join ?_)
    refine List.rel_append ?_ hs
    rw [List.forall₂_map_left_iff, List.forall₂_map_right_iff]
    exact henums

/-! ## Imports -/

namespace Imports

theorem addFormat_eq (h : Kin .schema v w) (i : Imports) : i.addFormat v = i.addFormat w := by
  unfold addFormat
  rw [h.fieldD_data (by decide), h.fieldD_data (by decide)]

theorem addProperty_eq (h : Kin .schema v w) (i : Imports) : i.addProperty v = i.addProperty w := by
  refine Paired.eq (.same (addFormat_eq h i) fun i' _ => ?_)
  refine .same (h.field?_data (by decide)) fun type _ => .ite (fun _ => .ok rfl) fun _ => ?_
  refine (h.field? .schema (by decide)).bind fun items items' hitems => ?_
  cases hitems with
  | none => exact .ok rfl
  | some hkin => exact .of_eq (addFormat_eq hkin i')

theorem twin_addProperties (hscope : SamePlace scope scope')
    (h : List.Forall₂ KinNamed entries entries') (i : Imports) :
    RefM.Twin Eq (i.addProperties scope entries) (i.addProperties scope' entries') := by
  induction h generalizing i with
  | nil => exact .pure rfl
  | cons hentry _ ih =>
    refine .of_same (addProperty_eq hentry.2 i) fun i' _ => .of_bind (Q := Eq) ?_ fun _ _ _ => ih i'
    refine .of_same (hentry.2.has _) fun hasRef _ => .of_ite (fun _ => .pure rfl) fun _ => ?_
    match scope, scope', hscope with
    | none, none, _ => exact .pure rfl
    | some scope, some scope', _ => exact hentry.2.twin_ref

theorem addDefinitions_eq (declared : Option (List Scalar)) (h : List.Forall₂ KinNamed entries entries') (i : Imports) :
    i.addDefinitions declared entries = i.addDefinitions declared entries' := by
  induction h generalizing i with
  | nil => rfl
  | @cons e f rest rest' hentry _ ih =>
    obtain ⟨name, schema⟩ := e
    obtain ⟨name', schema'⟩ := f
    obtain ⟨rfl, hkin⟩ := hentry
    unfold addDefinitions
    refine Paired.eq (.ite (fun _ => .of_eq (ih i)) fun _ => ?_)
    refine (hkin.entriesAt (by decide)).bind fun properties properties' hprops => ?_
    have hstep : ∀ (i : Imports) (e f : Scalar × Value), KinNamed e f → i.addProperty e.2 = i.addProperty f.2 :=
      fun i e f hef => addProperty_eq hef.2 i
    exact .same (Paired.foldlM hstep hprops i) fun i' _ => .of_eq (ih i')

end Imports

theorem twin_imports (hscope : SamePlace scope scope') (h : Kin .schema v w)
    (declared : Option (List Scalar)) : RefM.Twin Eq (imports scope declared v) (imports scope' declared w) := by
  refine .of_ask (h.entriesAt (by decide)) fun properties properties' hprops => ?_
  refine .of_bind (Imports.twin_addProperties hscope hprops {}) fun i i' hi => ?_
  subst hi
  refine .of_ask (h.entriesAt (by decide)) fun definitions definitions' hdefs => ?_
  exact .of_question (.of_eq (Imports.addDefinitions_eq declared hdefs i))

/-! ## Plans -/

namespace Plan

variable {p : Plan} {t : Tables} {standalone : Bool}

theorem addRef_eq (hscope : SamePlace scope scope') (h : Kin .schema v w) (p : Plan) :
    p.addRef scope t standalone v = p.addRef scope' t standalone w := by
  refine Paired.eq (.same (h.has _) fun hasRef _ => .ite (fun _ => .ok rfl) fun _ => ?_)
  match scope, scope', hscope with
  | none, none, _ => exact .ok rfl
  | some scope, some scope', _ =>
    obtain ⟨e, hv, hw, _⟩ := h.field_ref
    rw [hv, hw]
    exact .error e

theorem addProperty_eq (hscope : SamePlace scope scope') (title : String) (name : Scalar) (h : Kin .schema v w) :
    p.addProperty scope t standalone title name v = p.addProperty scope' t standalone title name w := by
  unfold addProperty
  rw [h.has, h.field?_data (by decide), h.isMapWith]
  simp only [addRef_eq hscope h]

theorem addFile_eq {scope scope' : RefScope} (hplace : scope.place = scope'.place) (ref : String) :
    p.addFile scope t ref = p.addFile scope' t ref := by
  have hbase : scope.base = scope'.base := congrArg Prod.snd hplace
  unfold addFile RefScope.path
  rw [hbase]

theorem addDefinition_eq (hscope : SamePlace scope scope') (name : Scalar)
    (h : Kin .schema v w) : p.addDefinition scope t name v = p.addDefinition scope' t name w := by
  have hfile : Paired (Option.Rel fun a b => a.1.place = b.1.place ∧ a.2 = b.2)
      (definitionFile scope t name v) (definitionFile scope' t name w) := by
    refine .same (h.has _) fun hasRef _ => .ite (fun _ => .ok .none) fun _ => ?_
    match scope, scope', hscope with
    | none, none, _ => exact .ok .none
    | some scope, some scope', hscope =>
      cases name with
      | str name =>
        dsimp only
        cases t.definitions.get? name with
        | none => exact .ok .none
        | some ref => exact .ok (.some ⟨Option.some.inj hscope, rfl⟩)
      | _ => exact .ok .none
  refine Paired.eq (hfile.bind fun found found' hfound => ?_)
  cases hfound
  case some hsame => exact .ok (hsame.2 ▸ addFile_eq hsame.1 _)
  refine .same (h.has _) fun hasProperties _ => .ite (fun _ => .ok rfl) fun _ => ?_
  refine (h.entriesAt (by decide)).bind fun properties properties' hprops => .of_eq ?_
  refine Paired.foldlM (fun p e f hef => ?_) hprops _
  unfold isUuid
  rw [hef.2.field?_data (by decide)]

theorem addSchema_eq (hscope : SamePlace scope scope') (isMain : Bool)
    (h : Kin .schema v w) : p.addSchema scope t isMain standalone v = p.addSchema scope' t isMain standalone w := by
  refine Paired.eq (.same h.titleOrRoot fun title _ => ?_)
  refine (h.entriesAt (by decide)).bind fun properties properties' hprops => ?_
  have hstep : ∀ (p : Plan) (e f : Scalar × Value), KinNamed e f →
      p.addProperty scope t standalone title e.1 e.2 = p.addProperty scope' t standalone title f.1 f.2 :=
    fun p e f hef => hef.1 ▸ addProperty_eq hscope title e.1 hef.2
  refine .same (Paired.foldlM hstep hprops p) fun p' _ => ?_
  refine .same (h.has _) fun hasDefinitions _ => .ite (fun _ => .ok rfl) fun _ => .ite (fun _ => .ok rfl) fun _ => ?_
  refine (h.field .group (by decide)).bind fun group group' hgroup => hgroup.entries.bind fun es fs hes => .of_eq ?_
  exact Paired.foldlM (fun p e f hef => hef.1 ▸ addDefinition_eq hscope e.1 hef.2) hes p'

end Plan

end Go

/-! ## Types inside a schema -/

namespace Nested

theorem twin_standsForFile (hscope : SamePlace scope scope') (name : Scalar) :
    RefM.Twin Eq (standsForFile scope name) (standsForFile scope' name) := by
  match scope, scope', hscope with
  | none, none, _ => exact .self _
  | some scope, some scope', _ => cases name <;> exact .self _

theorem twin_definitionTarget (hscope : SamePlace scope scope') (h : Kin .schema v w) :
    RefM.Twin (fun a b => a = v ∧ b = w) (definitionTarget scope v) (definitionTarget scope' w) := by
  match scope, scope', hscope with
  | none, none, _ => exact .pure ⟨rfl, rfl⟩
  | some scope, some scope', _ =>
    obtain ⟨e, hv, hw, _⟩ := h.field_ref
    intro s
    unfold definitionTarget
    rw [exec_bind_of_ok (exec_attempt_ref hv), exec_bind_of_ok (exec_attempt_ref hw)]
    exact ⟨.ok ⟨rfl, rfl⟩, rfl⟩

theorem twin_propertyTarget (hscope : SamePlace scope scope') (h : Kin .schema v w) :
    RefM.Twin (fun a b => a = (v, none) ∧ b = (w, none)) (propertyTarget scope v) (propertyTarget scope' w) := by
  refine .of_same (h.has _) fun hasRef _ => .of_ite (fun _ => .pure ⟨rfl, rfl⟩) fun _ => ?_
  match scope, scope', hscope with
  | none, none, _ => exact .pure ⟨rfl, rfl⟩
  | some scope, some scope', _ =>
    obtain ⟨e, hv, hw, _⟩ := h.field_ref
    intro s
    rw [exec_bind_of_ok (exec_attempt_ref hv), exec_bind_of_ok (exec_attempt_ref hw)]
    exact ⟨.ok ⟨rfl, rfl⟩, rfl⟩

section Visits

variable {α β : Type} {Q : α → β → Prop} {visit : Value → Scalar → SeenM (Option α)}
  {visit' : Value → Scalar → SeenM (Option β)}
  (hscope : SamePlace scope scope')
  (hvisit : ∀ v w name, Kin .schema v w → v.isNamedInLine →
    SeenM.Twin (Option.Rel Q) (visit v name) (visit' w name))

theorem forall₂_keep {first : Option α} {first' : Option β} {others : List α} {others' : List β}
    (h : Option.Rel Q first first') (hothers : List.Forall₂ Q others others') :
    List.Forall₂ Q (keep first others) (keep first' others') := by
  cases h with
  | none => exact hothers
  | some hfirst => exact .cons hfirst hothers

theorem paired_entitled (h : Kin .schema v w) (hline : v.isNamedInLine) {name : Scalar}
    (hname : (Value.scalar name).isInLine) :
    Paired (fun a b => Kin .schema a b ∧ a.isNamedInLine) (entitled v name) (entitled w name) := by
  refine .same (h.has _) fun hasTitle _ => .ite (fun _ => .ok ⟨h, hline⟩) fun _ => ?_
  exact (h.withTitle_inLine hline hname).bind fun a b hab => .ok hab

include hscope hvisit

theorem twin_visitDefinition (hline : NamedInLine e) (h : KinNamed e f) :
    SeenM.Twin (Option.Rel Q) (visitDefinition scope visit e.1 e.2) (visitDefinition scope' visit' f.1 f.2) := by
  obtain ⟨name, v⟩ := e
  obtain ⟨name', w⟩ := f
  obtain ⟨rfl, hkin⟩ := h
  have htitled : SeenM.Twin (Option.Rel Q) (do visit (← v.withTitle name) name)
      (do visit' (← w.withTitle name) name) :=
    .of_ask (hkin.withTitle_inLine hline.2 (isInLine_of_key hline.1)) fun titled titled' htitled =>
      hvisit _ _ name htitled.1 htitled.2
  refine .of_shared fun seen => .of_ite (fun _ => .pure .none) fun _ => .of_shared fun _ => ?_
  refine .of_same (hkin.has _) fun hasRef _ => .of_ite (fun _ => ?_) fun _ => htitled
  refine .of_bind (.of_lift (twin_standsForFile hscope name)) fun stands stands' hstands => ?_
  subst hstands
  refine .of_ite (fun _ => .pure .none) fun _ => ?_
  refine .of_bind (.of_lift (twin_definitionTarget hscope hkin)) fun target target' htarget => ?_
  obtain ⟨rfl, rfl⟩ := htarget
  exact htitled

theorem twin_visitProperty (hline : NamedInLine e) (h : KinNamed e f) :
    SeenM.Twin (Option.Rel Q) (visitProperty scope visit e.1 e.2) (visitProperty scope' visit' f.1 f.2) := by
  obtain ⟨name, v⟩ := e
  obtain ⟨name', w⟩ := f
  obtain ⟨rfl, hkin⟩ := h
  refine .of_bind (.of_lift (twin_propertyTarget hscope hkin)) fun target target' htarget => ?_
  obtain ⟨rfl, rfl⟩ := htarget
  have htype := SeenM.Twin.of_question (.of_eq (hkin.field?_data (show "type" ∈ dataKeys by decide)))
  refine .of_bind htype.discard fun _ _ _ => ?_
  refine .of_same (hkin.has _) fun hasProperties _ => .of_ite (fun _ => .pure .none) fun _ => ?_
  refine .of_same rfl fun typeName htypeName => .of_shared fun seen => .of_ite (fun _ => .pure .none) fun _ => ?_
  have hinLine : (Value.str typeName).isInLine := isInLine_iff.mpr (Naming.lineEnd_not_mem_pascalOf htypeName hline.1)
  refine .of_ask (paired_entitled hkin hline.2 hinLine) fun nested nested' hnested => .of_shared fun _ => ?_
  exact hvisit nested nested' _ hnested.1 hnested.2

omit hscope hvisit in
theorem twin_visitEach {step : Scalar → Value → SeenM (Option α)} {step' : Scalar → Value → SeenM (Option β)}
    (h : List.Forall₂ (fun e f => SeenM.Twin (Option.Rel Q) (step e.1 e.2) (step' f.1 f.2)) entries entries') :
    SeenM.Twin (List.Forall₂ Q) (visitEach step entries) (visitEach step' entries') := by
  induction h with
  | nil => exact .pure .nil
  | cons hentry _ ih =>
    refine .of_bind hentry fun first first' hfirst => ?_
    exact .of_bind ih fun others others' hothers => .pure (forall₂_keep hfirst hothers)

theorem twin_visitTypes (h : Kin .schema v w) (hline : v.isNamedInLine) :
    SeenM.Twin (List.Forall₂ Q) (visitTypes scope visit v) (visitTypes scope' visit' w) := by
  have hrest : ∀ {types : List α} {types' : List β}, List.Forall₂ Q types types' → SeenM.Twin (List.Forall₂ Q)
      (do return types ++ (← visitProperties scope visit (← v.entriesAt "properties")))
      (do return types' ++ (← visitProperties scope' visit' (← w.entriesAt "properties"))) := by
    intro types types' htypes
    refine .of_ask (h.entriesAt_inLine hline (by decide)) fun entries entries' hentries => ?_
    rw [visitProperties_eq, visitProperties_eq]
    have hstep := hentries.imp fun _ _ he => twin_visitProperty hscope hvisit he.1 he.2
    exact .of_bind (twin_visitEach hstep) fun more more' hmore => .pure (List.rel_append htypes hmore)
  have hgroup : Paired (fun a b => Kin .group a b ∧ a.isNamedInLine) (v.field "definitions")
      (w.field "definitions") :=
    (h.field .group (by decide)).mono fun a b ha hab => ⟨hab, isNamedInLine_of_inside hline (inside_of_field ha)⟩
  refine .of_same (h.has _) fun hasDefinitions _ => .of_ite (fun _ => ?_) fun _ => hrest .nil
  refine .of_ask hgroup fun group group' hgroup => ?_
  refine .of_ask (hgroup.1.entries_inLine hgroup.2) fun entries entries' hentries => ?_
  rw [visitDefinitions_eq, visitDefinitions_eq]
  have hstep := hentries.imp fun _ _ he => twin_visitDefinition hscope hvisit he.1 he.2
  exact .of_bind (twin_visitEach hstep) fun types types' htypes => hrest htypes

end Visits

end Nested

/-! ## Files -/

namespace Go

variable {r : Request} {other : Value}

theorem twin_titleStandsForFile (hscope : SamePlace scope scope')
    (h : Kin .schema v w) : RefM.Twin Eq (titleStandsForFile scope v) (titleStandsForFile scope' w) := by
  have hnone : scope.isNone = scope'.isNone := by
    have hmap := congrArg Option.isNone hscope
    rwa [Option.isNone_map, Option.isNone_map] at hmap
  unfold titleStandsForFile
  rw [hnone]
  refine .of_ite (fun _ => .pure rfl) fun _ => .of_same (h.field?_data (by decide)) fun title _ => ?_
  split
  · exact Nested.twin_standsForFile hscope _
  · exact .pure rfl

theorem twin_isLeftOut (title : String) (elsewhere : List String) (h : Kin .schema v w) :
    RefM.Twin Eq (isLeftOut r title elsewhere v) (isLeftOut { r with schema := other } title elsewhere w) := by
  refine .of_same h.title fun own _ => .of_ite (fun _ => .pure rfl) fun _ => ?_
  refine .of_ite (fun _ => ?_) fun _ => .pure rfl
  refine .of_same (h.has _) fun hasRef _ => .of_ite (fun _ => ?_) fun _ => ?_
  · exact h.twin_ref
  · refine .of_bind (twin_titleStandsForFile (r.samePlace other) h) fun stands stands' hstands => ?_
    subst hstands
    exact .of_ite (fun _ => .pure rfl) fun _ => .pure rfl

theorem twin_nestedDeclaration (title : String) (elsewhere : List String) (h : Kin .schema v w)
    (hline : v.isNamedInLine) : SeenM.Twin SameDeclaration (nestedDeclaration r title elsewhere v)
      (nestedDeclaration { r with schema := other } title elsewhere w) := by
  refine .of_bind (.of_lift (twin_isLeftOut title elsewhere h)) fun left left' hleft => ?_
  subst hleft
  refine .of_ite (fun _ => .pure (.refl _)) fun _ => ?_
  exact twin_declaration (r.samePlace other) r.file true h hline

theorem twin_analyse (title : String) (h : Kin .schema r.schema other) :
    RefM.Twin Eq (analyse r title) (analyse { r with schema := other } title) := by
  have hscope := r.samePlace other
  unfold analyse
  generalize r.scope = scope at hscope ⊢
  generalize Request.scope _ = scope' at hscope ⊢
  match scope, scope', hscope with
  | none, none, hscope => exact .of_bind (twin_imports hscope h none) fun i i' hi => .pure (hi ▸ rfl)
  | some scope, some scope', hscope =>
    refine .of_shared fun t => ?_
    rw [typesElsewhere_eq (Option.some.inj hscope)]
    refine .of_same (Plan.addSchema_eq hscope r.isMain h) fun plan _ => ?_
    exact .of_bind (twin_imports hscope h _) fun i i' hi => .pure (hi ▸ rfl)

theorem twin_declarations (title : String) (elsewhere : List String) (h : Kin .schema r.schema other)
    (hline : r.schema.isNamedInLine) : SeenM.Twin (List.Forall₂ SameDeclaration) (declarations r title elsewhere)
      (declarations { r with schema := other } title elsewhere) := by
  have hscope := r.samePlace other
  refine .of_bind (Nested.twin_visitTypes (Q := SameDeclaration) hscope (fun v w name hkin hinLine => ?_) h hline)
    fun nested nested' hnested => ?_
  · exact .of_bind (twin_nestedDeclaration title elsewhere hkin hinLine) fun d d' hd => .pure (.some hd)
  refine .of_bind (twin_declaration hscope r.file true h hline) fun root root' hroot => .pure ?_
  refine List.rel_append hnested ?_
  split
  · exact .nil
  · exact .cons hroot .nil

theorem twin_fileOf (package : String) (h : Kin .schema r.schema other) (hline : r.schema.isNamedInLine) :
    RefM.Twin (fun a b => SameCode a.text b.text) (fileOf package r) (fileOf package { r with schema := other }) := by
  refine .of_same h.titleOrRoot fun title _ => .of_bind (twin_analyse title h) fun found found' hfound => ?_
  subst hfound
  refine .of_bind (twin_declarations title found.1 h hline [.str title]) fun declared declared' hdeclared => .pure ?_
  refine .join (List.rel_append (sameLines_refl _) ?_)
  rw [List.forall₂_map_left_iff, List.forall₂_map_right_iff]
  exact hdeclared.1

theorem twin_sourceFile (package : String) (h : Kin .schema r.schema other) (hline : r.schema.isNamedInLine) :
    RefM.Twin SameCode (sourceFile package r) (sourceFile package { r with schema := other }) :=
  .of_bind (twin_fileOf package h hline) fun _ _ hfile => .pure hfile

end Go

end Typewright
