import Typewright.Proofs.Descriptions

/-!
# Descriptions in protocol buffer files

Descriptions go into comments of their own line, so all that they can add to the code of a file is what they
spill over their first line.
-/

namespace Typewright.Proto

open RefM Text Value

variable {other property property' : Value}

structure SameFieldType (a b : FieldType) : Prop where
  type : a.type = b.type
  repeated : a.repeated = b.repeated
  nested : SameLines (nestedLines a.nested) (nestedLines b.nested)

variable {scope scope' : Option RefScope} {v w : Value}

/-! ## Lines -/

theorem sameLines_commentLine (indent : String) {a b : String} (h : SameSpill a b) :
    SameLines (commentLine indent a) (commentLine indent b) := by
  have hstart : indent ++ "// " = indent ++ "//" ++ " " := by
    rw [String.append_assoc]
    rfl
  unfold commentLine
  rw [h.1, hstart]
  split
  · exact .nil
  · exact .cons (.comment indent (by decide) h.2) .nil

theorem sameLines_innerLines {lines lines' : List String} (h : SameLines lines lines') :
    SameLines (innerLines lines) (innerLines lines') := by
  have hdropLast : ∀ {xs ys : List String}, SameLines xs ys → SameLines xs.dropLast ys.dropLast := by
    intro xs ys hxy
    rw [List.dropLast_eq_take, List.dropLast_eq_take, hxy.length_eq]
    exact List.forall₂_take _ hxy
  exact hdropLast (hdropLast (List.forall₂_drop 1 h))

theorem sameLines_nested {a b : Declaration} (h : SameLines a.lines b.lines) :
    SameLines (nestedLines (some a)) (nestedLines (some b)) := by
  rw [nestedLines, nestedLines]
  refine List.rel_append ?_ (sameLines_refl _)
  rw [List.forall₂_map_left_iff, List.forall₂_map_right_iff]
  exact h.imp fun a b hab => hab.prepend "  "

/-! ## Declarations -/

theorem paired_enumeration (h : Kin .schema v w) (typeName : String) :
    Outcome.Paired (fun a b => SameLines a.lines b.lines) (enumeration v typeName) (enumeration w typeName) := by
  refine h.description.bind fun a b hsaid => hsaid.2.bind fun c d hcd => ?_
  refine .same (h.fieldD_data (by decide) _) fun values _ => .same (h.fieldD_data (by decide) _) fun names _ => ?_
  refine .same (h.fieldD_data (by decide) _) fun descriptions _ => .same rfl fun items _ => ?_
  refine .same rfl fun members _ => .ok ?_
  unfold Enumeration.lines
  exact List.rel_append (List.rel_append (List.rel_append (sameLines_commentLine "" hcd) (sameLines_refl _))
    (sameLines_refl _)) (sameLines_refl _)

theorem twin_ofOwnRef (hscope : SamePlace scope scope') (h : Kin .schema v w) (name : Scalar) :
    RefM.Twin (fun a b => a = none ∧ b = none) (ofOwnRef scope v name) (ofOwnRef scope' w name) := by
  refine .of_same (h.has "$ref") fun hasRef _ => .of_ite (fun _ => .pure ⟨rfl, rfl⟩) fun _ => ?_
  match scope, scope', hscope with
  | none, none, _ => exact .pure ⟨rfl, rfl⟩
  | some scope, some scope', _ => exact h.twin_ref

theorem sameFieldType_refl (a : FieldType) : SameFieldType a a :=
  ⟨rfl, rfl, sameLines_refl _⟩

theorem sameLines_slots {a b : FieldType} {f g : Field} {rest rest' : List Slot} (h : SameFieldType a b)
    (hfield : SameLines f.lines g.lines) (hrest : SameLines (slotLines rest) (slotLines rest')) :
    SameLines (slotLines (.mk a.nested f :: rest)) (slotLines (.mk b.nested g :: rest')) := by
  rw [slotLines, slotLines.eq_2 (.mk b.nested g), Slot.lines, Slot.lines]
  exact List.rel_append (List.rel_append h.nested hfield) hrest

theorem twin_slots {owner owner' : Value} {typeOf : Below owner → Scalar → SeenM FieldType}
    {typeOf' : Below owner' → Scalar → SeenM FieldType} {entries : List (Scalar × Below owner)}
    {entries' : List (Scalar × Below owner')}
    (h : List.Forall₂ (fun e f => KinNamed (e.1, e.2.val) (f.1, f.2.val)) entries entries')
    (htype : ∀ (e : Below owner) (f : Below owner') (name : Scalar), Kin .schema e.val f.val →
      SeenM.Twin SameFieldType (typeOf e name) (typeOf' f name)) (number : Nat) :
    SeenM.Twin (fun a b => a.length = b.length ∧ SameLines (slotLines a) (slotLines b))
      (slots typeOf number entries) (slots typeOf' number entries') := by
  induction h generalizing number with
  | nil => exact .pure ⟨rfl, .nil⟩
  | @cons e f rest rest' hentry _ ih =>
    obtain ⟨name, property⟩ := e
    obtain ⟨name', property'⟩ := f
    obtain ⟨rfl, hkin⟩ := hentry
    refine .of_bind (htype property property' name hkin) fun type type' hsame => ?_
    refine .of_ask hkin.description fun a b hsaid => .of_ask hsaid.2 fun c d hcd => ?_
    refine .of_same rfl fun snake _ => .of_bind (ih (number + 1)) fun more more' hmore => .pure ⟨?_, ?_⟩
    · rw [List.length_cons, List.length_cons, hmore.1]
    refine sameLines_slots hsame ?_ hmore.2
    unfold Field.lines Field.line
    dsimp only
    rw [hsame.type, hsame.repeated]
    exact List.rel_append (sameLines_commentLine "  " hcd) (sameLines_refl _)

structure SameMessage (a b : Message) : Prop where
  name : a.name = b.name
  lines : SameLines a.lines b.lines

theorem slotLines_append (slots more : List Slot) : slotLines (slots ++ more) = slotLines slots ++ slotLines more := by
  induction slots with
  | nil => rfl
  | cons slot rest ih => rw [List.cons_append, slotLines, slotLines, ih, List.append_assoc]

mutual

theorem twin_fieldType (hscope : SamePlace scope scope') (v w : Value) (name : Scalar) (h : Kin .schema v w) :
    SeenM.Twin SameFieldType (fieldType scope v name) (fieldType scope' w name) := by
  have hany : SameFieldType anyField anyField := sameFieldType_refl _
  rw [fieldType, fieldType]
  refine .of_same (h.has _) fun hasOneOf _ => .of_ite (fun _ => ?oneOf) fun _ =>
    .of_same (h.has _) fun hasAnyOf _ => .of_ite (fun _ => ?anyOf) fun _ => ?_
  case oneOf | anyOf =>
    refine .of_ask (h.part .schema (by decide)) fun ⟨group, hbelow⟩ ⟨group', _⟩ hgroup => ?_
    dsimp only at hgroup ⊢
    rw [hgroup.truthy]
    refine .of_ite (fun _ => .pure hany) fun _ => ?_
    refine .of_ask hgroup.first fun ⟨option, hwithin⟩ ⟨option', _⟩ hoption => ?_
    exact twin_fieldType hscope option option' name hoption
  refine .of_same (h.has _) fun hasAllOf _ => .of_ite (fun _ => ?allOf) fun _ => ?_
  case allOf =>
    refine .of_ask (h.part .schema (by decide)) fun ⟨group, hbelow⟩ ⟨group', _⟩ hgroup => ?_
    dsimp only at hgroup ⊢
    rw [hgroup.truthy]
    refine .of_ite (fun _ => .pure hany) fun _ => ?_
    refine .of_ask hgroup.last fun ⟨last, hwithin⟩ ⟨last', _⟩ hlast => ?_
    exact twin_fieldType hscope last last' name hlast
  refine .of_same (h.has _) fun hasNot _ => .of_ite (fun _ => .pure hany) fun _ => ?_
  refine .of_bind (.of_lift (twin_ofOwnRef hscope h name)) fun found found' hfound => ?_
  obtain ⟨rfl, rfl⟩ := hfound
  refine .of_same (h.field?_data (by decide)) fun type _ => .of_ite (fun _ => ?array) fun _ => ?_
  case array =>
    refine .of_ask (h.part? .schema (by decide)) fun items items' hitems => ?_
    match items, items', hitems with
    | none, none, _ => exact .of_shared fun _ => .pure (sameFieldType_refl _)
    | some ⟨items, hbelow⟩, some ⟨items', _⟩, .some hitems =>
      dsimp only at hitems ⊢
      refine .of_same (hitems.field?_data (by decide)) fun itemType _ => .of_ite (fun _ => ?_) fun _ => ?_
      · refine .of_same rfl fun pascal _ => .of_ask (hitems.part? .schema (by decide)) fun inner inner' hinner => ?_
        match inner, inner', hinner with
        | none, none, _ => exact .pure (sameFieldType_refl _)
        | some ⟨inner, hinnerBelow⟩, some ⟨inner', _⟩, .some hinner =>
          refine .of_bind (twin_fieldType hscope inner inner' (.str "Value") hinner) fun item item' hitem => .pure ?_
          rw [hitem.type]
          exact sameFieldType_refl _
      · refine .of_same rfl fun itemName _ => ?_
        exact .of_bind (twin_fieldType hscope items items' itemName hitems) fun item item' hitem =>
          .pure ⟨hitem.type, rfl, hitem.nested⟩
  refine .of_same (h.has _) fun hasEnum _ => .of_ite (fun _ => ?enum) fun _ => ?_
  case enum =>
    refine .of_same rfl fun enumName _ => .of_ask (paired_enumeration h enumName) fun e e' he => .pure ?_
    exact ⟨rfl, rfl, sameLines_nested he⟩
  refine .of_ite (fun _ => ?object) fun _ => ?_
  case object =>
    refine .of_same rfl fun typeName _ => ?_
    refine .of_ask (h.field? .group (by decide)) fun properties properties' hprops => ?_
    have hfull : (properties.getD .empty).truthy = (properties'.getD .empty).truthy := by
      cases hprops with
      | none => rfl
      | some hkin => exact hkin.truthy
    dsimp only
    rw [hfull]
    refine .of_shared fun seen => .of_ite (fun _ => .pure (sameFieldType_refl _)) fun _ => ?_
    refine .of_ask h.description fun a b hsaid => ?_
    refine .of_ite (fun _ => ?_) fun _ => ?_
    · refine .of_bind (twin_message hscope v w typeName h) fun m m' hm => .pure ⟨rfl, rfl, sameLines_nested ?_⟩
      rw [Declaration.lines, Declaration.lines, hm.name]
      refine List.rel_append (List.rel_append (sameLines_commentLine "" hsaid.1) ?_) (sameLines_refl _)
      exact .cons (.refl _) (sameLines_innerLines hm.lines)
    · refine .pure ⟨rfl, rfl, sameLines_nested ?_⟩
      rw [Declaration.lines, Declaration.lines]
      exact List.rel_append (sameLines_commentLine "" hsaid.1) (sameLines_refl _)
  exact .of_same (h.fieldD_data (by decide) _) fun format _ => .pure (sameFieldType_refl _)
termination_by 3 * v.depth + 2

theorem twin_message (hscope : SamePlace scope scope') (v w : Value) (typeName : String) (h : Kin .schema v w) :
    SeenM.Twin SameMessage (message scope v typeName) (message scope' w typeName) := by
  rw [message, message]
  refine .of_shared fun _ => .of_ask h.description fun a b hsaid => .of_ask hsaid.2 fun c d hcd => ?_
  refine .of_same (h.fieldD_data (by decide) _) fun required _ => .of_shared fun _ => ?_
  refine .of_bind (twin_ownSlots hscope v w h) fun own own' hown => ?_
  rw [hown.1]
  refine .of_bind (twin_moreSlots hscope v w h _) fun more more' hmore => .pure ⟨rfl, ?_⟩
  rw [Message.lines, Message.lines, slotLines_append, slotLines_append]
  refine List.rel_append (sameLines_commentLine "" hcd) (.cons (.refl _) ?_)
  exact List.rel_append (List.rel_append hown.2 hmore) (sameLines_refl _)
termination_by 3 * v.depth + 1

theorem twin_ownSlots (hscope : SamePlace scope scope') (v w : Value) (h : Kin .schema v w) :
    SeenM.Twin (fun a b => a.length = b.length ∧ SameLines (slotLines a) (slotLines b)) (ownSlots scope v)
      (ownSlots scope' w) := by
  rw [ownSlots, ownSlots]
  refine .of_ask (h.part? .group (by decide)) fun properties properties' hprops => ?_
  match properties, properties', hprops with
  | none, none, _ => exact .pure ⟨rfl, .nil⟩
  | some ⟨properties, hbelow⟩, some ⟨properties', _⟩, .some hprops =>
    refine .of_ask hprops.entriesBelow fun entries entries' hentries => ?_
    refine twin_slots hentries (fun e f name hkin => ?_) 1
    have hlt : e.val.depth < v.depth := Nat.lt_trans e.property hbelow
    exact twin_fieldType hscope e.val f.val name hkin
termination_by 3 * v.depth

theorem twin_moreSlots (hscope : SamePlace scope scope') (v w : Value) (h : Kin .schema v w) (number : Nat) :
    SeenM.Twin (fun a b => SameLines (slotLines a) (slotLines b)) (moreSlots scope v number)
      (moreSlots scope' w number) := by
  rw [moreSlots, moreSlots]
  refine .of_ask (h.part? .schema (by decide)) fun more more' hmore => ?_
  match more, more', hmore with
  | none, none, _ => exact .pure .nil
  | some ⟨more, hbelow⟩, some ⟨more', _⟩, .some hmore =>
    dsimp only at hmore ⊢
    rw [hmore.isTrue, hmore.isMap, hmore.truthy]
    refine .of_ite (fun _ => .pure (sameLines_refl _)) fun _ => .of_ite (fun _ => ?_) fun _ => .pure .nil
    refine .of_bind (twin_fieldType hscope more more' (.str "value") hmore) fun value value' hvalue => .pure ?_
    rw [hvalue.type]
    exact sameLines_slots hvalue (sameLines_refl _) .nil
termination_by 3 * v.depth

end

/-! ## Imports -/

theorem refImport_eq (h : Kin .schema property property') : refImport v property = refImport w property' := by
  obtain ⟨e, hproperty, hproperty', _⟩ := h.field_ref
  unfold refImport
  rw [hproperty, hproperty']
  rfl

theorem itemImport_eq (h : Kin .schema property property') : itemImport v property = itemImport w property' := by
  refine Outcome.Paired.eq (.same (h.field?_data (by decide)) fun type _ => .ite (fun _ => .ok rfl) fun _ => ?_)
  refine (h.fieldD .schema (by decide) (.empty _)).bind fun items items' hitems => ?_
  refine .same (hitems.field?_data (by decide)) fun ref href => ?_
  rw [hitems.field?_ref href]
  exact .ok rfl

section Entries

variable {entries entries' : Entries} (h : List.Forall₂ KinNamed entries entries')
include h

theorem propertyImports_eq (hasScope : Bool) :
    propertyImports hasScope v entries = propertyImports hasScope w entries' := by
  induction h with
  | nil => rfl
  | cons hentry _ ih =>
    unfold propertyImports
    rw [hentry.2.field?_data (by decide), hentry.2.has, refImport_eq hentry.2, ih]

theorem wrapperImports_eq : wrapperImports entries = wrapperImports entries' := by
  induction h with
  | nil => rfl
  | cons hentry _ ih =>
    unfold wrapperImports isWrapped
    rw [hentry.2.field?_data (by decide), ih]

theorem fileImports_eq (hasScope : Bool) : fileImports hasScope v entries = fileImports hasScope w entries' := by
  induction h with
  | nil => rfl
  | cons hentry _ ih =>
    obtain ⟨e, hfield, hfield', _⟩ := hentry.2.field_ref
    unfold fileImports
    rw [hentry.2.has, hfield, hfield', itemImport_eq hentry.2, ih]

end Entries

theorem allImports_eq (h : Kin .schema v w) (hasScope : Bool) (more : List String) :
    allImports hasScope v more = allImports hasScope w more := by
  have hrequired : requiredImports hasScope v = requiredImports hasScope w := by
    refine Outcome.Paired.eq ((h.entriesAt (by decide)).bind fun entries entries' hentries => ?_)
    rw [propertyImports_eq hentries, wrapperImports_eq hentries]
    exact .of_eq rfl
  refine Outcome.Paired.eq (.same hrequired fun required _ => ?_)
  refine (h.fieldD .group (by decide) (.scalar _ _)).bind fun properties properties' hprops => ?_
  rw [hprops.truthy]
  refine .ite (fun _ => hprops.entries.bind fun entries entries' hentries => ?_) fun _ => .of_eq rfl
  rw [fileImports_eq hentries]
  exact .of_eq rfl

/-! ## Files -/

/-- The declarations, if there are any, have the same code. -/
def SameDeclarations (a b : List Declaration) : Prop :=
  SameLines (a.flatMap Declaration.lines) (b.flatMap Declaration.lines)

theorem SameDeclarations.append {a b more more' : List Declaration} (h : SameDeclarations a b)
    (hmore : SameDeclarations more more') : SameDeclarations (a ++ more) (b ++ more') := by
  unfold SameDeclarations
  rw [List.flatMap_append, List.flatMap_append]
  exact List.rel_append h hmore

theorem SameDeclarations.single {a b : Declaration} (h : SameLines a.lines b.lines) :
    SameDeclarations (some a).toList (some b).toList := by
  unfold SameDeclarations
  rwa [Option.toList_some, Option.toList_some, List.flatMap_singleton, List.flatMap_singleton]

theorem sameLines_message {m m' : Message} (h : SameMessage m m') :
    SameLines (Declaration.message m).lines (Declaration.message m').lines := by
  rw [Declaration.lines, Declaration.lines]
  exact h.lines

theorem sameLines_enumeration {e e' : Enumeration} (h : SameLines e.lines e'.lines) :
    SameLines (Declaration.enumeration e).lines (Declaration.enumeration e').lines := by
  rw [Declaration.lines, Declaration.lines]
  exact h

section Declarations

variable (hscope : SamePlace scope scope')
include hscope

theorem twin_rootDeclaration (h : Kin .schema v w) :
    SeenM.Twin (fun a b => SameDeclarations a.toList b.toList) (rootDeclaration scope v)
      (rootDeclaration scope' w) := by
  have hname : rootName v = rootName w := by
    unfold rootName
    rw [h.field?_data (by decide)]
  refine .of_same hname fun name _ => .of_same (h.has _) fun hasEnum _ => .of_ite (fun _ => ?_) fun _ => ?_
  · exact .of_ask (paired_enumeration h name) fun e e' he => .pure (.single (sameLines_enumeration he))
  · refine .of_same (h.field?_data (by decide)) fun type _ => .of_ite (fun _ => ?_) fun _ => .pure .nil
    exact .of_bind (twin_message hscope v w name h) fun m m' hm => .pure (.single (sameLines_message hm))

theorem twin_definition (h : Kin .schema v w) (name : String) :
    SeenM.Twin (fun a b => SameDeclarations a.toList b.toList) (definition scope v name)
      (definition scope' w name) := by
  refine .of_same (h.field?_data (by decide)) fun type _ => .of_ite (fun _ => ?_) fun _ => ?_
  · exact .of_bind (twin_message hscope v w name h) fun m m' hm => .pure (.single (sameLines_message hm))
  · rw [h.isMapWith]
    refine .of_ite (fun _ => ?_) fun _ => .pure .nil
    exact .of_ask (paired_enumeration h name) fun e e' he => .pure (.single (sameLines_enumeration he))

theorem twin_definitions {entries entries' : Entries} (h : List.Forall₂ KinNamed entries entries') :
    SeenM.Twin SameDeclarations (definitions scope entries) (definitions scope' entries') := by
  induction h with
  | nil => exact .pure .nil
  | @cons e f rest rest' hentry _ ih =>
    obtain ⟨name, schema⟩ := e
    obtain ⟨name', schema'⟩ := f
    obtain ⟨rfl, hkin⟩ := hentry
    refine .of_same rfl fun typeName _ => .of_shared fun seen => .of_ite (fun _ => ih) fun _ => ?_
    refine .of_bind (twin_definition hscope hkin typeName) fun own own' hown => ?_
    exact .of_bind ih fun more more' hmore => .pure (hown.append hmore)

theorem twin_declarations (h : Kin .schema v w) :
    SeenM.Twin SameDeclarations (declarations scope v) (declarations scope' w) := by
  refine .of_bind (twin_rootDeclaration hscope h) fun root root' hroot => ?_
  refine .of_same (h.has _) fun hasDefinitions _ => .of_ite (fun _ => .pure hroot) fun _ => ?_
  refine .of_ask (h.entriesAt (by decide)) fun entries entries' hentries => ?_
  exact .of_bind (twin_definitions hscope hentries) fun more more' hmore => .pure (hroot.append hmore)

end Declarations

theorem twin_fileOf (package : String) (goPackage : Option String) (more : List String) (r : Request)
    (h : Kin .schema r.schema other) : RefM.Twin (fun a b => SameCode a.text b.text) (fileOf package goPackage more r)
      (fileOf package goPackage more { r with schema := other }) := by
  have hscope := r.samePlace other
  have hfollowed : r.scope.isSome = (Request.scope { r with schema := other }).isSome := by
    have hplace := congrArg Option.isSome hscope
    rwa [Option.isSome_map, Option.isSome_map] at hplace
  refine .of_same (hfollowed ▸ allImports_eq h _ more) fun imports _ => ?_
  refine .of_bind (twin_declarations hscope h []) fun declared declared' hdeclared => .pure ?_
  exact .join (List.rel_append (sameLines_refl _) hdeclared.1)

theorem twin_sourceFile (package : String) (goPackage : Option String) (more : List String) (r : Request)
    (h : Kin .schema r.schema other) : RefM.Twin SameCode (sourceFile package goPackage more r)
      (sourceFile package goPackage more { r with schema := other }) :=
  .of_bind (twin_fileOf package goPackage more r h) fun _ _ hfile => .pure hfile

end Typewright.Proto
