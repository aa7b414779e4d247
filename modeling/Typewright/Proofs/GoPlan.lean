import Typewright.Proofs.Resolving
import Typewright.Proofs.SeenRun
import Typewright.Proofs.TextParts
import Typewright.SourceFile.Go

/-!
# What a Go file plans to declare

Before a file is written, its schema is gone over once: the types that it will declare are noted, and so are those
that other files have.
-/

namespace Typewright

open RefM

variable {schema : Value} {isMain standalone : Bool} {name : Scalar} {α : Type} {title : String}

namespace Go

/-- A reference to a file on a property of the schema, or one that the name of a definition is known to
stand for. -/
def Mentions (t : Tables) (schema : Value) (ref : String) : Prop :=
  (∃ e ∈ schema.entriesOf "properties", e.2.field "$ref" = .ok (.str ref) ∧
    Reference.isInner ref = false) ∨
  ∃ e ∈ schema.entriesOf "definitions", ∃ name, e.1 = .str name ∧ t.definitions.get? name = some ref

/-- The name of the type of a file that the schema mentions. -/
def Imported (scope : RefScope) (t : Tables) (schema : Value) (name : String) : Prop :=
  ∃ ref, Mentions t schema ref ∧ t.types.get? (scope.path ref) = some name

namespace Plan

/-- What the first plan declares, the second one does too, and what the second plan finds elsewhere, the
first one does too, or it is one of these names. -/
structure Grows (Q : String → Prop) (p p' : Plan) : Prop where
  elsewhere : ∀ name ∈ p'.elsewhere, name ∈ p.elsewhere ∨ Q name
  declared : ∀ x, Seen.has p.declared x = true → Seen.has p'.declared x = true

variable {Q : String → Prop} {p p1 p2 : Plan} {scope : RefScope} {t : Tables}

theorem Grows.refl (p : Plan) : Grows Q p p :=
  ⟨fun _ h => .inl h, fun _ h => h⟩

theorem Grows.trans (h : Grows Q p p1) (h' : Grows Q p1 p2) : Grows Q p p2 where
  elsewhere name hname := by
    rcases h'.elsewhere name hname with hname | hq
    · exact h.elsewhere name hname
    · exact .inr hq
  declared x hx := h'.declared x (h.declared x hx)

theorem grows_declare (x : Scalar) : Grows Q p (p.declare x) :=
  ⟨fun _ h => .inl h, fun _ h => Seen.has_add_of_has h⟩

theorem grows_foldlM {f : Plan → α → Except Fault Plan} {xs : List α}
    (hf : ∀ p x p', x ∈ xs → f p x = .ok p' → Grows Q p p') (h : xs.foldlM f p = .ok p1) : Grows Q p p1 := by
  induction xs generalizing p with
  | nil =>
    cases h
    exact .refl _
  | cons x rest ih =>
    rw [List.foldlM_cons] at h
    obtain ⟨next, hnext, hrest⟩ := bind_ok h
    exact (hf p x next (.head _) hnext).trans (ih (fun p y p' hy => hf p y p' (.tail _ hy)) hrest)

theorem grows_addFile {ref : String} (hq : ∀ name, t.types.get? (scope.path ref) = some name → Q name) :
    Grows Q p (p.addFile scope t ref) := by
  unfold addFile
  split
  · next name hknown =>
    refine ⟨fun name' hname' => ?_, fun _ h => h⟩
    rcases Text.mem_add_iff.mp hname' with hold | rfl
    · exact .inl hold
    · exact .inr (hq _ hknown)
  · exact .refl p

theorem grows_addRef (hq : ∀ ref, schema.field "$ref" = .ok (.str ref) → Reference.isInner ref = false →
      ∀ name, t.types.get? (scope.path ref) = some name → Q name)
    (h : p.addRef (some scope) t standalone schema = .ok p1) : Grows Q p p1 := by
  obtain ⟨isRef, _, h1⟩ := bind_ok h
  split at h1
  · cases h1
    exact .refl p
  obtain ⟨ref, href, h2⟩ := bind_ok h1
  obtain ⟨text, htext, h3⟩ := bind_ok h2
  rw [Reference.textOf_eq_ok htext] at href
  split at h3
  · next houter =>
    cases h3
    exact grows_addFile (hq text href (by simpa using houter))
  split at h3
  · cases h3
    exact grows_declare _
  · cases h3
    exact .refl p

theorem grows_addProperty (hq : ∀ ref, schema.field "$ref" = .ok (.str ref) → Reference.isInner ref = false →
      ∀ name, t.types.get? (scope.path ref) = some name → Q name)
    (h : p.addProperty (some scope) t standalone title name schema = .ok p1) : Grows Q p p1 := by
  -- the object is planned for after the enumeration, and the reference after both
  have hobject : ∀ (p' : Plan) {r : Except Fault Plan}, Grows Q p p' → r = .ok p1 →
      r = (do
        let isObject := ((← schema.field? "type").getD .null).isStr "object"
        let p ←
          if isObject && schema.isMapWith "properties" then
            pure (p'.declare (.str (← Naming.capitalWordsOf (.scalar name))))
          else pure p'
        p.addRef (some scope) t standalone schema) → Grows Q p p1 := by
    rintro p' r hgrows hr rfl
    obtain ⟨type, _, h1⟩ := bind_ok hr
    dsimp only at h1
    split at h1
    · obtain ⟨words, _, h2⟩ := bind_ok h1
      exact (hgrows.trans (grows_declare _)).trans (grows_addRef hq h2)
    · exact hgrows.trans (grows_addRef hq h1)
  obtain ⟨isEnum, _, h1⟩ := bind_ok h
  dsimp only at h1
  split at h1
  · obtain ⟨fieldName, _, h2⟩ := bind_ok h1
    exact hobject (p.declare _) (grows_declare _) h2 rfl
  · exact hobject p (.refl p) h1 rfl

theorem definitionFile_eq_some {found : RefScope × String}
    (h : definitionFile (some scope) t name schema = .ok (some found)) :
    ∃ text, name = .str text ∧ t.definitions.get? text = some found.2 ∧ found.1 = scope := by
  obtain ⟨isRef, _, h1⟩ := bind_ok h
  split at h1
  · cases h1
  split at h1
  · next text heq =>
    obtain ⟨ref, href, rfl⟩ := Option.map_eq_some_iff.mp (Except.ok.inj h1)
    exact ⟨text, rfl, href, (Option.some.inj heq).symm⟩
  · cases h1

theorem addDefinition_cases (h : p.addDefinition (some scope) t name schema = .ok p1) :
    (∃ text ref, name = .str text ∧ t.definitions.get? text = some ref ∧ p1 = p.addFile scope t ref) ∨
      Grows Q (p.declare name) p1 := by
  obtain ⟨file, hfile, h1⟩ := bind_ok h
  match file with
  | some (scope', ref) =>
    cases h1
    obtain ⟨text, hname, htext, heq⟩ := definitionFile_eq_some hfile
    obtain rfl : scope' = scope := heq
    exact .inl ⟨text, ref, hname, htext, rfl⟩
  | none =>
    refine .inr ?_
    obtain ⟨hasProperties, _, h2⟩ := bind_ok h1
    split at h2
    · cases h2
      exact .refl _
    obtain ⟨properties, _, h3⟩ := bind_ok h2
    refine grows_foldlM (fun p' e p'' _ hrun => ?_) h3
    obtain ⟨isUuid, _, h4⟩ := bind_ok hrun
    split at h4
    · cases h4
      exact ⟨fun _ hname => .inl hname, fun _ hx => hx⟩
    · cases h4
      exact .refl _

theorem grows_addDefinition (hq : ∀ text ref, name = .str text → t.definitions.get? text = some ref →
      ∀ name, t.types.get? (scope.path ref) = some name → Q name)
    (h : p.addDefinition (some scope) t name schema = .ok p1) : Grows Q p p1 := by
  rcases addDefinition_cases h with ⟨text, ref, hname, href, rfl⟩ | hgrows
  · exact grows_addFile (hq text ref hname href)
  · exact (grows_declare name).trans hgrows

theorem declared_foldlM {es : Entries} (hnone : ∀ text, t.definitions.get? text = none)
    (h : es.foldlM (fun p e => p.addDefinition (some scope) t e.1 e.2) p = .ok p1) :
    ∀ e ∈ es, Seen.has p1.declared e.1 := by
  have hfile : ∀ {name : Scalar} (text ref : String), name = .str text →
      t.definitions.get? text = some ref → ∀ known, t.types.get? (scope.path ref) = some known →
      False := by
    intro name text ref _ href
    cases (hnone text).symm.trans href
  induction es generalizing p with
  | nil => nofun
  | cons e rest ih =>
    rw [List.foldlM_cons] at h
    obtain ⟨next, hnext, hrest⟩ := bind_ok h
    intro e' he'
    rcases List.mem_cons.mp he' with rfl | he'
    · have hkept := grows_foldlM (fun p x p' _ hrun => grows_addDefinition hfile hrun) hrest
      refine hkept.declared _ ?_
      rcases addDefinition_cases (Q := fun _ => False) hnext with ⟨text, ref, _, href, _⟩ | hgrows
      · cases (hnone text).symm.trans href
      · exact hgrows.declared _ (Seen.has_add_self _ _)
    · exact ih hrest e' he'

theorem addSchema_cases (h : p.addSchema (some scope) t isMain standalone schema = .ok p1) :
    ∃ title properties p', schema.titleOrRoot = .ok title ∧ schema.entriesAt "properties" = .ok properties ∧
      properties.foldlM (fun p e => p.addProperty (some scope) t standalone title e.1 e.2) p = .ok p' ∧
      ((p1 = p' ∧ (schema.has "definitions" = .ok false ∨ (isMain || standalone) = false)) ∨
        ∃ definitions, schema.entriesAt "definitions" = .ok definitions ∧
          definitions.foldlM (fun p e => p.addDefinition (some scope) t e.1 e.2) p' = .ok p1) := by
  obtain ⟨title, htitle, h1⟩ := bind_ok h
  obtain ⟨properties, hprops, h2⟩ := bind_ok h1
  obtain ⟨p', hp', h3⟩ := bind_ok h2
  refine ⟨title, properties, p', htitle, hprops, hp', ?_⟩
  obtain ⟨hasDefinitions, hhas, h4⟩ := bind_ok h3
  split at h4
  · next hno =>
    cases h4
    cases hasDefinitions with
    | false => exact .inl ⟨rfl, .inl hhas⟩
    | true => cases hno
  split at h4
  · next hno =>
    cases h4
    exact .inl ⟨rfl, .inr (by simpa using hno)⟩
  obtain ⟨group, hgroup, h5⟩ := bind_ok h4
  obtain ⟨definitions, hdefs, h6⟩ := bind_ok h5
  exact .inr ⟨definitions, (Value.entriesAt_of_field hgroup).trans hdefs, h6⟩

theorem grows_addSchema (h : p.addSchema (some scope) t isMain standalone schema = .ok p1) :
    Grows (Imported scope t schema) p p1 := by
  obtain ⟨title, properties, p', _, hprops, hp', hrest⟩ := addSchema_cases h
  have hfirst : Grows (Imported scope t schema) p p' := by
    refine grows_foldlM (fun p e p'' he hrun => grows_addProperty ?_ hrun) hp'
    intro ref href houter name hname
    refine ⟨ref, .inl ⟨e, ?_, href, houter⟩, hname⟩
    rwa [Value.entriesOf_eq hprops]
  rcases hrest with ⟨rfl, _⟩ | ⟨definitions, hdefs, hrun⟩
  · exact hfirst
  refine hfirst.trans (grows_foldlM (fun p e p'' he hrun => grows_addDefinition ?_ hrun) hrun)
  intro text ref heq href name hname
  refine ⟨ref, .inr ⟨e, ?_, text, heq, href⟩, hname⟩
  rwa [Value.entriesOf_eq hdefs]

theorem declared_addSchema {definitions : Entries} (hnone : ∀ text, t.definitions.get? text = none)
    (h : p.addSchema (some scope) t true standalone schema = .ok p1)
    (hdefs : schema.entriesAt "definitions" = .ok definitions) : ∀ e ∈ definitions, Seen.has p1.declared e.1 := by
  obtain ⟨title, properties, p', _, _, _, hrest⟩ := addSchema_cases h
  rcases hrest with ⟨rfl, hno | hno⟩ | ⟨definitions', hdefinitions', hrun⟩
  · intro e he
    obtain ⟨group, hgroup, _⟩ := Value.field_of_entriesAt hdefs he
    cases hno.symm.trans (Value.has_of_field hgroup)
  · cases hno
  · cases hdefs.symm.trans hdefinitions'
    exact declared_foldlM hnone hrun

end Plan

theorem exec_analyse {scope : RefScope} {r : Request}
    {found : List String × Imports} {s s' : RefState} (hscope : r.scope = some scope)
    (h : exec (analyse r title) s = (.ok found, s')) : ∀ name ∈ found.1, name ∈ typesElsewhere scope r.file s.tables ∨
      Imported scope s.tables r.schema name := by
  unfold analyse at h
  rw [hscope] at h
  obtain ⟨t, s1, ht, h1⟩ := exec_bind_ok h
  cases ht
  obtain ⟨plan, hplan, h2⟩ := exec_ask_ok h1
  obtain ⟨i, s2, _, h3⟩ := exec_bind_ok h2
  cases h3
  intro name hname
  rcases (Plan.grows_addSchema hplan).elsewhere name hname with hname | himported
  · rw [Text.mem_foldl_add] at hname
    exact .inl (List.mem_filter.mp (hname.resolve_left (by simp))).1
  · exact .inr himported

end Go

end Typewright
