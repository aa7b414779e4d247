import Typewright.Proofs.GoDeclarations
import Typewright.Proofs.GoPlan

/-!
# What a Go file declares
-/

namespace Typewright

open RefM Value Reference Nested Text Seen

variable {schema : Value} {ds : List (Option Declaration)} {name : Scalar}
  {found : Option (Option Declaration)} {text : String} {s1 : RefState} {stands : Bool} {es : Entries}
  {seen1 : List Scalar} {nested : Value}

theorem Text.startsWith_self (text : String) : startsWith text text := by
  unfold startsWith
  exact List.isPrefixOf_iff_prefix.mpr (List.prefix_refl _)

theorem Text.eq_empty_of_startsWith (h : startsWith "" text) : text = "" := by
  unfold startsWith at h
  rw [List.isPrefixOf_iff_prefix] at h
  exact String.toList_inj.mp (List.prefix_nil.mp h)

namespace Go

/-! ## What a file can declare -/

/-- What the name of a type inside the schema has to start with, for a file that only stands for
itself. -/
def start (r : Request) (title : String) : String :=
  if r.isStandalone then title else ""

theorem startsWith_start {r : Request} {title : String} (h : r.isStandalone → startsWith text title) :
    startsWith text (start r title) := by
  unfold start
  split
  · next hstandalone => exact h hstandalone
  · rfl

/-- The state comes up in a run from empty tables to the last state. -/
structure During (scope : RefScope) (last s : RefState) : Prop where
  reached : Reference.Changes scope {} s
  later : Reference.Changes scope s last

theorem During.between {scope : RefScope} {last s s' : RefState} (hs : During scope last s)
    (hs' : During scope last s') (h : Changes scope s s1)
    (h' : Changes scope s1 s') : During scope last s1 :=
  ⟨hs.reached.trans h, h'.trans hs'.later⟩

/-- What a file has to meet for its own names to be declared when they are seen. The references that it
follows are settled in the last state at the latest. -/
structure Declarable (scope : RefScope) (r : Request) (title : String) (last : RefState)
    (Own : String → Prop) (body : Value → Prop) : Prop where
  scope_eq : r.scope = some scope
  title_eq : r.schema.titleOrRoot = .ok title
  claimable : ∀ {s}, During scope last s → ∀ name, Own name →
    Claimable scope r.file s.tables name
  unknown : ∀ {s}, During scope last s → ∀ name, Own name → name ≠ title →
    s.tables.definitions.get? name = none
  imported : ∀ {s}, During scope last s → ∀ name, Own name →
    ¬ Imported scope s.tables r.schema name
  starts : ∀ name, Own name → Text.startsWith name (start r title) = true
  self : body r.schema ∧
    (Own title → r.schema.field "title" = .ok (.str title) ∧ ¬ OuterRef r.schema)
  orderly : ∀ schema, body schema → Orderly schema
  settled : ∀ ref v, Reference.Settled scope last.tables ref v → body v ∧ ¬ OuterRef v
  definitions : ∀ e ∈ r.schema.entriesOf "definitions", body e.2 ∧
    ∀ name, e.1 = .str name → Own name → name ≠ title → ¬ OuterRef e.2
  objects : ∀ e ∈ r.schema.entriesOf "properties", e.2.isMapWith "properties" = true →
    body e.2 ∧ e.2.isMapWith "title" = false ∧ ¬ OuterRef e.2
  references : ∀ text v, Reference.Settled scope last.tables (.str text) v →
    v.has "properties" = .ok true → Nested.refName text ≠ "" ∧
      (Own (Nested.refName text) → Nested.refName text ≠ title →
        (∃ e ∈ r.schema.entriesOf "definitions", e.1 = .str (Nested.refName text)) ∨
        v.field "title" = .ok (.str (Nested.refName text)))

section Declarable

variable {scope : RefScope} {r : Request} {title : String} {elsewhere : List String}
  {last s s' : RefState} {Own : String → Prop} {body : Value → Prop} {seen seen' : List Scalar}

theorem during_of_runs {α β : Type} {x : SeenM α} {y : SeenM β} {a : α} {b : β} {seen0 seen2 seen3 : List Scalar}
    [hx : FollowsSeen (some scope) KindFault x] [hy : FollowsSeen (some scope) KindFault y]
    (hs : During scope last s) (hs' : During scope last s') (hfirst : exec (x.run seen0) s = (.ok (a, seen1), s1))
    (hsecond : exec (y.run seen2) s1 = (.ok (b, seen3), s')) : During scope last s1 :=
  hs.between hs' ((hx.run seen0).changes hfirst) ((hy.run seen2).changes hsecond)

theorem during_of_walk {step : Scalar → Value → SeenM (Option (Option Declaration))}
    [hstep : ∀ name v, FollowsSeen (some scope) KindFault (step name v)]
    (hs : During scope last s) (hs' : During scope last s')
    (head : exec ((step name schema).run seen) s = (.ok (found, seen1), s1))
    (tail : Walk step es seen1 s1 ds seen' s') : During scope last s1 :=
  hs.between hs' (((hstep name schema).run seen).changes head) tail.changes

/-! ## Types inside the schema -/

/-- Why a type inside the schema, of this title, is left out or not. -/
structure LeftOut (r : Request) (title : String) (elsewhere : List String) (schema : Value)
    (t : Tables) (own : String) (leftOut : Bool) : Prop where
  kept : leftOut = false → r.isStandalone = true → own = title ∨ Text.startsWith own title = true
  left : leftOut = true → own ∈ elsewhere ∨ OuterRef schema ∨
    (∃ raw, schema.field "title" = .ok (.str raw) ∧ t.definitions.has raw = true) ∨
    (r.isStandalone = true ∧ Text.startsWith own title = false)

theorem exec_titleStandsForFile {scope : Option RefScope}
    (h : exec (titleStandsForFile scope schema) s = (.ok stands, s')) : s' = s ∧ (stands →
      ∃ raw, schema.field "title" = .ok (.str raw) ∧ s.tables.definitions.has raw) := by
  unfold titleStandsForFile at h
  split at h
  · cases h
    exact ⟨rfl, nofun⟩
  obtain ⟨found, hfound, h1⟩ := exec_ask_ok h
  split at h1
  · next title =>
    obtain ⟨hsame, hknown⟩ := exec_standsForFile h1
    refine ⟨hsame, fun hstands => ?_⟩
    obtain ⟨raw, rfl, hhas⟩ := hknown hstands
    exact ⟨raw, field_of_field? hfound, hhas⟩
  · cases h1
    exact ⟨rfl, nofun⟩

theorem exec_isLeftOut {leftOut : Bool} (h : exec (isLeftOut r title elsewhere schema) s = (.ok leftOut, s')) :
    s' = s ∧ ∃ own, schema.title = .ok own ∧ LeftOut r title elsewhere schema s.tables own leftOut := by
  obtain ⟨own, hown, h1⟩ := exec_ask_ok h
  refine (?_ : _ ∧ _).imp_right fun hcases => ⟨own, hown, hcases⟩
  dsimp only at h1
  -- the test that comes last, whichever of the others are made
  have hlast : exec (pure (r.isStandalone && own != title && !startsWith own title) : RefM Bool)
      s = (.ok leftOut, s') → s' = s ∧ LeftOut r title elsewhere schema s.tables own leftOut := by
    intro hrun
    cases hrun
    refine ⟨rfl, fun hkept hstandalone => ?_, fun hleft => .inr (.inr (.inr ?_))⟩
    · by_cases heq : own = title
      · exact .inl heq
      · simpa [hstandalone, heq] using hkept
    · rw [Bool.and_eq_true_iff, Bool.and_eq_true_iff] at hleft
      exact ⟨hleft.1.1, by simpa using hleft.2⟩
  have htitled : exec (do
        if ← titleStandsForFile r.scope schema then return true
        return r.isStandalone && own != title && !startsWith own title : RefM Bool) s =
      (.ok leftOut, s') → s' = s ∧ LeftOut r title elsewhere schema s.tables own leftOut := by
    intro hrun
    obtain ⟨stands, s1, hstands, h2⟩ := exec_bind_ok hrun
    obtain ⟨rfl, htitle⟩ := exec_titleStandsForFile hstands
    split at h2
    · next hknown =>
      cases h2
      exact ⟨rfl, nofun, fun _ => .inr (.inr (.inl (htitle hknown)))⟩
    · exact hlast h2
  split at h1
  · next hcontains =>
    cases h1
    exact ⟨rfl, nofun, fun _ => .inl (by simpa using hcontains)⟩
  split at h1
  · obtain ⟨isRef, hisRef, h2⟩ := exec_ask_ok h1
    split at h2
    · obtain ⟨ref, href, h3⟩ := exec_ask_ok h2
      obtain ⟨text, htext, h4⟩ := exec_ask_ok h3
      rw [textOf_eq_ok htext] at href
      split at h4
      · next houter =>
        cases h4
        exact ⟨rfl, nofun, fun _ => .inr (.inl ⟨text, href, by simpa using houter⟩)⟩
      · exact htitled h4
    · exact htitled h2
  · exact hlast h1

theorem startsWith_of_kept {own : String} {t : Tables} (named : title ≠ "")
    (hown : schema.title = .ok own) (kept : LeftOut r title elsewhere schema t own false)
    (htext : schema.titleOrRoot = .ok text) : startsWith text (start r title) := by
  refine startsWith_start fun hstandalone => ?_
  have hstart : startsWith own title := by
    rcases kept.kept rfl hstandalone with rfl | hstart
    · exact startsWith_self own
    · exact hstart
  have hne : own ≠ "" := by
    rintro rfl
    exact named (eq_empty_of_startsWith hstart)
  unfold Value.titleOrRoot at htext
  rw [hown] at htext
  cases htext
  rw [if_neg (by simpa using hne)]
  exact hstart

theorem exec_nestedDeclaration {bare : Value} {d : Option Declaration}
    (fit : Declarable scope r title last Own body) (here : ∀ name, Own name → name ∉ elsewhere)
    (hbody : body bare) (retitled : Value.Retitled bare schema) (hs : During scope last s)
    (h : exec ((nestedDeclaration r title elsewhere schema).run seen) s = (.ok (d, seen'), s')) :
    Declares scope Own body (start r title) seen seen' s s' [d] ∧
      ∀ text, schema.field "title" = .ok (.str text) → Own text → text ≠ title →
        ¬ OuterRef schema → text ∈ declaredNames [d] := by
  obtain ⟨leftOut, s1, hleftOut, h1⟩ := run_lift_ok h
  obtain ⟨rfl, own, hown, hcases⟩ := exec_isLeftOut hleftOut
  cases leftOut with
  | true =>
    cases h1
    refine ⟨⟨.refl, .refl _, nofun⟩, fun text htext hmine hne hinner => ?_⟩
    have hclaimable := fit.claimable hs text hmine
    obtain ⟨_, htitle, _⟩ := titleOrRoot_of_field htext hclaimable.plain hclaimable.named
    cases hown.symm.trans htitle
    rcases hcases.left rfl with helsewhere | houter | ⟨raw, hraw, hknown⟩ | ⟨hstandalone, hstart⟩
    · exact absurd helsewhere (here own hmine)
    · exact absurd houter hinner
    · cases htext.symm.trans hraw
      simp [Table.has, fit.unknown hs own hmine hne] at hknown
    have hstarts := fit.starts own hmine
    unfold start at hstarts
    rw [if_pos hstandalone, hstart] at hstarts
    cases hstarts
  | false =>
    change exec ((declaration r.scope r.file true schema).run seen) _ = _ at h1
    rw [fit.scope_eq] at h1
    obtain ⟨hdeclares, hdeclared⟩ := exec_declaration (fit.claimable hs) hbody (fit.orderly bare hbody) retitled
      (fun text => startsWith_of_kept (titleOrRoot_ne fit.title_eq) hown hcases) h1
    exact ⟨hdeclares, fun text htext hmine _ => hdeclared text htext hmine⟩

/-- What is done with a type inside the schema. -/
def visit (r : Request) (title : String) (elsewhere : List String) (schema : Value) (_ : Scalar) :
    SeenM (Option (Option Declaration)) :=
  return some (← nestedDeclaration r title elsewhere schema)

theorem follows_visit (fit : Declarable scope r title last Own body) (elsewhere : List String)
    (schema : Value) (name : Scalar) : FollowsSeen (some scope) KindFault (visit r title elsewhere schema name) := by
  have hfollows : FollowsSeen r.scope KindFault (visit r title elsewhere schema name) := by
    unfold visit
    infer_instance
  rw [fit.scope_eq] at hfollows
  exact hfollows

/-! ## Definitions -/

theorem exec_definitionTarget {v : Value} (h : exec (definitionTarget (some scope) schema) s = (.ok v, s')) :
    v = schema ∨ ∃ ref, Settled scope s'.tables ref v := by
  obtain ⟨outcome, s1, hattempt, h1⟩ := exec_bind_ok h
  rw [Follows.exec_attempt] at hattempt
  cases hattempt
  split at h1
  · next target htarget =>
    cases h1
    obtain ⟨ref, _, hresolve⟩ := exec_ask_ok (Prod.ext htarget rfl)
    exact .inr ⟨ref, settled_of_exec_resolve hresolve⟩
  · cases h1
    exact .inl rfl

theorem exec_visit_named {titled : Within schema} (fit : Declarable scope r title last Own body)
    (here : ∀ name, Own name → name ∉ elsewhere) (hbody : body schema)
    (inner : ∀ text, name = .str text → Own text → text ≠ title ∧ ¬ OuterRef schema)
    (htitled : schema.withTitle name = .ok titled) (hs : During scope last s)
    (h : exec ((visit r title elsewhere titled.val name).run (add seen name)) s = (.ok (found, seen'), s')) :
    Declares scope Own body (start r title) seen seen' s s' found.toList ∧
      ∀ text, name = .str text → has seen' (.str text) := by
  obtain ⟨d, seen1, s1, hd, h1⟩ := run_bind_ok h
  cases h1
  obtain ⟨hdeclares, hdeclared⟩ := exec_nestedDeclaration fit here hbody (retitled_withTitle htitled) hs hd
  refine ⟨hdeclares.mark ?_, fun text heq => ?_⟩
  · rintro text rfl hmine
    obtain ⟨hne, hinner⟩ := inner text rfl hmine
    exact hdeclared text (field_withTitle htitled) hmine hne fun houter =>
      hinner (houter.of_retitled (retitled_withTitle htitled))
  · exact hdeclares.adds.mono text (has_add_iff.mpr (.inr heq))

theorem exec_visitDefinition (fit : Declarable scope r title last Own body) (here : ∀ name, Own name → name ∉ elsewhere)
    (he : (name, schema) ∈ r.schema.entriesOf "definitions")
    (hseen : has seen (.str title)) (hs : During scope last s) (hs' : During scope last s')
    (h : exec ((visitDefinition (some scope) (visit r title elsewhere) name schema).run seen) s =
      (.ok (found, seen'), s')) : Declares scope Own body (start r title) seen seen' s s' found.toList ∧
      ∀ text, name = .str text → has seen' (.str text) := by
  obtain ⟨hbody, hinner⟩ := fit.definitions _ he
  have hne : has seen name = false → ∀ text, name = .str text → text ≠ title := by
    rintro fresh text rfl rfl
    cases fresh.symm.trans hseen
  cases visitDefinition_cases h with
  | seen known =>
    refine ⟨.refl _ _, ?_⟩
    rintro text rfl
    exact known
  | elsewhere fresh isRef stands =>
    obtain ⟨text, rfl, hknown⟩ := (exec_standsForFile stands).2 rfl
    refine ⟨(Declares.refl _ _).mark fun name heq hmine => ?_, ?_⟩
    · cases heq
      simp [Table.has, fit.unknown hs text hmine (hne fresh text rfl)] at hknown
    · rintro _ ⟨⟩
      exact has_add_iff.mpr (.inr rfl)
  | @visited target titled s1 _ _ _ fresh htitled reached run =>
    rcases reached with ⟨_, rfl, rfl⟩ | ⟨_, htarget⟩
    · exact exec_visit_named fit here hbody
        (fun text heq hmine => ⟨hne fresh text heq, hinner text heq hmine (hne fresh text heq)⟩) htitled hs run
    have hfollows : Follows (some scope) KindFault (definitionTarget (some scope) schema) := inferInstance
    have hearlier := hfollows.changes htarget
    have hvisit := ((follows_visit fit elsewhere titled.val name).run _).changes run
    have hreached : body target ∧ ∀ text, name = .str text → Own text → text ≠ title ∧ ¬ OuterRef target := by
      rcases exec_definitionTarget htarget with rfl | ⟨ref, hsettled⟩
      · exact ⟨hbody, fun text heq hmine =>
          ⟨hne fresh text heq, hinner text heq hmine (hne fresh text heq)⟩⟩
      · obtain ⟨hbody', hinner'⟩ := fit.settled ref _ (hsettled.keep (hvisit.trans hs'.later))
        exact ⟨hbody', fun text heq _ => ⟨hne fresh text heq, hinner'⟩⟩
    exact (exec_visit_named fit here hreached.1 hreached.2 htitled
      (hs.between hs' hearlier hvisit) run).imp_left fun hdeclares => hdeclares.after hearlier

theorem declares_walkDefinitions
    (fit : Declarable scope r title last Own body) (here : ∀ name, Own name → name ∉ elsewhere)
    (hes : ∀ e ∈ es, e ∈ r.schema.entriesOf "definitions")
    (hseen : has seen (.str title)) (hs : During scope last s) (hs' : During scope last s')
    (h : Walk (visitDefinition (some scope) (visit r title elsewhere)) es seen s ds seen' s') :
    Declares scope Own body (start r title) seen seen' s s' ds ∧
      ∀ e ∈ es, ∀ text, e.1 = .str text → has seen' (.str text) := by
  induction h with
  | nil => exact ⟨.refl _ _, nofun⟩
  | cons head tail ih =>
    rw [List.forall_mem_cons] at hes
    have hvisit := follows_visit fit elsewhere
    have hs1 := during_of_walk hs hs' head tail
    obtain ⟨hdeclares, hnamed⟩ := exec_visitDefinition fit here hes.1 hseen hs hs1 head
    obtain ⟨hdeclares', hnamed'⟩ := ih hes.2 (hdeclares.adds.mono title hseen) hs1 hs'
    exact ⟨hdeclares.trans hdeclares', List.forall_mem_cons.mpr
      ⟨fun text heq => hdeclares'.adds.mono text (hnamed text heq), hnamed'⟩⟩

/-! ## Objects -/

theorem exec_propertyTarget {found : Value × Option String}
    (h : exec (propertyTarget (some scope) schema) s = (.ok found, s')) :
    found = (schema, none) ∨ (schema.has "$ref" = .ok true ∧
      ∃ text, Settled scope s'.tables (.str text) found.1 ∧ found.2 = some (refName text)) := by
  obtain ⟨target, known⟩ := found
  obtain ⟨ref, hbehind, rfl⟩ := propertyTarget_cases h
  cases hbehind with
  | own => exact .inl rfl
  | reference here refers resolved =>
    cases here
    exact .inr ⟨has_of_field refers, _, settled_of_exec_resolve resolved, rfl⟩

theorem retitled_entitled {name : String} (h : entitled schema (.str name) = .ok nested) :
    Value.Retitled schema nested ∧ (schema.has "title" = .ok false ∨ schema.field "title" = .ok (.str name) →
        nested.field "title" = .ok (.str name)) := by
  obtain ⟨hasTitle, htitle, h1⟩ := bind_ok h
  cases hasTitle with
  | true =>
    cases h1
    refine ⟨.inl rfl, ?_⟩
    rintro (hno | hnamed)
    · cases htitle.symm.trans hno
    · exact hnamed
  | false =>
    obtain ⟨titled, htitled, h2⟩ := bind_ok h1
    cases h2
    exact ⟨retitled_withTitle htitled, fun _ => field_withTitle htitled⟩

theorem exec_visit_entitled {target : Value} {typeName : String} (fit : Declarable scope r title last Own body)
    (here : ∀ name, Own name → name ∉ elsewhere) (hbody : body target) (named : Own typeName → ¬ OuterRef target ∧
      (target.has "title" = .ok false ∨ target.field "title" = .ok (.str typeName)))
    (hne : typeName ≠ title) (hnested : entitled target (.str typeName) = .ok nested) (hs : During scope last s)
    (h : exec ((visit r title elsewhere nested (.str typeName)).run (add seen (.str typeName))) s =
      (.ok (found, seen'), s')) : Declares scope Own body (start r title) seen seen' s s' found.toList ∧
      has seen' (.str typeName) := by
  obtain ⟨d, seen1, s1, hd, h1⟩ := run_bind_ok h
  cases h1
  obtain ⟨hretitled, htitle⟩ := retitled_entitled hnested
  obtain ⟨hdeclares, hdeclared⟩ := exec_nestedDeclaration fit here hbody hretitled hs hd
  refine ⟨hdeclares.mark ?_, hdeclares.adds.mono _ (has_add_iff.mpr (.inr rfl))⟩
  rintro _ ⟨⟩ hmine
  obtain ⟨hinner, hnamed⟩ := named hmine
  exact hdeclared typeName (htitle hnamed) hmine hne fun houter =>
    hinner (houter.of_retitled hretitled)

theorem exec_visitProperty (fit : Declarable scope r title last Own body) (here : ∀ name, Own name → name ∉ elsewhere)
    (he : (name, schema) ∈ r.schema.entriesOf "properties") (hseen : has seen (.str title))
    (hdefs : ∀ e ∈ r.schema.entriesOf "definitions", ∀ text, e.1 = .str text →
      has seen (.str text)) (hs : During scope last s) (hs' : During scope last s')
    (h : exec ((visitProperty (some scope) (visit r title elsewhere) name schema).run seen) s =
      (.ok (found, seen'), s')) : Declares scope Own body (start r title) seen seen' s s' found.toList ∧
      (schema.has "$ref" = .ok false → schema.has "properties" = .ok true → ∀ text,
        Naming.pascalOf (.scalar name) = .ok text → has seen' (.str text)) := by
  obtain ⟨target, known, s1, htarget, hcases⟩ := visitProperty_cases h
  have hfollows : Follows (some scope) KindFault (propertyTarget (some scope) schema) := inferInstance
  have hearlier := hfollows.changes htarget
  cases hcases with
  | plain hmap hplain =>
    refine ⟨(Declares.refl _ _).after hearlier, fun hno hyes => ?_⟩
    obtain ⟨rfl, -, -⟩ := propertyTarget_eq_ok htarget (.inr hno)
    rw [has_eq_isMapWith _ hmap, hplain] at hyes
    cases hyes
  | @seen typeName called hknown =>
    refine ⟨(Declares.refl _ _).after hearlier, fun hno _ text htext => ?_⟩
    obtain ⟨-, rfl, -⟩ := propertyTarget_eq_ok htarget (.inr hno)
    cases (called.resolve_left nofun).symm.trans htext
    exact hknown
  | @visited typeName nested _ _ _ called object fresh titled run =>
    have hvisit := ((follows_visit fit elsewhere nested (.str typeName)).run _).changes run
    have hs1 := hs.between hs' hearlier hvisit
    have hne : typeName ≠ title := by
      rintro rfl
      cases fresh.symm.trans hseen
    rcases exec_propertyTarget htarget with heq | ⟨hisRef, text, hsettled, heq⟩
    · obtain ⟨rfl, rfl⟩ := Prod.mk.inj heq
      obtain ⟨hbody, hno, hinner⟩ := fit.objects _ he object
      obtain ⟨hdeclares, hnamed⟩ := exec_visit_entitled fit here hbody
        (fun _ => ⟨hinner, .inl (by rw [has_eq_isMapWith _ (isMap_of_isMapWith object), hno])⟩)
        hne titled hs1 run
      refine ⟨hdeclares.after hearlier, fun _ _ text htext => ?_⟩
      cases (show Naming.pascalOf (.scalar name) = .ok typeName from called).symm.trans htext
      exact hnamed
    obtain rfl : known = some (refName text) := heq
    refine ⟨?_, fun hno => nomatch hisRef.symm.trans hno⟩
    -- the reference stays settled while its target is visited
    have hlast : Settled scope last.tables (.str text) target := hsettled.keep (hvisit.trans hs'.later)
    have hhas : target.has "properties" = .ok true := by
      rw [has_eq_isMapWith _ (isMap_of_isMapWith object), object]
    obtain ⟨hname, howner⟩ := fit.references text target hlast hhas
    obtain rfl : refName text = typeName := Except.ok.inj ((if_neg (by simpa using hname)).symm.trans called)
    obtain ⟨hbody, hinner⟩ := fit.settled _ _ hlast
    refine (exec_visit_entitled fit here hbody (fun hmine => ⟨hinner, .inr ?_⟩) hne titled hs1 run).1.after hearlier
    rcases howner hmine hne with ⟨e, he, heq⟩ | htitle
    · cases (hdefs e he _ heq).symm.trans fresh
    · exact htitle

theorem declares_walkProperties
    (fit : Declarable scope r title last Own body) (here : ∀ name, Own name → name ∉ elsewhere)
    (hes : ∀ e ∈ es, e ∈ r.schema.entriesOf "properties") (hseen : has seen (.str title))
    (hdefs : ∀ e ∈ r.schema.entriesOf "definitions", ∀ text, e.1 = .str text →
      has seen (.str text)) (hs : During scope last s) (hs' : During scope last s')
    (h : Walk (visitProperty (some scope) (visit r title elsewhere)) es seen s ds seen' s') :
    Declares scope Own body (start r title) seen seen' s s' ds ∧
      ∀ e ∈ es, e.2.has "$ref" = .ok false → e.2.has "properties" = .ok true → ∀ text,
        Naming.pascalOf (.scalar e.1) = .ok text → has seen' (.str text) := by
  induction h with
  | nil => exact ⟨.refl _ _, nofun⟩
  | cons head tail ih =>
    rw [List.forall_mem_cons] at hes
    have hvisit := follows_visit fit elsewhere
    have hs1 := during_of_walk hs hs' head tail
    obtain ⟨hdeclares, hnamed⟩ := exec_visitProperty fit here hes.1 hseen hdefs hs hs1 head
    have hmono := hdeclares.adds.mono
    obtain ⟨hdeclares', hnamed'⟩ := ih hes.2 (hmono title hseen)
      (fun e he text heq => hmono text (hdefs e he text heq)) hs1 hs'
    exact ⟨hdeclares.trans hdeclares', List.forall_mem_cons.mpr
      ⟨fun hno hyes text htext => hdeclares'.adds.mono text (hnamed hno hyes text htext), hnamed'⟩⟩

theorem exec_visitTypes (fit : Declarable scope r title last Own body) (here : ∀ name, Own name → name ∉ elsewhere)
    (hseen : has seen (.str title)) (hs : During scope last s) (hs' : During scope last s')
    (h : exec ((visitTypes (some scope) (visit r title elsewhere) r.schema).run seen) s =
      (.ok (ds, seen'), s')) : Declares scope Own body (start r title) seen seen' s s' ds ∧
      (∀ e ∈ r.schema.entriesOf "definitions", ∀ text, e.1 = .str text → has seen' (.str text)) ∧
      (∀ e ∈ r.schema.entriesOf "properties", e.2.has "$ref" = .ok false →
        e.2.has "properties" = .ok true → ∀ text, Naming.pascalOf (.scalar e.1) = .ok text →
        has seen' (.str text)) := by
  have hvisit := follows_visit fit elsewhere
  obtain ⟨definitions, properties, seen1, s1, rfl, hwalk, hwalk'⟩ := visitTypes_cases h
  have hs1 := hs.between hs' hwalk.changes hwalk'.changes
  obtain ⟨hdeclares, hnamed⟩ := declares_walkDefinitions fit here (fun _ he => he) hseen hs hs1 hwalk
  obtain ⟨hdeclares', hobjects⟩ := declares_walkProperties fit here (fun _ he => he)
    (hdeclares.adds.mono title hseen) hnamed hs1 hs' hwalk'
  exact ⟨hdeclares.trans hdeclares', fun e he text heq => hdeclares'.adds.mono text (hnamed e he text heq), hobjects⟩

/-! ## The file -/

/-- What a file declares, and where the names in its fields come from. -/
structure FileDeclares (scope : RefScope) (r : Request) (title : String) (Own : String → Prop)
    (body : Value → Prop) (t : Tables) (ds : List (Option Declaration)) : Prop where
  own : Own title → title ∈ declaredNames ds
  definitions : ∀ e ∈ r.schema.entriesOf "definitions", ∀ text, e.1 = .str text → Own text →
    text ∈ declaredNames ds
  objects : ∀ e ∈ r.schema.entriesOf "properties", e.2.has "$ref" = .ok false →
    e.2.has "properties" = .ok true → ∀ text, Naming.pascalOf (.scalar e.1) = .ok text → Own text →
    text ∈ declaredNames ds
  fields : ∀ st ∈ structs ds, ∀ x ∈ st.fields, x.type.base ∈ GoType.builtIns ∨
    GoType.FromRef scope t x.type.base ∨
    (∃ schema, body schema ∧
      ∃ e ∈ schema.entriesOf "properties", x.type.base ∈ GoType.objectNames e.2 e.1) ∨
    (Text.startsWith x.type.base (start r title) = true ∧
      (Own x.type.base → x.type.base ∈ declaredNames ds))

theorem Declares.file (h : Declares scope Own body (start r title) [.str title] seen' s s' ds)
    (own : Own title → title ∈ declaredNames ds)
    (hdefs : ∀ e ∈ r.schema.entriesOf "definitions", ∀ text, e.1 = .str text → has seen' (.str text))
    (hobjects : ∀ e ∈ r.schema.entriesOf "properties", e.2.has "$ref" = .ok false →
      e.2.has "properties" = .ok true → ∀ text, Naming.pascalOf (.scalar e.1) = .ok text →
      has seen' (.str text)) : FileDeclares scope r title Own body s'.tables ds := by
  have hdeclared : ∀ text, Own text → has seen' (.str text) → text ∈ declaredNames ds := by
    intro text hmine hseen
    rcases h.adds.declares text hmine hseen with hfirst | hnew
    · rw [has_str_iff, List.mem_singleton] at hfirst
      cases hfirst
      exact own hmine
    · exact hnew
  refine ⟨own, ?_, ?_, ?_⟩
  · exact fun e he text heq hmine => hdeclared text hmine (hdefs e he text heq)
  · exact fun e he hno hyes text htext hmine => hdeclared text hmine (hobjects e he hno hyes text htext)
  · intro st hst x hx
    exact (h.fields st hst x hx).imp id (Or.imp id (Or.imp id fun hknown =>
      ⟨hknown.2, fun hmine => hdeclared _ hmine hknown.1⟩))

theorem exec_declarations (fit : Declarable scope r title last Own body) (here : ∀ name, Own name → name ∉ elsewhere)
    (hs : During scope last s) (hs' : During scope last s')
    (h : exec ((declarations r title elsewhere).run [.str title]) s = (.ok (ds, seen'), s')) :
    FileDeclares scope r title Own body s'.tables ds := by
  obtain ⟨nested, seen1, s1, hnested, h1⟩ := run_bind_ok h
  obtain ⟨root, seen2, s2, hroot, h2⟩ := run_bind_ok h1
  cases h2
  change exec ((visitTypes r.scope (visit r title elsewhere) r.schema).run _) s = _ at hnested
  rw [fit.scope_eq] at hnested hroot
  have hvisit := follows_visit fit elsewhere
  have hs1 := during_of_runs hs hs' hnested hroot
  have hseen : has [.str title] (.str title) := has_str_iff.mpr (.head _)
  obtain ⟨hdeclares, hdefs, hobjects⟩ := exec_visitTypes fit here hseen hs hs1 hnested
  have hstart : ∀ text, r.schema.titleOrRoot = .ok text → startsWith text (start r title) := by
    intro text htext
    cases fit.title_eq.symm.trans htext
    exact startsWith_start fun _ => startsWith_self _
  obtain ⟨hbody, hself⟩ := fit.self
  obtain ⟨hdeclares', hown⟩ := exec_declaration (fit.claimable hs1) hbody (fit.orderly _ hbody) (.inl rfl) hstart hroot
  by_cases hmem : title ∈ elsewhere
  · rw [if_pos (by simpa using hmem), List.append_nil]
    exact (hdeclares.before hdeclares'.changes).file (fun hmine => absurd hmem (here title hmine)) hdefs hobjects
  rw [if_neg (by simpa using hmem)]
  have hmono := hdeclares'.adds.mono
  refine (hdeclares.trans hdeclares').file (fun hmine => ?_) (fun e he text heq => hmono text (hdefs e he text heq))
    (fun e he hno hyes text htext => hmono text (hobjects e he hno hyes text htext))
  obtain ⟨htitle, hinner⟩ := hself hmine
  rw [declaredNames_append]
  exact List.mem_append_right _ (hown title htitle hmine hinner)

theorem exec_fileOf {package : String} {out : SourceFile}
    (fit : Declarable scope r title last Own body) (hs : During scope last s)
    (hs' : During scope last s') (h : exec (fileOf package r) s = (.ok out, s')) :
    FileDeclares scope r title Own body s'.tables out.declarations := by
  obtain ⟨_, htitle, h1⟩ := exec_ask_ok h
  obtain rfl := Except.ok.inj (fit.title_eq.symm.trans htitle)
  obtain ⟨⟨elsewhere, imports⟩, s1, hanalyse, h2⟩ := exec_bind_ok h1
  obtain ⟨⟨ds, seen1⟩, s2, hds, h3⟩ := exec_bind_ok h2
  cases h3
  have hfollows : Follows r.scope KindFault (analyse r title) := inferInstance
  have hfollows' : FollowsSeen r.scope KindFault (declarations r title elsewhere) := inferInstance
  rw [fit.scope_eq] at hfollows hfollows'
  have hs1 := hs.between hs' (hfollows.changes hanalyse) ((hfollows'.run _).changes hds)
  refine exec_declarations fit (fun name hmine hmem => ?_) hs1 hs' hds
  rcases exec_analyse fit.scope_eq hanalyse name hmem with htaken | himported
  · exact (fit.claimable hs name hmine).free.1 htaken
  · exact fit.imported hs name hmine himported

end Declarable

end Go

end Typewright
