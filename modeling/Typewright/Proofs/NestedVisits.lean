import Typewright.Nested
import Typewright.Proofs.Resolving
import Typewright.Proofs.SeenRun

/-!
# Visits to the types inside a schema

The definitions of a schema are gone over one after the other, and then its properties.
-/

namespace Typewright.Nested

open RefM Value

variable {α : Type} {scope : Option RefScope} {visit : Value → Scalar → SeenM (Option α)} {name : Scalar}
  {schema : Value} {out : Option α} {seen seen' : List Scalar} {s s' : RefState} {nested target : Value}
  {known : Option String}

theorem keep_eq (x : Option α) (xs : List α) : keep x xs = x.toList ++ xs := by
  cases x <;> rfl

/-! ## Definitions -/

theorem exec_standsForFile {stands : Bool} (h : exec (standsForFile scope name) s = (.ok stands, s')) :
    s' = s ∧ (stands → ∃ text, name = .str text ∧ s.tables.definitions.has text) := by
  unfold standsForFile at h
  split at h
  · next scope text =>
    cases h
    exact ⟨rfl, fun hstands => ⟨text, rfl, hstands⟩⟩
  · cases h
    exact ⟨rfl, fun hstands => absurd hstands Bool.false_ne_true⟩

/-- What a visit to a definition comes to. It is passed over if it was seen or stands for a file. Otherwise
what it leads to is visited with the key as title. -/
inductive VisitsDefinition (scope : Option RefScope) (visit : Value → Scalar → SeenM (Option α))
    (name : Scalar) (schema : Value) (seen : List Scalar) (s : RefState) :
    Option α → List Scalar → RefState → Prop
  | seen (known : Seen.has seen name = true) : VisitsDefinition scope visit name schema seen s none seen s
  | elsewhere (fresh : Seen.has seen name = false) (isRef : schema.has "$ref" = .ok true)
      (stands : exec (standsForFile scope name) s = (.ok true, s)) :
      VisitsDefinition scope visit name schema seen s none (Seen.add seen name) s
  | visited {target : Value} {body : Within target} {s1 s' : RefState} {out : Option α}
      {seen' : List Scalar} (fresh : Seen.has seen name = false)
      (titled : target.withTitle name = .ok body)
      (reached : schema.has "$ref" = .ok false ∧ target = schema ∧ s1 = s ∨
        schema.has "$ref" = .ok true ∧ exec (definitionTarget scope schema) s = (.ok target, s1))
      (run : exec ((visit body.val name).run (Seen.add seen name)) s1 = (.ok (out, seen'), s')) :
      VisitsDefinition scope visit name schema seen s out seen' s'

theorem visitDefinition_cases
    (h : exec ((visitDefinition scope visit name schema).run seen) s = (.ok (out, seen'), s')) :
    VisitsDefinition scope visit name schema seen s out seen' s' := by
  obtain ⟨isSeen, seen1, s1, hseen, h1⟩ := run_bind_ok h
  cases hseen
  cases hname : Seen.has seen name with
  | true =>
    rw [hname] at h1
    cases h1
    exact .seen hname
  | false =>
    rw [hname] at h1
    obtain ⟨_, seen2, s2, hmark, h2⟩ := run_bind_ok h1
    cases hmark
    obtain ⟨hasRef, hhas, h3⟩ := run_ask_ok h2
    cases hasRef with
    | false =>
      obtain ⟨body, hbody, hvisit⟩ := run_ask_ok h3
      exact .visited hname hbody (.inl ⟨hhas, rfl, rfl⟩) hvisit
    | true =>
      obtain ⟨stands, s3, hstands, h4⟩ := run_lift_ok h3
      obtain ⟨rfl, _⟩ := exec_standsForFile hstands
      cases stands with
      | true =>
        cases h4
        exact .elsewhere hname hhas hstands
      | false =>
        obtain ⟨target, s4, htarget, h5⟩ := run_lift_ok h4
        obtain ⟨body, hbody, hvisit⟩ := run_ask_ok h5
        exact .visited hname hbody (.inr ⟨hhas, htarget⟩) hvisit

/-! ## Properties -/

theorem propertyTarget_eq_ok (h : exec (propertyTarget scope schema) s = (.ok (target, known), s'))
    (plain : scope = none ∨ schema.has "$ref" = .ok false) : target = schema ∧ known = none ∧ s' = s := by
  obtain ⟨hasRef, hhas, h1⟩ := exec_ask_ok h
  cases hasRef with
  | false =>
    cases h1
    exact ⟨rfl, rfl, rfl⟩
  | true =>
    rcases plain with rfl | hno
    · cases h1
      exact ⟨rfl, rfl, rfl⟩
    · cases hhas.symm.trans hno

/-- The schema that stands behind a property, and the reference that leads to it. A property whose reference
leads nowhere, or is not followed, stands for itself. -/
inductive Behind (scope : Option RefScope) (s : RefState) (property : Value) :
    Value → Option String → RefState → Prop
  | own {s' : RefState} (stuck : ∀ given ref, scope = some given → property.field "$ref" = .ok ref →
      ∃ e, (exec (given.resolve ref) s).1 = .error e) : Behind scope s property property none s'
  | reference {given : RefScope} {ref : String} {target : Value} {s' : RefState} (here : scope = some given)
      (refers : property.field "$ref" = .ok (.str ref))
      (resolved : exec (given.resolve (.str ref)) s = (.ok target, s')) :
      Behind scope s property target (some ref) s'

theorem Behind.unique {target' : Value} {ref ref' : Option String} {s1 : RefState}
    (h : Behind scope s schema target ref s') (h' : Behind scope s schema target' ref' s1) :
    target' = target ∧ ref' = ref := by
  cases h with
  | own stuck =>
    cases h' with
    | own => exact ⟨rfl, rfl⟩
    | reference here refers resolved =>
      obtain ⟨e, he⟩ := stuck _ _ here refers
      cases he.symm.trans (congrArg Prod.fst resolved)
  | reference here refers resolved =>
    cases h' with
    | own stuck =>
      obtain ⟨e, he⟩ := stuck _ _ here refers
      cases he.symm.trans (congrArg Prod.fst resolved)
    | reference here' refers' resolved' =>
      cases here.symm.trans here'
      cases refers.symm.trans refers'
      cases resolved.symm.trans resolved'
      exact ⟨rfl, rfl⟩

theorem propertyTarget_cases (h : exec (propertyTarget scope schema) s = (.ok (target, known), s')) :
    ∃ ref, Behind scope s schema target ref s' ∧ known = ref.map refName := by
  obtain ⟨hasRef, hhas, h1⟩ := exec_ask_ok h
  cases hasRef with
  | false =>
    cases h1
    exact ⟨none, .own fun given ref _ href => (nomatch hhas.symm.trans (has_of_field href)), rfl⟩
  | true =>
    cases scope with
    | none =>
      cases h1
      exact ⟨none, .own nofun, rfl⟩
    | some given =>
      obtain ⟨outcome, s1, hattempt, h2⟩ := exec_bind_ok h1
      cases hattempt
      split at h2
      · next found =>
        cases h2
        obtain ⟨ref, href, h3⟩ := exec_ask_ok (Prod.ext found rfl)
        obtain ⟨v, s2, hresolve, h4⟩ := exec_bind_ok h3
        obtain ⟨text, htext, h5⟩ := exec_ask_ok h4
        cases h5
        rw [Reference.textOf_eq_ok htext] at href hresolve
        exact ⟨some text, .reference rfl href hresolve, rfl⟩
      · next failed =>
        cases h2
        refine ⟨none, .own fun given' ref hgiven href => ?_, rfl⟩
        cases hgiven
        rcases hresolve : exec (given.resolve ref) s with ⟨e | v, s2⟩
        · exact ⟨e, rfl⟩
        obtain ⟨text, htext, -⟩ := exec_ask_ok hresolve
        have hok : exec (do
            let ref ← schema.field "$ref"
            return (← given.resolve ref, refName (← Reference.textOf ref))) s = (.ok (v, refName text), s2) := by
          simp only [exec_bind, exec_lift, href, hresolve, htext, exec_pure]
        cases failed.symm.trans (congrArg Prod.fst hok)

/-- The name that the type of a property is visited under: the one that its reference gives, if it gives
one, or else the name of the property in Pascal case. -/
def visitName (known : Option String) (name : Scalar) : Except Fault String :=
  match known with
  | some known => if known.isEmpty then Naming.pascalOf (.scalar name) else .ok known
  | none => Naming.pascalOf (.scalar name)

def visitObject (visit : Value → Scalar → SeenM (Option α)) (target : Value) (typeName : String) :
    SeenM (Option α) := do
  if ← SeenM.isSeen (.str typeName) then return none
  let nested ← entitled target (.str typeName)
  SeenM.mark (.str typeName)
  visit nested (.str typeName)

theorem field_of_entitled (h : entitled target name = .ok nested) :
    nested.field "title" = .ok (.scalar name) ∧ target.has "title" = .ok false ∨
      nested = target ∧ target.has "title" = .ok true := by
  obtain ⟨hasTitle, hhas, h1⟩ := bind_ok h
  cases hasTitle with
  | true =>
    cases h1
    exact .inr ⟨rfl, hhas⟩
  | false =>
    obtain ⟨titled, htitled, hend⟩ := bind_ok h1
    cases hend
    exact .inl ⟨field_withTitle htitled, hhas⟩

theorem retitled_of_entitled (h : entitled schema name = .ok nested) : Value.Retitled schema nested := by
  obtain ⟨hasTitle, _, hrest⟩ := bind_ok h
  split at hrest
  · cases hrest
    exact .inl rfl
  · obtain ⟨titled, ht, hend⟩ := bind_ok hrest
    cases hend
    exact retitled_withTitle ht

/-- What a visit to a property comes to, once it is known what it leads to. It is passed over if that has no
properties or was seen. Otherwise that is visited, with the name of the type as title if it has none. -/
inductive VisitsObject (visit : Value → Scalar → SeenM (Option α)) (target : Value) (known : Option String)
    (name : Scalar) (seen : List Scalar) (s : RefState) : Option α → List Scalar → RefState → Prop
  | plain (isMap : target.isMap = true) (plain : target.isMapWith "properties" = false) :
      VisitsObject visit target known name seen s none seen s
  | seen {typeName : String} (called : known = some typeName ∨ visitName known name = .ok typeName)
      (hseen : Seen.has seen (.str typeName) = true) : VisitsObject visit target known name seen s none seen s
  | visited {typeName : String} {nested : Value} {out : Option α} {seen' : List Scalar} {s' : RefState}
      (called : visitName known name = .ok typeName) (object : target.isMapWith "properties" = true)
      (fresh : Seen.has seen (.str typeName) = false)
      (titled : entitled target (.str typeName) = .ok nested)
      (run : exec ((visit nested (.str typeName)).run (Seen.add seen (.str typeName))) s =
        (.ok (out, seen'), s')) :
      VisitsObject visit target known name seen s out seen' s'

theorem visitObject_cases {typeName : String}
    (called : visitName known name = .ok typeName) (object : target.isMapWith "properties")
    (h : exec ((visitObject visit target typeName).run seen) s = (.ok (out, seen'), s')) :
    VisitsObject visit target known name seen s out seen' s' := by
  obtain ⟨isSeen, seen1, s1, hseen, h1⟩ := run_bind_ok h
  cases hseen
  cases hname : Seen.has seen (.str typeName) with
  | true =>
    rw [hname] at h1
    cases h1
    exact .seen (.inr called) hname
  | false =>
    rw [hname] at h1
    obtain ⟨nested, hnested, h2⟩ := run_ask_ok h1
    obtain ⟨_, seen2, s2, hmark, h3⟩ := run_bind_ok h2
    cases hmark
    exact .visited called object hname hnested h3

theorem visitProperty_cases (h : exec ((visitProperty scope visit name schema).run seen) s = (.ok (out, seen'), s')) :
    ∃ target known s1, exec (propertyTarget scope schema) s = (.ok (target, known), s1) ∧
      VisitsObject visit target known name seen s1 out seen' s' := by
  obtain ⟨⟨target, known⟩, s1, htarget, h1⟩ := run_lift_ok h
  refine ⟨target, known, s1, htarget, ?_⟩
  have hobject : ∀ {type : Option Value} {hasProperties : Bool} {work : SeenM (Option α)},
      target.field? "type" = .ok type → target.has "properties" = .ok hasProperties →
      exec ((if (!hasProperties) = true then pure none else work).run seen) s1 = (.ok (out, seen'), s') →
      (target.isMapWith "properties" → exec (work.run seen) s1 = (.ok (out, seen'), s') →
        VisitsObject visit target known name seen s1 out seen' s') →
      VisitsObject visit target known name seen s1 out seen' s' := by
    intro type hasProperties work htype hhas hrun hwork
    have hmap := isMap_of_field? htype
    rw [has_eq_isMapWith "properties" hmap] at hhas
    cases hhas
    cases hprops : target.isMapWith "properties" with
    | false =>
      rw [hprops] at hrun
      cases hrun
      exact .plain hmap hprops
    | true =>
      rw [hprops] at hrun
      exact hwork hprops hrun
  cases known with
  | none =>
    obtain ⟨type, htype, h2⟩ := run_discard_ask_ok h1
    obtain ⟨hasProperties, hhas, h3⟩ := run_ask_ok h2
    refine hobject htype hhas h3 fun hprops hrun => ?_
    obtain ⟨typeName, htypeName, h4⟩ := run_ask_ok hrun
    exact visitObject_cases htypeName hprops h4
  | some known =>
    obtain ⟨isSeen, seen2, s2, hseen, h2⟩ := run_bind_ok h1
    cases hseen
    cases hknown : Seen.has seen (.str known) with
    | true =>
      rw [hknown] at h2
      cases h2
      exact .seen (.inl rfl) hknown
    | false =>
      rw [hknown] at h2
      obtain ⟨type, htype, h3⟩ := run_discard_ask_ok h2
      obtain ⟨hasProperties, hhas, h4⟩ := run_ask_ok h3
      refine hobject htype hhas h4 fun hprops hrun => ?_
      change exec ((if known.isEmpty then
          (do visitObject visit target (← Naming.pascalOf (.scalar name)))
        else visitObject visit target known).run seen) s1 = _ at hrun
      split at hrun
      · next hempty =>
        obtain ⟨typeName, htypeName, h5⟩ := run_ask_ok hrun
        exact visitObject_cases ((if_pos hempty).trans htypeName) hprops h5
      · next hname => exact visitObject_cases (if_neg hname) hprops hrun

/-! ## Walks -/

section Walks

variable {step : Scalar → Value → SeenM (Option α)} {entries : Entries} {found : List α}

def visitEach (step : Scalar → Value → SeenM (Option α)) : Entries → SeenM (List α)
  | [] => return []
  | (name, schema) :: rest => do
    let first ← step name schema
    return keep first (← visitEach step rest)

theorem visitDefinitions_eq (scope : Option RefScope) (visit : Value → Scalar → SeenM (Option α)) :
    visitDefinitions scope visit = visitEach (visitDefinition scope visit) := by
  funext entries
  induction entries with
  | nil => rfl
  | cons e rest ih => rw [visitDefinitions, visitEach, ih]

theorem visitProperties_eq (scope : Option RefScope) (visit : Value → Scalar → SeenM (Option α)) :
    visitProperties scope visit = visitEach (visitProperty scope visit) := by
  funext entries
  induction entries with
  | nil => rfl
  | cons e rest ih => rw [visitProperties, visitEach, ih]

/-- What a walk over entries comes to: the results of its steps, each of which starts where the one before it
ended. -/
inductive Walk (step : Scalar → Value → SeenM (Option α)) :
    Entries → List Scalar → RefState → List α → List Scalar → RefState → Prop
  | nil (seen : List Scalar) (s : RefState) : Walk step [] seen s [] seen s
  | cons {e : Scalar × Value} {rest : Entries} {seen seen1 seen' : List Scalar} {s s1 s' : RefState}
      {first : Option α} {others : List α}
      (head : exec ((step e.1 e.2).run seen) s = (.ok (first, seen1), s1))
      (tail : Walk step rest seen1 s1 others seen' s') :
      Walk step (e :: rest) seen s (first.toList ++ others) seen' s'

theorem walk_of_visitEach (h : exec ((visitEach step entries).run seen) s = (.ok (found, seen'), s')) :
    Walk step entries seen s found seen' s' := by
  induction entries generalizing seen s found with
  | nil =>
    cases h
    exact .nil _ _
  | cons e rest ih =>
    obtain ⟨first, seen1, s1, hfirst, h1⟩ := run_bind_ok h
    obtain ⟨others, seen2, s2, hothers, h2⟩ := run_bind_ok h1
    cases h2
    rw [keep_eq]
    exact .cons hfirst (ih hothers)

theorem Walk.exists_step (h : Walk step entries seen s found seen' s') {x : α} (hx : x ∈ found) :
    ∃ e ∈ entries, ∃ seen1 s1 seen2 s2, exec ((step e.1 e.2).run seen1) s1 = (.ok (some x, seen2), s2) := by
  induction h with
  | nil => cases hx
  | @cons e rest _ _ _ _ _ _ first others head tail ih =>
    rcases List.mem_append.mp hx with hx | hx
    · cases Option.mem_toList.mp hx
      exact ⟨e, .head _, _, _, _, _, head⟩
    · obtain ⟨e', he', hstep⟩ := ih hx
      exact ⟨e', .tail _ he', hstep⟩

theorem run_inTurn_eq_ok {f g : Entries → SeenM (List α)} (hnil : f [] = pure [])
    (h : exec ((do
      let definitions ←
        if ← schema.has "definitions" then f (← (← schema.field "definitions").entries)
        else pure []
      return definitions ++ (← g (← schema.entriesAt "properties")) :
        SeenM (List α)).run seen) s = (.ok (found, seen'), s')) :
    ∃ definitions properties seen1 s1, found = definitions ++ properties ∧
      exec ((f (schema.entriesOf "definitions")).run seen) s = (.ok (definitions, seen1), s1) ∧
      exec ((g (schema.entriesOf "properties")).run seen1) s1 = (.ok (properties, seen'), s') := by
  have hrest : ∀ {definitions seen1 s1},
      exec ((do return definitions ++ (← g (← schema.entriesAt "properties")) :
        SeenM (List α)).run seen1) s1 = (.ok (found, seen'), s') →
      ∃ properties, found = definitions ++ properties ∧
        exec ((g (schema.entriesOf "properties")).run seen1) s1 =
          (.ok (properties, seen'), s') := by
    intro definitions seen1 s1 hrun
    obtain ⟨entries, hentries, h1⟩ := run_ask_ok hrun
    obtain ⟨properties, seen2, s2, hprops, h2⟩ := run_bind_ok h1
    cases h2
    rw [entriesOf_eq hentries]
    exact ⟨properties, rfl, hprops⟩
  obtain ⟨hasDefinitions, hhas, h1⟩ := run_ask_ok h
  cases hasDefinitions with
  | false =>
    obtain ⟨properties, hout, hprops⟩ := hrest h1
    refine ⟨[], properties, seen, s, hout, ?_, hprops⟩
    rw [entriesOf_of_has hhas, hnil]
    rfl
  | true =>
    obtain ⟨group, hgroup, h2⟩ := run_ask_ok h1
    obtain ⟨entries, hentries, h3⟩ := run_ask_ok h2
    obtain ⟨definitions, seen1, s1, hdefs, h4⟩ := run_bind_ok h3
    obtain ⟨properties, hout, hprops⟩ := hrest h4
    rw [entriesOf_eq ((entriesAt_of_field hgroup).trans hentries)]
    exact ⟨definitions, properties, seen1, s1, hout, hdefs, hprops⟩

theorem visitTypes_cases (h : exec ((visitTypes scope visit schema).run seen) s = (.ok (found, seen'), s')) :
    ∃ definitions properties seen1 s1, found = definitions ++ properties ∧
      Walk (visitDefinition scope visit) (schema.entriesOf "definitions") seen s definitions seen1 s1 ∧
      Walk (visitProperty scope visit) (schema.entriesOf "properties") seen1 s1 properties seen' s' := by
  obtain ⟨definitions, properties, seen1, s1, hfound, hdefs, hprops⟩ := run_inTurn_eq_ok
    (f := visitDefinitions scope visit) (g := visitProperties scope visit) rfl h
  rw [visitDefinitions_eq] at hdefs
  rw [visitProperties_eq] at hprops
  exact ⟨definitions, properties, seen1, s1, hfound, walk_of_visitEach hdefs, walk_of_visitEach hprops⟩

end Walks

end Typewright.Nested
