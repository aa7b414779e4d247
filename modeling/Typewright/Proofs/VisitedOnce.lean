import Typewright.Proofs.NestedVisits
import Typewright.Proofs.ResolvingAgain

/-!
# Each type is visited once

The types inside a schema are visited by a callback, which may itself note that types were seen.
-/

namespace Typewright.Nested

open RefM

variable {α : Type} {scope : Option RefScope} {visit : Value → Scalar → SeenM (Option α)} {name : Scalar}
  {schema body target target' : Value} {seen seen1 seen' : List Scalar} {s s' : RefState} {entries : Entries}
  {ref ref' known : Option String} {e : Scalar × Value}

/-! ## Calls -/

/-- A call of the callback: the name of the type, and what was returned. -/
structure Call (α : Type) where
  name : Scalar
  result : Option α

/-- A callback that writes its calls down. -/
def traced (visit : Value → Scalar → SeenM (Option α)) (body : Value) (name : Scalar) :
    SeenM (Option (Call α)) := do
  return some ⟨name, ← visit body name⟩

theorem traced_result : (·.bind Call.result) <$> traced visit body name = visit body name := by
  simp [traced]

theorem visitDefinition_traced : (·.bind Call.result) <$> visitDefinition scope (traced visit) name schema =
    visitDefinition scope visit name schema := by
  simp only [visitDefinition, map_bind, apply_ite, map_pure, traced_result, Option.bind_none]

theorem visitProperty_traced : (·.bind Call.result) <$> visitProperty scope (traced visit) name schema =
    visitProperty scope visit name schema := by
  unfold visitProperty
  rw [map_bind]
  refine bind_congr fun x => ?_
  rcases x with ⟨target, _ | known⟩
  all_goals simp only [map_bind, apply_ite (Functor.map _), map_pure, traced_result, Option.bind_none]

theorem visitEach_traced {step : Scalar → Value → SeenM (Option (Call α))} {step' : Scalar → Value → SeenM (Option α)}
    (h : ∀ name schema, (·.bind Call.result) <$> step name schema = step' name schema) :
    List.filterMap Call.result <$> visitEach step entries = visitEach step' entries := by
  induction entries with
  | nil => simp [visitEach]
  | cons e rest ih =>
    have hkeep : ∀ (first : Option (Call α)) others, (keep first others).filterMap Call.result =
        keep (first.bind Call.result) (others.filterMap Call.result) := by
      rintro (_ | ⟨_, _ | _⟩) others <;> rfl
    simp only [visitEach, map_bind, map_pure, ← h, ← ih, bind_map_left, hkeep]

theorem visitTypes_traced : List.filterMap Call.result <$> visitTypes scope (traced visit) schema =
    visitTypes scope visit schema := by
  have hdefs : ∀ entries, List.filterMap Call.result <$> visitDefinitions scope (traced visit) entries =
      visitDefinitions scope visit entries := fun entries => by
    rw [visitDefinitions_eq, visitDefinitions_eq, visitEach_traced fun _ _ => visitDefinition_traced]
  have hprops : ∀ entries, List.filterMap Call.result <$> visitProperties scope (traced visit) entries =
      visitProperties scope visit entries := fun entries => by
    rw [visitProperties_eq, visitProperties_eq, visitEach_traced fun _ _ => visitProperty_traced]
  unfold visitTypes
  rw [map_bind]
  refine bind_congr fun hasDefinitions => ?_
  cases hasDefinitions <;> simp [← hprops, ← hdefs]

/-! ## Logs -/

/-- What calls do to the names that were seen: each is for a name of its own that was not seen before, and is
seen afterwards. -/
structure Logs (seen : List Scalar) (calls : List (Call α)) (seen' : List Scalar) : Prop where
  grows : ∀ x, Seen.has seen x = true → Seen.has seen' x = true
  fresh : ∀ c ∈ calls, Seen.has seen c.name = false
  there : ∀ c ∈ calls, Seen.has seen' c.name = true
  apart : (calls.map Call.name).Nodup

theorem Logs.none (h : ∀ x, Seen.has seen x → Seen.has seen' x) : Logs seen ([] : List (Call α)) seen' :=
  ⟨h, nofun, nofun, .nil⟩

theorem Logs.append {calls calls' : List (Call α)} (h : Logs seen calls seen1) (h' : Logs seen1 calls' seen') :
    Logs seen (calls ++ calls') seen' where
  grows x hx := h'.grows x (h.grows x hx)
  fresh := List.forall_mem_append.mpr ⟨h.fresh, fun c hc => Bool.eq_false_iff.mpr fun hseen =>
    Bool.eq_false_iff.mp (h'.fresh c hc) (h.grows c.name hseen)⟩
  there := List.forall_mem_append.mpr ⟨fun c hc => h'.grows c.name (h.there c hc), h'.there⟩
  apart := by
    rw [List.map_append]
    refine List.nodup_append.mpr ⟨h.apart, h'.apart, ?_⟩
    intro x hx y hy heq
    obtain ⟨c, hc, rfl⟩ := List.mem_map.mp hx
    obtain ⟨d, hd, rfl⟩ := List.mem_map.mp hy
    cases (heq ▸ h.there c hc).symm.trans (h'.fresh d hd)

theorem logs_of_traced [keeps : ∀ body name, KeepsSeen (visit body name)] {out : Option (Call α)}
    (fresh : Seen.has seen name = false)
    (run : exec ((traced visit body name).run (Seen.add seen name)) s = (.ok (out, seen'), s')) :
    (∃ result, out = some ⟨name, result⟩) ∧ Logs seen out.toList seen' := by
  obtain ⟨result, seen1, s1, hresult, h1⟩ := run_bind_ok run
  cases h1
  have hgrows := (keeps body name).keeps hresult
  refine ⟨⟨result, rfl⟩, fun x hx => hgrows x (Seen.has_add_of_has hx), ?_, ?_, by simp⟩
  · exact List.forall_mem_singleton.mpr fresh
  · exact List.forall_mem_singleton.mpr (hgrows name (Seen.has_add_self seen name))

theorem logs_of_definition [∀ body name, KeepsSeen (visit body name)] {out : Option (Call α)}
    (h : exec ((visitDefinition scope (traced visit) e.1 e.2).run seen) s = (.ok (out, seen'), s')) :
    Logs seen out.toList seen' ∧ Seen.has seen' e.1 ∧ ∀ c ∈ out, c.name = e.1 := by
  cases visitDefinition_cases h with
  | seen known => exact ⟨.none fun _ hx => hx, known, nofun⟩
  | elsewhere fresh => exact ⟨.none fun _ => Seen.has_add_of_has, Seen.has_add_self _ _, nofun⟩
  | visited fresh titled reached run =>
    obtain ⟨⟨result, rfl⟩, hlogs⟩ := logs_of_traced fresh run
    exact ⟨hlogs, hlogs.there _ (List.mem_singleton_self _), fun c hc => Option.some.inj hc ▸ rfl⟩

/-- A property stands for an object with properties, and this is the name of its type: that of the definition
or of the file, in Pascal case, that its reference leads to, or else, also where that is empty, its own name
in Pascal case. -/
def Shows (scope : Option RefScope) (s : RefState) (property : Scalar × Value) (ref : Option String)
    (typeName : String) : Prop :=
  ∃ target s', Behind scope s property.2 target ref s' ∧ target.isMapWith "properties" = true ∧
    visitName (ref.map refName) property.1 = .ok typeName

theorem logs_of_property [∀ body name, KeepsSeen (visit body name)] {out : Option (Call α)}
    (h : exec ((visitProperty scope (traced visit) e.1 e.2).run seen) s = (.ok (out, seen'), s')) :
    Logs seen out.toList seen' ∧ (∀ ref typeName, Shows scope s e ref typeName →
        Seen.has seen' (.str typeName) ∨ ref.map refName = some "" ∧ Seen.has seen' (.str "")) ∧
      ∀ c ∈ out, ∃ ref typeName, Shows scope s e ref typeName ∧ c.name = .str typeName := by
  obtain ⟨target, known, s1, htarget, hobject⟩ := visitProperty_cases h
  obtain ⟨ref, hbehind, rfl⟩ := propertyTarget_cases htarget
  cases hobject with
  | plain isMap plain =>
    refine ⟨.none fun _ hx => hx, ?_, nofun⟩
    rintro ref typeName ⟨target, s', hbehind', object, -⟩
    obtain ⟨rfl, -⟩ := hbehind.unique hbehind'
    cases plain.symm.trans object
  | @seen typeName called hseen =>
    refine ⟨.none fun _ hx => hx, ?_, nofun⟩
    rintro ref typeName' ⟨target, s', hbehind', -, hname⟩
    obtain ⟨-, rfl⟩ := hbehind.unique hbehind'
    rcases called with called | called
    · rw [called, visitName] at hname
      split at hname
      · next hempty =>
        obtain rfl : typeName = "" := by simpa using hempty
        exact .inr ⟨called, hseen⟩
      · cases hname
        exact .inl hseen
    · cases called.symm.trans hname
      exact .inl hseen
  | @visited typeName nested out seen' s' called object fresh titled run =>
    obtain ⟨⟨result, rfl⟩, hlogs⟩ := logs_of_traced fresh run
    refine ⟨hlogs, ?_, fun c hc => ⟨ref, typeName, ⟨target, s1, hbehind, object, called⟩, ?_⟩⟩
    · rintro ref typeName' ⟨target, s', hbehind', -, hname⟩
      obtain ⟨-, rfl⟩ := hbehind.unique hbehind'
      cases called.symm.trans hname
      exact .inl (hlogs.there _ (List.mem_singleton_self _))
    · cases hc
      rfl

/-! ## Walks -/

section Walks

variable {step : Scalar → Value → SeenM (Option (Call α))} {calls : List (Call α)}

theorem logs_of_walk (hstep : ∀ {e : Scalar × Value} {seen s out seen' s'},
      exec ((step e.1 e.2).run seen) s = (.ok (out, seen'), s') → Logs seen out.toList seen')
    (h : Walk step entries seen s calls seen' s') : Logs seen calls seen' := by
  induction h with
  | nil => exact .none fun _ hx => hx
  | cons head tail ih => exact (hstep head).append ih

theorem Walk.inOrder {R : Scalar × Value → Call α → Prop}
    (hstep : ∀ {e seen s out seen' s'}, exec ((step e.1 e.2).run seen) s = (.ok (out, seen'), s') → ∀ c ∈ out, R e c)
    (h : Walk step entries seen s calls seen' s') :
    ∃ visited, visited.Sublist entries ∧ List.Forall₂ R visited calls := by
  induction h with
  | nil => exact ⟨[], .slnil, .nil⟩
  | @cons e rest _ _ _ _ _ _ first others head tail ih =>
    obtain ⟨visited, hsublist, hcalls⟩ := ih
    cases first with
    | none => exact ⟨visited, hsublist.cons e, hcalls⟩
    | some c => exact ⟨e :: visited, hsublist.cons_cons e, .cons (hstep head c rfl) hcalls⟩

theorem Walk.split {before after : Entries} (h : Walk step (before ++ e :: after) seen s calls seen' s') :
    ∃ calls1 seen1 s1 out seen2 s2 calls2, Walk step before seen s calls1 seen1 s1 ∧
      exec ((step e.1 e.2).run seen1) s1 = (.ok (out, seen2), s2) ∧ Walk step after seen2 s2 calls2 seen' s' := by
  induction before generalizing seen s calls with
  | nil =>
    cases h with
    | cons head tail => exact ⟨_, _, _, _, _, _, _, .nil seen s, head, tail⟩
  | cons d before ih =>
    cases h with
    | cons head tail =>
      obtain ⟨_, _, _, _, _, _, _, hbefore, hstep, hafter⟩ := ih tail
      exact ⟨_, _, _, _, _, _, _, .cons head hbefore, hstep, hafter⟩

end Walks

/-- The types inside a schema are visited once each, first the definitions and then the properties, in order, and none
is missed. A property is passed over whose reference gives it the empty name, if that was seen. -/
theorem visitTypes_calls {out : List α} [∀ body name, KeepsSeen (visit body name)]
    (h : exec ((visitTypes scope visit schema).run seen) s = (.ok (out, seen'), s')) :
    ∃ definitions properties seen1 s1,
      exec ((visitTypes scope (traced visit) schema).run seen) s = (.ok (definitions ++ properties, seen'), s') ∧
      out = (definitions ++ properties).filterMap Call.result ∧ ((definitions ++ properties).map Call.name).Nodup ∧
      (∀ c ∈ definitions ++ properties, Seen.has seen c.name = false) ∧
      (∃ visited, visited.Sublist (schema.entriesOf "definitions") ∧
        List.Forall₂ (fun e c => c.name = e.1) visited definitions) ∧
      (∃ visited, visited.Sublist (schema.entriesOf "properties") ∧
        List.Forall₂ (fun e c => ∃ s ref typeName, Shows scope s e ref typeName ∧ c.name = .str typeName)
          visited properties) ∧ (∀ x, Seen.has seen x = true → Seen.has seen' x = true) ∧
      (∀ e ∈ schema.entriesOf "definitions", Seen.has seen' e.1 = true) ∧
      Walk (visitDefinition scope (traced visit)) (schema.entriesOf "definitions") seen s definitions seen1 s1 ∧
      ∀ before e after, schema.entriesOf "properties" = before ++ e :: after →
        ∃ calls seen2 s2, Walk (visitProperty scope (traced visit)) before seen1 s1 calls seen2 s2 ∧
          ∀ ref typeName, Shows scope s2 e ref typeName → Seen.has seen' (.str typeName) = true ∨
            ref.map refName = some "" ∧ Seen.has seen' (.str "") = true := by
  rw [← visitTypes_traced, ← bind_pure_comp] at h
  obtain ⟨calls, seen2, s2, hcalls, hend⟩ := run_bind_ok h
  cases hend
  obtain ⟨definitions, properties, seen1, s1, rfl, hdefinitions, hproperties⟩ := visitTypes_cases hcalls
  have hlogs := logs_of_walk (fun h => (logs_of_definition h).1) hdefinitions
  have hlogs' := logs_of_walk (fun h => (logs_of_property h).1) hproperties
  have hall := hlogs.append hlogs'
  refine ⟨definitions, properties, seen1, s1, hcalls, rfl, hall.apart, hall.fresh,
    hdefinitions.inOrder fun h => (logs_of_definition h).2.2,
    hproperties.inOrder fun h c hc => ⟨_, (logs_of_property h).2.2 c hc⟩, hall.grows, fun e he => ?_, hdefinitions,
    fun before e after hsplit => ?_⟩
  · obtain ⟨before, after, hsplit⟩ := List.append_of_mem he
    rw [hsplit] at hdefinitions
    obtain ⟨_, _, _, _, _, _, _, _, hstep, hafter⟩ := hdefinitions.split
    have hmarked := (logs_of_definition hstep).2.1
    exact hlogs'.grows _ ((logs_of_walk (fun h => (logs_of_definition h).1) hafter).grows _ hmarked)
  · rw [hsplit] at hproperties
    obtain ⟨calls, seen2, s2, _, _, _, _, hbefore, hstep, hafter⟩ := hproperties.split
    have hgrows := (logs_of_walk (fun h => (logs_of_property h).1) hafter).grows
    refine ⟨calls, seen2, s2, hbefore, fun ref typeName hshows => ?_⟩
    exact ((logs_of_property hstep).2.1 ref typeName hshows).imp (hgrows _) (And.imp_right (hgrows _))

/-- One definition, a property that refers to it and another one that is an object. -/
def garden (definition : String) : RefScope :=
  let object := .map [("properties", .map [("x", .map [("type", "string")])])]
  { files := Reference.textFiles []
    base := "s.json"
    root := .map [("definitions", .map [(.str definition, object)]), ("properties", .map
      [("bed", .map [("$ref", .str (Reference.definitionMark ++ definition))]),
        ("big_tree", object)])] }

def typesOf (scope : RefScope) : SeenM (List Scalar) :=
  visitTypes (some scope) (fun _ name => pure (some name)) scope.root

theorem visitTypes_calls_garden : ∃ calls : List (Call Scalar), (calls.map Call.name).Nodup ∧
    calls.filterMap Call.result = [.str "Bed", .str "BigTree"] ∧ exec ((typesOf (garden "Bed")).run []) {} =
      (.ok ([.str "Bed", .str "BigTree"], [.str "Bed", .str "BigTree"]), {}) := by
  have hrun : exec ((typesOf (garden "Bed")).run []) {} =
      (.ok ([.str "Bed", .str "BigTree"], [.str "Bed", .str "BigTree"]), {}) := by
    rfl
  obtain ⟨definitions, properties, _, _, -, hout, hnodup, -⟩ := visitTypes_calls hrun
  exact ⟨definitions ++ properties, hnodup, hout.symm, hrun⟩

theorem visitTypes_misses_empty_name :
    exec ((typesOf (garden "")).run []) {} = (.ok ([.str "", .str "BigTree"], [.str "", .str "BigTree"]), {}) ∧
    Shows (some (garden "")) {} (.str "bed", .map [(.str "$ref", .str "#/definitions/")]) (some "#/definitions/")
      "Bed" ∧ Seen.has [.str "", .str "BigTree"] (.str "Bed") = false := by
  refine ⟨rfl, ⟨_, _, .reference rfl rfl rfl, rfl, rfl⟩, by decide⟩

end Typewright.Nested
