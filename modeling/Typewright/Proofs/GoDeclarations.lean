import Typewright.Proofs.GoFields
import Typewright.Proofs.GoTypes
import Typewright.Proofs.TypeNames

/-!
# What Go declarations declare
-/

namespace Typewright

open RefM

variable {v w schema : Value} {s' : RefState} {text title : String} {seen' : List Scalar}
  {es : List (Option Enumeration)} {claimed : Option String}
  {declare : Below schema → SeenM (Option Enumeration)} {scope : RefScope} {file : Option String}
  {s : RefState} {seen : List Scalar} {Own : String → Prop}

theorem Text.startsWith_append {start : String} (h : startsWith text start)
    (more : String) : startsWith (text ++ more) start := by
  unfold startsWith at h ⊢
  rw [List.isPrefixOf_iff_prefix] at h ⊢
  rw [String.toList_append]
  exact h.trans (List.prefix_append _ _)

namespace Go

def OuterRef (schema : Value) : Prop :=
  ∃ ref, schema.field "$ref" = .ok (.str ref) ∧ Reference.isInner ref = false

/-- No other file that the tables know of has a type of this name, and no definition of this name is known
to stand for another file. -/
def FreeAt (scope : RefScope) (file : Option String) (t : Tables) (text : String) : Prop :=
  text ∉ typesElsewhere scope file t ∧
    ∀ ref, t.definitions.get? text = some ref → otherFile file ref = false

theorem exec_isElsewhere {b : Bool} (h : exec (isElsewhere (some scope) file title schema) s = (.ok b, s')) :
    s' = s ∧ (FreeAt scope file s.tables title → ¬ OuterRef schema → b = false) := by
  obtain ⟨t, s1, ht, h1⟩ := exec_bind_ok h
  cases ht
  have hrest : exec (pure ((s.tables.definitions.get? title).any (otherFile file)) : RefM Bool) s =
      (.ok b, s') → s' = s ∧ (FreeAt scope file s.tables title → ¬ OuterRef schema → b = false) := by
    intro hwork
    cases hwork
    refine ⟨rfl, fun hfree _ => ?_⟩
    rw [Option.any_eq_false]
    exact hfree.2
  dsimp only at h1
  split at h1
  · next hknown =>
    cases h1
    refine ⟨rfl, fun hfree => absurd ?_ hfree.1⟩
    simpa using (Bool.and_eq_true_iff.mp hknown).2
  obtain ⟨isRef, hisRef, h2⟩ := exec_ask_ok h1
  split at h2
  · obtain ⟨ref, href, h3⟩ := exec_ask_ok h2
    obtain ⟨text, htext, h4⟩ := exec_ask_ok h3
    split at h4
    · next houter =>
      cases h4
      refine ⟨rfl, fun _ hinner => absurd ⟨text, ?_, ?_⟩ hinner⟩
      · rw [href, Reference.textOf_eq_ok htext]
      · simpa using (Bool.and_eq_true_iff.mp houter).1
    · exact hrest h4
  · exact hrest h2

theorem titleOrRoot_of_field (h : schema.field "title" = .ok (.str text)) (plain : Text.without ' ' text = text)
    (ne : text ≠ "") : schema.fieldD "title" (.str "") = .ok (.str text) ∧ schema.title = .ok text ∧
      schema.titleOrRoot = .ok text := by
  obtain ⟨es, rfl, found⟩ := Value.field_eq_ok h
  have hraw : (Value.map es).fieldD "title" (.str "") = .ok (.str text) := by
    unfold Value.fieldD
    rw [Value.field?_map, found]
    rfl
  have htitle : (Value.map es).title = .ok text := by
    unfold Value.title
    rw [hraw]
    show Except.ok (Text.without ' ' text) = _
    rw [plain]
  refine ⟨hraw, htitle, ?_⟩
  unfold Value.titleOrRoot
  rw [htitle]
  show Except.ok (if text.isEmpty then "Root" else text) = _
  rw [if_neg (by simpa using ne)]

theorem exec_claimTitle (h : exec ((claimTitle (some scope) file schema).run seen) s = (.ok (claimed, seen'), s')) :
    s' = s ∧ ∃ title raw, schema.titleOrRoot = .ok title ∧ schema.fieldD "title" (.str "") = .ok raw ∧
      (claimed = some title ∧ seen' = Seen.add seen (.str title) ∨
        claimed = none ∧ seen' = seen ∧ (raw.isStr title = false ∨
          ¬ FreeAt scope file s.tables title ∨ OuterRef schema)) := by
  obtain ⟨title, htitle, h1⟩ := run_ask_ok h
  obtain ⟨raw, hraw, h2⟩ := run_ask_ok h1
  dsimp only at h2
  have hrest : ∀ {work : SeenM (Option String)}, exec (work.run seen) s = (.ok (claimed, seen'), s') →
      work = (do
        if ← isElsewhere (some scope) file title schema then return none
        SeenM.mark (.str title)
        return some title) →
      s' = s ∧ (claimed = some title ∧ seen' = Seen.add seen (.str title) ∨
        claimed = none ∧ seen' = seen ∧ (raw.isStr title = false ∨
          ¬ FreeAt scope file s.tables title ∨ OuterRef schema)) := by
    rintro work hwork rfl
    obtain ⟨elsewhere, s1, helsewhere, h3⟩ := run_lift_ok hwork
    obtain ⟨rfl, hfree⟩ := exec_isElsewhere helsewhere
    split at h3
    · next htrue =>
      cases h3
      refine ⟨rfl, .inr ⟨rfl, rfl, .inr ?_⟩⟩
      by_cases houter : OuterRef schema
      · exact .inr houter
      · exact .inl fun free => by cases htrue.symm.trans (hfree free houter)
    · cases h3
      exact ⟨rfl, .inl ⟨rfl, rfl⟩⟩
  have hend : s' = s ∧ (claimed = some title ∧ seen' = Seen.add seen (.str title) ∨
        claimed = none ∧ seen' = seen ∧ (raw.isStr title = false ∨
          ¬ FreeAt scope file s.tables title ∨ OuterRef schema)) := by
    split at h2
    · next hother =>
      obtain ⟨isSeen, seen1, s1, hseen, h3⟩ := run_bind_ok h2
      cases hseen
      split at h3
      · cases h3
        exact ⟨rfl, .inr ⟨rfl, rfl, .inl (by simpa using hother)⟩⟩
      · exact hrest h3 rfl
    · exact hrest h2 rfl
  exact ⟨hend.1, title, raw, htitle, hraw, hend.2⟩

theorem claimed_of_free (h : exec ((claimTitle (some scope) file schema).run seen) s = (.ok (claimed, seen'), s'))
    (htitle : schema.field "title" = .ok (.str text)) (plain : Text.without ' ' text = text)
    (ne : text ≠ "") (free : FreeAt scope file s.tables text) (inner : ¬ OuterRef schema) : claimed = some text := by
  obtain ⟨_, title, raw, htitle', hraw, hend⟩ := exec_claimTitle h
  obtain ⟨hraw', _, htitle''⟩ := titleOrRoot_of_field htitle plain ne
  cases hraw.symm.trans hraw'
  cases htitle'.symm.trans htitle''
  rcases hend with ⟨hclaimed, _⟩ | ⟨_, _, hother | htaken | houter⟩
  · exact hclaimed
  · simp [Value.isStr, Scalar.isStr] at hother
  · exact absurd free htaken
  · exact absurd houter inner

/-! ## Enumerations -/

def enumNames (es : List (Option Enumeration)) : List String :=
  es.filterMap (Option.map (·.title))

theorem enumNames_append (es es' : List (Option Enumeration)) : enumNames (es ++ es') = enumNames es ++ enumNames es' :=
  List.filterMap_append

/-- What declaring an enumeration comes to: the state stays, what is newly seen is declared, and so is
the title if it is one that matters. -/
def DeclaresEnum (Own : String → Prop) (s : RefState) (work : SeenM (Option Enumeration))
    (title : String) : Prop :=
  ∀ seen declared seen' s', exec (work.run seen) s = (.ok (declared, seen'), s') →
    s' = s ∧ Adds Own seen seen' (enumNames [declared]) ∧ (Own title → title ∈ enumNames [declared])

theorem exec_enumDeclarations {owner : Value}
    {declare : Below owner → SeenM (Option Enumeration)} {entries : List (Scalar × Below owner)}
    (hdeclare : ∀ e ∈ entries, e.2.val.has "enum" = .ok true → ∀ text (w : Below owner),
      Value.Retitled e.2.val w.val → w.val.field "title" = .ok (.str text) → DeclaresEnum Own s (declare w) text)
    (h : exec ((enumDeclarations title owner declare entries).run seen) s = (.ok (es, seen'), s')) :
    s' = s ∧ Adds Own seen seen' (enumNames es) ∧ ∀ e ∈ entries, e.2.val.has "enum" = .ok true → ∀ fieldName,
        Naming.fieldName (.scalar e.1) = .ok fieldName → Seen.has seen' (.str (title ++ fieldName)) := by
  induction entries generalizing seen es with
  | nil =>
    cases h
    exact ⟨rfl, .refl _, nofun⟩
  | cons e rest ih =>
    obtain ⟨name, ⟨schema, below⟩⟩ := e
    have hrest : ∀ {seen es}, exec ((enumDeclarations title owner declare rest).run seen) s =
        (.ok (es, seen'), s') → _ := ih fun e he => hdeclare e (.tail _ he)
    unfold enumDeclarations at h
    obtain ⟨isEnum, hisEnum, h1⟩ := run_ask_ok h
    split at h1
    · next hno =>
      obtain ⟨hs, hadds, hseen⟩ := hrest h1
      refine ⟨hs, hadds, ?_⟩
      rintro e (_ | ⟨_, he⟩) hyes
      · rw [hisEnum] at hyes
        cases hyes
        cases hno
      · exact hseen e he hyes
    · next hyes =>
      have henum : schema.has "enum" = .ok true := by
        rw [hisEnum]
        simpa using hyes
      obtain ⟨fieldName, hfieldName, h2⟩ := run_ask_ok h1
      obtain ⟨isSeen, seen1, s1, hask, h3⟩ := run_bind_ok h2
      cases hask
      -- whether the name was seen or is declared now, it is seen before the rest
      have hsplit : ∀ {seen1 more}, Adds Own seen seen1 (enumNames more) → Seen.has seen1 (.str (title ++ fieldName)) →
          ∀ {es'}, exec ((enumDeclarations title owner declare rest).run seen1) s =
            (.ok (es', seen'), s') → es = more ++ es' →
          s' = s ∧ Adds Own seen seen' (enumNames es) ∧
            ∀ e ∈ (name, ⟨schema, below⟩) :: rest, e.2.val.has "enum" = .ok true → ∀ fieldName,
              Naming.fieldName (.scalar e.1) = .ok fieldName →
              Seen.has seen' (.str (title ++ fieldName)) := by
        rintro seen1 more hadds1 hseen1 es' h4 rfl
        obtain ⟨hs, hadds, hseen⟩ := hrest h4
        refine ⟨hs, ?_, ?_⟩
        · rw [enumNames_append]
          exact hadds1.trans hadds
        rintro e (_ | ⟨_, he⟩) hyes fieldName' hfieldName'
        · cases hfieldName.symm.trans hfieldName'
          exact hadds.mono _ hseen1
        · exact hseen e he hyes fieldName' hfieldName'
      split at h3
      · next hseen => exact hsplit (.refl _) hseen h3 (List.nil_append _).symm
      obtain ⟨_, seen2, s2, hmark, h4⟩ := run_bind_ok h3
      cases hmark
      obtain ⟨⟨enumSchema, within⟩, htitled, h5⟩ := run_ask_ok h4
      obtain ⟨first, seen3, s3, hfirst, h6⟩ := run_bind_ok h5
      obtain ⟨es', seen4, s4, hes', h7⟩ := run_bind_ok h6
      cases h7
      obtain ⟨rfl, hadds, hown⟩ := hdeclare _ (.head _) henum _ _
        (Value.retitled_withTitle htitled) (Value.field_withTitle htitled) _ _ _ _ hfirst
      have hmarked : Adds Own seen (Seen.add seen (.str (title ++ fieldName)))
          (enumNames [first]) := .mark fun text heq own => by
        cases heq
        exact hown own
      refine hsplit ?_ ?_ hes' (List.singleton_append).symm
      · exact (hmarked.trans hadds).subset fun text htext => by simpa using htext
      · exact hadds.mono _ (Seen.has_add_iff.mpr (.inr rfl))

theorem exec_propertyEnums_none (hno : schema.has "properties" = .ok false)
    (h : exec ((propertyEnums title schema declare).run seen) s = (.ok (es, seen'), s')) :
    es = [] ∧ seen' = seen ∧ s' = s := by
  obtain ⟨properties, hprops, h1⟩ := run_ask_ok h
  rw [Value.part?_eq_none hprops hno] at h1
  cases h1
  exact ⟨rfl, rfl, rfl⟩

theorem exec_propertyEnums (hdeclare : ∀ e ∈ schema.entriesOf "properties", e.2.has "enum" = .ok true →
      ∀ text (w : Below schema), Value.Retitled e.2 w.val → w.val.field "title" = .ok (.str text) →
      DeclaresEnum Own s (declare w) text)
    (h : exec ((propertyEnums title schema declare).run seen) s = (.ok (es, seen'), s')) :
    s' = s ∧ Adds Own seen seen' (enumNames es) ∧
      ∀ e ∈ schema.entriesOf "properties", e.2.has "enum" = .ok true → ∀ fieldName,
        Naming.fieldName (.scalar e.1) = .ok fieldName → Seen.has seen' (.str (title ++ fieldName)) := by
  obtain ⟨part, hpart, h1⟩ := run_ask_ok h
  match part with
  | none =>
    cases h1
    rw [Value.entriesOf_of_part?_none hpart]
    exact ⟨rfl, .refl _, nofun⟩
  | some ⟨properties, below⟩ =>
    obtain ⟨entries, hentries, h2⟩ := run_ask_ok h1
    have heq := Value.entriesOf_of_part? hpart hentries
    rw [heq] at hdeclare ⊢
    obtain ⟨hs, hadds, hseen⟩ := exec_enumDeclarations (fun e he henum text w hw htext =>
      hdeclare _ (List.mem_map_of_mem he) henum text ⟨w.val, Nat.lt_trans w.property below⟩ hw htext) h2
    refine ⟨hs, hadds, fun e he => ?_⟩
    obtain ⟨e', he', rfl⟩ := List.mem_map.mp he
    exact hseen e' he'

/-- A name that can be declared: it is free, spelt without blanks, and not empty. -/
structure Claimable (scope : RefScope) (file : Option String) (t : Tables) (text : String) : Prop where
  free : FreeAt scope file t text
  plain : Text.without ' ' text = text
  named : text ≠ ""

theorem title_of_enumeration {e : Enumeration} (h : enumeration title schema = .ok e) : e.title = title := by
  obtain ⟨_, _, h1⟩ := bind_ok h
  obtain ⟨_, _, h2⟩ := bind_ok h1
  obtain ⟨_, _, h3⟩ := bind_ok h2
  obtain ⟨_, _, h4⟩ := bind_ok h3
  obtain ⟨_, _, h5⟩ := bind_ok h4
  obtain ⟨_, _, h6⟩ := bind_ok h5
  obtain ⟨_, _, h7⟩ := bind_ok h6
  cases h7
  rfl

theorem declaresEnum_enumDeclaration (own : ∀ name, Own name → Claimable scope file s.tables name)
    (htitle : schema.field "title" = .ok (.str text)) (inner : ¬ OuterRef schema)
    (lone : schema.has "properties" = .ok false) :
    DeclaresEnum Own s (enumDeclaration (some scope) file schema) text := by
  intro seen declared seen' s' h
  rw [enumDeclaration] at h
  obtain ⟨claimed, seen1, s1, hclaim, h1⟩ := run_bind_ok h
  have hown : Own text → claimed = some text := fun htext =>
    claimed_of_free hclaim htitle (own text htext).plain (own text htext).named
      (own text htext).free inner
  obtain ⟨rfl, title, raw, -, -, ⟨rfl, rfl⟩ | ⟨rfl, rfl, -⟩⟩ := exec_claimTitle hclaim
  · obtain ⟨_, seen2, s2, hdiscard, h2⟩ := run_bind_ok h1
    obtain ⟨es, hes⟩ := run_discard_ok hdiscard
    obtain ⟨rfl, rfl, rfl⟩ := exec_propertyEnums_none lone hes
    obtain ⟨e, he, h3⟩ := run_ask_ok h2
    cases h3
    have hnames : enumNames [some e] = [title] := by
      simp [enumNames, title_of_enumeration he]
    rw [hnames]
    refine ⟨rfl, .mark fun name heq _ => ?_, fun htext => ?_⟩
    · cases heq
      exact List.mem_singleton_self _
    · cases hown htext
      exact List.mem_singleton_self _
  · cases h1
    exact ⟨rfl, .refl _, fun htext => nomatch hown htext⟩

/-! ## Declarations -/

/-- The names that a declaration declares; those of the enumerations before a struct are among them. -/
def Declaration.names : Declaration → List String
  | .enumeration e => [e.title]
  | .struct enums st => enumNames enums ++ [st.title]

def declaredNames (ds : List (Option Declaration)) : List String :=
  ds.flatMap fun d => d.elim [] Declaration.names

theorem declaredNames_append (ds ds' : List (Option Declaration)) :
    declaredNames (ds ++ ds') = declaredNames ds ++ declaredNames ds' :=
  List.flatMap_append

/-- A schema whose enumerations can be declared: an enumeration has no properties, and one among the
properties is no reference to a file. -/
structure Orderly (schema : Value) : Prop where
  own : schema.has "enum" = .ok true → schema.has "properties" = .ok false
  properties : ∀ e ∈ schema.entriesOf "properties", e.2.has "enum" = .ok true →
    e.2.has "properties" = .ok false ∧ ¬ OuterRef e.2

theorem OuterRef.of_retitled (h : Value.Retitled v w) (outer : OuterRef w) : OuterRef v := by
  obtain ⟨ref, href, hinner⟩ := outer
  exact ⟨ref, (h.field (by decide)).symm.trans href, hinner⟩

theorem Orderly.retitled (orderly : Orderly v) (h : Value.Retitled v w) : Orderly w where
  own henum := by
    rw [h.has (by decide)] at henum ⊢
    exact orderly.own henum
  properties := by
    rw [h.entriesOf (by decide)]
    exact orderly.properties

/-- Where a name in a field comes from, in a file that has seen these names: it is built in, comes from a
reference, or is that of an object in a body, or it was seen and starts as all names of the file do. -/
def Known (scope : RefScope) (t : Tables) (body : Value → Prop) (start : String) (seen : List Scalar)
    (text : String) : Prop :=
  text ∈ GoType.builtIns ∨ GoType.FromRef scope t text ∨
    (∃ schema, body schema ∧
      ∃ e ∈ schema.entriesOf "properties", text ∈ GoType.objectNames e.2 e.1) ∨
    (Seen.has seen (.str text) = true ∧ Text.startsWith text start = true)

/-- What declaring types comes to: the names that matter are declared as they are seen, and it is known
where the names in the fields of structs come from. -/
structure Declares (scope : RefScope) (Own : String → Prop) (body : Value → Prop) (start : String)
    (seen seen' : List Scalar) (s s' : RefState) (ds : List (Option Declaration)) : Prop where
  changes : Reference.Changes scope s s'
  adds : Adds Own seen seen' (declaredNames ds)
  fields : ∀ st ∈ structs ds, ∀ x ∈ st.fields, Known scope s'.tables body start seen' x.type.base

section Declares

variable {scope : RefScope} {file : Option String} {Own : String → Prop} {body : Value → Prop}
  {start : String} {seen seen1 seen2 : List Scalar} {s s1 s2 : RefState}
  {ds ds' : List (Option Declaration)}

theorem Known.keep (h : Known scope s.tables body start seen text) (later : Reference.Changes scope s s1)
    (mono : ∀ text, Seen.has seen (.str text) → Seen.has seen1 (.str text)) :
    Known scope s1.tables body start seen1 text :=
  h.imp id (Or.imp (fun hfrom => hfrom.keep later) (Or.imp id (And.imp_left (mono text))))

namespace Declares

theorem refl (seen : List Scalar) (s : RefState) : Declares scope Own body start seen seen s s [] :=
  ⟨.refl, .refl _, nofun⟩

theorem trans (h : Declares scope Own body start seen seen1 s s1 ds)
    (h' : Declares scope Own body start seen1 seen2 s1 s2 ds') :
    Declares scope Own body start seen seen2 s s2 (ds ++ ds') where
  changes := h.changes.trans h'.changes
  adds := by
    rw [declaredNames_append]
    exact h.adds.trans h'.adds
  fields := by
    rw [structs_append]
    intro st hst x hx
    rcases List.mem_append.mp hst with hst | hst
    · exact (h.fields st hst x hx).keep h'.changes h'.adds.mono
    · exact h'.fields st hst x hx

theorem after (h : Declares scope Own body start seen seen1 s1 s2 ds)
    (earlier : Reference.Changes scope s s1) : Declares scope Own body start seen seen1 s s2 ds :=
  ⟨earlier.trans h.changes, h.adds, h.fields⟩

theorem before (h : Declares scope Own body start seen seen1 s s1 ds)
    (later : Reference.Changes scope s1 s2) : Declares scope Own body start seen seen1 s s2 ds :=
  ⟨h.changes.trans later, h.adds,
    fun st hst x hx => (h.fields st hst x hx).keep later fun _ hseen => hseen⟩

theorem mark {name : Scalar} (h : Declares scope Own body start (Seen.add seen name) seen1 s s1 ds)
    (declared : ∀ text, name = .str text → Own text → text ∈ declaredNames ds) :
    Declares scope Own body start seen seen1 s s1 ds where
  changes := h.changes
  adds := ((Adds.mark declared).trans h.adds).subset fun text htext => by simpa using htext
  fields := h.fields

end Declares

theorem exec_declaration {yaml : Bool} {bare : Value} {d : Option Declaration}
    (own : ∀ name, Own name → Claimable scope file s.tables name) (hbody : body bare)
    (orderly : Orderly bare) (retitled : Value.Retitled bare schema)
    (hstart : ∀ title, schema.titleOrRoot = .ok title → Text.startsWith title start)
    (h : exec ((declaration (some scope) file yaml schema).run seen) s = (.ok (d, seen1), s1)) :
    Declares scope Own body start seen seen1 s s1 [d] ∧
      ∀ text, schema.field "title" = .ok (.str text) → Own text → ¬ OuterRef schema → text ∈ declaredNames [d] := by
  obtain ⟨claimed, seen2, s2, hclaim, h1⟩ := run_bind_ok h
  have hown : ∀ text, schema.field "title" = .ok (.str text) → Own text → ¬ OuterRef schema →
      claimed = some text := fun text htitle htext inner =>
    claimed_of_free hclaim htitle (own text htext).plain (own text htext).named
      (own text htext).free inner
  obtain ⟨rfl, title, raw, htitle, -, ⟨rfl, rfl⟩ | ⟨rfl, rfl, -⟩⟩ := exec_claimTitle hclaim
  · obtain ⟨enums, seen3, s3, henums, h2⟩ := run_bind_ok h1
    obtain ⟨isEnum, hisEnum, h3⟩ := run_ask_ok h2
    have hdeclared : ∀ {names : List String}, title ∈ names → ∀ text,
        schema.field "title" = .ok (.str text) → Own text → ¬ OuterRef schema → text ∈ names :=
      fun hmem text htext hown' inner => by
        cases hown text htext hown' inner
        exact hmem
    split at h3
    · next henum =>
      obtain ⟨e, he, h4⟩ := run_ask_ok h3
      cases h4
      rw [henum] at hisEnum
      obtain ⟨rfl, rfl, rfl⟩ := exec_propertyEnums_none ((orderly.retitled retitled).own hisEnum) henums
      have hnames : declaredNames [some (.enumeration e)] = [title] := by
        simp [declaredNames, Declaration.names, title_of_enumeration he]
      have hmem : title ∈ declaredNames [some (.enumeration e)] := by simp [hnames]
      refine ⟨⟨.refl, .mark fun name heq _ => ?_, by simp [structs]⟩, hdeclared hmem⟩
      cases heq
      exact hmem
    obtain ⟨st, s4, hst, h4⟩ := run_lift_ok h3
    cases h4
    obtain ⟨rfl, hadds, hseen⟩ := exec_propertyEnums (fun e he henum text w hw htext => by
      obtain ⟨hlone, hinner⟩ := (orderly.retitled retitled).properties e he henum
      exact declaresEnum_enumDeclaration own htext (fun houter => hinner (houter.of_retitled hw))
        ((hw.has (by decide)).trans hlone)) henums
    obtain ⟨rfl, hfields⟩ := struct_fields hst
    have hnames : declaredNames [some (.struct enums st)] = enumNames enums ++ [st.title] := by
      simp [declaredNames, Declaration.names]
    have hmem : st.title ∈ declaredNames [some (.struct enums st)] := by simp [hnames]
    refine ⟨⟨?changes, ?adds, ?fields⟩, hdeclared hmem⟩
    case changes =>
      have hfollows : Follows (some scope) KindFault (struct (some scope) yaml st.title schema) := inferInstance
      exact hfollows.changes hst
    case adds =>
      have hmark : Adds Own seen (Seen.add seen (.str st.title)) [st.title] := .mark fun name heq _ => by
          cases heq
          exact List.mem_singleton_self _
      refine (hmark.trans hadds).subset fun text htext => ?_
      rw [hnames]
      simpa [or_comm] using htext
    case fields =>
      intro st' hst' x hx
      obtain rfl : st' = st := by simpa [structs] using hst'
      obtain ⟨e, he, ⟨henum, fieldName, hfieldName, heq⟩ | hbuiltIn | hfrom | hobject⟩ := hfields x hx
      · refine .inr (.inr (.inr ⟨?_, ?_⟩))
        · rw [heq]
          exact hseen e he henum fieldName hfieldName
        · rw [heq]
          exact Text.startsWith_append (hstart _ htitle) fieldName
      · exact .inl hbuiltIn
      · exact .inr (.inl hfrom)
      · rw [retitled.entriesOf (by decide)] at he
        exact .inr (.inr (.inl ⟨bare, hbody, e, he, hobject⟩))
  · cases h1
    refine ⟨⟨.refl, .refl _, nofun⟩, fun text htext hown' inner => ?_⟩
    cases hown text htext hown' inner

end Declares

end Go

end Typewright
