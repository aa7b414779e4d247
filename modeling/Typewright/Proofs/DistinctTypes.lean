import Typewright.Proofs.GoRoot
import Typewright.Proofs.InnerTypes
import Typewright.Proofs.UsedTypes

/-!
# Types that are declared once

What was visited is told by the name of the visit, and what is declared is named by a title.
-/

namespace Typewright

open RefM Value Nested

variable {found : Option (Option Declaration)} {yaml strict : Bool} {es : List (Option Enumeration)}
  {d : Option Declaration} {entries : Entries} {ds : List (Option Declaration)} {text : String}
  {title : String} {r : Request}

/-! ## Claiming names -/

/-- These names are declared, and all of them were seen in the end. Apart from a few, they were not seen
before and are declared once. -/
structure Claims (Apart : String → Prop) (seen : List Scalar) (names : List String)
    (seen' : List Scalar) : Prop where
  mono : ∀ name, Seen.has seen (.str name) = true → Seen.has seen' (.str name) = true
  marks : ∀ name ∈ names, Seen.has seen' (.str name) = true
  fresh : ∀ name ∈ names, ¬ Apart name → Seen.has seen (.str name) = false
  once : ∀ name, ¬ Apart name → names.count name ≤ 1

namespace Claims

variable {Apart Apart' : String → Prop} {seen seen1 seen2 : List Scalar} {names more : List String}

theorem nil (seen : List Scalar) : Claims Apart seen [] seen :=
  ⟨fun _ h => h, nofun, nofun, fun _ _ => Nat.zero_le _⟩

theorem append (h : Claims Apart seen names seen1) (h' : Claims Apart seen1 more seen2) :
    Claims Apart seen (names ++ more) seen2 where
  mono name hname := h'.mono name (h.mono name hname)
  marks name hname := by
    rcases List.mem_append.mp hname with hname | hname
    · exact h'.mono name (h.marks name hname)
    · exact h'.marks name hname
  fresh name hname hown := by
    rcases List.mem_append.mp hname with hname | hname
    · exact h.fresh name hname hown
    · refine Bool.eq_false_iff.mpr fun hseen => ?_
      cases (h'.fresh name hname hown).symm.trans (h.mono name hseen)
  once name hown := by
    rw [List.count_append]
    by_cases hname : name ∈ names
    · have hother : name ∉ more := by
        intro hmore
        cases (h'.fresh name hmore hown).symm.trans (h.marks name hname)
      rw [List.count_eq_zero.mpr hother]
      exact h.once name hown
    · rw [List.count_eq_zero.mpr hname, Nat.zero_add]
      exact h'.once name hown

theorem of_mark {x : Scalar} (h : Claims Apart' (Seen.add seen x) names seen1) (hnodup : names.Nodup)
    (hfresh : Seen.has seen x = false) (hown : ∀ name, Apart' name → Apart name ∨ x = .str name) :
    Claims Apart seen names seen1 where
  mono name hname := h.mono name (Seen.has_add_of_has hname)
  marks := h.marks
  fresh name hname hother := by
    by_cases hmark : x = .str name
    · exact hmark ▸ hfresh
    · have hadd := h.fresh name hname fun hmine => (hown name hmine).elim hother hmark
      exact Bool.eq_false_iff.mpr fun hseen => Bool.eq_false_iff.mp hadd (Seen.has_add_of_has hseen)
  once name _ := List.nodup_iff_count_le_one.mp hnodup name

end Claims

namespace Go

variable {scope : Option RefScope} {file : Option String} {schema : Value} {seen seen' : List Scalar}
  {s s' : RefState}

def KeepsTitle (schema : Value) (name : String) : Prop :=
  schema.titleOrRoot = .ok name ∧ schema.field "title" = .ok (.str name)

/-- What claiming a title comes to. It is granted only if it was not seen or stands in the schema as it is. -/
inductive Claimed (schema : Value) (seen : List Scalar) : Option String → List Scalar → Prop
  | refused : Claimed schema seen none seen
  | granted {title : String} (htitle : schema.titleOrRoot = .ok title)
      (free : KeepsTitle schema title ∨ Seen.has seen (.str title) = false) :
      Claimed schema seen (some title) (Seen.add seen (.str title))

theorem claimTitle_cases {claimed : Option String}
    (h : exec ((claimTitle scope file schema).run seen) s = (.ok (claimed, seen'), s')) :
    Claimed schema seen claimed seen' := by
  obtain ⟨title, htitle, h1⟩ := run_ask_ok h
  obtain ⟨raw, hraw, h2⟩ := run_ask_ok h1
  have hrest : (KeepsTitle schema title ∨ Seen.has seen (.str title) = false) →
      exec ((do
        if ← isElsewhere scope file title schema then return none
        SeenM.mark (.str title)
        return some title : SeenM (Option String)).run seen) s = (.ok (claimed, seen'), s') →
      Claimed schema seen claimed seen' := by
    intro free hrun
    obtain ⟨elsewhere, s1, _, h3⟩ := run_lift_ok hrun
    cases elsewhere with
    | true =>
      cases h3
      exact .refused
    | false =>
      cases h3
      exact .granted htitle free
  cases hsame : raw.isStr title with
  | true =>
    rw [hsame] at h2
    exact hrest (.inl ⟨htitle, (isStr_title_iff htitle hraw).mp hsame⟩) h2
  | false =>
    rw [hsame] at h2
    obtain ⟨isSeen, seen1, s1, hseen, h3⟩ := run_bind_ok h2
    cases hseen
    cases hhas : Seen.has seen (.str title) with
    | true =>
      rw [hhas] at h3
      cases h3
      exact .refused
    | false =>
      rw [hhas] at h3
      exact hrest (.inr hhas) h3

/-! ## Enumerations -/

/-- Declaring an enumeration claims its name, unless that was seen and is not its own title. -/
def ClaimsEnum (schema : Value) (work : SeenM (Option Enumeration)) : Prop :=
  ∀ seen declared seen' s s', exec (work.run seen) s = (.ok (declared, seen'), s') →
    Claims (KeepsTitle schema) seen (enumNames [declared]) seen'

theorem nodup_enumNames_singleton (e : Option Enumeration) : (enumNames [e]).Nodup := by
  cases e with
  | none => exact .nil
  | some e => exact List.nodup_singleton _

theorem claimsEnum_enumDeclaration (schema : Value) : ClaimsEnum schema (enumDeclaration scope file schema) := by
  intro seen declared seen' s s' h
  rw [enumDeclaration] at h
  obtain ⟨claimed, seen1, s1, hclaim, h1⟩ := run_bind_ok h
  cases claimTitle_cases hclaim with
  | refused =>
    cases h1
    exact .nil _
  | @granted title htitle free =>
    obtain ⟨_, seen2, s2, hdiscard, h2⟩ := run_bind_ok h1
    obtain ⟨e, he, h3⟩ := run_ask_ok h2
    cases h3
    -- the enumerations inside are seen and then dropped
    have hdropped : FollowsSeen scope KindFault (discard (propertyEnums title schema fun e =>
      enumDeclaration scope file e.val)) := inferInstance
    have hkeeps := fun name => hdropped.keepsSeen.keeps hdiscard (.str name)
    have hnames : enumNames [some e] = [title] := by simp [enumNames, title_of_enumeration he]
    rw [hnames]
    exact
      { mono := fun name hname => hkeeps name (Seen.has_add_of_has hname)
        marks := fun name hname => List.mem_singleton.mp hname ▸ hkeeps title (Seen.has_add_self _ _)
        fresh := fun name hname hother => by
          cases List.mem_singleton.mp hname
          exact free.resolve_left hother
        once := fun name _ => List.nodup_iff_count_le_one.mp (List.nodup_singleton _) name }

theorem claims_enumDeclarations {owner : Value}
    {declare : Below owner → SeenM (Option Enumeration)} {entries : List (Scalar × Below owner)}
    (hdeclare : ∀ e, ClaimsEnum e.val (declare e))
    (h : exec ((enumDeclarations title owner declare entries).run seen) s = (.ok (es, seen'), s')) :
    Claims (fun _ => False) seen (enumNames es) seen' := by
  induction entries generalizing seen s es with
  | nil =>
    cases h
    exact .nil _
  | cons e rest ih =>
    obtain ⟨name, schema, below⟩ := e
    obtain ⟨hasEnum, _, h1⟩ := run_ask_ok h
    cases hasEnum with
    | false => exact ih h1
    | true =>
      obtain ⟨fieldName, _, h2⟩ := run_ask_ok h1
      obtain ⟨isSeen, seen1, s1, hseen, h3⟩ := run_bind_ok h2
      cases hseen
      cases hhas : Seen.has seen (.str (title ++ fieldName)) with
      | true =>
        rw [hhas] at h3
        exact ih h3
      | false =>
        rw [hhas] at h3
        obtain ⟨_, seen2, s2, hmark, h4⟩ := run_bind_ok h3
        cases hmark
        obtain ⟨⟨enumSchema, within⟩, htitled, h5⟩ := run_ask_ok h4
        obtain ⟨first, seen3, s3, hfirst, h6⟩ := run_bind_ok h5
        obtain ⟨others, seen4, s4, hothers, h7⟩ := run_bind_ok h6
        cases h7
        have hclaims : Claims (fun _ => False) seen (enumNames [first]) seen3 := by
          refine (hdeclare _ _ _ _ _ _ hfirst).of_mark (nodup_enumNames_singleton _) hhas ?_
          rintro name ⟨_, htitle⟩
          cases (field_withTitle htitled).symm.trans htitle
          exact .inr rfl
        rw [← List.singleton_append, enumNames_append]
        exact hclaims.append (ih hothers)

theorem claims_propertyEnums (h : exec ((propertyEnums title schema fun e => enumDeclaration scope file e.val).run seen) s =
      (.ok (es, seen'), s')) : Claims (fun _ => False) seen (enumNames es) seen' := by
  obtain ⟨part, hpart, h1⟩ := run_ask_ok h
  match part with
  | none =>
    cases h1
    exact .nil _
  | some ⟨properties, below⟩ =>
    obtain ⟨entries, hentries, h2⟩ := run_ask_ok h1
    exact claims_enumDeclarations (fun e => claimsEnum_enumDeclaration e.val) h2

/-! ## Declarations -/

theorem claims_declaration (h : exec ((declaration scope file yaml schema).run seen) s = (.ok (d, seen'), s')) :
    (declaredNames [d]).Nodup ∧ Claims (KeepsTitle schema) seen (declaredNames [d]) seen' := by
  obtain ⟨claimed, seen1, s1, hclaim, h1⟩ := run_bind_ok h
  cases claimTitle_cases hclaim with
  | refused =>
    cases h1
    exact ⟨.nil, .nil _⟩
  | @granted title htitle free =>
    obtain ⟨enums, seen2, s2, henums, h2⟩ := run_bind_ok h1
    have hclaims := claims_propertyEnums henums
    -- the title is marked first, so no enumeration has it
    have hnot : title ∉ enumNames enums := fun hmem => by
      cases (hclaims.fresh title hmem id).symm.trans (Seen.has_add_self seen (.str title))
    have hnodup : (enumNames enums).Nodup := List.nodup_iff_count_le_one.mpr fun name => hclaims.once name id
    have hmono : ∀ name, Seen.has seen (.str name) → Seen.has seen2 (.str name) :=
      fun name hname => hclaims.mono name (Seen.has_add_of_has hname)
    have htitled : Seen.has seen2 (.str title) := hclaims.mono title (Seen.has_add_self _ _)
    have hsound : ∀ names : List String, names.Nodup → (∀ name ∈ names, name ∈ enumNames enums ∨ name = title) →
        names.Nodup ∧ Claims (KeepsTitle schema) seen names seen2 := by
      intro names hdistinct hsplit
      refine ⟨hdistinct, hmono, fun name hname => ?_, fun name hname hother => ?_, fun name _ =>
        List.nodup_iff_count_le_one.mp hdistinct name⟩
      · rcases hsplit name hname with hmem | rfl
        · exact hclaims.marks name hmem
        · exact htitled
      rcases hsplit name hname with hmem | rfl
      · refine Bool.eq_false_iff.mpr fun hseen => ?_
        cases (hclaims.fresh name hmem id).symm.trans (Seen.has_add_of_has hseen)
      · exact free.resolve_left hother
    obtain ⟨hasEnum, _, h3⟩ := run_ask_ok h2
    cases hasEnum with
    | true =>
      obtain ⟨e, he, h4⟩ := run_ask_ok h3
      cases h4
      have hnames : declaredNames [some (.enumeration e)] = [title] := by
        simp [declaredNames, Declaration.names, title_of_enumeration he]
      rw [hnames]
      exact hsound _ (List.nodup_singleton _) fun name hname => .inr (List.mem_singleton.mp hname)
    | false =>
      obtain ⟨st, s3, hst, h4⟩ := run_lift_ok h3
      cases h4
      have hnames : declaredNames [some (.struct enums st)] = enumNames enums ++ [title] := by
        simp [declaredNames, Declaration.names, (exec_struct hst).1]
      rw [hnames]
      refine hsound _ (List.nodup_append.mpr ⟨hnodup, List.nodup_singleton _, ?_⟩) fun name hname => ?_
      · rintro a ha b hb rfl
        exact hnot (List.mem_singleton.mp hb ▸ ha)
      · exact (List.mem_append.mp hname).imp id List.mem_singleton.mp

variable {r : Request} {title : String} {elsewhere : List String} {name : Scalar}
  {Apart : String → Prop}

theorem claims_visit (h : exec ((visit r title elsewhere schema name).run seen) s = (.ok (found, seen'), s')) :
    (declaredNames found.toList).Nodup ∧ Claims (KeepsTitle schema) seen (declaredNames found.toList) seen' := by
  obtain ⟨d, seen1, s1, hd, h1⟩ := run_bind_ok h
  cases h1
  obtain ⟨leftOut, s2, _, h2⟩ := run_lift_ok hd
  cases leftOut with
  | true =>
    cases h2
    exact ⟨.nil, .nil _⟩
  | false => exact claims_declaration h2

/-! ## Types inside a schema -/

theorem claims_visitDefinition
    (h : exec ((visitDefinition scope (visit r title elsewhere) name schema).run seen) s =
      (.ok (found, seen'), s')) : Claims Apart seen (declaredNames found.toList) seen' := by
  cases visitDefinition_cases h with
  | seen known => exact .nil _
  | elsewhere fresh isRef stands =>
    exact ⟨fun _ hname => Seen.has_add_of_has hname, nofun, nofun, fun _ _ => Nat.zero_le _⟩
  | visited fresh titled reached run =>
    obtain ⟨hnodup, hclaims⟩ := claims_visit run
    refine hclaims.of_mark hnodup fresh ?_
    rintro text ⟨_, htitle⟩
    cases (field_withTitle titled).symm.trans htitle
    exact .inr rfl

theorem claims_visitProperty (hfit : Fit strict schema)
    (apart : ∀ t, InnerType.ofProperty (name, schema) = some t → t.key ≠ .str t.name → Apart t.name)
    (h : exec ((visitProperty scope (visit r title elsewhere) name schema).run seen) s =
      (.ok (found, seen'), s')) : Claims Apart seen (declaredNames found.toList) seen' := by
  obtain ⟨target, known, s1, htarget, hcases⟩ := visitProperty_cases h
  obtain ⟨rfl, rfl⟩ := propertyTarget_fit hfit htarget
  cases hcases with
  | plain _ plain => exact .nil _
  | seen called hseen => exact .nil _
  | @visited typeName nested _ _ _ called object fresh titled run =>
    obtain ⟨hnodup, hclaims⟩ := claims_visit run
    refine hclaims.of_mark hnodup fresh ?_
    rintro text ⟨htext, htitle⟩
    by_cases hsame : typeName = text
    · exact .inr (congrArg Scalar.str hsame)
    · refine .inl (apart _ (ofTarget_of_entitled object called titled htext) ?_)
      simpa using hsame

theorem claims_walkDefinitions
    (h : Walk (visitDefinition scope (visit r title elsewhere)) entries seen s ds seen' s') :
    Claims Apart seen (declaredNames ds) seen' := by
  induction h with
  | nil => exact .nil _
  | cons head _ ih =>
    rw [declaredNames_append]
    exact (claims_visitDefinition head).append ih

theorem claims_walkProperties (hfit : ∀ e ∈ entries, Fit strict e.2)
    (apart : ∀ t ∈ entries.filterMap InnerType.ofProperty, t.key ≠ .str t.name → Apart t.name)
    (h : Walk (visitProperty scope (visit r title elsewhere)) entries seen s ds seen' s') :
    Claims Apart seen (declaredNames ds) seen' := by
  induction h with
  | nil => exact .nil _
  | cons head _ ih =>
    rw [List.forall_mem_cons] at hfit
    simp only [List.mem_filterMap, List.mem_cons] at apart ih
    rw [declaredNames_append]
    exact (claims_visitProperty hfit.1 (fun t ht => apart t ⟨_, .inl rfl, ht⟩) head).append
      (ih hfit.2 fun t ⟨e, he, ht⟩ => apart t ⟨e, .inr he, ht⟩)

/-! ## Files -/

variable {package : String} {out : SourceFile}

theorem count_fileOf (hfit : Fit strict r.schema) (h : exec (fileOf package r) s = (.ok out, s')) {name : String}
    (own : ∀ t ∈ r.schema.objectTypes, t.name = name → t.key = .str name) :
    (declaredNames out.declarations).count name ≤ 1 := by
  obtain ⟨title, htitle, h1⟩ := exec_ask_ok h
  obtain ⟨⟨elsewhere, i⟩, s1, _, h2⟩ := exec_bind_ok h1
  obtain ⟨⟨ds, seen'⟩, s2, hds, h3⟩ := exec_bind_ok h2
  cases h3
  obtain ⟨nested, seen1, s3, hnested, h4⟩ := run_bind_ok hds
  obtain ⟨root, seen2, s4, hroot, h5⟩ := run_bind_ok h4
  cases h5
  obtain ⟨definitions, properties, seen3, s5, rfl, hdefs, hprops⟩ := visitTypes_cases hnested
  have hinner : Claims (· ≠ name) [.str title] (declaredNames (definitions ++ properties)) seen1 := by
    have hentries : ∀ e ∈ r.schema.entriesOf "properties", Fit strict e.2 :=
      fun _ he => hfit.entry (entriesAt_of_mem_entriesOf he) he
    rw [declaredNames_append]
    refine (claims_walkDefinitions hdefs).append (claims_walkProperties hentries ?_ hprops)
    rintro t ht hkey rfl
    exact hkey (own t ht rfl)
  obtain ⟨hnodup, hclaims⟩ := claims_declaration hroot
  rw [declaredNames_append, List.count_append]
  have hlast : (declaredNames (if elsewhere.contains title then [] else [root])).count name ≤
      (declaredNames [root]).count name := by
    split
    · exact Nat.zero_le _
    · exact Nat.le_refl _
  have hroot : (declaredNames [root]).count name ≤ 1 := List.nodup_iff_count_le_one.mp hnodup name
  by_cases hname : name ∈ declaredNames (definitions ++ properties)
  · -- the root declares again only what was not seen, or its own title, which was seen from the start
    have hother : name ∉ declaredNames [root] := by
      intro hmem
      by_cases hkeeps : KeepsTitle r.schema name
      · cases htitle.symm.trans hkeeps.1
        cases (hinner.fresh name hname (· rfl)).symm.trans (Seen.has_str_iff.mpr (.head _))
      · cases (hclaims.fresh name hmem hkeeps).symm.trans (hinner.marks name hname)
    have hinnerOnce := hinner.once name (· rfl)
    rw [List.count_eq_zero.mpr hother] at hlast
    omega
  · rw [List.count_eq_zero.mpr hname]
    omega

theorem mem_names_of_keepsTitle {name : String} (hkeeps : KeepsTitle schema name)
    (h : exec ((declaration none file yaml schema).run seen) s = (.ok (d, seen'), s')) : name ∈ declaredNames [d] := by
  obtain ⟨claimed, seen1, s1, hclaim, h1⟩ := run_bind_ok h
  obtain ⟨raw, hraw, _⟩ := titleOrRoot_eq hkeeps.1
  rw [exec_claimTitle_none hkeeps.1 hraw, (isStr_title_iff hkeeps.1 hraw).mpr hkeeps.2] at hclaim
  cases hclaim
  obtain ⟨enums, seen2, s2, _, h2⟩ := run_bind_ok h1
  obtain ⟨hasEnum, _, h3⟩ := run_ask_ok h2
  cases hasEnum with
  | true =>
    obtain ⟨e, he, h4⟩ := run_ask_ok h3
    cases h4
    simp [declaredNames, Declaration.names, title_of_enumeration he]
  | false =>
    obtain ⟨st, s3, hst, h4⟩ := run_lift_ok h3
    cases h4
    simp [declaredNames, Declaration.names, (exec_struct hst).1]

theorem mem_names_of_refFree (main : r.isMain) (hfit : Fit false r.schema) {name : String}
    (hkeeps : KeepsTitle r.schema name) (h : (exec (fileOf package r) {}).1 = .ok out) :
    name ∈ declaredNames out.declarations := by
  have hbare : (exec (fileOf package r.bare) {}).1 = .ok out := by
    cases hscope : r.scope with
    | none => rwa [Request.bare_of_scope hscope]
    | some scope => exact (agree_fileOf package hscope main hfit).sound h
  obtain ⟨title, nested, root, seen, seen', s1, s2, s3, _, _, _, hroot, hds⟩ :=
    fileOf_cases (r := r.bare) rfl (Prod.ext hbare rfl)
  rw [hds, declaredNames_append]
  exact List.mem_append_right _ (mem_names_of_keepsTitle hkeeps hroot)

end Go

/-! ## All three languages -/

/-- Each type inside the schema is visited under the name that it is declared under, and that is not the name
of the schema itself. -/
def Value.NamedByKeys (schema : Value) (root : String) : Prop :=
  ∀ t ∈ schema.candidates, t.key = .str t.name ∧ t.name ≠ root

theorem Value.NamedByKeys.nodup {schema : Value} {root : String} (h : schema.NamedByKeys root) :
    (schema.innerTypes.map (·.name) ++ [root]).Nodup := by
  refine List.nodup_append.mpr ⟨InnerType.nodup_names_unseen [] fun t ht => (h t ht).1, List.nodup_singleton _, ?_⟩
  rintro a ha b hb rfl
  obtain ⟨t, ht, hname⟩ := List.mem_map.mp ha
  exact (h t (InnerType.mem_of_mem_unseen ht)).2 (hname.trans (List.mem_singleton.mp hb))

namespace Python

theorem names_of_refFree {style : PythonStyle}
    (free : r.schema.isRefFree) (h : (exec (sourceFile style r) {}).1 = .ok text) :
    ∃ file root, (exec (fileOf style r) {}).1 = .ok file ∧ text = file.text ∧ r.schema.titleOrRoot = .ok root ∧
      file.classes.map (·.name) = r.schema.innerTypes.map (·.name) ++ [root] ∧ ∀ d ∈ file.classes, IsClass d := by
  obtain ⟨file, s1, hfile, rfl⟩ := fst_exec_map_eq_ok h
  have hrun : (exec (fileOf style r) {}).1 = .ok file := by rw [hfile]
  have hbare : (exec (fileOf style r.bare) {}).1 = .ok file := by
    cases hscope : r.scope with
    | none => rwa [Request.bare_of_scope hscope]
    | some scope =>
      exact (agree_fileOf hscope (fit_of_isRefFree free) nofun style).sound hrun
  obtain ⟨root, hroot, hnames, hclass⟩ := names_fileOf (r := r.bare) rfl (Prod.ext hbare rfl)
  exact ⟨file, root, hrun, rfl, hroot, hnames, hclass⟩

end Python

namespace TypeScript

theorem names_of_refFree (free : r.schema.isRefFree) (h : (exec (sourceFile r) {}).1 = .ok text) :
    ∃ file root, (exec (fileOf r) {}).1 = .ok file ∧ text = file.text ∧ r.schema.titleOrRoot = .ok root ∧
      file.exported.map (·.name) = r.schema.innerTypes.map (·.name) ++ [root] ∧ ∀ d ∈ file.exported, IsExport d := by
  obtain ⟨file, s1, hfile, rfl⟩ := fst_exec_map_eq_ok h
  have hfit := fit_of_isRefFree free
  have hrun : (exec (fileOf r) {}).1 = .ok file := by rw [hfile]
  have hbare : (exec (fileOf r.bare) {}).1 = .ok file := by
    cases hscope : r.scope with
    | none => rwa [Request.bare_of_scope hscope]
    | some scope => exact (agree_fileOf hscope hfit nofun).sound hrun
  obtain ⟨root, hroot, hnames, hexport⟩ := names_fileOf (r := r.bare) rfl hfit (Prod.ext hbare rfl)
  exact ⟨file, root, hrun, rfl, hroot, hnames, hexport⟩

end TypeScript

/-- In Python and TypeScript the names of the types that are declared are distinct if each type is declared under the
name that it is visited under and the schema itself under another one. In Go a name is declared at most once, unless
it is the title of an object that is visited under another name. -/
theorem declares_once {r : Request} (free : r.schema.isRefFree = true) :
    (∀ style text, (exec (Python.sourceFile style r) {}).1 = .ok text →
      ∃ file root, (exec (Python.fileOf style r) {}).1 = .ok file ∧ text = file.text ∧ r.schema.titleOrRoot = .ok root ∧
        file.classes.map (·.name) = r.schema.innerTypes.map (·.name) ++ [root] ∧
        (∀ d ∈ file.classes, Python.IsClass d) ∧ (r.schema.NamedByKeys root → (file.classes.map (·.name)).Nodup)) ∧
    (∀ text, (exec (TypeScript.sourceFile r) {}).1 = .ok text →
      ∃ file root, (exec (TypeScript.fileOf r) {}).1 = .ok file ∧ text = file.text ∧ r.schema.titleOrRoot = .ok root ∧
        file.exported.map (·.name) = r.schema.innerTypes.map (·.name) ++ [root] ∧
        (∀ d ∈ file.exported, TypeScript.IsExport d) ∧
        (r.schema.NamedByKeys root → (file.exported.map (·.name)).Nodup)) ∧
    (∀ package text, (exec (Go.sourceFile package r) {}).1 = .ok text →
      ∃ file, (exec (Go.fileOf package r) {}).1 = .ok file ∧ text = file.text ∧
        (∀ name, (∀ t ∈ r.schema.objectTypes, t.name = name → t.key = .str name) →
          (Go.declaredNames file.declarations).count name ≤ 1) ∧ ((∀ t ∈ r.schema.objectTypes, t.key = .str t.name) →
          (Go.declaredNames file.declarations).Nodup) ∧ (∀ name ∈ Go.declaredNames file.declarations,
          Text.contains text ("type " ++ name ++ " ") = true) ∧ (r.isMain = true → ∀ name, Go.KeepsTitle r.schema name →
          name ∈ Go.declaredNames file.declarations)) := by
  refine ⟨fun style text h => ?_, fun text h => ?_, fun package text h => ?_⟩
  · obtain ⟨file, root, hrun, htext, hroot, hnames, hclass⟩ := Python.names_of_refFree free h
    refine ⟨file, root, hrun, htext, hroot, hnames, hclass, fun hkeys => ?_⟩
    rw [hnames]
    exact hkeys.nodup
  · obtain ⟨file, root, hrun, htext, hroot, hnames, hexport⟩ := TypeScript.names_of_refFree free h
    refine ⟨file, root, hrun, htext, hroot, hnames, hexport, fun hkeys => ?_⟩
    rw [hnames]
    exact hkeys.nodup
  obtain ⟨file, s1, hfile, rfl⟩ := fst_exec_map_eq_ok h
  have hfit := fit_of_isRefFree free
  have hrun : (exec (Go.fileOf package r) {}).1 = .ok file := by rw [hfile]
  have hcount : ∀ name, (∀ t ∈ r.schema.objectTypes, t.name = name → t.key = .str name) →
      (Go.declaredNames file.declarations).count name ≤ 1 := fun _ => Go.count_fileOf hfit hfile
  refine ⟨file, hrun, rfl, hcount, fun hkeys => ?_, fun name => Go.contains_declared,
    fun main name hkeeps => Go.mem_names_of_refFree main hfit hkeeps hrun⟩
  refine List.nodup_iff_count_le_one.mpr fun name => hcount name ?_
  rintro t ht rfl
  exact hkeys t ht

def dresser (upper lower : Entries) : Request where
  files := ⟨[], []⟩
  file := some "dresser.json"
  stamp := "now"
  schema := .map [("title", "Dresser"),
    ("definitions", .map [("Handle", .map [("properties", .map [])])]),
    ("properties", .map
      [("upper_drawer", .map (upper ++ [(.str "properties", .map [])])),
        ("dresser", .map (lower ++ [(.str "properties", .map [])])),
        ("wood", .map [("type", "string"), ("enum", .list [.str "oak"])])])]

/-- The title of the second object keeps it apart from the dresser in Python, and the first one has none. -/
theorem declares_once_dresser : (dresser [] [(.str "title", .str "Base")]).schema.isRefFree = true ∧
      (∃ text, ∃ file : Python.SourceFile,
        (exec (Python.sourceFile .dataclass (dresser [] [(.str "title", .str "Base")])) {}).1 = .ok text ∧
        text = file.text ∧ file.classes.map (·.name) = ["Handle", "UpperDrawer", "Base", "Dresser"]) ∧
      ∃ text file, (exec (Go.sourceFile "main" (dresser [] [])) {}).1 = .ok text ∧
        text = Go.SourceFile.text file ∧ (Go.declaredNames file.declarations).Nodup ∧
        "Dresser" ∈ Go.declaredNames file.declarations := by
  have hfree : (dresser [] [(.str "title", .str "Base")]).schema.isRefFree = true := by decide
  refine ⟨hfree, ?_, ?_⟩
  · obtain ⟨text, htext⟩ : ∃ text,
        (exec (Python.sourceFile .dataclass (dresser [] [(.str "title", .str "Base")])) {}).1 = .ok text :=
      Outcome.eq_ok_of_isOk (by decide +kernel)
    obtain ⟨file, root, _, hfile, hroot, hnames, _⟩ := (declares_once hfree).1 _ _ htext
    have hdresser : (dresser [] [(.str "title", .str "Base")]).schema.titleOrRoot = .ok "Dresser" := by
      decide +kernel
    cases hroot.symm.trans hdresser
    refine ⟨text, file, htext, hfile, hnames.trans ?_⟩
    decide +kernel
  · obtain ⟨text, htext⟩ : ∃ text, (exec (Go.sourceFile "main" (dresser [] [])) {}).1 = .ok text :=
      Outcome.eq_ok_of_isOk (by decide +kernel)
    obtain ⟨file, _, hfile, _, hnodup, _, hroot⟩ := (declares_once (r := dresser [] []) (by decide)).2.2 _ _ htext
    refine ⟨text, file, htext, hfile, hnodup (by decide +kernel), hroot rfl _ ⟨by decide +kernel, rfl⟩⟩

/-- An object without a title is visited under the name of the dresser itself, and one with the title of a
definition is declared beside it. -/
theorem declares_twice : (dresser [] []).schema.isRefFree = true ∧
      (∀ style, (exec (Python.fileOf style (dresser [] [])) {}).1.map (·.classes.map (·.name)) =
        .ok ["Handle", "UpperDrawer", "Dresser", "Dresser"]) ∧
      (exec (TypeScript.fileOf (dresser [] [])) {}).1.map (·.exported.map (·.name)) =
        .ok ["Handle", "UpperDrawer", "Dresser", "Dresser"] ∧
      (dresser [(.str "title", .str "Handle")] []).schema.isRefFree = true ∧
      (exec (Go.fileOf "main" (dresser [(.str "title", .str "Handle")] [])) {}).1.map
        (Go.declaredNames ·.declarations) = .ok ["Handle", "Handle", "DresserWood", "Dresser"] := by
  refine ⟨by decide, fun style => ?_, by decide +kernel, by decide, by decide +kernel⟩
  cases style <;> decide +kernel

end Typewright
