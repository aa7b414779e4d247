import Typewright.Proofs.WithoutReferences

/-!
# The names of the types inside a schema

A type inside a schema has two names.
-/

namespace Typewright

open RefM Value

variable {α : Type} {s s' : RefState} {schema target v : Value} {name text title : String}
  {known : Option String} {seen : List Scalar} {entries : Entries} {style : PythonStyle} {lines : List String}

theorem RefM.exec_eq_of_fst {x : RefM α} {r : Except Fault α} (h : (exec x s).1 = r) : exec x s = (r, (exec x s).2) :=
  Prod.ext h rfl

theorem RefM.exec_eq_of_any {x : RefM α} {p : α → Bool}
    (h : (exec x s).1.toOption.any p) : ∃ a, exec x s = (.ok a, (exec x s).2) ∧ p a := by
  cases hx : (exec x s).1 with
  | error e =>
    rw [hx] at h
    cases h
  | ok a =>
    rw [hx] at h
    exact ⟨a, exec_eq_of_fst hx, h⟩

theorem RefM.fst_exec_map_eq_ok {β : Type} {x : RefM α} {f : α → β} {b : β}
    (h : (exec (x >>= fun a => pure (f a)) s).1 = .ok b) : ∃ a s', exec x s = (.ok a, s') ∧ b = f a := by
  rw [exec_bind] at h
  rcases hx : exec x s with ⟨e | a, s'⟩
  · rw [hx] at h
    cases h
  · rw [hx] at h
    cases h
    exact ⟨a, s', rfl, rfl⟩

/-! ## The name that a title gives -/

namespace Value

def typeName (title : Value) : String :=
  match title.withoutBlanks with
  | .ok name => if name.isEmpty then "Root" else name
  | .error _ => ""

theorem titleOrRoot_eq (h : v.titleOrRoot = .ok name) :
    ∃ title, v.fieldD "title" (.str "") = .ok title ∧ name = title.typeName := by
  obtain ⟨text, htext, hend⟩ := bind_ok h
  obtain ⟨title, htitle, hblanks⟩ := bind_ok htext
  cases hend
  refine ⟨title, htitle, ?_⟩
  unfold typeName
  rw [hblanks]

theorem titleOrRoot_of_field {title : Value} (htitle : v.field "title" = .ok title)
    (h : v.titleOrRoot = .ok name) : name = title.typeName := by
  obtain ⟨title', htitle', rfl⟩ := titleOrRoot_eq h
  cases htitle'.symm.trans (fieldD_of_field htitle)
  rfl

end Value

namespace Nested

variable {scope : Option RefScope} {schema : Value} {s s' : RefState}

theorem propertyTarget_fit {strict : Bool} (hfit : Fit strict schema)
    (h : exec (propertyTarget scope schema) s = (.ok (target, known), s')) : target = schema ∧ known = none := by
  obtain ⟨ref, hbehind, rfl⟩ := propertyTarget_cases h
  cases hbehind with
  | own => exact ⟨rfl, rfl⟩
  | reference here refers resolved =>
    obtain ⟨fault, hfault, _⟩ := hfit.field_ref
    cases hfault.symm.trans refers

end Nested

/-! ## Types by name -/

/-- A type inside a schema: the name that it is visited under, and the name that it is declared under. -/
structure InnerType where
  key : Scalar
  name : String
deriving DecidableEq

namespace InnerType

def ofDefinition (definition : Scalar × Value) : InnerType :=
  ⟨definition.1, (Value.scalar definition.1).typeName⟩

/-- The type of a property that leads to this schema, if it is an object. `known` is the name that the
reference of the property gives to it. -/
def ofTarget (known : Option String) (name : Scalar) (target : Value) : Option InnerType :=
  if target.isMapWith "properties" then
    (do
      let key ← Nested.visitName known name
      let title ← target.fieldD "title" (.str key)
      return ⟨.str key, title.typeName⟩ : Except Fault InnerType).toOption
  else none

def ofProperty (property : Scalar × Value) : Option InnerType :=
  ofTarget none property.1 property.2

/-- The types that are left once those are passed over that were seen. -/
def unseen (seen : List Scalar) : List InnerType → List InnerType
  | [] => []
  | t :: rest =>
    if Seen.has seen t.key then unseen seen rest else t :: unseen (Seen.add seen t.key) rest

/-- The names that were seen when the types are done. -/
def marked (seen : List Scalar) (types : List InnerType) : List Scalar :=
  types.foldl (fun seen t => Seen.add seen t.key) seen

theorem marked_append (seen : List Scalar) (types more : List InnerType) :
    marked seen (types ++ more) = marked (marked seen types) more :=
  List.foldl_append

theorem unseen_append (seen : List Scalar) (types more : List InnerType) :
    unseen seen (types ++ more) = unseen seen types ++ unseen (marked seen types) more := by
  induction types generalizing seen with
  | nil => rfl
  | cons t rest ih =>
    show (if Seen.has seen t.key then unseen seen (rest ++ more)
        else t :: unseen (Seen.add seen t.key) (rest ++ more)) =
      (if Seen.has seen t.key then unseen seen rest else t :: unseen (Seen.add seen t.key) rest) ++
        unseen (marked (Seen.add seen t.key) rest) more
    by_cases hseen : Seen.has seen t.key
    · have hsame : Seen.add seen t.key = seen := if_pos hseen
      rw [if_pos hseen, if_pos hseen, hsame, ih]
    · rw [if_neg hseen, if_neg hseen, ih, List.cons_append]

theorem unseen_singleton_of_has {t : InnerType} (h : Seen.has seen t.key) : unseen seen [t] = [] :=
  if_pos h

theorem unseen_singleton {t : InnerType} (h : Seen.has seen t.key = false) : unseen seen [t] = [t] := by
  show (if Seen.has seen t.key then [] else [t]) = [t]
  rw [h]
  rfl

theorem mem_of_mem_unseen {types : List InnerType} {t : InnerType} (h : t ∈ unseen seen types) : t ∈ types := by
  induction types generalizing seen with
  | nil => cases h
  | cons u rest ih =>
    unfold unseen at h
    split at h
    · exact .tail _ (ih h)
    · rcases List.mem_cons.mp h with rfl | h
      · exact .head _
      · exact .tail _ (ih h)

theorem has_of_mem_unseen {types : List InnerType} {t : InnerType}
    (h : t ∈ unseen seen types) : Seen.has seen t.key = false := by
  induction types generalizing seen with
  | nil => cases h
  | cons u rest ih =>
    unfold unseen at h
    split at h
    · exact ih h
    · next hfresh =>
      rcases List.mem_cons.mp h with rfl | h
      · simpa using hfresh
      · exact Bool.eq_false_iff.mpr fun hseen =>
          Bool.eq_false_iff.mp (ih h) (Seen.has_add_of_has hseen)

theorem nodup_names_unseen (seen : List Scalar) {types : List InnerType}
    (h : ∀ t ∈ types, t.key = .str t.name) : ((unseen seen types).map (·.name)).Nodup := by
  induction types generalizing seen with
  | nil => exact .nil
  | cons t rest ih =>
    have hrest := fun u hu => h u (.tail _ hu)
    unfold unseen
    split
    · exact ih seen hrest
    rw [List.map_cons, List.nodup_cons]
    refine ⟨fun hmem => ?_, ih _ hrest⟩
    obtain ⟨u, hu, hname⟩ := List.mem_map.mp hmem
    have hkey : u.key = t.key := by
      rw [hrest u (mem_of_mem_unseen hu), h t (.head _), hname]
    have hfresh := has_of_mem_unseen hu
    rw [hkey, Seen.has_add_self] at hfresh
    cases hfresh

end InnerType

namespace Value

def objectTypes (schema : Value) : List InnerType :=
  (schema.entriesOf "properties").filterMap InnerType.ofProperty

/-- The definitions of a schema and the objects among its properties, as types. -/
def candidates (schema : Value) : List InnerType :=
  (schema.entriesOf "definitions").map InnerType.ofDefinition ++ schema.objectTypes

def innerTypes (schema : Value) : List InnerType :=
  InnerType.unseen [] schema.candidates

end Value

/-! ## Runs that declare types by name -/

/-- What is declared for types: one declaration for each that was not seen, under its name. -/
structure Lists (Q : Declared → Prop) (types : List InnerType) (seen : List Scalar) (out : List Declared)
    (seen' : List Scalar) : Prop where
  names : out.map (·.name) = (InnerType.unseen seen types).map (·.name)
  marked : seen' = InnerType.marked seen types
  each : ∀ d ∈ out, Q d

namespace Lists

variable {Q : Declared → Prop} {types more : List InnerType} {t : InnerType}
  {seen seen1 seen2 : List Scalar} {out out' : List Declared} {d : Declared}

theorem nil (seen : List Scalar) : Lists Q [] seen [] seen :=
  ⟨rfl, rfl, nofun⟩

theorem append (h : Lists Q types seen out seen1) (h' : Lists Q more seen1 out' seen2) :
    Lists Q (types ++ more) seen (out ++ out') seen2 where
  names := by
    rw [InnerType.unseen_append, List.map_append, List.map_append, h.names, h'.names, h.marked]
  marked := by rw [InnerType.marked_append, h'.marked, h.marked]
  each d hd := (List.mem_append.mp hd).elim (h.each d) (h'.each d)

theorem passed (h : Seen.has seen t.key) : Lists Q [t] seen [] seen where
  names := by rw [InnerType.unseen_singleton_of_has h, List.map_nil, List.map_nil]
  marked := (if_pos h).symm
  each := nofun

theorem single (h : Seen.has seen t.key = false) (hname : d.name = t.name) (hd : Q d) :
    Lists Q [t] seen [d] (Seen.add seen t.key) where
  names := by rw [InnerType.unseen_singleton h, List.map_singleton, List.map_singleton, hname]
  marked := rfl
  each d' hd' := List.mem_singleton.mp hd' ▸ hd

end Lists

namespace Nested

variable {Q : Declared → Prop} {visit : Value → Scalar → SeenM (Option Declared)} {name : Scalar}
  {schema : Value} {seen seen' : List Scalar} {s s' : RefState}

/-- A visit always declares something, under the name that the title gives, and sees no other names. -/
def Names (Q : Declared → Prop) (visit : Value → Scalar → SeenM (Option Declared)) : Prop :=
  ∀ body key seen s out seen' s', exec ((visit body key).run seen) s = (.ok (out, seen'), s') →
    seen' = seen ∧ ∃ d, out = some d ∧ body.titleOrRoot = .ok d.name ∧ Q d

theorem typeName_withTitle {body : Value} {within : Within target}
    (h : target.withTitle name = .ok within) (hbody : within.val = body)
    (htext : body.titleOrRoot = .ok text) : text = (Value.scalar name).typeName := by
  subst hbody
  exact titleOrRoot_of_field (field_withTitle h) htext

theorem lists_visitDefinition (hvisit : Names Q visit) {out : Option Declared}
    (h : exec ((visitDefinition none visit name schema).run seen) s = (.ok (out, seen'), s')) :
    Lists Q [.ofDefinition (name, schema)] seen out.toList seen' := by
  cases visitDefinition_cases h with
  | seen known => exact .passed known
  | elsewhere fresh isRef stands => cases stands
  | visited fresh titled reached run =>
    obtain ⟨rfl, d, rfl, hname, hd⟩ := hvisit _ _ _ _ _ _ _ run
    exact .single fresh (typeName_withTitle titled rfl hname) hd

theorem ofTarget_of_entitled {nested : Value} {typeName : String}
    (object : schema.isMapWith "properties") (called : visitName known name = .ok typeName)
    (titled : entitled schema (.str typeName) = .ok nested) (htext : nested.titleOrRoot = .ok text) :
    InnerType.ofTarget known name schema = some ⟨.str typeName, text⟩ := by
  have htitle : ∃ title, schema.fieldD "title" (.str typeName) = .ok title ∧ text = title.typeName := by
    rcases field_of_entitled titled with ⟨htitle, hno⟩ | ⟨rfl, hyes⟩
    · exact ⟨_, fieldD_of_has_false (isMap_of_isMapWith object) hno,
        titleOrRoot_of_field htitle htext⟩
    · obtain ⟨title, htitle⟩ := field_of_has (isMap_of_isMapWith object) hyes
      exact ⟨title, fieldD_of_field htitle, titleOrRoot_of_field htitle htext⟩
  obtain ⟨title, htitle, rfl⟩ := htitle
  unfold InnerType.ofTarget
  rw [if_pos object, called, Outcome.ok_bind, htitle]
  rfl

theorem key_of_ofTarget {typeName : String} {t : InnerType}
    (called : visitName known name = .ok typeName) (h : InnerType.ofTarget known name schema = some t) :
    t.key = .str typeName := by
  unfold InnerType.ofTarget at h
  split at h
  · rw [called, Outcome.ok_bind] at h
    cases htitle : schema.fieldD "title" (.str typeName) with
    | ok title =>
      rw [htitle] at h
      cases h
      rfl
    | error e =>
      rw [htitle] at h
      cases h
  · cases h

theorem lists_visitProperty (hvisit : Names Q visit) {out : Option Declared}
    (h : exec ((visitProperty none visit name schema).run seen) s = (.ok (out, seen'), s')) :
    Lists Q (InnerType.ofProperty (name, schema)).toList seen out.toList seen' := by
  obtain ⟨target, known, s1, htarget, hcases⟩ := visitProperty_cases h
  obtain ⟨rfl, rfl, rfl⟩ := propertyTarget_eq_ok htarget (.inl rfl)
  cases hcases with
  | plain _ plain =>
    have hnone : InnerType.ofProperty (name, target) = none := if_neg (Bool.eq_false_iff.mp plain)
    rw [hnone]
    exact .nil _
  | seen called hseen =>
    -- a property that was seen may still be no object
    cases htype : InnerType.ofProperty (name, target) with
    | none => exact .nil _
    | some t =>
      refine .passed ?_
      rcases called with hknown | called
      · cases hknown
      · rwa [key_of_ofTarget called htype]
  | visited called object fresh titled run =>
    obtain ⟨rfl, d, rfl, hname, hd⟩ := hvisit _ _ _ _ _ _ _ run
    have htype : InnerType.ofProperty (name, target) = some ⟨_, d.name⟩ :=
      ofTarget_of_entitled object called titled hname
    rw [htype]
    exact .single fresh rfl hd

theorem lists_walkDefinitions (hvisit : Names Q visit) {out : List Declared}
    (h : Walk (visitDefinition none visit) entries seen s out seen' s') :
    Lists Q (entries.map .ofDefinition) seen out seen' := by
  induction h with
  | nil => exact .nil _
  | cons head _ ih => exact (lists_visitDefinition hvisit head).append ih

theorem lists_walkProperties (hvisit : Names Q visit) {out : List Declared}
    (h : Walk (visitProperty none visit) entries seen s out seen' s') :
    Lists Q (entries.filterMap InnerType.ofProperty) seen out seen' := by
  induction h with
  | nil => exact .nil _
  | cons head _ ih =>
    rw [← List.singleton_append, List.filterMap_append]
    exact (lists_visitProperty hvisit head).append ih

theorem lists_visitTypes (hvisit : Names Q visit) {out : List Declared}
    (h : exec ((visitTypes none visit schema).run []) s = (.ok (out, seen'), s')) :
    out.map (·.name) = schema.innerTypes.map (·.name) ∧ ∀ d ∈ out, Q d := by
  obtain ⟨definitions, properties, seen1, s1, rfl, hdefs, hprops⟩ := visitTypes_cases h
  have hlists := (lists_walkDefinitions hvisit hdefs).append (lists_walkProperties hvisit hprops)
  exact ⟨hlists.names, hlists.each⟩

end Nested

/-! ## Python -/

namespace Python

/-- The text of a declaration begins a class of its name. -/
def IsClass (d : Declared) : Prop :=
  ∃ before ∈ [[], ["@dataclass"]], ∃ bases ∈ [":", "(BaseModel):", "(str, Enum):", "(Enum):"], ∃ rest,
    d.text = Text.join "\n" (before ++ ("class " ++ d.name ++ bases) :: rest)

def classHeads (name : String) : List (List String) :=
  [["class " ++ name ++ "(BaseModel):"], ["@dataclass", "class " ++ name ++ ":"], ["class " ++ name ++ "(str, Enum):"],
    ["class " ++ name ++ "(Enum):"]]

def Begins (name text : String) : Prop :=
  ∃ head ∈ classHeads name, ∃ rest, text = Text.join "\n" (head ++ rest)

theorem begins_enumLines (h : enumLines style title schema = .ok lines) : Begins title (Text.join "\n" lines) := by
  obtain ⟨description, _, h1⟩ := bind_ok h
  obtain ⟨values, _, h2⟩ := bind_ok h1
  obtain ⟨descriptions, _, h3⟩ := bind_ok h2
  obtain ⟨names, _, h4⟩ := bind_ok h3
  obtain ⟨type, _, h5⟩ := bind_ok h4
  have hhead : ∀ (ofTexts : Bool) (rest : List String), Begins title (Text.join "\n"
      (("class " ++ title ++ (if ofTexts then "(str, Enum):" else "(Enum):")) :: rest)) := by
    intro ofTexts rest
    refine ⟨[_], ?_, rest, rfl⟩
    cases ofTexts <;> simp [classHeads]
  dsimp only at h5
  split at h5
  · cases h5
    exact hhead _ _
  obtain ⟨items, _, h6⟩ := bind_ok h5
  obtain ⟨members, _, h7⟩ := bind_ok h6
  cases h7
  exact hhead _ _

theorem begins_classHead (style : PythonStyle) (title : String) (rest : List String) :
    Begins title (Text.join "\n" (classHead style title ++ rest)) := by
  refine ⟨_, ?_, rest, rfl⟩
  cases style <;> simp [classHeads, classHead]

theorem begins_declaration {scope : Option RefScope} (htitle : schema.titleOrRoot = .ok title)
    (h : exec (declaration scope style schema) s = (.ok text, s')) : Begins title text := by
  obtain ⟨title', htitle', h3⟩ := exec_ask_ok h
  cases htitle.symm.trans htitle'
  obtain ⟨description, _, h4⟩ := exec_ask_ok h3
  obtain ⟨required, _, h5⟩ := exec_ask_ok h4
  obtain ⟨hasEnum, _, h6⟩ := exec_ask_ok h5
  cases hasEnum with
  | true =>
    obtain ⟨lines, hlines, h7⟩ := exec_ask_ok h6
    cases h7
    exact begins_enumLines hlines
  | false =>
    obtain ⟨properties, _, h7⟩ := exec_ask_ok h6
    split at h7
    · cases h7
      rw [List.append_assoc]
      exact begins_classHead _ _ _
    obtain ⟨entries, _, h8⟩ := exec_ask_ok h7
    obtain ⟨fields, s2, _, h9⟩ := exec_bind_ok h8
    cases h9
    rw [List.append_assoc, List.append_assoc]
    exact begins_classHead _ _ _

theorem declared_eq_ok {scope : Option RefScope} {d : Declared}
    (h : exec (declared scope style schema) s = (.ok d, s')) : schema.titleOrRoot = .ok d.name ∧ IsClass d := by
  obtain ⟨title, htitle, h1⟩ := exec_ask_ok h
  obtain ⟨text, s1, htext, h2⟩ := exec_bind_ok h1
  cases h2
  obtain ⟨head, hhead, rest, rfl⟩ := begins_declaration htitle htext
  refine ⟨htitle, ?_⟩
  simp only [classHeads, List.mem_cons, List.not_mem_nil, or_false] at hhead
  rcases hhead with rfl | rfl | rfl | rfl
  · exact ⟨[], by simp, "(BaseModel):", by simp, rest, rfl⟩
  · exact ⟨["@dataclass"], by simp, ":", by simp, rest, rfl⟩
  · exact ⟨[], by simp, "(str, Enum):", by simp, rest, rfl⟩
  · exact ⟨[], by simp, "(Enum):", by simp, rest, rfl⟩

variable {style : PythonStyle} {r : Request} {file : SourceFile} {s s' : RefState}

theorem names_visit (hscope : r.scope = none) (imported : List String) :
    Nested.Names IsClass (visit style r imported) := by
  intro body key seen s out seen' s' h
  obtain ⟨leftOut, hleftOut, h1⟩ := run_ask_ok h
  have hno : leftOut = false := by
    unfold isLeftOut at hleftOut
    rw [hscope] at hleftOut
    cases hleftOut
    rfl
  subst hno
  obtain ⟨d, s1, hd, h2⟩ := run_lift_ok h1
  cases h2
  exact ⟨rfl, d, rfl, declared_eq_ok hd⟩

theorem fileOf_cases (h : exec (fileOf style r) s = (.ok file, s')) :
    ∃ fromFiles more nested seen root s1 s2, exec (fileImports r) s = (.ok fromFiles, s1) ∧
      styleImports style r.schema = .ok more ∧ file.imports = commonImports ++ fromFiles ++ more ∧
      exec ((Nested.visitTypes r.scope (visit style r (importedTypes file.imports)) r.schema).run []) s1 =
        (.ok (nested, seen), s2) ∧ r.schema.titleOrRoot = .ok root ∧
      if (importedTypes file.imports).contains root then file.classes = nested ∧ s' = s2
      else ∃ d, exec (declared r.scope style r.schema) s2 = (.ok d, s') ∧ file.classes = nested ++ [d] := by
  obtain ⟨fromFiles, s1, hfromFiles, h1⟩ := exec_bind_ok h
  obtain ⟨more, hmore, h2⟩ := exec_ask_ok h1
  obtain ⟨⟨nested, seen⟩, s2, hnested, h3⟩ := exec_bind_ok h2
  obtain ⟨root, hroot, h4⟩ := exec_ask_ok h3
  have himports : file.imports = commonImports ++ fromFiles ++ more := by
    dsimp only at h4
    split at h4
    · cases h4
      rfl
    · obtain ⟨classes, s3, _, hend⟩ := exec_bind_ok h4
      cases hend
      rfl
  refine ⟨fromFiles, more, nested, seen, root, s1, s2, hfromFiles, hmore, himports, ?_, hroot, ?_⟩
  · rw [himports]
    exact hnested
  rw [himports]
  dsimp only at h4
  split at h4
  · next hcontains =>
    rw [if_pos hcontains]
    cases h4
    exact ⟨List.append_nil _, rfl⟩
  · next hcontains =>
    rw [if_neg hcontains]
    obtain ⟨d, s3, hd, hend⟩ := exec_bind_ok h4
    cases hend
    exact ⟨d, hd, rfl⟩

theorem fileImports_eq_nil (hscope : r.scope = none) {fromFiles : List String}
    (h : exec (fileImports r) s = (.ok fromFiles, s')) : fromFiles = [] := by
  unfold fileImports at h
  rw [hscope] at h
  cases h
  rfl

theorem names_fileOf (hscope : r.scope = none) (h : exec (fileOf style r) s = (.ok file, s')) :
    ∃ root, r.schema.titleOrRoot = .ok root ∧ file.classes.map (·.name) = r.schema.innerTypes.map (·.name) ++ [root] ∧
      ∀ d ∈ file.classes, IsClass d := by
  obtain ⟨fromFiles, more, nested, seen, root, s1, s2, hfromFiles, hmore, himports, hnested, hroot, hend⟩ :=
    fileOf_cases h
  rw [fileImports_eq_nil hscope hfromFiles] at himports
  rw [himports, importedTypes_eq_nil hmore] at hnested hend
  obtain ⟨d, hd, hclasses⟩ := hend
  rw [hscope] at hnested
  obtain ⟨hnames, heach⟩ := Nested.lists_visitTypes (names_visit hscope []) hnested
  obtain ⟨hdroot, hclass⟩ := declared_eq_ok hd
  cases hroot.symm.trans hdroot
  rw [hclasses]
  refine ⟨d.name, hroot, ?_, ?_⟩
  · rw [List.map_append, hnames, List.map_singleton]
  intro d' hd'
  rcases List.mem_append.mp hd' with hd' | hd'
  · exact heach d' hd'
  · exact List.mem_singleton.mp hd' ▸ hclass

end Python

/-! ## TypeScript -/

namespace TypeScript

def IsHead (name line : String) : Prop :=
  line = "export interface " ++ name ++ " \x7b" ∨ line = "export enum " ++ name ++ " \x7b" ∨
    ∃ options, line = "export type " ++ name ++ " = " ++ options ++ ";"

def IsExport (d : Declared) : Prop :=
  ∃ before head rest, IsHead d.name head ∧ d.text = Text.join "\n" (before ++ head :: rest)

def IsClosed (d : Declared) : Prop :=
  ∃ before head rest, ∃ last ∈ ["\x7d", "\x7d as const;"], IsHead d.name head ∧
    d.text = Text.join "\n" (before ++ head :: (rest ++ [last]))

theorem isClosed_enumeration (h : enumeration title schema = .ok lines) : IsClosed ⟨title, Text.join "\n" lines⟩ := by
  obtain ⟨description, _, h1⟩ := bind_ok h
  obtain ⟨group, _, h2⟩ := bind_ok h1
  obtain ⟨values, _, h3⟩ := bind_ok h2
  obtain ⟨descriptions, _, h4⟩ := bind_ok h3
  obtain ⟨names, _, h5⟩ := bind_ok h4
  obtain ⟨type, _, h6⟩ := bind_ok h5
  obtain ⟨members, _, h7⟩ := bind_ok h6
  cases h7
  split
  · exact ⟨_, _, _, _, .tail _ (.head _), .inr (.inr ⟨_, rfl⟩), rfl⟩
  · exact ⟨_, _, _, _, .head _, .inr (.inl rfl), rfl⟩

theorem declared_closed {scope : TypeScriptScope} {d : Declared}
    (h : exec (declared scope schema) s = (.ok d, s')) : schema.titleOrRoot = .ok d.name ∧ IsClosed d := by
  obtain ⟨title, htitle, h1⟩ := exec_ask_ok h
  obtain ⟨text, s1, htext, h2⟩ := exec_bind_ok h1
  cases h2
  refine ⟨htitle, ?_⟩
  obtain ⟨title', htitle', h3⟩ := exec_ask_ok htext
  cases htitle.symm.trans htitle'
  obtain ⟨description, _, h4⟩ := exec_ask_ok h3
  obtain ⟨hasEnum, _, h5⟩ := exec_ask_ok h4
  cases hasEnum with
  | true =>
    obtain ⟨lines, hlines, h6⟩ := exec_ask_ok h5
    cases h6
    exact isClosed_enumeration hlines
  | false =>
    obtain ⟨required, _, h6⟩ := exec_ask_ok h5
    obtain ⟨entries, _, h7⟩ := exec_ask_ok h6
    obtain ⟨fields, s2, _, h8⟩ := exec_bind_ok h7
    cases h8
    exact ⟨docLines "" description.saying, _, fields.flatMap Field.lines, _, .head _, .inl rfl, by simp⟩

theorem declared_eq_ok {scope : TypeScriptScope} {d : Declared}
    (h : exec (declared scope schema) s = (.ok d, s')) : schema.titleOrRoot = .ok d.name ∧ IsExport d := by
  obtain ⟨htitle, before, head, rest, last, _, hhead, htext⟩ := declared_closed h
  exact ⟨htitle, before, head, rest ++ [last], hhead, htext⟩

variable {strict : Bool} {seen seen' : List Scalar} {s s' : RefState} {entries : Entries}
  {out : List Declared}

theorem lists_definitionDeclarations (hfit : ∀ e ∈ entries, Fit strict e.2)
    (h : exec ((definitionDeclarations none entries).run seen) s = (.ok (out, seen'), s')) :
    Lists IsExport (entries.map InnerType.ofDefinition) seen out seen' := by
  induction entries generalizing seen s out with
  | nil =>
    cases h
    exact .nil _
  | cons e rest ih =>
    obtain ⟨name, schema⟩ := e
    have hrest := fun e he => hfit e (.tail _ he)
    obtain ⟨isSeen, seen1, s1, hseen, h1⟩ := run_bind_ok h
    cases hseen
    cases hname : Seen.has seen name with
    | true =>
      rw [hname] at h1
      exact (Lists.passed (t := .ofDefinition (name, schema)) hname).append (ih hrest h1)
    | false =>
      rw [hname] at h1
      obtain ⟨isFile, hisFile, h2⟩ := run_ask_ok h1
      obtain ⟨_, seen2, s2, hmark, h3⟩ := run_bind_ok h2
      cases hmark
      cases Python.isFileRef_eq_ok (hfit _ (.head _)) hisFile
      obtain ⟨stands, s2, hstands, h4⟩ := run_lift_ok h3
      cases hstands
      obtain ⟨titled, htitled, h5⟩ := run_ask_ok h4
      obtain ⟨first, s3, hfirst, h6⟩ := run_lift_ok h5
      obtain ⟨others, seen3, s4, hothers, h7⟩ := run_bind_ok h6
      cases h7
      obtain ⟨hdname, hexport⟩ := declared_eq_ok hfirst
      exact (Lists.single (t := .ofDefinition (name, schema)) hname
        (Nested.typeName_withTitle htitled rfl hdname) hexport).append (ih hrest hothers)

theorem lists_propertyDeclarations (hfit : ∀ e ∈ entries, Fit strict e.2)
    (h : exec ((propertyDeclarations none entries).run seen) s = (.ok (out, seen'), s')) :
    Lists IsExport (entries.filterMap InnerType.ofProperty) seen out seen' := by
  induction entries generalizing seen s out with
  | nil =>
    cases h
    exact .nil _
  | cons e rest ih =>
    obtain ⟨isFile, hisFile, h1⟩ := run_ask_ok h
    cases Python.isFileRef_eq_ok (hfit _ (.head _)) hisFile
    obtain ⟨first, seen1, s1, hfirst, h2⟩ := run_bind_ok h1
    obtain ⟨others, seen2, s2, hothers, h3⟩ := run_bind_ok h2
    cases h3
    rw [Nested.keep_eq, ← List.singleton_append, List.filterMap_append]
    refine (Nested.lists_visitProperty ?_ hfirst).append (ih (fun e he => hfit e (.tail _ he)) hothers)
    intro body key seen s out seen' s' hvisit
    obtain ⟨d, s3, hd, hend⟩ := run_lift_ok hvisit
    cases hend
    exact ⟨rfl, d, rfl, declared_eq_ok hd⟩

theorem names_fileOf {r : Request} {file : SourceFile} (hscope : r.scope = none)
    (hfit : Fit strict r.schema) (h : exec (fileOf r) s = (.ok file, s')) :
    ∃ root, r.schema.titleOrRoot = .ok root ∧ file.exported.map (·.name) = r.schema.innerTypes.map (·.name) ++ [root] ∧
      ∀ d ∈ file.exported, IsExport d := by
  obtain ⟨imports, s1, _, h1⟩ := exec_bind_ok h
  obtain ⟨⟨nested, seen'⟩, s2, hnested, h2⟩ := exec_bind_ok h1
  obtain ⟨d, s3, hd, h3⟩ := exec_bind_ok h2
  cases h3
  rw [hscope] at hnested
  obtain ⟨definitions, properties, seen1, s4, rfl, hdefs, hprops⟩ := Nested.run_inTurn_eq_ok
    (f := definitionDeclarations none) (g := propertyDeclarations none) rfl hnested
  have hentries : ∀ name, ∀ e ∈ r.schema.entriesOf name, Fit strict e.2 :=
    fun _ _ he => hfit.entry (entriesAt_of_mem_entriesOf he) he
  have hlists := (lists_definitionDeclarations (hentries _) hdefs).append
    (lists_propertyDeclarations (hentries _) hprops)
  obtain ⟨hroot, hexport⟩ := declared_eq_ok hd
  refine ⟨d.name, hroot, ?_, ?_⟩
  · rw [List.map_append, hlists.names, List.map_singleton]
    rfl
  intro d' hd'
  rcases List.mem_append.mp hd' with hd' | hd'
  · exact hlists.each d' hd'
  · exact List.mem_singleton.mp hd' ▸ hexport

end TypeScript

end Typewright
