import Typewright.Proofs.PackageExports

/-!
# Types that the index exports

A file of models holds one declaration after the other, each closed by a mark that no head of a declaration holds, so
the index finds in the file what it finds in its declarations.
-/

namespace Typewright

namespace Text

variable {c : Char} {word : List Char} {p : Char → Bool}

theorem afterWord_append (hc : c ∉ word) (xs ys : List Char) :
    afterWord word (xs ++ c :: ys) = (afterWord word xs).map (· ++ c :: ys) := by
  induction word generalizing xs with
  | nil => rfl
  | cons d word ih =>
    rw [List.mem_cons, not_or] at hc
    cases xs with
    | nil => simp [afterWord, Ne.symm hc.1]
    | cons x xs =>
      have hrest := ih hc.2 xs
      unfold afterWord at hrest ⊢
      by_cases hx : d = x
      · simpa [hx] using hrest
      · simp [hx]

theorem takeWhile_append_cons (hc : p c = false) (xs ys : List Char) :
    (xs ++ c :: ys).takeWhile p = xs.takeWhile p ∧ (xs ++ c :: ys).dropWhile p = xs.dropWhile p ++ c :: ys := by
  induction xs with
  | nil => simp [hc]
  | cons x xs ih =>
    rw [List.cons_append, List.takeWhile_cons, List.takeWhile_cons, List.dropWhile_cons, List.dropWhile_cons, ih.1, ih.2]
    cases p x <;> exact ⟨rfl, rfl⟩

theorem afterSomeBlanks_append (hc : isBlank c = false) (xs ys : List Char) :
    afterSomeBlanks (xs ++ c :: ys) = (afterSomeBlanks xs).map (· ++ c :: ys) := by
  cases xs with
  | nil => simp [afterSomeBlanks, hc]
  | cons x xs =>
    rw [List.cons_append, afterSomeBlanks, afterSomeBlanks, afterBlanks, (takeWhile_append_cons hc xs ys).2]
    cases isBlank x <;> rfl

theorem nameAtStart_append (hc : p c = false) (xs ys : List Char) :
    nameAtStart p (xs ++ c :: ys) = (nameAtStart p xs).map fun found => (found.1, found.2 ++ c :: ys) := by
  unfold nameAtStart
  rw [(takeWhile_append_cons hc xs ys).1, (takeWhile_append_cons hc xs ys).2]
  dsimp only
  cases (xs.takeWhile p).isEmpty <;> rfl

end Text

namespace Exports.TypeScript

open Text

variable {kind : String} {c : Char}

/-- The kinds of declarations, in the order in which they are looked for. -/
def kinds : List String := ["interface", "type", "enum"]

/-- The marks that end a declaration, and no part of the head of one. -/
def marks : List Char := ['\x7d', ';', '.']

/-! ## Reading one piece after the other -/

theorem exported_append (hkind : kind ∈ kinds) (hc : c ∈ marks) (xs ys : List Char) :
    exported kind (xs ++ c :: ys) = exported kind xs := by
  have hfacts : ∀ c ∈ marks, isBlank c = false ∧ isWord c = false ∧ c ∉ "export".toList ∧
      ∀ kind ∈ kinds, c ∉ kind.toList := List.forall_iff_forall_mem.mp (by decide +kernel)
  obtain ⟨hblank, hword, hexport, hkinds⟩ := hfacts c hc
  unfold exported
  simp only [Option.bind_eq_bind, afterWord_append hexport, afterSomeBlanks_append hblank,
    afterWord_append (hkinds kind hkind), nameAtStart_append hword, Option.bind_map, Function.comp_def]

theorem findAll_cons_of_ne (hc : c ≠ 'e') (ys : List Char) :
    findAll (exported kind) (c :: ys) = findAll (exported kind) ys := by
  have hnone : exported kind (c :: ys) = none := by
    have hword : afterWord "export".toList (c :: ys) = none := by
      have hfirst : ('e' == c) = false := beq_eq_false_iff_ne.mpr (Ne.symm hc)
      show (if ('e' == c && "xport".toList.isPrefixOf ys) then _ else _) = _
      rw [hfirst]
      rfl
    unfold exported
    rw [hword]
    rfl
  rw [findAll, hnone]

/-- What stands before a mark and what stands after it are read by themselves. -/
theorem findAll_append (hkind : kind ∈ kinds) (hc : c ∈ marks) (xs ys : List Char) :
    findAll (exported kind) (xs ++ c :: ys) = findAll (exported kind) xs ++ findAll (exported kind) ys := by
  induction xs with
  | nil => exact findAll_cons_of_ne (ne_of_mem_of_not_mem hc (by decide)) ys
  | cons x xs ih =>
    have hpattern := exported_append hkind hc (x :: xs) ys
    rw [List.cons_append] at hpattern ⊢
    rw [findAll, findAll, hpattern, ih]
    cases exported kind (x :: xs) <;> rfl

/-- The names that a text declares under a keyword. -/
def read (kind text : String) : List String :=
  findAll (exported kind) text.toList

/-- The text ends with a mark, or with blanks after one. -/
def Ends (text : String) : Prop :=
  ∃ body, ∃ c ∈ marks, ∃ blanks, 'e' ∉ blanks ∧ text.toList = body ++ c :: blanks

theorem findAll_blanks {blanks : List Char} (h : 'e' ∉ blanks) (ys : List Char) :
    findAll (exported kind) (blanks ++ ys) = findAll (exported kind) ys := by
  induction blanks with
  | nil => rfl
  | cons b rest ih =>
    rw [List.mem_cons, not_or] at h
    rw [List.cons_append, findAll_cons_of_ne (Ne.symm h.1), ih h.2]

theorem read_append (hkind : kind ∈ kinds) {text : String} (h : Ends text) (rest : String) :
    read kind (text ++ "\n\n" ++ rest) = read kind text ++ read kind rest := by
  obtain ⟨body, c, hc, blanks, hblanks, htext⟩ := h
  have hnone : findAll (exported kind) blanks = [] := by simpa [findAll] using findAll_blanks hblanks []
  unfold read
  rw [String.toList_append, String.toList_append, htext, List.append_assoc, List.append_assoc, List.cons_append,
    findAll_append hkind hc, findAll_append hkind hc, findAll_blanks hblanks, hnone,
    findAll_blanks (show 'e' ∉ "\n\n".toList by decide), List.append_assoc]
  rfl

theorem read_join (hkind : kind ∈ kinds) {texts : List String} (h : ∀ text ∈ texts, Ends text) :
    read kind (join "\n\n" texts) = texts.flatMap (read kind) := by
  induction texts with
  | nil => rfl
  | cons text rest ih =>
    have hrest := ih fun text htext => h text (.tail _ htext)
    by_cases hne : rest = []
    · simp [hne, join]
    · rw [join, String.intercalate_cons_of_ne_nil hne, read_append hkind (h text (.head _)), List.flatMap_cons, ← hrest]
      rfl

/-! ## Reading a declaration -/

open Typewright.TypeScript

variable {d : Declared}

def isTypeName (name : String) : Bool :=
  !name.isEmpty && name.toList.all fun c => isWord c && !isBlank c

theorem exported_head (hkind : kind ∈ kinds) {name : String} (hname : isTypeName name) (rest : List Char) :
    exported kind (("export " ++ kind ++ " " ++ name).toList ++ ' ' :: rest) = some name := by
  simp only [isTypeName, Bool.and_eq_true, Bool.not_eq_true', String.isEmpty_eq_false_iff, List.all_eq_true] at hname
  have hfound : nameAtStart isWord (afterBlanks (name.toList ++ ' ' :: rest)) = some (name, ' ' :: rest) :=
    nameAtStart_of_all hname.1 (fun d hd => (hname.2 d hd).1) (fun d hd => (hname.2 d hd).2) (by decide +kernel) rest
  have hword : ∀ word s : List Char, afterWord word (word ++ s) = some s := by simp [afterWord]
  have hblanks : ∀ s, afterSomeBlanks (' ' :: s) = some (afterBlanks s) := fun _ => rfl
  have hstart : ∀ s, afterBlanks (kind.toList ++ s) = kind.toList ++ s := by
    have hfirst : ∀ kind ∈ kinds, ∃ c cs, kind.toList = c :: cs ∧ isBlank c = false :=
      List.forall_iff_forall_mem.mp ⟨⟨_, _, rfl, rfl⟩, ⟨_, _, rfl, rfl⟩, _, _, rfl, rfl⟩
    obtain ⟨c, cs, hcs, hc⟩ := hfirst kind hkind
    simp [hcs, afterBlanks, hc]
  have hparts : ("export " ++ kind ++ " " ++ name).toList ++ ' ' :: rest =
      "export".toList ++ ' ' :: (kind.toList ++ ' ' :: (name.toList ++ ' ' :: rest)) := by simp [String.toList_append]
  simp only [exported, hparts, hword, hblanks, hstart, hfound, Option.bind_eq_bind, Option.bind_some, Option.pure_def]

/-- A declaration is read under its kind, by its name. -/
theorem mem_read_of_isClosed (hname : isTypeName d.name) (h : IsClosed d) : ∃ kind ∈ kinds, d.name ∈ read kind d.text := by
  obtain ⟨lines, head, rest, last, -, hhead, hd⟩ := h
  have hcontains : contains d.text head := hd ▸ contains_join (by simp)
  obtain ⟨before, after, htext⟩ := contains_iff.mp hcontains
  have hread : ∀ kind ∈ kinds, ∀ rest, head.toList = ("export " ++ kind ++ " " ++ d.name).toList ++ ' ' :: rest →
      d.name ∈ read kind d.text := by
    intro kind hkind rest heq
    unfold read
    rw [← htext, heq, List.append_assoc, List.append_assoc]
    exact mem_findAll (by simp) (exported_head hkind hname _) before
  rcases hhead with rfl | rfl | ⟨options, rfl⟩
  · exact ⟨"interface", .head _, hread _ (.head _) ['\x7b'] (by simp [String.toList_append])⟩
  · exact ⟨"enum", by decide, hread _ (by decide) ['\x7b'] (by simp [String.toList_append])⟩
  · exact ⟨"type", by decide, hread _ (by decide) ("= " ++ options ++ ";").toList (by simp [String.toList_append])⟩

/-- The kinds and names that a text is read as. -/
def readings (text : String) : List (String × String) :=
  kinds.flatMap fun kind => (read kind text).map (kind, ·)

def shows (kind : String) (d : Declared) : Bool :=
  !(read kind d.text).isEmpty

theorem read_of_single (hkind : kind ∈ kinds) (h : ∃ kind ∈ kinds, d.name ∈ read kind d.text)
    (hone : (readings d.text).length = 1) : read kind d.text = if shows kind d then [d.name] else [] := by
  obtain ⟨own, hown, hread⟩ := h
  obtain ⟨x, hx⟩ := List.length_eq_one_iff.mp hone
  have hmem : ∀ kind ∈ kinds, ∀ name ∈ read kind d.text, (kind, name) = x := by
    intro kind hkind name hname
    rw [← List.mem_singleton, ← hx]
    exact List.mem_flatMap.mpr ⟨kind, hkind, List.mem_map.mpr ⟨name, hname, rfl⟩⟩
  have hlength : (read kind d.text).length ≤ 1 := by
    have hsub : ((read kind d.text).map (kind, ·)).Sublist (readings d.text) :=
      List.sublist_flatten_of_mem (List.mem_map.mpr ⟨kind, hkind, rfl⟩)
    simpa [hone] using hsub.length_le
  unfold shows
  match hnames : read kind d.text, hlength with
  | [], _ => rfl
  | [name], _ =>
    have heq := (hmem kind hkind name (by simp [hnames])).trans (hmem own hown d.name hread).symm
    rw [(Prod.mk.inj heq).2]
    rfl

/-! ## Files -/

/-- The declaration that is exported: the first interface, or else the first type, or else the first enumeration. -/
def chosen (declared : List Declared) : Option Declared :=
  kinds.findSome? fun kind => declared.find? (shows kind)

theorem head?_flatMap_read {ds : List Declared}
    (h : ∀ d ∈ ds, read kind d.text = if shows kind d then [d.name] else []) :
    (ds.flatMap fun d => read kind d.text).head? = (ds.find? (shows kind)).map (·.name) := by
  induction ds with
  | nil => rfl
  | cons d rest ih =>
    rw [List.flatMap_cons, h d (.head _), List.find?_cons]
    cases shows kind d with
    | true => rfl
    | false => exact ih fun d hd => h d (.tail _ hd)

theorem ends_of_isClosed (h : IsClosed d) : Ends d.text := by
  obtain ⟨before, head, rest, last, hlast, -, htext⟩ := h
  have hlines : before ++ head :: (rest ++ [last]) = (before ++ head :: rest) ++ [last] := by simp
  rw [htext, hlines, join, String.intercalate_append_of_ne_nil (by simp) (by simp), String.intercalate_singleton]
  generalize "\n".intercalate (before ++ head :: rest) ++ "\n" = front
  simp only [List.mem_cons, List.not_mem_nil, or_false] at hlast
  rcases hlast with rfl | rfl
  · exact ⟨front.toList, '\x7d', by decide, [], List.not_mem_nil, String.toList_append⟩
  · refine ⟨front.toList ++ "\x7d as const".toList, ';', by decide, [], List.not_mem_nil, ?_⟩
    rw [String.toList_append, List.append_assoc]
    rfl

theorem ends_header (stamp : String) : Ends (Header.line "typescript" stamp) :=
  ⟨("// Code generated by schema2code at " ++ stamp ++ ". DO NOT EDIT").toList, '.', by decide, ['\n'], by decide,
    by simp [Header.line, Header.commentMark, String.toList_append]⟩

theorem declaredType_text {file : SourceFile} (himports : file.imports = []) (hclosed : ∀ d ∈ file.exported, IsClosed d)
    (hnames : ∀ d ∈ file.exported, isTypeName d.name) (hheader : readings (Header.line "typescript" file.stamp) = [])
    (hone : ∀ d ∈ file.exported, (readings d.text).length = 1) :
    declaredType file.text = (chosen file.exported).map (·.name) := by
  have hpieces : ∀ text ∈ Header.line "typescript" file.stamp :: file.exported.map (·.text), Ends text := by
    refine List.forall_mem_cons.mpr ⟨ends_header _, List.forall_mem_map.mpr fun d hd => ?_⟩
    exact ends_of_isClosed (hclosed d hd)
  have hread : ∀ kind ∈ kinds, (read kind file.text).head? = (file.exported.find? (shows kind)).map (·.name) := by
    intro kind hkind
    have hnone : read kind (Header.line "typescript" file.stamp) = [] := by
      have hmap := List.flatMap_eq_nil_iff.mp hheader kind hkind
      exact List.map_eq_nil_iff.mp hmap
    have htext : file.text = join "\n\n" (Header.line "typescript" file.stamp :: file.exported.map (·.text)) := by
      unfold SourceFile.text
      rw [himports]
      rfl
    rw [htext, read_join hkind hpieces, List.flatMap_cons, hnone, List.nil_append, List.flatMap_map]
    exact head?_flatMap_read fun d hd =>
      read_of_single hkind (mem_read_of_isClosed (hnames d hd) (hclosed d hd)) (hone d hd)
  unfold declaredType chosen
  show kinds.findSome? (fun kind => (read kind file.text).head?) = _
  simp only [kinds, List.findSome?_cons, List.findSome?_nil, hread "interface" (by decide), hread "type" (by decide),
    hread "enum" (by decide)]
  cases file.exported.find? (shows "interface") <;> cases file.exported.find? (shows "type") <;>
    cases file.exported.find? (shows "enum") <;> rfl

end Exports.TypeScript

/-! ## Where declarations come from -/

namespace TypeScript

open RefM SeenM

variable {scope : Option RefScope} {entries : Entries} {s s' : RefState}

theorem closed_definitions : SeenM.Returns (fun ds => ∀ d ∈ ds, IsClosed d) (definitionDeclarations scope entries) := by
  induction entries with
  | nil => exact .pure nofun
  | cons e rest ih =>
    refine .of_any fun isSeen => .of_ite (fun _ => ih) fun _ => .of_ask fun isFile _ => .of_any fun _ => ?_
    refine .of_ite (fun _ => ih) fun _ => .of_any fun stands => .of_ite (fun _ => ih) fun _ => ?_
    refine .of_ask fun titled _ => .of_lift (fun _ _ _ hrun => (declared_closed hrun).2) fun first hfirst => ?_
    exact .of_bind ih fun others hothers => .pure (List.forall_mem_cons.mpr ⟨hfirst, hothers⟩)

theorem closed_properties : SeenM.Returns (fun ds => ∀ d ∈ ds, IsClosed d) (propertyDeclarations scope entries) := by
  induction entries with
  | nil => exact .pure nofun
  | cons e rest ih =>
    refine .of_ask fun isFile _ => .of_ite (fun _ => ih) fun _ => ?_
    refine .of_bind (Q := fun first => ∀ d ∈ first.toList, IsClosed d) ?_ fun first hfirst => ?_
    · intro seen s first seen' s' hrun d hd
      obtain ⟨target, known, s1, _, hcases⟩ := Nested.visitProperty_cases hrun
      cases hcases with
      | plain | seen => cases hd
      | visited _ _ _ _ run =>
        obtain ⟨d', s2, hd', hend⟩ := run_lift_ok run
        cases hend
        cases List.mem_singleton.mp hd
        exact (declared_closed hd').2
    refine .of_bind ih fun others hothers => .pure ?_
    rw [Nested.keep_eq]
    exact List.forall_mem_append.mpr ⟨hfirst, hothers⟩

theorem closed_fileOf {r : Request} {file : SourceFile} (hscope : r.scope = none)
    (h : exec (fileOf r) s = (.ok file, s')) :
    ∃ nested root, file = ⟨r.stamp, [], nested ++ [root]⟩ ∧ r.schema.titleOrRoot = .ok root.name ∧
      ∀ d ∈ nested ++ [root], IsClosed d := by
  obtain ⟨imports, s1, himports, h1⟩ := exec_bind_ok h
  unfold TypeScript.imports at himports
  rw [hscope] at himports
  cases himports
  obtain ⟨⟨nested, seen'⟩, s2, hnested, h2⟩ := exec_bind_ok h1
  obtain ⟨root, s3, hroot, h3⟩ := exec_bind_ok h2
  cases h3
  obtain ⟨definitions, properties, seen1, s4, rfl, hdefs, hprops⟩ := Nested.run_inTurn_eq_ok
    (f := definitionDeclarations r.scope) (g := propertyDeclarations r.scope) rfl hnested
  obtain ⟨htitle, hclosed⟩ := declared_closed hroot
  exact ⟨_, root, rfl, htitle, List.forall_mem_append.mpr ⟨List.forall_mem_append.mpr ⟨closed_definitions _ _ _ _ _ hdefs,
    closed_properties _ _ _ _ _ hprops⟩, List.forall_mem_singleton.mpr hclosed⟩⟩

end TypeScript

namespace Exports.TypeScript

open Text Typewright.TypeScript

variable {r : Request} {file : SourceFile} {w w' : World} {dir path stamp : String}

theorem exists_chosen {ds : List Declared} {d : Declared} (hd : d ∈ ds) (h : ∃ kind ∈ kinds, d.name ∈ read kind d.text) :
    ∃ d, chosen ds = some d := by
  obtain ⟨kind, hkind, hread⟩ := h
  have hshows : shows kind d := by
    unfold shows
    cases hnames : read kind d.text with
    | nil => simp [hnames] at hread
    | cons => rfl
  exact Option.isSome_iff_exists.mp (List.findSome?_isSome_iff.mpr ⟨kind, hkind, List.find?_isSome.mpr ⟨d, hd, hshows⟩⟩)

theorem exportedType_of_read {files : FileTree} {bytes : List UInt8} {text : String} (hread : files.read path = .ok bytes)
    (hbytes : decodeText true bytes = .ok text) (stem : String) :
    exportedType files path stem = (declaredType text).getD stem := by
  unfold exportedType
  rw [hread]
  simp only [bind, Except.bind, hbytes]

/-- The index exports one type of a file. The schema itself is declared last, so a type of the same kind that is declared
inside it is exported in its place, and so is one of a kind that is looked for before. -/
theorem index_exports_chosen {s s' : RefState} {bytes : List UInt8} (hscope : r.scope = none)
    (hfile : RefM.exec (fileOf r) s = (.ok file, s')) (hnames : ∀ d ∈ file.exported, isTypeName d.name)
    (hheader : readings (Header.line "typescript" r.stamp) = [])
    (hone : ∀ d ∈ file.exported, (readings d.text).length = 1) (hlisted : path ∈ listed w.files dir)
    (hread : w.files.read path = .ok bytes) (hbytes : decodeText true bytes = .ok file.text)
    (hrun : WorldM.exec (write stamp dir) w = (.ok (), w')) :
    ∃ nested root d lines, file.exported = nested ++ [root] ∧ r.schema.titleOrRoot = .ok root.name ∧
      chosen (nested ++ [root]) = some d ∧
      w.files.write (Path.join dir "index.ts") (fun _ => Output.bytes (join "\n" lines)) = .ok w'.files ∧
      ("export \x7b " ++ d.name ++ " \x7d from './" ++ Path.stem path ++ "';") ∈ lines := by
  obtain ⟨nested, root, rfl, htitle, hclosed⟩ := closed_fileOf hscope hfile
  have hroot : root ∈ nested ++ [root] := by simp
  obtain ⟨d, hd⟩ := exists_chosen hroot (mem_read_of_isClosed (hnames root hroot) (hclosed root hroot))
  have hline : exportLine w.files path = "export \x7b " ++ d.name ++ " \x7d from './" ++ Path.stem path ++ "';" := by
    have hdeclared := declaredType_text rfl hclosed hnames hheader hone
    unfold exportLine
    dsimp only
    rw [exportedType_of_read hread hbytes, hdeclared, hd]
    rfl
  unfold write at hrun
  rw [WorldM.exec_files_bind] at hrun
  dsimp only at hrun
  rw [if_neg (by simpa using List.ne_nil_of_mem hlisted)] at hrun
  refine ⟨nested, root, d, _, rfl, htitle, hd, WorldM.write_eq_ok hrun, ?_⟩
  rw [← hline]
  exact List.mem_append_left _ (List.mem_append_right _ (List.mem_map_of_mem hlisted))

def zoo : Request where
  files := (World.ofFile "zoo.json" "").files
  schema := .map [("title", "Zoo"), ("type", "object"), ("properties", .map
    [("cage", .map [("type", "object"), ("properties", .map
      [("size", .map [("type", "integer")])])])])]
  stamp := ""

def zooFile : SourceFile where
  stamp := ""
  imports := []
  exported :=
    [⟨"Cage", "export interface Cage \x7b\n  size?: number;\n\x7d"⟩, ⟨"Zoo", "export interface Zoo \x7b\n  cage?: Cage;\n\x7d"⟩]

def zooModels : World :=
  .ofFile "zoo.ts" zooFile.text

theorem index_exports_chosen_zoo :
    ∃ nested root d lines, zooFile.exported = nested ++ [root] ∧ zoo.schema.titleOrRoot = .ok root.name ∧
      chosen (nested ++ [root]) = some d ∧
      zooModels.files.write (Path.join "m" "index.ts") (fun _ => Output.bytes (join "\n" lines)) =
        .ok (WorldM.exec (write "" "m") zooModels).2.files ∧
      ("export \x7b " ++ d.name ++ " \x7d from './" ++ Path.stem "m/zoo.ts" ++ "';") ∈ lines := by
  have hfile : (RefM.exec (fileOf zoo) {}).1 = .ok zooFile := by decide +kernel
  have hlisted : "m/zoo.ts" ∈ listed zooModels.files "m" := by
    unfold listed FileTree.pathsLike FileTree.namesLike FileTree.list
    rw [sorted_eq_insertionSort]
    decide +kernel
  have hread : zooModels.files.read "m/zoo.ts" = .ok (Output.bytes zooFile.text) := by decide +kernel
  have hbytes : decodeText true (Output.bytes zooFile.text) = .ok zooFile.text := by decide +kernel
  have hrun : (WorldM.exec (write "" "m") zooModels).1 = .ok () := by
    unfold write listed FileTree.pathsLike FileTree.namesLike FileTree.list
    rw [sorted_eq_insertionSort]
    decide +kernel
  exact index_exports_chosen rfl (Prod.ext hfile rfl) (by decide +kernel) (by decide +kernel) (by decide +kernel) hlisted hread
    hbytes (Prod.ext hrun rfl)

def zooIndex : List String :=
  [Header.line "typescript" "", "", "// Export all generated types", "", "export \x7b Cage \x7d from './zoo';", ""]

/-- The index exports the type inside the schema and not the one for the schema. -/
theorem index_misses_schema : (RefM.exec (fileOf zoo) {}).1 = .ok zooFile ∧ zoo.schema.titleOrRoot = .ok "Zoo" ∧
      (WorldM.exec (write "" "m") zooModels).2.files.read "m/index.ts" = .ok (Output.bytes (join "\n" zooIndex)) ∧
      "export \x7b Zoo \x7d from './zoo';" ∉ zooIndex := by
  unfold write listed FileTree.pathsLike FileTree.namesLike FileTree.list
  rw [sorted_eq_insertionSort]
  exact ⟨by decide +kernel, by decide +kernel, by decide +kernel, by decide +kernel⟩

end Exports.TypeScript

end Typewright
