import Typewright.Cli.Run
import Typewright.Proofs.FileTrees
import Typewright.Proofs.RefRun
import Mathlib.Data.List.Sort
import Mathlib.Data.String.Basic

/-!
# Files that a call keeps

A call that may not overwrite looks for each of its source files before it writes it, but not for the index of the
output directory.
-/

namespace Typewright

variable {w : World} {a : Arguments} {change : List UInt8 → List UInt8} {mode : WriteMode}
  {I : FileTree → Prop}

variable {α β : Type}

theorem Text.sorted_eq_insertionSort : Text.sorted = List.insertionSort (· ≤ ·) :=
  funext fun xs => List.mergeSort_eq_insertionSort (· ≤ ·) xs

/-! ## Runs of work on files -/

namespace WorldM

/-- What work comes to from a world: its result or fault, and the world that it leaves. -/
def exec (work : WorldM α) (w : World) : Except Fault α × World :=
  work.run.run w

theorem exec_bind (x : WorldM α) (f : α → WorldM β) (w : World) : exec (x >>= f) w =
      match exec x w with
      | (.ok a, w') => exec (f a) w'
      | (.error e, w') => (.error e, w') := by
  unfold exec
  rw [ExceptT.run_bind, StateT.run_bind]
  rcases x.run.run w with ⟨e | a, w'⟩ <;> rfl

theorem exec_bind_ok {x : WorldM α} {f : α → WorldM β} (h : exec (x >>= f) w = (.ok b, w')) :
    ∃ a w1, exec x w = (.ok a, w1) ∧ exec (f a) w1 = (.ok b, w') := by
  rw [exec_bind] at h
  split at h
  · exact ⟨_, _, ‹_›, h⟩
  · cases h

theorem exec_tryCatch (x : WorldM α) (handler : Fault → WorldM α) (w : World) : exec (tryCatch x handler) w =
      match exec x w with
      | (.ok a, w') => (.ok a, w')
      | (.error e, w') => exec (handler e) w' := by
  unfold exec
  rw [ExceptT.run_tryCatch, StateT.run_bind]
  rcases x.run.run w with ⟨e | a, w'⟩ <;> rfl

theorem exec_files_bind (f : FileTree → WorldM α) (w : World) : exec (files >>= f) w = exec (f w.files) w := rfl

/-- Work after which the files have a property that they had before, however it ends. -/
def Keeps (I : FileTree → Prop) (work : WorldM α) : Prop :=
  ∀ w, I w.files → I (exec work w).2.files

variable {I : FileTree → Prop}

theorem keeps_pure (a : α) : Keeps I (pure a) := fun _ h => h

theorem keeps_lift (r : Except Fault α) : Keeps I (liftM r : WorldM α) := fun _ h => h

theorem keeps_files : Keeps I files := fun _ h => h

theorem keeps_print (line : String) : Keeps I (print line) := fun _ h => h

theorem keeps_complain (lines : List String) : Keeps I (complain lines) := fun _ h => h

theorem exec_bind_of_keeps {x : WorldM α} {f : α → WorldM β} {Q : Except Fault β × World → Prop}
    (hx : Keeps I x) (h : I w.files) (herror : ∀ e w', I w'.files → Q (.error e, w'))
    (hok : ∀ a w', I w'.files → Q (exec (f a) w')) : Q (exec (x >>= f) w) := by
  rw [exec_bind]
  have hkept := hx w h
  rcases hrun : exec x w with ⟨e | a, w'⟩
  all_goals rw [hrun] at hkept
  · exact herror e w' hkept
  · exact hok a w' hkept

theorem keeps_bind {x : WorldM α} {f : α → WorldM β} (hx : Keeps I x) (hf : ∀ a, Keeps I (f a)) :
    Keeps I (x >>= f) := fun _ h =>
  exec_bind_of_keeps (Q := fun r => I r.2.files) hx h (fun _ _ h => h) fun a w' h' => hf a w' h'

theorem keeps_tryCatch {x : WorldM α} {handler : Fault → WorldM α} (hx : Keeps I x)
    (hhandler : ∀ e, Keeps I (handler e)) : Keeps I (tryCatch x handler) := by
  intro w h
  rw [exec_tryCatch]
  have hkept := hx w h
  rcases hrun : exec x w with ⟨e | a, w'⟩
  all_goals rw [hrun] at hkept
  · exact hhandler e w' hkept
  · exact hkept

theorem keeps_following (work : RefM α) : Keeps I (following work) := by
  unfold following
  rcases work.run.run {} with ⟨result, state⟩
  exact keeps_bind (keeps_complain _) fun _ => keeps_lift _

end WorldM

open WorldM
open Output (bytes)

/-! ## Source files -/

namespace FileTree

variable {t t' : FileTree} {path : String}

theorem write_eq_ok (h : t.write path change = .ok t') :
    (∃ names content, t.locate path = .ok ⟨names, some (.file content)⟩ ∧ t' = t.put names (.file (change content))) ∨
    ∃ names, t.locate path = .ok ⟨names, none⟩ ∧ t' = t.put names (.file (change [])) := by
  unfold write at h
  split at h
  · split at h <;> cases h
  split at h
  · next names content hlocate =>
    cases h
    exact .inl ⟨names, content, hlocate, rfl⟩
  · cases h
  · next names hlocate =>
    cases h
    exact .inr ⟨names, hlocate, rfl⟩
  · cases h

/-- A path with nothing at it before its directories are made has no file at it afterwards: a file is
written there without loss. -/
theorem Grows.write {made : FileTree} (hmade : t.Grows made)
    (hsame : ∀ e, t.find? (t.namesOf path) = some e → made = t) (hno : t.has path = false)
    (hwrite : made.write path change = .ok t') : t.Grows t' := by
  rcases write_eq_ok hwrite with ⟨names, content, hlocate, rfl⟩ | ⟨names, hlocate, rfl⟩
  · obtain ⟨hfile, -⟩ := hmade.rooted.find?_of_locate hlocate
    dsimp only at hfile
    have hnames : names = t.namesOf path := by
      have hmadeNames := names_of_locate hlocate
      unfold namesOf at hmadeNames ⊢
      rwa [hmade.cwd] at hmadeNames
    -- had the place been taken before, all its directories had been there, and the path had led to it
    have hfree : t.find? names = none := by
      cases hthere : t.find? names with
      | none => rfl
      | some e =>
        rw [hnames] at hthere
        rw [hsame e hthere] at hlocate
        unfold has at hno
        rw [hlocate] at hno
        cases hno
    refine ⟨fun other e hother => ?_, (put_cwd _ _ _).trans hmade.cwd, ?_⟩
    · rw [find?_put_of_ne]
      · exact hmade.keeps other e hother
      · rintro rfl
        cases hfree.symm.trans hother
    · refine hmade.rooted.put (hmade.rooted.parent _ _ hfile) ?_
      rw [hfile]
      exact nofun
  · exact hmade.trans (hmade.rooted.grows_put hlocate _)

/-- A tree that keeps all entries but the one under the names of a path. -/
structure GrowsBut (path : String) (t t' : FileTree) : Prop where
  keeps : ∀ names e, names ≠ t.namesOf path → t.find? names = some e → t'.find? names = some e
  cwd : t'.cwd = t.cwd

theorem Grows.but (h : t.Grows t') (path : String) : t.GrowsBut path t' :=
  ⟨fun names e _ => h.keeps names e, h.cwd⟩

theorem GrowsBut.write {t'' : FileTree} (h : t.GrowsBut path t')
    (hwrite : t'.write path change = .ok t'') : t.GrowsBut path t'' := by
  have hput : ∃ content, t'' = t'.put (t.namesOf path) (.file content) := by
    have hnames : t'.namesOf path = t.namesOf path := by
      unfold namesOf
      rw [h.cwd]
    rcases write_eq_ok hwrite with ⟨names, content, hlocate, rfl⟩ | ⟨names, hlocate, rfl⟩
    · exact ⟨_, by rw [← hnames, ← names_of_locate hlocate]⟩
    · exact ⟨_, by rw [← hnames, ← names_of_locate hlocate]⟩
  obtain ⟨content, rfl⟩ := hput
  refine ⟨fun names e hne hfound => ?_, (put_cwd _ _ _).trans h.cwd⟩
  rw [find?_put_of_ne _ hne]
  exact h.keeps names e hne hfound

end FileTree

namespace Output

variable {t : FileTree}

theorem exec_makeParents (path : String) (w : World) : exec (makeParents path) w =
      ((w.files.makeParents path).1, { w with files := (w.files.makeParents path).2 }) := by
  unfold makeParents
  rw [exec_files_bind]
  generalize w.files.makeParents path = made
  rfl

theorem writeFile_keeps (hmode : mode ≠ .append) (mayCreate : Bool)
    (path content : String) : Keeps t.Grows (writeFile mode mayCreate true path content) := by
  intro w h
  unfold writeFile
  rw [exec_files_bind]
  dsimp only
  split
  · exact h
  split
  · exact h
  · next hkept =>
    have hno : w.files.has path = false := by
      rw [Bool.and_true, decide_eq_true hmode, Bool.and_true] at hkept
      exact Bool.eq_false_iff.mpr hkept
    have hmade := h.rooted.makeParents_grows path
    have hsame : ∀ e, w.files.find? (w.files.namesOf path) = some e →
        (w.files.makeParents path).2 = w.files := fun e hthere => by
      rw [h.rooted.makeParents_of_there hthere]
    rw [exec_bind, exec_makeParents]
    generalize w.files.makeParents path = parents at hmade hsame
    rcases parents with ⟨e | u, made⟩
    · exact h.trans hmade
    dsimp only
    rw [exec_files_bind]
    split
    · next hwrite => exact h.trans (hmade.write hsame hno hwrite)
    · exact h.trans hmade

theorem writeFiles_keeps (hmode : mode ≠ .append) (mayCreate : Bool)
    (sources : Table String) : Keeps t.Grows (writeFiles mode mayCreate true sources) := by
  induction sources with
  | nil => exact keeps_pure _
  | cons source rest ih =>
    unfold writeFiles
    split
    · exact keeps_bind (keeps_print _) fun _ => ih
    · refine keeps_bind (writeFile_keeps hmode mayCreate _ _) fun _ => ?_
      exact keeps_bind ih fun _ => keeps_pure _

end Output

/-! ## The index of a directory -/

variable {t : FileTree}

theorem FileTree.GrowsBut.exec_write {path : String} (h : t.GrowsBut path w.files) (content : List UInt8)
    {next : WorldM Unit} (hnext : Keeps (t.GrowsBut path) next) :
    t.GrowsBut path (exec (do
      WorldM.setFiles (← w.files.write path fun _ => content)
      next) w).2.files := by
  cases hwrite : w.files.write path fun _ => content with
  | error e => exact h
  | ok files => exact hnext { w with files := files } (h.write hwrite)

namespace Exports

theorem Python.modules_keeps (dir : String) (found : Table (List String))
    (names : List String) : Keeps I (Python.modules dir found names) := by
  induction names generalizing found with
  | nil => exact keeps_pure _
  | cons name rest ih =>
    unfold Python.modules
    refine keeps_bind keeps_files fun files => ?_
    split
    · exact keeps_bind (keeps_lift _) fun _ => ih _
    · exact keeps_bind (keeps_complain _) fun _ => ih _

theorem Python.write_keeps (dir : String) : Keeps (t.GrowsBut (Path.join dir "__init__.py")) (Python.write dir) := by
  unfold Python.write
  refine keeps_bind (keeps_print _) fun _ => keeps_bind keeps_files fun files => ?_
  refine keeps_bind (keeps_lift _) fun names => keeps_bind (modules_keeps dir [] _) fun found => ?_
  intro w h
  rw [exec_files_bind]
  exact h.exec_write _ (keeps_print _)

theorem TypeScript.write_keeps (stamp dir : String) :
    Keeps (t.GrowsBut (Path.join dir "index.ts")) (TypeScript.write stamp dir) := by
  intro w h
  unfold TypeScript.write
  rw [exec_files_bind]
  dsimp only
  split
  · exact h
  · exact h.exec_write _ (keeps_print _)

end Exports

namespace Cli

def indexName (language : String) : Option String :=
  if language = "python" then some "__init__.py"
  else if language = "typescript" then some "index.ts"
  else none

def indexPath (a : Arguments) : Option String :=
  (indexName a.language).map (Path.join (Path.directory a.output))

theorem writeExports_keeps {stamp : String}
    (python : a.language = "python" → Keeps I (Exports.Python.write (Path.directory a.output)))
    (typeScript : a.language = "typescript" → Keeps I (Exports.TypeScript.write stamp (Path.directory a.output))) :
    Keeps I (writeExports stamp a) := by
  unfold writeExports
  dsimp only
  split
  · exact keeps_pure _
  refine keeps_bind keeps_files fun files => ?_
  split
  · exact keeps_pure _
  refine keeps_tryCatch ?_ fun _ => keeps_complain _
  split
  · next h => exact python h
  · split
    · next h => exact typeScript h
    · exact keeps_pure _

theorem writeExports_growsBut (stamp : String) (a : Arguments) : Keeps t.Grows (writeExports stamp a) ∨
      ∃ path, indexPath a = some path ∧ Keeps (t.GrowsBut path) (writeExports stamp a) := by
  unfold indexPath indexName
  by_cases hpython : a.language = "python"
  · rw [if_pos hpython]
    refine .inr ⟨_, rfl, writeExports_keeps (fun _ => Exports.Python.write_keeps _) fun h => ?_⟩
    rw [hpython] at h
    exact absurd h (by decide)
  rw [if_neg hpython]
  by_cases htypeScript : a.language = "typescript"
  · rw [if_pos htypeScript]
    exact .inr ⟨_, rfl, writeExports_keeps (fun h => absurd h hpython) fun _ => Exports.TypeScript.write_keeps stamp _⟩
  · exact .inl (writeExports_keeps (fun h => absurd h hpython) fun h => absurd h htypeScript)

theorem writeExports_returns (stamp : String) (a : Arguments) (w : World) :
    (exec (writeExports stamp a) w).1 = .ok () := by
  unfold writeExports
  dsimp only
  split
  · rfl
  rw [exec_files_bind]
  split
  · rfl
  · rw [exec_tryCatch]
    split <;> rfl

/-! ## A call -/

/-- What a call that may not overwrite leaves of a tree: all of it, or all but the index if it ends well. -/
def Leaves (a : Arguments) (t : FileTree) (r : Except Fault Nat × World) : Prop :=
  t.Grows r.2.files ∨ r.1 = .ok 0 ∧ ∃ path, indexPath a = some path ∧ t.GrowsBut path r.2.files

theorem generate_leaves (stamp : String) (hkeep : a.settings.noOverwrite)
    (hmode : a.settings.mode ≠ "append") (rooted : w.files.Rooted) : Leaves a w.files (exec (generate stamp a) w) := by
  have hfault : ∀ e w', w.files.Grows w'.files → Leaves a w.files (.error e, w') := fun _ _ h => .inl h
  have hcreate : (if a.settings.mode = "append" then WriteMode.append else .create) ≠ .append := by
    rw [if_neg hmode]
    exact nofun
  unfold generate
  rw [exec_files_bind]
  rcases Load.load w.files .on a.schemaFile with ⟨lines, loaded⟩
  refine exec_bind_of_keeps (keeps_complain lines) (.refl rooted) hfault fun _ w1 h1 => ?_
  refine exec_bind_of_keeps (keeps_lift loaded) h1 hfault fun schema w2 h2 => ?_
  refine exec_bind_of_keeps (keeps_following _) h2 hfault fun sources w3 h3 => ?_
  dsimp only
  rw [hkeep]
  refine exec_bind_of_keeps (Output.writeFiles_keeps hcreate _ sources) h3 hfault fun written w4 h4 => ?_
  split
  · exact .inl h4
  have hreturns := writeExports_returns stamp a w4
  rw [exec_bind]
  rcases hexports : exec (writeExports stamp a) w4 with ⟨result, w5⟩
  rw [hexports] at hreturns
  cases hreturns
  rcases writeExports_growsBut (t := w.files) stamp a with hkept | ⟨path, hpath, hkept⟩
  · have h5 := hkept w4 h4
    rw [hexports] at h5
    exact .inl h5
  · have h5 := hkept w4 (h4.but path)
    rw [hexports] at h5
    exact .inr ⟨rfl, path, hpath, h5⟩

theorem generateOrComplain_leaves (stamp : String) (hkeep : a.settings.noOverwrite)
    (hmode : a.settings.mode ≠ "append") (rooted : w.files.Rooted) :
    Leaves a w.files (exec (generateOrComplain stamp a) w) := by
  have hleaves := generate_leaves stamp hkeep hmode rooted
  unfold generateOrComplain
  rw [exec_tryCatch]
  rcases hrun : exec (generate stamp a) w with ⟨e | code, w'⟩
  all_goals rw [hrun] at hleaves
  · rcases hleaves with hgrows | ⟨hok, -⟩
    · exact .inl hgrows
    · cases hok
  · exact hleaves

theorem run_of_arguments (stamp : String) {argv : List String} (hargv : arguments argv = .ok a) (w : World) :
    (run stamp argv w).2 = (exec (generateOrComplain stamp a) w).2 ∧
      ∀ code, (exec (generateOrComplain stamp a) w).1 = .ok code → (run stamp argv w).1 = .finished code := by
  unfold run exec
  rw [hargv]
  dsimp only
  rcases (generateOrComplain stamp a).run.run w with ⟨e | code, w'⟩
  · exact ⟨rfl, nofun⟩
  · refine ⟨rfl, fun code' hcode => ?_⟩
    cases hcode
    rfl

/-- The arguments ask that no file is overwritten, and not that files are added to. -/
def MayNotOverwrite (argv : List String) : Prop :=
  ∀ a, arguments argv = .ok a → a.settings.noOverwrite = true ∧ a.settings.mode ≠ "append"

/-- A call that may not overwrite keeps every file and directory, whatever the tree, the schema, the
language and the output path. The one exception is the index of the output directory, which is not looked
for: a call that ends well may have written it anew. A call that fails keeps it too. -/
theorem kept_or_index (stamp : String) {argv : List String} {w : World} (flags : MayNotOverwrite argv)
    (rooted : w.files.Rooted) {names : List String} {e : Entry} (there : w.files.find? names = some e) :
    (run stamp argv w).2.files.find? names = some e ∨ (run stamp argv w).1 = .finished 0 ∧
        ∃ a path, arguments argv = .ok a ∧ indexPath a = some path ∧ names = w.files.namesOf path := by
  cases hargv : arguments argv with
  | error cause =>
    -- arguments that cannot be read, and questions for help, end the call before it begins
    have hrun : run stamp argv w = stop cause w := by
      unfold run
      rw [hargv]
    rw [hrun]
    cases cause <;> exact .inl there
  | ok a =>
    obtain ⟨hkeep, hmode⟩ := flags a hargv
    obtain ⟨hworld, hending⟩ := run_of_arguments stamp hargv w
    rw [hworld]
    rcases generateOrComplain_leaves stamp hkeep hmode rooted with hgrows | ⟨hok, path, hpath, hgrows⟩
    · exact .inl (hgrows.keeps names e there)
    · by_cases hnames : names = w.files.namesOf path
      · exact .inr ⟨hending 0 hok, a, path, rfl, hpath, hnames⟩
      · exact .inl (hgrows.keeps names e hnames there)

def models (files : Table String) : World where
  files :=
    { cwd := ["w"]
      entries :=
        [(["w"], .directory),
          (["w", "s.json"], .file (bytes "\x7b\"title\": \"S\"\x7d")),
          (["w", "out"], .directory),
          (["w", "out", "index.ts"], .file (bytes "x\n"))] ++
        files.map fun x => (["w", "out", x.1], .file (bytes x.2)) }

def modelCall : List String :=
  ["s.json", "-l", "typescript", "-o", "out/S.ts", "--no-overwrite"]

theorem arguments_modelCall : arguments modelCall = .ok ⟨"s.json", "typescript", "out/S.ts",
      { schemaFile := some "s.json", language := some "typescript", output := some "out/S.ts",
        noOverwrite := true }⟩ := by
  decide +kernel

theorem modelCall_mayNotOverwrite : MayNotOverwrite modelCall := by
  intro a ha
  cases arguments_modelCall.symm.trans ha
  exact ⟨rfl, by decide⟩

theorem models_rooted (files : Table String) : (models files).files.Rooted := by
  refine FileTree.rooted_of_entries (fun x hx => ?_) rfl fun name hname => ?_
  · rcases List.mem_append.mp hx with hx | hx
    · simp only [List.mem_cons, List.not_mem_nil, or_false] at hx
      rcases hx with rfl | rfl | rfl | rfl <;> rfl
    · obtain ⟨y, -, rfl⟩ := List.mem_map.mp hx
      rfl
  · rw [List.mem_singleton.mp hname]
    exact ⟨by decide, by decide, by decide, by decide⟩

theorem kept_or_index_models : (run "" modelCall (models [("S.ts", "y\n")])).2.files.find? ["w", "out", "S.ts"] =
      some (.file (Output.bytes "y\n")) := by
  have hthere : (models [("S.ts", "y\n")]).files.find? ["w", "out", "S.ts"] =
      some (.file (bytes "y\n")) := by decide +kernel
  have hkept := kept_or_index "" modelCall_mayNotOverwrite (models_rooted [("S.ts", "y\n")]) hthere
  rcases hkept with hkept | ⟨-, a, path, hargs, hpath, hnames⟩
  · exact hkept
  -- the model is not the index
  cases arguments_modelCall.symm.trans hargs
  cases hpath
  exact absurd hnames (by decide +kernel)

/-- The index is there already too, and it is lost. -/
theorem index_overwritten_models :
    (models []).files.find? ["w", "out", "index.ts"] = some (.file (Output.bytes "x\n")) ∧
      (run "" modelCall (models [])).1 = .finished 0 ∧
      (run "" modelCall (models [])).2.files.find? ["w", "out", "index.ts"] ≠ some (.file (Output.bytes "x\n")) := by
  unfold run generateOrComplain generate writeExports Exports.TypeScript.write Exports.TypeScript.listed
    FileTree.pathsLike FileTree.namesLike FileTree.list
  rw [Text.sorted_eq_insertionSort]
  decide +kernel

end Cli

end Typewright
