import Typewright.Proofs.PythonImports
import Typewright.Proofs.WarmTables

/-!
# Import statements for the types that are used

The statements for a set of types are those for all types that import one of the set.
-/

namespace Typewright

open RefM Reference

variable {α β γ δ : Type} {scope : RefScope} {s s' : RefState} {v ref : Value} {used : List String}

/-! ## Runs alongside each other -/

namespace RefM

/-- From a state in which something holds, two pieces of work come to related results or to the same fault, and to
one state, in which it still holds. -/
def TwinFrom (I : RefState → Prop) (Q : α → β → Prop) (x : RefM α) (y : RefM β) : Prop :=
  ∀ s, I s → Outcome.Paired Q (exec x s).1 (exec y s).1 ∧ (exec x s).2 = (exec y s).2 ∧ I (exec x s).2

namespace TwinFrom

variable {I : RefState → Prop} {Q : α → β → Prop} {R : γ → δ → Prop} {x : RefM α} {y : RefM β}

theorem pure {a : α} {b : β} (h : Q a b) : TwinFrom I Q (Pure.pure a) (Pure.pure b) :=
  fun _ hs => ⟨.ok h, rfl, hs⟩

theorem throw (e : Fault) : TwinFrom I Q (throw e) (throw e) :=
  fun _ hs => ⟨.error e, rfl, hs⟩

theorem of_bind {f : α → RefM γ} {g : β → RefM δ} (h : TwinFrom I Q x y)
    (hf : ∀ a b, Q a b → TwinFrom I R (f a) (g b)) : TwinFrom I R (x >>= f) (y >>= g) := by
  intro s hs
  obtain ⟨hresult, hstate, hend⟩ := h s hs
  rw [exec_bind, exec_bind]
  generalize exec x s = out at hresult hstate hend ⊢
  generalize exec y s = out' at hresult hstate ⊢
  obtain ⟨r, t⟩ := out
  obtain ⟨r', t'⟩ := out'
  cases hstate
  cases hresult with
  | ok h => exact hf _ _ h t hend
  | error e => exact ⟨.error e, rfl, hend⟩

theorem of_shared {f : α → RefM γ} {g : α → RefM δ} {A : α → Prop}
    (hx : ∀ s r t, I s → exec x s = (r, t) → I t ∧ ∀ a, r = .ok a → A a)
    (hf : ∀ a, A a → TwinFrom I R (f a) (g a)) : TwinFrom I R (x >>= f) (x >>= g) := by
  refine of_bind (Q := fun a b => a = b ∧ A a) (fun s hs => ?_) fun a _ h => h.1 ▸ hf a h.2
  rcases hrun : exec x s with ⟨r, t⟩
  obtain ⟨hend, hresult⟩ := hx s r t hs hrun
  refine ⟨?_, rfl, hend⟩
  cases r with
  | ok a => exact .ok ⟨rfl, hresult a rfl⟩
  | error e => exact .error e

theorem of_ask {r : Except Fault α} {f : α → RefM γ} {g : α → RefM δ}
    (hf : ∀ a, r = .ok a → TwinFrom I R (f a) (g a)) : TwinFrom I R (liftM r >>= f) (liftM r >>= g) :=
  of_shared (fun _ _ _ hs hrun => by cases hrun; exact ⟨hs, fun _ => id⟩) hf

theorem of_ite {c : Prop} [Decidable c] {x' : RefM α} {y' : RefM β} (hx : TwinFrom I Q x y)
    (hy : TwinFrom I Q x' y') : TwinFrom I Q (if c then x else x') (if c then y else y') := by
  split
  · exact hx
  · exact hy

end TwinFrom

end RefM

/-! ## References without blanks -/

namespace Value

/-- Whether the value, if it is text, is without blanks. -/
def isSolid : Value → Bool
  | .str text => !text.toList.contains ' '
  | _ => true

/-- Whether the reference on a map is without blanks. -/
def solidHere : Value → Bool
  | .map es => (Entries.find? es (.str "$ref")).all isSolid
  | _ => true

def hasSolidRefs (v : Value) : Bool :=
  v.everywhere solidHere

end Value

namespace Reference

theorem carries_solid : Carries (·.hasSolidRefs = true) (·.isSolid = true) where
  inside h inside := Value.everywhere_of_inside h inside
  ref h hfield := by
    obtain ⟨es, rfl, found⟩ := Value.field_eq_ok hfield
    have hhere := (Value.everywhere_map_iff.mp h).1
    rwa [Value.solidHere, found] at hhere

/-- No reference has a blank: none in the root schema, in a file, or in a document that is loaded. -/
structure Solid (scope : RefScope) (s : RefState) : Prop where
  root : scope.root.hasSolidRefs
  files : ∀ ref v, readOf scope ref = .ok v → v.hasSolidRefs
  loaded : ∀ d ∈ s.tables.loaded, d.2.hasSolidRefs

theorem Solid.later (h : Solid scope s) (later : Changes scope s s') : Solid scope s' := by
  refine keep_of_steps (fun s s' hc h => ⟨h.root, h.files, ?_⟩) later h
  cases hc with
  | resolving hstep =>
    cases hstep with
    | document outer fresh read =>
      intro d hd
      rcases Table.eq_or_mem_of_mem_put hd with rfl | hd
      · exact h.files _ _ read
      · exact h.loaded d hd
    | _ => exact h.loaded
  | _ => exact h.loaded

theorem Solid.destination (h : Solid scope s) {fuel : Nat} {text : String}
    (hlead : destination scope.root fuel text = .ok (.definition v)) : v.hasSolidRefs := by
  induction fuel generalizing text with
  | zero => cases hlead
  | succ fuel ih =>
    unfold Reference.destination at hlead
    split at hlead
    · obtain ⟨found, hfound, hlead⟩ := bind_ok hlead
      cases found with
      | none => cases hlead
      | some definition =>
        obtain ⟨isRef, _, hlead⟩ := bind_ok hlead
        split at hlead
        · cases hlead
          obtain ⟨definitions, hdefs, hfield⟩ := bind_ok (definition?_eq_some hfound)
          exact carries_solid.inside (carries_solid.inside h.root (Value.inside_of_field hdefs))
            (Value.inside_of_field hfield)
        obtain ⟨target, htarget, hlead⟩ := bind_ok hlead
        obtain ⟨next, hnext, hlead⟩ := bind_ok hlead
        split at hlead
        · exact ih hlead
        · cases hlead
    · split at hlead <;> cases hlead

theorem Solid.resolve? {r : Except Fault (Option Value)} (h : Solid scope s)
    (hrun : exec (scope.resolve? ref) s = (r, s')) :
    Solid scope s' ∧ ∀ found, r = .ok found → ∀ v, found = some v → v.hasSolidRefs := by
  have hfollows : Follows (some scope) KindFault (scope.resolve? ref) := inferInstance
  have hlater := h.later (hfollows.changes hrun)
  refine ⟨hlater, ?_⟩
  rintro _ rfl v rfl
  cases settled_of_exec_resolve (resolved_of_resolved? hrun) with
  | definition lead =>
    obtain ⟨text, htext, hlead⟩ := bind_ok lead
    exact h.destination hlead
  | file lead found _ => exact hlater.loaded _ (Table.mem_of_get? found)

end Reference

/-! ## Sifting -/

namespace Python

/-- The name that an import statement imports: what comes after the module. -/
def importedName (line : String) : String :=
  .ofList (((line.toList.drop 6).dropWhile (· != ' ')).drop 8)

theorem importedName_importLine {module : String} (solid : ' ' ∉ module.toList) (name : String) :
    importedName (importLine module name) = name := by
  have hmodule : ∀ c ∈ module.toList, (c != ' ') = true := fun c hc => bne_iff_ne.mpr fun heq => solid (heq ▸ hc)
  simp [importedName, importLine, List.dropWhile_append_of_pos hmodule]

theorem blank_not_mem_moduleOf {text : String} (solid : ' ' ∉ text.toList) : ' ' ∉ (moduleOf text).toList := by
  intro h
  have hreplaced := Path.mem_of_mem_fileName (Path.mem_fileName_of_mem_stem h)
  simp only [Text.replace, String.toList_ofList] at hreplaced
  exact solid (Text.mem_of_mem_replaceChars (Text.mem_of_mem_replaceChars hreplaced))

/-- All statements and those for some types: each imports a type from a module without blanks, and stands in both
lists if the type is used. -/
structure Sifted (used all sifted : List String) : Prop where
  nodup : all.Nodup
  form : ∀ line ∈ all, ∃ module, ' ' ∉ module.toList ∧ line = importLine module (importedName line)
  eq : sifted = all.filter fun line => used.contains (importedName line)

variable {xs ys : List String} {next next' : List String → Value → RefM (List String)}

theorem Sifted.addImport (h : Sifted used xs ys) {text : String} (solid : ' ' ∉ text.toList) (type : String) :
    Sifted used (addImport none xs text type) (addImport (some used) ys text type) := by
  obtain ⟨hnodup, hform, rfl⟩ := h
  have hmodule := blank_not_mem_moduleOf solid
  have hname : importedName (importStatement text type) = type := importedName_importLine hmodule type
  refine ⟨nodup_addImport hnodup _ _, fun line hline => ?_, ?_⟩
  · rcases mem_addImport.mp hline with hline | hline
    · exact hform line hline
    unfold Python.addImport at hline
    split at hline
    · cases hline
    · obtain rfl := (Text.mem_add_iff.mp hline).resolve_left List.not_mem_nil
      exact ⟨moduleOf text, hmodule, by rw [hname]; rfl⟩
  · unfold Python.addImport
    cases type.isEmpty <;> simp [Text.filter_add, hname]

theorem Sifted.tableStatements (h : Sifted used xs ys) {refs : Table String}
    (known : ∀ r ∈ refs, ' ' ∉ r.1.toList) (types : String → Option String) :
    Sifted used (tableStatements none refs types xs) (tableStatements (some used) refs types ys) := by
  induction refs generalizing xs ys with
  | nil => exact h
  | cons r rest ih =>
    obtain ⟨hr, hrest⟩ := List.forall_mem_cons.mp known
    exact ih (h.addImport hr _) hrest

theorem Sifted.sorted (h : Sifted used xs ys) : Sifted used (Text.sorted xs) (Text.sorted ys) := by
  obtain ⟨hnodup, hform, rfl⟩ := h
  have hperm : (Text.sorted xs).Perm xs := List.mergeSort_perm xs _
  refine ⟨hperm.nodup_iff.mpr hnodup, fun line hline => hform line (hperm.mem_iff.mp hline), ?_⟩
  refine List.Perm.eq_of_pairwise (fun a b _ _ => String.le_antisymm) (Text.pairwise_sorted _)
    ((Text.pairwise_sorted xs).filter _) ?_
  exact (List.mergeSort_perm _ _).trans (hperm.symm.filter _)

theorem sifted_importByRef (hnext : ∀ xs ys schema, Sifted used xs ys → schema.hasSolidRefs →
      TwinFrom (Solid scope) (Sifted used) (next xs schema) (next' ys schema))
    (h : Sifted used xs ys) (solid : ref.isSolid) : TwinFrom (Solid scope) (Sifted used)
      (importByRef scope none next xs ref) (importByRef scope (some used) next' ys ref) := by
  unfold importByRef
  refine .of_ask fun text htext => .of_ite (.pure h) ?_
  obtain rfl := textOf_eq_ok htext
  have hblank : ' ' ∉ text.toList := by simpa [Value.isSolid] using solid
  refine .of_shared (A := fun _ => True) (fun s r t hs hrun => by cases hrun; exact ⟨hs, fun _ _ => trivial⟩)
    fun t _ => .of_shared (fun s r t hs => hs.resolve?) fun found hfound => ?_
  have hknown := h.addImport hblank ((t.types.get? (scope.path text)).getD "")
  cases found with
  | none => exact .pure hknown
  | some schema =>
    refine .of_ite (.pure hknown) (.of_ask fun title _ => ?_)
    exact hnext _ _ schema (hknown.addImport hblank title) (hfound schema rfl)

theorem sifted_importVisitor (scope : RefScope) (used : List String) (fuel : Nat) :
    RelatedVisitors (fun _ _ => ()) (Sifted used) (fun _ => TwinFrom (Solid scope) (Sifted used)) (·.isSolid = true)
      (importVisitor scope none fuel) (importVisitor scope (some used) fuel) := by
  induction fuel with
  | zero => exact ⟨fun _ _ _ _ _ => .throw _, fun _ _ _ _ _ => .throw _, .inl ⟨rfl, rfl⟩⟩
  | succ fuel ih =>
    have hnext : ∀ xs ys schema, Sifted used xs ys → schema.hasSolidRefs → TwinFrom (Solid scope) (Sifted used)
        (walk (importVisitor scope none fuel) xs schema) (walk (importVisitor scope (some used) fuel) ys schema) :=
      fun _ _ schema h => related_walk ⟨.pure, .of_bind, .of_ask⟩ carries_solid ih h schema
    refine ⟨fun xs ys ref h solid => ?_, fun xs ys ref h => sifted_importByRef hnext h, .inl ⟨rfl, rfl⟩⟩
    refine .of_bind (sifted_importByRef hnext h solid) fun xs ys h => ?_
    refine .of_shared (fun s r t hs => hs.resolve?) fun found hfound => ?_
    cases found with
    | none => exact .pure h
    | some schema => exact .of_ite (hnext _ _ schema h (hfound schema rfl)) (.pure h)

theorem sifted_importsOfDocuments {fuel size : Nat} (h : Sifted used xs ys) {documents : Table Value}
    (hsolid : ∀ d ∈ documents, d.2.hasSolidRefs) : TwinFrom (Solid scope) (Sifted used)
      (importsOfDocuments (importVisitor scope none fuel) size xs documents)
      (importsOfDocuments (importVisitor scope (some used) fuel) size ys documents) := by
  induction documents generalizing xs ys with
  | nil => exact .pure h
  | cons d rest ih =>
    obtain ⟨hd, hrest⟩ := List.forall_mem_cons.mp hsolid
    unfold importsOfDocuments
    refine .of_bind (related_walk ⟨.pure, .of_bind, .of_ask⟩ carries_solid (sifted_importVisitor scope used fuel) h
      d.2 hd) fun xs ys h => ?_
    refine .of_shared (A := fun _ => True) (fun s r t hs hrun => by cases hrun; exact ⟨hs, fun _ _ => trivial⟩)
      fun t _ => .of_ite (.of_bind (Q := fun _ _ => True) (.throw _) fun _ _ _ => ih h hrest) (ih h hrest)

theorem sifted_allStatements (h : Sifted used xs ys) :
    TwinFrom (Solid scope) (fun all lines => Sifted used all lines ∧ all.Pairwise (· ≤ ·))
      (allStatements scope none xs) (allStatements scope (some used) ys) := by
  refine .of_shared (A := fun t => ∀ d ∈ t.loaded, d.2.hasSolidRefs) (fun s r t hs hrun => ?_)
    fun t ht => .of_bind (sifted_importsOfDocuments h ht) fun xs _ h => .pure ⟨h.sorted, Text.pairwise_sorted xs⟩
  cases hrun
  exact ⟨hs, fun _ ha => Except.ok.inj ha ▸ hs.loaded⟩

theorem sifted_importStatements (solid : Solid scope s) (known : ∀ r ∈ s.tables.refs, ' ' ∉ r.1.toList)
    (used : List String) : Outcome.Paired (fun all lines => Sifted used all lines ∧ all.Pairwise (· ≤ ·))
        (exec (importStatements scope none) s).1 (exec (importStatements scope (some used)) s).1 ∧
      (exec (importStatements scope none) s).2 = (exec (importStatements scope (some used)) s).2 := by
  have hempty : Sifted used [] [] := ⟨.nil, nofun, rfl⟩
  have htables := hempty.tableStatements known s.tables.types.get?
  have hroot := TwinFrom.of_ite (c := scope.root.truthy) (related_walk ⟨.pure, .of_bind, .of_ask⟩ carries_solid
    (sifted_importVisitor scope used nestingLimit) htables scope.root solid.root) (.pure htables)
  have hall := hroot.of_bind fun _ _ => sifted_allStatements
  have hstart : ∀ used, exec (importStatements scope used) s =
      exec ((if scope.root.truthy then walk (importVisitor scope used nestingLimit)
          (Python.tableStatements used s.tables.refs s.tables.types.get? []) scope.root
        else pure (Python.tableStatements used s.tables.refs s.tables.types.get? [])) >>= allStatements scope used) s :=
    fun used => by rw [importStatements_eq, rootStatements, bind_assoc, exec_bind, exec_tables]
  rw [hstart, hstart]
  exact ⟨(hall s solid).1, (hall s solid).2.1⟩

/-- From references without blanks, the statements for some types are in strict order, each imports one of them,
and they are the statements for all types that do so. -/
theorem importStatements_sifted {lines : List String} (solid : Solid scope s)
    (known : ∀ r ∈ s.tables.refs, ' ' ∉ r.1.toList)
    (h : exec (importStatements scope (some used)) s = (.ok lines, s')) :
    lines.Pairwise (· < ·) ∧ (∀ line ∈ lines, importedName line ∈ used) ∧
      ∃ all, exec (importStatements scope none) s = (.ok all, s') ∧
        (∀ line ∈ all, ∃ module, ' ' ∉ module.toList ∧ line = importLine module (importedName line)) ∧
        lines = all.filter fun line => used.contains (importedName line) := by
  obtain ⟨hresult, hstate⟩ := sifted_importStatements solid known used
  rcases hall : exec (importStatements scope none) s with ⟨r, s1⟩
  rw [hall, h] at hresult hstate
  cases hstate
  cases hresult with
  | @ok all _ hsifted =>
    obtain ⟨⟨hnodup, hform, rfl⟩, hordered⟩ := hsifted
    have hstrict : all.Pairwise (· < ·) := (hordered.and hnodup).imp fun ⟨hle, hne⟩ => Std.lt_of_le_of_ne hle hne
    refine ⟨hstrict.filter _, fun line hline => ?_, all, rfl, hform, rfl⟩
    simpa using (List.mem_filter.mp hline).2

theorem importStatements_sifted_harbour : Solid Generate.harbour {} ∧ ∃ s',
    exec (importStatements Generate.harbour (some ["Sailor"])) {} = (.ok ["from .sailor import Sailor"], s') ∧
    ∃ all, exec (importStatements Generate.harbour none) {} = (.ok all, s') ∧
      ["from .sailor import Sailor"] = all.filter fun line => ["Sailor"].contains (importedName line) := by
  have hsolid : Solid Generate.harbour {} := by
    refine ⟨by decide, fun ref v read => ?_, nofun⟩
    rcases Generate.eq_of_read_harbour read with rfl | rfl <;> decide
  have hrun : exec (importStatements Generate.harbour (some ["Sailor"])) {} =
      (.ok ["from .sailor import Sailor"], _) := Prod.ext (by decide +kernel) rfl
  obtain ⟨-, -, all, hall, -, hsifted⟩ := importStatements_sifted hsolid nofun hrun
  exact ⟨hsolid, _, hrun, all, hall, hsifted⟩

end Python

end Typewright
