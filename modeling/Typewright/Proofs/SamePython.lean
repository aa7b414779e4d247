import Typewright.Proofs.DocumentNames
import Typewright.Proofs.TwoRuns

/-!
# Python files from linked tables

The types that a file uses are collected first, over all documents that its references lead to.
-/

namespace Typewright

open RefM Reference Text
open Generate (mainRequest)

variable {xs zs : List String} {documents : Table Value} {s0 t : RefState} {x : String} {refs : Table String}
  {types : String → Option String}

/-! ## Lists of texts -/

namespace Text

theorem pairwise_sorted (xs : List String) : (sorted xs).Pairwise (· ≤ ·) := by
  refine (List.pairwise_mergeSort (fun a b c hab hbc => ?_) (fun a b => ?_) xs).imp of_decide_eq_true
  · exact decide_eq_true (String.le_trans (of_decide_eq_true hab) (of_decide_eq_true hbc))
  · simpa using String.le_total a b

theorem sorted_of_perm {ys : List String} (h : xs.Perm ys) : sorted xs = sorted ys := by
  refine List.Perm.eq_of_pairwise (fun a b _ _ => String.le_antisymm) (pairwise_sorted xs) (pairwise_sorted ys) ?_
  exact ((List.mergeSort_perm xs _).trans h).trans (List.mergeSort_perm ys _).symm

theorem filter_add (p : String → Bool) (xs : List String) (x : String) :
    (add xs x).filter p = if p x then add (xs.filter p) x else xs.filter p := by
  unfold add
  cases hx : p x <;> cases hthere : xs.contains x <;> simp_all

theorem add_add (xs : List String) (x : String) : add (add xs x) x = add xs x := by
  have hthere : (add xs x).contains x := by
    rw [List.contains_iff_mem]
    exact mem_add_iff.mpr (.inr rfl)
  conv_lhs => unfold add
  exact if_pos hthere

end Text

namespace Python

variable {scope : RefScope} {extra : List String} {s s' : RefState}

/-! ## Types that are used -/

/-- Every document that can be read has a title. -/
def Titled (scope : RefScope) : Prop :=
  ∀ ref v, isInner ref = false → readOf scope ref = .ok v →
    ∃ title, v.field "title" = .ok (.str title) ∧ title ≠ ""

section Used

variable {ref : String} {v : Value} {used : List String} {next : List String → Value → RefM (List String)}

theorem addKnown_of_good (good : Good scope s) (used : List String) (ref : String) :
    addKnown used s.tables ref = used ∨ addKnown used s.tables ref = add used (nameOf scope ref) := by
  unfold addKnown
  split
  · exact .inl rfl
  · next path hpath =>
    split
    · exact .inl rfl
    · next name hname =>
      split
      · exact .inl rfl
      right
      have hmem := Table.mem_of_get? hpath
      rw [good.clean.refs] at hmem
      obtain ⟨known, hknown, heq⟩ := List.mem_map.mp hmem
      cases heq
      have hunder : IsTypeUnder scope s (scope.path ref) (nameOf scope ref) := ⟨ref, hknown, .inr rfl, rfl⟩
      rw [(good.clean.types _ _).mpr hunder] at hname
      cases hname
      rfl

theorem addKnown_unread (good : Good scope s) {e : Fault} (unread : readOf scope ref = .error e) :
    addKnown used s.tables ref = used := by
  have hnone : s.tables.refs.get? ref = none := by
    refine Table.get?_of_not_mem_keys fun hmem => ?_
    obtain ⟨v, hread⟩ := (good.clean.available ref hmem).read
    cases unread.symm.trans hread
  unfold addKnown
  rw [hnone]

/-- The types that a reference to a file brings in, without a look at what is known. -/
def usedInTitled (scope : RefScope) (next : List String → Value → RefM (List String)) (used : List String)
    (ref : String) : RefM (List String) := do
  match ← scope.resolve? (.str ref) with
  | none => return used
  | some schema => next (Text.add used (nameOf scope ref)) schema

instance [∀ used schema, Same scope extra (next used schema)] (used : List String) (ref : String) :
    Same scope extra (usedInTitled scope next used ref) := by
  unfold usedInTitled
  refine .of_bind inferInstance fun
    | none => inferInstance
    | some schema => inferInstance

theorem exec_resolve?_outer (whole : Whole scope) (good : Good scope s) (outer : isInner ref = false) :
    ∃ s', exec (scope.resolve? (.str ref)) s = (.ok (readOf scope ref).toOption, s') ∧ Good scope s' := by
  obtain ⟨s', hrun, hgood, -⟩ := exec_resolve_whole whole good (.str ref)
  refine ⟨s', ?_, hgood⟩
  unfold RefScope.resolve? RefM.recover
  rw [exec_tryCatch, exec_bind, hrun]
  unfold outcomeOf
  rw [leadsTo_of_outer scope outer]
  dsimp only
  cases readOf scope ref with
  | ok v => rfl
  | error e => rfl

theorem exec_usedInFile (whole : Whole scope) (titled : Titled scope) (good : Good scope s)
    (outer : isInner ref = false) (used : List String) :
    exec (usedInFile scope next used ref) s = exec (usedInTitled scope next used ref) s := by
  obtain ⟨s', hrun, -⟩ := exec_resolve?_outer whole good outer
  unfold usedInFile usedInTitled
  rw [exec_bind, exec_tables]
  dsimp only
  rw [exec_bind_of_ok hrun, exec_bind_of_ok hrun]
  cases hread : readOf scope ref with
  | error e =>
    rw [addKnown_unread good hread]
    rfl
  | ok v =>
    obtain ⟨title, htitle, hnamed⟩ := titled ref v outer hread
    have hname : nameOf scope ref = without ' ' title := nameOf_eq hread (typeName_of_text ref htitle)
    have htruthy : v.truthy := by
      obtain ⟨es, rfl, hfound⟩ := Value.field_eq_ok htitle
      cases es with
      | nil => cases hfound
      | cons e rest => rfl
    have hword : (Value.str title).truthy := by
      simpa [Value.truthy, Scalar.truthy] using hnamed
    have hadd : add (addKnown used s.tables ref) (without ' ' title) = add used (nameOf scope ref) := by
      rcases addKnown_of_good good used ref with h | h
      · rw [h, hname]
      · rw [h, ← hname, add_add]
    simp only [Except.toOption, htruthy, Bool.not_true, Bool.false_eq_true, if_false, exec_bind, exec_lift,
      Value.fieldD_of_field htitle, hword, if_true]
    rw [← hadd]
    rfl

theorem same_usedInFile (titled : Titled scope) (hnext : ∀ used schema, Same scope extra (next used schema))
    (outer : isInner ref = false) (used : List String) : Same scope extra (usedInFile scope next used ref) := by
  have hsame : Same scope extra (usedInTitled scope next used ref) := inferInstance
  refine ⟨fun s s' linked => ?_⟩
  rw [exec_usedInFile linked.whole titled linked.good outer, exec_usedInFile linked.whole titled linked.good' outer]
  exact hsame.like s s' linked

/-- The types that a reference brings in are the same, if documents are titled. A definition brings in
nothing, since none is recorded. -/
theorem same_usedByRef (titled : Titled scope) (hnext : ∀ used schema, Same scope extra (next used schema))
    (used : List String) (ref : Value) : Same scope extra (usedByRef scope next used ref) := by
  unfold usedByRef
  refine .of_bind inferInstance fun text => ?_
  cases houter : isInner text with
  | false => exact same_usedInFile titled hnext houter used
  | true =>
    rw [if_neg (by decide)]
    refine .of_ite inferInstance ⟨.of_tables fun s s' linked => ?_⟩
    rw [linked.good.clean.definitions, linked.good'.clean.definitions]
    exact .pure rfl

end Used

theorem likeVisitor_used (titled : Titled scope) (extra : List String) (fuel : Nat) :
    LikeVisitor scope extra Eq (usedVisitor scope fuel) (usedVisitor scope fuel) := by
  induction fuel with
  | zero =>
    refine ⟨fun _ _ _ _ _ => .throw _, fun _ _ _ _ _ => .throw _, .inr ⟨_, _, rfl, rfl, fun _ _ _ _ _ => .throw _⟩⟩
  | succ fuel ih =>
    have hnext : ∀ used schema, Same scope extra (walk (usedVisitor scope fuel) used schema) :=
      fun used schema => ⟨like_walk ih rfl schema⟩
    have hvisit : ∀ used used' ref, used = used' → True → Like scope extra Eq
        (usedByRef scope (walk (usedVisitor scope fuel)) used ref)
        (usedByRef scope (walk (usedVisitor scope fuel)) used' ref) := by
      rintro used _ ref rfl -
      exact (same_usedByRef titled hnext used ref).like
    exact ⟨hvisit, hvisit, .inr ⟨_, _, rfl, rfl, hvisit⟩⟩

theorem same_usedTypes (titled : Titled scope) (extra : List String) (schema : Value) :
    Same scope extra (usedTypes scope schema) :=
  ⟨like_walk (likeVisitor_used titled extra nestingLimit) rfl schema⟩

/-! ## Import statements -/

/-- The second list holds what the first one holds and some texts besides, each once. -/
structure Gains (more xs ys : List String) : Prop where
  nodup : xs.Nodup
  nodup' : ys.Nodup
  mem : ∀ x, x ∈ ys ↔ x ∈ more ∨ x ∈ xs

namespace Gains

variable {more xs ys : List String}

theorem start (h : more.Nodup) : Gains more [] more :=
  ⟨List.nodup_nil, h, fun x => by simp⟩

theorem addImport (h : Gains more xs ys) (used : Option (List String)) (ref typeName : String) :
    Gains more (Python.addImport used xs ref typeName) (Python.addImport used ys ref typeName) := by
  unfold Python.addImport
  split
  · exact h
  · refine ⟨nodup_add h.nodup _, nodup_add h.nodup' _, fun x => ?_⟩
    rw [mem_add_iff, mem_add_iff, h.mem, or_assoc]

end Gains

section Statements

variable {used : Option (List String)} {more xs ys : List String}

theorem like_importByRef {next : List String → Value → RefM (List String)}
    (hnext : ∀ xs ys schema, Gains more xs ys → Like scope [] (Gains more) (next xs schema) (next ys schema))
    (h : Gains more xs ys) (ref : Value) :
    Like scope [] (Gains more) (importByRef scope used next xs ref) (importByRef scope used next ys ref) := by
  have hresolve : Same scope [] (scope.resolve? ref) := inferInstance
  unfold importByRef
  refine .of_ask fun text _ => .of_ite (fun _ => .pure h) fun _ => .of_tables fun s s' linked => ?_
  rw [linked.types]
  refine .of_bind hresolve.like ?_
  rintro found _ rfl
  cases found with
  | none => exact .pure (h.addImport used _ _)
  | some schema =>
    refine .of_ite (fun _ => .pure (h.addImport used _ _)) fun _ => .of_ask fun title _ => ?_
    exact hnext _ _ schema ((h.addImport used _ _).addImport used _ _)

theorem likeVisitor_import (scope : RefScope) (used : Option (List String)) (more : List String) (fuel : Nat) :
    LikeVisitor scope [] (Gains more) (importVisitor scope used fuel) (importVisitor scope used fuel) := by
  induction fuel with
  | zero => exact ⟨fun _ _ _ _ _ => .throw _, fun _ _ _ _ _ => .throw _, .inl ⟨rfl, rfl⟩⟩
  | succ fuel ih =>
    have hnext : ∀ xs ys schema, Gains more xs ys → Like scope [] (Gains more)
        (walk (importVisitor scope used fuel) xs schema) (walk (importVisitor scope used fuel) ys schema) :=
      fun _ _ schema h => like_walk ih h schema
    refine ⟨fun xs ys ref h _ => ?_, fun xs ys ref h _ => like_importByRef hnext h ref, .inl ⟨rfl, rfl⟩⟩
    have hresolve : Same scope [] (scope.resolve? ref) := inferInstance
    refine .of_bind (like_importByRef hnext h ref) fun xs ys h => .of_bind hresolve.like ?_
    rintro found _ rfl
    cases found with
    | none => exact .pure h
    | some schema => exact .of_ite (fun _ => hnext _ _ schema h) fun _ => .pure h

theorem length_loaded (good : Good scope s) : s.tables.loaded.length = (known s).length := by
  rw [good.clean.loaded, List.length_map]

theorem linked_of_length (whole : Whole scope) (good : Good scope s) (good' : Good scope s')
    (grows : ∀ x ∈ known s, x ∈ known s') (size : s'.tables.loaded.length = s.tables.loaded.length) :
    Linked scope [] s s' := by
  rw [length_loaded good, length_loaded good'] at size
  have hperm := (good.clean.nodup.subperm grows).perm_of_length_le size.le
  exact ⟨whole, good, good', grows, fun x hx => .inl (hperm.mem_iff.mpr hx)⟩

/-- From these tables, the walk over a document adds these statements, and it loads nothing. -/
def Steady (scope : RefScope) (used : Option (List String)) (s : RefState) (document : Value)
    (added : List String) : Prop :=
  ∃ t, exec (walk (importVisitor scope used nestingLimit) [] document) s = (.ok added, t) ∧ Linked scope [] s t

theorem Steady.unique {document : Value} {added added' : List String} (h : Steady scope used s document added)
    (h' : Steady scope used s document added') : added = added' := by
  obtain ⟨t, hrun, -⟩ := h
  obtain ⟨t', hrun', -⟩ := h'
  cases hrun.symm.trans hrun'
  rfl

theorem steady_of_importsOfDocuments (linked : Linked scope [] s s0) (nodup : xs.Nodup)
    (h : exec (importsOfDocuments (importVisitor scope used nestingLimit) s.tables.loaded.length xs documents) s0 =
      (.ok ys, t)) : ∀ d ∈ documents, ∃ added, Steady scope used s d.2 added := by
  induction documents generalizing xs s0 with
  | nil => nofun
  | cons d rest ih =>
    obtain ⟨zs, s1, hwalk, h⟩ := exec_bind_ok h
    obtain ⟨hresult, hlinked⟩ :=
      like_walk (likeVisitor_import scope used xs nestingLimit) (.start nodup) d.2 s s0 linked
    rcases hempty : exec (walk (importVisitor scope used nestingLimit) [] d.2) s with ⟨r, s2⟩
    rw [hempty, hwalk] at hresult hlinked
    dsimp only at hresult hlinked
    cases hresult with
    | ok hgains =>
      -- the check after the walk says that nothing was loaded
      obtain ⟨tables, s3, htables, h⟩ := exec_bind_ok h
      cases htables
      by_cases hsize : s1.tables.loaded.length = s.tables.loaded.length
      · rw [if_neg (not_not.mpr hsize)] at h
        have hgrows : ∀ x ∈ known s0, x ∈ known s1 := by
          intro x hx
          have hfollows : Follows (some scope) KindFault (walk (importVisitor scope used nestingLimit) xs d.2) :=
            inferInstance
          have hkept := known_grows_of_follows hfollows s0
          rw [hwalk] at hkept
          exact hkept.subset hx
        have hsame : Linked scope [] s s1 := by
          refine linked_of_length linked.whole linked.good hlinked.good' (fun x hx => ?_) hsize
          exact hgrows x (linked.kept x hx)
        have hrest := ih hsame hgains.nodup' h
        intro d' hd'
        rcases List.mem_cons.mp hd' with rfl | hd'
        · exact ⟨_, s2, hempty, hsame.trans hlinked.symm⟩
        · exact hrest d' hd'
      · rw [if_pos hsize] at h
        cases h

theorem exec_importsOfDocuments (steady : ∀ d ∈ documents, ∃ added, Steady scope used s d.2 added) (linked : Linked scope [] s s0)
    (nodup : xs.Nodup) :
    ∃ ys t, exec (importsOfDocuments (importVisitor scope used nestingLimit) s.tables.loaded.length xs documents)
        s0 = (.ok ys, t) ∧ Linked scope [] s t ∧ ys.Nodup ∧
      ∀ x, x ∈ ys ↔ x ∈ xs ∨ ∃ d ∈ documents, ∃ added, Steady scope used s d.2 added ∧ x ∈ added := by
  induction documents generalizing xs s0 with
  | nil => exact ⟨xs, s0, rfl, linked, nodup, fun x => by simp⟩
  | cons d rest ih =>
    obtain ⟨added, hsteady⟩ := steady d (.head _)
    obtain ⟨s2, hempty, hstays⟩ := hsteady
    obtain ⟨hresult, hlinked⟩ :=
      like_walk (likeVisitor_import scope used xs nestingLimit) (.start nodup) d.2 s s0 linked
    rcases hwalk : exec (walk (importVisitor scope used nestingLimit) xs d.2) s0 with ⟨r, s1⟩
    rw [hempty, hwalk] at hresult hlinked
    dsimp only at hresult hlinked
    cases hresult with
    | ok hgains =>
      next zs =>
      have hsame : Linked scope [] s s1 := hstays.trans hlinked
      have hsize : s1.tables.loaded.length = s.tables.loaded.length := hsame.perm_loaded.length_eq.symm
      obtain ⟨ys, t, hrun, hlast, hnodup, hmem⟩ := ih (fun d hd => steady d (.tail _ hd)) hsame hgains.nodup'
      refine ⟨ys, t, ?_, hlast, hnodup, fun x => ?_⟩
      · unfold importsOfDocuments
        rw [exec_bind_of_ok hwalk, exec_bind, exec_tables]
        dsimp only
        rw [if_neg (not_not.mpr hsize)]
        exact hrun
      · have hfirst : (∃ added, Steady scope used s d.2 added ∧ x ∈ added) ↔ x ∈ added :=
          ⟨fun ⟨_, h, hx⟩ => h.unique ⟨s2, hempty, hstays⟩ ▸ hx, fun hx => ⟨added, ⟨s2, hempty, hstays⟩, hx⟩⟩
        rw [hmem, hgains.mem]
        simp only [List.mem_cons, or_and_right, exists_or, exists_eq_left, hfirst, or_assoc]

theorem mem_addImport {ref typeName : String} :
    x ∈ addImport used xs ref typeName ↔ x ∈ xs ∨ x ∈ addImport used [] ref typeName := by
  unfold addImport
  split
  · simp
  · simp [mem_add_iff]

theorem nodup_addImport (h : xs.Nodup) (ref typeName : String) : (addImport used xs ref typeName).Nodup := by
  unfold addImport
  split
  · exact h
  · exact nodup_add h _

def tableStatements (used : Option (List String)) (refs : Table String) (types : String → Option String)
    (xs : List String) : List String :=
  refs.foldl (fun found r => addImport used found r.1 ((types r.2).getD "")) xs

theorem mem_tableStatements : x ∈ tableStatements used refs types xs ↔
      x ∈ xs ∨ ∃ r ∈ refs, x ∈ addImport used [] r.1 ((types r.2).getD "") := by
  unfold tableStatements
  induction refs generalizing xs with
  | nil => simp
  | cons r rest ih =>
    rw [List.foldl_cons, ih, mem_addImport]
    simp only [List.mem_cons, or_and_right, exists_or, exists_eq_left, or_assoc]

theorem nodup_tableStatements (h : xs.Nodup) : (tableStatements used refs types xs).Nodup := by
  unfold tableStatements
  induction refs generalizing xs with
  | nil => exact h
  | cons r rest ih => exact ih (nodup_addImport h _ _)

theorem gains_tableStatements (linked : Linked scope [] s s') :
    Gains [] (tableStatements used s.tables.refs s.tables.types.get? [])
      (tableStatements used s'.tables.refs s'.tables.types.get? []) := by
  refine ⟨nodup_tableStatements List.nodup_nil, nodup_tableStatements List.nodup_nil, fun x => ?_⟩
  rw [mem_tableStatements, mem_tableStatements]
  simp only [linked.types, linked.perm_refs.mem_iff, List.not_mem_nil, false_or]

/-- The statements for the references in the tables and for those of the root schema. -/
def rootStatements (scope : RefScope) (used : Option (List String)) : RefM (List String) := do
  let t ← RefM.tables
  let statements := tableStatements used t.refs t.types.get? []
  if scope.root.truthy then walk (importVisitor scope used nestingLimit) statements scope.root
  else return statements

/-- The statements with those for the documents that are loaded, in order. -/
def allStatements (scope : RefScope) (used : Option (List String)) (statements : List String) :
    RefM (List String) := do
  let loaded := (← RefM.tables).loaded
  return Text.sorted
    (← importsOfDocuments (importVisitor scope used nestingLimit) loaded.length statements loaded)

theorem importStatements_eq (scope : RefScope) (used : Option (List String)) :
    importStatements scope used = rootStatements scope used >>= allStatements scope used := by
  unfold importStatements rootStatements
  rw [bind_assoc]
  congr 1
  funext t
  dsimp only
  split <;> rfl

theorem like_rootStatements (scope : RefScope) (used : Option (List String)) :
    Like scope [] (Gains []) (rootStatements scope used) (rootStatements scope used) := by
  unfold rootStatements
  refine .of_tables fun s s' linked => .of_ite (fun _ => ?_) fun _ => .pure (gains_tableStatements linked)
  exact like_walk (likeVisitor_import scope used [] nestingLimit) (gains_tableStatements linked) scope.root

theorem exec_allStatements_of_linked (linked : Linked scope [] s s')
    (gains : Gains [] xs ys) (h : exec (allStatements scope used xs) s = (.ok zs, t)) :
    ∃ t', exec (allStatements scope used ys) s' = (.ok zs, t') ∧ Linked scope [] t t' := by
  obtain ⟨tables, _, htables, h⟩ := exec_bind_ok h
  cases htables
  obtain ⟨found, t1, hrun, h⟩ := exec_bind_ok h
  cases h
  have hrefl : Linked scope [] s s := linked.trans linked.symm
  have hsteady := steady_of_importsOfDocuments hrefl gains.nodup hrun
  -- the documents are the same on the other side, in another order
  obtain ⟨found1, t2, hrun1, hlinked1, hnodup1, hmem1⟩ := exec_importsOfDocuments hsteady hrefl gains.nodup
  cases hrun.symm.trans hrun1
  have hsteady' : ∀ d ∈ s'.tables.loaded, ∃ added, Steady scope used s d.2 added :=
    fun d hd => hsteady d (linked.perm_loaded.mem_iff.mpr hd)
  obtain ⟨found', t', hrun', hlinked', hnodup', hmem'⟩ := exec_importsOfDocuments hsteady' linked gains.nodup'
  refine ⟨t', ?_, hlinked1.symm.trans hlinked'⟩
  have hsorted : sorted found = sorted found' := by
    refine sorted_of_perm ((List.perm_ext_iff_of_nodup hnodup1 hnodup').mpr fun x => ?_)
    rw [hmem1, hmem', gains.mem]
    simp only [linked.perm_loaded.mem_iff, List.not_mem_nil, false_or]
  unfold allStatements
  rw [exec_bind, exec_tables]
  dsimp only
  rw [← linked.perm_loaded.length_eq, exec_bind_of_ok hrun', hsorted]
  rfl

theorem exec_importStatements_of_linked (linked : Linked scope [] s s')
    (h : exec (importStatements scope used) s = (.ok zs, t)) :
    ∃ t', exec (importStatements scope used) s' = (.ok zs, t') ∧ Linked scope [] t t' := by
  rw [importStatements_eq] at h ⊢
  obtain ⟨xs, s1, hroot, h⟩ := exec_bind_ok h
  obtain ⟨hresult, hlinked⟩ := like_rootStatements scope used s s' linked
  rcases hroot' : exec (rootStatements scope used) s' with ⟨r, s1'⟩
  rw [hroot, hroot'] at hresult hlinked
  dsimp only at hresult hlinked
  cases hresult with
  | ok hgains =>
    rw [exec_bind_of_ok hroot']
    exact exec_allStatements_of_linked hlinked hgains h

end Statements

/-! ## Files -/

/-- The imports of the types that were found. -/
def importsFor (scope : RefScope) (used : List String) : RefM (List String) :=
  if used.isEmpty then return [] else importStatements scope (some used)

/-- What is made of the imports that were found. -/
def fileWith (style : PythonStyle) (scope : RefScope) (stamp : String) (fromFiles : List String) :
    RefM SourceFile := do
  let imports := commonImports ++ fromFiles ++ (← styleImports style scope.root)
  let imported := importedTypes imports
  let (nested, _) ←
    (Nested.visitTypes (some scope) (visit style (mainRequest scope stamp) imported) scope.root).run []
  let title ← scope.root.titleOrRoot
  let root ← if imported.contains title then pure [] else pure [← declared (some scope) style scope.root]
  return ⟨stamp, imports, nested ++ root⟩

theorem fileOf_eq (style : PythonStyle) (scope : RefScope) (stamp : String) : fileOf style (mainRequest scope stamp) =
      (usedTypes scope scope.root >>= importsFor scope) >>= fileWith style scope stamp := by
  rfl

theorem same_fileWith (style : PythonStyle) (scope : RefScope) (stamp : String) (fromFiles : List String) :
    Same scope [] (fileWith style scope stamp fromFiles) := by
  have hvisit : ∀ imported schema name, WorkSeen .names (some scope) KindFault
      (visit style (mainRequest scope stamp) imported schema name) := fun imported schema name =>
    inferInstanceAs (WorkSeen .names (mainRequest scope stamp).scope _ _)
  refine .of_names (P := KindFault) ?_
  unfold fileWith
  infer_instance

theorem exec_file_of_linked {style : PythonStyle} {stamp : String} {used : List String} {file : SourceFile}
    (linked : Linked scope [] s s') (h : (exec (importsFor scope used >>= fileWith style scope stamp) s).1 = .ok file) :
    (exec (importsFor scope used >>= fileWith style scope stamp) s').1 = .ok file := by
  obtain ⟨fromFiles, t, himports, hfile⟩ := exec_bind_ok (Prod.ext h rfl)
  have himports' : ∃ t', exec (importsFor scope used) s' = (.ok fromFiles, t') ∧ Linked scope [] t t' := by
    unfold importsFor at himports ⊢
    split
    · next hempty =>
      rw [if_pos hempty] at himports
      cases himports
      exact ⟨s', rfl, linked⟩
    · next hused =>
      rw [if_neg hused] at himports
      exact exec_importStatements_of_linked linked himports
  obtain ⟨t', hrun, hlinked⟩ := himports'
  have hresult := ((same_fileWith style scope stamp fromFiles).like t t' hlinked).1.eq
  rw [exec_bind_of_ok hrun, ← hresult, hfile]

theorem exec_fileOf_iff (titled : Titled scope) (linked : Linked scope extra s s')
    (within : ∀ x ∈ extra, x ∈ known (exec (usedTypes scope scope.root) s).2) (style : PythonStyle)
    (stamp : String) (file : SourceFile) : (exec (fileOf style (mainRequest scope stamp)) s).1 = .ok file ↔
      (exec (fileOf style (mainRequest scope stamp)) s').1 = .ok file := by
  obtain ⟨hused, hlinked⟩ := (same_usedTypes titled extra scope.root).like s s' linked
  rw [fileOf_eq, bind_assoc, exec_bind, exec_bind]
  generalize exec (usedTypes scope scope.root) s = out at within hused hlinked ⊢
  generalize exec (usedTypes scope scope.root) s' = out' at hused hlinked ⊢
  obtain ⟨r, t⟩ := out
  obtain ⟨r', t'⟩ := out'
  cases hused with
  | error e => exact Iff.rfl
  | ok h =>
    subst h
    have hsame := hlinked.caught_up within
    exact ⟨exec_file_of_linked hsame, exec_file_of_linked hsame.symm⟩

end Python

end Typewright
