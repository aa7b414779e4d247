import Typewright.PropertyType.TypeScript
import Mathlib.Data.List.Nodup

/-!
# Reading type texts

A TypeScript type text is read with the precedence of its operators: `[]` binds tighter than `&`, which
binds tighter than `|`.
-/

namespace Typewright

variable {c : Char} {cs rest : List Char}

/-! ## Duplicates -/

section Duplicates

variable {α β : Type} [BEq α] [LawfulBEq α] [BEq β] [LawfulBEq β]

theorem eraseDups_filter (p : α → Bool) (l : List α) : (l.filter p).eraseDups = l.eraseDups.filter p := by
  induction l generalizing p with
  | nil => rfl
  | cons a l ih =>
    rw [List.eraseDups_cons, ih, List.filter_cons, List.filter_cons]
    split
    · rw [List.eraseDups_cons, List.filter_filter, ih, List.filter_filter]
      simp only [Bool.and_comm]
    · next ha =>
      rw [ih, List.filter_filter]
      refine List.filter_congr fun b _ => ?_
      by_cases hb : b = a
      · simp [hb, ha]
      · simp [hb]

theorem eraseDups_cons_filter (a : α) (l : List α) : (a :: l).eraseDups = a :: l.eraseDups.filter (! · == a) := by
  rw [List.eraseDups_cons, eraseDups_filter]

theorem eraseDups_append_filter (l m : List α) :
    (l ++ m).eraseDups = l.eraseDups ++ m.eraseDups.filter (!l.contains ·) := by
  rw [List.eraseDups_append, List.removeAll, eraseDups_filter]

theorem nodup_eraseDups (l : List α) : l.eraseDups.Nodup := by
  induction l with
  | nil => exact List.nodup_nil
  | cons a l ih =>
    rw [eraseDups_cons_filter, List.nodup_cons]
    exact ⟨by simp, ih.filter _⟩

theorem eraseDups_of_nodup {l : List α} (h : l.Nodup) : l.eraseDups = l := by
  induction l with
  | nil => rfl
  | cons a l ih =>
    obtain ⟨ha, hl⟩ := List.nodup_cons.mp h
    rw [eraseDups_cons_filter, ih hl, List.filter_eq_self.mpr]
    intro b hb
    rw [Bool.not_eq_true', beq_eq_false_iff_ne]
    exact fun heq => ha (heq ▸ hb)

theorem eraseDups_append_right (l m : List α) : (l ++ m.eraseDups).eraseDups = (l ++ m).eraseDups := by
  rw [eraseDups_append_filter, eraseDups_of_nodup (nodup_eraseDups m), eraseDups_append_filter]

theorem eraseDups_append_left (l m : List α) : (l.eraseDups ++ m).eraseDups = (l ++ m).eraseDups := by
  rw [eraseDups_append_filter, eraseDups_of_nodup (nodup_eraseDups l), eraseDups_append_filter]
  simp

theorem eraseDups_append_congr {l m m' : List α} (h : m.filter (!l.contains ·) = m'.filter (!l.contains ·)) :
    (l ++ m).eraseDups = (l ++ m').eraseDups := by
  rw [eraseDups_append_filter, eraseDups_append_filter, ← eraseDups_filter, ← eraseDups_filter, h]

theorem eraseDups_flatMap (f : α → List β) (l : List α) :
    (l.eraseDups.flatMap f).eraseDups = (l.flatMap f).eraseDups := by
  induction l with
  | nil => rfl
  | cons a l ih =>
    have hdrop : ∀ m : List α, ((m.filter (! · == a)).flatMap f).filter (!(f a).contains ·) =
        (m.flatMap f).filter (!(f a).contains ·) := by
      intro m
      induction m with
      | nil => rfl
      | cons b m ihm =>
        rw [List.filter_cons, List.flatMap_cons, List.filter_append, ← ihm]
        split
        · rw [List.flatMap_cons, List.filter_append]
        · next hb =>
          obtain rfl : b = a := by simpa using hb
          have hnone : (f b).filter (!(f b).contains ·) = [] := List.filter_eq_nil_iff.mpr (by simp)
          rw [hnone, List.nil_append]
    rw [eraseDups_cons_filter, List.flatMap_cons, List.flatMap_cons, eraseDups_append_congr (hdrop _),
      ← eraseDups_append_right, ih, eraseDups_append_right]

omit [BEq α] [LawfulBEq α] in
theorem eraseDups_flatMap_eraseDups (f : α → List β) (l : List α) :
    (l.flatMap fun a => (f a).eraseDups).eraseDups = (l.flatMap f).eraseDups := by
  induction l with
  | nil => rfl
  | cons a l ih =>
    rw [List.flatMap_cons, eraseDups_append_left, ← eraseDups_append_right, ih, eraseDups_append_right,
      List.flatMap_cons]

end Duplicates

/-! ## Types -/

/-- A part of a type that no operator divides. -/
inductive Factor where
  | name (text : String)
  | literal (value : String)
  | array (item : List (List Factor))
  | record (value : List (List Factor))
  /-- A union as a part of an intersection. -/
  | group (options : List (List Factor))
deriving Repr

/-- A type: its alternatives, each with the factors that it has all of. -/
abbrev Alternatives := List (List Factor)

namespace Factor

mutual

def same : Factor → Factor → Bool
  | .name a, .name b => decide (a = b)
  | .literal a, .literal b => decide (a = b)
  | .array a, .array b => sameTypes a b
  | .record a, .record b => sameTypes a b
  | .group a, .group b => sameTypes a b
  | _, _ => false

def sameFactors : List Factor → List Factor → Bool
  | [], [] => true
  | f :: fs, g :: gs => same f g && sameFactors fs gs
  | _, _ => false

def sameTypes : List (List Factor) → List (List Factor) → Bool
  | [], [] => true
  | fs :: t, gs :: u => sameFactors fs gs && sameTypes t u
  | _, _ => false

end

mutual

theorem same_iff : (f g : Factor) → (same f g ↔ f = g)
  | .name _, g => by cases g <;> simp [same]
  | .literal _, g => by cases g <;> simp [same]
  | .array t, g => by cases g <;> simp [same, sameTypes_iff t]
  | .record t, g => by cases g <;> simp [same, sameTypes_iff t]
  | .group t, g => by cases g <;> simp [same, sameTypes_iff t]

theorem sameFactors_iff : (fs gs : List Factor) → (sameFactors fs gs ↔ fs = gs)
  | [], gs => by cases gs <;> simp [sameFactors]
  | f :: fs, gs => by cases gs <;> simp [sameFactors, same_iff f, sameFactors_iff fs]

theorem sameTypes_iff : (t u : List (List Factor)) → (sameTypes t u ↔ t = u)
  | [], u => by cases u <;> simp [sameTypes]
  | fs :: t, u => by cases u <;> simp [sameTypes, sameFactors_iff fs, sameTypes_iff t]

end

instance : DecidableEq Factor := fun f g => decidable_of_iff _ (same_iff f g)

end Factor

namespace Alternatives

/-- The union of types: all their alternatives, without duplicates. -/
def unionOf (types : List Alternatives) : Alternatives :=
  types.flatten.eraseDups

/-- The factors of a type. A type with several alternatives is one factor. -/
def factors : Alternatives → List Factor
  | [fs] => fs
  | type => [.group type]

def ofFactors : List Factor → Alternatives
  | [.group type] => type
  | fs => [fs]

/-- The intersection of types: all their factors, without duplicates. -/
def intersectionOf (types : List Alternatives) : Alternatives :=
  ofFactors (types.flatMap factors).eraseDups

end Alternatives

/-! ## Operators -/

/-- What stands between the parts of a type text. -/
inductive Operator where
  | bar
  | amp
deriving DecidableEq, Repr

def Operator.text : Operator → String
  | .bar => " | "
  | .amp => " & "

/-- Factors with the operators between them. -/
inductive Chain where
  | one (f : Factor)
  | cons (f : Factor) (op : Operator) (rest : Chain)
deriving DecidableEq, Repr

namespace Chain

def join : Chain → Operator → Chain → Chain
  | .one f, op, c => .cons f op c
  | .cons f op' rest, op, c => .cons f op' (rest.join op c)

def joinAll (op : Operator) : Chain → List Chain → Chain
  | c, [] => c
  | c, d :: rest => c.join op (joinAll op d rest)

/-- The chain with brackets behind its last factor. -/
def array : Chain → Chain
  | .one f => .one (.array (Alternatives.ofFactors [f]))
  | .cons f op rest => .cons f op rest.array

def factors : Chain → List Factor
  | .one f => [f]
  | .cons f _ rest => f :: rest.factors

def operators : Chain → List Operator
  | .one _ => []
  | .cons _ op rest => op :: rest.operators

/-- The factors between the bars. -/
def terms : Chain → List (List Factor)
  | .one f => [[f]]
  | .cons f .bar rest => [f] :: rest.terms
  | .cons f .amp rest =>
    match rest.terms with
    | [] => [[f]]
    | fs :: more => (f :: fs) :: more

/-- The type that a chain stands for: `&` binds tighter than `|`. -/
def alternatives (c : Chain) : Alternatives :=
  .unionOf (c.terms.map fun fs => .intersectionOf (fs.map fun f => .ofFactors [f]))

end Chain

/-! ## Reading -/

namespace TypeText

/-- A piece of a type text. -/
inductive Token where
  | word (text : String)
  | literal (value : String)
  | brackets
  | operator (op : Operator)
  | opening
  | closing
  | less
  | greater
  | comma
deriving DecidableEq, Repr

/-- What the characters before are the start of. -/
inductive Mode where
  | between
  | word (before : List Char)
  | literal (before : List Char)
  | bracket
deriving DecidableEq, Repr

/-- What a character that is no part of a word makes, between two pieces. -/
def mark : Char → Option (List Token × Mode)
  | ' ' => some ([], .between)
  | '\'' => some ([], .literal [])
  | '[' => some ([], .bracket)
  | '|' => some ([.operator .bar], .between)
  | '&' => some ([.operator .amp], .between)
  | '(' => some ([.opening], .between)
  | ')' => some ([.closing], .between)
  | '<' => some ([.less], .between)
  | '>' => some ([.greater], .between)
  | ',' => some ([.comma], .between)
  | _ => none

/-- What a character makes. In a literal a backslash or the end of a line cannot stand for itself. -/
def step : Mode → Char → Option (List Token × Mode)
  | .between, c => if c.isAlphanum then some ([], .word [c]) else mark c
  | .word before, c =>
    if c.isAlphanum then some ([], .word (before ++ [c]))
    else (mark c).map fun (tokens, mode) => (.word (String.ofList before) :: tokens, mode)
  | .literal before, c =>
    if c = '\'' then some ([.literal (String.ofList before)], .between)
    else if c ∈ ['\\', '\n', '\r'] then none
    else some ([], .literal (before ++ [c]))
  | .bracket, c => if c = ']' then some ([.brackets], .between) else none

def tokens (mode : Mode) : List Char → Option (List Token)
  | [] =>
    match mode with
    | .between => some []
    | .word before => some [.word (String.ofList before)]
    | _ => none
  | c :: rest => (step mode c).bind fun made => (tokens made.2 rest).map (made.1 ++ ·)

/-- What is closed by a bracket. -/
inductive Hole where
  | parentheses
  | record
deriving DecidableEq, Repr

abbrev Waiting := Option (Chain × Operator)

def Waiting.add : Waiting → Chain → Chain
  | none, c => c
  | some (before, op), c => before.join op c

mutual

/-- Reads on where a part of a chain has to come. `outer` is what stands around it. -/
def expect (before : Waiting) (outer : List (Hole × Waiting)) : List Token → Option (Chain)
  | .word "Record" :: .less :: .word "string" :: .comma :: rest =>
    expect none ((.record, before) :: outer) rest
  | .word text :: rest => follow (before.add (.one (.name text))) outer rest
  | .literal value :: rest => follow (before.add (.one (.literal value))) outer rest
  | .opening :: rest => expect none ((.parentheses, before) :: outer) rest
  | _ => none

def follow (c : Chain) (outer : List (Hole × Waiting)) :
    List Token → Option (Chain)
  | [] => if outer.isEmpty then some c else none
  | .brackets :: rest => follow c.array outer rest
  | .operator op :: rest => expect (some (c, op)) outer rest
  | .closing :: rest =>
    match outer with
    | (.parentheses, before) :: outer => follow (before.add (.one (.group c.alternatives))) outer rest
    | _ => none
  | .greater :: rest =>
    match outer with
    | (.record, before) :: outer => follow (before.add (.one (.record c.alternatives))) outer rest
    | _ => none
  | _ => none

end

/-- The parts of a type text and the operators between them, outside of all brackets. -/
def chain? (text : String) : Option (Chain) := do
  expect none [] (← tokens .between text.toList)

def read (text : String) : Option Alternatives :=
  (chain? text).map Chain.alternatives

def operators (text : String) : List Operator :=
  ((chain? text).map Chain.operators).getD []

example : read "A | B & C[]" = some [[.name "A"], [.name "B", .array [[.name "C"]]]] := by decide +kernel

example : read "(A | 'b')[]" = some [[.array [[.name "A"], [.literal "b"]]]] := by decide +kernel

end TypeText

/-! ## What is read -/

def Factor.isGroup : Factor → Bool
  | .group _ => true
  | _ => false

namespace Alternatives

theorem unionOf_eraseDups (f : String → Alternatives) (texts : List String) :
    unionOf (texts.eraseDups.map f) = unionOf (texts.map f) := by
  rw [unionOf, ← List.flatMap_def, eraseDups_flatMap, List.flatMap_def, ← unionOf]

theorem intersectionOf_eraseDups (f : String → Alternatives) (texts : List String) :
    intersectionOf (texts.eraseDups.map f) = intersectionOf (texts.map f) := by
  rw [intersectionOf, List.flatMap_map, eraseDups_flatMap, ← List.flatMap_map, ← intersectionOf]

theorem ofFactors_of_isGroup {fs : List Factor} (h : ∀ f ∈ fs, f.isGroup = false) : ofFactors fs = [fs] := by
  rw [ofFactors]
  rintro type rfl
  cases h _ (List.mem_singleton_self _)

theorem intersectionOf_ofFactors {fs : List Factor} (h : ∀ f ∈ fs, f.isGroup = false) :
    intersectionOf (fs.map fun f => ofFactors [f]) = [fs.eraseDups] := by
  have hfactors : (fs.map fun f => ofFactors [f]).flatMap factors = fs := by
    rw [List.flatMap_map]
    refine (List.flatMap_congr fun f hf => ?_).trans (List.flatMap_singleton' fs)
    rw [ofFactors_of_isGroup (by simpa using h f hf)]
    rfl
  rw [intersectionOf, hfactors, ofFactors_of_isGroup fun f hf => h f (List.mem_eraseDups.mp hf)]

end Alternatives

namespace Chain

theorem join_assoc (c d e : Chain) (op op' : Operator) : (c.join op d).join op' e = c.join op (d.join op' e) := by
  induction c with
  | one f => rfl
  | cons f op'' rest ih => rw [join, join, join, ih]

theorem array_join (c d : Chain) (op : Operator) : (c.join op d).array = c.join op d.array := by
  induction c with
  | one f => rfl
  | cons f op' rest ih => rw [join, array, join, ih]

theorem factors_join (c d : Chain) (op : Operator) : (c.join op d).factors = c.factors ++ d.factors := by
  induction c with
  | one f => rfl
  | cons f op' rest ih => rw [join, factors, factors, ih, List.cons_append]

theorem operators_join (c d : Chain) (op : Operator) : (c.join op d).operators = c.operators ++ op :: d.operators := by
  induction c with
  | one f => rfl
  | cons f op' rest ih => rw [join, operators, operators, ih, List.cons_append]

theorem exists_terms (c : Chain) : ∃ fs more, c.terms = fs :: more := by
  cases c with
  | one f => exact ⟨[f], [], rfl⟩
  | cons f op rest =>
    cases op with
    | bar => exact ⟨[f], rest.terms, rfl⟩
    | amp =>
      rw [terms]
      split
      · exact ⟨_, _, rfl⟩
      · exact ⟨_, _, rfl⟩

theorem terms_amp {f : Factor} {rest : Chain} {fs : List Factor} {more : List (List Factor)}
    (h : rest.terms = fs :: more) : (Chain.cons f .amp rest).terms = (f :: fs) :: more := by
  rw [terms, h]

theorem flatten_terms (c : Chain) : c.terms.flatten = c.factors := by
  induction c with
  | one f => rfl
  | cons f op rest ih =>
    cases op with
    | bar => rw [terms, List.flatten_cons, ih, factors, List.singleton_append]
    | amp =>
      obtain ⟨fs, more, hrest⟩ := rest.exists_terms
      rw [terms_amp hrest, factors, ← ih, hrest, List.flatten_cons, List.flatten_cons, List.cons_append]

theorem terms_join_bar (c d : Chain) : (c.join .bar d).terms = c.terms ++ d.terms := by
  induction c with
  | one f => rfl
  | cons f op rest ih =>
    cases op with
    | bar => rw [join, terms, ih, terms, List.cons_append]
    | amp =>
      obtain ⟨fs, more, hrest⟩ := rest.exists_terms
      rw [hrest, List.cons_append] at ih
      rw [join, terms_amp ih, terms_amp hrest, List.cons_append]

theorem terms_eq_factors {c : Chain} (h : .bar ∉ c.operators) : c.terms = [c.factors] := by
  induction c with
  | one f => rfl
  | cons f op rest ih =>
    cases op with
    | bar => exact absurd (.head _) h
    | amp => rw [terms_amp (ih fun hbar => h (.tail _ hbar)), factors]

theorem factors_joinAll (op : Operator) (c : Chain) (cs : List Chain) :
    (joinAll op c cs).factors = (c :: cs).flatMap factors := by
  induction cs generalizing c with
  | nil => simp [joinAll]
  | cons d rest ih =>
    rw [joinAll, factors_join, ih]
    rfl

theorem bar_notMem_joinAll_amp {c : Chain} {cs : List Chain} (h : ∀ d ∈ c :: cs, .bar ∉ d.operators) :
    .bar ∉ (joinAll .amp c cs).operators := by
  induction cs generalizing c with
  | nil => exact h c (.head _)
  | cons d rest ih =>
    obtain ⟨hc, hrest⟩ := List.forall_mem_cons.mp h
    rw [joinAll, operators_join]
    simp [hc, ih hrest]

theorem alternatives_joinAll_bar (c : Chain) (cs : List Chain) :
    (joinAll .bar c cs).alternatives = .unionOf ((c :: cs).map alternatives) := by
  induction cs generalizing c with
  | nil =>
    rw [joinAll, List.map_singleton, Alternatives.unionOf, List.flatten_singleton, alternatives,
      Alternatives.unionOf, eraseDups_of_nodup (nodup_eraseDups _)]
  | cons d rest ih =>
    rw [joinAll, alternatives, terms_join_bar, List.map_append, Alternatives.unionOf, List.flatten_append,
      ← eraseDups_append_left, ← eraseDups_append_right]
    change (c.alternatives ++ (joinAll .bar d rest).alternatives).eraseDups = _
    rw [ih, Alternatives.unionOf, eraseDups_append_right, Alternatives.unionOf]
    rfl

section Plain

variable {c : Chain} (h : ∀ f ∈ c.factors, f.isGroup = false)
include h

theorem alternatives_eq_terms : c.alternatives = (c.terms.map List.eraseDups).eraseDups := by
  have hterms : (c.terms.map fun fs => Alternatives.intersectionOf (fs.map fun f => .ofFactors [f])) =
      c.terms.map fun fs => [fs.eraseDups] := by
    refine List.map_congr_left fun fs hfs => Alternatives.intersectionOf_ofFactors fun f hf => h f ?_
    rw [← flatten_terms]
    exact List.mem_flatten_of_mem hfs hf
  rw [alternatives, hterms, Alternatives.unionOf, ← List.flatMap_def, ← List.map_eq_flatMap]

theorem alternatives_eq_factors (hbar : .bar ∉ c.operators) : c.alternatives = [c.factors.eraseDups] := by
  rw [alternatives_eq_terms h, terms_eq_factors hbar]
  rfl

theorem mem_factors_iff {f : Factor} : f ∈ c.factors ↔ ∃ fs ∈ c.alternatives, f ∈ fs := by
  rw [← flatten_terms, List.mem_flatten, alternatives_eq_terms h]
  simp

theorem isGroup_array : ∀ f ∈ c.array.factors, f.isGroup = false := by
  induction c with
  | one f => simp [array, factors, Factor.isGroup]
  | cons f op rest ih =>
    rw [factors, List.forall_mem_cons] at h
    rw [array, factors, List.forall_mem_cons]
    exact ⟨h.1, ih h.2⟩

theorem alternatives_array_iff : c.array.alternatives = [[.array c.alternatives]] ↔ c.operators = [] := by
  have hgroup := isGroup_array h
  cases c with
  | one f =>
    have hone : Alternatives.ofFactors [f] = [[f]] := Alternatives.ofFactors_of_isGroup h
    refine iff_of_true ?_ rfl
    rw [alternatives_eq_factors hgroup nofun, alternatives_eq_factors h nofun, array, hone]
    rfl
  | cons f op rest =>
    refine iff_of_false (fun hread => ?_) nofun
    -- The first factor would be an array of a type that it is in itself.
    have hfirst : f ∈ (cons f op rest).array.factors := (.head _)
    rw [mem_factors_iff hgroup, hread] at hfirst
    have hself : f = .array (cons f op rest).alternatives := by simpa using hfirst
    obtain ⟨fs, hfs, hf⟩ := (mem_factors_iff h).mp (List.mem_cons_self (a := f))
    have hsize := congrArg sizeOf hself
    have hlt := List.sizeOf_lt_of_mem hfs
    have hlt' := List.sizeOf_lt_of_mem hf
    rw [Factor.array.sizeOf_spec] at hsize
    omega

theorem intersectionOf_alternatives : Alternatives.intersectionOf [c.alternatives] = c.alternatives := by
  rw [Alternatives.intersectionOf, List.flatMap_singleton]
  by_cases hone : ∃ fs, c.alternatives = [fs]
  · obtain ⟨fs, hfs⟩ := hone
    have hmem : fs ∈ c.alternatives := hfs ▸ List.mem_singleton_self fs
    have hnodup : fs.Nodup := by
      rw [alternatives_eq_terms h] at hmem
      obtain ⟨term, _, rfl⟩ := List.mem_map.mp (List.mem_eraseDups.mp hmem)
      exact nodup_eraseDups term
    rw [hfs, Alternatives.factors, eraseDups_of_nodup hnodup,
      Alternatives.ofFactors_of_isGroup fun f hf => h f ((mem_factors_iff h).mpr ⟨fs, hmem, hf⟩)]
  · rw [Alternatives.factors]
    · rfl
    · exact not_exists.mp hone

end Plain

theorem alternatives_joinAll_amp {c : Chain} {cs : List Chain}
    (hplain : ∀ d ∈ c :: cs, ∀ f ∈ d.factors, f.isGroup = false) (h : cs = [] ∨ ∀ d ∈ c :: cs, .bar ∉ d.operators) :
    (joinAll .amp c cs).alternatives = .intersectionOf ((c :: cs).map alternatives) := by
  rcases h with rfl | hbar
  · exact (intersectionOf_alternatives (hplain c (.head _))).symm
  have hall : ∀ f ∈ (joinAll .amp c cs).factors, f.isGroup = false := by
    rw [factors_joinAll]
    intro f hf
    obtain ⟨d, hd, hf⟩ := List.mem_flatMap.mp hf
    exact hplain d hd f hf
  have hfactors : ((c :: cs).map alternatives).flatMap Alternatives.factors =
      (c :: cs).flatMap fun d => d.factors.eraseDups := by
    rw [List.flatMap_map]
    refine List.flatMap_congr fun d hd => ?_
    rw [alternatives_eq_factors (hplain d hd) (hbar d hd)]
    rfl
  rw [alternatives_eq_factors hall (bar_notMem_joinAll_amp hbar), Alternatives.intersectionOf, hfactors,
    eraseDups_flatMap_eraseDups, ← factors_joinAll .amp,
    Alternatives.ofFactors_of_isGroup fun f hf => hall f (List.mem_eraseDups.mp hf)]

end Chain

namespace TypeText

/-- Whether a text is one word, and a name of its own. -/
def isName (text : String) : Bool :=
  !text.isEmpty && text.toList.all Char.isAlphanum && text != "Record"

/-- Whether all characters of a text stand for themselves between quotes. -/
def isPlain (text : String) : Bool :=
  text.toList.all fun c => !(['\'', '\\', '\n', '\r'].contains c)

/-- The text has these factors, with these operators between them. -/
inductive Spells : String → Chain → Prop
  | name {text : String} (h : isName text = true) : Spells text (.one (.name text))
  | literal {value : String} (h : isPlain value = true) : Spells ("'" ++ value ++ "'") (.one (.literal value))
  | array {text : String} {c : Chain} (h : Spells text c) :
      Spells (text ++ "[]") c.array
  | arrayOf {text : String} {c : Chain} (h : Spells text c) :
      Spells ("(" ++ text ++ ")[]") (.one (.array c.alternatives))
  | record {text : String} {c : Chain} (h : Spells text c) :
      Spells ("Record<string, " ++ text ++ ">") (.one (.record c.alternatives))
  | operator {text text' : String} {c d : Chain} (op : Operator) (h : Spells text c)
      (h' : Spells text' d) : Spells (text ++ op.text ++ text') (c.join op d)

theorem Spells.isGroup {text : String} {c : Chain} (h : Spells text c) : ∀ f ∈ c.factors, f.isGroup = false := by
  induction h with
  | array _ ih => exact Chain.isGroup_array ih
  | operator op _ _ ih ih' =>
    rw [Chain.factors_join, List.forall_mem_append]
    exact ⟨ih, ih'⟩
  | _ => simp [Chain.factors, Factor.isGroup]

/-- What does not go on with a word. -/
def Delimited (rest : List Char) : Prop :=
  ∀ c ∈ rest.head?, c.isAlphanum = false

theorem tokens_of_step {mode : Mode} (made : List Token) (next : Mode)
    (h : step mode c = some (made, next)) (rest : List Char) :
    tokens mode (c :: rest) = (tokens next rest).map (made ++ ·) := by
  rw [tokens, h]
  rfl

theorem tokens_of_silent_step {mode : Mode} (next : Mode) (h : step mode c = some ([], next))
    (rest : List Char) : tokens mode (c :: rest) = tokens next rest := by
  rw [tokens_of_step _ _ h]
  exact Option.map_id'

theorem tokens_word (before : List Char) (hcs : ∀ c ∈ cs, c.isAlphanum) (hrest : Delimited rest) :
    tokens (.word before) (cs ++ rest) = (tokens .between rest).map ([.word (String.ofList (before ++ cs))] ++ ·) := by
  induction cs generalizing before with
  | nil =>
    rw [List.nil_append, List.append_nil]
    cases rest with
    | nil => rfl
    | cons c rest =>
      have hc : c.isAlphanum = false := hrest c rfl
      cases hmark : mark c with
      | none =>
        rw [tokens, tokens, step, step, hc, hmark]
        rfl
      | some made =>
        have hword : step (.word before) c = some ([.word (String.ofList before)] ++ made.1, made.2) := by
          rw [step, hc, hmark]
          rfl
        have hbetween : step .between c = some (made.1, made.2) := by
          rw [step, hc, hmark]
          rfl
        rw [tokens_of_step _ _ hword, tokens_of_step _ _ hbetween, Option.map_map]
        rfl
  | cons c cs ih =>
    obtain ⟨hc, hcs⟩ := List.forall_mem_cons.mp hcs
    have hstep : step (.word before) c = some ([], .word (before ++ [c])) := by rw [step, if_pos hc]
    rw [List.cons_append, tokens_of_silent_step _ hstep, ih _ hcs, List.append_assoc, List.singleton_append]

theorem tokens_literal (before : List Char) (hcs : ∀ c ∈ cs, c ∉ ['\'', '\\', '\n', '\r']) :
    tokens (.literal before) (cs ++ '\'' :: rest) =
      (tokens .between rest).map ([.literal (String.ofList (before ++ cs))] ++ ·) := by
  induction cs generalizing before with
  | nil =>
    rw [List.nil_append, List.append_nil]
    exact tokens_of_step _ _ rfl rest
  | cons c cs ih =>
    obtain ⟨hc, hcs⟩ := List.forall_mem_cons.mp hcs
    obtain ⟨hquote, hother⟩ := List.mem_cons.not.trans not_or |>.mp hc
    have hstep : step (.literal before) c = some ([], .literal (before ++ [c])) := by
      rw [step, if_neg hquote, if_neg hother]
    rw [List.cons_append, tokens_of_silent_step _ hstep, ih _ hcs, List.append_assoc, List.singleton_append]

theorem Waiting.add_join (before : Waiting) (c d : Chain) (op : Operator) :
    before.add (c.join op d) = (before.add c).join op d := by
  cases before with
  | none => rfl
  | some before => exact (Chain.join_assoc _ _ _ _ _).symm

theorem Waiting.add_array (before : Waiting) (c : Chain) : before.add c.array = (before.add c).array := by
  cases before with
  | none => rfl
  | some before => exact (Chain.array_join _ _ _).symm

/-- What the reader makes of a piece of text, whatever stands before and behind it. -/
def ReadAs (text : String) (c : Chain) : Prop :=
  ∃ ts, (∀ rest, Delimited rest →
      tokens .between (text.toList ++ rest) = (tokens .between rest).map (ts ++ ·)) ∧
    ∀ before outer rest, expect before outer (ts ++ rest) = follow (before.add c) outer rest

theorem readAs_name {text : String} (h : isName text) : ReadAs text (.one (.name text)) := by
  rw [isName, Bool.and_eq_true, Bool.and_eq_true, List.all_eq_true] at h
  obtain ⟨⟨hne, hword⟩, hrecord⟩ := h
  refine ⟨[.word text], fun rest hrest => ?_, fun before outer rest => ?_⟩
  · cases hcs : text.toList with
    | nil => simp [String.toList_eq_nil_iff.mp hcs] at hne
    | cons c cs =>
      rw [hcs] at hword
      obtain ⟨hc, hword⟩ := List.forall_mem_cons.mp hword
      have hstep : step .between c = some ([], .word [c]) := by rw [step, if_pos hc]
      rw [List.cons_append, tokens_of_silent_step _ hstep, tokens_word [c] hword hrest, List.singleton_append, ← hcs,
        String.ofList_toList]
  · rw [List.singleton_append, expect]
    rintro rest' _ rfl
    cases hrecord

theorem readAs_literal {value : String} (h : isPlain value) : ReadAs ("'" ++ value ++ "'") (.one (.literal value)) := by
  rw [isPlain, List.all_eq_true] at h
  refine ⟨[.literal value], fun rest hrest => ?_, fun before outer rest => ?_⟩
  · have hcs : ∀ c ∈ value.toList, c ∉ ['\'', '\\', '\n', '\r'] := by
      simpa using h
    rw [String.toList_append, String.toList_append, List.append_assoc, List.append_assoc]
    change tokens .between ('\'' :: (value.toList ++ '\'' :: rest)) = _
    rw [tokens_of_silent_step (.literal []) rfl, tokens_literal [] hcs, List.nil_append, String.ofList_toList]
  · rw [List.singleton_append, expect]

theorem ReadAs.array {text : String} {c : Chain} (h : ReadAs text c) : ReadAs (text ++ "[]") c.array := by
  obtain ⟨ts, htokens, hread⟩ := h
  refine ⟨ts ++ [.brackets], fun rest hrest => ?_, fun before outer rest => ?_⟩
  · rw [String.toList_append, List.append_assoc, htokens _ (by rintro c ⟨⟩; rfl)]
    change (tokens .between ('[' :: ']' :: rest)).map _ = _
    rw [tokens_of_silent_step .bracket rfl, tokens_of_step [.brackets] .between rfl, Option.map_map]
    simp [Function.comp_def]
  · rw [List.append_assoc, hread, List.singleton_append, follow, Waiting.add_array]

theorem ReadAs.arrayOf {text : String} {c : Chain} (h : ReadAs text c) :
    ReadAs ("(" ++ text ++ ")[]") (.one (.array c.alternatives)) := by
  obtain ⟨ts, htokens, hread⟩ := h
  refine ⟨[.opening] ++ ts ++ [.closing, .brackets], fun rest hrest => ?_, fun before outer rest => ?_⟩
  · rw [String.toList_append, String.toList_append, List.append_assoc, List.append_assoc]
    change tokens .between ('(' :: (text.toList ++ _)) = _
    rw [tokens_of_step [.opening] .between rfl, htokens _ (by rintro c ⟨⟩; rfl)]
    change Option.map _ ((tokens .between (')' :: '[' :: ']' :: rest)).map _) = _
    rw [tokens_of_step [.closing] .between rfl, tokens_of_silent_step .bracket rfl,
      tokens_of_step [.brackets] .between rfl, Option.map_map, Option.map_map, Option.map_map]
    simp [Function.comp_def]
  · rw [List.append_assoc, List.append_assoc, List.singleton_append, expect, hread]
    change follow c _ (.closing :: .brackets :: rest) = _
    rw [follow, follow, ← Waiting.add_array]
    rfl

theorem ReadAs.record {text : String} {c : Chain} (h : ReadAs text c) :
    ReadAs ("Record<string, " ++ text ++ ">") (.one (.record c.alternatives)) := by
  obtain ⟨ts, htokens, hread⟩ := h
  refine ⟨[.word "Record", .less, .word "string", .comma] ++ ts ++ [.greater], fun rest hrest => ?_,
    fun before outer rest => ?_⟩
  · have hhead : ∀ rest, tokens .between ("Record<string, ".toList ++ rest) =
        (tokens .between rest).map ([.word "Record", .less, .word "string", .comma] ++ ·) := by
      intro rest
      change tokens .between ('R' :: ("ecord".toList ++ '<' :: 's' :: ("tring".toList ++ ',' :: ' ' :: rest))) = _
      rw [tokens_of_silent_step (.word ['R']) rfl, tokens_word _ (List.all_eq_true.mp (by decide)) (by rintro c ⟨⟩; rfl),
        tokens_of_step [.less] .between rfl, tokens_of_silent_step (.word ['s']) rfl,
        tokens_word _ (List.all_eq_true.mp (by decide)) (by rintro c ⟨⟩; rfl), tokens_of_step [.comma] .between rfl,
        tokens_of_silent_step .between rfl, Option.map_map, Option.map_map, Option.map_map]
      rfl
    rw [String.toList_append, String.toList_append, List.append_assoc, List.append_assoc, hhead,
      htokens _ (by rintro c ⟨⟩; rfl)]
    change Option.map _ (Option.map _ (tokens .between ('>' :: rest))) = _
    rw [tokens_of_step [.greater] .between rfl, Option.map_map, Option.map_map]
    simp [Function.comp_def]
  · rw [List.append_assoc, List.append_assoc]
    change expect before outer (.word "Record" :: .less :: .word "string" :: .comma :: (ts ++ _)) = _
    rw [expect, hread]
    change follow c _ (.greater :: rest) = _
    rw [follow]

theorem tokens_operator (op : Operator) (rest : List Char) :
    tokens .between (op.text.toList ++ rest) = (tokens .between rest).map ([.operator op] ++ ·) := by
  cases op with
  | bar =>
    change tokens .between (' ' :: '|' :: ' ' :: rest) = _
    rw [tokens_of_silent_step .between rfl, tokens_of_step [.operator .bar] .between rfl,
      tokens_of_silent_step .between rfl]
  | amp =>
    change tokens .between (' ' :: '&' :: ' ' :: rest) = _
    rw [tokens_of_silent_step .between rfl, tokens_of_step [.operator .amp] .between rfl,
      tokens_of_silent_step .between rfl]

theorem ReadAs.operator {text text' : String} {c d : Chain} (op : Operator) (h : ReadAs text c)
    (h' : ReadAs text' d) : ReadAs (text ++ op.text ++ text') (c.join op d) := by
  obtain ⟨ts, htokens, hread⟩ := h
  obtain ⟨ts', htokens', hread'⟩ := h'
  refine ⟨ts ++ [.operator op] ++ ts', fun rest hrest => ?_, fun before outer rest => ?_⟩
  · have hdelimited : Delimited (op.text.toList ++ (text'.toList ++ rest)) := by
      cases op <;> rintro c ⟨⟩ <;> rfl
    rw [String.toList_append, String.toList_append, List.append_assoc, List.append_assoc, htokens _ hdelimited,
      tokens_operator, htokens' _ hrest, Option.map_map, Option.map_map]
    simp [Function.comp_def]
  · rw [List.append_assoc, List.append_assoc, hread, List.singleton_append, follow, hread', Waiting.add_join]
    rfl

theorem Spells.readAs {text : String} {c : Chain} (h : Spells text c) : ReadAs text c := by
  induction h with
  | name h => exact readAs_name h
  | literal h => exact readAs_literal h
  | array _ ih => exact ih.array
  | arrayOf _ ih => exact ih.arrayOf
  | record _ ih => exact ih.record
  | operator op _ _ ih ih' => exact ih.operator op ih'

theorem chain?_of_spells {text : String} {c : Chain} (h : Spells text c) : chain? text = some c := by
  obtain ⟨ts, htokens, hread⟩ := h.readAs
  have htext := htokens [] nofun
  rw [List.append_nil] at htext
  have hall := hread none [] []
  rw [List.append_nil] at hall
  rw [chain?, htext]
  change expect none [] (ts ++ []) = _
  rw [List.append_nil, hall]
  rfl

theorem read_of_spells {text : String} {c : Chain} (h : Spells text c) : read text = some c.alternatives := by
  rw [read, chain?_of_spells h, Option.map_some]

theorem operators_of_spells {text : String} {c : Chain} (h : Spells text c) : operators text = c.operators := by
  rw [operators, chain?_of_spells h, Option.map_some, Option.getD_some]

theorem spells_joinAll {ι : Type} {text : ι → String} {chain : ι → Chain} {i : ι} {is : List ι} (op : Operator)
    (h : ∀ j ∈ i :: is, Spells (text j) (chain j)) :
    Spells (Text.join op.text ((i :: is).map text)) (.joinAll op (chain i) (is.map chain)) := by
  induction is generalizing i with
  | nil =>
    rw [List.map_singleton, Text.join, String.intercalate_singleton]
    exact h i (.head _)
  | cons j is ih =>
    obtain ⟨hi, his⟩ := List.forall_mem_cons.mp h
    rw [List.map_cons, List.map_cons, Text.join, String.intercalate_cons_cons]
    exact .operator op hi (ih his)

end TypeText

end Typewright
