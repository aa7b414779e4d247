import Typewright.Document.Scalar

/-!
# Document values

A document is a tree of lists, pairs and maps over scalars. The entries of a map keep the order in
which their keys first came.
-/

namespace Typewright

inductive Value where
  | scalar (value : Scalar)
  | list (items : List Value)
  | map (entries : List (Scalar × Value))
  | set (members : List Scalar)
  | pair (left right : Value)
deriving Repr

abbrev Entries := List (Scalar × Value)

namespace Entries

def find? (es : Entries) (key : Scalar) : Option Value :=
  match es with
  | [] => none
  | (k, v) :: rest => if k.same key then some v else find? rest key

def put (es : Entries) (key : Scalar) (value : Value) : Entries :=
  match es with
  | [] => [(key, value)]
  | (k, v) :: rest => if k.same key then (k, value) :: rest else (k, v) :: put rest key value

/-- The entries of a list of pairs, a later pair replacing the value of an earlier one. -/
def ofPairs (pairs : List (Scalar × Value)) : Entries :=
  pairs.foldl (fun es p => put es p.1 p.2) []

end Entries

namespace Value

@[match_pattern]
abbrev str (s : String) : Value := .scalar (.str s)

@[match_pattern]
abbrev null : Value := .scalar .null

@[match_pattern]
abbrev bool (b : Bool) : Value := .scalar (.bool b)

@[match_pattern]
abbrev int (n : Int) : Value := .scalar (.int n)

abbrev empty : Value := .map []

instance : Coe String Scalar := ⟨.str⟩

instance : Coe String Value := ⟨str⟩

mutual

/-- How many lists, pairs and maps lie on the longest way down. -/
def depth : Value → Nat
  | .scalar _ => 0
  | .list items => depthOfList items + 1
  | .map entries => depthOfEntries entries + 1
  | .set _ => 0
  | .pair left right => max left.depth right.depth + 1

def depthOfList : List Value → Nat
  | [] => 0
  | v :: rest => max v.depth (depthOfList rest)

def depthOfEntries : List (Scalar × Value) → Nat
  | [] => 0
  | e :: rest => max (depthOfEntry e) (depthOfEntries rest)

def depthOfEntry : Scalar × Value → Nat
  | (_, v) => v.depth

end

mutual

def quoted : Value → String
  | .scalar s => s.quoted
  | .list items => "[" ++ ", ".intercalate (quotedItems items) ++ "]"
  | .map entries => "\x7b" ++ ", ".intercalate (quotedEntries entries) ++ "\x7d"
  | .set [] => "set()"
  | .set members => "\x7b" ++ ", ".intercalate (members.map Scalar.quoted) ++ "\x7d"
  | .pair left right => "(" ++ left.quoted ++ ", " ++ right.quoted ++ ")"

def quotedItems : List Value → List String
  | [] => []
  | v :: rest => v.quoted :: quotedItems rest

def quotedEntries : List (Scalar × Value) → List String
  | [] => []
  | e :: rest => quotedEntry e :: quotedEntries rest

def quotedEntry : Scalar × Value → String
  | (k, v) => k.quoted ++ ": " ++ v.quoted

end

def text : Value → String
  | .scalar s => s.text
  | v => v.quoted

def truthy : Value → Bool
  | .scalar s => s.truthy
  | .list items => !items.isEmpty
  | .map entries => !entries.isEmpty
  | .set members => !members.isEmpty
  | .pair _ _ => true

def isStr (v : Value) (t : String) : Bool :=
  match v with
  | .scalar s => s.isStr t
  | _ => false

def isOneOf (v : Value) (ts : List String) : Bool :=
  ts.any v.isStr

def isText : Value → Bool
  | .str _ => true
  | _ => false

def isTrue : Value → Bool
  | .bool b => b
  | _ => false

def isMap : Value → Bool
  | .map _ => true
  | _ => false

def isMapWith (v : Value) (name : String) : Bool :=
  match v with
  | .map es => es.any (·.1.same (.str name))
  | _ => false

def isNull : Value → Bool
  | .null => true
  | _ => false

theorem depth_lt_of_mem {v : Value} {items : List Value} (h : v ∈ items) : v.depth < (Value.list items).depth := by
  have : v.depth ≤ depthOfList items := by
    induction items with
    | nil => cases h
    | cons w rest ih =>
      simp only [depthOfList]
      rcases List.mem_cons.mp h with rfl | h
      · exact Nat.le_max_left _ _
      · exact Nat.le_trans (ih h) (Nat.le_max_right _ _)
  simp only [depth]
  omega

theorem depth_lt_of_mem_entries {e : Scalar × Value} {es : List (Scalar × Value)} (h : e ∈ es) :
    e.2.depth < (Value.map es).depth := by
  have : e.2.depth ≤ depthOfEntries es := by
    induction es with
    | nil => cases h
    | cons f rest ih =>
      simp only [depthOfEntries]
      rcases List.mem_cons.mp h with rfl | h
      · obtain ⟨k, w⟩ := e
        exact Nat.le_max_left _ _
      · exact Nat.le_trans (ih h) (Nat.le_max_right _ _)
  simp only [depth]
  omega

theorem depth_lt_of_find? {es : Entries} {key : Scalar} {v : Value}
    (h : es.find? key = some v) : v.depth < (Value.map es).depth := by
  have : v.depth ≤ depthOfEntries es := by
    induction es with
    | nil => cases h
    | cons e rest ih =>
      obtain ⟨k, w⟩ := e
      simp only [Entries.find?] at h
      simp only [depthOfEntries, depthOfEntry]
      split at h
      · cases h
        exact Nat.le_max_left _ _
      · exact Nat.le_trans (ih h) (Nat.le_max_right _ _)
  simp only [depth]
  omega

mutual

/-- Whether two values are the same throughout, the order of entries included. -/
def identical : Value → Value → Bool
  | .scalar a, .scalar b => decide (a = b)
  | .list xs, .list ys => identicalItems xs ys
  | .map xs, .map ys => identicalEntries xs ys
  | .set xs, .set ys => decide (xs = ys)
  | .pair a b, .pair c d => identical a c && identical b d
  | _, _ => false

def identicalItems : List Value → List Value → Bool
  | [], [] => true
  | v :: vs, w :: ws => identical v w && identicalItems vs ws
  | _, _ => false

def identicalEntries : List (Scalar × Value) → List (Scalar × Value) → Bool
  | [], [] => true
  | e :: es, f :: fs => identicalEntry e f && identicalEntries es fs
  | _, _ => false

def identicalEntry : Scalar × Value → Scalar × Value → Bool
  | (k, v), (l, w) => decide (k = l) && identical v w

end

mutual

theorem identical_iff : (v w : Value) → (identical v w = true ↔ v = w)
  | .scalar a, w => by cases w <;> simp [identical]
  | .list xs, w => by cases w <;> simp [identical, identicalItems_iff xs]
  | .map es, w => by cases w <;> simp [identical, identicalEntries_iff es]
  | .set xs, w => by cases w <;> simp [identical]
  | .pair a b, w => by cases w <;> simp [identical, identical_iff a, identical_iff b]

theorem identicalItems_iff : (vs ws : List Value) → (identicalItems vs ws = true ↔ vs = ws)
  | [], ws => by cases ws <;> simp [identicalItems]
  | v :: vs, ws => by cases ws <;> simp [identicalItems, identical_iff v, identicalItems_iff vs]

theorem identicalEntries_iff : (es fs : List (Scalar × Value)) → (identicalEntries es fs = true ↔ es = fs)
  | [], fs => by cases fs <;> simp [identicalEntries]
  | e :: es, fs => by
    cases fs <;> simp [identicalEntries, identicalEntry_iff e, identicalEntries_iff es]

theorem identicalEntry_iff : (e f : Scalar × Value) → (identicalEntry e f = true ↔ e = f)
  | (k, v), (l, w) => by simp [identicalEntry, identical_iff v]

end

instance : DecidableEq Value := fun v w => decidable_of_iff _ (identical_iff v w)

end Value

end Typewright
