import Typewright.Document.Fault

/-!
# Reaching into a value

What can be asked of a value whose kind is not known beforehand.
-/

namespace Typewright

abbrev Below (v : Value) := { w : Value // w.depth < v.depth }

abbrev Within (v : Value) := { w : Value // w.depth ≤ v.depth }

namespace Value

def isSame (v : Value) (x : Scalar) : Bool :=
  match v with
  | .scalar s => s.same x
  | _ => false

/-- Whether a scalar is found in the value: among the keys of a map, the items of a list, a pair or a
set, or as a part of a text. -/
def holds (v : Value) (x : Scalar) : Except Fault Bool :=
  match v with
  | .map es => .ok (es.any (·.1.same x))
  | .list items => .ok (items.any (·.isSame x))
  | .set members => .ok (members.any (·.same x))
  | .pair left right => .ok (left.isSame x || right.isSame x)
  | .scalar (.str s) =>
    match x with
    | .str t => .ok (Text.contains s t)
    | x => .error (.misuse (.textNeeded x.kind))
  | .scalar (.bytes _) => .error (.misuse .bytesNeeded)
  | .scalar s => .error (.misuse (.notSearchable s.kind))

def has (v : Value) (name : String) : Except Fault Bool :=
  v.holds (.str name)

/-- The part of the value under a name, which only a map can have. -/
def part (v : Value) (name : String) : Except Fault (Below v) :=
  match v with
  | .map es =>
    match h : Entries.find? es (.str name) with
    | some w => .ok ⟨w, depth_lt_of_find? h⟩
    | none => .error (.missingKey (.str name))
  | .list _ => .error (.misuse (.namedPart .list))
  | .pair _ _ => .error (.misuse (.namedPart .pair))
  | .scalar (.str _) => .error (.misuse (.namedPart .str))
  | .scalar (.bytes _) => .error (.misuse (.namedPart .bytes))
  | v => .error (.misuse (.notSubscriptable v.kind))

/-- The part of the value under a name, if it is there; only a map can be asked. -/
def part? (v : Value) (name : String) : Except Fault (Option (Below v)) :=
  match v with
  | .map es =>
    match h : Entries.find? es (.str name) with
    | some w => .ok (some ⟨w, depth_lt_of_find? h⟩)
    | none => .ok none
  | v => .error (.missingMember v.kind "get")

def field (v : Value) (name : String) : Except Fault Value :=
  return (← v.part name).val

def field? (v : Value) (name : String) : Except Fault (Option Value) :=
  return (← v.part? name).map Subtype.val

def fieldD (v : Value) (name : String) (default : Value) : Except Fault Value :=
  return (← v.field? name).getD default

def entries : Value → Except Fault Entries
  | .map es => .ok es
  | v => .error (.missingMember v.kind "items")

def entriesBelow (v : Value) : Except Fault (List (Scalar × Below v)) :=
  match v with
  | .map es => .ok (es.attach.map fun e => (e.val.1, ⟨e.val.2, depth_lt_of_mem_entries e.property⟩))
  | v => .error (.missingMember v.kind "items")

def valuesBelow (v : Value) : Except Fault (List (Below v)) :=
  match v with
  | .map es => .ok (es.attach.map fun e => ⟨e.val.2, depth_lt_of_mem_entries e.property⟩)
  | v => .error (.missingMember v.kind "values")

def entriesAt (v : Value) (name : String) : Except Fault Entries := do
  (← v.fieldD name .empty).entries

/-- What the value holds, in order: the items of a list, a pair or a set, the keys of a map, the
characters of a text. -/
def items : Value → Except Fault (List Value)
  | .list xs => .ok xs
  | .map es => .ok (es.map fun e => .scalar e.1)
  | .set members => .ok (members.map .scalar)
  | .pair left right => .ok [left, right]
  | .scalar (.str s) => .ok (s.toList.map fun c => .str (String.singleton c))
  | .scalar (.bytes b) => .ok (b.map fun x => .int x.toNat)
  | .scalar s => .error (.misuse (.notIterable s.kind))

theorem depth_le_of_mem_items {v w : Value} {ws : List Value} (h : v.items = .ok ws)
    (hw : w ∈ ws) : w.depth ≤ v.depth := by
  unfold items at h
  split at h
  · cases h
    exact Nat.le_of_lt (depth_lt_of_mem hw)
  · cases h
    obtain ⟨e, _, rfl⟩ := List.mem_map.mp hw
    exact Nat.zero_le _
  · cases h
    obtain ⟨e, _, rfl⟩ := List.mem_map.mp hw
    exact Nat.zero_le _
  · cases h
    simp only [List.mem_cons, List.not_mem_nil, or_false] at hw
    simp only [depth]
    rcases hw with rfl | rfl <;> omega
  · cases h
    obtain ⟨e, _, rfl⟩ := List.mem_map.mp hw
    exact Nat.zero_le _
  · cases h
    obtain ⟨e, _, rfl⟩ := List.mem_map.mp hw
    exact Nat.zero_le _
  · cases h

def itemsWithin (v : Value) : Except Fault (List (Within v)) :=
  match h : v.items with
  | .ok ws => .ok (ws.attach.map fun w => ⟨w.val, depth_le_of_mem_items h w.property⟩)
  | .error e => .error e

def itemAt (pick : List Value → Option Value) (v : Value) (index : Int) : Except Fault Value :=
  match v with
  | .map es =>
    match Entries.find? es (.int index) with
    | some w => .ok w
    | none => .error (.missingKey (.int index))
  | .set _ => .error (.misuse (.notSubscriptable .set))
  | .scalar (.str _) => pickFrom .str
  | .scalar (.bytes _) => pickFrom .bytes
  | .list _ => pickFrom .list
  | .pair _ _ => pickFrom .pair
  | .scalar s => .error (.misuse (.notSubscriptable s.kind))
where
  pickFrom (kind : Kind) : Except Fault Value := do
    match pick (← v.items) with
    | some w => .ok w
    | none => .error (.outOfRange kind)

theorem depth_le_of_itemAt {pick : List Value → Option Value} {v w : Value} {index : Int}
    (hpick : ∀ ws u, pick ws = some u → u ∈ ws) (h : v.itemAt pick index = .ok w) : w.depth ≤ v.depth := by
  have picked : ∀ kind, itemAt.pickFrom pick v kind = .ok w → w.depth ≤ v.depth := by
    intro kind hk
    unfold itemAt.pickFrom at hk
    cases hi : v.items with
    | error e => rw [hi] at hk; cases hk
    | ok ws =>
      rw [hi] at hk
      simp only [bind, Except.bind] at hk
      split at hk
      · next u hu =>
        cases hk
        exact depth_le_of_mem_items hi (hpick _ _ hu)
      · cases hk
  unfold itemAt at h
  split at h
  · split at h
    · next hf =>
      cases h
      exact Nat.le_of_lt (depth_lt_of_find? hf)
    · cases h
  · cases h
  · exact picked _ h
  · exact picked _ h
  · exact picked _ h
  · exact picked _ h
  · cases h

def first (v : Value) : Except Fault (Within v) :=
  match h : v.itemAt List.head? 0 with
  | .ok w => .ok ⟨w, depth_le_of_itemAt (fun _ _ => List.mem_of_mem_head?) h⟩
  | .error e => .error e

def last (v : Value) : Except Fault (Within v) :=
  match h : v.itemAt List.getLast? (-1) with
  | .ok w => .ok ⟨w, depth_le_of_itemAt (fun _ _ => List.mem_of_getLast?) h⟩
  | .error e => .error e

theorem depthOfEntries_put_le (es : Entries) (key t : Scalar) :
    depthOfEntries (Entries.put es key (.scalar t)) ≤ depthOfEntries es := by
  induction es with
  | nil => exact Nat.le_refl _
  | cons e rest ih =>
    obtain ⟨k, w⟩ := e
    simp only [Entries.put]
    split
    · simp only [depthOfEntries, depthOfEntry, depth]
      omega
    · simp only [depthOfEntries, depthOfEntry]
      omega

/-- A copy with another title, which only a map can take. -/
def withTitle (v : Value) (title : Scalar) : Except Fault (Within v) :=
  match v with
  | .map es =>
    .ok ⟨.map (Entries.put es (.str "title") (.scalar title)),
      Nat.succ_le_succ (depthOfEntries_put_le es _ _)⟩
  | .list _ => .error (.misuse (.namedPart .list))
  | .set _ => .error (.misuse (.noAssignment .set))
  | .pair _ _ => .error (.missingMember .pair "copy")
  | .scalar s => .error (.missingMember s.kind "copy")

/-- The scalar that a value is as a member of a set. -/
def asMember : Value → Except Fault (Option Scalar)
  | .scalar s => .ok (some s)
  | .pair left right => do
    let _ ← left.asMember
    let _ ← right.asMember
    return none
  | v => .error (.misuse (.unhashable v.kind))

def members (v : Value) : Except Fault (List Scalar) := do
  return (← (← v.items).mapM asMember).filterMap id

end Value

namespace Scalar

def replaceable : Scalar → Except Fault String
  | .str s => .ok s
  | .date _ => .error (.misuse .numberNeeded)
  | .timestamp _ => .error (.misuse .numberNeeded)
  | .bytes _ => .error (.misuse .bytesNeeded)
  | s => .error (.missingMember s.kind "replace")

def textFor (operation : String) : Scalar → Except Fault String
  | .str s => .ok s
  | .bytes _ => .error (.misuse .bytesNeeded)
  | s => .error (.missingMember s.kind operation)

def matchable : Scalar → Except Fault String
  | .str s => .ok s
  | s => .error (.misuse (.notMatchable s.kind))

def startsWith (s : Scalar) (pat : String) : Except Fault Bool :=
  match s with
  | .str t => .ok (Text.startsWith t pat)
  | .bytes _ => .error (.misuse .bytesStart)
  | s => .error (.missingMember s.kind "startswith")

end Scalar

namespace Value

def replaceable : Value → Except Fault String
  | .scalar s => s.replaceable
  | v => .error (.missingMember v.kind "replace")

def withoutBlanks (v : Value) : Except Fault String :=
  return Text.without ' ' (← v.replaceable)

def textFor (operation : String) : Value → Except Fault String
  | .scalar s => s.textFor operation
  | v => .error (.missingMember v.kind operation)

def matchable : Value → Except Fault String
  | .scalar s => s.matchable
  | v => .error (.misuse (.notMatchable v.kind))

def startsWith (v : Value) (pat : String) : Except Fault Bool :=
  match v with
  | .scalar s => s.startsWith pat
  | v => .error (.missingMember v.kind "startswith")

/-- The text without the blanks around it, which only text and bytes can be asked for. -/
def trimmed : Value → Except Fault String
  | .str s => .ok (Text.trim s)
  | .scalar (.bytes b) =>
    let isBlank (x : UInt8) : Bool := x = 32 || (9 ≤ x && x ≤ 13)
    let inner := ((b.dropWhile isBlank).reverse.dropWhile isBlank).reverse
    .ok (if inner.isEmpty then "" else Text.quoteBytes inner)
  | v => .error (.missingMember v.kind "strip")

def saying (v : Value) : String :=
  if v.truthy then v.text else ""

/-- The title of a schema without blanks; empty if there is none. -/
def title (v : Value) : Except Fault String := do
  (← v.fieldD "title" (.str "")).withoutBlanks

/-- The title of a schema without blanks, or `Root`. -/
def titleOrRoot (v : Value) : Except Fault String := do
  let t ← v.title
  return if t.isEmpty then "Root" else t

end Value

end Typewright
