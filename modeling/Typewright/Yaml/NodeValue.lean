import Typewright.Yaml.Node

/-!
# From nodes to values

The value of a node.
-/

namespace Typewright.Yaml

def Tag.isCollection : Tag → Bool
  | .seq | .map | .set | .omap | .pairs => true
  | _ => false

mutual

def Node.scalarText : Node → Except Fault String
  | .scalar _ text => .ok text
  | .sequence _ _ => .error .yaml
  | .mapping _ entries => scalarTextIn entries

/-- The text under the first key `=`. -/
def scalarTextIn : List (Node × Node) → Except Fault String
  | [] => .error .yaml
  | e :: rest => if e.1.tag = .value then scalarTextOf e else scalarTextIn rest

def scalarTextOf : Node × Node → Except Fault String
  | (_, v) => v.scalarText

end

def Node.toScalar (n : Node) : Except Fault Scalar := do
  let text ← n.scalarText
  match n, n.tag with
  | .mapping _ _, .timestamp => throw (.misuse (.notMatchable .list))
  | _, tag => scalarValue tag text

/-- The scalar that a node is as a key: there the sign `=` is a text. -/
def Node.toKey (n : Node) : Except Fault Scalar :=
  match n.tag with
  | .value => return .str (← n.scalarText)
  | tag => if tag.isCollection then .error .yaml else n.toScalar

mutual

def valueOf : Node → Except Fault Value
  | .scalar tag text => return .scalar (← Node.toScalar (.scalar tag text))
  | .sequence .seq items => return .list (← valuesOf items)
  | .sequence .omap items => return .list (← pairsOf items)
  | .sequence .pairs items => return .list (← pairsOf items)
  | .mapping .map entries => do
    let (merged, own) ← entriesOf entries
    return .map (Entries.ofPairs (merged ++ own))
  | .mapping .set entries => do
    let (merged, own) ← entriesOf entries
    return .set ((Entries.ofPairs (merged ++ own)).map (·.1))
  | n => return .scalar (← n.toScalar)

def valuesOf : List Node → Except Fault (List Value)
  | [] => .ok []
  | n :: rest => return (← valueOf n) :: (← valuesOf rest)

def pairsOf : List Node → Except Fault (List Value)
  | [] => .ok []
  | .mapping _ [e] :: rest => return (← pairOf e) :: (← pairsOf rest)
  | _ => .error .yaml

def pairOf : Node × Node → Except Fault Value
  | (k, v) => return .pair (← valueOf k) (← valueOf v)

def entriesOf : List (Node × Node) →
    Except Fault (List (Scalar × Value) × List (Scalar × Value))
  | [] => .ok ([], [])
  | e :: rest => do
    let (m, o) ← entryOf e
    let (ms, os) ← entriesOf rest
    return (m ++ ms, o ++ os)

def entryOf : Node × Node → Except Fault (List (Scalar × Value) × List (Scalar × Value))
  | (k, v) =>
    if k.tag = .merge then return (← takenOver v, [])
    else return ([], [(← k.toKey, ← valueOf v)])

/-- The entries that a mapping takes over from a mapping or from a list of mappings, of which an
earlier one replaces a later one. -/
def takenOver : Node → Except Fault (List (Scalar × Value))
  | .mapping _ entries => do
    let (merged, own) ← entriesOf entries
    return merged ++ own
  | .sequence _ items => allTakenOver items
  | .scalar _ _ => .error .yaml

def allTakenOver : List Node → Except Fault (List (Scalar × Value))
  | [] => .ok []
  | .mapping _ entries :: rest => do
    let (merged, own) ← entriesOf entries
    return (← allTakenOver rest) ++ (merged ++ own)
  | _ => .error .yaml

end

end Typewright.Yaml
