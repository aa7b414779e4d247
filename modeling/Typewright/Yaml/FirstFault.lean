import Typewright.Yaml.NodeValue

/-!
# Which fault of a document counts

Several nodes of a document may have no value.
-/

namespace Typewright.Yaml

mutual

def flatEntries : List (Node × Node) → Except Fault (List (Node × Node) × List (Node × Node))
  | [] => .ok ([], [])
  | e :: rest => do
    let (m, o) ← flatEntry e
    let (ms, os) ← flatEntries rest
    return (m ++ ms, o ++ os)

def flatEntry : Node × Node → Except Fault (List (Node × Node) × List (Node × Node))
  | (k, v) => if k.tag = .merge then return (← flatNode v, []) else return ([], [(k, v)])

def flatNode : Node → Except Fault (List (Node × Node))
  | .mapping _ entries => do
    let (merged, own) ← flatEntries entries
    return merged ++ own
  | .sequence _ items => flatNodes items
  | .scalar _ _ => .error .yaml

def flatNodes : List Node → Except Fault (List (Node × Node))
  | [] => .ok []
  | .mapping _ entries :: rest => do
    let (merged, own) ← flatEntries entries
    return (← flatNodes rest) ++ (merged ++ own)
  | _ => .error .yaml

end

/-- What is found in a place of a collection: a node, a key, or a fault of the collection itself. -/
inductive Slot where
  | node (n : Node)
  | key (n : Node)
  | broken (fault : Fault)
deriving Repr

namespace Slot

def fault? : Slot → Option Fault
  | .broken f => some f
  | .node n => if n.tag.isCollection then none else faultOf n.toScalar
  | .key n => faultOf n.toKey
where
  faultOf : Except Fault Scalar → Option Fault
    | .ok _ => none
    | .error f => some f

def collection? : Slot → Option Node
  | .node n => if n.tag.isCollection then some n else none
  | _ => none

end Slot

def pairSlots : Node → List Slot
  | .mapping _ [(k, v)] => [.node k, .node v]
  | _ => [.broken .yaml]

def entrySlots (entries : List (Node × Node)) : List Slot :=
  match flatEntries entries with
  | .error f => [.broken f]
  | .ok (merged, own) => (merged ++ own).flatMap fun (k, v) => [.key k, .node v]

namespace Node

def slots : Node → List Slot
  | .sequence .seq items => items.map .node
  | .sequence .omap items => items.flatMap pairSlots
  | .sequence .pairs items => items.flatMap pairSlots
  | .mapping .map entries => entrySlots entries
  | .mapping .set entries => entrySlots entries
  | _ => [.broken .yaml]

mutual

def size : Node → Nat
  | .scalar _ _ => 1
  | .sequence _ items => sizeOfItems items + 1
  | .mapping _ entries => sizeOfEntries entries + 1

def sizeOfItems : List Node → Nat
  | [] => 0
  | n :: rest => n.size + sizeOfItems rest

def sizeOfEntries : List (Node × Node) → Nat
  | [] => 0
  | e :: rest => sizeOfEntry e + sizeOfEntries rest

def sizeOfEntry : Node × Node → Nat
  | (k, v) => k.size + v.size

end

end Node

/-- The first fault in a line of collections: those that a collection holds go to its end. -/
def faultInLine (fuel : Nat) (line : List Node) : Option Fault :=
  match fuel, line with
  | fuel + 1, n :: rest =>
    match n.slots.findSome? Slot.fault? with
    | some f => some f
    | none => faultInLine fuel (rest ++ n.slots.filterMap Slot.collection?)
  | _, _ => none

def Node.firstFault? (n : Node) : Option Fault :=
  (Slot.node n).fault? <|> faultInLine n.size [n]

end Typewright.Yaml
