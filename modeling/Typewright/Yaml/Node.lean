import Typewright.Yaml.Token
import Typewright.Yaml.Plain

/-!
# From tokens to nodes

The tree of a YAML document. Aliases are replaced by the nodes that they name.
-/

namespace Typewright.Yaml

inductive Node where
  | scalar (tag : Tag) (text : String)
  | sequence (tag : Tag) (items : List Node)
  | mapping (tag : Tag) (entries : List (Node × Node))
deriving Repr

namespace Node

def empty : Node := .scalar .null ""

def tag : Node → Tag
  | .scalar t _ => t
  | .sequence t _ => t
  | .mapping t _ => t

end Node

/-- The state of building a tree: the tokens left, the handles of tags, the nodes with names, and the
names of nodes that are not finished. -/
structure Builder where
  tokens : List Token
  handles : List (String × String)
  anchors : List (String × Node)
  unfinished : List String
deriving Repr

abbrev Build (α : Type) := Builder → Except Fault (α × Builder)

namespace Builder

def peek? (b : Builder) : Option Token :=
  b.tokens.head?

def at? (b : Builder) (ts : List Token) : Bool :=
  b.peek?.any ts.contains

def drop (b : Builder) : Builder :=
  { b with tokens := b.tokens.tail }

def defaultHandles : List (String × String) :=
  [("!", "!"), ("!!", Tag.root)]

end Builder

structure Properties where
  anchor : Option String
  tag : Option (Option String × String)
deriving Repr

/-- Reads the name and the tag in front of a node, in either order. -/
def properties (b : Builder) : Properties × Builder :=
  match b.tokens with
  | .anchor a :: .tag h s :: rest => (⟨some a, some (h, s)⟩, { b with tokens := rest })
  | .tag h s :: .anchor a :: rest => (⟨some a, some (h, s)⟩, { b with tokens := rest })
  | .anchor a :: rest => (⟨some a, none⟩, { b with tokens := rest })
  | .tag h s :: rest => (⟨none, some (h, s)⟩, { b with tokens := rest })
  | _ => (⟨none, none⟩, b)

/-- The full name of the tag of a node; `!` says as much as no tag. -/
def fullTag (b : Builder) : Option (Option String × String) → Except Fault (Option String)
  | none => .ok none
  | some (none, suffix) => .ok (if suffix = "!" then none else some suffix)
  | some (some handle, suffix) =>
    match b.handles.find? (·.1 == handle) with
    | some (_, start) => .ok (if start ++ suffix = "!" then none else some (start ++ suffix))
    | none => .error .yaml

/-- The tag of a scalar. A plain scalar, and one marked `!`, is known by its form. -/
def scalarTag (name : Option String) (plain marked : Bool) (text : String) : Tag :=
  match name with
  | some name => .ofName name
  | none => if plain || marked then plainTag text else .str

/-- Finishes a node: its name, if it has one, stands for it from now on. -/
def finish (anchor : Option String) (n : Node) (b : Builder) : Node × Builder :=
  match anchor with
  | none => (n, b)
  | some a => (n, { b with anchors := (a, n) :: b.anchors, unfinished := b.unfinished.erase a })

mutual

/-- Builds a node. `block` says whether a block may stand here, `indentless` whether the items of a
sequence may stand here without a block of their own. -/
def buildNode (block indentless : Bool) (fuel : Nat) : Build Node := fun b =>
  match fuel with
  | 0 => .error .yaml
  | fuel + 1 =>
    match b.tokens with
    | .alias name :: _ =>
      match b.anchors.find? (·.1 == name) with
      | some (_, n) => .ok (n, b.drop)
      | none => .error (if b.unfinished.contains name then .tooDeep else .yaml)
    | _ => do
      let (props, b) := properties b
      let name ← fullTag b props.tag
      let taken (a : String) := b.unfinished.contains a || b.anchors.any (·.1 == a)
      if props.anchor.any taken then throw .yaml
      let b := { b with unfinished := props.anchor.toList ++ b.unfinished }
      let tagOr (t : Tag) : Tag := (name.map Tag.ofName).getD t
      match b.tokens with
      | .scalar text plain :: _ =>
        let tag := scalarTag name plain (props.tag.isSome && name.isNone) text
        return finish props.anchor (.scalar tag text) b.drop
      | .flowSequence :: _ =>
        let (items, b) ← buildFlowItems true fuel b.drop
        return finish props.anchor (.sequence (tagOr .seq) items) b
      | .flowMapping :: _ =>
        let (entries, b) ← buildFlowEntries true fuel b.drop
        return finish props.anchor (.mapping (tagOr .map) entries) b
      | t :: _ =>
        if indentless && t == .blockEntry then
          let (items, b) ← buildItems false fuel b
          return finish props.anchor (.sequence (tagOr .seq) items) b
        else if block && t == .blockSequence then
          let (items, b) ← buildItems true fuel b.drop
          return finish props.anchor (.sequence (tagOr .seq) items) b
        else if block && t == .blockMapping then
          let (entries, b) ← buildEntries fuel b.drop
          return finish props.anchor (.mapping (tagOr .map) entries) b
        else if props.anchor.isSome || props.tag.isSome then
          return finish props.anchor (.scalar (tagOr .null) "") b
        else throw .yaml
      | [] =>
        if props.anchor.isSome || props.tag.isSome then
          return finish props.anchor (.scalar (tagOr .null) "") b
        else throw .yaml

/-- Builds the items of a block sequence. With `closed` the block has an end of its own. -/
def buildItems (closed : Bool) (fuel : Nat) : Build (List Node) := fun b =>
  match fuel with
  | 0 => .error .yaml
  | fuel + 1 =>
    match b.tokens with
    | .blockEntry :: _ => do
      let b := b.drop
      let ends : List Token :=
        if closed then [.blockEntry, .blockEnd] else [.blockEntry, .key, .value, .blockEnd]
      let (item, b) ← if b.at? ends then pure (Node.empty, b) else buildNode true false fuel b
      let (items, b) ← buildItems closed fuel b
      return (item :: items, b)
    | .blockEnd :: _ => .ok ([], if closed then b.drop else b)
    | _ => if closed then .error .yaml else .ok ([], b)

def buildEntries (fuel : Nat) : Build (List (Node × Node)) := fun b =>
  match fuel with
  | 0 => .error .yaml
  | fuel + 1 =>
    let ends : List Token := [.key, .value, .blockEnd]
    let value (b : Builder) : Except Fault (Node × Builder) :=
      if b.at? [.value] then
        let b := b.drop
        if b.at? ends then .ok (Node.empty, b) else buildNode true true fuel b
      else .ok (Node.empty, b)
    match b.tokens with
    | .key :: _ => do
      let b := b.drop
      let (k, b) ← if b.at? ends then pure (Node.empty, b) else buildNode true true fuel b
      let (v, b) ← value b
      let (entries, b) ← buildEntries fuel b
      return ((k, v) :: entries, b)
    | .blockEnd :: _ => .ok ([], b.drop)
    | _ => .error .yaml

/-- Builds the items of a sequence in brackets. A key there makes a mapping of one entry. -/
def buildFlowItems (first : Bool) (fuel : Nat) : Build (List Node) := fun b =>
  match fuel with
  | 0 => .error .yaml
  | fuel + 1 => do
    if b.at? [.flowSequenceEnd] then return ([], b.drop)
    let b ← if first then pure b else if b.at? [.flowEntry] then pure b.drop else throw .yaml
    if b.at? [.flowSequenceEnd] then return ([], b.drop)
    let (item, b) ←
      if b.at? [.key] then do
        let b := b.drop
        let (k, b) ←
          if b.at? [.value, .flowEntry, .flowSequenceEnd] then pure (Node.empty, b)
          else buildNode false false fuel b
        let (v, b) ←
          if b.at? [.value] then
            let b := b.drop
            if b.at? [.flowEntry, .flowSequenceEnd] then pure (Node.empty, b)
            else buildNode false false fuel b
          else pure (Node.empty, b)
        pure (Node.mapping .map [(k, v)], b)
      else buildNode false false fuel b
    let (items, b) ← buildFlowItems false fuel b
    return (item :: items, b)

def buildFlowEntries (first : Bool) (fuel : Nat) : Build (List (Node × Node)) := fun b =>
  match fuel with
  | 0 => .error .yaml
  | fuel + 1 => do
    if b.at? [.flowMappingEnd] then return ([], b.drop)
    let b ← if first then pure b else if b.at? [.flowEntry] then pure b.drop else throw .yaml
    if b.at? [.flowMappingEnd] then return ([], b.drop)
    let (entry, b) ←
      if b.at? [.key] then do
        let b := b.drop
        let (k, b) ←
          if b.at? [.value, .flowEntry, .flowMappingEnd] then pure (Node.empty, b)
          else buildNode false false fuel b
        let (v, b) ←
          if b.at? [.value] then
            let b := b.drop
            if b.at? [.flowEntry, .flowMappingEnd] then pure (Node.empty, b)
            else buildNode false false fuel b
          else pure (Node.empty, b)
        pure ((k, v), b)
      else do
        let (k, b) ← buildNode false false fuel b
        pure ((k, Node.empty), b)
    let (entries, b) ← buildFlowEntries false fuel b
    return (entry :: entries, b)

end

def readDirectives (version : Bool) (handles : List (String × String)) :
    List Token → Except Fault (List (String × String) × List Token)
  | .version major :: rest =>
    if version || major ≠ 1 then .error .yaml else readDirectives true handles rest
  | .handle name start :: rest =>
    if handles.any (·.1 == name) then .error .yaml
    else readDirectives version ((name, start) :: handles) rest
  | .directive :: rest => readDirectives version handles rest
  | ts => .ok (handles, ts)

def onlyEnds (ts : List Token) : Bool :=
  ts.all (· == .documentEnd)

/-- The one document of a stream of tokens; no document at all is an empty one. -/
def document (ts : List Token) : Except Fault (Option Node) := do
  let fuel := 4 * ts.length + 8
  let isStart (t : Token) : Bool :=
    match t with
    | .version _ => true
    | .handle _ _ => true
    | .directive => true
    | .documentStart => true
    | _ => false
  let content (handles : List (String × String)) (ts : List Token) :
      Except Fault (Node × List Token) := do
    let (n, b) ← buildNode true false fuel ⟨ts, handles, [], []⟩
    return (n, b.tokens)
  let (node, rest) ←
    match ts with
    | [] => return none
    | t :: _ =>
      if isStart t then do
        let (handles, rest) ← readDirectives false [] ts
        let handles := handles ++ Builder.defaultHandles
        match rest with
        | .documentStart :: rest =>
          match rest with
          | [] => pure (Node.empty, rest)
          | t :: _ =>
            if isStart t || t == .documentEnd then pure (Node.empty, rest) else content handles rest
        | _ => throw .yaml
      else content Builder.defaultHandles ts
  if onlyEnds rest then return some node else throw .yaml

end Typewright.Yaml
