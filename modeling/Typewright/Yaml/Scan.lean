import Typewright.Yaml.Token
import Typewright.Yaml.ScalarText
import Typewright.Text.Utf8

/-!
# From text to tokens

Block structure is found from columns: a line that is indented further opens a block, one that is indented less closes
blocks.
-/

namespace Typewright.Yaml

/-- A place where a key may have begun: how many tokens came before it, where it is, and whether the
block needs a key there. -/
structure MaybeKey where
  level : Nat
  tokens : Nat
  required : Bool
  index : Nat
  line : Nat
  column : Nat
deriving Repr

/-- The state of scanning. `out` holds the tokens so far, last first, and `count` their number;
`indent` is the column of the innermost block, `outer` those around it. -/
structure Scan where
  cur : Cursor
  flow : Nat
  indent : Int
  outer : List Int
  allowKey : Bool
  keys : List MaybeKey
  out : List Token
  count : Nat
deriving Repr

namespace Scan

def start (text : List Char) : Scan :=
  ⟨.ofText text, 0, -1, [], true, [], [], 0⟩

def emit (s : Scan) (t : Token) : Scan :=
  { s with out := t :: s.out, count := s.count + 1 }

def insertAt (s : Scan) (place : Nat) (ts : List Token) : Scan :=
  let later := s.count - place
  { s with
    out := s.out.take later ++ ts.reverse ++ s.out.drop later
    count := s.count + ts.length }

def closeTo (s : Scan) (column : Int) : Scan :=
  if s.flow ≠ 0 then s else go s.outer s
where
  go : List Int → Scan → Scan
    | outer, s =>
      if column < s.indent then
        match outer with
        | [] => { s.emit .blockEnd with indent := -1, outer := [] }
        | i :: outer => go outer { s.emit .blockEnd with indent := i, outer }
      else s

/-- Opens a block at a column if it lies further in; the new state, and whether it did. -/
def openAt (s : Scan) (column : Int) : Scan × Bool :=
  if s.indent < column then ({ s with outer := s.indent :: s.outer, indent := column }, true)
  else (s, false)

/-- Forgets the place of a key on the current level; a required one is a fault. -/
def dropKey (s : Scan) : Except Fault Scan :=
  if s.keys.any fun k => k.level == s.flow && k.required then .error .yaml
  else .ok { s with keys := s.keys.filter (·.level != s.flow) }

/-- Forgets the places of keys that are out of reach: on another line, or too far back. -/
def dropStaleKeys (s : Scan) : Except Fault Scan :=
  let stale (k : MaybeKey) := k.line != s.cur.line || 1024 < s.cur.index - k.index
  if s.keys.any fun k => stale k && k.required then .error .yaml
  else .ok { s with keys := s.keys.filter (!stale ·) }

def saveKey (s : Scan) : Except Fault Scan :=
  if s.allowKey then do
    let required := s.flow == 0 && s.indent == s.cur.column
    let s ← s.dropKey
    let key := ⟨s.flow, s.count, required, s.cur.index, s.cur.line, s.cur.column⟩
    return { s with keys := key :: s.keys }
  else .ok s

/-- Skips blanks, comments and line ends. After a line end a key may begin in a block. -/
def skipToToken (fuel : Nat) (s : Scan) : Scan :=
  match fuel with
  | 0 => s
  | fuel + 1 =>
    let c := s.cur.skipWhile (· == ' ')
    let c := if c.peek == '#' then c.skipWhile (fun ch => !isBreakOrEnd ch) else c
    match c.lineBreak? with
    | some (_, c) => skipToToken fuel { s with cur := c, allowKey := s.allowKey || s.flow == 0 }
    | none => { s with cur := c }

/-! ## Directives, anchors and tags -/

def isNameChar (c : Char) : Bool :=
  c.isAlphanum || c == '-' || c == '_'

def scanName (c : Cursor) : Except Fault (String × Cursor) :=
  let (name, c) := c.span isNameChar
  if name.isEmpty then .error .yaml else .ok (String.ofList name, c)

def scanNumber (c : Cursor) : Except Fault (Nat × Cursor) :=
  let (digits, c) := c.span Char.isDigit
  if digits.isEmpty then .error .yaml else .ok (Json.decimal digits, c)

def expect (c : Cursor) (p : Char → Bool) : Except Fault Unit :=
  if p c.peek then .ok () else .error .yaml

/-- A handle of tags: `!`, `!!` or `!name!`. -/
def scanHandle (c : Cursor) : Except Fault (String × Cursor) := do
  expect c (· == '!')
  let c := c.next
  if c.peek == ' ' then return ("!", c)
  let (name, c) := c.span isNameChar
  expect c (· == '!')
  return (String.ofList ('!' :: name ++ ['!']), c.next)

def isUriChar (c : Char) : Bool :=
  c.isAlphanum || "-;/?:@&=+$,_.!~*'()[]%".toList.contains c

/-- Replaces the escapes in an address by the characters that their bytes stand for. -/
def unescapeUri (fuel : Nat) (acc : List Char) (cs : List Char) : Except Fault (List Char) :=
  match fuel with
  | 0 => .ok acc
  | fuel + 1 =>
    match cs with
    | [] => .ok acc
    | '%' :: _ => do
      let (bytes, rest) ← takeBytes (cs.length + 1) [] cs
      match Text.decodeFrom [] bytes with
      | .ok text => unescapeUri fuel (acc ++ text) rest
      | .error _ => throw .yaml
    | c :: rest => unescapeUri fuel (acc ++ [c]) rest
where
  takeBytes (fuel : Nat) (acc : List UInt8) (cs : List Char) :
      Except Fault (List UInt8 × List Char) :=
    match fuel, cs with
    | fuel + 1, '%' :: a :: b :: rest =>
      match Json.hexDigit? a, Json.hexDigit? b with
      | some a, some b => takeBytes fuel (UInt8.ofNat (a * 16 + b) :: acc) rest
      | _, _ => .error .yaml
    | _, '%' :: _ => .error .yaml
    | _, cs => .ok (acc.reverse, cs)

def scanUri (c : Cursor) : Except Fault (String × Cursor) := do
  let (uri, c) := c.span isUriChar
  if uri.isEmpty then throw .yaml
  return (String.ofList (← unescapeUri (uri.length + 1) [] uri), c)

def scanDirective (c : Cursor) : Except Fault (Token × Cursor) := do
  let (name, c) ← scanName c
  expect c isBlankOrEnd
  if name = "YAML" then
    let (major, c) ← scanNumber (c.skipWhile (· == ' '))
    expect c (· == '.')
    let (_, c) ← scanNumber c.next
    expect c isBlankOrEnd
    return (.version major, ← c.endOfLine)
  else if name = "TAG" then
    let (handle, c) ← scanHandle (c.skipWhile (· == ' '))
    expect c (· == ' ')
    let (start, c) ← scanUri (c.skipWhile (· == ' '))
    expect c isBlankOrEnd
    return (.handle handle start, ← c.endOfLine)
  else
    return (.directive, ← (c.skipWhile fun ch => !isBreakOrEnd ch).endOfLine)

def scanAnchor (c : Cursor) : Except Fault (String × Cursor) := do
  let (name, c) ← scanName c
  expect c fun ch => isGap ch || ['?', ':', ',', ']', '\x7d', '%', '@', Char.ofNat 0x60].contains ch
  return (name, c)

def scanTag (c : Cursor) : Except Fault (Token × Cursor) := do
  let after := c.peekAt 1
  let (tag, c) ←
    if after == '<' then do
      let (suffix, c) ← scanUri (c.skip 2)
      expect c (· == '>')
      pure (Token.tag none suffix, c.next)
    else if isGap after then pure (Token.tag none "!", c.next)
    else do
      let word := c.rest.tail.takeWhile fun ch => !isBlankOrEnd ch
      let (handle, c) ← if word.contains '!' then scanHandle c else pure ("!", c.next)
      let (suffix, c) ← scanUri c
      pure (Token.tag (some handle) suffix, c)
  expect c isBlankOrEnd
  return (tag, c)

/-! ## One token -/

/-- Ends the blocks and the key of what came before a directive or a document mark. -/
def endBlocks (s : Scan) : Except Fault Scan := do
  let s ← (s.closeTo (-1)).dropKey
  return { s with allowKey := false }

def openFlow (s : Scan) (t : Token) : Except Fault Scan := do
  let s ← s.saveKey
  return { s.emit t with flow := s.flow + 1, allowKey := true, cur := s.cur.next }

def closeFlow (s : Scan) (t : Token) : Except Fault Scan := do
  if s.flow = 0 then throw .yaml
  let s ← s.dropKey
  return { s.emit t with flow := s.flow - 1, allowKey := false, cur := s.cur.next }

def blockSign (s : Scan) (opening sign : Token) (allowAfter : Bool) : Except Fault Scan := do
  let s ←
    if s.flow = 0 then
      if !s.allowKey then throw .yaml
      let (s, opened) := s.openAt s.cur.column
      pure (if opened then s.emit opening else s)
    else pure s
  let s ← { s with allowKey := allowAfter }.dropKey
  return { s.emit sign with cur := s.cur.next }

/-- Scans the colon before a value. If a key may have begun on this level, its token is put in there,
with the block that it opens. -/
def valueSign (s : Scan) : Except Fault Scan := do
  match s.keys.find? (·.level == s.flow) with
  | some k =>
    let s := { s with keys := s.keys.filter (·.level != s.flow) }
    let (s, opened) := if s.flow = 0 then s.openAt k.column else (s, false)
    let s := s.insertAt k.tokens (if opened then [.blockMapping, .key] else [.key])
    return { s.emit .value with allowKey := false, cur := s.cur.next }
  | none => s.blockSign .blockMapping .value (s.flow == 0)

/-- Scans a scalar, an alias, an anchor or a tag, before which a key may have begun. -/
def leaf (s : Scan) (scan : Cursor → Except Fault (Token × Cursor)) : Except Fault Scan := do
  let s ← s.saveKey
  let (t, c) ← scan s.cur
  return { s.emit t with allowKey := false, cur := c }

def blockLeaf (s : Scan) (folded : Bool) : Except Fault Scan := do
  let s ← { s with allowKey := true }.dropKey
  let (text, c) ← blockScalar folded s.indent s.cur.next
  return { s.emit (.scalar (String.ofList text) false) with cur := c }

/-- Scans a plain scalar. After a line end at its end a key may begin again. -/
def plainLeaf (s : Scan) : Except Fault Scan := do
  let s ← s.saveKey
  let (text, c, broke) :=
    plainScalar (s.flow != 0) (s.indent + 1) (s.cur.rest.length + 1) [] [] false s.cur
  return { s.emit (.scalar (String.ofList text) true) with allowKey := broke, cur := c }

def isIndicator (c : Char) : Bool :=
  isGap c || "-?:,[]\x7b\x7d#&*!|>'\"%@".toList.contains c || c == Char.ofNat 0x60

def plainBegins (s : Scan) : Bool :=
  let ch := s.cur.peek
  !isIndicator ch ||
    (!isGap (s.cur.peekAt 1) && (ch == '-' || (s.flow == 0 && (ch == '?' || ch == ':'))))

def token (s : Scan) : Except Fault Scan :=
  let c := s.cur
  let ch := c.peek
  let gapAfter := isGap (c.peekAt 1)
  let inFlow := s.flow != 0
  if ch == '%' && c.column == 0 then do
    let s ← s.endBlocks
    let (t, c) ← scanDirective c.next
    return { s.emit t with cur := c }
  else if c.column == 0 && c.atMark '-' then do
    let s ← s.endBlocks
    return { s.emit .documentStart with cur := c.skip 3 }
  else if c.column == 0 && c.atMark '.' then do
    let s ← s.endBlocks
    return { s.emit .documentEnd with cur := c.skip 3 }
  else if ch == '[' then s.openFlow .flowSequence
  else if ch == '\x7b' then s.openFlow .flowMapping
  else if ch == ']' then s.closeFlow .flowSequenceEnd
  else if ch == '\x7d' then s.closeFlow .flowMappingEnd
  else if ch == ',' then do
    let s ← { s with allowKey := true }.dropKey
    return { s.emit .flowEntry with cur := c.next }
  else if ch == '-' && gapAfter then s.blockSign .blockSequence .blockEntry true
  else if ch == '?' && (inFlow || gapAfter) then s.blockSign .blockMapping .key (!inFlow)
  else if ch == ':' && (inFlow || gapAfter) then s.valueSign
  else if ch == '*' then s.leaf fun c => return ((← scanAnchor c.next).map .alias id)
  else if ch == '&' then s.leaf fun c => return ((← scanAnchor c.next).map .anchor id)
  else if ch == '!' then s.leaf scanTag
  else if ch == '|' && !inFlow then s.blockLeaf false
  else if ch == '>' && !inFlow then s.blockLeaf true
  else if ch == '\'' || ch == '"' then
    s.leaf fun c => do
      let (text, c) ← quotedScalar (ch == '"') (c.rest.length + 1) [] c.next
      return (.scalar (String.ofList text) false, c)
  else if s.plainBegins then s.plainLeaf
  else .error .yaml

def run (fuel : Nat) (s : Scan) : Except Fault Scan :=
  match fuel with
  | 0 => .error .yaml
  | fuel + 1 => do
    let s := s.skipToToken (s.cur.rest.length + 1)
    let s ← s.dropStaleKeys
    let s := s.closeTo s.cur.column
    if s.cur.rest.isEmpty then s.endBlocks else run fuel (← s.token)

end Scan

def isAllowed (c : Char) : Bool :=
  let n := c.toNat
  n == 9 || n == 10 || n == 13 || (0x20 ≤ n && n ≤ 0x7E) || n == 0x85 ||
    (0xA0 ≤ n && n ≤ 0xD7FF) || (0xE000 ≤ n && n ≤ 0xFFFD) || 0x10000 ≤ n

/-- The tokens of a text. A byte order mark at its start is skipped. -/
def tokens (text : List Char) : Except Fault (List Token) := do
  if !text.all isAllowed then throw .yaml
  let text := if text.head? = some Json.byteOrderMark then text.tail else text
  let s ← (Scan.start text).run (text.length + 2)
  return s.out.reverse

end Typewright.Yaml
