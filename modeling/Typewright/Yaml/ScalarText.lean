import Typewright.Yaml.Cursor
import Typewright.Json.Reader

/-!
# The text of YAML scalars

Plain, quoted and block scalars: where they end, and how line ends inside them are folded.
-/

namespace Typewright.Yaml

/-! ## Plain scalars -/

def plainGoesOn (inFlow : Bool) (cs : List Char) : Bool :=
  let ch := cs.headD endMark
  let after := cs.tail.headD endMark
  let flowMark := fun c => c == ',' || c == '[' || c == ']' || c == '\x7b' || c == '\x7d'
  !(isGap ch || (ch == ':' && (isGap after || (inFlow && flowMark after))) ||
    (inFlow && (flowMark ch || ch == '?')))

def plainLength (inFlow : Bool) : List Char → Nat
  | [] => 0
  | c :: rest => if plainGoesOn inFlow (c :: rest) then plainLength inFlow rest + 1 else 0

/-- The line ends and blanks at the start of a line inside a plain scalar; none at all if a document
mark comes first. -/
def plainBreaks (fuel : Nat) (acc : List Char) (c : Cursor) : Option (List Char) × Cursor :=
  match fuel with
  | 0 => (some acc.reverse, c)
  | fuel + 1 =>
    if c.peek == ' ' then plainBreaks fuel acc c.next
    else
      match c.lineBreak? with
      | some (b, c) =>
        if c.atDocumentMark then (none, c) else plainBreaks fuel (b :: acc) c
      | none => (some acc.reverse, c)

/-- A line end followed by more line ends, as text: one line feed is a blank, or nothing before
others. -/
def foldBreaks (first : Char) (more : List Char) : List Char :=
  (if first != '\n' then [first] else if more.isEmpty then [' '] else []) ++ more

/-- The space between two parts of a plain scalar: its text, the place after it, and whether it holds
a line end. No text means that the scalar ends. -/
def plainSpace (c : Cursor) : List Char × Cursor × Bool :=
  let (blanks, c) := c.span (· == ' ')
  match c.lineBreak? with
  | some (b, c) =>
    if c.atDocumentMark then ([], c, true)
    else
      match plainBreaks (c.rest.length + 1) [] c with
      | (none, c) => ([], c, true)
      | (some more, c) => (foldBreaks b more, c, true)
  | none => (blanks, c, false)

/-- A plain scalar from a place inside it: its text, the place after it, and whether a line end was
the last thing read. `space` is the space read before. -/
def plainScalar (inFlow : Bool) (indent : Int) (fuel : Nat) (acc space : List Char) (broke : Bool)
    (c : Cursor) : List Char × Cursor × Bool :=
  match fuel with
  | 0 => (acc, c, broke)
  | fuel + 1 =>
    if c.peek == '#' then (acc, c, broke)
    else
      let n := plainLength inFlow c.rest
      if n = 0 then (acc, c, broke)
      else
        let acc := acc ++ space ++ c.rest.take n
        let (space, c, broke) := plainSpace (c.skip n)
        if space.isEmpty || c.peek == '#' || (!inFlow && (c.column : Int) < indent) then
          (acc, c, broke)
        else plainScalar inFlow indent fuel acc space broke c

def escapes : List (Char × Nat) :=
  [('0', 0), ('a', 7), ('b', 8), ('t', 9), ('\t', 9), ('n', 10), ('v', 11), ('f', 12), ('r', 13),
    ('e', 27), (' ', 32), ('"', 34), ('\\', 92), ('/', 47), ('N', 0x85), ('_', 0xA0), ('L', 0x2028),
    ('P', 0x2029)]

def escapeWidth? : Char → Option Nat
  | 'x' => some 2
  | 'u' => some 4
  | 'U' => some 8
  | _ => none

def hexNumber? (digits : List Char) : Option Nat :=
  digits.foldlM (fun n d => (Json.hexDigit? d).map (n * 16 + ·)) 0

/-- The line ends after a line end inside quotes, without the blanks around them. -/
def quotedBreaks (fuel : Nat) (acc : List Char) (c : Cursor) : Except Fault (List Char × Cursor) :=
  match fuel with
  | 0 => .ok (acc.reverse, c)
  | fuel + 1 =>
    if c.atDocumentMark then .error .yaml
    else
      let c := c.skipWhile (fun ch => ch == ' ' || ch == '\t')
      match c.lineBreak? with
      | some (b, c) => quotedBreaks fuel (b :: acc) c
      | none => .ok (acc.reverse, c)

/-- The space inside quotes: blanks as they are, line ends folded. -/
def quotedSpace (c : Cursor) : Except Fault (List Char × Cursor) :=
  let (blanks, c) := c.span (fun ch => ch == ' ' || ch == '\t')
  if c.peek == endMark then .error .yaml
  else
    match c.lineBreak? with
    | some (b, c) => do
      let (more, c) ← quotedBreaks (c.rest.length + 1) [] c
      return (foldBreaks b more, c)
    | none => .ok (blanks, c)

/-- The second half of a character that is written as two escapes, and the place after it. -/
def secondHalf? (c : Cursor) : Option (Nat × Cursor) :=
  match c.rest.take 6 with
  | ['\\', 'u', p, q, r, s] => do
    let low ← hexNumber? [p, q, r, s]
    if Json.isLowHalf low then some (low, c.skip 6) else none
  | _ => none

/-- An escape after its backslash: what it stands for, and the place after it. -/
def quotedEscape (c : Cursor) : Except Fault (List Char × Cursor) :=
  let ch := c.peek
  match escapes.find? (·.1 == ch) with
  | some (_, code) => .ok ([Char.ofNat code], c.next)
  | none =>
    match escapeWidth? ch with
    | some width =>
      let c := c.next
      let digits := c.rest.take width
      match if digits.length = width then hexNumber? digits else none with
      | none => .error .yaml
      | some code =>
        if 0x80000000 ≤ code then .error (.overflow "Python int too large to convert to C int")
        else if 0x110000 ≤ code then .error (.content "chr() arg not in range(0x110000)")
        else
          let c := c.skip width
          match if Json.isHighHalf code then secondHalf? c else none with
          | some (low, c) => .ok ([Json.joinHalves code low], c)
          | none => .ok ([Json.charOfCode code], c)
    | none =>
      match c.lineBreak? with
      | some (_, c) => quotedBreaks (c.rest.length + 1) [] c
      | none => .error .yaml

def quotedScalar (double : Bool) (fuel : Nat) (acc : List Char) (c : Cursor) :
    Except Fault (List Char × Cursor) :=
  match fuel with
  | 0 => .error .yaml
  | fuel + 1 =>
    let ch := c.peek
    if double then
      if ch == '"' then .ok (acc, c.next)
      else if ch == '\\' then do
        let (text, c) ← quotedEscape c.next
        quotedScalar double fuel (acc ++ text) c
      else if isGap ch then do
        let (text, c) ← quotedSpace c
        quotedScalar double fuel (acc ++ text) c
      else
        let (text, c) := c.span fun x => !(isGap x || x == '"' || x == '\\')
        quotedScalar double fuel (acc ++ text) c
    else
      if ch == '\'' then
        if c.peekAt 1 == '\'' then quotedScalar double fuel (acc ++ ['\'']) (c.skip 2)
        else .ok (acc, c.next)
      else if isGap ch then do
        let (text, c) ← quotedSpace c
        quotedScalar double fuel (acc ++ text) c
      else
        let (text, c) := c.span fun x => !(isGap x || x == '\'')
        quotedScalar double fuel (acc ++ text) c

inductive Chomp where
  | clip | strip | keep
deriving DecidableEq, Repr

/-- The marks after the sign of a block scalar: what to do with the end, and the indentation. -/
def blockMarks (c : Cursor) : Except Fault (Chomp × Option Nat × Cursor) := do
  let chomp? (c : Cursor) : Option Chomp × Cursor :=
    if c.peek == '+' then (some .keep, c.next)
    else if c.peek == '-' then (some .strip, c.next)
    else (none, c)
  let width? (c : Cursor) : Except Fault (Option Nat × Cursor) :=
    if c.peek.isDigit then
      if c.peek == '0' then .error .yaml else .ok (some (c.peek.toNat - '0'.toNat), c.next)
    else .ok (none, c)
  let (first, c) := chomp? c
  let (width, c) ← width? c
  let (second, c) := if first.isNone && width.isSome then chomp? c else (none, c)
  if isBlankOrEnd c.peek then
    return ((first.orElse fun _ => second).getD .clip, width, c)
  throw .yaml

/-- The line ends before the first line of a block scalar, the widest indentation on the way, and the
place after them. -/
def blockIndentation (fuel : Nat) (acc : List Char) (widest : Nat) (c : Cursor) :
    List Char × Nat × Cursor :=
  match fuel with
  | 0 => (acc.reverse, widest, c)
  | fuel + 1 =>
    if c.peek == ' ' then
      let c := c.next
      blockIndentation fuel acc (max widest c.column) c
    else
      match c.lineBreak? with
      | some (b, c) => blockIndentation fuel (b :: acc) widest c
      | none => (acc.reverse, widest, c)

def skipTo (indent : Nat) (c : Cursor) : Cursor :=
  c.skip (min (c.rest.takeWhile (· == ' ')).length (indent - c.column))

/-- The empty lines before the next line of a block scalar. -/
def blockBreaks (indent : Nat) (fuel : Nat) (acc : List Char) (c : Cursor) : List Char × Cursor :=
  match fuel with
  | 0 => (acc.reverse, c)
  | fuel + 1 =>
    let c := skipTo indent c
    match c.lineBreak? with
    | some (b, c) => blockBreaks indent fuel (b :: acc) c
    | none => (acc.reverse, c)

/-- The lines of a block scalar: the text, the last line end, the empty lines after it, and the place after them. -/
def blockLines (folded : Bool) (indent : Nat) (fuel : Nat) (acc breaks : List Char)
    (last : List Char) (c : Cursor) : List Char × List Char × List Char × Cursor :=
  match fuel with
  | 0 => (acc, last, breaks, c)
  | fuel + 1 =>
    if c.column = indent && c.peek != endMark then
      let leading := !(c.peek == ' ' || c.peek == '\t')
      let (line, c) := c.span fun ch => !isBreakOrEnd ch
      let acc := acc ++ breaks ++ line
      let (last, c) :=
        match c.lineBreak? with
        | some (b, c) => ([b], c)
        | none => ([], c)
      let (breaks, c) := blockBreaks indent (c.rest.length + 1) [] c
      if c.column = indent && c.peek != endMark then
        let joins := folded && last == ['\n'] && leading && !(c.peek == ' ' || c.peek == '\t')
        let acc := acc ++ (if joins then (if breaks.isEmpty then [' '] else []) else last)
        blockLines folded indent fuel acc breaks last c
      else (acc, last, breaks, c)
    else (acc, last, breaks, c)

/-- A block scalar after its sign, inside a block of the given indentation. -/
def blockScalar (folded : Bool) (parent : Int) (c : Cursor) : Except Fault (List Char × Cursor) := do
  let (chomp, width, c) ← blockMarks c
  let c ← c.endOfLine
  let least : Nat := (max (parent + 1) 1).toNat
  let fuel := c.rest.length + 1
  let (indent, breaks, c) :=
    match width with
    | none =>
      let (breaks, widest, c) := blockIndentation fuel [] 0 c
      (max least widest, breaks, c)
    | some width =>
      let indent := least + width - 1
      let (breaks, c) := blockBreaks indent fuel [] c
      (indent, breaks, c)
  let (text, last, breaks, c) := blockLines folded indent fuel [] breaks [] c
  let text := if chomp = .strip then text else text ++ last
  let text := if chomp = .keep then text ++ breaks else text
  return (text, c)

end Typewright.Yaml
