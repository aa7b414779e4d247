import Typewright.Document.Fault

/-!
# A place in a YAML text

The characters that are left, with the line and the column of the first of them.
-/

namespace Typewright.Yaml

def endMark : Char := '\x00'

def isBreak (c : Char) : Bool :=
  c == '\n' || c == Char.ofNat 0x85 || c == Char.ofNat 0x2028 || c == Char.ofNat 0x2029

def isBreakOrEnd (c : Char) : Bool :=
  c == endMark || isBreak c

def isBlankOrEnd (c : Char) : Bool :=
  c == ' ' || isBreakOrEnd c

def isGap (c : Char) : Bool :=
  c == '\t' || isBlankOrEnd c

structure Cursor where
  rest : List Char
  index : Nat
  line : Nat
  column : Nat
deriving Repr

namespace Cursor

def ofText (text : List Char) : Cursor :=
  ⟨text, 0, 0, 0⟩

def peek (c : Cursor) : Char :=
  c.rest.headD endMark

def peekAt (c : Cursor) (n : Nat) : Char :=
  (c.rest.drop n).headD endMark

def next (c : Cursor) : Cursor :=
  match c.rest with
  | [] => c
  | ch :: rest =>
    if isBreak ch then ⟨rest, c.index + 1, c.line + 1, 0⟩
    else if ch == Char.ofNat 0xFEFF then ⟨rest, c.index + 1, c.line, c.column⟩
    else ⟨rest, c.index + 1, c.line, c.column + 1⟩

def skip (c : Cursor) : Nat → Cursor
  | 0 => c
  | n + 1 => c.next.skip n

/-- The characters of a class that come next, and the place after them. -/
def span (c : Cursor) (p : Char → Bool) : List Char × Cursor :=
  let taken := c.rest.takeWhile p
  (taken, c.skip taken.length)

def skipWhile (c : Cursor) (p : Char → Bool) : Cursor :=
  (c.span p).2

/-- A line end, if it is next: the character it is read as, and the place after it. -/
def lineBreak? (c : Cursor) : Option (Char × Cursor) :=
  let ch := c.peek
  if ch == '\n' || ch == Char.ofNat 0x85 then some ('\n', c.next)
  else if isBreak ch then some (ch, c.next)
  else none

def atMark (c : Cursor) (mark : Char) : Bool :=
  c.peek == mark && c.peekAt 1 == mark && c.peekAt 2 == mark && isGap (c.peekAt 3)

def atDocumentMark (c : Cursor) : Bool :=
  c.atMark '-' || c.atMark '.'

/-- The place after a comment and blanks, where the line has to end. -/
def endOfLine (c : Cursor) : Except Fault Cursor :=
  let c := c.skipWhile (· == ' ')
  let c := if c.peek == '#' then c.skipWhile (fun ch => !isBreakOrEnd ch) else c
  if isBreakOrEnd c.peek then .ok ((c.lineBreak?.map (·.2)).getD c) else .error .yaml

end Cursor

end Typewright.Yaml
