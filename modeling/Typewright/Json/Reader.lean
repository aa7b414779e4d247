import Typewright.Document.Fault

/-!
# Reading JSON

A reader for JSON texts that keeps the order of keys and tells whole numbers from binary64 ones. It works on the
characters that are left, and where it stops is known by how many of them there are.
-/

namespace Typewright.Json

structure Stop where
  problem : String
  left : Nat
deriving DecidableEq, Repr

def isSpace (c : Char) : Bool :=
  c == ' ' || c == '\t' || c == '\n' || c == '\r'

def skipSpace (cs : List Char) : List Char :=
  cs.dropWhile isSpace

def hexDigit? (c : Char) : Option Nat :=
  if c.isDigit then some (c.toNat - '0'.toNat)
  else if 'a' ≤ c && c ≤ 'f' then some (c.toNat - 'a'.toNat + 10)
  else if 'A' ≤ c && c ≤ 'F' then some (c.toNat - 'A'.toNat + 10)
  else none

def hexFour? (a b c d : Char) : Option Nat := do
  return (((← hexDigit? a) * 16 + (← hexDigit? b)) * 16 + (← hexDigit? c)) * 16 + (← hexDigit? d)

def isHighHalf (n : Nat) : Bool :=
  0xD800 ≤ n && n ≤ 0xDBFF

def isLowHalf (n : Nat) : Bool :=
  0xDC00 ≤ n && n ≤ 0xDFFF

def joinHalves (high low : Nat) : Char :=
  Char.ofNat (0x10000 + (high - 0xD800) * 0x400 + (low - 0xDC00))

/-- The character with a code; a lone half becomes the replacement character. -/
def charOfCode (n : Nat) : Char :=
  if isHighHalf n || isLowHalf n then Char.ofNat 0xFFFD else Char.ofNat n

def shortEscape? : Char → Option Char
  | '"' => some '"'
  | '\\' => some '\\'
  | '/' => some '/'
  | 'b' => some '\x08'
  | 'f' => some '\x0c'
  | 'n' => some '\n'
  | 'r' => some '\r'
  | 't' => some '\t'
  | _ => none

/-- Reads a string up to its closing quote. `start` is how many characters were left at its opening
quote, and `acc` holds what was read, last character first. -/
def readString (start : Nat) (acc : List Char) :
    List Char → Except Stop (String × List Char)
  | [] => .error ⟨"Unterminated string starting at", start⟩
  | '"' :: rest => .ok (String.ofList acc.reverse, rest)
  | ['\\'] => .error ⟨"Unterminated string starting at", start⟩
  | '\\' :: 'u' :: a :: b :: c :: d :: e :: rest =>
    match hexFour? a b c d with
    | none => .error ⟨"Invalid \\uXXXX escape", rest.length + 6⟩
    | some high =>
      match e, rest with
      | '\\', 'u' :: a' :: b' :: c' :: d' :: e' :: rest' =>
        if isHighHalf high then
          match hexFour? a' b' c' d' with
          | none => .error ⟨"Invalid \\uXXXX escape", rest'.length + 6⟩
          | some low =>
            if isLowHalf low then readString start (joinHalves high low :: acc) (e' :: rest')
            else readString start (charOfCode high :: acc)
              ('\\' :: 'u' :: a' :: b' :: c' :: d' :: e' :: rest')
        else readString start (charOfCode high :: acc)
          ('\\' :: 'u' :: a' :: b' :: c' :: d' :: e' :: rest')
      | e, rest => readString start (charOfCode high :: acc) (e :: rest)
  | '\\' :: 'u' :: rest => .error ⟨"Invalid \\uXXXX escape", rest.length + 1⟩
  | '\\' :: c :: rest =>
    match shortEscape? c with
    | some c' => readString start (c' :: acc) rest
    | none => .error ⟨"Invalid \\escape", rest.length + 2⟩
  | c :: rest =>
    if c.toNat ≤ 0x1f then .error ⟨"Invalid control character at", rest.length + 1⟩
    else readString start (c :: acc) rest

def decimal (digits : List Char) : Nat :=
  digits.foldl (fun n c => n * 10 + (c.toNat - '0'.toNat)) 0

def readFraction : List Char → Option (List Char) × List Char
  | '.' :: c :: rest =>
    if c.isDigit then
      (some (c :: rest.takeWhile Char.isDigit), rest.dropWhile Char.isDigit)
    else (none, '.' :: c :: rest)
  | cs => (none, cs)

/-- The exponent, if a mark with at least one digit is next. -/
def readExponent (cs : List Char) : Option Int × List Char :=
  match cs with
  | m :: rest =>
    if m = 'e' || m = 'E' then
      let (negative, unsigned) :=
        match rest with
        | '-' :: r => (true, r)
        | '+' :: r => (false, r)
        | r => (false, r)
      let digits := unsigned.takeWhile Char.isDigit
      if digits.isEmpty then (none, cs)
      else
        let n : Int := decimal digits
        (some (if negative then -n else n), unsigned.dropWhile Char.isDigit)
    else (none, cs)
  | [] => (none, cs)

def maxWholeDigits : Nat := 4300

def tooManyDigits (count : Nat) : Fault :=
  .content ("Exceeds the limit (" ++ toString maxWholeDigits ++
    " digits) for integer string conversion: value has " ++ toString count ++
    " digits; use sys.set_int_max_str_digits() to increase the limit")

def readNumber (start : Nat) (negative : Bool) (cs : List Char) :
    Except Stop (Except Fault Value × List Char) :=
  let wholeEnd? : Option (List Char × List Char) :=
    match cs with
    | '0' :: rest => some (['0'], rest)
    | c :: _ =>
      if c.isDigit then some (cs.takeWhile Char.isDigit, cs.dropWhile Char.isDigit) else none
    | [] => none
  match wholeEnd? with
  | none => .error ⟨"Expecting value", start⟩
  | some (whole, rest) =>
    let (fraction, rest) := readFraction rest
    let (exponent, rest) := readExponent rest
    if fraction.isNone && exponent.isNone then
      if maxWholeDigits < whole.length then
        .ok (.error (tooManyDigits whole.length), rest)
      else
        let n : Int := decimal whole
        .ok (.ok (.int (if negative then -n else n)), rest)
    else
      let digits := fraction.getD []
      let scale : Int := exponent.getD 0 - digits.length
      .ok (.ok (.scalar (.float (.ofDecimal negative (decimal (whole ++ digits)) scale))), rest)

def words : List (String × Value) :=
  [("null", .null), ("true", .bool true), ("false", .bool false),
    ("NaN", .scalar (.float .nan)), ("Infinity", .scalar (.float (.inf false))),
    ("-Infinity", .scalar (.float (.inf true)))]

def readWord? (cs : List Char) : Option (Value × List Char) :=
  (words.find? fun w => w.1.toList.isPrefixOf cs).map fun w => (w.2, cs.drop w.1.length)

inductive Failure where
  | stop (place : Stop)
  | refused (fault : Fault)
deriving DecidableEq, Repr

def step {α : Type} : Except Stop α → Except Failure α
  | .ok a => .ok a
  | .error s => .error (.stop s)

mutual

def readValue (fuel : Nat) (cs : List Char) : Except Failure (Value × List Char) :=
  match fuel with
  | 0 => .error (.refused .tooDeep)
  | fuel + 1 =>
    match cs with
    | '"' :: rest => do
      let (s, rest) ← step (readString cs.length [] rest)
      return (.str s, rest)
    | '[' :: rest =>
      match skipSpace rest with
      | ']' :: rest => .ok (.list [], rest)
      | rest => readItems fuel [] rest
    | '\x7b' :: rest =>
      match skipSpace rest with
      | '\x7d' :: rest => .ok (.map [], rest)
      | rest => readMembers fuel [] rest
    | cs =>
      match readWord? cs with
      | some (v, rest) => .ok (v, rest)
      | none => do
        let (number, rest) ← step <|
          match cs with
          | '-' :: rest => readNumber cs.length true rest
          | cs => readNumber cs.length false cs
        match number with
        | .ok v => return (v, rest)
        | .error f => throw (.refused f)

/-- Reads the items of a list from the first one on; `acc` holds those read, last first. -/
def readItems (fuel : Nat) (acc : List Value) (cs : List Char) :
    Except Failure (Value × List Char) :=
  match fuel with
  | 0 => .error (.refused .tooDeep)
  | fuel + 1 => do
    let (v, rest) ← readValue fuel cs
    match skipSpace rest with
    | ']' :: rest => return (.list (v :: acc).reverse, rest)
    | ',' :: rest => readItems fuel (v :: acc) (skipSpace rest)
    | rest => throw (.stop ⟨"Expecting ',' delimiter", rest.length⟩)

/-- Reads the members of a map from the first key on; `acc` holds those read, last first. -/
def readMembers (fuel : Nat) (acc : List (Scalar × Value)) (cs : List Char) :
    Except Failure (Value × List Char) :=
  match fuel with
  | 0 => .error (.refused .tooDeep)
  | fuel + 1 =>
    match cs with
    | '"' :: rest => do
      let (key, rest) ← step (readString cs.length [] rest)
      match skipSpace rest with
      | ':' :: rest =>
        let (v, rest) ← readValue fuel (skipSpace rest)
        let acc := (.str key, v) :: acc
        match skipSpace rest with
        | '\x7d' :: rest => return (.map (Entries.ofPairs acc.reverse), rest)
        | ',' :: rest => readMembers fuel acc (skipSpace rest)
        | rest => throw (.stop ⟨"Expecting ',' delimiter", rest.length⟩)
      | rest => throw (.stop ⟨"Expecting ':' delimiter", rest.length⟩)
    | cs => .error (.stop ⟨"Expecting property name enclosed in double quotes", cs.length⟩)

end

def posAt (text : List Char) (offset : Nat) : TextPos :=
  let before := text.take offset
  let column := (before.reverse.takeWhile (· != '\n')).length + 1
  ⟨before.count '\n' + 1, column, offset⟩

def byteOrderMark : Char := Char.ofNat 0xFEFF

def read (text : String) : Except Fault Value :=
  let cs := text.toList
  let total := cs.length
  let fail (problem : String) (left : Nat) : Except Fault Value :=
    .error (.json problem (posAt cs (total - left)))
  if cs.head? = some byteOrderMark then
    fail "Unexpected UTF-8 BOM (decode using utf-8-sig)" total
  else
    match readValue (2 * total + 2) (skipSpace cs) with
    | .error (.stop s) => fail s.problem s.left
    | .error (.refused f) => .error f
    | .ok (v, rest) =>
      match skipSpace rest with
      | [] => .ok v
      | rest => fail "Extra data" rest.length

end Typewright.Json
