import Typewright.Json.Reader
import Typewright.Text.Case

/-!
# What plain scalars stand for

The form of a plain scalar decides its tag: the words for truth values and nothing, whole numbers in bases 2, 8, 10,
16 and 60, numbers with a point, dates and times; anything else is text.
-/

namespace Typewright.Yaml

inductive Tag where
  | null | bool | int | float | binary | timestamp | omap | pairs | set | str | seq | map | merge | value
  | other (name : String)
deriving DecidableEq, Repr

def Tag.known : List (String × Tag) :=
  [("null", .null), ("bool", .bool), ("int", .int), ("float", .float), ("binary", .binary),
    ("timestamp", .timestamp), ("omap", .omap), ("pairs", .pairs), ("set", .set), ("str", .str),
    ("seq", .seq), ("map", .map), ("merge", .merge), ("value", .value)]

def Tag.root : String := "tag:yaml.org,2002:"

def Tag.ofName (name : String) : Tag :=
  match known.find? fun k => root ++ k.1 == name with
  | some (_, t) => t
  | none => .other name

/-! ## Values -/

def digitsOf (p : Char → Bool) (cs : List Char) : Bool :=
  !cs.isEmpty && cs.all fun c => p c || c == '_'

def startsDigit (cs : List Char) : Bool :=
  match cs with
  | c :: rest => c.isDigit && rest.all fun c => c.isDigit || c == '_'
  | [] => false

def dropSign : List Char → List Char
  | '+' :: rest => rest
  | '-' :: rest => rest
  | cs => cs

def isSixtieth : List Char → Bool
  | [a] => a.isDigit
  | [a, b] => '0' ≤ a && a ≤ '5' && b.isDigit
  | _ => false

def isWhole (cs : List Char) : Bool :=
  let isOctal (c : Char) := '0' ≤ c && c ≤ '7'
  match dropSign cs with
  | ['0'] => true
  | '0' :: 'b' :: digits => digitsOf (fun c => c == '0' || c == '1') digits
  | '0' :: 'x' :: digits => digitsOf (fun c => (Json.hexDigit? c).isSome) digits
  | '0' :: digits => digitsOf isOctal digits
  | unsigned =>
    match Text.splitChars ':' unsigned with
    | first :: more => startsDigit first && more.all isSixtieth
    | [] => false

def isExponent : List Char → Bool
  | [] => true
  | m :: s :: digits =>
    (m == 'e' || m == 'E') && (s == '+' || s == '-') && !digits.isEmpty && digits.all Char.isDigit
  | _ => false

def isInfinity (cs : List Char) : Bool :=
  [".inf", ".Inf", ".INF"].any (·.toList == cs)

def isNotNumber (cs : List Char) : Bool :=
  [".nan", ".NaN", ".NAN"].any (·.toList == cs)

def isPointed (cs : List Char) : Bool :=
  let isPart (c : Char) := c.isDigit || c == '_'
  let unsigned := dropSign cs
  let whole := unsigned.takeWhile (· != '.')
  match unsigned.dropWhile (· != '.') with
  | '.' :: after =>
    let tail := after.dropWhile isPart
    if whole.isEmpty then
      isInfinity unsigned || isNotNumber cs ||
        (cs.length == unsigned.length && startsDigit (after.takeWhile isPart) && isExponent tail)
    else
      match Text.splitChars ':' whole with
      | [_] => startsDigit whole && isExponent tail
      | first :: more => startsDigit first && more.all isSixtieth && tail.isEmpty
      | [] => false
  | _ => false

structure TimeParts where
  date : Date
  time : Option (Nat × Nat × Nat)
  fraction : List Char
  zone : Option Int
deriving DecidableEq, Repr

def oneOrTwo? : List Char → Option (List Char × List Char)
  | a :: b :: rest =>
    if !a.isDigit then none
    else if b.isDigit then some ([a, b], rest) else some ([a], b :: rest)
  | [a] => if a.isDigit then some ([a], []) else none
  | [] => none

def two? : List Char → Option (List Char × List Char)
  | a :: b :: rest => if a.isDigit && b.isDigit then some ([a, b], rest) else none
  | _ => none

def mark? (m : Char) : List Char → Option (List Char)
  | c :: rest => if c = m then some rest else none
  | [] => none

def zone? (cs : List Char) : Option (Option Int) :=
  match cs.dropWhile fun c => c == ' ' || c == '\t' with
  | [] => if cs.isEmpty then some none else none
  | ['Z'] => some (some 0)
  | sign :: rest => do
    if sign != '+' && sign != '-' then none
    let (hours, rest) ← oneOrTwo? rest
    let minutes ←
      match rest with
      | [] => some []
      | ':' :: rest => do
        let (minutes, rest) ← two? rest
        if rest.isEmpty then some minutes else none
      | _ => none
    let total : Int := Json.decimal hours * 60 + Json.decimal minutes
    return some (if sign = '-' then -total else total)

/-- The parts of a text that has the form of a date or of a date and a time. -/
def timeParts? (cs : List Char) : Option TimeParts := do
  let year := cs.take 4
  if year.length ≠ 4 || !year.all Char.isDigit then none
  let (month, rest) ← oneOrTwo? (← mark? '-' (cs.drop 4))
  let (day, rest) ← oneOrTwo? (← mark? '-' rest)
  let date : Date := ⟨Json.decimal year, Json.decimal month, Json.decimal day⟩
  if rest.isEmpty then return ⟨date, none, [], none⟩
  let blank (c : Char) := c == ' ' || c == '\t'
  let rest ←
    match rest with
    | 'T' :: rest => some rest
    | 't' :: rest => some rest
    | c :: rest => if blank c then some (rest.dropWhile blank) else none
    | [] => none
  let (hour, rest) ← oneOrTwo? rest
  let (minute, rest) ← two? (← mark? ':' rest)
  let (second, rest) ← two? (← mark? ':' rest)
  let (fraction, rest) :=
    match rest with
    | '.' :: rest => (rest.takeWhile Char.isDigit, rest.dropWhile Char.isDigit)
    | rest => ([], rest)
  let zone ← zone? rest
  return ⟨date, some (Json.decimal hour, Json.decimal minute, Json.decimal second), fraction, zone⟩

def isTime (cs : List Char) : Bool :=
  match timeParts? cs with
  | some parts => parts.time.isSome || cs.length == 10
  | none => false

def truthWords : List (String × Bool) :=
  [("yes", true), ("no", false), ("true", true), ("false", false), ("on", true), ("off", false)]

def isWordForm (word : String) (cs : List Char) : Bool :=
  let w := word.toList
  cs == w || cs == w.map Char.toUpper ||
    cs == (match w with
      | c :: rest => c.toUpper :: rest
      | [] => [])

def dropLineEnd (cs : List Char) : List Char :=
  if cs.getLast? = some '\n' then cs.dropLast else cs

/-- The tag of the marks that begin names, aliases and tags, where they stand alone. Nothing is made
from it. -/
def Tag.mark : Tag := .other (Tag.root ++ "yaml")

/-- The tag of a text by its form, which one line feed may follow. -/
def plainTag (text : String) : Tag :=
  let cs := dropLineEnd text.toList
  if truthWords.any fun w => isWordForm w.1 cs then .bool
  else if isPointed cs then .float
  else if isWhole cs then .int
  else if cs = ['<', '<'] then .merge
  else if text.isEmpty || cs = ['~'] || isWordForm "null" cs then .null
  else if isTime cs then .timestamp
  else if cs = ['='] then .value
  else if cs = ['!'] || cs = ['&'] || cs = ['*'] then .mark
  else .str

/-- White space that may stand around a number; the separators of ASCII may not. -/
def isAround (c : Char) : Bool :=
  Text.isBlank c && !(28 ≤ c.toNat && c.toNat ≤ 31)

def takeSign : List Char → Bool × List Char
  | '-' :: rest => (true, rest)
  | '+' :: rest => (false, rest)
  | cs => (false, cs)

/-- The value of a digit: a decimal digit of any script, or a letter. -/
def digitValue? (c : Char) : Option Nat :=
  if c.toNat < 128 then Json.hexDigit? c else Text.decimalDigit? c

def dropBaseMark (base : Nat) : List Char → List Char
  | '0' :: m :: rest =>
    let letter := m.toLower
    if (base = 2 && letter == 'b') || (base = 8 && letter == 'o') || (base = 16 && letter == 'x') then
      rest
    else '0' :: m :: rest
  | cs => cs

/-- A whole number in a base; nothing but digits may be there between blanks, and at least one. -/
def wholeIn (base : Nat) (cs : List Char) : Except Fault Int :=
  let (negative, unsigned) := takeSign (Text.trimChars isAround cs)
  let rest := dropBaseMark base unsigned
  let digits := (rest.takeWhile fun c => (digitValue? c).any (· < base)).filterMap digitValue?
  if base = 10 && Json.maxWholeDigits < digits.length then
    .error (Json.tooManyDigits digits.length)
  else if digits.isEmpty || digits.length < rest.length then
    .error (.content ("invalid literal for int() with base " ++ toString base ++ ": " ++
      String.ofList ((Text.quote (String.ofList cs)).toList.take 200)))
  else .ok (Binary64.signed negative (digits.foldl (fun n d => n * base + d) 0))

/-- The whole number that a text stands for. Underscores are left out. -/
def wholeValue (text : String) : Except Fault Int := do
  let cs := text.toList.filter (· != '_')
  let negative := cs.head? = some '-'
  let unsigned := dropSign cs
  if cs.isEmpty then throw (.outOfRange .str)
  let size ←
    match unsigned with
    | ['0'] => pure 0
    | '0' :: 'b' :: digits => wholeIn 2 digits
    | '0' :: 'x' :: digits => wholeIn 16 digits
    | '0' :: _ => wholeIn 8 unsigned
    | [] => throw (.outOfRange .str)
    | _ =>
      if unsigned.contains ':' then do
        let parts ← (Text.splitChars ':' unsigned).mapM (wholeIn 10)
        pure (parts.foldl (fun n d => n * 60 + d) 0)
      else wholeIn 10 unsigned
  return if negative then -size else size

def asciiDigit (c : Char) : Char :=
  match Text.decimalDigit? c with
  | some d => Nat.digitChar d
  | none => c

/-- The number that a text of digits, point and exponent between blanks stands for. -/
def pointedNumber (cs : List Char) : Except Fault Binary64 :=
  let fail : Except Fault Binary64 :=
    .error (.content ("could not convert string to float: " ++ Text.quote (String.ofList cs)))
  let (negative, unsigned) := takeSign ((Text.trimChars isAround cs).map asciiDigit)
  if ["inf", "infinity"].any (·.toList == unsigned) then .ok (.inf negative)
  else if unsigned == "nan".toList then .ok .nan
  else
    let whole := unsigned.takeWhile Char.isDigit
    let rest := unsigned.dropWhile Char.isDigit
    let (fraction, rest) :=
      match rest with
      | '.' :: rest => (rest.takeWhile Char.isDigit, rest.dropWhile Char.isDigit)
      | rest => ([], rest)
    let (exponent, rest) := Json.readExponent rest
    if (whole.isEmpty && fraction.isEmpty) || !rest.isEmpty then fail
    else
      let scale : Int := exponent.getD 0 - fraction.length
      .ok (.ofDecimal negative (Json.decimal (whole ++ fraction)) scale)

/-- The sum of parts, the last one first, each of which counts sixty times the one before. -/
def sumSixtieths : List Binary64 → Except Fault Binary64 :=
  go (.zero false) 1
where
  /-- The sum of what was added before and of parts of which the first counts `unit` times. -/
  go (sum : Binary64) (unit : Nat) : List Binary64 → Except Fault Binary64
    | [] => .ok sum
    | part :: rest =>
      match Binary64.ofQuotient false unit 1 with
      | .inf _ => .error (.overflow "int too large to convert to float")
      | factor => go (sum.add (part.mul factor)) (unit * 60) rest

/-- The number with a point that a text stands for. -/
def pointedValue (text : String) : Except Fault Binary64 := do
  let cs := Text.lowerFrom [] (text.toList.filter (· != '_'))
  let negative := cs.head? = some '-'
  let unsigned := dropSign cs
  if cs.isEmpty then throw (.outOfRange .str)
  let size ←
    if unsigned == ".inf".toList then pure (.inf false)
    else if unsigned == ".nan".toList then return .nan
    else if unsigned.contains ':' then do
      let parts ← (Text.splitChars ':' unsigned).mapM pointedNumber
      sumSixtieths parts.reverse
    else pointedNumber unsigned
  return if negative then size.neg else size

def checkDate (d : Date) : Except Fault Unit := do
  if d.year = 0 then throw (.content ("year " ++ toString d.year ++ " is out of range"))
  if d.month = 0 || 12 < d.month then throw (.content "month must be in 1..12")
  if d.day = 0 || Date.monthDays d.year d.month < d.day then
    throw (.content "day is out of range for month")

def micros (fraction : List Char) : Nat :=
  Json.decimal ((fraction ++ List.replicate 6 '0').take 6)

/-- The date or the point in time that a text stands for; one line feed may follow it. -/
def timeValue (text : String) : Except Fault Scalar := do
  match timeParts? (dropLineEnd text.toList) with
  | none => throw (.missingMember .null "groupdict")
  | some parts =>
    match parts.time with
    | none =>
      checkDate parts.date
      return .date parts.date
    | some (hour, minute, second) =>
      match parts.zone with
      | some minutes =>
        if 1440 ≤ minutes.natAbs then
          throw (.content ("offset must be a timedelta strictly between -timedelta(hours=24) and " ++
            "timedelta(hours=24), not " ++ Timestamp.spanText minutes ++ "."))
      | none => pure ()
      checkDate parts.date
      if 23 < hour then throw (.content "hour must be in 0..23")
      if 59 < minute then throw (.content "minute must be in 0..59")
      if 59 < second then throw (.content "second must be in 0..59")
      return .timestamp ⟨parts.date, hour, minute, second, micros parts.fraction, parts.zone⟩

def truthValue (text : String) : Except Fault Bool :=
  let word := Text.lowerFrom [] text.toList
  match truthWords.find? (·.1.toList == word) with
  | some (_, b) => .ok b
  | none => .error (.missingKey (.str (String.ofList word)))

def sixBits? (c : Char) : Option Nat :=
  if c.isUpper then some (c.toNat - 'A'.toNat)
  else if c.isLower then some (c.toNat - 'a'.toNat + 26)
  else if c.isDigit then some (c.toNat - '0'.toNat + 52)
  else if c == '+' then some 62
  else if c == '/' then some 63
  else none

/-- Decodes letters of six bits each. `held` is what is left of the letters before, `place` the place
in the group of four, and `pads` the number of fill marks just read. -/
def decodeSixes (place held pads : Nat) (acc : List UInt8) : List Char → Except Fault (List UInt8)
  | [] => if place = 0 then .ok acc.reverse else .error .yaml
  | c :: rest =>
    if c == '=' then
      if 2 ≤ place then
        if 4 ≤ place + pads + 1 then .ok acc.reverse
        else decodeSixes place held (pads + 1) acc rest
      else decodeSixes place held pads acc rest
    else
      match sixBits? c with
      | none => decodeSixes place held pads acc rest
      | some b =>
        match place with
        | 0 => decodeSixes 1 b 0 acc rest
        | 1 => decodeSixes 2 (b % 16) 0 (UInt8.ofNat (held * 4 + b / 16) :: acc) rest
        | 2 => decodeSixes 3 (b % 4) 0 (UInt8.ofNat (held * 16 + b / 4) :: acc) rest
        | _ => decodeSixes 0 0 0 (UInt8.ofNat (held * 64 + b) :: acc) rest

def binaryValue (text : String) : Except Fault (List UInt8) :=
  if text.toList.all (·.toNat < 128) then decodeSixes 0 0 0 [] text.toList else .error .yaml

def scalarValue (tag : Tag) (text : String) : Except Fault Scalar :=
  match tag with
  | .null => .ok .null
  | .bool => return .bool (← truthValue text)
  | .int => return .int (← wholeValue text)
  | .float => return .float (← pointedValue text)
  | .binary => return .bytes (← binaryValue text)
  | .timestamp => timeValue text
  | .str => .ok (.str text)
  | _ => .error .yaml

end Typewright.Yaml
