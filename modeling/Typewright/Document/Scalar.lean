import Typewright.Number.Shortest
import Typewright.Text.Quoted

/-!
# Scalars

The leaves of a document, which are also the keys of its maps, with their plain text and their
quoted text.
-/

namespace Typewright

structure Date where
  year : Nat
  month : Nat
  day : Nat
deriving DecidableEq, Repr

/-- A point in time, with the distance from universal time in minutes if it is known. -/
structure Timestamp where
  date : Date
  hour : Nat
  minute : Nat
  second : Nat
  micro : Nat
  offset : Option Int
deriving DecidableEq, Repr

inductive Scalar where
  | null
  | bool (value : Bool)
  | int (value : Int)
  | float (value : Binary64)
  | str (value : String)
  | date (value : Date)
  | timestamp (value : Timestamp)
  | bytes (value : List UInt8)
deriving DecidableEq, Repr

def padded (width n : Nat) : String :=
  let digits := Nat.toDigits 10 n
  String.ofList (List.replicate (width - digits.length) '0' ++ digits)

namespace Date

def monthDays (year month : Nat) : Nat :=
  if month = 2 then
    if year % 4 = 0 && (year % 100 ≠ 0 || year % 400 = 0) then 29 else 28
  else if [4, 6, 9, 11].contains month then 30 else 31

def dayNumber (d : Date) : Nat :=
  let years := d.year - 1
  365 * years + years / 4 - years / 100 + years / 400 +
    ((List.range (d.month - 1)).map fun m => monthDays d.year (m + 1)).foldl (· + ·) 0 + d.day

def text (d : Date) : String :=
  padded 4 d.year ++ "-" ++ padded 2 d.month ++ "-" ++ padded 2 d.day

def parts (d : Date) : List String :=
  [toString d.year, toString d.month, toString d.day]

end Date

namespace Timestamp

def offsetText (minutes : Int) : String :=
  (if minutes < 0 then "-" else "+") ++ padded 2 (minutes.natAbs / 60) ++ ":" ++
    padded 2 (minutes.natAbs % 60)

/-- A length of time in minutes, as days and seconds, the seconds never negative. -/
def spanText (minutes : Int) : String :=
  let days := minutes.fdiv 1440
  let seconds := minutes.fmod 1440 * 60
  let parts := (if days = 0 then [] else ["days=" ++ toString days]) ++
    (if seconds = 0 then [] else ["seconds=" ++ toString seconds])
  "datetime.timedelta(" ++ (if parts.isEmpty then "0" else ", ".intercalate parts) ++ ")"

def zoneText (minutes : Int) : String :=
  if minutes = 0 then "datetime.timezone.utc" else "datetime.timezone(" ++ spanText minutes ++ ")"

def minuteNumber (t : Timestamp) : Int :=
  (t.date.dayNumber * 24 + t.hour) * 60 + t.minute

/-- Whether two timestamps are the same point in time. One with a zone is none without. -/
def same (a b : Timestamp) : Bool :=
  a.second == b.second && a.micro == b.micro &&
    match a.offset, b.offset with
    | none, none => a.minuteNumber == b.minuteNumber
    | some p, some q => a.minuteNumber - p == b.minuteNumber - q
    | _, _ => false

def text (t : Timestamp) : String :=
  t.date.text ++ " " ++ padded 2 t.hour ++ ":" ++ padded 2 t.minute ++ ":" ++ padded 2 t.second ++
    (if t.micro = 0 then "" else "." ++ padded 6 t.micro) ++ (t.offset.map offsetText).getD ""

def parts (t : Timestamp) : List String :=
  t.date.parts ++ [toString t.hour, toString t.minute] ++
    (if t.second = 0 && t.micro = 0 then [] else [toString t.second]) ++
    (if t.micro = 0 then [] else [toString t.micro]) ++
    (match t.offset with
      | none => []
      | some minutes => ["tzinfo=" ++ zoneText minutes])

end Timestamp

namespace Scalar

def boolText (b : Bool) : String :=
  if b then "True" else "False"

def quoted : Scalar → String
  | .null => "None"
  | .bool b => boolText b
  | .int n => toString n
  | .float x => x.text
  | .str s => Text.quote s
  | .date d => "datetime.date(" ++ ", ".intercalate d.parts ++ ")"
  | .timestamp t => "datetime.datetime(" ++ ", ".intercalate t.parts ++ ")"
  | .bytes b => Text.quoteBytes b

def text : Scalar → String
  | .str s => s
  | .date d => d.text
  | .timestamp t => t.text
  | s => s.quoted

/-- The whole number that a truth value or a whole number stands for. -/
def toInt? : Scalar → Option Int
  | .bool b => some (if b then 1 else 0)
  | .int n => some n
  | _ => none

/-- Equality of values: numbers are equal across their kinds, truth values count as 0 and 1, and
timestamps are equal across zones. -/
def same (a b : Scalar) : Bool :=
  match a, b with
  | .float x, .float y => x.same y
  | .float x, b => b.toInt?.any x.isInt
  | a, .float y => a.toInt?.any y.isInt
  | .bool p, .bool q => p == q
  | .bool p, .int n => n == if p then 1 else 0
  | .int n, .bool p => n == if p then 1 else 0
  | .timestamp t, .timestamp u => t.same u
  | a, b => decide (a = b)

def isStr (s : Scalar) (t : String) : Bool :=
  match s with
  | .str u => u == t
  | _ => false

/-- Whether the scalar counts as true: nothing, zero and empty do not. -/
def truthy : Scalar → Bool
  | .null => false
  | .bool b => b
  | .int n => n != 0
  | .float x => !x.isZero
  | .str s => !s.isEmpty
  | .bytes b => !b.isEmpty
  | _ => true

end Scalar

end Typewright
