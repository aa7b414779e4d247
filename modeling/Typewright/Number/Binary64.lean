/-!
# Binary64 numbers

Floating-point numbers of 53 binary digits, kept as an exact mantissa and exponent, with rounding of
quotients and decimals to the nearest number, ties to the even mantissa.
-/

namespace Typewright

/-- A binary64 number. A finite one is `mantissa * 2 ^ exponent`, with a sign that zero has too. -/
inductive Binary64 where
  | nan
  | inf (negative : Bool)
  | finite (negative : Bool) (mantissa : Nat) (exponent : Int)
deriving DecidableEq, Repr

namespace Binary64

def minExponent : Int := -1074

def maxExponent : Int := 971

def zero (negative : Bool) : Binary64 :=
  .finite negative 0 minExponent

def scale (num den : Nat) (e : Int) : Nat × Nat :=
  if 0 ≤ e then (num, den * Nat.pow 2 e.toNat) else (num * Nat.pow 2 (-e).toNat, den)

/-- The quotient rounded to the nearest whole number, a tie to the even one. -/
def roundDiv (num den : Nat) : Nat :=
  let q := num / den
  let r := num % den
  if 2 * r < den then q
  else if den < 2 * r then q + 1
  else if q % 2 = 0 then q else q + 1

/-- The exponent that gives the positive quotient a mantissa of 53 binary digits. -/
def fitExponent (num den : Nat) : Int :=
  let guess : Int := (Nat.log2 num : Int) - Nat.log2 den - 53
  let scaled := scale num den guess
  let e := if Nat.pow 2 53 * scaled.2 ≤ scaled.1 then guess + 1 else guess
  max e minExponent

def ofQuotient (negative : Bool) (num den : Nat) : Binary64 :=
  if num = 0 then zero negative
  else
    let e := fitExponent num den
    let scaled := scale num den e
    let m := roundDiv scaled.1 scaled.2
    let (m, e) := if m = Nat.pow 2 53 then (Nat.pow 2 52, e + 1) else (m, e)
    if maxExponent < e then .inf negative else .finite negative m e

def digitCount (n : Nat) : Nat :=
  (Nat.toDigits 10 n).length

/-- The number nearest to `digits * 10 ^ exponent`. Exponents far outside the range are decided
without computing the power. -/
def ofDecimal (negative : Bool) (digits : Nat) (exponent : Int) : Binary64 :=
  let size := exponent + digitCount digits
  if digits = 0 then zero negative
  else if 400 < size then .inf negative
  else if size < -400 then zero negative
  else if 0 ≤ exponent then ofQuotient negative (digits * Nat.pow 10 exponent.toNat) 1
  else ofQuotient negative digits (Nat.pow 10 (-exponent).toNat)

def toQuotient (mantissa : Nat) (exponent : Int) : Nat × Nat :=
  if 0 ≤ exponent then (mantissa * Nat.pow 2 exponent.toNat, 1)
  else (mantissa, Nat.pow 2 (-exponent).toNat)

def neg : Binary64 → Binary64
  | .nan => .nan
  | .inf s => .inf !s
  | .finite s m e => .finite (!s) m e

/-- The product of two numbers, rounded. Zero times an infinity is not a number. -/
def mul : Binary64 → Binary64 → Binary64
  | .finite s m e, .finite t n f =>
    let a := toQuotient m e
    let b := toQuotient n f
    ofQuotient (s != t) (a.1 * b.1) (a.2 * b.2)
  | .inf s, .inf t => .inf (s != t)
  | .inf s, .finite t n _ => if n = 0 then .nan else .inf (s != t)
  | .finite s m _, .inf t => if m = 0 then .nan else .inf (s != t)
  | _, _ => .nan

def signed (negative : Bool) (size : Nat) : Int :=
  if negative then -(size : Int) else size

/-- The sum of two numbers, rounded. A sum that is zero has a sign only if both numbers have it. -/
def add : Binary64 → Binary64 → Binary64
  | .finite s m e, .finite t n f =>
    let a := toQuotient m e
    let b := toQuotient n f
    let sum := signed s (a.1 * b.2) + signed t (b.1 * a.2)
    ofQuotient (if sum = 0 then s && t else decide (sum < 0)) sum.natAbs (a.2 * b.2)
  | .inf s, .inf t => if s = t then .inf s else .nan
  | .inf s, .finite _ _ _ => .inf s
  | .finite _ _ _, .inf t => .inf t
  | _, _ => .nan

def isZero : Binary64 → Bool
  | .finite _ m _ => m == 0
  | _ => false

/-- Numeric equality: a zero equals the other zero, and nothing equals `nan`. -/
def same : Binary64 → Binary64 → Bool
  | .finite s m e, .finite t n f => (m == 0 && n == 0) || (s == t && m == n && e == f)
  | .inf s, .inf t => s == t
  | _, _ => false

def isInt (x : Binary64) (n : Int) : Bool :=
  match x with
  | .finite s m e =>
    let q := toQuotient m e
    q.1 == n.natAbs * q.2 && (n == 0 || s == decide (n < 0))
  | _ => false

end Binary64

end Typewright
