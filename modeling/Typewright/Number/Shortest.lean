import Typewright.Number.Binary64

/-!
# The shortest decimal of a number

The fewest digits that read back as the same number and, of those, the nearest; then their notation.
-/

namespace Typewright.Binary64

/-- A decimal `0.d₁d₂… * 10 ^ point`. -/
structure Decimal where
  digits : List Char
  point : Int
deriving DecidableEq, Repr

/-- The power of ten just above the positive quotient: `10 ^ (p - 1) ≤ num / den < 10 ^ p`. -/
def decimalPoint (num den : Nat) : Int :=
  (digitCount (num * Nat.pow 10 330 / den) : Int) - 330

def scaleTen (num den : Nat) (e : Int) : Nat × Nat :=
  if 0 ≤ e then (num, den * Nat.pow 10 e.toNat) else (num * Nat.pow 10 (-e).toNat, den)

/-- The decimal of `n` digits that reads back as `m * 2 ^ e`, if there is one: of the two neighbours
on the grid of `n` digits, the nearer of those that read back, and the even one on a tie. -/
def decimalOfLength? (m : Nat) (e : Int) (n : Nat) : Option Nat :=
  let v := toQuotient m e
  let unit := decimalPoint v.1 v.2 - n
  let s := scaleTen v.1 v.2 unit
  let low := s.1 / s.2
  let rest := s.1 % s.2
  let reads (d : Nat) := ofDecimal false d unit == .finite false m e
  match reads low, reads (low + 1) with
  | false, false => none
  | true, false => some low
  | false, true => some (low + 1)
  | true, true =>
    if 2 * rest < s.2 then some low
    else if s.2 < 2 * rest then some (low + 1)
    else if low % 2 = 0 then some low else some (low + 1)

/-- The first of the lengths `n`, `n + 1`, … that holds a decimal, `fuel` lengths being tried. -/
def shortestFrom (m : Nat) (e : Int) : Nat → Nat → Nat × Nat
  | 0, n => (0, n)
  | fuel + 1, n =>
    match decimalOfLength? m e n with
    | some d => (d, n)
    | none => shortestFrom m e fuel (n + 1)

/-- The shortest decimal of `m * 2 ^ e`; seventeen digits are always enough. -/
def shortest (m : Nat) (e : Int) : Decimal :=
  let v := toQuotient m e
  let found := shortestFrom m e 17 1
  let digits := Nat.toDigits 10 found.1
  let point := decimalPoint v.1 v.2 + (digits.length - found.2)
  ⟨(digits.reverse.dropWhile (· == '0')).reverse, point⟩

def exponentText (e : Int) : List Char :=
  let digits := Nat.toDigits 10 e.natAbs
  let padded := if digits.length < 2 then '0' :: digits else digits
  (if e < 0 then '-' else '+') :: padded

namespace Decimal

def scientific (d : Decimal) : List Char :=
  match d.digits with
  | [] => ['0']
  | [c] => c :: 'e' :: exponentText (d.point - 1)
  | c :: rest => c :: '.' :: rest ++ 'e' :: exponentText (d.point - 1)

/-- The digits in positional notation, always with a digit after the point. -/
def positional (d : Decimal) : List Char :=
  if d.point ≤ 0 then
    '0' :: '.' :: List.replicate (-d.point).toNat '0' ++ d.digits
  else
    let whole := d.point.toNat
    if d.digits.length ≤ whole then
      d.digits ++ List.replicate (whole - d.digits.length) '0' ++ ['.', '0']
    else d.digits.take whole ++ '.' :: d.digits.drop whole

/-- Positional notation from `0.0001` up to, but not including, `10 ^ 16`; scientific outside. -/
def text (d : Decimal) : List Char :=
  if d.point ≤ -4 || 16 < d.point then d.scientific else d.positional

end Decimal

def text : Binary64 → String
  | .nan => "nan"
  | .inf false => "inf"
  | .inf true => "-inf"
  | .finite negative m e =>
    let body := if m = 0 then ['0', '.', '0'] else (shortest m e).text
    String.ofList (if negative then '-' :: body else body)

end Typewright.Binary64
