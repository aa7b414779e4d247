/-!
# Ranges of code points

Character classes are kept as ascending lists of ranges, and case changes as runs that share one
distance.
-/

namespace Typewright.Text

/-- Whether `n` lies in one of the ranges, which are ascending and apart. -/
def inRanges : List (Nat × Nat) → Nat → Bool
  | [], _ => false
  | (lo, hi) :: rest, n => if n < lo then false else n ≤ hi || inRanges rest n

/-- The ranges that lie so far behind each other and are so long: of each, the distance from the end of the one
before, and then from its own start to its end. -/
def rangesOf (place : Nat) : List Nat → List (Nat × Nat)
  | gap :: length :: rest => (place + gap, place + gap + length) :: rangesOf (place + gap + length) rest
  | _ => []

/-- A run of letters, `step` apart from `first` to `last`, that all move by `shift`. -/
structure CaseRun where
  first : Nat
  last : Nat
  step : Nat
  shift : Int
deriving DecidableEq, Repr

namespace CaseRun

/-- The runs that lie so far behind each other and are so long: of each, the distance from the end of the one
before, the distance from its own start to its end, its step and its shift. -/
def runsOf (place : Nat) : List Int → List CaseRun
  | gap :: length :: step :: shift :: rest =>
    let first := place + gap.toNat
    let last := first + length.toNat
    ⟨first, last, step.toNat, shift⟩ :: runsOf last rest
  | _ => []

def covers (r : CaseRun) (n : Nat) : Bool :=
  r.first ≤ n && n ≤ r.last && (n - r.first) % r.step == 0

def apply (r : CaseRun) (n : Nat) : Nat :=
  ((n : Int) + r.shift).toNat

/-- Where `n` moves to under the first run that covers it. -/
def lookup : List CaseRun → Nat → Option Nat
  | [], _ => none
  | r :: rest, n =>
    if n < r.first then none else if r.covers n then some (r.apply n) else lookup rest n

end CaseRun

end Typewright.Text
