import Resumable.Number.Binary64

/-!
# Shortest decimal text

A finite number is written with the fewest decimal digits that read back as the same number.

`Shortest.digits` tries grids of one, two, … digits.  On each grid only the two points around the
number matter: if any point of the grid rounds to the number, one of these does.  The first grid
with such a point wins, of two points the nearer, and a `Tie` decides between equally near ones.
`DecimalStyle` says where the positional notation ends and the one with an exponent begins.
-/

namespace Resumable

/-- Which of two equally near digit strings is taken. -/
inductive Tie where
  | up
  | even
  deriving DecidableEq, Repr

namespace Shortest

/-- A positive number `mid / den` and the ends of the interval of reals that round to it. -/
structure Interval where
  low : Nat
  mid : Nat
  high : Nat
  den : Nat
  /-- The ends round to the number too. -/
  closed : Bool
  deriving Repr

/-- The interval of a positive finite number, on a grid of quarter units. -/
def Interval.of (x : Binary64) : Interval :=
  let (m, e) := x.magnitude
  let scale := 1 <<< (e - 2).toNat
  -- the gap below a power of two is half as wide
  let below := if x.fraction = 0 && 1 < x.exponentField then 1 else 2
  { low := (4 * m - below) * scale
    mid := 4 * m * scale
    high := (4 * m + 2) * scale
    den := 1 <<< (2 - e).toNat
    closed := m % 2 == 0 }

/-- The least `j` at or after the given one with `den ≤ num * 10 ^ j`, looking no further than
`fuel`. -/
def firstDigit (num den : Nat) : Nat → Nat → Nat
  | 0, j => j
  | fuel + 1, j => if den ≤ num * Nat.pow 10 j then j else firstDigit num den fuel (j + 1)

/-- The power of ten of the leading digit of `num / den`. -/
def decade (num den : Nat) : Int :=
  if den ≤ num then ((Nat.toDigits 10 (num / den)).length : Int) - 1
  else -(firstDigit num den 400 1 : Int)

/-- `c * 10 ^ s` lies in the interval. -/
def Interval.contains (i : Interval) (c : Nat) (s : Int) : Bool :=
  let a := c * Nat.pow 10 s.toNat * i.den
  let low := i.low * Nat.pow 10 (-s).toNat
  let high := i.high * Nat.pow 10 (-s).toNat
  if i.closed then decide (low ≤ a ∧ a ≤ high) else decide (low < a ∧ a < high)

/-- Twice the number, less the sum of the grid points `c` and `c + 1`: negative if `c` is nearer. -/
def Interval.tilt (i : Interval) (c : Nat) (s : Int) : Int :=
  (2 * (i.mid * Nat.pow 10 (-s).toNat) : Nat) - ((2 * c + 1) * Nat.pow 10 s.toNat * i.den : Nat)

/-- The point of the grid of multiples of `10 ^ s` that stands for the number, if there is one. -/
def Interval.pick? (tie : Tie) (i : Interval) (s : Int) : Option Nat :=
  let c := (i.mid * Nat.pow 10 (-s).toNat) / (Nat.pow 10 s.toNat * i.den)
  match i.contains c s, i.contains (c + 1) s with
  | false, false => none
  | true, false => some c
  | false, true => some (c + 1)
  | true, true =>
    let l := i.tilt c s
    if l < 0 then some c
    else if 0 < l then some (c + 1)
    else match tie with
      | .up => some (c + 1)
      | .even => some (c + c % 2)

/-- Tries grids whose step shrinks by ten each time. -/
def search (tie : Tie) (i : Interval) : Nat → Int → Nat × Int
  | 0, s => (i.mid * Nat.pow 10 (-s).toNat / (Nat.pow 10 s.toNat * i.den), s)
  | fuel + 1, s =>
    match i.pick? tie s with
    | some c => (c, s)
    | none => search tie i fuel (s - 1)

/-- Removes trailing zeros of `c`, keeping `c * 10 ^ s`. -/
def trim : Nat → Nat → Int → Nat × Int
  | 0, c, s => (c, s)
  | fuel + 1, c, s => if c % 10 = 0 && c ≠ 0 then trim fuel (c / 10) (s + 1) else (c, s)

/-- The fewest digits `c` and an exponent `s` such that `c * 10 ^ s` reads back as the positive
finite number `x`. -/
def digits (tie : Tie) (x : Binary64) : Nat × Int :=
  let i := Interval.of x
  let (c, s) := search tie i 17 (decade i.mid i.den)
  trim 20 c s

end Shortest

/-- How digits and an exponent are written. -/
structure DecimalStyle where
  tie : Tie
  /-- The range of powers of ten of the leading digit written without an exponent; none if an
  exponent is never written. -/
  positional : Option (Int × Int)

namespace DecimalStyle

/-- `count` zeros. -/
def zeros (count : Nat) : String := String.ofList (List.replicate count '0')

/-- Digits written without an exponent; an integral number ends in `.0`. -/
def positionalText (c : Nat) (s : Int) : String :=
  let ds := Nat.toDigits 10 c
  if 0 ≤ s then String.ofList ds ++ zeros s.toNat ++ ".0"
  else
    let places := (-s).toNat
    if places < ds.length then
      String.ofList (ds.take (ds.length - places)) ++ "." ++
        String.ofList (ds.drop (ds.length - places))
    else "0." ++ zeros (places - ds.length) ++ String.ofList ds

/-- Digits written with a signed exponent. -/
def exponentText (c : Nat) (s : Int) : String :=
  let ds := Nat.toDigits 10 c
  let e := s + (ds.length : Int) - 1
  let mantissa := match ds with
    | [] => ""
    | [d] => d.toString
    | d :: rest => d.toString ++ "." ++ String.ofList rest
  mantissa ++ (if e < 0 then "e-" else "e+") ++ toString e.natAbs

/-- The text of a finite number. -/
def finiteText (style : DecimalStyle) (x : Binary64) : String :=
  let sign := if x.negative then "-" else ""
  if x.isZero then sign ++ "0.0"
  else
    let (c, s) := Shortest.digits style.tie x
    let lead := s + ((Nat.toDigits 10 c).length : Int) - 1
    let plain := match style.positional with
      | none => true
      | some (low, high) => decide (low ≤ lead ∧ lead ≤ high)
    sign ++ if plain then positionalText c s else exponentText c s

end DecimalStyle

namespace Binary64

/-- A finite number without a fractional part. -/
def isIntegral (x : Binary64) : Bool :=
  x.isFinite &&
    let (m, e) := x.magnitude
    0 ≤ e || m % (1 <<< (-e).toNat) == 0

/-- The magnitude of an integral number. -/
def integralMagnitude (x : Binary64) : Nat :=
  let (m, e) := x.magnitude
  if 0 ≤ e then m <<< e.toNat else m >>> (-e).toNat

/-- The text of values: all digits of an integral number, the shortest digits of any other, never
an exponent; of two equally near digit strings the larger. -/
def text (x : Binary64) : String :=
  if x.isNaN then "NaN"
  else
    let sign := if x.negative then "-" else ""
    if x.isInfinite then sign ++ "inf"
    else if x.isIntegral then sign ++ toString x.integralMagnitude ++ ".0"
    else DecimalStyle.finiteText ⟨.up, none⟩ x

end Binary64

end Resumable
