/-!
# Binary floating point numbers

`Binary64` is a double precision number given by its bits, so that every payload of a NaN and both
zeros are kept.  Comparison and conversion from integers are defined on the bits.

* `Binary64.magnitude` is the magnitude of a finite number as `m * 2 ^ e`, and `Binary64.ofScaled`
  rounds such a value to the nearest number, ties to even;
* arithmetic is that of the standard: a NaN operand comes back with its quiet bit set, the first
  one winning, and an operation without a result gives `Binary64.invalid`.
-/

namespace Resumable

/-- A double precision number, as its sixty-four bits. -/
structure Binary64 where
  bits : UInt64
  deriving DecidableEq, Repr, Inhabited

namespace Binary64

/-- The weight of the sign bit, two to the sixty-third. -/
abbrev signWeight : Nat := 0x8000000000000000

/-- The weight of the lowest exponent bit, two to the fifty-second; it is the weight of the leading
digit of a normal number too. -/
abbrev leadWeight : Nat := 0x10000000000000

/-- The sign bit. -/
def negative (x : Binary64) : Bool := x.bits.toNat / signWeight == 1

/-- The eleven exponent bits. -/
def exponentField (x : Binary64) : Nat := x.bits.toNat / leadWeight % 2048

/-- The fifty-two fraction bits. -/
def fraction (x : Binary64) : Nat := x.bits.toNat % leadWeight

/-- The number with given fields. -/
def ofFields (negative : Bool) (exponentField fraction : Nat) : Binary64 :=
  ⟨UInt64.ofNat ((if negative then signWeight else 0) + exponentField * leadWeight + fraction)⟩

/-- Not a number, whatever the payload. -/
def isNaN (x : Binary64) : Bool := x.exponentField == 2047 && x.fraction != 0

/-- One of the two infinities. -/
def isInfinite (x : Binary64) : Bool := x.exponentField == 2047 && x.fraction == 0

/-- Neither infinite nor a NaN. -/
def isFinite (x : Binary64) : Bool := x.exponentField != 2047

/-- One of the two zeros. -/
def isZero (x : Binary64) : Bool := x.exponentField == 0 && x.fraction == 0

/-- The result of an operation that has none. -/
def invalid : Binary64 := ⟨0xFFF8000000000000⟩

/-- The zero with a sign. -/
def zero (negative : Bool) : Binary64 := ofFields negative 0 0

/-- The infinity with a sign. -/
def infinity (negative : Bool) : Binary64 := ofFields negative 2047 0

/-- A NaN with its quiet bit set. -/
def quiet (x : Binary64) : Binary64 := ⟨x.bits ||| 0x0008000000000000⟩

/-- The number with the other sign; a NaN changes its sign bit too. -/
def neg (x : Binary64) : Binary64 := ⟨x.bits ^^^ 0x8000000000000000⟩

/-- The magnitude of a finite number is `m * 2 ^ e` for the returned `(m, e)`. -/
def magnitude (x : Binary64) : Nat × Int :=
  if x.exponentField = 0 then (x.fraction, -1074)
  else (leadWeight + x.fraction, (x.exponentField : Int) - 1075)

/-! ### Rounding -/

/-- The quotient rounded to the nearest integer, ties to even. -/
def roundDiv (n d : Nat) : Nat :=
  let q := n / d
  let twice := 2 * (n % d)
  if twice < d then q else if d < twice then q + 1 else q + q % 2

/-- The number nearest to `m * 2 ^ e`, ties to the even fraction.  Exact whenever the value is
representable. -/
def ofScaled (negative : Bool) (m : Nat) (e : Int) : Binary64 :=
  if m = 0 then zero negative
  else
    -- the unit in the last place that leaves fifty-three bits, or the smallest there is
    let unit : Int := max ((Nat.log2 m : Int) - 52 + e) (-1074)
    let shift := e - unit
    let q := if 0 ≤ shift then m <<< shift.toNat else roundDiv m (1 <<< (-shift).toNat)
    -- rounding up may carry into the next binade
    let (q, unit) := if q = 2 * leadWeight then (leadWeight, unit + 1) else (q, unit)
    if 971 < unit then infinity negative
    else if q < leadWeight then ofFields negative 0 q
    else ofFields negative (unit + 1075).toNat (q - leadWeight)

/-- The number nearest to an integer. -/
def ofInt (i : Int) : Binary64 := ofScaled (decide (i < 0)) i.natAbs 0

/-! ### Comparison -/

/-- A key that orders all numbers but the NaNs; both zeros have the same. -/
def orderKey (x : Binary64) : Int :=
  let magnitude : Int := (x.bits.toNat % signWeight : Nat)
  if x.negative then -magnitude else magnitude

/-- Equality of the numbers denoted: zeros are equal, a NaN equals nothing. -/
def eq (x y : Binary64) : Bool := !x.isNaN && !y.isNaN && x.orderKey == y.orderKey

/-- The order of the numbers denoted; none if one is a NaN. -/
def order? (x y : Binary64) : Option Ordering :=
  if x.isNaN || y.isNaN then none else some (compare x.orderKey y.orderKey)

/-! ### Arithmetic -/

/-- The first NaN among two operands, quieted. -/
def nanOf? (x y : Binary64) : Option Binary64 :=
  if x.isNaN then some x.quiet else if y.isNaN then some y.quiet else none

/-- A hardware operation with the rules for NaNs around it. -/
def lift (op : Float → Float → Float) (x y : Binary64) : Binary64 :=
  match nanOf? x y with
  | some n => n
  | none =>
    let r : Binary64 := ⟨(op (Float.ofBits x.bits) (Float.ofBits y.bits)).toBits⟩
    if r.isNaN then invalid else r

/-- The sum, rounded to the nearest number. -/
def add : Binary64 → Binary64 → Binary64 := lift (· + ·)

/-- The difference, rounded to the nearest number. -/
def sub : Binary64 → Binary64 → Binary64 := lift (· - ·)

/-- The product, rounded to the nearest number. -/
def mul : Binary64 → Binary64 → Binary64 := lift (· * ·)

/-- The quotient, rounded to the nearest number; dividing by zero gives an infinity or a NaN. -/
def div : Binary64 → Binary64 → Binary64 := lift (· / ·)

/-- The magnitudes of two finite numbers on a common scale. -/
def aligned (x y : Binary64) : Nat × Nat × Int :=
  let (mx, ex) := x.magnitude
  let (my, ey) := y.magnitude
  let e := min ex ey
  (mx <<< (ex - e).toNat, my <<< (ey - e).toNat, e)

/-- The exact remainder of truncated division, with the sign of the dividend. -/
def remainder (x y : Binary64) : Binary64 :=
  match nanOf? x y with
  | some n => n
  | none =>
    if x.isInfinite || y.isZero then invalid
    else if y.isInfinite || x.isZero then x
    else
      let (mx, my, e) := aligned x y
      ofScaled x.negative (mx % my) e

/-- The remainder with the sign of the divisor. -/
def floorMod (x y : Binary64) : Binary64 :=
  let r := remainder x y
  if !r.eq (zero false) && ((!r.isNaN && r.orderKey < 0) != (!y.isNaN && y.orderKey < 0)) then
    add r y
  else r

/-- The largest integral number that is not larger. -/
def floor (x : Binary64) : Binary64 :=
  if x.isNaN then x.quiet
  else if x.isInfinite || x.isZero then x
  else
    let (m, e) := x.magnitude
    if 0 ≤ e then x
    else
      let d := 1 <<< (-e).toNat
      if x.negative then
        let q := (m + d - 1) / d
        ofScaled true q 0
      else ofScaled false (m / d) 0

/-- The quotient rounded towards negative infinity, after rounding the quotient itself. -/
def floorDiv (x y : Binary64) : Binary64 := (div x y).floor

end Binary64

end Resumable
