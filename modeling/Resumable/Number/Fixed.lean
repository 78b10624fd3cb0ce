import Resumable.Number.Binary64

/-!
# Decimal text with fixed places

A finite number is rounded to a number of decimal places by its exact value; a tie goes to the even
digit.
-/

namespace Resumable

namespace Binary64

/-- The nearest integer to the magnitude of a finite number times `10 ^ places`. -/
def roundScaled (x : Binary64) (places : Nat) : Nat :=
  let (m, e) := x.magnitude
  roundDiv ((m * Nat.pow 10 places) <<< e.toNat) (1 <<< (-e).toNat)

/-- The text of a finite number with at least one decimal place. -/
def fixedText (x : Binary64) (places : Nat) : String :=
  let n := x.roundScaled places
  let fraction := toString (n % Nat.pow 10 places)
  (if x.negative then "-" else "") ++ toString (n / Nat.pow 10 places) ++ "." ++
    String.ofList (List.replicate (places - fraction.length) '0') ++ fraction

end Binary64

end Resumable
