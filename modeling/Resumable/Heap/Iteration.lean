import Resumable.Value.Basic
import Resumable.Number.Word

/-!
# Iterations

An `Iteration` is the state of an iterator over the items of a tuple, the characters of a string,
or a range of integers.  `Iteration.next?` draws one value; once it returns none the iteration is
exhausted and stays so.

The position in a string counts bytes of its encoding.  One at which the string cannot be cut comes
from outside only, and nothing can be drawn there.  A range stops counting at the ends of the
integers: its next value saturates, which lies at or beyond the stop.
-/

namespace Resumable

/-- The character that starts at a byte position. -/
def charAt? (text : String) (i : Nat) : Option Char := String.Pos.Raw.get? text ⟨i⟩

/-- The state of an iterator. -/
inductive Iteration where
  | items (items : Array Value) (index : Nat)
  /-- Characters of a text from a byte position on. -/
  | chars (text : String) (index : Nat)
  | range (next stop step : Int64)
  deriving Inhabited

namespace Iteration

/-- A range has no further value. -/
def rangeDone (next stop step : Int64) : Bool :=
  if 0 < step then stop ≤ next else next ≤ stop

/-- Draws the next value; a string drawn gets the identity `fresh`.  The error is a position at
which the text cannot be cut. -/
def next? (fresh : Identity) : Iteration → Except Nat (Option (Value × Iteration))
  | items vs i => .ok ((vs[i]?).map fun v => (v, items vs (i + 1)))
  | chars text i =>
    if (⟨i⟩ : String.Pos.Raw).isValid text then
      .ok ((charAt? text i).map fun c => (.str fresh c.toString, chars text (i + c.utf8Size)))
    else .error i
  | range next stop step =>
    if rangeDone next stop step then .ok none
    else .ok (some (.int next, range (saturate (next.toInt + step.toInt)) stop step))

/-- The state of an iterator about which nothing is known yet. -/
def placeholder : Iteration := items #[] 0

end Iteration

end Resumable
