import Resumable.Operation.Basic

/-!
# Sequences

Tuples and strings can be iterated, unpacked and indexed.  The items of a string are its characters,
each a new string.  Negative indices count from the end.
-/

namespace Resumable

namespace Operation

/-- One-character strings. -/
def characters (text : List Char) : Operation (List Value) :=
  text.mapM fun c => Operation.str c.toString

end Operation

namespace Value

/-- An iterator over a value; iterators and generators are their own. -/
def iter : Value → Operation Value
  | tuple _ items => Operation.iterator (.items items.toArray 0)
  | str _ text => Operation.iterator (.chars text 0)
  | iterator r => pure (iterator r)
  | generator r => pure (generator r)
  | v => Operation.typeError s!"'{v.typeName}' object is not iterable"

/-- The items of a sequence. -/
def elements : Value → Operation (List Value)
  | tuple _ items => pure items
  | str _ text => Operation.characters text.toList
  | v => Operation.typeError s!"cannot unpack non-iterable {v.typeName} object"

/-- The items of a sequence, which must be `count` many. -/
def unpack (v : Value) (count : Nat) : Operation (List Value) := do
  let items ← v.elements
  if items.length < count then
    Operation.raise (Raised.new .valueError
      s!"not enough values to unpack (expected {count}, got {items.length})")
  else if count < items.length then
    Operation.raise (Raised.new .valueError s!"too many values to unpack (expected {count})")
  else pure items

/-- The item at an index, a negative one counting from the end. -/
def itemAt? {α : Type} (items : List α) (index : Int) : Option α :=
  if 0 ≤ index then items[index.toNat]?
  else if 0 ≤ index + items.length then items[(index + items.length).toNat]?
  else Option.none

/-- The item of a sequence at an index. -/
def subscript (container index : Value) : Operation Value :=
  match index.asInt? with
  | Option.none => Operation.typeError s!"indices must be integers, not {index.typeName}"
  | some i =>
    match container with
    | tuple _ items =>
      match itemAt? items i.toInt with
      | some v => pure v
      | Option.none => Operation.raise (Raised.new .indexError "tuple index out of range")
    | str _ text =>
      match itemAt? text.toList i.toInt with
      | some c => Operation.str c.toString
      | Option.none => Operation.raise (Raised.new .indexError "string index out of range")
    | v => Operation.typeError s!"'{v.typeName}' object is not subscriptable"

end Value

end Resumable
