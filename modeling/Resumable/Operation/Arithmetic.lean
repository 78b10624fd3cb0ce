import Resumable.Operation.Basic

/-!
# Arithmetic

A sum, a difference or a product of integers that does not fit into a word raises an
`OverflowError`.  Words are divided towards zero, and the quotient and the remainder are then
corrected to be those of the division rounded towards negative infinity.  Booleans count as
integers, an integer beside a float counts as a float, strings and tuples are joined by `+` and
repeated by `*`.
-/

namespace Resumable

/-- The binary operators. -/
inductive BinaryOperator where
  | add | sub | mul | mod | floorDiv
  deriving DecidableEq, Repr

namespace BinaryOperator

/-- The spelling of an operator in messages. -/
def symbol : BinaryOperator → String
  | add => "+"
  | sub => "-"
  | mul => "*"
  | mod => "%"
  | floorDiv => "//"

/-- The operators that divide. -/
def divides : BinaryOperator → Bool
  | mod | floorDiv => true
  | _ => false

/-- The quotient rounded towards negative infinity: the one rounded towards zero, less one where
that rounded up. -/
def floorQuotient (a b : Int64) : Int64 :=
  if a % b != 0 && (decide (a < 0) != decide (b < 0)) then a / b - 1 else a / b

/-- The remainder with the sign of the divisor, which belongs to the quotient rounded towards
negative infinity. -/
def floorRemainder (a b : Int64) : Int64 :=
  let r := a % b
  if r != 0 && (decide (r < 0) != decide (b < 0)) then r + b else r

/-- The result on integers.  Where the quotient does not fit, the remainder is refused with it. -/
def onInts (op : BinaryOperator) (a b : Int64) : Except Raised Int64 :=
  if op.divides && b == 0 then
    .error (Raised.new .zeroDivisionError "integer division or modulo by zero")
  else if op.divides && a == Int64.minValue && b == -1 then .error Raised.overflow
  else
    match op with
    | add => narrowed (a.toInt + b.toInt)
    | sub => narrowed (a.toInt - b.toInt)
    | mul => narrowed (a.toInt * b.toInt)
    | mod => .ok (floorRemainder a b)
    | floorDiv => .ok (floorQuotient a b)

/-- The result on floats. -/
def onFloats (op : BinaryOperator) (a b : Binary64) : Except Raised Binary64 :=
  match op with
  | add => .ok (a.add b)
  | sub => .ok (a.sub b)
  | mul => .ok (a.mul b)
  | mod =>
    if b.isZero then .error (Raised.new .zeroDivisionError "float modulo") else .ok (a.floorMod b)
  | floorDiv =>
    if b.isZero then .error (Raised.new .zeroDivisionError "float divmod()")
    else .ok (a.floorDiv b)

end BinaryOperator

/-- The most bytes of a string or items of a tuple that a repetition may produce. -/
def maxRepeatLength : Nat := 0x10000000

/-- How often a sequence of a given length is repeated; zero times where nothing would come of
it. -/
def repeatCount (length : Nat) (times : Int64) : Except Raised Nat :=
  let times := times.toInt.toNat
  let total := length * times
  if total = 0 then .ok 0
  else if total ≤ maxRepeatLength then .ok times
  else .error (Raised.new .overflowError "repeated sequence is too long")

/-- So many copies of a text, one after the other. -/
def copies (s : String) (n : Nat) : String :=
  if n = 0 then ""
  else
    let half := copies s (n / 2)
    if n % 2 = 0 then half ++ half else half ++ half ++ s

namespace Value

/-- A repeated string or tuple. -/
def repeatSequence (sequence : Value) (times : Int64) : Operation Value :=
  match sequence with
  | str _ s => do
    let n ← liftM (repeatCount s.utf8ByteSize times)
    Operation.str (copies s n)
  | tuple _ items => do
    let n ← liftM (repeatCount items.length times)
    Operation.tuple (List.replicate n items).flatten
  | v => pure v

/-- A value that `*` repeats. -/
def isSequence : Value → Bool
  | str _ _ | tuple _ _ => true
  | _ => false

/-- The exception for operands that an operator does not take. -/
def unsupported (op : BinaryOperator) (a b : Value) : Raised :=
  Raised.typeError
    s!"unsupported operand type(s) for {op.symbol}: '{a.typeName}' and '{b.typeName}'"

/-- The result on operands that are not both numbers. -/
def onSequences (op : BinaryOperator) (a b : Value) : Operation Value :=
  match op, a, b with
  | .add, str _ s, str _ t => Operation.str (s ++ t)
  | .add, tuple _ s, tuple _ t => Operation.tuple (s ++ t)
  | .mul, a, b =>
    match a.isSequence, b.asInt?, b.isSequence, a.asInt? with
    | true, some n, _, _ => a.repeatSequence n
    | _, _, true, some n => b.repeatSequence n
    | _, _, _, _ => Operation.raise (unsupported op a b)
  | _, _, _ => Operation.raise (unsupported op a b)

/-- A value is a float. -/
def isFloat : Value → Bool
  | float _ => true
  | _ => false

/-- The result of a binary operator. -/
def binary (op : BinaryOperator) (a b : Value) : Operation Value :=
  match a.asInt?, b.asInt? with
  | some m, some n => return .int (← liftM (op.onInts m n))
  | _, _ =>
    match a.isFloat || b.isFloat, a.asFloat?, b.asFloat? with
    | true, some x, some y => return .float (← liftM (op.onFloats x y))
    | _, _, _ => onSequences op a b

/-- The value of `+v`. -/
def positive : Value → Except Raised Value
  | float x => .ok (float x)
  | v =>
    match v.asInt? with
    | some i => .ok (int i)
    | Option.none => .error (Raised.typeError s!"bad operand type for unary +: '{v.typeName}'")

/-- The value of `-v`. -/
def negative : Value → Except Raised Value
  | float x => .ok (float x.neg)
  | v =>
    match v.asInt? with
    | some i =>
      match narrow? (-i.toInt) with
      | some j => .ok (int j)
      | Option.none => .error Raised.overflow
    | Option.none => .error (Raised.typeError s!"bad operand type for unary -: '{v.typeName}'")

end Value

end Resumable
