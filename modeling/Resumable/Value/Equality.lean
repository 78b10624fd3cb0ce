import Resumable.Value.Basic

/-!
# Equality of values

Data is equal by contents, an integer and a float by the number they denote.  Functions and mutable
objects are equal only to themselves, so equality never looks into the heap.  It is not reflexive:
a NaN differs from itself, and so does a tuple that holds one.
-/

namespace Resumable

mutual

/-- Equality, the relation `==`. -/
def Value.eq : Value → Value → Bool
  | .none, .none => true
  | .bool a, .bool b => a == b
  | .int a, .int b => a == b
  | .float a, .float b => a.eq b
  | .int a, .float b => (Binary64.ofInt a.toInt).eq b
  | .float a, .int b => (Binary64.ofInt b.toInt).eq a
  | .str _ a, .str _ b => a == b
  | .tuple _ a, .tuple _ b => Value.eqList a b
  | .exceptionKind a, .exceptionKind b => a == b
  | .exception a, .exception b => a == b
  | .builtin a, .builtin b => a == b
  | .code a, .code b => a.identity == b.identity || a.body.eq b.body
  | .suspended a, .suspended b => Value.eqUnwind a b
  | .function a _, .function b _ => a == b
  | .generator a, .generator b => a == b
  | .iterator a, .iterator b => a == b
  | .cell a, .cell b => a == b
  | _, _ => false

/-- Equality, item by item. -/
def Value.eqList : List Value → List Value → Bool
  | [], [] => true
  | a :: as, b :: bs => Value.eq a b && Value.eqList as bs
  | _, _ => false

/-- Equality of the reasons for unwinding. -/
def Value.eqUnwind : Unwind Value → Unwind Value → Bool
  | .returning a, .returning b => Value.eq a b
  | .breaking, .breaking => true
  | .continuing a, .continuing b => a == b
  | .raising a, .raising b => a == b
  | _, _ => false

end

/-- Equality of values that may be missing. -/
def Value.eqOption : Option Value → Option Value → Bool
  | .some a, .some b => a.eq b
  | .none, .none => true
  | _, _ => false

end Resumable
