import Resumable.Operation.Basic

/-!
# Comparison

`Value.order?` is the order of numbers, strings and tuples; other values, and values of different
sorts, are not ordered.  Two tuples are ordered by the first pair of items that differ, or by their
lengths.  `Value.compare` is the result of any of the comparison operators.
-/

namespace Resumable

namespace Value

mutual

/-- The order of two values, if they are ordered. -/
def order? : Value → Value → Option Ordering
  | str _ a, str _ b => some (compareOfLessAndEq a b)
  | tuple _ a, tuple _ b => orderItems? a b
  | a, b =>
    match a.asInt?, b.asInt? with
    | some m, some n => some (compareOfLessAndEq m.toInt n.toInt)
    | _, _ =>
      match a.asFloat?, b.asFloat? with
      | some x, some y => x.order? y
      | _, _ => Option.none

/-- The order of two lists of items. -/
def orderItems? : List Value → List Value → Option Ordering
  | [], [] => some .eq
  | [], _ :: _ => some .lt
  | _ :: _, [] => some .gt
  | a :: as, b :: bs => if a.eq b then orderItems? as bs else order? a b

end

/-- A text occurs in another. -/
def occursIn (needle : List Char) : List Char → Bool
  | [] => needle.isEmpty
  | c :: rest => needle.isPrefixOf (c :: rest) || occursIn needle rest

/-- A value is an item of a tuple or a part of a string. -/
def contains (container item : Value) : Except Raised Bool :=
  match container with
  | tuple _ items => .ok (items.any fun x => x.eq item)
  | str _ text =>
    match item with
    | str _ needle => .ok (occursIn needle.toList text.toList)
    | v =>
      .error (Raised.typeError
        s!"'in <string>' requires string as left operand, not {v.typeName}")
  | v => .error (Raised.typeError s!"argument of type '{v.typeName}' is not iterable")

/-- The class of an exception class or instance. -/
def exceptionKind? : Value → Option ExceptionKind
  | exceptionKind k => some k
  | exception e => some e.kind
  | _ => Option.none

mutual

/-- A handler, an exception class or a tuple of handlers, catches exceptions of a class. -/
def catches (raised : ExceptionKind) : Value → Except Raised Bool
  | exceptionKind k => .ok (raised.isSubclassOf k)
  | tuple _ items => anyCatches raised items
  | v =>
    .error (Raised.typeError s!"catching '{v.typeName}' is not allowed, only exception classes")

/-- One of several handlers catches exceptions of a class; later ones are not looked at. -/
def anyCatches (raised : ExceptionKind) : List Value → Except Raised Bool
  | [] => .ok false
  | v :: rest =>
    match catches raised v with
    | .ok false => anyCatches raised rest
    | r => r

end

/-- What was raised is caught by a handler; what is no exception never is. -/
def exceptionMatch (raised handler : Value) : Except Raised Bool :=
  match raised.exceptionKind? with
  | some k => catches k handler
  | Option.none => .ok false

/-- The order of two values, which must be ordered for `op`. -/
def ordered (op : Comparison) (a b : Value) : Except Raised Ordering :=
  match a.order? b with
  | some o => .ok o
  | Option.none =>
    .error (Raised.typeError
      s!"'{op.name}' not supported between instances of '{a.typeName}' and '{b.typeName}'")

/-- The result of a comparison operator. -/
def compare (op : Comparison) (a b : Value) : Except Raised Bool :=
  match op with
  | .eq => .ok (a.eq b)
  | .ne => .ok (!a.eq b)
  | .same => .ok (a.same b)
  | .notSame => .ok (!a.same b)
  | .mem => b.contains a
  | .notMem => (b.contains a).map (!·)
  | .exceptionMatch => exceptionMatch a b
  | .lt => (ordered op a b).map (· == .lt)
  | .le => (ordered op a b).map (· != .gt)
  | .gt => (ordered op a b).map (· == .gt)
  | .ge => (ordered op a b).map (· != .lt)

end Value

end Resumable
