import Resumable.Operation.Basic

/-!
# Native functions and exception classes

Calling a native function or an exception class gives a value at once, without a frame.
-/

namespace Resumable

namespace ExceptionKind

/-- An instance of a class; the text of the first argument is its message. -/
def instantiate (kind : ExceptionKind) (args : List Value) : Operation Raised :=
  match args with
  | [] => pure (Raised.bare kind)
  | .str _ s :: _ => pure (Raised.new kind s)
  | v :: _ => return Raised.new kind (← Operation.text v)

end ExceptionKind

namespace Value

/-- The exception meant by a raised value: an instance, or a class with an argument or without. -/
def toRaised (v : Value) (arg : Option Value) : Operation Raised :=
  match v, arg with
  | exception e, Option.none => pure ⟨e, []⟩
  | exceptionKind k, Option.none => pure (Raised.bare k)
  | exceptionKind k, some a => k.instantiate [a]
  | v, _ =>
    Operation.typeError s!"exceptions must derive from BaseException, not '{v.typeName}'"

/-- The value as an integer argument. -/
def asArgument (v : Value) : Except Raised Int64 :=
  match v.asInt? with
  | some i => .ok i
  | Option.none =>
    .error (Raised.typeError s!"'{v.typeName}' object cannot be interpreted as an integer")

end Value

namespace Builtin

/-- The length of a string in characters, or of a tuple in items. -/
def callLen (args : List Value) : Except Raised Value :=
  match args with
  | [.str _ s] => (narrowed s.length).map .int
  | [.tuple _ items] => (narrowed items.length).map .int
  | [v] => .error (Raised.typeError s!"object of type '{v.typeName}' has no len()")
  | _ => .error (Raised.typeError s!"len() takes exactly one argument ({args.length} given)")

/-- The range given by one to three integers. -/
def rangeOf (args : List Int64) : Except Raised Iteration :=
  let checked (start stop step : Int64) : Except Raised Iteration :=
    if step == 0 then .error (Raised.new .valueError "range() arg 3 must not be zero")
    else .ok (.range start stop step)
  match args with
  | [stop] => checked 0 stop 1
  | [start, stop] => checked start stop 1
  | [start, stop, step] => checked start stop step
  | _ => .error (Raised.typeError s!"range expected 1 to 3 arguments, got {args.length}")

/-- Calls a native function. -/
def call (b : Builtin) (args : List Value) : Operation Value :=
  match b with
  | .len => liftM (callLen args)
  | .range => do
    let ints ← liftM (args.mapM Value.asArgument)
    Operation.iterator (← liftM (rangeOf ints))

end Builtin

end Resumable
