import Resumable.Frame.Basic

/-!
# Unwinding

To unwind, a frame pops its blocks, innermost first, and cuts the value stack to the depth at which
each was entered, until a block stops the reason for unwinding.  The handler of an `except` or
`finally` block finds three values on the stack: the suspended reason, and for an exception its
instance and its class.  A loop that is continued stays live.
-/

namespace Resumable

/-- How an unwinding ended. -/
inductive Unwound where
  /-- A block stopped it; execution continues at an offset. -/
  | handled (target : Nat)
  /-- No block stopped it. -/
  | unhandled
  /-- The values for a handler did not fit on the stack. -/
  | faulted (fault : Fault)
  deriving DecidableEq, Repr

namespace Frame

/-- Cuts the value stack to the depth at which a block was entered. -/
def cutTo (f : Frame) (b : Block) : Frame := { f with stack := f.stack.truncate b.depth }

/-- The three values a handler finds, lowest first. -/
def handlerValues (reason : Unwind Value) : List Value :=
  match reason with
  | .raising e => [.suspended reason, .exception e.exception, .exceptionKind e.kind]
  | _ => [.suspended reason, .none, .none]

/-- The exception that entering a handler makes the current one. -/
def pendingAfter (f : Frame) (reason : Unwind Value) : Option Raised :=
  match reason with
  | .raising e => some e
  | _ => f.pending

/-- Starts the handler of an `except` or `finally` block. -/
def startHandler (f : Frame) (b : Block) (reason : Unwind Value) : Frame × Unwound :=
  let f := f.cutTo b
  let (pushed, stack) := f.stack.pushAll (handlerValues reason)
  ({ f with stack, pending := f.pendingAfter reason },
    match pushed with
    | .ok () => .handled b.handler
    | .error e => .faulted e)

/-- Hands the reason for unwinding to the block that stops it, which has just been popped. -/
def handle (f : Frame) (b : Block) (reason : Unwind Value) : Frame × Unwound :=
  match b.kind, reason with
  | .loop, .continuing target => (f.pushBlock b, .handled target)
  | .loop, _ => (f.cutTo b, .handled b.handler)
  | _, _ => f.startHandler b reason

/-- Unwinds through the given blocks, which are the live ones. -/
def unwindThrough (reason : Unwind Value) : List Block → Frame → Frame × Unwound
  | [], f => ({ f with blocks := [] }, .unhandled)
  | b :: outer, f =>
    if b.handles reason then handle { f with blocks := outer } b reason
    else unwindThrough reason outer ({ f with blocks := outer }.cutTo b)

/-- Unwinds the live blocks for a reason. -/
def unwind (f : Frame) (reason : Unwind Value) : Frame × Unwound :=
  unwindThrough reason f.blocks f

/-- What `popBlock` leaves after a block: the stack is cut, and the handler of a `finally` block,
which is entered next, finds three times `None`. -/
def leaveBlock (f : Frame) (b : Block) : Except Fault Unit × Frame :=
  let f := f.cutTo b
  if b.kind = .cleanup then
    let (pushed, stack) := f.stack.pushAll [.none, .none, .none]
    (pushed, { f with stack })
  else (.ok (), f)

end Frame

end Resumable
