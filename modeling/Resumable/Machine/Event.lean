import Resumable.Heap.Basic

/-!
# Events

An `Event` is something a machine reports while it runs.  A frame that is pushed on the chain is
reported with `enter` and `call`, and once it stops, with `leave` after `stop`; in between come its
own instructions, lines and exceptions, and the groups of the frames it calls or resumes.
-/

namespace Resumable

/-- What a machine reports. -/
inductive Event where
  /-- An instruction is about to be executed. -/
  | instruction (offset : Nat) (opcode : Opcode) (stackDepth depth : Nat)
  /-- A frame was pushed on the chain; `depth` counts it. -/
  | enter (code : String) (depth : Nat)
  /-- A frame was popped from the chain. -/
  | leave (code : String) (depth : Nat)
  /-- A frame starts or resumes. -/
  | call (code : String) (depth : Nat)
  /-- A frame stopped with a value, or with none if it failed. -/
  | stop (code : String) (value : Option Value) (depth : Nat)
  | line (code : String) (number : Nat)
  /-- An exception was raised in a frame, and no handler has seen it yet. -/
  | exception (code : String) (error : Raised)

end Resumable
