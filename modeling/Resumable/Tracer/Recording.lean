import Resumable.Machine.Event

/-!
# Recorded events

A recording keeps events as they read at the time they happen: values and exceptions are kept as
text, so that later changes of the heap do not show.
-/

namespace Resumable

/-- An event as it is kept. -/
inductive Recorded where
  | instruction (offset : Nat) (opcode : Opcode) (stackDepth : Nat)
  | enter (code : String) (depth : Nat)
  | leave (code : String) (depth : Nat)
  | call (code : String) (depth : Nat)
  | stop (code : String) (value : Option String) (depth : Nat)
  | line (code : String) (number : Nat)
  | exception (code error : String)
  deriving DecidableEq, Repr

/-- The event with the text of its value. -/
def Event.recorded (h : Heap) : Event → Recorded
  | .instruction o op s _ => .instruction o op s
  | .enter c d => .enter c d
  | .leave c d => .leave c d
  | .call c d => .call c d
  | .stop c v d => .stop c (v.map h.text) d
  | .line c n => .line c n
  | .exception c e => .exception c e.exception.text

/-- The event is that of a single instruction. -/
def Recorded.isInstruction : Recorded → Bool
  | instruction .. => true
  | _ => false

end Resumable
