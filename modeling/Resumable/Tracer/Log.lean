import Resumable.Machine.Event
import Resumable.Bytecode.Listing

/-!
# Execution logs

A log has a line for each event, indented by the depth of the frame.  It can be limited to a number
of instructions, after which nothing more is written.
-/

namespace Resumable

/-- A log under way. -/
structure Log where
  /-- Instructions that may still be written; none if their number is not limited. -/
  remaining : Option Nat := none
  /-- The depth of the frame that runs. -/
  depth : Nat := 0
  text : String := ""
  deriving Repr

namespace Log

/-- Nothing more is written. -/
def isQuiet (l : Log) : Bool := l.remaining == some 0

/-- Writes a line, indented by the depth and some more, unless the log is quiet. -/
def write (l : Log) (extra : Nat) (line : String) : Log :=
  if l.isQuiet then l
  else { l with text := l.text ++ padLeft ((l.depth - 1) * 2 + extra) "" ++ line ++ "\n" }

/-- Counts an instruction that was written. -/
def countInstruction (l : Log) : Log :=
  match l.remaining with
  | none => l
  | some 0 => l
  | some 1 => { l with remaining := some 0, text := l.text ++ "(trace limit reached)\n" }
  | some (n + 1) => { l with remaining := some n }

/-- Writes an event. -/
def add (h : Heap) (l : Log) : Event → Log
  | .instruction o op s _ =>
    let offset := toString o
    let digits := DecimalStyle.zeros (4 - offset.length) ++ offset
    (l.write 2 s!"{digits} {padRight 18 op.name} stack {s}").countInstruction
  | .call c d => { l with depth := d }.write 0 s!"-> {c} (depth {d})"
  | .stop c (some v) d => { l with depth := d }.write 0 s!"<- {c} = {h.text v}"
  | .stop c none d => { l with depth := d }.write 0 s!"<- {c} failed"
  | .leave _ d => { l with depth := d - 1 }
  | .line _ n => l.write 2 s!": line {n}"
  | .exception c e => l.write 2 s!"!! {e.exception.text} in {c}"
  | .enter .. => l

end Log

end Resumable
