import Resumable.Frame.OperandStack

/-!
# Frames

A `Frame` is one invocation of a code object in progress: its value stack, its live blocks, its
locals and cells, where it is, and how lines are reported.  Mutable objects it uses are named by
references into the heap.
-/

namespace Resumable

/-- The kinds of live blocks. -/
inductive BlockKind where
  /-- Stops `break` and `continue`. -/
  | loop
  /-- Stops exceptions. -/
  | except
  /-- Stops every reason for unwinding, the block of a `finally`. -/
  | cleanup
  deriving DecidableEq, Repr

namespace BlockKind

/-- The name of a kind. -/
def name : BlockKind → String
  | loop => "Loop"
  | except => "Except"
  | cleanup => "Finally"

/-- The kind with a given name. -/
def ofName? (s : String) : Option BlockKind := [loop, except, cleanup].find? fun k => k.name == s

end BlockKind

/-- A live block. -/
structure Block where
  kind : BlockKind
  /-- Where the handler starts, or where a loop is left to. -/
  handler : Nat
  /-- The depth of the value stack when the block was entered. -/
  depth : Nat
  deriving DecidableEq, Repr

/-- The block stops an unwinding for this reason. -/
def Block.handles {ν : Type} (b : Block) (reason : Unwind ν) : Bool :=
  match b.kind, reason with
  | .loop, .breaking | .loop, .continuing _ | .except, .raising _ | .cleanup, _ => true
  | _, _ => false

/-- Where the local variables are kept. -/
inductive Locals where
  /-- Slots addressed by index; an empty one is an unbound variable. -/
  | fast (slots : List (Option Value))
  /-- A mapping, which may be that of the globals. -/
  | dict (names : Ref .mapping)
  deriving Inhabited

/-- How lines are reported.  Offsets from `lower` up to, not including, `upper` belong to the line
last reported; `previous` is the offset executed before. -/
structure LineTrace where
  line : Nat
  /-- The hook called on line events. -/
  hook : Option Nat := none
  lower : Int := 0
  upper : Int := -1
  previous : Int := -1
  deriving DecidableEq, Repr, Inhabited

/-- One invocation of a code object in progress. -/
structure Frame where
  code : CodeObject
  globals : Ref .mapping
  builtins : Ref .mapping
  locals : Locals
  /-- Cells of the cell variables, then of the free variables. -/
  cells : List (Ref .cell)
  stack : OperandStack
  /-- Live blocks, innermost first. -/
  blocks : List Block := []
  /-- The offset of the instruction executed last; none before the first one. -/
  lastOffset : Option Nat := none
  /-- The position of the caller on the chain of running frames. -/
  back : Option Nat := none
  /-- The exception most recently raised in this frame. -/
  pending : Option Raised := none
  trace : LineTrace
  finished : Bool := false
  deriving Inhabited

namespace Frame

variable (f : Frame)

/-- The largest offset a signed sixty-four bit word holds. -/
abbrev farthestOffset : Nat := 0x7FFFFFFFFFFFFFFF

/-- The offset a frame records when it gets to `offset`.  Every offset within the code is recorded
as it is.  Beyond the code, where only a block or a target given from outside can lead, the record
is a signed sixty-four bit word, and an offset that does not fit is recorded as the farthest that
does. -/
def recordedOffset (offset : Nat) : Nat :=
  if offset ≤ farthestOffset ∨ offset < f.code.body.bytecode.length then offset
  else farthestOffset

/-- The offset of an instruction is recorded as it is. -/
theorem recordedOffset_of_lt {f : Frame} {offset : Nat}
    (h : offset < f.code.body.bytecode.length) : f.recordedOffset offset = offset :=
  if_pos (.inr h)

/-- The name of the code the frame runs. -/
def name : String := f.code.body.name

/-- The frame as it is left when it is done: both stacks are empty. -/
def finish : Frame := { f with finished := true, stack := f.stack.truncate 0, blocks := [] }

/-- The offset of the next instruction: the first one, or the one after the last executed. -/
def resumeOffset : Except Fault Nat :=
  match f.lastOffset with
  | none => .ok 0
  | some o =>
    match f.code.body.opcodeAt? o with
    | some op => .ok (o + op.width)
    | none => .error (.invalidOpcode o ((f.code.body.bytecode[o]?).getD 0))

/-- The value of a fast local. -/
def fastLocal? (index : Nat) : Option Value :=
  match f.locals with
  | .fast slots => (slots[index]?).join
  | .dict _ => none

/-- Binds a fast local. -/
def setFastLocal (index : Nat) (v : Value) : Except Fault Frame :=
  match f.locals with
  | .dict _ => .error (.invalidCode .noSlots)
  | .fast slots =>
    if index < slots.length then .ok { f with locals := .fast (slots.set index (some v)) }
    else .error (.invalidCode (.slotOutOfRange index))

/-- Enters a block. -/
def pushBlock (b : Block) : Frame := { f with blocks := b :: f.blocks }

/-- Leaves the innermost block. -/
def popBlock : Except Fault (Block × Frame) :=
  match f.blocks with
  | [] => .error (.malformedBlocks (.noBlock f.name))
  | b :: outer => .ok (b, { f with blocks := outer })

end Frame

end Resumable
