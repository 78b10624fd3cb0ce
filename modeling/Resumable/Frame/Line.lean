import Resumable.Frame.Basic
import Resumable.Bytecode.LineTable
import Resumable.Bytecode.BlockStructure

/-!
# Lines and jumps

A frame reports a line when it executes the first instruction of a line it was not in, and when it
moves backwards within a line (`Frame.lineEvent`).

While its hook is called, a frame may be moved to another line (`Frame.jump`).  The move is refused
where it would enter a block from outside, or enter or leave the handler of a `finally` block;
blocks it leaves are dropped together with their part of the value stack, and their handlers do not
run.
-/

namespace Resumable

/-- Why a frame was not moved to another line. -/
inductive JumpRefusal where
  /-- Lines are set from inside a hook only. -/
  | notTracing
  | beforeCode (line : Nat)
  | afterCode (line : Nat)
  /-- The line starts with an instruction that dispatches an exception. -/
  | noException
  /-- Other `finally` handlers run at the target than here; the innermost ones are given by the
  offsets of their setup instructions. -/
  | handlers (here there : Option Nat)
  | intoBlock
  deriving DecidableEq, Repr

namespace JumpRefusal

/-- An offset, or the word for none. -/
def offsetText : Option Nat → String
  | some o => toString o
  | none => "none"

/-- The name of the kind of refusal. -/
def name : JumpRefusal → String
  | notTracing => "NotTracing"
  | beforeCode _ => "BeforeCode"
  | afterCode _ => "AfterCode"
  | noException => "NoException"
  | handlers _ _ => "IntoOrOutOfFinally"
  | intoBlock => "IntoMiddleOfBlock"

/-- The wording of a refusal. -/
def message : JumpRefusal → String
  | notTracing => "f_lineno can only be set by a trace function"
  | beforeCode l => s!"line {l} comes before the current code"
  | afterCode l => s!"line {l} comes after the current code"
  | noException => "can't jump to 'except' line as there's no exception"
  | handlers a b =>
    s!"can't jump into or out of a 'finally' block {offsetText a} -> {offsetText b}"
  | intoBlock => "can't jump into the middle of a block"

end JumpRefusal

namespace StaticBlock

/-- The innermost handler running right after each of the instructions, as far as they nest. -/
def handlers (code : String) : List Instruction → List StaticBlock → List (Nat × Option Nat)
  | [], _ => []
  | i :: rest, opened =>
    match step code opened i with
    | .error _ => []
    | .ok opened => (i.offset, innermostHandler? opened) :: handlers code rest opened

end StaticBlock

/-- The innermost `finally` handler that contains an offset, if any. -/
def CodeOf.handlerAt? {κ : Type} (c : CodeOf κ) (offset : Nat) : Option Nat :=
  ((StaticBlock.handlers c.name c.instructions []).lookup offset).join

/-- How many more blocks are opened than closed by a stretch of instructions, and the least that
number gets on the way. -/
def blockBalance (is : List Instruction) : Int × Int :=
  is.foldl (fun (delta, least) i =>
    if i.opcode.isBlockSetup then (delta + 1, least)
    else if i.opcode = .popBlock then (delta - 1, min least (delta - 1))
    else (delta, least)) (0, 0)

namespace Frame

variable (f : Frame)

/-- The line of the instruction executed last. -/
def lastLine : Nat :=
  match f.lastOffset with
  | none => f.code.body.firstLine
  | some o => f.code.body.lineForOffset o

/-- The line shown for the frame.  With a hook this is the line last reported, which a jump may have
moved away from the offset. -/
def currentLine : Nat := if f.trace.hook.isSome then f.trace.line else f.lastLine

/-- Attaches or detaches a hook. -/
def setTrace (hook : Option Nat) : Frame :=
  { f with trace :=
    { f.trace with hook, line := if hook.isSome then f.lastLine else f.trace.line } }

/-- Keeps the outermost blocks, at most so many, and cuts the stack to the depth of each block
dropped. -/
def dropBlocks (keep : Int) : List Block → OperandStack → List Block × OperandStack
  | [], stack => ([], stack)
  | b :: outer, stack =>
    if keep < (outer.length : Int) + 1 then dropBlocks keep outer (stack.truncate b.depth)
    else (b :: outer, stack)

/-- The first instruction of the first line at or after `line`, and that line. -/
def jumpTarget? (line : Nat) : Option (Nat × Nat) :=
  (f.code.body.lineStarts.find? fun (_, l) => line ≤ l).filter
    fun (o, _) => o < f.code.body.bytecode.length

/-- The instruction at an offset starts the dispatch of an exception. -/
def dispatchesException (offset : Nat) : Bool :=
  f.code.body.opcodeAt? offset == some .dupTop || f.code.body.opcodeAt? offset == some .popTop

/-- The block balance of the instructions between two offsets, in either order. -/
def balanceBetween (a b : Nat) : Int × Int :=
  blockBalance (f.code.body.instructions.filter fun i =>
    decide (min a b ≤ i.offset) && decide (i.offset < max a b))

/-- Moves execution to the first instruction of a line, or of the next line that has any. -/
def jump (line : Nat) : Except JumpRefusal Frame :=
  if f.trace.hook.isNone then .error .notTracing
  else if line < f.code.body.firstLine then .error (.beforeCode line)
  else
    match f.jumpTarget? line with
    | none => .error (.afterCode line)
    | some (target, targetLine) =>
      if f.dispatchesException target then .error .noException
      else
        let here := f.lastOffset.getD 0
        let handlerHere := f.code.body.handlerAt? here
        let handlerThere := f.code.body.handlerAt? target
        if handlerHere ≠ handlerThere then .error (.handlers handlerHere handlerThere)
        else
          let (delta, least) := f.balanceBetween here target
          let live : Int := f.blocks.length
          let remaining := if here < target then live + delta else live - delta
          if live + least < remaining then .error .intoBlock
          else
            let (blocks, stack) := dropBlocks remaining f.blocks f.stack
            .ok { f with
              blocks, stack, lastOffset := some target
              trace := { f.trace with line := targetLine } }

/-- Follows the line of the instruction at `offset`, which is about to be executed, and returns the
line to report if one is. -/
def lineEvent (offset : Nat) : Option Nat × Frame :=
  let t := f.trace
  let now : Int := offset
  let (event, t) :=
    if t.lower ≤ now ∧ now < t.upper then
      (if now < t.previous then some (f.code.body.lineForOffset offset) else none, t)
    else
      let range := f.code.body.lineRange offset
      let upper : Int := match range.stop with
        | some o => o
        | none => farthestOffset
      (if range.start = offset then some range.line else none,
        { t with lower := range.start, upper })
  (event, { f with trace := { t with previous := now, line := event.getD t.line } })

end Frame

end Resumable
