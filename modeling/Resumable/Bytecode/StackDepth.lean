import Resumable.Bytecode.Instruction

/-!
# Stack depth

The deepest value stack of a piece of bytecode is found by walking every control flow edge.  A
`Path` is a position of the walk with the depth and the open blocks it arrives with, and
`Path.advance` says which paths lead on from an instruction: the path that continues comes first,
then the paths into handlers and branches, which are walked later.

`StackDepth.walk` visits each offset once, along the first path that reaches it; the number of
paths it takes up is bounded by the length of the bytecode (`StackDepth.maximum`).
-/

namespace Resumable

/-- A block that is open along a path: the opcode that opened it, and the depth it was opened at. -/
structure WalkedBlock where
  setup : Opcode
  depth : Int
  deriving DecidableEq, Repr

/-- A position of the walk. -/
structure Path where
  offset : Nat
  depth : Int
  /-- Open blocks, innermost first. -/
  blocks : List WalkedBlock
  deriving DecidableEq, Repr

/-- Net effect of the opcodes without control flow. -/
def Opcode.stackEffect (op : Opcode) (arg : Int) : Int :=
  match op with
  | popTop => -1
  | dupTop => 1
  | binaryMultiply | binaryModulo | binaryAdd | binarySubtract | binarySubscr
  | binaryFloorDivide | compareOp => -1
  | loadConst | loadName | loadGlobal | loadFast | loadClosure | loadDeref => 1
  | storeName | storeGlobal | storeFast | storeDeref => -1
  | unpackSequence => arg - 1
  | buildTuple => 1 - arg
  | callFunction => -arg
  | makeFunction => -arg
  | makeClosure => -arg - 1
  | _ => 0

namespace Path

/-- The path that continues at `offset` with `depth`, refused below the bottom of the stack. -/
def onward (i : Instruction) (p : Path) (later : List Path) : Except Fault (List Path) :=
  if p.depth < 0 then .error (.invalidCode (.walkedUnderflow i.offset)) else .ok (p :: later)

/-- The paths that lead on from instruction `i`, in the order in which they are walked.
`input` says that a resumed `yieldValue` finds a value on the stack. -/
def advance (input : Bool) (i : Instruction) (p : Path) : Except Fault (List Path) :=
  let arg : Int := i.arg.toNat
  let ahead (depth : Int) : Path := ⟨i.next, depth, p.blocks⟩
  let branch (depth : Int) : Path := ⟨i.target, depth, p.blocks⟩
  match i.opcode with
  | .setupLoop =>
    onward i ⟨i.next, p.depth, ⟨.setupLoop, p.depth⟩ :: p.blocks⟩ [branch p.depth]
  | .setupExcept =>
    onward i ⟨i.next, p.depth, ⟨.setupExcept, p.depth⟩ :: p.blocks⟩ [branch (p.depth + 3)]
  | .setupFinally =>
    onward i ⟨i.next, p.depth, ⟨.setupFinally, p.depth⟩ :: p.blocks⟩ [branch (p.depth + 3)]
  | .popBlock =>
    match p.blocks with
    | [] => .error (.invalidCode (.walkedUnopenedBlock i.offset))
    | b :: outer =>
      let depth := if b.setup = .setupFinally then b.depth + 3 else b.depth
      onward i ⟨i.next, depth, outer⟩ []
  | .endFinally => onward i (ahead (p.depth - 3)) []
  | .forIter => onward i (ahead (p.depth + 1)) [branch (p.depth - 1)]
  | .jumpIfFalse | .jumpIfTrue => onward i (ahead p.depth) [branch p.depth]
  | .jumpForward | .jumpAbsolute => .ok [branch p.depth]
  | .returnValue | .raiseVarargs | .breakLoop | .continueLoop =>
    if p.depth < 0 then .error (.invalidCode (.walkedUnderflow i.offset)) else .ok []
  | .yieldValue => onward i (ahead (if input then p.depth else p.depth - 1)) []
  | op => onward i (ahead (p.depth + op.stackEffect arg)) []

end Path

namespace StackDepth

/-- Walks the pending paths, the first one first, and returns the greatest depth.  An offset that
was visited before, or that lies outside the bytecode, ends a path. -/
def walk (input : Bool) (bytecode : List UInt8) :
    Nat → Array Bool → Int → List Path → Except Fault Int
  | 0, _, deepest, _ => .ok deepest
  | _ + 1, _, deepest, [] => .ok deepest
  | fuel + 1, visited, deepest, p :: pending =>
    let deepest := max deepest p.depth
    if visited.getD p.offset true then walk input bytecode fuel visited deepest pending
    else do
      let i ← Instruction.decode bytecode p.offset
      let onward ← p.advance input i
      walk input bytecode fuel (visited.set! p.offset true) deepest (onward ++ pending)

/-- The greatest depth any path through the bytecode reaches.  Each offset is visited once and
leads on to at most two paths, so the walk takes up at most `2 * bytecode.length + 1`. -/
def deepest (input : Bool) (bytecode : List UInt8) : Except Fault Int :=
  walk input bytecode (2 * bytecode.length + 2) (Array.replicate bytecode.length false) 0
    [⟨0, 0, []⟩]

/-- The stack size a code object has to declare. -/
def required (input : Bool) (bytecode : List UInt8) : Except Fault Nat := do
  let d ← deepest input bytecode
  if d.toNat < 65536 then pure d.toNat else throw (.invalidCode .deepStack)

end StackDepth

end Resumable
