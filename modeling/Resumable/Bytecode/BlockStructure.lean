import Resumable.Bytecode.Code

/-!
# Static block structure

Blocks are opened by the three `setup` instructions.  Read in offset order, a `popBlock` closes the
innermost loop or `except` block; for a `finally` block it ends the protected body and begins the
handler, and the handler's `endFinally` closes the block.
-/

namespace Resumable

/-- A block that is open at some point of the code. -/
structure StaticBlock where
  /-- Offset of the instruction that opened it. -/
  setup : Nat
  /-- The block is a `finally` block. -/
  isFinally : Bool
  /-- The protected body has ended and the handler has begun. -/
  inHandler : Bool := false
  deriving DecidableEq, Repr

namespace StaticBlock

/-- The open blocks after an instruction, innermost first.  Fails where a block is closed and none
is open. -/
def step (code : String) (opened : List StaticBlock) (i : Instruction) :
    Except Fault (List StaticBlock) :=
  match i.opcode with
  | .setupLoop | .setupExcept => .ok (⟨i.offset, false, false⟩ :: opened)
  | .setupFinally => .ok (⟨i.offset, true, false⟩ :: opened)
  | .popBlock =>
    match opened with
    | [] => .error (.invalidCode (.unopenedBlock code i.offset))
    | b :: outer => .ok (if b.isFinally then { b with inHandler := true } :: outer else outer)
  | .endFinally =>
    match opened with
    | b :: outer => .ok (if b.isFinally then outer else opened)
    | [] => .ok []
  | _ => .ok opened

/-- The open blocks after a list of instructions. -/
def scan (code : String) (is : List Instruction) : Except Fault (List StaticBlock) :=
  is.foldlM (step code) []

/-- Where the innermost block whose handler is running was opened. -/
def innermostHandler? (opened : List StaticBlock) : Option Nat :=
  (opened.find? StaticBlock.inHandler).map StaticBlock.setup

end StaticBlock

end Resumable
