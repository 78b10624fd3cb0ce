import Resumable.Bytecode.LineTable
import Resumable.Bytecode.BlockStructure

/-!
# Validation of code objects

A code object is valid if it has a slot for every parameter, its line table consists of pairs, its
bytecode can be read to the end, every argument that indexes a table stays inside it, yields occur
in generator code only, jumps and lines lead to instruction boundaries, and every block that is
closed was opened.  `CodeOf.validate` checks these in that order and returns the first breach.
-/

namespace Resumable

/-- The table that the argument of an opcode indexes. -/
def Opcode.table? : Opcode → Option Table
  | loadConst => some .constant
  | storeName | deleteName | loadName | storeGlobal | loadGlobal => some .name
  | loadFast | storeFast | deleteFast => some .slot
  | loadClosure | loadDeref | storeDeref => some .cell
  | _ => none

namespace CodeOf

variable {κ : Type} (c : CodeOf κ)

/-- The length of a table. -/
def tableSize : Table → Nat
  | .constant => c.consts.length
  | .name => c.names.length
  | .slot => c.varnames.length
  | .cell => c.cellCount

/-- An offset where an instruction of `is` starts, or the end of the bytecode. -/
def isTarget (is : List Instruction) (offset : Nat) : Bool :=
  offset == c.bytecode.length || is.any fun i => i.offset == offset

/-- What is wrong with a single instruction among the instructions `is`. -/
def instructionDefect? (is : List Instruction) (i : Instruction) : Option CodeDefect :=
  match i.opcode.table? with
  | some t =>
    if c.tableSize t ≤ i.arg.toNat then some (.badIndex c.name t i.arg.toNat i.offset) else none
  | none =>
    if i.opcode = .yieldValue && !c.flags.generator then some (.strayYield c.name i.offset)
    else
      match i.target? with
      | some target =>
        if c.isTarget is target then none else some (.badTarget c.name i.offset target)
      | none => none

/-- The first line start that is not an instruction boundary. -/
def lineDefect? (is : List Instruction) : Option CodeDefect :=
  (c.lineStarts.find? fun (offset, _) => !c.isTarget is offset).map
    fun (offset, line) => .badLineStart c.name line offset

/-- What is wrong with a code object as a whole or with one of its instructions `is`. -/
def defect? (is : List Instruction) : Option CodeDefect :=
  (is.findSome? (c.instructionDefect? is)).or (c.lineDefect? is)

/-- Checks a code object, returning the first breach of its rules. -/
def validate : Except Fault Unit := do
  if c.varnames.length < c.argCount then
    throw (.invalidCode (.tooManyParameters c.name c.argCount c.varnames.length))
  if c.lineTable.length % 2 ≠ 0 then throw (.invalidCode .oddLineTable)
  match Instruction.sweep c.bytecode with
  | (_, some fault) => throw fault
  | (is, none) =>
    match c.defect? is with
    | some d => throw (.invalidCode d)
    | none => discard (StaticBlock.scan c.name is)

/-- A code object that passes every check. -/
def Valid : Prop := c.validate = .ok ()

end CodeOf

end Resumable
