import Resumable.Bytecode.Instruction
import Resumable.Number.Binary64

/-!
# Code objects

A code object holds the bytecode of one function, module or generator body, the tables its
arguments index, and its line table.  `CodeOf κ` is a code object with constants of type `κ`;
`Const` are the constants, which may be code objects again, and `Code` is `CodeOf Const`.

A `CodeObject` is a code object with an identity: two objects with equal contents are still told
apart by `is`.  Equality of contents (`Code.eq`) compares constants as numbers, so code with a NaN
constant differs from itself.
-/

namespace Resumable

/-- The number that tells two objects apart. -/
abbrev Identity := Nat

/-- How the locals and the result of a code object are treated. -/
structure Flags where
  /-- Locals live in slots addressed by index. -/
  optimized : Bool := false
  /-- A frame gets a locals mapping of its own instead of sharing the globals. -/
  newLocals : Bool := false
  /-- Calling the code makes a generator instead of running it. -/
  generator : Bool := false
  /-- Resuming a started generator pushes the value sent. -/
  acceptsInput : Bool := false
  deriving DecidableEq, Repr, Inhabited

namespace Flags

/-- An ordinary function body. -/
def function : Flags := ⟨true, true, false, false⟩

/-- The body of a generator that receives values. -/
def generatorBody : Flags := ⟨true, true, true, true⟩

/-- A module body: its locals are the globals. -/
def module : Flags := ⟨false, false, false, false⟩

end Flags

/-- A code object with constants of type `κ`. -/
structure CodeOf (κ : Type) where
  name : String := ""
  bytecode : List UInt8 := []
  consts : List κ := []
  /-- Names of globals and of mapped locals. -/
  names : List String := []
  /-- Names of the local slots, parameters first. -/
  varnames : List String := []
  /-- Variables that inner functions close over. -/
  cellvars : List String := []
  /-- Variables closed over from outer functions. -/
  freevars : List String := []
  argCount : Nat := 0
  maxStack : Nat := 0
  flags : Flags := {}
  firstLine : Nat := 0
  /-- Pairs of an offset step and a line step. -/
  lineTable : List UInt8 := []
  deriving Inhabited

/-- A constant. -/
inductive Const where
  | none
  | bool (b : Bool)
  | int (i : Int64)
  | float (x : Binary64)
  | str (s : String)
  | tuple (items : List Const)
  | code (identity : Identity) (body : CodeOf Const)
  deriving Inhabited

/-- The contents of a code object. -/
abbrev Code := CodeOf Const

/-- A code object that can be told apart from others with the same contents. -/
structure CodeObject where
  identity : Identity
  body : Code
  deriving Inhabited

namespace CodeOf

variable {κ : Type} (c : CodeOf κ)

/-- Cells of a frame: one per cell variable, then one per free variable. -/
def cellNames : List String := c.cellvars ++ c.freevars

/-- The number of cells of a frame. -/
def cellCount : Nat := c.cellNames.length

/-- The name of a cell. -/
def cellName (index : Nat) : String := c.cellNames.getD index "<cell>"

/-- The name of a local slot. -/
def localName (index : Nat) : String := c.varnames.getD index "<local>"

/-- The names of the parameters. -/
def parameters : List String := c.varnames.take c.argCount

/-- The opcode whose byte stands at `offset`. -/
def opcodeAt? (offset : Nat) : Option Opcode := c.bytecode[offset]? >>= Opcode.ofByte?

/-- The instructions that can be read in offset order. -/
def instructions : List Instruction := Instruction.readable c.bytecode

/-- An instruction starts at `offset`. -/
def isBoundary (offset : Nat) : Bool := c.instructions.any fun i => i.offset == offset

end CodeOf

/-! ### Equality of contents -/

mutual

/-- Equality of constants; numbers are compared as numbers. -/
def Const.eq : Const → Const → Bool
  | .none, .none => true
  | .bool a, .bool b => a == b
  | .int a, .int b => a == b
  | .float a, .float b => a.eq b
  | .str a, .str b => a == b
  | .tuple a, .tuple b => Const.eqList a b
  | .code _ a, .code _ b =>
    a.name == b.name && a.bytecode == b.bytecode && Const.eqList a.consts b.consts &&
      a.names == b.names && a.varnames == b.varnames && a.cellvars == b.cellvars &&
      a.freevars == b.freevars && a.argCount == b.argCount && a.maxStack == b.maxStack &&
      a.flags == b.flags && a.firstLine == b.firstLine && a.lineTable == b.lineTable
  | _, _ => false

/-- Equality of constants, item by item. -/
def Const.eqList : List Const → List Const → Bool
  | [], [] => true
  | a :: as, b :: bs => Const.eq a b && Const.eqList as bs
  | _, _ => false

end

/-- Equality of the contents of code objects. -/
def Code.eq (a b : Code) : Bool := Const.eq (.code 0 a) (.code 0 b)

end Resumable
