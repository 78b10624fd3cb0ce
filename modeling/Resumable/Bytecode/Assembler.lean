import Resumable.Bytecode.Validation
import Resumable.Bytecode.StackDepth

/-!
# Assembling code objects

An `Assembler` keeps the bytes of the instructions emitted so far, and the line table that goes with
them.  A jump to a label is emitted with a zero in place of its argument, since the label may be
bound later.  `Assembler.build` writes the arguments of jumps over these zeros, finds the stack size
and validates the result.

An `Assembly` is a computation that adds to an assembler.  It gives up if an index is needed that
does not fit an argument.
-/

namespace Resumable

/-- Where a line table under construction has got to. -/
structure LineWriter where
  /-- The line of the last entry. -/
  line : Nat
  /-- The offset of the last entry. -/
  offset : Nat := 0
  /-- A line asked for since the last instruction. -/
  pending : Option Nat := none

namespace LineWriter

/-- Adds an entry to a table. -/
def entry (table : Array UInt8) (distance lines : Nat) : Array UInt8 :=
  (table.push (UInt8.ofNat distance)).push (UInt8.ofNat lines)

/-- Moves the offset until what is left of a distance fits an entry, and says what that is. -/
def pad (table : Array UInt8) (distance : Nat) : Array UInt8 × Nat :=
  if 255 < distance then pad (entry table 255 0) (distance - 255) else (table, distance)
  termination_by distance
  decreasing_by omega

/-- Moves the line, as far at a time as an entry can.  The first entry moves the offset too. -/
def climb (table : Array UInt8) (distance lines : Nat) : Array UInt8 :=
  if 255 < lines then climb (entry table distance 255) 0 (lines - 255)
  else entry table distance lines
  termination_by lines
  decreasing_by omega

/-- Moves the offset and then the line. -/
def advance (table : Array UInt8) (distance lines : Nat) : Array UInt8 :=
  let (table, rest) := pad table distance
  climb table rest lines

/-- Adds what leads to the line asked for, if that lies beyond the line of the last entry, to the
table before an instruction at `offset`. -/
def atInstruction (w : LineWriter) (table : Array UInt8) (offset : Nat) :
    Array UInt8 × LineWriter :=
  match w.pending with
  | none => (table, w)
  | some l =>
    if l ≤ w.line then (table, { w with pending := none })
    else (advance table (offset - w.offset) (l - w.line), ⟨l, offset, none⟩)

end LineWriter

/-- The parts of a code object under construction. -/
structure Assembler where
  name : String
  firstLine : Nat
  flags : Flags := Flags.function
  argCount : Nat := 0
  consts : List Const := []
  names : List String := []
  varnames : List String := []
  cellvars : List String := []
  freevars : List String := []
  /-- The instructions so far. -/
  bytecode : Array UInt8 := #[]
  lineTable : Array UInt8 := #[]
  writer : LineWriter := { line := firstLine }
  /-- The labels bound so far with their offsets, the last one first. -/
  labels : List (String × Nat) := []
  /-- The offsets of the jumps that wait for the offset of their label. -/
  fixups : Array (Nat × String) := #[]
  deriving Inhabited

namespace Assembler

/-- Writes an argument over the two bytes behind the opcode at an offset. -/
def patch (bytecode : Array UInt8) (offset : Nat) (arg : UInt16) : Array UInt8 :=
  (bytecode.setIfInBounds (offset + 1) (UInt8.ofNat (arg.toNat % 256))).setIfInBounds
    (offset + 2) (UInt8.ofNat (arg.toNat / 256))

/-- Lets the jump at an offset lead to its label. -/
def fixUp (labels : List (String × Nat)) (bytecode : Array UInt8) (fixup : Nat × String) :
    Except Fault (Array UInt8) :=
  let (offset, label) := fixup
  match labels.lookup label with
  | none => .error (.invalidCode .unboundLabel)
  | some target =>
    match Instruction.decode bytecode.toList offset with
    | .error e => .error e
    | .ok i =>
      let narrow (arg : Nat) : Except Fault (Array UInt8) :=
        if arg < 65536 then .ok (patch bytecode offset (UInt16.ofNat arg))
        else .error (.invalidCode .farJump)
      match i.opcode.addressing? with
      | some .relative =>
        if target < i.next then .error (.invalidCode (.backwardJump offset))
        else narrow (target - i.next)
      | _ => narrow target

variable (a : Assembler)

/-- The instructions with all jumps led to their labels. -/
def patched? : Except Fault (List UInt8) :=
  (a.fixups.toList.foldlM (fixUp a.labels) a.bytecode).map Array.toList

/-- Resolves jumps, finds the stack size and validates the result. -/
def build : Except Fault Code := do
  let bytecode ← a.patched?
  let maxStack ← StackDepth.required a.flags.acceptsInput bytecode
  let code : Code :=
    { name := a.name, bytecode, consts := a.consts, names := a.names, varnames := a.varnames,
      cellvars := a.cellvars, freevars := a.freevars, argCount := a.argCount, maxStack,
      flags := a.flags, firstLine := a.firstLine, lineTable := a.lineTable.toList }
  code.validate
  pure code

end Assembler

/-! ### Adding to an assembler -/

/-- A computation that adds to an assembler, or gives up. -/
abbrev Assembly := StateT Assembler Option

namespace Assembly

/-- Says what kind of code is assembled. -/
def setFlags (flags : Flags) : Assembly Unit := modify ({ · with flags })

/-- Says how many of the local variables are parameters. -/
def setArgCount (argCount : Nat) : Assembly Unit := modify ({ · with argCount })

/-! #### Tables -/

/-- An index in a table, if it fits an argument. -/
def index (n : Nat) : Assembly UInt16 := if n < 65536 then pure (UInt16.ofNat n) else failure

/-- The place of a name in a table, which is extended if the name is new. -/
def intern (table : List String) (name : String) : Nat × List String :=
  match table.idxOf? name with
  | some i => (i, table)
  | none => (table.length, table ++ [name])

/-- Adds a constant and returns its index. -/
def constant (value : Const) : Assembly UInt16 := do
  let i ← index (← get).consts.length
  modify fun a => { a with consts := a.consts ++ [value] }
  return i

/-- The place of a name in one of the tables. -/
def place (table : Assembler → List String) (replace : Assembler → List String → Assembler)
    (s : String) : Assembly Nat :=
  modifyGet fun a =>
    let (i, names) := intern (table a) s
    (i, replace a names)

/-- The index of a global or mapped name. -/
def name (s : String) : Assembly UInt16 := do
  index (← place (·.names) ({ · with names := · }) s)

/-- The slot of a local variable. -/
def slot (s : String) : Assembly UInt16 := do
  index (← place (·.varnames) ({ · with varnames := · }) s)

/-- The cell of a variable that inner functions close over. -/
def cell (s : String) : Assembly UInt16 := do
  index (← place (·.cellvars) ({ · with cellvars := · }) s)

/-- The cell of a variable closed over from an outer function; cell variables come first. -/
def free (s : String) : Assembly UInt16 := do
  let i ← place (·.freevars) ({ · with freevars := · }) s
  index (i + (← get).cellvars.length)

/-! #### Instructions -/

/-- The instructions from here on belong to this line, unless it lies before theirs. -/
def line (number : Nat) : Assembly Unit :=
  modify fun a => { a with writer := { a.writer with pending := some number } }

/-- Binds a label here. -/
def bind (label : String) : Assembly Unit :=
  modify fun a => { a with labels := (label, a.bytecode.size) :: a.labels }

/-- Adds the bytes of an instruction, and before it the entries that lead to its line. -/
def instruction (bytes : List UInt8) : Assembly Unit :=
  modify fun a =>
    let (lineTable, writer) := a.writer.atInstruction a.lineTable a.bytecode.size
    { a with bytecode := a.bytecode ++ bytes, lineTable, writer }

/-- Adds an instruction without argument. -/
def emit (op : Opcode) : Assembly Unit := instruction [op.byte]

/-- Adds an instruction with an argument. -/
def emitWith (op : Opcode) (arg : UInt16) : Assembly Unit :=
  instruction (op.byte :: Instruction.argumentBytes arg)

/-- Adds a jump or block setup that is to lead to a label. -/
def jump (op : Opcode) (label : String) : Assembly Unit := do
  modify fun a => { a with fixups := a.fixups.push (a.bytecode.size, label) }
  emitWith op 0

/-- Adds a constant and an instruction that loads it. -/
def load (value : Const) : Assembly Unit := do emitWith .loadConst (← constant value)

end Assembly

end Resumable
