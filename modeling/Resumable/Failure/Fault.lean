/-!
# Faults

A fault is a breach of contract by bytecode or by the host: a stack used beyond its bounds, a code
object that contradicts itself, blocks that do not nest.  No handler of the running program ever
sees one.  Each fault is given by its cause; `Fault.message` is its wording.
-/

namespace Resumable

/-- The tables an instruction argument can index. -/
inductive Table where
  | constant | name | slot | cell
  deriving DecidableEq, Repr

/-- The word for a table in messages. -/
def Table.word : Table → String
  | constant => "constant"
  | name => "name"
  | slot => "local"
  | cell => "cell"

/-- What is wrong with a code object, or with the way it is used. -/
inductive CodeDefect where
  /-- More parameters than local slots. -/
  | tooManyParameters (code : String) (params slots : Nat)
  /-- A line table that does not consist of pairs. -/
  | oddLineTable
  /-- A yield in code that makes no generator. -/
  | strayYield (code : String) (offset : Nat)
  /-- A jump to an offset where no instruction starts. -/
  | badTarget (code : String) (offset target : Nat)
  /-- An argument beyond the end of its table. -/
  | badIndex (code : String) (table : Table) (index offset : Nat)
  /-- A line that starts inside an instruction. -/
  | badLineStart (code : String) (line offset : Nat)
  /-- A block closed that no earlier instruction opened. -/
  | unopenedBlock (code : String) (offset : Nat)
  /-- A jump to a label that has no position. -/
  | unboundLabel
  /-- A relative jump whose label lies before the next instruction. -/
  | backwardJump (offset : Nat)
  /-- A jump that does not fit its sixteen-bit argument. -/
  | farJump
  /-- A walk that closes a block where none is open. -/
  | walkedUnopenedBlock (offset : Nat)
  /-- A walk that pops from an empty stack. -/
  | walkedUnderflow (offset : Nat)
  /-- A stack deeper than a sixteen-bit count. -/
  | deepStack
  /-- A frame made with the wrong number of cells for the free variables. -/
  | closureMismatch (code : String) (expected given : Nat)
  /-- Arguments bound in a frame whose locals are a mapping. -/
  | scopeWithoutSlots (code : String)
  /-- A slot assigned in a frame whose locals are a mapping. -/
  | noSlots
  /-- A fast local beyond the last slot. -/
  | slotOutOfRange (index : Nat)
  /-- A yield that reached the caller of a frame which is no generator. -/
  | yieldOutsideGenerator
  /-- An argument of an executed instruction beyond the end of its table. -/
  | operandOutOfRange (table : Table) (index : Nat)
  /-- A fast local used in a frame whose locals are a mapping. -/
  | slotsWithoutArray
  /-- A name looked up in a frame whose locals are slots. -/
  | namesWithoutMapping (code : String)
  /-- A comparison number that is not in use. -/
  | unknownComparison (number : Nat)
  /-- A raise with more than two arguments. -/
  | raiseArguments (count : Nat)
  /-- A function made from something that is not code. -/
  | bodyNotCode
  /-- A closure that is not a tuple of cells. -/
  | closureNotCells
  /-- A function made with the wrong number of cells for the free variables. -/
  | closureSize (code : String) (cells free : Nat)
  /-- A generator whose frame is gone. -/
  | generatorWithoutFrame (generator : String)
  deriving DecidableEq, Repr

/-- The wording of a code defect. -/
def CodeDefect.message : CodeDefect → String
  | tooManyParameters c n m => s!"{c}: arg_count {n} exceeds {m} local slots"
  | oddLineTable => "line table has an odd number of bytes"
  | strayYield c o => s!"{c}: yield at offset {o} outside a generator"
  | badTarget c o t => s!"{c}: jump at offset {o} targets {t}, not an instruction boundary"
  | badIndex c t i o => s!"{c}: {t.word} index {i} out of range at offset {o}"
  | badLineStart c l o => s!"{c}: line {l} starts at offset {o}, not an instruction boundary"
  | unopenedBlock c o => s!"{c}: pop block at offset {o} with no open block"
  | unboundLabel => "jump to an unbound label"
  | backwardJump o => s!"relative jump at {o} goes backwards"
  | farJump => "jump offset exceeds u16 range"
  | walkedUnopenedBlock o => s!"pop block at {o} with no block"
  | walkedUnderflow o => s!"stack underflow at offset {o}"
  | deepStack => "stack depth exceeds u16 range"
  | closureMismatch c e g => s!"{c}: expected {e} closure cells, got {g}"
  | scopeWithoutSlots c => s!"{c}: fast scope on a frame with dict locals"
  | noSlots => "frame has dict locals"
  | slotOutOfRange i => s!"local slot {i} out of range"
  | yieldOutsideGenerator => "yield from a frame that is not a generator"
  | operandOutOfRange t i => s!"{t.word} index {i} out of range"
  | slotsWithoutArray => "fast local access in a frame with dict locals"
  | namesWithoutMapping c => s!"{c}: name access in a frame with fast locals"
  | unknownComparison n => s!"unknown comparison {n}"
  | raiseArguments n => s!"RAISE_VARARGS with {n} arguments"
  | bodyNotCode => "function body is not a code object"
  | closureNotCells => "closure is not a tuple of cells"
  | closureSize c n m => s!"{c}: closure has {n} cells for {m} free variables"
  | generatorWithoutFrame g => s!"generator {g} has no frame"

/-- How the live blocks of a frame contradict an instruction. -/
inductive BlockDefect where
  /-- A block popped where none is live. -/
  | noBlock (code : String)
  /-- A `break` or `continue` that no loop took. -/
  | outsideLoop (code reason : String)
  /-- A handler's end that found something else than the reason it suspended. -/
  | notSuspended (found : String)
  deriving DecidableEq, Repr

/-- The wording of a block defect. -/
def BlockDefect.message : BlockDefect → String
  | noBlock c => s!"{c}: pop from an empty block stack"
  | outsideLoop c r => s!"{c}: '{r}' outside a loop"
  | notSuspended f => s!"END_FINALLY expected an unroller, found {f}"

/-- A breach of contract. -/
inductive Fault where
  /-- Pop or peek below the bottom of a value stack. -/
  | stackUnderflow
  /-- Push beyond the capacity of a value stack. -/
  | stackOverflow (capacity : Nat)
  /-- A value stack restored from slots of which one is empty. -/
  | missingStackSlot (index : Nat)
  | invalidCode (defect : CodeDefect)
  /-- The byte at `offset` is no opcode, or its argument is cut off. -/
  | invalidOpcode (offset : Nat) (byte : UInt8)
  | malformedBlocks (defect : BlockDefect)
  /-- A generator was resumed while its frame was executing. -/
  | generatorRunning
  /-- More arguments than local slots. -/
  | scopeTooLong (slots given : Nat)
  /-- An iterator that stands at a byte where its text cannot be cut.  Nobody gets to see this one:
  whoever runs the frame panics. -/
  | uncuttable (index : Nat)
  deriving DecidableEq, Repr

/-- The name of the kind of fault. -/
def Fault.name : Fault → String
  | stackUnderflow => "StackUnderflow"
  | stackOverflow _ => "StackOverflow"
  | missingStackSlot _ => "MissingStackSlot"
  | invalidCode _ => "InvalidCode"
  | invalidOpcode _ _ => "InvalidOpcode"
  | malformedBlocks _ => "MalformedBlockStack"
  | generatorRunning => "GeneratorAlreadyRunning"
  | scopeTooLong _ _ => "FastScopeTooLong"
  | uncuttable _ => "Panic"

/-- The wording of a fault. -/
def Fault.message : Fault → String
  | stackUnderflow => "value stack underflow"
  | stackOverflow n => s!"value stack overflow (capacity {n})"
  | missingStackSlot i => s!"missing value stack slot {i}"
  | invalidCode d => "invalid code object: " ++ d.message
  | invalidOpcode o b => s!"invalid opcode {b.toNat} at offset {o}"
  | malformedBlocks d => "malformed block stack: " ++ d.message
  | generatorRunning => "generator already executing"
  | scopeTooLong s g => s!"new fastscope is longer than the allocated area ({g} > {s})"
  | uncuttable i => s!"byte index {i} is not a char boundary"

end Resumable
