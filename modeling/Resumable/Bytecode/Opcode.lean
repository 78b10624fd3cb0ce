/-!
# Opcodes

An instruction starts with one opcode byte.  Opcodes numbered from `Opcode.argumentThreshold` on
are followed by a sixteen-bit argument, so an instruction is one or three bytes wide.

* `Opcode.byte` and `Opcode.ofByte?` are the numbering, inverse to each other
  (`Opcode.ofByte?_byte`, `Opcode.byte_of_ofByte?`);
* `Opcode.addressing?` says how the argument of a jump names its target;
* `Comparison` are the relations selected by the argument of `compareOp`.
-/

namespace Resumable

/-- The operations of the machine.

Arguments of `jumpForward`, `jumpIfFalse`, `jumpIfTrue`, `forIter` and the three `setup` opcodes
count from the following instruction; those of `jumpAbsolute` and `continueLoop` are offsets.  The
two conditional jumps leave the tested value on the stack. -/
inductive Opcode where
  | popTop | rotTwo | rotThree | dupTop | nop
  | unaryPositive | unaryNegative | unaryNot
  | binaryMultiply | binaryModulo | binaryAdd | binarySubtract | binarySubscr | binaryFloorDivide
  | getIter | breakLoop | returnValue | yieldValue | popBlock | endFinally
  | storeName | deleteName | unpackSequence | forIter | storeGlobal
  | loadConst | loadName | buildTuple | compareOp
  | jumpForward | jumpIfFalse | jumpIfTrue | jumpAbsolute
  | loadGlobal | continueLoop | setupLoop | setupExcept | setupFinally
  | loadFast | storeFast | deleteFast
  | raiseVarargs | callFunction | makeFunction | makeClosure
  | loadClosure | loadDeref | storeDeref
  deriving DecidableEq, Repr, Inhabited

/-- How the argument of a jump names its target. -/
inductive Addressing where
  /-- The target is the offset of the next instruction plus the argument. -/
  | relative
  /-- The target is the argument itself. -/
  | absolute
  deriving DecidableEq, Repr

namespace Opcode

/-- Every opcode, in the order of the numbering. -/
def all : List Opcode :=
  [popTop, rotTwo, rotThree, dupTop, nop, unaryPositive, unaryNegative, unaryNot,
    binaryMultiply, binaryModulo, binaryAdd, binarySubtract, binarySubscr, binaryFloorDivide,
    getIter, breakLoop, returnValue, yieldValue, popBlock, endFinally,
    storeName, deleteName, unpackSequence, forIter, storeGlobal, loadConst, loadName, buildTuple,
    compareOp, jumpForward, jumpIfFalse, jumpIfTrue, jumpAbsolute, loadGlobal, continueLoop,
    setupLoop, setupExcept, setupFinally, loadFast, storeFast, deleteFast, raiseVarargs,
    callFunction, makeFunction, makeClosure, loadClosure, loadDeref, storeDeref]

/-- The number of an opcode. -/
def byte : Opcode → UInt8
  | popTop => 1
  | rotTwo => 2
  | rotThree => 3
  | dupTop => 4
  | nop => 9
  | unaryPositive => 10
  | unaryNegative => 11
  | unaryNot => 12
  | binaryMultiply => 20
  | binaryModulo => 22
  | binaryAdd => 23
  | binarySubtract => 24
  | binarySubscr => 25
  | binaryFloorDivide => 26
  | getIter => 68
  | breakLoop => 80
  | returnValue => 83
  | yieldValue => 86
  | popBlock => 87
  | endFinally => 88
  | storeName => 90
  | deleteName => 91
  | unpackSequence => 92
  | forIter => 93
  | storeGlobal => 97
  | loadConst => 100
  | loadName => 101
  | buildTuple => 102
  | compareOp => 107
  | jumpForward => 110
  | jumpIfFalse => 111
  | jumpIfTrue => 112
  | jumpAbsolute => 113
  | loadGlobal => 116
  | continueLoop => 119
  | setupLoop => 120
  | setupExcept => 121
  | setupFinally => 122
  | loadFast => 124
  | storeFast => 125
  | deleteFast => 126
  | raiseVarargs => 130
  | callFunction => 131
  | makeFunction => 132
  | makeClosure => 134
  | loadClosure => 135
  | loadDeref => 136
  | storeDeref => 137

/-- The opcode with a given number, if the number is in use. -/
def ofByte? (b : UInt8) : Option Opcode := all.find? fun op => op.byte == b

/-- The first opcode number that carries an argument. -/
def argumentThreshold : UInt8 := 90

/-- The opcode is followed by a sixteen-bit argument. -/
def hasArgument (op : Opcode) : Bool := argumentThreshold ≤ op.byte

/-- Bytes taken by an instruction. -/
def width (op : Opcode) : Nat := if op.hasArgument then 3 else 1

/-- How the argument names a jump target, for the opcodes that have one. -/
def addressing? : Opcode → Option Addressing
  | jumpForward | jumpIfFalse | jumpIfTrue | forIter | setupLoop | setupExcept | setupFinally =>
    some .relative
  | jumpAbsolute | continueLoop => some .absolute
  | _ => none

/-- The three opcodes that push a block. -/
def isBlockSetup : Opcode → Bool
  | setupLoop | setupExcept | setupFinally => true
  | _ => false

/-- The spelling used in listings and logs. -/
def name : Opcode → String
  | popTop => "POP_TOP"
  | rotTwo => "ROT_TWO"
  | rotThree => "ROT_THREE"
  | dupTop => "DUP_TOP"
  | nop => "NOP"
  | unaryPositive => "UNARY_POSITIVE"
  | unaryNegative => "UNARY_NEGATIVE"
  | unaryNot => "UNARY_NOT"
  | binaryMultiply => "BINARY_MULTIPLY"
  | binaryModulo => "BINARY_MODULO"
  | binaryAdd => "BINARY_ADD"
  | binarySubtract => "BINARY_SUBTRACT"
  | binarySubscr => "BINARY_SUBSCR"
  | binaryFloorDivide => "BINARY_FLOOR_DIVIDE"
  | getIter => "GET_ITER"
  | breakLoop => "BREAK_LOOP"
  | returnValue => "RETURN_VALUE"
  | yieldValue => "YIELD_VALUE"
  | popBlock => "POP_BLOCK"
  | endFinally => "END_FINALLY"
  | storeName => "STORE_NAME"
  | deleteName => "DELETE_NAME"
  | unpackSequence => "UNPACK_SEQUENCE"
  | forIter => "FOR_ITER"
  | storeGlobal => "STORE_GLOBAL"
  | loadConst => "LOAD_CONST"
  | loadName => "LOAD_NAME"
  | buildTuple => "BUILD_TUPLE"
  | compareOp => "COMPARE_OP"
  | jumpForward => "JUMP_FORWARD"
  | jumpIfFalse => "JUMP_IF_FALSE"
  | jumpIfTrue => "JUMP_IF_TRUE"
  | jumpAbsolute => "JUMP_ABSOLUTE"
  | loadGlobal => "LOAD_GLOBAL"
  | continueLoop => "CONTINUE_LOOP"
  | setupLoop => "SETUP_LOOP"
  | setupExcept => "SETUP_EXCEPT"
  | setupFinally => "SETUP_FINALLY"
  | loadFast => "LOAD_FAST"
  | storeFast => "STORE_FAST"
  | deleteFast => "DELETE_FAST"
  | raiseVarargs => "RAISE_VARARGS"
  | callFunction => "CALL_FUNCTION"
  | makeFunction => "MAKE_FUNCTION"
  | makeClosure => "MAKE_CLOSURE"
  | loadClosure => "LOAD_CLOSURE"
  | loadDeref => "LOAD_DEREF"
  | storeDeref => "STORE_DEREF"

/-- The opcode with a given spelling. -/
def ofName? (s : String) : Option Opcode := all.find? fun op => op.name == s

@[simp]
theorem ofByte?_byte (op : Opcode) : ofByte? op.byte = some op := by
  cases op <;> rfl

theorem byte_of_ofByte? {b : UInt8} {op : Opcode} (h : ofByte? b = some op) : op.byte = b := by
  simpa using List.find?_some h

theorem width_pos (op : Opcode) : 0 < op.width := by
  unfold width
  split <;> omega

/-- An opcode with a jump target always carries the argument that names it. -/
theorem hasArgument_of_addressing? {op : Opcode} {a : Addressing} (h : op.addressing? = some a) :
    op.hasArgument = true := by
  have isJump : op.addressing?.isSome = true := by rw [h]; rfl
  revert isJump
  cases op <;> decide

end Opcode

/-- The relations selected by the argument of `compareOp`. -/
inductive Comparison where
  | lt | le | eq | ne | gt | ge | mem | notMem | same | notSame | exceptionMatch
  deriving DecidableEq, Repr

namespace Comparison

/-- The relation with a given number. -/
def ofArgument? (arg : UInt16) : Option Comparison :=
  match arg.toNat with
  | 0 => some lt
  | 1 => some le
  | 2 => some eq
  | 3 => some ne
  | 4 => some gt
  | 5 => some ge
  | 6 => some mem
  | 7 => some notMem
  | 8 => some same
  | 9 => some notSame
  | 10 => some exceptionMatch
  | _ => none

/-- The spelling used in messages. -/
def name : Comparison → String
  | lt => "<"
  | le => "<="
  | eq => "=="
  | ne => "!="
  | gt => ">"
  | ge => ">="
  | mem => "in"
  | notMem => "not in"
  | same => "is"
  | notSame => "is not"
  | exceptionMatch => "exception match"

end Comparison

end Resumable
