import Resumable.Frame.Creation
import Resumable.Frame.Unwinding
import Resumable.Machine.Generator
import Resumable.Operation.Arithmetic
import Resumable.Operation.Comparison
import Resumable.Operation.Sequence
import Resumable.Operation.Call

/-!
# Executing an instruction

`Exec` is a computation on the running frame and the heap; one that fails keeps what it changed
until then.  `Exec.execute` carries out one instruction and returns a `Flow`: where execution goes
next.  An instruction that calls a function or advances a generator only says so, and leaves the
rest to the machine.
-/

namespace Resumable

/-- What an instruction works on. -/
structure Local where
  frame : Frame
  heap : Heap

/-- A computation on the running frame and the heap. -/
abbrev Exec := EStateM Failure Local

/-- Where execution goes after an instruction. -/
inductive Flow where
  /-- To the next instruction. -/
  | next
  | jump (target : Nat)
  /-- Out of the frame. -/
  | exit (result : FrameExit)
  /-- Out of the frame, with an exception whose traceback is already complete. -/
  | reraise (error : Raised)
  /-- Into a new frame, whose value this instruction pushes. -/
  | invoke (callee : Frame)
  /-- Into a generator, which a loop advances. -/
  | advance (generator : Ref .generator)

namespace Exec

/-! ### Access to the frame and the heap -/

/-- Stops with a fault, which no handler catches. -/
def fault {α : Type} (f : Fault) : Exec α := throw (.fatal f)

/-- Stops since the code asks for something that is not there. -/
def defect {α : Type} (d : CodeDefect) : Exec α := fault (.invalidCode d)

/-- Stops with an exception, which a handler of the frame may catch. -/
def raise {α : Type} (e : Raised) : Exec α := throw (.raised e)

/-- The frame as it is now. -/
def frame : Exec Frame := return (← get).frame

/-- The heap as it is now. -/
def heap : Exec Heap := return (← get).heap

/-- Replaces the frame. -/
def setFrame (f : Frame) : Exec Unit := modify fun l => { l with frame := f }

/-- Replaces the heap. -/
def setHeap (h : Heap) : Exec Unit := modify fun l => { l with heap := h }

/-- The contents of the code the frame runs. -/
def code : Exec Code := return (← frame).code.body

/-- A result that may be a fault. -/
def ofFault {α : Type} : Except Fault α → Exec α
  | .ok a => pure a
  | .error f => fault f

/-- A result that may be an exception. -/
def ofRaised {α : Type} : Except Raised α → Exec α
  | .ok a => pure a
  | .error e => raise e

/-- An operation on values. -/
def operate {α : Type} (x : Operation α) : Exec α := do
  match x.run (← heap) with
  | .ok (a, h) =>
    setHeap h
    pure a
  | .error e => raise e

/-! ### The value stack -/

/-- Replaces the value stack of the frame. -/
def setStack (s : OperandStack) : Exec Unit := modify fun l =>
  { l with frame := { l.frame with stack := s } }

/-- Pushes a value; a full stack is a fault. -/
def push (v : Value) : Exec Unit := do setStack (← ofFault ((← frame).stack.push v))

/-- Pops a value; an empty stack is a fault. -/
def pop : Exec Value := do
  let (v, s) ← ofFault (← frame).stack.pop
  setStack s
  pure v

/-- Pops a number of values, all or none, in the order in which they were pushed. -/
def popN (n : Nat) : Exec (List Value) := do
  let (vs, s) ← ofFault ((← frame).stack.popN n)
  setStack s
  pure vs

/-- The top value, which stays where it is. -/
def top : Exec Value := do ofFault ((← frame).stack.peek 0)

/-- Runs a stack operation that may stop half way. -/
def stackwise (op : OperandStack → Except Fault Unit × OperandStack) : Exec Unit := do
  let (r, s) := op (← frame).stack
  setStack s
  ofFault r

/-! ### Constants and variables -/

/-- The name with an index. -/
def nameAt (index : Nat) : Exec String := do
  match (← code).names[index]? with
  | some n => pure n
  | none => defect (.operandOutOfRange .name index)

/-- The constant with an index. -/
def constantAt (index : Nat) : Exec Const := do
  match (← code).consts[index]? with
  | some c => pure c
  | none => defect (.operandOutOfRange .constant index)

/-- The mapping of the locals. -/
def localMapping : Exec (Ref .mapping) := do
  match (← frame).locals with
  | .dict r => pure r
  | .fast _ => defect (.namesWithoutMapping (← frame).name)

/-- The slots of the locals, one of which is at `index`. -/
def slotsWith (index : Nat) : Exec (List (Option Value)) := do
  match (← frame).locals with
  | .dict _ => defect .slotsWithoutArray
  | .fast slots =>
    if index < slots.length then pure slots else defect (.slotOutOfRange index)

/-- Replaces the contents of a local slot. -/
def setSlot (index : Nat) (v : Option Value) : Exec Unit := do
  let slots ← slotsWith index
  setFrame { (← frame) with locals := .fast (slots.set index v) }

/-- The contents of a local slot, which must not be empty. -/
def slot (index : Nat) : Exec Value := do
  let slots ← slotsWith index
  match (slots[index]?).join with
  | some v => pure v
  | none => raise (Raised.unboundLocal ((← code).localName index))

/-- The cell with an index. -/
def cellAt (index : Nat) : Exec (Ref .cell) := do
  match (← frame).cells[index]? with
  | some r => pure r
  | none => defect (.operandOutOfRange .cell index)

/-- The value of a name, in the first of several scopes that binds it. -/
def lookup (scopes : List (Ref .mapping)) (name : String) : Exec Value := do
  let h ← heap
  match scopes.findSome? fun r => h.lookup? r name with
  | some v => pure v
  | none => raise (Raised.nameError name)

/-- The contents of a cell, which must not be empty. -/
def cellValue (index : Nat) : Exec Value := do
  let r ← cellAt index
  match (← heap).cellAt r with
  | some v => pure v
  | none =>
    let c ← code
    let name := c.cellName index
    raise (if index < c.cellvars.length then Raised.unboundLocal name else Raised.unboundFree name)

/-! ### Blocks -/

/-- Unwinds the live blocks and says where that leads. -/
def unwind (reason : Unwind Value) : Exec Flow := do
  let (f, u) := (← frame).unwind reason
  setFrame f
  match u with
  | .handled target => pure (.jump target)
  | .faulted e => fault e
  | .unhandled =>
    match reason with
    | .returning v => pure (.exit (.returned v))
    | .raising e => do
      setFrame { f with pending := some e }
      pure (.reraise e)
    | other => fault (.malformedBlocks (.outsideLoop f.name other.word))

/-! ### Constants, functions and calls -/

mutual

/-- The value of a constant; strings and tuples are new ones. -/
def constantValue : Const → Operation Value
  | .none => pure .none
  | .bool b => pure (.bool b)
  | .int i => pure (.int i)
  | .float x => pure (.float x)
  | .str s => Operation.str s
  | .tuple items => do Operation.tuple (← constantValues items)
  | .code identity body => pure (.code ⟨identity, body⟩)

/-- The values of constants. -/
def constantValues : List Const → Operation (List Value)
  | [] => pure []
  | c :: rest => do
    let v ← constantValue c
    let vs ← constantValues rest
    pure (v :: vs)

end

/-- The cells of a closure, given as a tuple. -/
def closureCells : Value → Except CodeDefect (List (Ref .cell))
  | .tuple _ items => items.mapM fun
    | .cell r => .ok r
    | _ => .error .closureNotCells
  | _ => .error .closureNotCells

/-- Makes a function of the code on top of the stack.  Below the code stands the closure, if the
function has one, and below that the defaults. -/
def makeFunction (withClosure : Bool) (defaultCount : Nat) : Exec Unit := do
  match ← pop with
  | .code body =>
    let closure ←
      if withClosure then do
        let v ← pop
        let cells ← ofFault ((closureCells v).mapError Fault.invalidCode)
        if cells.length ≠ body.body.freevars.length then
          defect (.closureSize body.body.name cells.length body.body.freevars.length)
        pure cells
      else pure []
    let defaults ← popN defaultCount
    let (i, h) := (← heap).newIdentity
    setHeap h
    push (.function i ⟨body, (← frame).globals, defaults, closure⟩)
  | _ => defect .bodyNotCode

/-- The arguments of a call completed from the defaults, or the exception for a wrong number of
them. -/
def completeArguments (f : Function) (args : List Value) : Except Raised (List Value) :=
  let params := f.code.body.argCount
  let name := f.code.body.name
  let required := params - f.defaults.length
  if params < args.length then
    .error (Raised.typeError
      s!"{name}() takes {params} positional arguments but {args.length} were given")
  else if args.length < required then
    .error (Raised.typeError
      s!"{name}() missing {required - args.length} required positional arguments")
  else .ok (args ++ f.defaults.drop (f.defaults.length - (params - args.length)))

/-- The frame of a call of a function, with the arguments bound. -/
def frameOfCall (f : Function) (args : List Value) : Exec Frame := do
  let args ← ofRaised (completeArguments f args)
  let (callee, h) ←
    ofFault (Frame.create f.code f.globals (← frame).builtins f.closure (← heap))
  setHeap h
  let (callee, h) ← ofFault (callee.bindArguments args h)
  setHeap h
  pure callee

/-- Calls a value.  Generator code makes a generator; other code is left to the machine. -/
def call (callee : Value) (args : List Value) : Exec Flow := do
  match callee with
  | .function _ f =>
    let frame ← frameOfCall f args
    if f.code.body.flags.generator then
      let (r, h) := (← heap).newGeneratorOf frame
      setHeap h
      push (.generator r)
      pure .next
    else pure (.invoke frame)
  | .builtin b =>
    push (← operate (b.call args))
    pure .next
  | .exceptionKind k =>
    push (.exception (← operate (k.instantiate args)).exception)
    pure .next
  | v => raise (Raised.typeError s!"'{v.typeName}' object is not callable")

/-- The operator of a binary opcode. -/
def binaryOperator : Opcode → BinaryOperator
  | .binaryAdd => .add
  | .binarySubtract => .sub
  | .binaryMultiply => .mul
  | .binaryModulo => .mod
  | _ => .floorDiv

/-- The kind of block that a setup opcode opens. -/
def blockKind : Opcode → BlockKind
  | .setupLoop => .loop
  | .setupExcept => .except
  | _ => .cleanup

/-- Draws a value from the iterator on top of the stack.  An exhausted iterator is popped. -/
def forIter (target : Nat) : Exec Flow := do
  match ← top with
  | .iterator r =>
    let h ← heap
    match (h.iteratorAt r).next? h.nextIdentity with
    | .ok (some (v, i)) =>
      setHeap { h.setIterator r i with nextIdentity := h.nextIdentity + 1 }
      push v
      pure .next
    | .ok none =>
      discard pop
      pure (.jump target)
    | .error n => fault (.uncuttable n)
  | .generator r => pure (.advance r)
  | v => raise (Raised.typeError s!"'{v.typeName}' object is not an iterator")

/-- The exception that a raise with so many arguments raises. -/
def raised (current : Option Raised) (count : Nat) : Exec Raised := do
  match count with
  | 0 =>
    match current with
    | some e => pure e
    | none => pure (Raised.new .runtimeError "No active exception to reraise")
  | 1 => do
    let v ← pop
    operate (v.toRaised none)
  | 2 => do
    let arg ← pop
    let kind ← pop
    operate (kind.toRaised (some arg))
  | n => defect (.raiseArguments n)

/-- Ends a handler: a suspended reason goes on unwinding, and three times `None` means that there
was none. -/
def endFinally : Exec Flow := do
  match ← popN 3 with
  | [.none, _, _] => pure .next
  | [.suspended reason, _, _] => unwind reason
  | [v, _, _] => fault (.malformedBlocks (.notSuspended ((← heap).text v)))
  | _ => fault .stackUnderflow

/-- Carries out an instruction.  `current` is the exception being handled. -/
def execute (current : Option Raised) (i : Instruction) : Exec Flow := do
  let arg := i.arg.toNat
  match i.opcode with
  | .nop => pure .next
  | .popTop =>
    discard pop
    pure .next
  | .rotTwo =>
    let a ← pop
    let b ← pop
    push a
    push b
    pure .next
  | .rotThree =>
    let a ← pop
    let b ← pop
    let c ← pop
    push a
    push c
    push b
    pure .next
  | .dupTop =>
    stackwise fun s => s.dupN 1
    pure .next
  | .unaryPositive =>
    push (← ofRaised (← pop).positive)
    pure .next
  | .unaryNegative =>
    push (← ofRaised (← pop).negative)
    pure .next
  | .unaryNot =>
    push (.bool !(← pop).isTrue)
    pure .next
  | .binaryAdd | .binarySubtract | .binaryMultiply | .binaryModulo | .binaryFloorDivide =>
    let b ← pop
    let a ← pop
    push (← operate (a.binary (binaryOperator i.opcode) b))
    pure .next
  | .binarySubscr =>
    let index ← pop
    let container ← pop
    push (← operate (container.subscript index))
    pure .next
  | .compareOp =>
    match Comparison.ofArgument? i.arg with
    | none => defect (.unknownComparison arg)
    | some op =>
      let b ← pop
      let a ← pop
      push (.bool (← ofRaised (Value.compare op a b)))
      pure .next
  | .getIter =>
    push (← operate (← pop).iter)
    pure .next
  | .forIter => forIter i.target
  | .unpackSequence =>
    let items ← operate ((← pop).unpack arg)
    stackwise fun s => s.pushReversed items
    pure .next
  | .buildTuple =>
    push (← operate (Operation.tuple (← popN arg)))
    pure .next
  | .jumpForward | .jumpAbsolute => pure (.jump i.target)
  | .jumpIfFalse => return if (← top).isTrue then .next else .jump i.target
  | .jumpIfTrue => return if (← top).isTrue then .jump i.target else .next
  | .setupLoop | .setupExcept | .setupFinally =>
    let f ← frame
    setFrame (f.pushBlock ⟨blockKind i.opcode, i.target, f.stack.depth⟩)
    pure .next
  | .popBlock =>
    let (b, f) ← ofFault (← frame).popBlock
    let (r, f) := f.leaveBlock b
    setFrame f
    ofFault r
    pure .next
  | .endFinally => endFinally
  | .breakLoop => unwind .breaking
  | .continueLoop => unwind (.continuing i.target)
  | .returnValue => unwind (.returning (← pop))
  | .yieldValue => return .exit (.yielded (← pop))
  | .loadConst =>
    push (← operate (constantValue (← constantAt arg)))
    pure .next
  | .loadName =>
    let name ← nameAt arg
    let f ← frame
    push (← lookup [← localMapping, f.globals, f.builtins] name)
    pure .next
  | .storeName =>
    let v ← pop
    let r ← localMapping
    let name ← nameAt arg
    setHeap ((← heap).bindName r name v)
    pure .next
  | .deleteName =>
    let name ← nameAt arg
    let r ← localMapping
    let ns := (← heap).namespaceAt r
    if ns.contains name then
      setHeap ((← heap).setNamespace r (ns.erase name))
      pure .next
    else raise (Raised.nameError name)
  | .loadGlobal =>
    let name ← nameAt arg
    let f ← frame
    push (← lookup [f.globals, f.builtins] name)
    pure .next
  | .storeGlobal =>
    let v ← pop
    let name ← nameAt arg
    let f ← frame
    setHeap ((← heap).bindName f.globals name v)
    pure .next
  | .loadFast =>
    push (← slot arg)
    pure .next
  | .storeFast =>
    let v ← pop
    setSlot arg (some v)
    pure .next
  | .deleteFast =>
    discard (slot arg)
    setSlot arg none
    pure .next
  | .loadClosure =>
    push (.cell (← cellAt arg))
    pure .next
  | .loadDeref =>
    push (← cellValue arg)
    pure .next
  | .storeDeref =>
    let v ← pop
    let r ← cellAt arg
    setHeap ((← heap).setCell r (some v))
    pure .next
  | .raiseVarargs => raise (← raised current arg)
  | .callFunction =>
    let args ← popN arg
    let callee ← pop
    call callee args
  | .makeFunction =>
    makeFunction false arg
    pure .next
  | .makeClosure =>
    makeFunction true arg
    pure .next

end Exec

end Resumable
