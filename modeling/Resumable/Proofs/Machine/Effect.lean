import Resumable.Bytecode.StackDepth
import Resumable.Proofs.Frame.Creation
import Resumable.Proofs.Machine.Computations
import Resumable.Proofs.Operation.Outcomes

/-!
# What an instruction may do to its frame

`Exec.Effect` lists the ways in which an instruction goes on: how far the stack drifts, what becomes
of the blocks, and where execution continues.  `Exec.Damage` says what an instruction that fails
leaves behind: that only a strained instruction (`Exec.Strains`) misses room on the stack or a block
to close, that only one that does not find its operands misses a value, and that an exception leaves
all values but those operands (`Instruction.needs`, `Instruction.takes`).
-/

namespace Resumable

/-! ### Failures -/

/-- The faults of a frame that is too small: a full stack, or no block to close. -/
def Fault.isMisfit : Fault → Bool
  | stackOverflow _ | malformedBlocks (.noBlock _) => true
  | _ => false

/-- A fault of a frame that is too small. -/
def Failure.isMisfit : Failure → Bool
  | fatal e => e.isMisfit
  | raised _ | uncatchable _ => false

/-- The faults of a frame that has left its code: no instruction where it is, or no operand where
its instruction looks for one. -/
def Fault.isStray : Fault → Bool
  | invalidOpcode _ _ | invalidCode (.operandOutOfRange _ _)
  | invalidCode (.slotOutOfRange _) => true
  | _ => false

/-- A fault of a frame that has left its code. -/
def Failure.isStray : Failure → Bool
  | fatal e => e.isStray
  | raised _ | uncatchable _ => false

/-- A new exception, or a fault that says nothing of the frame it occurs in: that it is too small,
has left its code, or is short of values. -/
def Failure.IsOrdinary : Failure → Prop
  | raised e => e.IsNew
  | fatal e => e.isMisfit = false ∧ e.isStray = false ∧ e ≠ .stackUnderflow
  | uncatchable _ => False

/-- Defects of the code are ordinary, but for operands that are out of range. -/
theorem Failure.isOrdinary_defect {d : CodeDefect} (hd : (Fault.invalidCode d).isStray = false) :
    (Failure.fatal (.invalidCode d)).IsOrdinary := by
  refine ⟨rfl, hd, fun h => ?_⟩
  cases h

/-! ### Opcodes -/

/-- The opcode goes on with the next instruction and changes the stack by a fixed number of
values. -/
def Opcode.isPlain : Opcode → Bool
  | setupLoop | setupExcept | setupFinally | popBlock | endFinally | breakLoop | continueLoop
  | forIter | jumpIfFalse | jumpIfTrue | jumpForward | jumpAbsolute
  | returnValue | yieldValue | raiseVarargs => false
  | _ => true

/-- The opcode jumps, always or depending on the top value, and leaves the frame as it is. -/
def Opcode.isJump : Opcode → Bool
  | jumpIfFalse | jumpIfTrue | jumpForward | jumpAbsolute => true
  | _ => false

/-- The opcode opens, closes or unwinds blocks. -/
def Opcode.usesBlocks : Opcode → Bool
  | setupLoop | setupExcept | setupFinally | popBlock | endFinally | breakLoop | continueLoop
  | returnValue => true
  | _ => false

/-- The reasons for which an instruction unwinds, and the frame it has left by then. -/
inductive Instruction.Unwinds (i : Instruction) (f : Frame) : Unwind Value → Frame → Prop
  | endFinally {reason : Unwind Value} {g : Frame} (hop : i.opcode = .endFinally)
      (hr : f.stack.slots[2]? = some (.suspended reason)) (hd : f.Drift (-3) g) :
      i.Unwinds f reason g
  | breakLoop (hop : i.opcode = .breakLoop) : i.Unwinds f .breaking f
  | continueLoop (hop : i.opcode = .continueLoop) : i.Unwinds f (.continuing i.target) f
  | returnValue {v : Value} {g : Frame} (hop : i.opcode = .returnValue) (hd : f.Drift (-1) g) :
      i.Unwinds f (.returning v) g

namespace Instruction

section Operands

variable (i : Instruction)

/-- The values an instruction takes off the stack, where it leads on or raises an exception. -/
def takes : Nat :=
  match i.opcode with
  | .popTop | .unaryPositive | .unaryNegative | .unaryNot | .getIter | .forIter | .unpackSequence
  | .storeName | .storeGlobal | .storeFast | .storeDeref | .returnValue | .yieldValue => 1
  | .rotTwo | .binaryAdd | .binarySubtract | .binaryMultiply | .binaryModulo | .binaryFloorDivide
  | .binarySubscr | .compareOp => 2
  | .rotThree | .endFinally => 3
  | .buildTuple => i.arg.toNat
  | .callFunction | .makeFunction => i.arg.toNat + 1
  | .makeClosure => i.arg.toNat + 2
  | .raiseVarargs => if i.arg.toNat ≤ 2 then i.arg.toNat else 0
  | _ => 0

/-- The values an instruction has to find: those it takes, or the one it looks at. -/
def needs : Nat :=
  match i.opcode with
  | .dupTop | .jumpIfFalse | .jumpIfTrue => 1
  | _ => i.takes

theorem takes_of_opcode {op : Opcode} (hop : i.opcode = op) : i.takes = takes ⟨0, op, i.arg⟩ := by
  subst hop
  rfl

theorem needs_of_opcode {op : Opcode} (hop : i.opcode = op) : i.needs = needs ⟨0, op, i.arg⟩ := by
  subst hop
  rfl

/-- A plain instruction takes no more values off the stack than its effect accounts for. -/
theorem neg_takes_le_stackEffect (hop : i.opcode.isPlain = true) :
    -(i.takes : Int) ≤ i.opcode.stackEffect i.arg.toNat := by
  obtain ⟨o, op, arg⟩ := i
  cases op <;> first
    | cases hop; done
    | simp only [takes, Opcode.stackEffect]; omega

theorem neg_takes_le_of_callFunction (hop : i.opcode = .callFunction) :
    -(i.takes : Int) ≤ i.opcode.stackEffect i.arg.toNat - 1 := by
  obtain ⟨o, op, arg⟩ := i
  subst hop
  simp only [takes, Opcode.stackEffect]
  omega

theorem takes_le_needs : i.takes ≤ i.needs := by
  obtain ⟨o, op, arg⟩ := i
  cases op <;> first
    | exact Nat.le_refl _
    | exact Nat.zero_le _

/-- How far an instruction that uses no blocks lifts the stack at most. -/
def rise : Int :=
  match i.opcode with
  | .forIter => 1
  | op => op.stackEffect i.arg.toNat

end Operands

end Instruction

namespace Exec

variable {f : Frame}

/-- The ways in which instruction `i` leads on from frame `f`. -/
inductive Effect (i : Instruction) (f : Frame) : Flow → Frame → Prop
  | plain {g : Frame} (hop : i.opcode.isPlain = true)
      (hd : f.Drift (i.opcode.stackEffect i.arg.toNat) g) : Effect i f .next g
  /-- A call, whose value is still to come. -/
  | invoke {callee g : Frame} (hop : i.opcode = .callFunction)
      (hd : f.Drift (i.opcode.stackEffect i.arg.toNat - 1) g) : Effect i f (.invoke callee) g
  | draw {g : Frame} (hop : i.opcode = .forIter) (hd : f.Drift 1 g) : Effect i f .next g
  | drained {g : Frame} (hop : i.opcode = .forIter) (hd : f.Drift (-1) g) :
      Effect i f (.jump i.target) g
  | advance {r : Ref .generator} {g : Frame} (hop : i.opcode = .forIter) (hd : f.Drift 0 g) :
      Effect i f (.advance r) g
  | jump {g : Frame} (hop : i.opcode.isJump = true) (hd : f.Drift 0 g) :
      Effect i f (.jump i.target) g
  | stay {g : Frame} (hop : i.opcode = .jumpIfFalse ∨ i.opcode = .jumpIfTrue)
      (hd : f.Drift 0 g) : Effect i f .next g
  | setup (hop : i.opcode.isBlockSetup = true) :
      Effect i f .next (f.pushBlock ⟨blockKind i.opcode, i.target, f.stack.depth⟩)
  | leaveBlock {b : Block} {outer : List Block} {g : Frame} (hop : i.opcode = .popBlock)
      (hb : f.blocks = b :: outer) (ha : f.Akin g) (hg : g.blocks = outer)
      (hd : g.stack.depth ≤ b.depth + if b.kind = .cleanup then 3 else 0) : Effect i f .next g
  | endFinally {g : Frame} (hop : i.opcode = .endFinally) (hd : f.Drift (-3) g) :
      Effect i f .next g
  | unwound {reason : Unwind Value} {g' g : Frame} {target : Nat} (hr : i.Unwinds f reason g')
      (hu : g'.unwind reason = (g, .handled target)) : Effect i f (.jump target) g
  | returns {v : Value} {g' g : Frame} (hr : i.Unwinds f (.returning v) g')
      (hu : g'.unwind (.returning v) = (g, .unhandled)) : Effect i f (.exit (.returned v)) g
  | reraises {e : Raised} {g' g : Frame} (hr : i.Unwinds f (.raising e) g')
      (hu : g'.unwind (.raising e) = (g, .unhandled)) :
      Effect i f (.reraise e) { g with pending := some e }
  | yields {v : Value} {g : Frame} (hop : i.opcode = .yieldValue) (hd : f.Drift (-1) g) :
      Effect i f (.exit (.yielded v)) g

/-- The instruction needs more room than the stack of its frame has, or a block where none is. -/
def Strains (i : Instruction) (f : Frame) : Prop :=
  match i.opcode with
  | .popBlock => f.blocks = [] ∨ ∃ b outer, f.blocks = b :: outer ∧ b.kind = .cleanup ∧
      f.stack.capacity < b.depth + 3
  | .endFinally | .breakLoop | .continueLoop | .returnValue =>
    ∃ b ∈ f.blocks, b.kind ≠ .loop ∧ f.stack.capacity < b.depth + 3
  | .forIter => f.stack.capacity < f.stack.depth + 1
  | op => (f.stack.capacity : Int) < f.stack.depth + op.stackEffect i.arg.toNat

theorem strains_plain {i : Instruction} {f : Frame} (hop : i.opcode.isPlain = true) :
    Strains i f ↔
      (f.stack.capacity : Int) < f.stack.depth + i.opcode.stackEffect i.arg.toNat := by
  obtain ⟨o, op, arg⟩ := i
  cases op <;> first
    | exact Iff.rfl
    | cases hop

theorem strains_iff {i : Instruction} {f : Frame} (hop : i.opcode.usesBlocks = false) :
    Strains i f ↔ (f.stack.capacity : Int) < f.stack.depth + i.rise := by
  obtain ⟨o, op, arg⟩ := i
  cases op <;> first
    | exact Iff.rfl
    | exact Int.ofNat_lt.symm
    | cases hop

/-- What instruction `i` leaves of frame `f` when it fails. -/
structure Damage (i : Instruction) (f : Frame) (e : Failure) (g : Frame) : Prop
    extends f.Akin g where
  /-- An exception finds the blocks as they were. -/
  blocks : ∀ r, e = .raised r → g.blocks = f.blocks
  /-- An exception finds the values that were not taken. -/
  depth : ∀ r, e = .raised r → f.stack.depth ≤ g.stack.depth + i.takes
  catchable : ∀ r, e ≠ .uncatchable r
  misfit : e.isMisfit = true → Strains i f
  underflow : e = .fatal .stackUnderflow → f.stack.depth < i.needs

end Exec

namespace Instruction

variable {i : Instruction} {f g : Frame} {reason : Unwind Value}

theorem Unwinds.akin (h : i.Unwinds f reason g) : f.Akin g := by
  cases h with
  | endFinally _ _ hd => exact hd.toAkin
  | breakLoop _ => exact .refl f
  | continueLoop _ => exact .refl f
  | returnValue _ hd => exact hd.toAkin

theorem Unwinds.blocks (h : i.Unwinds f reason g) : g.blocks = f.blocks := by
  cases h with
  | endFinally _ _ hd => exact hd.blocks
  | breakLoop _ => rfl
  | continueLoop _ => rfl
  | returnValue _ hd => exact hd.blocks

/-- An unwinding whose values do not fit is what strains an instruction that unwinds. -/
theorem Unwinds.strains (h : i.Unwinds f reason g)
    (hb : ∃ b ∈ g.blocks, b.kind ≠ .loop ∧ g.stack.capacity < b.depth + 3) :
    Exec.Strains i f := by
  rw [h.blocks, h.akin.capacity] at hb
  cases h with
  | endFinally hop _ _ => simpa only [Exec.Strains, hop] using hb
  | breakLoop hop => simpa only [Exec.Strains, hop] using hb
  | continueLoop hop => simpa only [Exec.Strains, hop] using hb
  | returnValue hop _ => simpa only [Exec.Strains, hop] using hb

end Instruction

namespace Exec

/-- Whatever an instruction does, the frame stays what it is. -/
theorem Effect.akin {i : Instruction} {f g : Frame} {flow : Flow} (h : Effect i f flow g) :
    f.Akin g := by
  cases h with
  | plain _ hd => exact hd.toAkin
  | invoke _ hd => exact hd.toAkin
  | draw _ hd => exact hd.toAkin
  | drained _ hd => exact hd.toAkin
  | advance _ hd => exact hd.toAkin
  | jump _ hd => exact hd.toAkin
  | stay _ hd => exact hd.toAkin
  | setup _ => exact .withBlocks f _
  | leaveBlock _ _ ha _ _ => exact ha
  | endFinally _ hd => exact hd.toAkin
  | unwound hr hu => exact hr.akin.trans (Frame.unwind_spec hu).1
  | returns hr hu => exact hr.akin.trans (Frame.unwind_spec hu).1
  | reraises hr hu => exact (hr.akin.trans (Frame.unwind_spec hu).1).trans (.withPending _ _)
  | yields _ hd => exact hd.toAkin

end Exec

end Resumable
