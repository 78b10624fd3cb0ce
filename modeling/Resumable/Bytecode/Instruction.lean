import Resumable.Bytecode.Opcode
import Resumable.Failure.Fault

/-!
# Instructions

Bytecode is a list of bytes.  `Instruction.decode` reads the instruction that starts at an offset;
`Instruction.sweep` reads instructions one after the other from the start and stops at the first
byte that cannot be read.  Every instruction the sweep returns is what `decode` reads at its offset
(`Instruction.decode_of_mem_sweep`).
-/

namespace Resumable

/-- A decoded instruction.  The argument is zero for opcodes that have none. -/
structure Instruction where
  offset : Nat
  opcode : Opcode
  arg : UInt16
  deriving DecidableEq, Repr, Inhabited

namespace Instruction

/-- The low byte of an argument comes first. -/
def argument (low high : UInt8) : UInt16 := UInt16.ofNat (low.toNat + 256 * high.toNat)

/-- The two bytes of an argument. -/
def argumentBytes (arg : UInt16) : List UInt8 :=
  [UInt8.ofNat (arg.toNat % 256), UInt8.ofNat (arg.toNat / 256)]

theorem argument_argumentBytes (arg : UInt16) :
    argument (UInt8.ofNat (arg.toNat % 256)) (UInt8.ofNat (arg.toNat / 256)) = arg := by
  apply UInt16.toNat_inj.mp
  have h := arg.toNat_lt
  simp only [argument, UInt8.toNat_ofNat', UInt16.toNat_ofNat']
  omega

/-- The offset after the instruction. -/
def next (i : Instruction) : Nat := i.offset + i.opcode.width

/-- The offset a jump or block setup names. -/
def target? (i : Instruction) : Option Nat :=
  i.opcode.addressing?.map fun
    | .relative => i.next + i.arg.toNat
    | .absolute => i.arg.toNat

/-- The offset a jump names, zero for other instructions. -/
def target (i : Instruction) : Nat := i.target?.getD 0

/-- Reads the instruction at the head of `bytes`, which start at `offset`. -/
def decodeHead (offset : Nat) : List UInt8 → Except Fault Instruction
  | [] => .error (.invalidOpcode offset 0)
  | b :: rest =>
    match Opcode.ofByte? b with
    | none => .error (.invalidOpcode offset b)
    | some op =>
      if op.hasArgument then
        match rest with
        | low :: high :: _ => .ok ⟨offset, op, argument low high⟩
        | _ => .error (.invalidOpcode offset b)
      else .ok ⟨offset, op, 0⟩

/-- Reads the instruction that starts at `offset`. -/
def decode (bytecode : List UInt8) (offset : Nat) : Except Fault Instruction :=
  decodeHead offset (bytecode.drop offset)

/-- Reads instructions from the head of `bytes`, which start at `offset`, until none are left or one
cannot be read. -/
def sweepFrom (offset : Nat) (bytes : List UInt8) : List Instruction × Option Fault :=
  match bytes with
  | [] => ([], none)
  | b :: rest =>
    match decodeHead offset (b :: rest) with
    | .error e => ([], some e)
    | .ok i =>
      let (is, e) := sweepFrom i.next (rest.drop (i.opcode.width - 1))
      (i :: is, e)
  termination_by bytes.length
  decreasing_by
    rw [List.length_drop, List.length_cons]
    omega

/-- The instructions of a bytecode string in offset order, and the fault that ended the reading. -/
def sweep (bytecode : List UInt8) : List Instruction × Option Fault := sweepFrom 0 bytecode

/-- The instructions that can be read in offset order. -/
def readable (bytecode : List UInt8) : List Instruction := (sweep bytecode).1

theorem offset_of_decodeHead {o : Nat} {bytes : List UInt8} {i : Instruction}
    (h : decodeHead o bytes = .ok i) : i.offset = o := by
  unfold decodeHead at h
  grind

theorem decode_of_mem_sweepFrom {bytecode : List UInt8} {o : Nat} {bytes : List UInt8}
    (hb : bytes = bytecode.drop o) {i : Instruction} (h : i ∈ (sweepFrom o bytes).1) :
    decode bytecode i.offset = .ok i := by
  fun_induction sweepFrom o bytes with
  | case1 => simp at h
  | case2 => simp at h
  | case3 o b rest j hj is e hs ih =>
    have ho := offset_of_decodeHead hj
    rcases List.mem_cons.mp h with rfl | h
    · rw [ho, decode, ← hb, hj]
    · refine ih ?_ (by rw [hs]; exact h)
      have hw := j.opcode.width_pos
      rw [next, ho, ← List.drop_drop, ← hb]
      obtain ⟨w, hw⟩ : ∃ w, j.opcode.width = w + 1 := ⟨_, (Nat.succ_pred_eq_of_pos hw).symm⟩
      simp [hw]

/-- The sweep agrees with decoding at single offsets. -/
theorem decode_of_mem_sweep {bytecode : List UInt8} {i : Instruction}
    (h : i ∈ readable bytecode) : decode bytecode i.offset = .ok i :=
  decode_of_mem_sweepFrom (by simp) h

end Instruction

end Resumable
