import Resumable.Proofs.Bytecode.Targets

/-!
# Laying out what is emitted

What an assembler is given, as far as its bytecode depends on it, is a list of items.  They can be
laid out in two passes: one finds the offsets of the labels (`Assembler.labelsFrom`), and one
encodes each instruction with the argument it then has (`Assembler.bytesFrom`).

An assembler has only one pass.  The instructions it emits are `Assembler.unpatched`, in which every
jump has a zero for an argument, and the jumps are then patched in place.  A patch writes over the
argument of its jump and over nothing else (`Assembler.toList_patch`), so what comes before the
jump, and what comes behind it, is still decoded as it was emitted when the next one is patched.
This is why both come to the same bytes or to the same fault (`Assembler.foldlM_fixUp`).
-/

namespace Resumable

/-- The argument with which an instruction is emitted. -/
inductive Operand where
  | absent
  | literal (arg : UInt16)
  /-- A jump to wherever the label is bound. -/
  | label (name : String)
  deriving DecidableEq, Repr

/-- The argument before the offsets of labels are known. -/
def Operand.given : Operand → UInt16
  | literal arg => arg
  | absent | label _ => 0

/-- Something that an assembler is given. -/
inductive Item where
  /-- The instructions from here on belong to this line, unless it lies before theirs. -/
  | line (number : Nat)
  /-- The offset of the next instruction gets a name. -/
  | label (name : String)
  | instruction (op : Opcode) (operand : Operand)
  deriving DecidableEq, Repr

namespace Item

/-- The bytes an item takes up. -/
def size : Item → Nat
  | line _ | label _ => 0
  | instruction op _ => op.width

/-- The opcode of an instruction. -/
def opcode? : Item → Option Opcode
  | line _ | label _ => none
  | instruction op _ => some op

/-- There is room for the argument if the item is a jump. -/
def Roomy : Item → Prop
  | instruction op (.label _) => op.hasArgument = true
  | _ => True

end Item

namespace Assembler

/-! ### Two passes -/

/-- The offsets of the labels among items that start at `offset`. -/
def labelsFrom (offset : Nat) : List Item → List (String × Nat)
  | [] => []
  | .label l :: rest => (l, offset) :: labelsFrom offset rest
  | i :: rest => labelsFrom (offset + i.size) rest

/-- The argument of the instruction at `offset`. -/
def resolve (labels : List (String × Nat)) (offset : Nat) (op : Opcode) :
    Operand → Except Fault UInt16
  | .absent => .ok 0
  | .literal arg => .ok arg
  | .label l =>
    match labels.lookup l with
    | none => .error (.invalidCode .unboundLabel)
    | some target =>
      let narrow (arg : Nat) : Except Fault UInt16 :=
        if arg < 65536 then .ok (UInt16.ofNat arg) else .error (.invalidCode .farJump)
      match op.addressing? with
      | some .relative =>
        if target < offset + op.width then .error (.invalidCode (.backwardJump offset))
        else narrow (target - (offset + op.width))
      | _ => narrow target

/-- The bytes of an instruction. -/
def encode (op : Opcode) (arg : UInt16) : List UInt8 :=
  op.byte :: if op.hasArgument then Instruction.argumentBytes arg else []

/-- The bytes of items that start at `offset`. -/
def bytesFrom (labels : List (String × Nat)) (offset : Nat) :
    List Item → Except Fault (List UInt8)
  | [] => .ok []
  | .instruction op operand :: rest => do
    let arg ← resolve labels offset op operand
    let later ← bytesFrom labels (offset + op.width) rest
    pure (encode op arg ++ later)
  | _ :: rest => bytesFrom labels offset rest

/-! ### One pass -/

/-- The bytes of items, with a zero for the argument of each jump. -/
def unpatched : List Item → List UInt8
  | [] => []
  | .instruction op operand :: rest => encode op operand.given ++ unpatched rest
  | _ :: rest => unpatched rest

/-- The jumps among items that start at `offset`, with their labels. -/
def fixupsFrom (offset : Nat) : List Item → List (Nat × String)
  | [] => []
  | .instruction op (.label l) :: rest => (offset, l) :: fixupsFrom (offset + op.width) rest
  | i :: rest => fixupsFrom (offset + i.size) rest

variable {labels : List (String × Nat)} {bytecode : Array UInt8} {pre rest bytes : List UInt8}
  {op : Opcode} {o : Nat} {l : String} {arg : UInt16} {items : List Item}

theorem length_encode (op : Opcode) (arg : UInt16) : (encode op arg).length = op.width := by
  unfold encode Opcode.width
  split <;> rfl

theorem decodeHead_encode (o : Nat) (op : Opcode) (arg : UInt16) (rest : List UInt8) :
    Instruction.decodeHead o (encode op arg ++ rest) =
      .ok ⟨o, op, if op.hasArgument then arg else 0⟩ := by
  unfold encode Instruction.argumentBytes
  cases ha : op.hasArgument with
  | true =>
    simp only [if_true, List.cons_append, List.nil_append, Instruction.decodeHead,
      Opcode.ofByte?_byte, ha, Instruction.argument_argumentBytes]
  | false =>
    simp only [Bool.false_eq_true, if_false, List.cons_append, List.nil_append,
      Instruction.decodeHead, Opcode.ofByte?_byte, ha]

/-- **A patch writes over the argument** of the instruction at its offset, and over nothing else. -/
theorem toList_patch (ha : op.hasArgument = true) (arg' : UInt16)
    (hb : bytecode.toList = pre ++ (encode op arg ++ rest)) :
    (patch bytecode pre.length arg').toList = pre ++ (encode op arg' ++ rest) := by
  have behind (n : Nat) : ¬pre.length + n < pre.length := Nat.not_lt.2 (Nat.le_add_right _ _)
  unfold encode Instruction.argumentBytes at hb ⊢
  rw [ha, if_pos rfl] at hb ⊢
  rw [patch, Array.toList_setIfInBounds, Array.toList_setIfInBounds, hb, List.set_append,
    if_neg (behind 1), List.set_append, if_neg (behind 2), Nat.add_sub_cancel_left,
    Nat.add_sub_cancel_left]
  rfl

/-- The jump at the offset is patched with the argument that it is resolved to. -/
theorem fixUp_eq (hb : bytecode.toList = pre ++ (encode op arg ++ rest)) :
    fixUp labels bytecode (pre.length, l) =
      (resolve labels pre.length op (.label l)).map (patch bytecode pre.length) := by
  -- whatever argument stands there, the opcode is decoded
  have hd : Instruction.decode bytecode.toList pre.length =
      .ok ⟨pre.length, op, if op.hasArgument then arg else 0⟩ := by
    rw [Instruction.decode, hb, List.drop_left, decodeHead_encode]
  have hn : (⟨pre.length, op, if op.hasArgument then arg else 0⟩ : Instruction).next =
    pre.length + op.width := rfl
  unfold fixUp resolve
  dsimp only
  cases labels.lookup l with
  | none => rfl
  | some target =>
    dsimp only
    rw [hd]
    dsimp only
    rw [hn]
    have narrowed (n : Nat) : (if n < 65536 then .ok (patch bytecode pre.length (UInt16.ofNat n))
        else .error (.invalidCode .farJump) : Except Fault (Array UInt8)) =
        (if n < 65536 then .ok (UInt16.ofNat n) else .error (.invalidCode .farJump) :
          Except Fault UInt16).map (patch bytecode pre.length) := by
      split <;> rfl
    cases op.addressing? with
    | none => exact narrowed target
    | some addressing =>
      cases addressing with
      | absolute => exact narrowed target
      | relative =>
        dsimp only
        split
        · rfl
        · exact narrowed _

/-- **Patching in place** comes to the bytes that are laid out in two passes, or to the same fault:
once everything before the items is as it will be, the jumps among them are patched one after the
other. -/
theorem foldlM_fixUp (hr : ∀ i ∈ items, i.Roomy) (pre : List UInt8) (bytecode : Array UInt8)
    (hb : bytecode.toList = pre ++ unpatched items) :
    ((fixupsFrom pre.length items).foldlM (fixUp labels) bytecode).map Array.toList =
      (bytesFrom labels pre.length items).map (pre ++ ·) := by
  induction items generalizing pre bytecode with
  | nil => exact congrArg Except.ok hb
  | cons item items ih =>
    have ih := ih fun i hi => hr i (List.mem_cons_of_mem _ hi)
    -- an instruction that has its argument joins what comes before the items
    have laid (op : Opcode) (arg : UInt16) (bytecode : Array UInt8)
        (hb : bytecode.toList = pre ++ (encode op arg ++ unpatched items)) :
        ((fixupsFrom (pre.length + op.width) items).foldlM (fixUp labels) bytecode).map
            Array.toList =
          (bytesFrom labels (pre.length + op.width) items).map
            fun later => pre ++ (encode op arg ++ later) := by
      have h := ih (pre ++ encode op arg) bytecode (hb.trans (List.append_assoc _ _ _).symm)
      rw [List.length_append, length_encode] at h
      rw [h]
      simp only [List.append_assoc]
    have resolved {op : Opcode} {operand : Operand} {arg : UInt16}
        (ha : resolve labels pre.length op operand = .ok arg) :
        (bytesFrom labels pre.length (.instruction op operand :: items)).map (pre ++ ·) =
          (bytesFrom labels (pre.length + op.width) items).map
            fun later => pre ++ (encode op arg ++ later) := by
      rw [bytesFrom, ha]
      cases bytesFrom labels (pre.length + op.width) items <;> rfl
    cases item with
    | line n => exact ih pre bytecode hb
    | label l => exact ih pre bytecode hb
    | instruction op operand =>
      cases operand with
      | absent => exact (laid op 0 bytecode hb).trans (resolved rfl).symm
      | literal arg => exact (laid op arg bytecode hb).trans (resolved rfl).symm
      | label l =>
        have ha : op.hasArgument = true := hr _ List.mem_cons_self
        rw [fixupsFrom, List.foldlM_cons, fixUp_eq hb]
        cases hres : resolve labels pre.length op (.label l) with
        | error e =>
          rw [bytesFrom, hres]
          rfl
        | ok arg => exact (laid op arg _ (toList_patch ha arg hb)).trans (resolved hres).symm

end Assembler

end Resumable
