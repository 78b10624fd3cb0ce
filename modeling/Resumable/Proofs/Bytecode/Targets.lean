import Mathlib
import Resumable.Bytecode.Assembler

/-!
# Where valid code leads

A target of a code object is an offset where an instruction starts, or the end of its bytecode.  In
valid code the instruction after an instruction, the one a jump leads to, and the first one of a
line are targets (`CodeOf.Valid.next`, `CodeOf.Valid.target`, `CodeOf.Valid.lineStart`).
-/

namespace Resumable

namespace Instruction

variable {bytecode : List UInt8} {o : Nat} {i : Instruction}

theorem offset_of_decode (h : decode bytecode o = .ok i) : i.offset = o :=
  offset_of_decodeHead h

theorem error_of_decode {e : Fault} (h : decode bytecode o = .error e) :
    ∃ b, e = .invalidOpcode o b := by
  unfold decode decodeHead at h
  split at h
  · cases h
    exact ⟨0, rfl⟩
  · rename_i b _ _
    -- an unknown opcode and a missing argument are reported alike
    refine ⟨b, ?_⟩
    split at h
    · cases h
      rfl
    · split at h
      · split at h <;> cases h
        rfl
      · cases h

/-- What can be decoded lies within the bytecode. -/
theorem next_le_of_decode (h : decode bytecode o = .ok i) :
    o < bytecode.length ∧ i.next ≤ bytecode.length := by
  have ho := offset_of_decode h
  unfold decode at h
  -- what is decoded is the front of what lies behind the offset
  obtain ⟨bytes, hb⟩ : ∃ bytes, bytecode.drop o = bytes := ⟨_, rfl⟩
  have hl : bytes.length = bytecode.length - o := by rw [← hb, List.length_drop]
  rw [hb] at h
  unfold next
  cases bytes with
  | nil => cases h
  | cons b rest =>
    rw [List.length_cons] at hl
    unfold decodeHead at h
    dsimp only at h
    split at h
    · cases h
    · rename_i op hop
      split at h
      · rename_i ha
        split at h
        · rename_i low high tail
          cases h
          simp only [List.length_cons] at hl
          simp only [Opcode.width, ha, if_true]
          omega
        · cases h
      · rename_i ha
        cases h
        simp only [Opcode.width, ha]
        simp
        omega

theorem opcodeAt?_of_decode {κ : Type} {c : CodeOf κ} (h : decode c.bytecode o = .ok i) :
    c.opcodeAt? o = some i.opcode := by
  have h0 : c.bytecode[o]? = (c.bytecode.drop o)[0]? := by rw [List.getElem?_drop, Nat.add_zero]
  unfold CodeOf.opcodeAt?
  rw [h0]
  unfold decode at h
  cases hb : c.bytecode.drop o with
  | nil =>
    rw [hb] at h
    cases h
  | cons b rest =>
    rw [hb] at h
    show Opcode.ofByte? b = _
    unfold decodeHead at h
    dsimp only at h
    split at h
    · cases h
    · rename_i op hop
      rw [hop]
      split at h
      · split at h <;> cases h
        rfl
      · cases h
        rfl

/-- The instructions swept from `o` cover the bytecode without a gap, if nothing stops the sweep. -/
theorem sweepFrom_covers {bytes : List UInt8} {is : List Instruction}
    (hb : bytes = bytecode.drop o) (ho : o ≤ bytecode.length)
    (hs : sweepFrom o bytes = (is, none)) :
    (o = bytecode.length ∨ ∃ i ∈ is, i.offset = o) ∧
      ∀ i ∈ is, i.next = bytecode.length ∨ ∃ j ∈ is, j.offset = i.next := by
  fun_induction sweepFrom o bytes generalizing is with
  | case1 o =>
    cases hs
    have hl := congrArg List.length hb
    rw [List.length_nil, List.length_drop] at hl
    exact ⟨.inl (by omega), fun i hi => absurd hi List.not_mem_nil⟩
  | case2 o b rest e he => cases hs
  | case3 o b rest j hj js e hr ih =>
    cases hs
    have hd : decode bytecode o = .ok j := by rw [decode, ← hb, hj]
    have hjo := offset_of_decode hd
    have hn := (next_le_of_decode hd).2
    -- the rest of the sweep starts where this instruction ends
    have hb' : rest.drop (j.opcode.width - 1) = bytecode.drop j.next := by
      obtain ⟨w, hw⟩ : ∃ w, j.opcode.width = w + 1 :=
        ⟨_, (Nat.succ_pred_eq_of_pos j.opcode.width_pos).symm⟩
      rw [next, hjo, ← List.drop_drop, ← hb, hw]
      rfl
    obtain ⟨h0, h⟩ := ih hb' hn hr
    refine ⟨.inr ⟨j, List.mem_cons_self, hjo⟩, fun i hi => ?_⟩
    have later {n : Nat} : (∃ k ∈ js, k.offset = n) → ∃ k ∈ j :: js, k.offset = n := by
      rintro ⟨k, hk, ho⟩
      exact ⟨k, List.mem_cons_of_mem _ hk, ho⟩
    rcases List.mem_cons.1 hi with rfl | hi
    · exact h0.imp_right later
    · exact (h i hi).imp_right later

end Instruction

namespace CodeOf

variable {κ : Type} {c : CodeOf κ} {o : Nat} {i : Instruction}

/-- An instruction starts at the offset, or the bytecode ends there. -/
def Target (c : CodeOf κ) (o : Nat) : Prop := o = c.bytecode.length ∨ c.isBoundary o = true

theorem isBoundary_iff : c.isBoundary o = true ↔ ∃ i ∈ c.instructions, i.offset = o := by
  unfold isBoundary
  rw [List.any_eq_true]
  simp only [beq_iff_eq]

theorem isTarget_iff : c.isTarget c.instructions o = true ↔ c.Target o := by
  unfold isTarget Target isBoundary
  rw [Bool.or_eq_true, beq_iff_eq]

/-- An offset where an instruction starts is one at which it can be decoded. -/
theorem decode_of_isBoundary (h : c.isBoundary o = true) :
    ∃ i ∈ c.instructions, Instruction.decode c.bytecode o = .ok i := by
  obtain ⟨i, hi, rfl⟩ := isBoundary_iff.1 h
  exact ⟨i, hi, Instruction.decode_of_mem_sweep hi⟩

theorem opcodeAt?_length (c : CodeOf κ) : c.opcodeAt? c.bytecode.length = none := by
  unfold opcodeAt?
  rw [List.getElem?_eq_none (Nat.le_refl _)]
  rfl

/-- A target at which nothing can be decoded is the end. -/
theorem Target.eq_length {e : Fault} (h : c.Target o)
    (hd : Instruction.decode c.bytecode o = .error e) : o = c.bytecode.length := by
  refine h.resolve_right fun hb => ?_
  obtain ⟨i, -, hi⟩ := decode_of_isBoundary hb
  rw [hd] at hi
  cases hi

/-- A target at which something can be decoded is not the end. -/
theorem Target.isBoundary (h : c.Target o) (hd : Instruction.decode c.bytecode o = .ok i) :
    c.isBoundary o = true ∧ i ∈ c.instructions := by
  have hl := (Instruction.next_le_of_decode hd).1
  have hb := h.resolve_left (by omega)
  obtain ⟨j, hj, hdj⟩ := decode_of_isBoundary hb
  rw [hd] at hdj
  cases hdj
  exact ⟨hb, hj⟩

/-- What the checks of valid code have found. -/
theorem Valid.spec (h : c.Valid) : Instruction.sweep c.bytecode = (c.instructions, none) ∧
    c.defect? c.instructions = none ∧
      ∃ opened, StaticBlock.scan c.name c.instructions = .ok opened := by
  unfold Valid validate at h
  by_cases hp : c.varnames.length < c.argCount
  · rw [if_pos hp] at h
    cases h
  by_cases hl : c.lineTable.length % 2 ≠ 0
  · rw [if_neg hp, if_pos hl] at h
    cases h
  rw [if_neg hp, if_neg hl] at h
  cases hs : Instruction.sweep c.bytecode with
  | mk is e =>
    have hi : c.instructions = is := by
      unfold instructions Instruction.readable
      rw [hs]
    rw [hs] at h
    cases e with
    | some e => cases h
    | none =>
      dsimp only at h
      rw [hi]
      refine ⟨rfl, ?_⟩
      cases hd : c.defect? is with
      | some d =>
        rw [hd] at h
        cases h
      | none =>
        rw [hd] at h
        cases hc : StaticBlock.scan c.name is with
        | ok opened => exact ⟨rfl, opened, rfl⟩
        | error e =>
          rw [hc] at h
          cases h

theorem Valid.checked (h : c.Valid) :
    Instruction.sweep c.bytecode = (c.instructions, none) ∧ c.defect? c.instructions = none :=
  ⟨h.spec.1, h.spec.2.1⟩

theorem Valid.covers (h : c.Valid) :
    c.Target 0 ∧ ∀ i ∈ c.instructions, c.Target i.next := by
  obtain ⟨h0, hn⟩ := Instruction.sweepFrom_covers rfl
    (Nat.zero_le _) h.checked.1
  exact ⟨h0.imp_right isBoundary_iff.2, fun i hi => (hn i hi).imp_right isBoundary_iff.2⟩

/-- Execution starts at a target. -/
theorem Valid.zero (h : c.Valid) : c.Target 0 := h.covers.1

/-- The instruction after an instruction starts at a target. -/
theorem Valid.next (h : c.Valid) (hi : i ∈ c.instructions) : c.Target i.next := h.covers.2 i hi

/-- Jumps lead to targets. -/
theorem Valid.target (h : c.Valid) (hi : i ∈ c.instructions) {t : Nat} (ht : i.target? = some t) :
    c.Target t := by
  have hd := h.checked.2
  unfold defect? at hd
  rw [Option.or_eq_none_iff, List.findSome?_eq_none_iff] at hd
  have hi := hd.1 i hi
  -- an opcode with a target indexes no table
  have hn : i.opcode.table? = none := by
    unfold Instruction.target? at ht
    obtain ⟨o, op, arg⟩ := i
    cases op <;> first | rfl | cases ht
  unfold instructionDefect? at hi
  rw [hn, ht] at hi
  dsimp only at hi
  split at hi
  · cases hi
  · split at hi
    · exact isTarget_iff.1 ‹_›
    · cases hi

/-- Only generators yield. -/
theorem Valid.generator (h : c.Valid) (hi : i ∈ c.instructions) (hop : i.opcode = .yieldValue) :
    c.flags.generator = true := by
  have hd := h.checked.2
  unfold defect? at hd
  rw [Option.or_eq_none_iff, List.findSome?_eq_none_iff] at hd
  have hi := hd.1 i hi
  obtain ⟨o, op, arg⟩ := i
  obtain rfl : op = .yieldValue := hop
  cases hg : c.flags.generator with
  | true => rfl
  | false =>
    unfold instructionDefect? at hi
    rw [hg] at hi
    cases hi

/-- Lines start at targets. -/
theorem Valid.lineStart (h : c.Valid) {line : Nat} (hl : (o, line) ∈ c.lineStarts) :
    c.Target o := by
  have hd := h.checked.2
  unfold defect? at hd
  rw [Option.or_eq_none_iff] at hd
  have hd := hd.2
  unfold lineDefect? at hd
  rw [Option.map_eq_none_iff, List.find?_eq_none] at hd
  have ho := hd _ hl
  simp only [Bool.not_eq_true', Bool.not_eq_false] at ho
  exact isTarget_iff.1 ho

end CodeOf

namespace Assembler

variable {a : Assembler} {c : Code}

/-- What building has checked, and what it takes over. -/
theorem build_inv (h : a.build = .ok c) :
    c.Valid ∧ StackDepth.required c.flags.acceptsInput c.bytecode = .ok c.maxStack ∧ c =
      { name := a.name, bytecode := c.bytecode, consts := a.consts, names := a.names,
        varnames := a.varnames, cellvars := a.cellvars, freevars := a.freevars,
        argCount := a.argCount, maxStack := c.maxStack, flags := a.flags,
        firstLine := a.firstLine, lineTable := a.lineTable.toList } := by
  unfold build at h
  cases hb : a.patched? with
  | error e =>
    rw [hb] at h
    cases h
  | ok bytecode =>
    rw [hb] at h
    dsimp only [bind, Except.bind] at h
    cases hr : StackDepth.required a.flags.acceptsInput bytecode with
    | error e =>
      rw [hr] at h
      cases h
    | ok maxStack =>
      rw [hr] at h
      dsimp only at h
      split at h
      · cases h
      · rename_i hv
        cases h
        exact ⟨hv, hr, rfl⟩

theorem build_spec (h : a.build = .ok c) :
    c.Valid ∧ StackDepth.required c.flags.acceptsInput c.bytecode = .ok c.maxStack :=
  ⟨(build_inv h).1, (build_inv h).2.1⟩

/-- Building succeeds when each of its parts does. -/
theorem build_eq_ok (hb : a.patched? = .ok c.bytecode)
    (hs : StackDepth.required a.flags.acceptsInput c.bytecode = .ok c.maxStack)
    (hc : c =
      { name := a.name, bytecode := c.bytecode, consts := a.consts, names := a.names,
        varnames := a.varnames, cellvars := a.cellvars, freevars := a.freevars,
        argCount := a.argCount, maxStack := c.maxStack, flags := a.flags,
        firstLine := a.firstLine, lineTable := a.lineTable.toList })
    (hv : c.Valid) : a.build = .ok c := by
  unfold build
  rw [hb]
  dsimp only [bind, Except.bind]
  rw [hs]
  dsimp only
  rw [← hc, hv]
  rfl

end Assembler

end Resumable
