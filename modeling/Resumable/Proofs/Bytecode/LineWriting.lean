import Resumable.Proofs.Bytecode.Layout
import Resumable.Proofs.Bytecode.Lines

/-!
# Writing line tables

The entries that a `LineWriter` adds before an instruction are the bytes of steps
(`LineWriter.atInstruction_eq`).  They fit two bytes each, so they are read back as they were
written (`LineStep.ofBytes_flatMap`).  Where the line advances from one instruction to the next, it
does so at a single offset and in steps of 255 lines, but for the last one
(`LineWriter.mem_starts_write`): an advance of more than 255 lines passes lines on which no
instruction is.
-/

namespace Resumable

namespace LineStep

/-- The bytes of a step. -/
def bytes (s : LineStep) : List UInt8 := [UInt8.ofNat s.offset, UInt8.ofNat s.line]

/-- The step fits two bytes. -/
def Fits (s : LineStep) : Prop := s.offset ≤ 255 ∧ s.line ≤ 255

/-- Steps that fit are read as they were written. -/
theorem ofBytes_flatMap {steps : List LineStep} (h : ∀ s ∈ steps, s.Fits) :
    ofBytes (steps.flatMap bytes) = steps := by
  induction steps with
  | nil => rfl
  | cons s steps ih =>
    obtain ⟨ho, hl⟩ := h s List.mem_cons_self
    have byte {n : Nat} (hn : n ≤ 255) : (UInt8.ofNat n).toNat = n := by
      rw [UInt8.toNat_ofNat']
      omega
    show ⟨(UInt8.ofNat s.offset).toNat, (UInt8.ofNat s.line).toNat⟩ ::
      ofBytes (steps.flatMap bytes) = s :: steps
    rw [byte ho, byte hl, ih fun s hs => h s (List.mem_cons_of_mem _ hs)]

/-- The line before an offset. -/
def lineBefore (o : Nat) (steps : List LineStep) (address line : Nat) : Nat :=
  if o = 0 then line else lineAt (o - 1) steps address line

end LineStep

namespace LineWriter

open LineStep

variable {d n last full address line o offset : Nat} {rest : List LineStep} {p : Nat × Nat}
  {table : Array UInt8}

/-! ### The steps of an advance -/

/-- How many full steps of 255 precede a last step that is not zero. -/
def fullSteps (distance : Nat) : Nat := (distance - 1) / 255

/-- Steps of 255 lines and a last one, the first of which moves the offset too. -/
def climbing (distance last : Nat) : Nat → List LineStep
  | 0 => [⟨distance, last⟩]
  | full + 1 => ⟨distance, 255⟩ :: climbing 0 last full

/-- The steps that move the offset and then the line: padding until what is left of the distance
fits one step, and then lines. -/
def steps (distance lines : Nat) : List LineStep :=
  List.replicate (fullSteps distance) ⟨255, 0⟩ ++
    climbing (distance - 255 * fullSteps distance) (lines - 255 * fullSteps lines) (fullSteps lines)

theorem toList_entry (table : Array UInt8) (d n : Nat) :
    (entry table d n).toList = table.toList ++ LineStep.bytes ⟨d, n⟩ := by
  unfold entry
  rw [Array.toList_push, Array.toList_push, List.append_assoc]
  rfl

/-- One step less is left behind a full one. -/
theorem fullSteps_of_lt (h : 255 < n) : fullSteps n = fullSteps (n - 255) + 1 := by
  unfold fullSteps
  omega

theorem fullSteps_of_le (h : ¬255 < n) : fullSteps n = 0 := by
  unfold fullSteps
  omega

/-- Padding takes all full steps of the distance, and leaves what is left. -/
theorem pad_eq (table : Array UInt8) (d : Nat) :
    (pad table d).1.toList =
        table.toList ++ (List.replicate (fullSteps d) ⟨255, 0⟩).flatMap LineStep.bytes ∧
      (pad table d).2 = d - 255 * fullSteps d := by
  fun_induction pad table d with
  | case1 table d hd ih =>
    refine ⟨?_, ih.2.trans ?_⟩
    · rw [ih.1, toList_entry, fullSteps_of_lt hd, List.replicate_succ, List.flatMap_cons,
        List.append_assoc]
    · rw [fullSteps_of_lt hd]
      omega
  | case2 table d hd =>
    rw [fullSteps_of_le hd]
    exact ⟨(List.append_nil _).symm, rfl⟩

theorem climb_eq (table : Array UInt8) (d n : Nat) : (climb table d n).toList = table.toList ++
    (climbing d (n - 255 * fullSteps n) (fullSteps n)).flatMap LineStep.bytes := by
  fun_induction climb table d n with
  | case1 table d n hn ih =>
    have hleft : n - 255 - 255 * fullSteps (n - 255) = n - 255 * (fullSteps (n - 255) + 1) := by
      omega
    rw [ih, toList_entry, fullSteps_of_lt hn, climbing, List.flatMap_cons, List.append_assoc, hleft]
  | case2 table d n hn =>
    rw [toList_entry, fullSteps_of_le hn]
    rfl

/-- An advance adds the bytes of its steps. -/
theorem advance_eq (table : Array UInt8) (d n : Nat) :
    (advance table d n).toList = table.toList ++ (steps d n).flatMap LineStep.bytes := by
  obtain ⟨ht, hrest⟩ := pad_eq table d
  unfold advance steps
  dsimp only
  rw [climb_eq, ht, hrest, List.flatMap_append, List.append_assoc]

theorem fits_climbing (hd : d ≤ 255) (hl : last ≤ 255) : ∀ s ∈ climbing d last full, s.Fits := by
  induction full generalizing d with
  | zero => exact List.forall_mem_singleton.2 ⟨hd, hl⟩
  | succ full ih => exact List.forall_mem_cons.2 ⟨⟨hd, Nat.le_refl _⟩, ih (Nat.zero_le _)⟩

theorem sub_fullSteps_le (n : Nat) : n - 255 * fullSteps n ≤ 255 := by
  unfold fullSteps
  omega

theorem fits_steps (d n : Nat) : ∀ s ∈ steps d n, s.Fits := by
  intro s hs
  rcases List.mem_append.1 hs with hs | hs
  · rw [List.eq_of_mem_replicate hs]
    exact ⟨Nat.le_refl _, Nat.zero_le _⟩
  · exact fits_climbing (sub_fullSteps_le d) (sub_fullSteps_le n) s hs

/-- Padding leads forward and stays on the line. -/
theorem starts_pad (full : Nat) : starts (List.replicate full ⟨255, 0⟩ ++ rest) address line =
    starts rest (address + 255 * full) line := by
  induction full generalizing address with
  | zero => rfl
  | succ full ih =>
    have hnext : address + 255 * (full + 1) = address + 255 + 255 * full := by omega
    rw [hnext, ← ih]
    rfl

theorem lineAt_pad (full : Nat) : lineAt o (List.replicate full ⟨255, 0⟩ ++ rest) address line =
    lineAt o rest (address + 255 * full) line := by
  induction full generalizing address with
  | zero => rfl
  | succ full ih =>
    have hnext : address + 255 * (full + 1) = address + 255 + 255 * full := by omega
    rw [hnext, List.replicate_succ, List.cons_append]
    rcases Nat.lt_or_ge o (address + 255) with ho | ho
    · rw [lineAt_cons_of_lt ho, lineAt_of_lt (by omega)]
    · rw [lineAt_cons_of_le ho, ← ih]
      rfl

/-- A climb starts lines at one offset, 255 apart but for the last one. -/
theorem mem_starts_climbing (h0 : 0 < last) (hl : last ≤ 255) :
    p ∈ starts (climbing d last full ++ rest) address line ↔
      (p.1 = address + d ∧ line < p.2 ∧ p.2 ≤ line + (255 * full + last) ∧
        (p.2 = line + (255 * full + last) ∨ 255 ∣ p.2 - line)) ∨
        p ∈ starts rest (address + d) (line + (255 * full + last)) := by
  obtain ⟨x, y⟩ := p
  induction full generalizing d address line with
  | zero =>
    rw [climbing, List.singleton_append, mem_starts_cons, Prod.mk.injEq, Nat.mul_zero, Nat.zero_add]
    refine or_congr_left ?_
    dsimp only
    omega
  | succ full ih =>
    rw [climbing, List.cons_append, mem_starts_cons, ih, Prod.mk.injEq, Nat.add_zero, ← or_assoc]
    dsimp only
    rw [show line + 255 + (255 * full + last) = line + (255 * (full + 1) + last) by omega]
    refine or_congr_left ?_
    omega

theorem lineAt_climbing : lineAt o (climbing d last full ++ rest) address line =
    if o < address + d then line
    else lineAt o rest (address + d) (line + (255 * full + last)) := by
  induction full generalizing d address line with
  | zero => rw [climbing, List.singleton_append, lineAt, Nat.mul_zero, Nat.zero_add]
  | succ full ih =>
    rw [climbing, List.cons_append, lineAt, ih]
    split
    · rfl
    · rename_i ho
      rw [Nat.add_zero, if_neg ho]
      congr 1
      dsimp only
      omega

/-- An advance starts lines where it leads, 255 apart but for the last one. -/
theorem mem_starts_steps (hn : 0 < n) : p ∈ starts (steps d n ++ rest) address line ↔
    (p.1 = address + d ∧ line < p.2 ∧ p.2 ≤ line + n ∧ (p.2 = line + n ∨ 255 ∣ p.2 - line)) ∨
      p ∈ starts rest (address + d) (line + n) := by
  have hd : address + 255 * fullSteps d + (d - 255 * fullSteps d) = address + d := by
    unfold fullSteps
    omega
  have hlast : 0 < n - 255 * fullSteps n := by
    unfold fullSteps
    omega
  have hlines : 255 * fullSteps n + (n - 255 * fullSteps n) = n := by omega
  rw [steps, List.append_assoc, starts_pad, mem_starts_climbing hlast (sub_fullSteps_le n), hlines,
    hd]

theorem lineAt_steps (hn : 0 < n) : lineAt o (steps d n ++ rest) address line =
    if o < address + d then line else lineAt o rest (address + d) (line + n) := by
  have hd : address + 255 * fullSteps d + (d - 255 * fullSteps d) = address + d := by
    unfold fullSteps
    omega
  have hlines : 255 * fullSteps n + (n - 255 * fullSteps n) = n := by
    unfold fullSteps
    omega
  rw [steps, List.append_assoc, lineAt_pad, lineAt_climbing, hlines, hd]

/-! ### The steps for items -/

/-- The steps written when an instruction starts at `offset`: those that reach the line asked for,
if it lies beyond the line of the last entry. -/
def stepsAt (w : LineWriter) (offset : Nat) : List LineStep :=
  match w.pending with
  | none => []
  | some l => if l ≤ w.line then [] else steps (offset - w.offset) (l - w.line)

/-- The steps for items that start at `offset`. -/
def write (w : LineWriter) (offset : Nat) : List Item → List LineStep
  | [] => []
  | .line l :: rest => write { w with pending := some l } offset rest
  | .label _ :: rest => write w offset rest
  | .instruction op _ :: rest =>
    w.stepsAt offset ++ write (w.atInstruction #[] offset).2 (offset + op.width) rest

/-- What is added before an instruction is the bytes of its steps, and the writer goes on the same
way whatever the table is. -/
theorem atInstruction_eq (w : LineWriter) (table : Array UInt8) (offset : Nat) :
    (w.atInstruction table offset).1.toList =
        table.toList ++ (w.stepsAt offset).flatMap LineStep.bytes ∧
      (w.atInstruction table offset).2 = (w.atInstruction #[] offset).2 := by
  obtain ⟨line, address, pending⟩ := w
  unfold atInstruction stepsAt
  dsimp only
  cases pending with
  | none => exact ⟨(List.append_nil _).symm, rfl⟩
  | some l =>
    dsimp only
    split
    · exact ⟨(List.append_nil _).symm, rfl⟩
    · exact ⟨advance_eq _ _ _, rfl⟩

/-- The line of an instruction that starts now: the line of the last entry, or the one asked for if
that lies beyond it. -/
def reached (w : LineWriter) : Nat := w.pending.elim w.line (max w.line)

/-- At an instruction nothing is written if it stays on the line, or else an advance. -/
theorem write_instruction (w : LineWriter) (offset : Nat) (op : Opcode) (operand : Operand)
    (items : List Item) :
    (w.reached = w.line ∧ write w offset (.instruction op operand :: items) =
      write ⟨w.line, w.offset, none⟩ (offset + op.width) items) ∨
    (w.line < w.reached ∧ write w offset (.instruction op operand :: items) =
      steps (offset - w.offset) (w.reached - w.line) ++
        write ⟨w.reached, offset, none⟩ (offset + op.width) items) := by
  rw [write]
  unfold atInstruction stepsAt reached
  obtain ⟨line, address, pending⟩ := w
  cases pending with
  | none => exact .inl ⟨rfl, rfl⟩
  | some l =>
    dsimp only [Option.elim]
    split
    · rename_i hl
      exact .inl ⟨Nat.max_eq_left hl, rfl⟩
    · rename_i hl
      rw [Nat.max_eq_right (by omega)]
      exact .inr ⟨by omega, rfl⟩

theorem fits_write (w : LineWriter) (offset : Nat) (items : List Item) :
    ∀ s ∈ write w offset items, s.Fits := by
  induction items generalizing w offset with
  | nil => exact fun s hs => absurd hs List.not_mem_nil
  | cons item items ih =>
    cases item with
    | line l => exact ih _ offset
    | label l => exact ih w offset
    | instruction op operand =>
      intro s hs
      rcases w.write_instruction offset op operand items with ⟨-, he⟩ | ⟨-, he⟩
      · rw [he] at hs
        exact ih _ _ s hs
      · rw [he] at hs
        exact (List.mem_append.1 hs).elim (fits_steps _ _ s) (ih _ _ s)

variable {w : LineWriter} {items : List Item}

/-- No line advances before the instructions that are still to come. -/
theorem lineAt_write_of_lt (hw : w.offset ≤ offset) (ho : o < offset) :
    lineAt o (write w offset items) w.offset w.line = w.line := by
  induction items generalizing w offset with
  | nil => rfl
  | cons item items ih =>
    cases item with
    | line l => exact ih (w := { w with pending := some l }) hw ho
    | label l => exact ih hw ho
    | instruction op operand =>
      have hnext : offset ≤ offset + op.width := Nat.le_add_right _ _
      rcases w.write_instruction offset op operand items with ⟨-, he⟩ | ⟨hl, he⟩
      · rw [he]
        exact ih (w := ⟨w.line, w.offset, none⟩) (Nat.le_trans hw hnext)
          (Nat.lt_of_lt_of_le ho hnext)
      · rw [he, lineAt_steps (by omega), if_pos (by omega)]

theorem lineBefore_write_of_le (hw : w.offset ≤ offset) (ho : o ≤ offset) :
    lineBefore o (write w offset items) w.offset w.line = w.line := by
  unfold lineBefore
  split
  · rfl
  · exact lineAt_write_of_lt hw (by omega)

theorem lineBefore_steps (hn : 0 < n) : lineBefore o (steps d n ++ rest) address line =
    if o ≤ address + d then line else lineBefore o rest (address + d) (line + n) := by
  unfold lineBefore
  rw [lineAt_steps hn]
  split
  · rw [if_pos (by omega)]
  · split
    · rw [if_pos (by omega)]
    · rw [if_neg (by omega)]

/-- The lines started at an offset are those of a climb from the line before. -/
theorem mem_starts_write (hw : w.offset ≤ offset) :
    p ∈ starts (write w offset items) w.offset w.line ↔
      lineBefore p.1 (write w offset items) w.offset w.line < p.2 ∧
        p.2 ≤ lineAt p.1 (write w offset items) w.offset w.line ∧
          (p.2 = lineAt p.1 (write w offset items) w.offset w.line ∨
            255 ∣ p.2 - lineBefore p.1 (write w offset items) w.offset w.line) := by
  induction items generalizing w offset with
  | nil =>
    refine iff_of_false List.not_mem_nil ?_
    rintro ⟨hlt, hle, -⟩
    rw [write, lineBefore, lineAt] at hlt
    rw [write, lineAt] at hle
    split at hlt <;> omega
  | cons item items ih =>
    cases item with
    | line l => exact ih (w := { w with pending := some l }) hw
    | label l => exact ih hw
    | instruction op operand =>
      have hnext : offset ≤ offset + op.width := Nat.le_add_right _ _
      rcases w.write_instruction offset op operand items with ⟨-, he⟩ | ⟨hl, he⟩
      · rw [he]
        exact ih (w := ⟨w.line, w.offset, none⟩) (Nat.le_trans hw hnext)
      · generalize w.reached = l at hl he
        have hwidth := op.width_pos
        have hoff : w.offset + (offset - w.offset) = offset := by omega
        have hline : w.line + (l - w.line) = l := by omega
        have ih := ih (w := ⟨l, offset, none⟩) hnext
        have hat : p.1 < offset + op.width →
            lineAt p.1 (write ⟨l, offset, none⟩ (offset + op.width) items) offset l = l :=
          lineAt_write_of_lt (w := ⟨l, offset, none⟩) hnext
        have hbefore : p.1 ≤ offset + op.width →
            lineBefore p.1 (write ⟨l, offset, none⟩ (offset + op.width) items) offset l = l :=
          lineBefore_write_of_le (w := ⟨l, offset, none⟩) hnext
        dsimp only at ih
        rw [he, mem_starts_steps (by omega), lineAt_steps (by omega), lineBefore_steps (by omega),
          hoff, hline, ih]
        -- the advance is at the offset of the instruction, and the others are beyond it
        rcases Nat.lt_trichotomy p.1 offset with hp | hp | hp
        · rw [if_pos hp, if_pos (Nat.le_of_lt hp), hat (by omega), hbefore (by omega)]
          omega
        · rw [if_neg (Nat.not_lt.2 (Nat.le_of_eq hp.symm)), if_pos (Nat.le_of_eq hp),
            hat (by omega), hbefore (by omega)]
          omega
        · rw [if_neg (Nat.not_lt.2 (Nat.le_of_lt hp)), if_neg (Nat.not_le.2 hp)]
          omega

end LineWriter

end Resumable
