import Resumable.Proofs.Bytecode.Emission

/-!
# Lines of emitted instructions

The line table of built code is read as it was written (`Assembler.lineSteps_of_build`), and the
lines that start in it are just those of the advances from one instruction to the next
(`Assembler.mem_lineStarts_iff`).

An instruction is on the line last asked for since the one before it, unless that is behind the line
of the one before it (`Assembly.linesFrom`).  Built code tells this line at every offset within the
instruction, however far the instructions and their lines are apart
(`Assembler.lineForOffset_of_build`): what a `LineWriter` writes is read as a single advance at the
offset of the instruction (`LineWriter.lineAt_steps`), also where its padding ends within an
instruction before it.
-/

namespace Resumable

/-- The lines of the instructions emitted, the first of which follows one on `line`, with the line
that was asked for since. -/
def Assembly.linesFrom (line : Nat) (asked : Option Nat) : List Directive → List Nat
  | [] => []
  | .line n :: ds => linesFrom line (some n) ds
  | .emit .. :: ds | .emitWith .. :: ds | .load _ :: ds | .jump .. :: ds =>
    let reached := asked.elim line (max line)
    reached :: linesFrom reached none ds
  | _ :: ds => linesFrom line asked ds

/-- The lines of the instructions emitted, in order. -/
def Assembly.lines (firstLine : Nat) (ds : List Directive) : List Nat := linesFrom firstLine none ds

namespace Assembly

theorem linesFrom_emitting {d : Directive} {op : Opcode} (hd : d.opcode? = some op) (line : Nat)
    (asked : Option Nat) (ds : List Directive) :
    linesFrom line asked (d :: ds) =
      asked.elim line (max line) :: linesFrom (asked.elim line (max line)) none ds := by
  cases d <;> cases hd <;> rfl

end Assembly

namespace LineWriter

open LineStep Assembly

variable {w : LineWriter} {offset o index : Nat} {d : Directive} {op : Opcode}

/-- **The line of an instruction is read back** at every offset within it, from where the writer
stands on. -/
theorem getElem?_linesFrom (hw : w.offset ≤ offset) (before after : List Directive)
    (hd : d.opcode? = some op) (ho : offset + offsetAfter before ≤ o)
    (hlt : o < offset + offsetAfter before + op.width) :
    (linesFrom w.line w.pending (before ++ d :: after))[(emitted before).length]? =
      some (lineAt o (write w offset (Directive.items index (before ++ d :: after)))
        w.offset w.line) := by
  induction before generalizing w offset index with
  | nil =>
    have hnext : offset ≤ offset + op.width := Nat.le_add_right _ _
    obtain ⟨operand, hitem⟩ := d.laid_of_opcode? index hd
    rw [List.nil_append, Directive.items, hitem, List.singleton_append, linesFrom_emitting hd]
    refine congrArg some ?_
    change w.reached = _
    change offset ≤ o at ho
    change o < offset + op.width at hlt
    -- the table is written up to this instruction only if a line beyond the last one is due
    rcases w.write_instruction offset op operand
      (Directive.items (index + d.pool.length) after) with ⟨hl, he⟩ | ⟨hl, he⟩
    · rw [he, hl]
      exact (lineAt_write_of_lt (w := ⟨w.line, w.offset, none⟩) (Nat.le_trans hw hnext) hlt).symm
    · rw [he, lineAt_steps (by omega), if_neg (by omega), Nat.add_sub_cancel' hw,
        Nat.add_sub_cancel' (Nat.le_of_lt hl)]
      exact (lineAt_write_of_lt (w := ⟨w.reached, offset, none⟩) hnext hlt).symm
  | cons e before ih =>
    cases he : e.opcode? with
    | none =>
      -- what emits nothing takes no room, and only `line` changes the line that is due
      have hoff : offsetAfter (e :: before) = offsetAfter before := by
        unfold offsetAfter
        rw [List.map_cons, List.sum_cons, Directive.width, he]
        exact Nat.zero_add _
      rw [hoff] at ho hlt
      cases e with
      | line n => exact ih (w := { w with pending := some n }) hw ho hlt
      | emit | emitWith | load | jump => cases he
      | _ => exact ih hw ho hlt
    | some first =>
      have hoff : offsetAfter (e :: before) = first.width + offsetAfter before := by
        unfold offsetAfter
        rw [List.map_cons, List.sum_cons, Directive.width, he]
        rfl
      have hindex : (emitted (e :: before)).length = (emitted before).length + 1 := by
        unfold emitted
        rw [List.filterMap_cons_some he, List.length_cons]
      rw [hoff, ← Nat.add_assoc] at ho hlt
      have hnext : offset ≤ offset + first.width := Nat.le_add_right _ _
      obtain ⟨operand, hitem⟩ := e.laid_of_opcode? index he
      rw [List.cons_append, Directive.items, hitem, List.singleton_append, linesFrom_emitting he,
        hindex, List.getElem?_cons_succ]
      change (linesFrom w.reached none _)[_]? = _
      -- the instruction in question lies behind this one, so that its line is the later one
      rcases w.write_instruction offset first operand
        (Directive.items (index + e.pool.length) (before ++ d :: after)) with ⟨hl, hs⟩ | ⟨hl, hs⟩
      · rw [hs, hl]
        exact ih (w := ⟨w.line, w.offset, none⟩) (Nat.le_trans hw hnext) ho hlt
      · rw [hs, lineAt_steps (by omega), if_neg (by omega), Nat.add_sub_cancel' hw,
          Nat.add_sub_cancel' (Nat.le_of_lt hl)]
        exact ih (w := ⟨w.reached, offset, none⟩) hnext ho hlt

end LineWriter

/-! ### Built code -/

/-- The line of the instruction before an offset, and the first line at the start. -/
def CodeOf.lineBefore {κ : Type} (c : CodeOf κ) (o : Nat) : Nat :=
  LineStep.lineBefore o c.lineSteps 0 c.firstLine

namespace Assembler

variable {a a' : Assembler} {c : Code} {ds : List Directive} {o l : Nat}

/-- The line table of built code is read as it was written. -/
theorem lineSteps_of_build (ha : a.Fresh) (hr : (Assembly.assemble ds).run a = some ((), a'))
    (hb : a'.build = .ok c) : c.firstLine = a.firstLine ∧ c.lineSteps =
      LineWriter.write ⟨a.firstLine, 0, none⟩ 0 (Directive.items a.consts.length ds) := by
  have hlaid := (Assembly.laid_assemble hr).2
  have hc := (build_inv hb).2.2
  have hsize : a.bytecode.size = 0 := by
    rw [ha.bytecode]
    rfl
  have htable : c.lineTable = (LineWriter.write ⟨a.firstLine, 0, none⟩ 0
      (Directive.items a.consts.length ds)).flatMap LineStep.bytes := by
    rw [congrArg CodeOf.lineTable hc]
    dsimp only
    rw [hlaid.lineTable, ha.lineTable, ha.writer, hsize]
    rfl
  refine ⟨(congrArg CodeOf.firstLine hc).trans hlaid.firstLine, ?_⟩
  unfold CodeOf.lineSteps
  rw [htable]
  exact LineStep.ofBytes_flatMap (LineWriter.fits_write _ _ _)

/-- **The line starts of built code**: an advance of the line at an offset starts its last line, and
all lines before it that are a multiple of 255 away from where it began. -/
theorem mem_lineStarts_iff (ha : a.Fresh) (hr : (Assembly.assemble ds).run a = some ((), a'))
    (hb : a'.build = .ok c) : (o, l) ∈ c.lineStarts ↔
      c.lineBefore o < l ∧ l ≤ c.lineForOffset o ∧
        (l = c.lineForOffset o ∨ 255 ∣ l - c.lineBefore o) := by
  obtain ⟨hf, hs⟩ := lineSteps_of_build ha hr hb
  unfold CodeOf.lineStarts CodeOf.lineBefore CodeOf.lineForOffset
  rw [hf, hs]
  exact LineWriter.mem_starts_write (w := ⟨a.firstLine, 0, none⟩) (Nat.le_refl 0)

/-- **The line of an emitted instruction** is told at every offset within it: that of the
instruction before it, at first the first line, or the line last asked for since then if that is
beyond it. -/
theorem lineForOffset_of_build {op : Opcode} {before after : List Directive} {d : Directive}
    (ha : a.Fresh) (hr : (Assembly.assemble (before ++ d :: after)).run a = some ((), a'))
    (hb : a'.build = .ok c) (hd : d.opcode? = some op) (ho : Assembly.offsetAfter before ≤ o)
    (hlt : o < Assembly.offsetAfter before + op.width) :
    (Assembly.lines a.firstLine (before ++ d :: after))[(Assembly.emitted before).length]? =
      some (c.lineForOffset o) := by
  obtain ⟨hfirst, hsteps⟩ := lineSteps_of_build ha hr hb
  unfold CodeOf.lineForOffset
  rw [hsteps, hfirst]
  exact LineWriter.getElem?_linesFrom (w := ⟨a.firstLine, 0, none⟩) (Nat.le_refl 0) before after hd
    (by omega) (by omega)

end Assembler

/-! ### Padding within an instruction -/

/-- What comes before offset 254, most of which is jumped over. -/
def distantStart : List Directive :=
  [.line 300, .jump .jumpForward "load" rfl] ++ List.replicate 251 .idle ++
    [.bind "load"]

/-- A constant is loaded at offset 254 and returned on a line far from the others, the second one
asked for. -/
def distantReturn : List Directive :=
  distantStart ++ .load .none :: [.line 900, .line 800, .returning]

/-- What these directives leave, with the jump to be patched. -/
def distantAssembled : Assembler :=
  { waitingAssembler with
    bytecode := #[Opcode.jumpForward.byte, 0, 0] ++ List.replicate 251 Opcode.nop.byte ++
      [Opcode.loadConst.byte, 0, 0, Opcode.returnValue.byte]
    consts := [.none]
    lineTable := #[0, 255, 0, 44, 255, 0, 2, 255, 0, 245]
    writer := ⟨800, 257, none⟩
    labels := [("load", 254)]
    fixups := #[(0, "load")] }

/-- The code that is built. -/
def distantCode : Code where
  name := "waiting"
  bytecode := [Opcode.jumpForward.byte, 251, 0] ++ List.replicate 251 Opcode.nop.byte ++
    [Opcode.loadConst.byte, 0, 0, Opcode.returnValue.byte]
  consts := [.none]
  maxStack := 1
  flags := .function
  firstLine := 1
  lineTable := [0, 255, 0, 44, 255, 0, 2, 255, 0, 245]

set_option maxRecDepth 20000 in
theorem distantReturn_run :
    (Assembly.assemble distantReturn).run waitingAssembler = some ((), distantAssembled) := by
  cbv

set_option maxRecDepth 4000 in
theorem distantAssembled_build : distantAssembled.build = .ok distantCode := by
  refine Assembler.build_eq_ok (by decide +kernel) (by decide +kernel) rfl ?_
  change distantCode.validate = .ok ()
  decide +kernel

/-- The padding ends within the load, all of which is on line 300. -/
theorem distantCode_line : distantCode.lineForOffset 255 = 300 := by
  have h := Assembler.lineForOffset_of_build (o := 255) waitingAssembler_fresh distantReturn_run
    distantAssembled_build rfl (by decide +kernel) (by decide +kernel)
  exact Option.some.inj (h.symm.trans (by decide +kernel))

end Resumable
