import Resumable.Proofs.Bytecode.EmittedLines
import Resumable.Proofs.Frame.Jumps

/-!
# Where a jump lands

A jump leads to the first line start at or beyond the line asked for.  The first line of the code is
started by no step of the line table, so whatever is asked for, a jump leads beyond it: it leads to
the first instruction that is on a line at or beyond the one asked for and beyond the first line.

The line shown for the frame then is that of the line start.  In built code this is the line of the
target, unless more than 255 lines lie between it and the line before.
-/

namespace Resumable

namespace CodeOf

variable {κ : Type} {c : CodeOf κ} {line o : Nat} {p : Nat × Nat}

/-- The first line start at or beyond a line. -/
def startFrom? (c : CodeOf κ) (line : Nat) : Option (Nat × Nat) :=
  c.lineStarts.find? fun (_, l) => line ≤ l

/-- It is a start of the least such line, and at the least offset. -/
theorem startFrom?_spec (h : c.startFrom? line = some p) :
    p ∈ c.lineStarts ∧ line ≤ p.2 ∧ ∀ q ∈ c.lineStarts, line ≤ q.2 → p.1 ≤ q.1 ∧ p.2 ≤ q.2 := by
  obtain ⟨hp, before, behind, heq, hb⟩ := List.find?_eq_some_iff_append.1 h
  have hs := c.lineStarts_sorted
  rw [heq, List.pairwise_append, List.pairwise_cons] at hs
  rw [heq]
  refine ⟨List.mem_append_right _ List.mem_cons_self, of_decide_eq_true hp, fun q hq hl => ?_⟩
  rcases List.mem_append.1 hq with hq | hq
  · have := hb q hq
    simp only [Bool.not_eq_true', decide_eq_false_iff_not] at this
    exact absurd hl this
  · rcases List.mem_cons.1 hq with rfl | hq
    · exact ⟨Nat.le_refl _, Nat.le_refl _⟩
    · exact (hs.2.1.1 q hq).imp_right Nat.le_of_lt

/-- The offsets on lines at or beyond a line, and beyond the first one, are those from the line
start on. -/
theorem le_lineForOffset_iff_of_startFrom? (h : c.startFrom? line = some p) :
    max line (c.firstLine + 1) ≤ c.lineForOffset o ↔ p.1 ≤ o := by
  obtain ⟨hp, hl, hleast⟩ := startFrom?_spec h
  have hfirst := firstLine_lt_of_mem hp
  constructor
  · intro ho
    rcases c.lineForOffset_eq_or o with he | ⟨q, hq, hqo, he⟩
    · omega
    · exact Nat.le_trans (hleast q hq (by omega)).1 hqo
  · intro ho
    have := (le_lineForOffset_iff hp).2 ho
    omega

theorem lineForOffset_lt_of_startFrom? (h : c.startFrom? line = none) (o : Nat) :
    c.lineForOffset o < max line (c.firstLine + 1) := by
  rcases c.lineForOffset_eq_or o with he | ⟨q, hq, -, he⟩
  · omega
  · have := List.find?_eq_none.1 h q hq
    simp only [decide_eq_true_eq] at this
    omega

end CodeOf

/-- In built code, an advance of the line is entered at the first of its starts: 255 lines, or a
multiple of them, from where it began, or where it ends. -/
theorem Assembler.line_of_startFrom? {a a' : Assembler} {ds : List Directive} {c : Code}
    {line o l : Nat} (ha : a.Fresh) (hr : (Assembly.assemble ds).run a = some ((), a'))
    (hb : a'.build = .ok c) (h : c.startFrom? line = some (o, l)) :
    l = min (c.lineForOffset o)
      (c.lineBefore o + 255 * ((line - (c.lineBefore o + 1)) / 255 + 1)) := by
  obtain ⟨hp, hl, hleast⟩ := CodeOf.startFrom?_spec h
  obtain ⟨hlt, hle, hstep⟩ := (mem_lineStarts_iff ha hr hb).1 hp
  rcases Nat.le_total (c.lineForOffset o)
    (c.lineBefore o + 255 * ((line - (c.lineBefore o + 1)) / 255 + 1)) with hm | hm
  · rw [Nat.min_eq_left hm]
    omega
  · -- the multiple is a start itself, and the start found is the least one
    have hle := (hleast (o, _)
      ((mem_lineStarts_iff ha hr hb).2 ⟨by omega, hm, .inr (by omega)⟩) (by dsimp only; omega)).2
    rw [Nat.min_eq_right hm]
    omega

namespace Frame

variable {f g : Frame} {line target l : Nat}

theorem jumpTarget?_eq_some_iff : f.jumpTarget? line = some (target, l) ↔
    f.code.body.startFrom? line = some (target, l) ∧ target < f.code.body.bytecode.length := by
  show (f.code.body.startFrom? line).filter _ = _ ↔ _
  rw [Option.filter_eq_some_iff, decide_eq_true_eq]

/-- Without a target, no instruction is on a line at or beyond the one asked for, the first line
apart. -/
theorem lt_of_jumpTarget?_eq_none {o : Nat} (h : f.jumpTarget? line = none)
    (ho : o < f.code.body.bytecode.length) :
    f.code.body.lineForOffset o < max line (f.code.body.firstLine + 1) := by
  cases hs : f.code.body.startFrom? line with
  | none => exact CodeOf.lineForOffset_lt_of_startFrom? hs o
  | some p =>
    refine Nat.not_le.1 fun hle => ?_
    have hp := (CodeOf.le_lineForOffset_iff_of_startFrom? hs).1 hle
    have := jumpTarget?_eq_some_iff.2 ⟨hs, Nat.lt_of_le_of_lt hp ho⟩
    rw [h] at this
    cases this

/-- **Where a jump lands.**  In built code, a jump leads to the first of the instructions on a line
at or beyond the one asked for and beyond the first line: they are all those from the target on, and
it finds none only if there is none.  The line shown is that of the target, unless the line advances
there by more than 255: then it may be one on the way, a multiple of 255 from the line before, that
is the first of these to reach the line asked for. -/
theorem jump_line {a a' : Assembler} {ds : List Directive} (ha : a.Fresh)
    (hr : (Assembly.assemble ds).run a = some ((), a')) (hb : a'.build = .ok f.code.body)
    (line : Nat) :
    (∀ g, f.jump line = .ok g → ∃ target, g.lastOffset = some target ∧
      f.code.body.isBoundary target = true ∧
      (∀ o, max line (f.code.body.firstLine + 1) ≤ f.code.body.lineForOffset o ↔ target ≤ o) ∧
      g.currentLine = min (f.code.body.lineForOffset target) (f.code.body.lineBefore target +
        255 * ((line - (f.code.body.lineBefore target + 1)) / 255 + 1))) ∧
    ∀ l, f.jump line = .error (.afterCode l) → ∀ o, f.code.body.isBoundary o = true →
      f.code.body.lineForOffset o < max line (f.code.body.firstLine + 1) := by
  constructor
  · intro g hg
    have hook : f.trace.hook.isSome = true := by
      by_contra hn
      unfold jump at hg
      rw [if_pos (by simpa using hn)] at hg
      cases hg
    obtain ⟨target, l, ht, -, -, rfl⟩ := jump_eq_ok rfl hg
    have hs := (jumpTarget?_eq_some_iff.1 ht).1
    refine ⟨target, rfl, isBoundary_of_jumpTarget? (Assembler.build_spec hb).1 ht,
      fun o => CodeOf.le_lineForOffset_iff_of_startFrom? hs, ?_⟩
    rw [← Assembler.line_of_startFrom? ha hr hb hs]
    exact if_pos hook
  · intro l hl o ho
    rcases f.jump_cases rfl line with ⟨e, he, -, hnone⟩ | ⟨target, l', ht, -, hmove⟩
    · cases hl.symm.trans he
      obtain ⟨i, -, hd⟩ := CodeOf.decode_of_isBoundary ho
      exact lt_of_jumpTarget?_eq_none (hnone l rfl) (Instruction.next_le_of_decode hd).1
    · split at hmove <;> cases hl.symm.trans hmove

end Frame

/-! ### A first line and a gap -/

/-- An instruction on each of the lines 1 and 601, and two on line 602. -/
def sparseLines : List Directive :=
  [.idle, .line 601, .idle, .line 602, .load .none, .returning]

/-- An assembler that was given nothing yet. -/
def sparseAssembler : Assembler where
  name := "sparse"
  firstLine := 1

/-- What these instructions leave. -/
def sparseAssembled : Assembler :=
  { sparseAssembler with
    bytecode := #[Opcode.nop.byte, Opcode.nop.byte, Opcode.loadConst.byte, 0, 0,
      Opcode.returnValue.byte]
    consts := [.none]
    lineTable := #[1, 255, 0, 255, 0, 90, 1, 1]
    writer := ⟨602, 2, none⟩ }

/-- The code that is built. -/
def sparseCode : CodeObject where
  identity := 1
  body :=
    { name := "sparse"
      bytecode := [Opcode.nop.byte, Opcode.nop.byte, Opcode.loadConst.byte, 0, 0,
        Opcode.returnValue.byte]
      consts := [.none]
      maxStack := 1
      flags := .function
      firstLine := 1
      lineTable := [1, 255, 0, 255, 0, 90, 1, 1] }

theorem sparseLines_run :
    (Assembly.assemble sparseLines).run sparseAssembler = some ((), sparseAssembled) := by
  cbv

theorem sparseAssembled_build : sparseAssembled.build = .ok sparseCode.body := by
  refine Assembler.build_eq_ok rfl rfl rfl ?_
  change sparseCode.body.validate = .ok ()
  cbv

/-- A frame of that code, within a hook. -/
def sparseFrame (offset line : Nat) : Frame where
  code := sparseCode
  globals := ⟨0⟩
  builtins := Heap.defaultBuiltins
  locals := .fast []
  cells := []
  stack := .empty 1
  lastOffset := some offset
  trace := { line, hook := some 0 }

theorem sparseFrame_jump : (sparseFrame 2 602).jump 1 = .ok (sparseFrame 1 256) := by
  cbv

/-- The jump to the first line leads to the next one, line 601, and shows line 256. -/
theorem sparseFrame_jump_first : ∃ g target, (sparseFrame 2 602).jump 1 = .ok g ∧
    g.lastOffset = some target ∧ (∀ o, 2 ≤ sparseCode.body.lineForOffset o ↔ target ≤ o) ∧
      sparseCode.body.lineForOffset target = 601 ∧ g.currentLine = 256 := by
  obtain ⟨target, hl, -, ho, hc⟩ := (Frame.jump_line (f := sparseFrame 2 602)
    ⟨rfl, rfl, rfl, rfl, rfl⟩ sparseLines_run sparseAssembled_build 1).1 _ sparseFrame_jump
  cases hl
  refine ⟨_, 1, sparseFrame_jump, rfl, ho, rfl, hc⟩

end Resumable
