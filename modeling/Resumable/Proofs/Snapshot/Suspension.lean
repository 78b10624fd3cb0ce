import Resumable.Proofs.Machine.Alignment
import Resumable.Proofs.Snapshot.Restoring

/-!
# Suspended frames and their records

The record of a frame that was handed back fits its code in everything but its offsets
(`Frame.History.fits`), so it is restored exactly when instructions start where the frame executed
last and where the handlers of its live blocks start, and then the frame comes back as it was
(`Frame.History.restore_capture`).  A frame that only runs its own code executes instructions.  But
its handlers may start at the end of the code, where a jump may lead and no instruction starts, and
the record of a frame with such a block is refused.
-/

namespace Resumable

namespace Frame

variable {c : CodeObject} {f : Frame} {hooks : Prop} {allowed : Value → Prop}

/-- The frame without its hook and its caller, as it is restored. -/
def detached (f : Frame) : Frame :=
  { f with
    back := none
    trace := { f.trace with hook := none, line := f.currentLine } }

theorem values_capture (f : Frame) : f.capture.values = f.stack.toList :=
  FrameRecord.values_of_stack rfl

theorem length_stack_capture (f : Frame) : f.capture.stack.length = f.stack.depth := by
  show (f.stack.toList.map some).length = f.stack.depth
  rw [List.length_map, OperandStack.length_toList]

/-- The locals of a frame that fits are recorded as its code asks for. -/
theorem localsFit_capture (hf : f.Fits hooks c) : f.capture.LocalsFit := by
  have hl := hf.locals
  have hc := hf.code
  unfold FrameRecord.LocalsFit capture
  cases hlocals : f.locals with
  | fast slots =>
    rw [hlocals] at hl
    rw [hc]
    exact hl
  | dict names =>
    rw [hlocals] at hl
    obtain ⟨ho, hn⟩ := hl
    dsimp only
    rw [hc]
    by_cases hg : names = f.globals
    · rw [if_pos hg]
      refine ⟨ho, ?_⟩
      rcases hn with ⟨-, hne⟩ | ⟨hn, -⟩
      · exact absurd hg hne
      · exact hn
    · rw [if_neg hg]
      refine ⟨ho, ?_⟩
      rcases hn with ⟨hn, -⟩ | ⟨-, he⟩
      · exact hn
      · exact absurd he hg

/-- The frame recorded is the frame that was captured. -/
theorem frame_capture (hf : f.Fits hooks c) : f.capture.frame = f.detached := by
  have hs : f.capture.frame.stack = f.stack := by
    refine OperandStack.ext ?_ ?_
    · show f.capture.values.reverse = f.stack.slots
      rw [values_capture, OperandStack.toList, List.reverse_reverse]
    · show f.code.body.maxStack = f.stack.capacity
      rw [hf.capacity, hf.code]
  have ho : f.capture.frame.lastOffset = f.lastOffset := by
    show (if f.capture.lastOffset = -1 then none else some f.capture.lastOffset.toNat) =
      f.lastOffset
    unfold capture
    cases f.lastOffset with
    | none => rfl
    | some o =>
      have hne : (o : Int) ≠ -1 := by omega
      exact if_neg hne
  have hl : f.capture.frame.locals = f.locals := by
    show f.capture.liveLocals = f.locals
    unfold FrameRecord.liveLocals capture
    cases f.locals with
    | fast slots => rfl
    | dict names =>
      by_cases hg : names = f.globals
      · simp [hg]
      · simp [hg]
  have hb : f.capture.frame.blocks = f.blocks := List.reverse_reverse _
  calc f.capture.frame
      = { f.detached with
          stack := f.capture.frame.stack
          lastOffset := f.capture.frame.lastOffset
          locals := f.capture.frame.locals
          blocks := f.capture.frame.blocks } := rfl
    _ = f.detached := by
      rw [hs, ho, hl, hb]
      rfl

/-- A record is only restored if an instruction starts where the frame executed last. -/
theorem isBoundary_of_restorable (hf : f.Fits hooks c) (hr : f.capture.Restorable) {o : Nat}
    (hl : f.lastOffset = some o) : c.body.isBoundary o = true := by
  have ho := hr.offset
  have hcode : f.capture.code = c := hf.code
  have hlast : f.capture.lastOffset = o := by
    unfold capture
    rw [hl]
  rw [hcode, hlast] at ho
  exact (ho.resolve_left (by omega)).2

/-- What a frame that fits must be like for its record to be restored. -/
theorem restorable_capture_iff (hf : f.Fits hooks c)
    (hn : f.blocks.Pairwise fun inner b => b.depth ≤ inner.depth)
    (hd : ∀ b ∈ f.blocks, b.depth ≤ f.stack.depth) :
    f.capture.Restorable ↔ (∀ o, f.lastOffset = some o → c.body.isBoundary o = true) ∧
      ∀ b ∈ f.blocks, c.body.isBoundary b.handler = true := by
  have hcode : f.capture.code = c := hf.code
  have hblocks : f.capture.blocks = f.blocks.reverse := rfl
  constructor
  · intro hr
    have hh := hr.handlers
    rw [hcode, hblocks] at hh
    exact ⟨fun o hl => isBoundary_of_restorable hf hr hl, fun b hb => hh b (List.mem_reverse.2 hb)⟩
  · rintro ⟨ho, hh⟩
    exact
      { version := rfl
        cells := by
          rw [hcode]
          exact hf.cells
        offset := by
          rw [hcode]
          unfold capture
          cases hl : f.lastOffset with
          | none => exact .inl rfl
          | some o => exact .inr ⟨Int.natCast_nonneg o, ho o hl⟩
        filled := by
          rw [values_capture]
          rfl
        room := by
          rw [length_stack_capture, hcode]
          exact hf.depth
        handlers := fun b hb => by
          rw [hcode]
          exact hh b (List.mem_reverse.1 hb)
        depths := fun b hb => by
          rw [length_stack_capture]
          exact hd b (List.mem_reverse.1 hb)
        nested := List.pairwise_reverse.2 hn
        locals := localsFit_capture hf }

/-- **Suspending, recording and restoring.**  The record of a frame that was handed back, whose
blocks are nested below its stack, is restored exactly when instructions start where the frame
executed last and at its handlers, and it is then restored as it was.  If nothing leads the frame
astray, the record is refused exactly when a live handler starts at the end of the code. -/
theorem History.restore_capture {a : Assembler} (hb : a.build = .ok c.body)
    (hf : History allowed hooks c f)
    (hn : f.blocks.Pairwise fun inner b => b.depth ≤ inner.depth)
    (hd : ∀ b ∈ f.blocks, b.depth ≤ f.stack.depth) :
    ((∃ g, f.capture.restore = .ok g) ↔
        (∀ o, f.lastOffset = some o → c.body.isBoundary o = true) ∧
          ∀ b ∈ f.blocks, c.body.isBoundary b.handler = true) ∧
      (∀ g, f.capture.restore = .ok g → g = f.detached) ∧
      ((∀ v, allowed v → c.body.Guides v) →
        (hooks → c.body.bytecode.length ≤ farthestOffset) →
        ((∃ g, f.capture.restore = .ok g) ↔
          ∀ b ∈ f.blocks, b.handler ≠ c.body.bytecode.length)) := by
  have hfit := hf.fits
  have hr := restorable_capture_iff hfit hn hd
  have hrestore : (∃ g, f.capture.restore = .ok g) ↔ f.capture.Restorable :=
    ⟨fun ⟨g, hg⟩ => (FrameRecord.restore_eq_ok_iff.1 hg).1,
      fun h => ⟨_, FrameRecord.restore_eq_ok_iff.2 ⟨h, rfl⟩⟩⟩
  refine ⟨hrestore.trans hr, fun g hg => ?_, fun hal hlen => ?_⟩
  · rw [← frame_capture hfit]
    exact (FrameRecord.restore_eq_ok_iff.1 hg).2
  · obtain ⟨hlast, hhandlers⟩ := hf.anchored (Assembler.build_spec hb).1 hlen hal
    rw [hrestore, hr]
    constructor
    · rintro ⟨-, hh⟩ b hm he
      obtain ⟨i, -, hdec⟩ := CodeOf.decode_of_isBoundary (hh b hm)
      have hlt := (Instruction.next_le_of_decode hdec).1
      omega
    · intro hne
      exact ⟨hlast, fun b hm => (hhandlers b hm).resolve_left (hne b hm)⟩

end Frame

/-! ### A loop that ends with the code -/

/-- A generator body that yields in a loop whose end is the end of the code. -/
def yieldingLoop : Assembler where
  name := "looping"
  firstLine := 1
  flags := .generatorBody
  consts := [.none]
  bytecode := #[Opcode.setupLoop.byte, 0, 0, Opcode.loadConst.byte, 0, 0,
    Opcode.yieldValue.byte, Opcode.returnValue.byte]
  labels := [("end", 8)]
  fixups := #[(0, "end")]

/-- The code object of the generator body. -/
def loopCode : CodeObject where
  identity := 1
  body :=
    { name := "looping"
      bytecode := [Opcode.setupLoop.byte, 5, 0, Opcode.loadConst.byte, 0, 0,
        Opcode.yieldValue.byte, Opcode.returnValue.byte]
      consts := [.none]
      maxStack := 1
      flags := .generatorBody
      firstLine := 1 }

theorem yieldingLoop_build : yieldingLoop.build = .ok loopCode.body := by
  refine Assembler.build_eq_ok rfl rfl rfl ?_
  change loopCode.body.validate = .ok ()
  cbv

/-- A frame about to run the body for the first time. -/
def loopFrame : Frame where
  code := loopCode
  globals := ⟨0⟩
  builtins := Heap.defaultBuiltins
  locals := .fast []
  cells := []
  stack := .empty 1
  trace := { line := 1 }

/-- That frame when it has executed the instruction at an offset, with the loop live. -/
def loopFrameAt (offset : Nat) (stack : OperandStack) : Frame :=
  { loopFrame with
    stack
    blocks := [⟨.loop, 8, 0⟩]
    lastOffset := some offset
    trace := { line := 1, lower := 0, upper := Frame.farthestOffset, previous := offset } }

/-- Four steps of the machine bring the frame to its yield. -/
theorem loopFrame_history :
    Frame.History loopCode.body.Guides False loopCode (loopFrameAt 6 (.empty 1)) := by
  have hc : Frame.create loopCode ⟨0⟩ Heap.defaultBuiltins [] .initial =
    .ok (loopFrame, .initial) := rfl
  have guided : ∀ v ∈ [Value.none], loopCode.body.Guides v := by
    intro v hv
    rw [List.mem_singleton.1 hv]
    nofun
  have entered : Machine.Carries Host.silent [] (loopFrame.entry .outside) loopCode.body.Guides
      (Machine.idle.enter Host.silent loopFrame none none .outside)
      (.running loopFrame (.start none) 0) loopFrame (.starting none) :=
    .entered (.innermost ⟨rfl, rfl⟩) nofun
  have started := entered.running loopFrame (.before 0) rfl rfl nofun rfl
  have looping := started.running (loopFrameAt 0 (.empty 1)) (.before 3) rfl rfl nofun rfl
  have loaded := looping.running (loopFrameAt 3 ⟨[.none], 1, 1, rfl⟩) (.before 6) rfl rfl guided rfl
  have yielded := loaded.running (loopFrameAt 6 (.empty 1)) (.leaving (.ok (.yielded .none)))
    rfl rfl nofun rfl
  exact .resumed (m := .idle) False.elim (.created (by decide) hc) (.inl rfl) yielded

/-- The record of that frame is refused: its loop ends where no instruction starts. -/
theorem loopFrame_refused :
    ¬∃ g, (loopFrameAt 6 (.empty 1)).capture.restore = .ok g := by
  obtain ⟨-, -, hr⟩ := Frame.History.restore_capture yieldingLoop_build loopFrame_history
    (List.pairwise_singleton _ _) (by decide)
  rw [hr (fun _ hv => hv) False.elim]
  decide

end Resumable
