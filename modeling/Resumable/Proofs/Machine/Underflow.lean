import Resumable.Proofs.Machine.StackBound

/-!
# Frames that find their operands

The walk of `StackDepth` refuses a path on which the effects of the instructions lead below the
bottom of the stack.  That an instruction finds its operands it makes sure of only where they are
dropped (`Path.supplies_of_drops`): it accepts code that copies the top of an empty stack
(`copyingFrame_underflows`).

Code is `CodeOf.Supplied` if on every path the other instructions find their operands too, and none
takes any from below the innermost open block.  On such code the walk is exact.  A frame is
`Frame.Level` with a path if its stack is just as deep as the path says, and its live blocks were
entered exactly as deep as those open on the path, each at least as deep as the one around it
(`Block.Nested`).  Every move keeps a frame level (`Frame.Levelled.moves`), and a frame that is
level does not fail for want of a value (`Frame.Driven.never_underflows`).
-/

namespace Resumable

namespace Path

/-- The depth at which the innermost open block was opened. -/
def base (p : Path) : Int := (p.blocks.head?.map WalkedBlock.depth).getD 0

/-- At the end of the path there are the values that an instruction needs, and those it takes are
not below the innermost open block. -/
def Supplies (p : Path) (i : Instruction) : Prop :=
  p.base + i.takes ≤ p.depth ∧ i.needs ≤ p.depth

instance (p : Path) (i : Instruction) : Decidable (p.Supplies i) :=
  inferInstanceAs (Decidable (_ ∧ _))

end Path

/-- The instruction takes values and leaves none.  `input` says that a yield is followed by a value
that is sent. -/
def Instruction.drops (input : Bool) (i : Instruction) : Bool :=
  match i.opcode with
  | .popTop | .storeName | .storeGlobal | .storeFast | .storeDeref | .endFinally => true
  | .yieldValue => !input
  | _ => false

namespace Path

variable {input : Bool} {i : Instruction} {p q : Path} {ps : List Path}

theorem depth_nonneg_of_onward {later : List Path} (h : q.onward i later = .ok ps) :
    0 ≤ q.depth := by
  unfold onward at h
  split at h
  · cases h
  · rename_i hq
    exact Int.not_lt.1 hq

/-- Outside of blocks the walk leads on from an instruction that drops values only if they are
there. -/
theorem supplies_of_drops (hop : i.drops input = true) (hb : p.blocks = [])
    (h : p.advance input i = .ok ps) : p.Supplies i := by
  have hbase : p.base = 0 := by
    rw [base, hb]
    rfl
  obtain ⟨o, op, arg⟩ := i
  unfold Supplies
  rw [hbase]
  cases op <;> first
    | cases hop; done
    | skip
  case yieldValue =>
    cases input with
    | true => cases hop
    | false =>
      have hdepth : 0 ≤ p.depth - 1 := depth_nonneg_of_onward h
      simp only [Instruction.needs, Instruction.takes]
      omega
  all_goals
    have hdepth := depth_nonneg_of_onward h
    simp only [Instruction.needs, Instruction.takes, Opcode.stackEffect] at hdepth ⊢
    omega

end Path

/-- On every path of the walk the instructions find their operands.  For those that drop values
outside of blocks the walk sees to that itself. -/
def CodeOf.Supplied {κ : Type} (c : CodeOf κ) : Prop :=
  ∀ p i, c.Walked p → Instruction.decode c.bytecode p.offset = .ok i →
    ¬(i.drops c.flags.acceptsInput = true ∧ p.blocks = []) → p.Supplies i

section

variable {κ : Type} {c : CodeOf κ}

/-- It can be checked on the paths that instructions find their operands. -/
theorem CodeOf.Supplied.of_paths (ps : List Path) (h0 : ⟨0, 0, []⟩ ∈ ps)
    (hc : ∀ p ∈ ps, ∀ q ∈ StackDepth.following c.flags.acceptsInput c.bytecode p, q ∈ ps)
    (hs : ∀ p ∈ ps, ∀ i ∈ (Instruction.decode c.bytecode p.offset).toOption,
      ¬(i.drops c.flags.acceptsInput = true ∧ p.blocks = []) → p.Supplies i) : c.Supplied := by
  intro p i hp hd
  refine hs p (hp.mem_of_closed h0 hc) i ?_
  rw [hd]
  rfl

theorem CodeOf.Measured.supplies {p : Path} {i : Instruction} (hm : c.Measured) (hs : c.Supplied)
    (hp : c.Walked p) (hd : Instruction.decode c.bytecode p.offset = .ok i) : p.Supplies i := by
  by_cases h : i.drops c.flags.acceptsInput = true ∧ p.blocks = []
  · obtain ⟨ps, ha, -⟩ := hm.leads hp hd
    exact Path.supplies_of_drops h.1 h.2 ha
  · exact hs p i hp hd h

end

/-- The live blocks are those open on a path, and were entered exactly as deep.  Each is entered at
least as deep as the one around it, and none deeper than `floor`. -/
inductive Block.Nested (W : Path → Prop) : Int → List Block → List WalkedBlock → Prop
  | nil {floor : Int} (hf : 0 ≤ floor) : Nested W floor [] []
  | cons {floor : Int} {b : Block} {outer : List Block} {wb : WalkedBlock}
      {opened : List WalkedBlock} (hk : wb.setup = b.kind.setup) (hd : (b.depth : Int) = wb.depth)
      (hf : (b.depth : Int) ≤ floor) (hh : W ⟨b.handler, wb.depth + b.kind.values, opened⟩)
      (ho : Nested W b.depth outer opened) : Nested W floor (b :: outer) (wb :: opened)

namespace Block.Nested

variable {W : Path → Prop} {floor floor' : Int} {bs : List Block} {p : Path}

/-- The blocks are entered no deeper than the path says of the innermost one. -/
theorem lower (h : Nested W floor bs p.blocks) (hf : p.base ≤ floor') :
    Nested W floor' bs p.blocks := by
  unfold Path.base at hf
  generalize p.blocks = wbs at h hf
  cases h with
  | nil _ => exact .nil hf
  | cons hk hd _ hh ho => exact .cons hk hd (hd.trans_le hf) hh ho

theorem mono {wbs : List WalkedBlock} (h : Nested W floor bs wbs) (hf : floor ≤ floor') :
    Nested W floor' bs wbs := by
  cases h with
  | nil h0 => exact .nil (h0.trans hf)
  | cons hk hd hle hh ho => exact .cons hk hd (hle.trans hf) hh ho

theorem base_le (h : Nested W floor bs p.blocks) : p.base ≤ floor := by
  unfold Path.base
  generalize p.blocks = wbs at h
  cases h with
  | nil hf => exact hf
  | cons _ hd hf _ _ => exact hd.symm.trans_le hf

theorem base_nonneg (h : Nested W floor bs p.blocks) : 0 ≤ p.base := by
  unfold Path.base
  generalize p.blocks = wbs at h
  cases h with
  | nil _ => exact Int.le_refl 0
  | cons _ hd _ _ _ =>
    rw [List.head?_cons, Option.map_some, Option.getD_some, ← hd]
    exact Int.natCast_nonneg _

end Block.Nested

/-- The values an unwinding instruction leaves. -/
theorem Instruction.Unwinds.takes {i : Instruction} {f g : Frame} {reason : Unwind Value}
    (h : i.Unwinds f reason g) : (f.stack.depth : Int) ≤ g.stack.depth + i.takes := by
  cases h with
  | endFinally hop _ hd =>
    have hg := hd.depth
    have hn : i.takes = 3 := i.takes_of_opcode hop
    omega
  | breakLoop _ => omega
  | continueLoop _ => omega
  | returnValue hop hd =>
    have hg := hd.depth
    have hn : i.takes = 1 := i.takes_of_opcode hop
    omega

theorem BlockKind.setup_eq_setupFinally {k : BlockKind} :
    k.setup = .setupFinally ↔ k = .cleanup := by
  cases k <;> decide

theorem LimitError.not_underflow (e : LimitError) : e.toFailure ≠ .fatal .stackUnderflow := by
  cases e <;> nofun

namespace Frame

variable {c : CodeObject} {f g : Frame} {o : Nat} {more : Int}

/-- At offset `o`, with `more` values still to come, the frame is as deep as a path of the walk, and
nothing below its blocks is missing. -/
def Level (c : Code) (f : Frame) (o : Nat) (more : Int) : Prop :=
  ∃ p, c.Walked p ∧ p.offset = o ∧ f.stack.depth + more = p.depth ∧
    Block.Nested c.Walked (f.stack.depth + min more 0) f.blocks p.blocks

/-- A frame is level wherever it may go on from a standing.  Where an exception is raised first, the
value that a yield takes up may be missing, but nothing below the blocks. -/
def Levelled (c : Code) (f : Frame) : Standing → Prop
  | .starting none => ∃ o, f.resumeOffset = .ok o ∧ f.Level c o 0
  | .starting (some _) => ∃ p : Path, Block.Nested c.Walked f.stack.depth f.blocks p.blocks
  | .before o => f.Level c o 0
  | .leaving (.ok (.yielded _)) => ∃ o i, f.lastOffset = some o ∧
      Instruction.decode c.bytecode o = .ok i ∧
      f.Level c i.next (if c.flags.acceptsInput then 1 else 0)
  | .leaving _ => True
  | .calling site => f.Level c site.next 1
  | .looping site => f.Level c site.next 1 ∧ f.Level c site.target (-1)

/-- Where a move leads: the frame is level there, and if it leaves for want of a value, that failure
was handed to it. -/
def Sound (c : Code) (given : Option Failure) (p : Frame × Standing) : Prop :=
  p.1.Levelled c p.2 ∧
    (p.2 = .leaving (.error (.fatal .stackUnderflow)) → given = some (.fatal .stackUnderflow))

/-! ### Unwinding -/

theorem depth_cutTo {b : Block} (hf : b.depth ≤ f.stack.depth) :
    (f.cutTo b).stack.depth = b.depth := by
  rw [cutTo, OperandStack.depth_truncate]
  exact Nat.min_eq_right hf

/-- A handler finds its values right above where its block was entered. -/
theorem handle_handled {b : Block} {reason : Unwind Value} (hr : ∀ t, reason ≠ .continuing t)
    (hf : b.depth ≤ f.stack.depth) {target : Nat} (hu : f.handle b reason = (g, .handled target)) :
    target = b.handler ∧ g.blocks = f.blocks ∧ g.stack.depth = b.depth + b.kind.values := by
  -- a loop is left with nothing pushed, and any other block with the values for its handler
  by_cases hk : b.kind = .loop
  · have he : f.handle b reason = (f.cutTo b, .handled b.handler) := by
      unfold handle
      rw [hk]
      cases reason with
      | continuing t => exact absurd rfl (hr t)
      | _ => rfl
    rw [he] at hu
    cases hu
    rw [hk]
    exact ⟨rfl, rfl, depth_cutTo hf⟩
  · have he : f.handle b reason = f.startHandler b reason := by
      unfold handle
      split <;> simp_all
    rw [he] at hu
    unfold startHandler at hu
    dsimp only at hu
    cases hp : ((f.cutTo b).stack.pushAll (handlerValues reason)).1 with
    | error e =>
      rw [hp] at hu
      cases hu
    | ok u =>
      have hd := OperandStack.pushAll_eq_ok hp
      rw [length_handlerValues, depth_cutTo hf] at hd
      rw [hp] at hu
      cases hu
      rw [values_of_ne_loop hk]
      exact ⟨rfl, rfl, hd⟩

/-- An unwinding cuts the stack exactly to the block that stops it. -/
theorem unwindThrough_level {W : Path → Prop} {reason : Unwind Value}
    (hr : ∀ t, reason ≠ .continuing t) {floor : Int} {bs : List Block} {wbs : List WalkedBlock}
    (hb : Block.Nested W floor bs wbs) {f g : Frame} (hf : floor ≤ f.stack.depth) {target : Nat}
    (hu : unwindThrough reason bs f = (g, .handled target)) :
    ∃ p, W p ∧ p.offset = target ∧ (g.stack.depth : Int) = p.depth ∧
      Block.Nested W g.stack.depth g.blocks p.blocks := by
  induction hb generalizing f with
  | nil _ => cases hu
  | @cons floor b outer wb opened hk hd hle hh ho ih =>
    have hdepth : b.depth ≤ ({ f with blocks := outer } : Frame).stack.depth :=
      Int.ofNat_le.1 (hle.trans hf)
    unfold unwindThrough at hu
    split at hu
    · obtain ⟨rfl, hblocks, hg⟩ := handle_handled hr hdepth hu
      refine ⟨_, hh, rfl, ?_, ?_⟩
      · rw [hg]
        dsimp only
        omega
      · rw [hblocks, hg]
        exact ho.mono (by omega)
    · exact ih (by rw [depth_cutTo hdepth]) hu

variable {given : Option Failure}

theorem failing_sound (f : Frame) {e : Failure}
    (he : e = .fatal .stackUnderflow → given = some (.fatal .stackUnderflow)) :
    Sound c.body given (f.failing e) := by
  refine ⟨trivial, fun h => ?_⟩
  cases h
  exact he rfl

theorem before_sound (h : f.Level c.body o 0) : Sound c.body given (f, .before o) :=
  ⟨h, nofun⟩

/-- An exception is handled where the frame is level, or leaves the frame. -/
theorem raising_sound {p : Path} (hb : Block.Nested c.body.Walked f.stack.depth f.blocks p.blocks)
    (e : Raised) (offset : Nat) : Sound c.body given (f.raising e offset) := by
  unfold raising
  dsimp only
  cases hu : f.unwind (.raising (e.through ⟨f.code.body.name, f.code.body.lineForOffset offset,
    offset⟩)) with
  | mk g u =>
    obtain ⟨-, hs⟩ := unwind_spec hu
    cases u with
    | handled target =>
      obtain ⟨q, hq, ho, hd, hn⟩ :=
        unwindThrough_level (fun _ h => by cases h) hb (Int.le_refl _) hu
      exact before_sound ⟨q, hq, ho, (Int.add_zero _).trans hd,
        hn.mono (Int.le_of_eq (Int.add_zero _).symm)⟩
    | faulted fault =>
      obtain ⟨rfl, -⟩ := hs
      exact failing_sound _ nofun
    | unhandled => exact failing_sound _ nofun

theorem failingAt_sound {p : Path}
    (hb : Block.Nested c.body.Walked f.stack.depth f.blocks p.blocks) (offset : Nat) {e : Failure}
    (he : e = .fatal .stackUnderflow → given = some (.fatal .stackUnderflow)) :
    Sound c.body given (f.failingAt offset e) := by
  cases e with
  | raised e => exact raising_sound hb e offset
  | fatal e => exact failing_sound f he
  | uncatchable e => exact failing_sound f he

theorem resumed_sound {site : Instruction} (hw : f.Level c.body site.next 1) (v : Value) :
    Sound c.body given (f.resumed v site) := by
  obtain ⟨p, hp, ho, hd, hb⟩ := hw
  unfold resumed
  cases hpush : f.stack.push v with
  | error e =>
    obtain ⟨-, rfl⟩ := OperandStack.push_eq_error_iff.1 hpush
    exact failing_sound f nofun
  | ok s =>
    have hs := OperandStack.depth_push hpush
    refine before_sound ⟨p, hp, ho, ?_, hb.mono ?_⟩
    · simp only [hs]
      omega
    · simp only [hs]
      omega

/-- The generator of an exhausted loop is there to be popped. -/
theorem exhausted_sound {site : Instruction} (hw : f.Level c.body site.target (-1)) :
    Sound c.body given (f.exhausted site) := by
  obtain ⟨p, hp, ho, hd, hb⟩ := hw
  have hbase := hb.base_nonneg.trans hb.base_le
  unfold exhausted
  cases hpop : f.stack.pop with
  | error e =>
    have hdepth := OperandStack.depth_of_pop_eq_error hpop
    omega
  | ok r =>
    have hdepth := (Drift.pop hpop).depth
    dsimp only at hdepth
    refine before_sound ⟨p, hp, ho, ?_, hb.mono ?_⟩
    · dsimp only
      omega
    · dsimp only
      omega

theorem failingLoop_sound {site : Instruction} (hw : f.Level c.body site.target (-1)) {e : Failure}
    (he : e = .fatal .stackUnderflow → given = some (.fatal .stackUnderflow)) :
    Sound c.body given (f.failingLoop site e) := by
  unfold failingLoop
  split
  · exact exhausted_sound hw
  · obtain ⟨p, -, -, -, hb⟩ := hw
    exact failingAt_sound (hb.mono (by omega)) site.offset he

/-- What comes from the frame above leaves the frame level, or is the failure it leaves with. -/
theorem answered_sound {s : Standing} (hs : s.control? = none) (hp : f.Levelled c.body s)
    (result : Except Failure FrameExit) :
    Sound c.body (match result with | .ok _ => none | .error e => some e)
      (f.answered s result) := by
  cases s with
  | starting _ => cases hs
  | before _ => cases hs
  | leaving _ => cases hs
  | calling site =>
    obtain ⟨p, hw, ho, hd, hb⟩ := hp
    have hraise : Block.Nested c.body.Walked f.stack.depth f.blocks p.blocks := hb.mono (by omega)
    match result with
    | .ok (.returned v) => exact resumed_sound ⟨p, hw, ho, hd, hb⟩ v
    | .ok (.yielded v) => exact failingAt_sound hraise _ nofun
    | .error e => exact failingAt_sound hraise _ fun h => congrArg some h
  | looping site =>
    match result with
    | .ok (.returned v) => exact exhausted_sound hp.2
    | .ok (.yielded v) => exact resumed_sound hp.1 v
    | .error e => exact failingLoop_sound hp.2 fun h => congrArg some h

/-! ### Executing on a level frame -/

/-- Leaving a block cuts the stack exactly to where it was entered. -/
theorem depth_leaveBlock {b : Block} (hf : b.depth ≤ f.stack.depth)
    (hok : (f.leaveBlock b).1 = .ok ()) :
    (f.leaveBlock b).2.stack.depth = b.depth + if b.kind = .cleanup then 3 else 0 := by
  unfold leaveBlock at hok ⊢
  by_cases hk : b.kind = .cleanup
  · simp only [hk, if_true] at hok ⊢
    rw [OperandStack.pushAll_eq_ok hok, depth_cutTo hf]
    rfl
  · simp only [hk, if_false] at hok ⊢
    exact depth_cutTo hf

section Executing

variable {i : Instruction} {current : Option Raised} {h : Heap} {flow : Flow} {l : Local}

theorem depth_of_popBlock {b : Block} {outer : List Block} (hop : i.opcode = .popBlock)
    (hb : f.blocks = b :: outer) (hf : b.depth ≤ f.stack.depth)
    (hx : (Exec.execute current i).run ⟨f, h⟩ = .ok flow l) :
    l.frame.stack.depth = b.depth + if b.kind = .cleanup then 3 else 0 := by
  obtain ⟨o, op, arg⟩ := i
  subst hop
  have hpop : f.popBlock = .ok (b, { f with blocks := outer }) := by
    simp only [popBlock, hb]
  rw [Exec.run_popBlock, hpop] at hx
  dsimp only at hx
  cases hok : (leaveBlock { f with blocks := outer } b).1 with
  | error e =>
    rw [hok] at hx
    cases hx
  | ok u =>
    rw [hok] at hx
    cases hx
    exact depth_leaveBlock (f := { f with blocks := outer }) hf hok

/-- Where an instruction that finds its operands leads from a level frame. -/
theorem Level.follows (hm : c.body.Measured) (hs : c.body.Supplied)
    (hd : Instruction.decode c.body.bytecode o = .ok i) (hw : f.Level c.body o 0)
    (hlast : f.lastOffset = some o) (ha : ∀ t, .suspended (.continuing t) ∉ f.stack.slots)
    (he : Exec.Effect i f flow g)
    (hclose : ∀ b outer, i.opcode = .popBlock → f.blocks = b :: outer → b.depth ≤ f.stack.depth →
      g.stack.depth = b.depth + if b.kind = .cleanup then 3 else 0)
    {q : Frame × Standing} (hf : Follows h i g flow given q) : Sound c.body given q := by
  obtain ⟨p, hp, rfl, hdepth, hb⟩ := hw
  have hi := ((hm.target hp).isBoundary hd).2
  obtain ⟨ps, hadv, hps⟩ := hm.leads hp hd
  obtain ⟨htakes, -⟩ := hm.supplies hs hp hd
  have hlast' : g.lastOffset = some p.offset := he.akin.lastOffset.trans hlast
  -- the operands are above the innermost block, so the blocks are still there without them
  have below {n floor : Int} (hg : f.Drift n g) (hn : -(i.takes : Int) ≤ n)
      (hfloor : f.stack.depth + n ≤ floor) :
      Block.Nested c.body.Walked floor g.blocks p.blocks := by
    rw [hg.blocks]
    exact hb.lower (by omega)
  -- the frame goes on with the blocks it has, along a path that is as deep
  have on {n more d : Int} {t : Nat} (hg : f.Drift n g) (hq : ⟨t, d, p.blocks⟩ ∈ ps)
      (hd : p.depth + n + more = d) (hn : -(i.takes : Int) ≤ n + min more 0) :
      g.Level c.body t more := by
    have hgd := hg.depth
    refine ⟨_, hps _ hq, rfl, ?_, ?_⟩
    · dsimp only
      omega
    · rw [hg.blocks]
      exact hb.lower (by omega)
  cases he with
  | plain hop hg =>
    cases hf
    have hn := i.neg_takes_le_stackEffect hop
    exact before_sound (on hg (Path.mem_advance_plain hop hadv) (by omega) (by omega))
  | invoke hop hg =>
    have hplain : i.opcode.isPlain = true := by rw [hop]; rfl
    have hn := i.neg_takes_le_of_callFunction hop
    cases hf with
    | invoke =>
      exact ⟨on hg (Path.mem_advance_plain hplain hadv) (by omega) (by omega), fun h => by cases h⟩
    | refused =>
      exact failingAt_sound (below hg hn (Int.le_of_eq hg.depth.symm)) _ fun h =>
        absurd h (LimitError.not_underflow _)
  | draw hop hg =>
    cases hf
    exact before_sound (on hg (Path.mem_advance_forIter hop hadv).1 (by omega) (by omega))
  | drained hop hg =>
    cases hf
    have hn : i.takes = 1 := i.takes_of_opcode hop
    exact before_sound (on hg (Path.mem_advance_forIter hop hadv).2 (by omega) (by omega))
  | advance hop hg =>
    have hn : i.takes = 1 := i.takes_of_opcode hop
    have hnext : g.Level c.body i.next 1 :=
      on hg (Path.mem_advance_forIter hop hadv).1 (by omega) (by omega)
    have htarget : g.Level c.body i.target (-1) :=
      on hg (Path.mem_advance_forIter hop hadv).2 (by omega) (by omega)
    cases hf with
    | advance => exact ⟨⟨hnext, htarget⟩, fun h => by cases h⟩
    | spent _ => exact failingLoop_sound htarget fun h => congrArg some h
  | jump hop hg =>
    cases hf
    exact before_sound (on hg (Path.mem_advance_jump hop hadv) (by omega) (by omega))
  | stay hop hg =>
    cases hf
    exact before_sound (on hg (Path.mem_advance_stay hop hadv) (by omega) (by omega))
  | setup hop =>
    cases hf
    have hk := (blockKind_setup hop).symm
    obtain ⟨hnext, hhandler⟩ := Path.mem_advance_setup hk hadv
    have hblock : (f.pushBlock ⟨Exec.blockKind i.opcode, i.target, f.stack.depth⟩).stack.depth =
        f.stack.depth := rfl
    refine before_sound ⟨_, hps _ hnext, rfl, hdepth,
      .cons rfl ?_ ?_ (hps _ hhandler) (hb.mono ?_)⟩ <;> dsimp only <;> omega
  | @leaveBlock b outer _ hop hbs _ hg _ =>
    cases hf
    rw [hbs] at hb
    generalize hpb : p.blocks = wbs at hb
    cases hb with
    | cons hk hwb hle hh ho =>
      have hgd := hclose b outer hop hbs (by omega)
      refine before_sound ⟨_, hps _ (Path.mem_advance_popBlock hop hpb hadv), rfl, ?_, ?_⟩
      · dsimp only
        rw [hk, hgd]
        simp only [BlockKind.setup_eq_setupFinally]
        split <;> omega
      · dsimp only
        rw [hg]
        exact ho.mono (by omega)
  | endFinally hop hg =>
    cases hf
    have hn : i.takes = 3 := i.takes_of_opcode hop
    exact before_sound (on hg (Path.mem_advance_endFinally hop hadv) (by omega) (by omega))
  | @unwound reason g' _ target hr hu =>
    cases hf
    have hleft := hr.takes
    have hb' : Block.Nested c.body.Walked g'.stack.depth g'.blocks p.blocks := by
      rw [hr.blocks]
      exact hb.lower (by omega)
    obtain ⟨q, hq, ho, hgd, hn⟩ := unwindThrough_level
      (not_continuing_of_unwinds hr (hm.noContinue i hi) ha) hb' (Int.le_refl _) hu
    exact before_sound ⟨q, hq, ho, (Int.add_zero _).trans hgd,
      hn.mono (Int.le_of_eq (Int.add_zero _).symm)⟩
  | returns _ _ =>
    cases hf
    exact ⟨trivial, fun h => by cases h⟩
  | reraises _ _ =>
    cases hf
    exact failing_sound _ fun h => by cases h
  | yields hop hg =>
    cases hf
    have hn : i.takes = 1 := i.takes_of_opcode hop
    refine ⟨⟨p.offset, i, hlast', hd, ?_⟩, fun h => by cases h⟩
    refine on hg (Path.mem_advance_yieldValue hop hadv) ?_ ?_ <;> split <;> omega

end Executing

/-- **Every move keeps the frame level**, if instructions find their operands on every path. -/
theorem Levelled.moves {σ : Type} {host : Host σ} {s : Standing} {q : Frame × Standing}
    (hm : c.body.Measured) (hs : c.body.Supplied) (hfit : f.Fits False c) (ha : f.Allows Settled)
    (hp : f.Levelled c.body s) (hmv : Moves host f given s q) : Sound c.body given q := by
  cases hmv with
  | start ho =>
    obtain ⟨o, ho', hw⟩ := hp
    rw [ho] at ho'
    cases ho'
    exact before_sound hw
  | raise ho =>
    obtain ⟨p, hb⟩ := hp
    exact raising_sound hb _ _
  | @lost raising e ho =>
    refine ⟨trivial, fun h => ?_⟩
    unfold resumeOffset at ho
    split at ho
    · cases ho
    · split at ho <;> cases ho
      cases h
  | refused => exact failing_sound f fun h => absurd h (LimitError.not_underflow _)
  | undecoded ht hd =>
    obtain ⟨b, rfl⟩ := Instruction.error_of_decode hd
    exact failing_sound _ nofun
  | @fails o o' g i h current e l ht hd hx =>
    obtain ⟨-, hi, trace, rfl⟩ := hfit.unhooked ht hd
    obtain ⟨p, hw, rfl, hdepth, hb⟩ : Level c.body f o 0 := hp
    obtain ⟨htakes, hneeds⟩ := hm.supplies hs hw hi
    -- if an operand were missing, then the instruction would lack what it was supplied with
    have hdam := Exec.damage_of_execute hx
    cases e with
    | raised e =>
      have hleft := hdam.depth e rfl
      have hblocks := hdam.blocks e rfl
      dsimp only at hleft hblocks
      refine raising_sound (p := p) ?_ e i.offset
      rw [hblocks]
      exact hb.lower (by omega)
    | fatal e =>
      refine failing_sound _ fun h => ?_
      have hlacks := hdam.underflow h
      dsimp only at hlacks
      omega
    | uncatchable e => exact failing_sound _ nofun
  | @follows o o' g i h current flow l given q ht hd hx hf =>
    obtain ⟨-, hi, trace, rfl⟩ := hfit.unhooked ht hd
    have hw : Level c.body { f with lastOffset := some o, trace } o 0 := hp
    exact hw.follows hm hs hi rfl (fun t hmem => ha _ hmem t rfl) (Exec.effect_of_execute hx)
      (fun b outer hop hb hle => depth_of_popBlock hop hb hle hx) hf
  | waits hs =>
    refine ⟨hp, fun he => ?_⟩
    have he : s = .leaving (.error (.fatal .stackUnderflow)) := he
    rw [he] at hs
    cases hs
  | answered hs => exact answered_sound hs hp _

/-! ### A life on the level -/

/-- A frame is resumed as generators are: a value is sent, which the frame takes up if its code asks
for one, or an exception is raised in it. -/
def Resumes (f : Frame) (input : Option Value) (raising : Option Raised) : Prop :=
  (∃ sent, input = f.input sent ∧ raising = none) ∨ input = none ∧ raising ≠ none

/-- The frames of a code object that have run from yield to yield without a hook, each time resumed
as generators are.  `allowed` are the values that got on its stack. -/
inductive Driven (allowed : Value → Prop) (code : CodeObject) : Frame → Prop
  | created {globals builtins : Ref .mapping} {closure : List (Ref .cell)} {f : Frame}
      {h h' : Heap} (hg : globals.index < h.namespaces.size)
      (hc : create code globals builtins closure h = .ok (f, h')) : Driven allowed code f
  | called {globals builtins : Ref .mapping} {closure : List (Ref .cell)} {args : List Value}
      {f g : Frame} {h h' h'' : Heap} (hg : globals.index < h.namespaces.size)
      (hc : create code globals builtins closure h = .ok (f, h'))
      (hb : f.bindArguments args h' = .ok (g, h'')) : Driven allowed code g
  | resumed {σ : Type} {host : Host σ} {m m' : Machine σ} {w : Waiting} {f g : Frame}
      {input : Option Value} {raising : Option Raised} {v : Value} (hf : Driven allowed code f)
      (hr : f.Resumes input raising)
      (hc : Machine.Carries host m.chain (f.entry w) allowed (m.enter host f input raising w) m' g
        (.leaving (.ok (.yielded v)))) : Driven allowed code (g.released (.ok (.yielded v)))

theorem Driven.history {allowed : Value → Prop} (hf : Driven allowed c f) :
    History allowed False c f := by
  induction hf with
  | created hg hc => exact .created hg hc
  | called hg hc hb => exact .called hg hc hb
  | resumed _ hr hc ih =>
    refine .resumed False.elim ih ?_ hc
    rcases hr with ⟨sent, hi, -⟩ | ⟨hi, -⟩
    · exact .inr ⟨sent, hi⟩
    · exact .inl hi

/-- The frame can go on level, once it has taken up the value it waits for, if it waits for one. -/
def Poised (c : Code) (f : Frame) : Prop :=
  ∃ o, f.resumeOffset = .ok o ∧
    f.Level c o (if c.flags.acceptsInput && f.lastOffset.isSome then 1 else 0)

theorem Fresh.poised {globals : Ref .mapping} (hf : Fresh c globals f) : f.Poised c.body := by
  have hd : f.stack.depth = 0 := by
    rw [hf.stack]
    rfl
  refine ⟨0, by rw [resumeOffset, hf.lastOffset], ⟨0, 0, []⟩, .start, rfl, ?_, ?_⟩
  · rw [hf.lastOffset, hd]
    simp
  · rw [hf.blocks, hf.lastOffset, hd]
    exact .nil (by simp)

/-- A frame that has yielded can go on behind the yield. -/
theorem Levelled.poised {v : Value} (hp : f.Levelled c.body (.leaving (.ok (.yielded v))))
    (hc : f.code = c) : (f.released (.ok (.yielded v))).Poised c.body := by
  obtain ⟨o, i, hl, hd, hw⟩ := hp
  have hr : f.resumeOffset = .ok i.next := resumeOffset_of_decode hl (hc ▸ hd)
  have hw : f.Level c.body i.next (if c.body.flags.acceptsInput && f.lastOffset.isSome
      then 1 else 0) := by
    rw [hl, Option.isSome_some, Bool.and_true]
    exact hw
  unfold released
  dsimp only
  split <;> exact ⟨_, hr, hw⟩

section Resuming

variable {input : Option Value} {raising : Option Raised} {stack : OperandStack}

/-- Resumed as generators are, the frame goes on level. -/
theorem Poised.entered (hfit : f.Fits False c) (hp : f.Poised c.body) (hr : f.Resumes input raising)
    (ha : f.Admits input stack) (back : Option Nat) :
    ({ f with stack, back } : Frame).Levelled c.body (.starting raising) := by
  obtain ⟨o, ho, p, hw, hpo, hd, hb⟩ := hp
  rcases hr with ⟨sent, hi, rfl⟩ | ⟨rfl, hr⟩
  · -- the value is there to be taken up exactly if the path waits for one
    have hdepth : (stack.depth : Int) = p.depth := by
      unfold Frame.input at hi
      rw [hfit.code] at hi
      split at hi <;> rename_i hasks
      · cases hi
        have hpushed := (Drift.push ha).depth
        rw [if_pos hasks] at hd
        dsimp only at hpushed
        omega
      · cases hi
        cases ha
        rw [if_neg hasks] at hd
        omega
    refine ⟨o, ho, p, hw, hpo, (Int.add_zero _).trans hdepth, hb.mono ?_⟩
    dsimp only
    split at hd <;> omega
  · cases ha
    cases raising with
    | none => exact absurd rfl hr
    | some e =>
      refine ⟨p, hb.mono ?_⟩
      dsimp only
      omega

/-- In every state of a run the frame is level. -/
theorem Poised.carried {σ : Type} {host : Host σ} {m n : Machine σ} {w : Waiting} {s : Standing}
    (hm : c.body.Measured) (hs : c.body.Supplied) (hfit : f.Fits False c) (hp : f.Poised c.body)
    (hr : f.Resumes input raising)
    (hc : Machine.Carries host m.chain (f.entry w) Settled (m.enter host f input raising w) n g s) :
    g.Fits False c ∧ g.Levelled c.body s := by
  refine hc.induct (I := fun g s => g.Fits False c ∧ g.Levelled c.body s) (fun g s h => ?_)
    fun _ _ _ _ hi ha hmv => ⟨hi.1.moves (fun h => h.elim) hmv, (hi.2.moves hm hs hi.1 ha hmv).1⟩
  obtain ⟨stack, back, ha, rfl, rfl⟩ := Machine.enter_holds h
  exact ⟨hfit.entered ha, hp.entered hfit hr ha back⟩

end Resuming

/-- Whenever it is handed back, the frame can go on level. -/
theorem Driven.poised (hm : c.body.Measured) (hs : c.body.Supplied) (hf : Driven Settled c f) :
    f.Poised c.body := by
  induction hf with
  | created hg hc => exact (create_spec hg hc).poised
  | called hg hc hb => exact (bindArguments_spec (create_spec hg hc) hb).poised
  | resumed hf hr hc ih =>
    obtain ⟨hfit, hp⟩ := ih.carried hm hs hf.history.fits hr hc
    exact hp.poised hfit.code

/-- **A frame that finds its operands never underflows.**  Code is built on which all paths agree,
which continues no loop, and on every path of which the instructions find their operands.  If a
frame of it fails for want of a value, in any state of any run, then because another frame failed so
and handed that failure to it. -/
theorem Driven.never_underflows {σ : Type} {host : Host σ} {a : Assembler} {input : Option Value}
    {raising : Option Raised} (hb : a.build = .ok c.body)
    (hc : StackDepth.Agrees c.body.flags.acceptsInput c.body.bytecode)
    (hl : ∀ i ∈ c.body.instructions, i.opcode ≠ .continueLoop) (hs : c.body.Supplied)
    (hf : Driven Settled c f) (hr : f.Resumes input raising) (m : Machine σ) (w : Waiting) :
    ∀ n g s,
      Machine.Carries host m.chain (f.entry w) Settled (m.enter host f input raising w) n g s →
        ∀ g', (n.step host).Holds m.chain (f.entry w) g'
          (.leaving (.error (.fatal .stackUnderflow))) →
          n.Hands host m.chain (f.entry w) (.fatal .stackUnderflow) := by
  obtain ⟨hv, hsize⟩ := Assembler.build_spec hb
  have hm : c.body.Measured := ⟨hv, hsize, hc.consistent hsize, hl⟩
  intro n g s hrun g' hh
  obtain ⟨hfit, hp⟩ := (hf.poised hm hs).carried hm hs hf.history.fits hr hrun
  obtain ⟨hg, ha⟩ := hrun.held
  rcases hg.step host with ⟨result, rfl⟩ | ⟨given, q, hmv, hh', hgiven⟩
  · exact absurd hh hg.not_leaving
  · obtain ⟨rfl, he⟩ := hh'.unique hh
    exact hgiven _ ((hp.moves hm hs hfit ha hmv).2 he)

end Frame

theorem guardedCode_supplied : guardedCode.body.Supplied := by
  refine .of_paths guardedPaths ?_ ?_ ?_ <;> decide +kernel

theorem guardedFrame_never_underflows :
    guardedFrame.Resumes none none ∧
      ∀ n g s, Machine.Carries Host.silent Machine.idle.chain (guardedFrame.entry .outside)
        Frame.Settled (Machine.idle.enter Host.silent guardedFrame none none .outside) n g s →
          ∀ g', (n.step Host.silent).Holds Machine.idle.chain (guardedFrame.entry .outside) g'
            (.leaving (.error (.fatal .stackUnderflow))) →
            n.Hands Host.silent Machine.idle.chain (guardedFrame.entry .outside)
              (.fatal .stackUnderflow) := by
  have hr : guardedFrame.Resumes none none := .inl ⟨none, rfl, rfl⟩
  have hc : Frame.create guardedCode ⟨0⟩ Heap.defaultBuiltins [] .initial =
    .ok (guardedFrame, .initial) := rfl
  exact ⟨hr, Frame.Driven.never_underflows guardedYield_build guardedCode_consistent.agree
    guardedCode_continues_no_loop guardedCode_supplied (.created (by decide) hc) hr .idle .outside⟩

/-! ### A copy of nothing -/

/-- A body that returns a copy of a value that is not there. -/
def copyingTop : Assembler where
  name := "copying"
  firstLine := 1
  flags := .function
  bytecode := #[Opcode.dupTop.byte, Opcode.returnValue.byte]

/-- The code object: the walk counts the copy. -/
def copyingCode : CodeObject where
  identity := 1
  body :=
    { name := "copying"
      bytecode := [Opcode.dupTop.byte, Opcode.returnValue.byte]
      maxStack := 1
      flags := .function
      firstLine := 1 }

/-- A frame about to run the body. -/
def copyingFrame : Frame where
  code := copyingCode
  globals := ⟨0⟩
  builtins := Heap.defaultBuiltins
  locals := .fast []
  cells := []
  stack := .empty 1
  trace := { line := 1 }

theorem copyingTop_build : copyingTop.build = .ok copyingCode.body := by
  refine Assembler.build_eq_ok rfl rfl rfl ?_
  change copyingCode.body.validate = .ok ()
  cbv

theorem copyingCode_consistent :
    StackDepth.Consistent copyingCode.body.flags.acceptsInput copyingCode.body.bytecode := by
  refine .of_paths [⟨0, 0, []⟩, ⟨1, 1, []⟩] ?_ ?_ ?_ ?_ <;> decide +kernel

/-- Built on code whose paths agree, the frame fails for want of a value. -/
theorem copyingFrame_underflows :
    copyingTop.build = .ok copyingCode.body ∧
      StackDepth.Agrees copyingCode.body.flags.acceptsInput copyingCode.body.bytecode ∧
      Frame.create copyingCode ⟨0⟩ Heap.defaultBuiltins [] .initial =
        .ok (copyingFrame, .initial) ∧
      (Machine.run Host.silent 4 (Machine.idle.enter Host.silent copyingFrame none none
        .outside)).outcome?.map (·.2) = some (.error (.fatal .stackUnderflow)) :=
  ⟨copyingTop_build, copyingCode_consistent.agree, rfl, rfl⟩

end Resumable
