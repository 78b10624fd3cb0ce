import Resumable.Proofs.Bytecode.Coverage
import Resumable.Proofs.Machine.Life

/-!
# The declared stack size is enough

The walk of `StackDepth` is an abstract run of the code.  A frame is `Frame.Within` a path at an
offset if its stack is at most as deep as the path says, and its live blocks are those that are open
on the path: each was entered at most as deep, and its handler starts at the end of another path
(`Block.Covered`).  Every move keeps a frame within a path (`Frame.Placed.moves`), whatever is
raised, thrown in or handed over.

So a frame of consistent code never finds its stack full or a block missing
(`Frame.History.never_misfits`).  What is left are failures of other frames that come to it.
-/

namespace Resumable

/-- The opcode that opens a block of a kind. -/
def BlockKind.setup : BlockKind → Opcode
  | loop => .setupLoop
  | except => .setupExcept
  | cleanup => .setupFinally

/-- How many values the handler of a block of a kind finds. -/
def BlockKind.values : BlockKind → Nat
  | loop => 0
  | except | cleanup => 3

theorem blockKind_setup {op : Opcode} (h : op.isBlockSetup = true) :
    (Exec.blockKind op).setup = op := by
  cases op <;> first
    | rfl
    | cases h

/-- The paths of the walk through a code object. -/
def CodeOf.Walked {κ : Type} (c : CodeOf κ) : Path → Prop :=
  StackDepth.Walked c.flags.acceptsInput c.bytecode

/-- Code whose stack size has been found by the walk, on which all paths agree, and which continues
no loop. -/
structure CodeOf.Measured {κ : Type} (c : CodeOf κ) : Prop where
  valid : c.Valid
  size : StackDepth.required c.flags.acceptsInput c.bytecode = .ok c.maxStack
  consistent : StackDepth.Consistent c.flags.acceptsInput c.bytecode
  noContinue : ∀ i ∈ c.instructions, i.opcode ≠ .continueLoop

/-! ### Where a path leads on -/

namespace Path

variable {input : Bool} {i : Instruction} {p q : Path} {ps : List Path}

theorem mem_advance_plain (hop : i.opcode.isPlain = true) (h : p.advance input i = .ok ps) :
    ⟨i.next, p.depth + i.opcode.stackEffect i.arg.toNat, p.blocks⟩ ∈ ps := by
  obtain ⟨o, op, arg⟩ := i
  cases op <;> first
    | rw [StackDepth.eq_of_onward h]
      exact List.mem_cons_self
    | cases hop

theorem mem_advance_setup {k : BlockKind} (hop : i.opcode = k.setup)
    (h : p.advance input i = .ok ps) :
    ⟨i.next, p.depth, ⟨k.setup, p.depth⟩ :: p.blocks⟩ ∈ ps ∧
      ⟨i.target, p.depth + k.values, p.blocks⟩ ∈ ps := by
  obtain ⟨o, op, arg⟩ := i
  cases k <;> subst hop <;> rw [StackDepth.eq_of_onward h]
  · exact ⟨List.mem_cons_self, by simp [BlockKind.values]⟩
  · exact ⟨List.mem_cons_self, List.mem_cons_of_mem _ List.mem_cons_self⟩
  · exact ⟨List.mem_cons_self, List.mem_cons_of_mem _ List.mem_cons_self⟩

theorem mem_advance_popBlock {b : WalkedBlock} {outer : List WalkedBlock}
    (hop : i.opcode = .popBlock) (hb : p.blocks = b :: outer) (h : p.advance input i = .ok ps) :
    ⟨i.next, if b.setup = .setupFinally then b.depth + 3 else b.depth, outer⟩ ∈ ps := by
  obtain ⟨o, op, arg⟩ := i
  obtain ⟨po, pd, pb⟩ := p
  subst hop hb
  rw [StackDepth.eq_of_onward h]
  exact List.mem_cons_self

theorem mem_advance_endFinally (hop : i.opcode = .endFinally) (h : p.advance input i = .ok ps) :
    ⟨i.next, p.depth - 3, p.blocks⟩ ∈ ps := by
  obtain ⟨o, op, arg⟩ := i
  subst hop
  rw [StackDepth.eq_of_onward h]
  exact List.mem_cons_self

theorem mem_advance_forIter (hop : i.opcode = .forIter) (h : p.advance input i = .ok ps) :
    ⟨i.next, p.depth + 1, p.blocks⟩ ∈ ps ∧ ⟨i.target, p.depth - 1, p.blocks⟩ ∈ ps := by
  obtain ⟨o, op, arg⟩ := i
  subst hop
  rw [StackDepth.eq_of_onward h]
  exact ⟨List.mem_cons_self, List.mem_cons_of_mem _ List.mem_cons_self⟩

theorem mem_advance_jump (hop : i.opcode.isJump = true) (h : p.advance input i = .ok ps) :
    ⟨i.target, p.depth, p.blocks⟩ ∈ ps := by
  obtain ⟨o, op, arg⟩ := i
  cases op <;> first
    | rw [StackDepth.eq_of_onward h]
      exact List.mem_cons_of_mem _ List.mem_cons_self
    | cases h
      exact List.mem_cons_self
    | cases hop

theorem mem_advance_stay (hop : i.opcode = .jumpIfFalse ∨ i.opcode = .jumpIfTrue)
    (h : p.advance input i = .ok ps) : ⟨i.next, p.depth, p.blocks⟩ ∈ ps := by
  obtain ⟨o, op, arg⟩ := i
  rcases hop with hop | hop <;> subst hop <;> rw [StackDepth.eq_of_onward h] <;>
    exact List.mem_cons_self

theorem mem_advance_yieldValue (hop : i.opcode = .yieldValue) (h : p.advance input i = .ok ps) :
    ⟨i.next, if input then p.depth else p.depth - 1, p.blocks⟩ ∈ ps := by
  obtain ⟨o, op, arg⟩ := i
  subst hop
  rw [StackDepth.eq_of_onward h]
  exact List.mem_cons_self

end Path

namespace CodeOf.Measured

variable {κ : Type} {c : CodeOf κ} {i : Instruction} {p q : Path}

theorem depth_le (hm : c.Measured) (hp : c.Walked p) : p.depth ≤ c.maxStack :=
  (hm.consistent.depth_le hm.size hp).1

/-- Where a path arrives an instruction starts, or the code ends. -/
theorem target (hm : c.Measured) (hp : c.Walked p) : c.Target p.offset := by
  induction hp with
  | start => exact hm.valid.zero
  | onward hp hd ha hq ih =>
    have hi := (ih.isBoundary hd).2
    have hs := Instruction.mem_successors_of_advance ha hq
    rcases Instruction.next_or_target_of_mem_successors hs with ho | ho
    · rw [ho]
      exact hm.valid.next hi
    · exact hm.valid.target hi ho

/-- The paths that lead on from the instruction at the end of a path. -/
theorem leads (hm : c.Measured) (hp : c.Walked p)
    (hd : Instruction.decode c.bytecode p.offset = .ok i) :
    ∃ ps, p.advance c.flags.acceptsInput i = .ok ps ∧ ∀ q ∈ ps, c.Walked q := by
  obtain ⟨j, ps, hj, ha⟩ :=
    (hm.consistent.depth_le hm.size hp).2 (Instruction.next_le_of_decode hd).1
  rw [hd] at hj
  cases hj
  exact ⟨ps, ha, fun q hq => .onward hp hd ha hq⟩

end CodeOf.Measured

/-! ### Frames within paths -/

/-- The live blocks are those open on a path: each was entered at most as deep, and its handler
starts at the end of a path that has the blocks around it open. -/
inductive Block.Covered (W : Path → Prop) : List Block → List WalkedBlock → Prop
  | nil : Covered W [] []
  | cons {b : Block} {outer : List Block} {wb : WalkedBlock} {opened : List WalkedBlock}
      (hk : wb.setup = b.kind.setup) (hd : (b.depth : Int) ≤ wb.depth)
      (hh : W ⟨b.handler, wb.depth + b.kind.values, opened⟩) (ho : Covered W outer opened) :
      Covered W (b :: outer) (wb :: opened)

/-- A block among covered ones is covered with the blocks around it. -/
theorem Block.Covered.suffix {W : Path → Prop} {bs outer : List Block} {wbs : List WalkedBlock}
    (h : Covered W bs wbs) (hs : outer <:+ bs) : ∃ opened, Covered W outer opened := by
  induction h with
  | nil =>
    rw [List.suffix_nil.1 hs]
    exact ⟨[], .nil⟩
  | cons hk hd hh ho ih =>
    rcases List.suffix_cons_iff.1 hs with rfl | hs
    · exact ⟨_, .cons hk hd hh ho⟩
    · exact ih hs

theorem LimitError.not_misfit (e : LimitError) : e.toFailure.isMisfit ≠ true := by
  cases e <;> nofun

namespace Frame

/-- At offset `o`, with `more` values still to come, the frame is within a path of the walk. -/
def Within (c : Code) (f : Frame) (o : Nat) (more : Int) : Prop :=
  ∃ p, c.Walked p ∧ p.offset = o ∧ f.stack.depth + more ≤ p.depth ∧
    Block.Covered c.Walked f.blocks p.blocks

/-- A frame is within a path wherever it may go on from a standing. -/
def Placed (c : Code) (f : Frame) : Standing → Prop
  | .starting _ => ∃ o, f.resumeOffset = .ok o ∧ f.Within c o 0
  | .before o => f.Within c o 0
  | .leaving (.ok (.yielded _)) => ∃ o i, f.lastOffset = some o ∧
      Instruction.decode c.bytecode o = .ok i ∧
      f.Within c i.next (if c.flags.acceptsInput then 1 else 0)
  | .leaving _ => True
  | .calling site => f.Within c site.next 1
  | .looping site => f.Within c site.next 1 ∧ f.Within c site.target (-1)

/-- Where a move leads: the frame is placed there, and if it leaves for want of room or for a
missing block, that failure was handed to it. -/
def Safe (c : Code) (given : Option Failure) (p : Frame × Standing) : Prop :=
  p.1.Placed c p.2 ∧
    ∀ e, p.2 = .leaving (.error (.fatal e)) → e.isMisfit = true → given = some (.fatal e)

variable {c : CodeObject} {f g : Frame} {given : Option Failure} {o : Nat} {more : Int}

theorem Within.mono {more' : Int} (h : f.Within c.body o more) (hb : g.blocks = f.blocks)
    (hd : (g.stack.depth : Int) + more' ≤ f.stack.depth + more) : g.Within c.body o more' := by
  obtain ⟨p, hp, ho, hl, hc⟩ := h
  exact ⟨p, hp, ho, by omega, by rw [hb]; exact hc⟩

/-- A handler has room for the values it finds. -/
theorem depth_le_of_covered (hm : c.body.Measured) {bs : List Block} {wbs : List WalkedBlock}
    (h : Block.Covered c.body.Walked bs wbs) {b : Block} (hb : b ∈ bs) :
    b.depth + b.kind.values ≤ c.body.maxStack := by
  induction h with
  | nil => cases hb
  | cons hk hd hh ho ih =>
    rcases List.mem_cons.1 hb with rfl | hb
    · have hl := hm.depth_le hh
      simp only at hl
      omega
    · exact ih hb

theorem values_of_ne_loop {k : BlockKind} (h : k ≠ .loop) : k.values = 3 := by
  cases k with
  | loop => exact absurd rfl h
  | except => rfl
  | cleanup => rfl

/-- An unwinding leads to a handler within a path, and its values fit. -/
theorem unwind_within (hm : c.body.Measured) (hcap : f.stack.capacity = c.body.maxStack)
    {wbs : List WalkedBlock} (hb : Block.Covered c.body.Walked f.blocks wbs)
    {reason : Unwind Value} (hr : ∀ t, reason ≠ .continuing t) {u : Unwound}
    (hu : f.unwind reason = (g, u)) :
    match u with
    | .handled target => g.Within c.body target 0
    | .unhandled => True
    | .faulted _ => False := by
  obtain ⟨-, hs⟩ := unwind_spec hu
  cases u with
  | unhandled => trivial
  | faulted e =>
    obtain ⟨-, b, hmem, hk, hlt⟩ := hs
    -- the walk has entered the handler with the values there, so that there was room
    have hd := depth_le_of_covered hm hb hmem
    rw [values_of_ne_loop hk] at hd
    rw [hcap] at hlt
    exact absurd hlt (by omega)
  | handled target =>
    obtain ⟨b, outer, hsuf, hl⟩ := hs
    -- the handler has been walked with the depth that the block keeps
    obtain ⟨opened, hcov⟩ := hb.suffix hsuf
    cases hcov with
    | cons hk hd hh ho =>
      cases hl with
      | continued he _ => exact absurd he (hr _)
      | left hkind hg hdepth =>
        rw [hkind] at hh
        refine ⟨_, hh, rfl, ?_, by rw [hg]; exact ho⟩
        simp only [BlockKind.values]
        omega
      | entered hkind hg hdepth =>
        rw [values_of_ne_loop hkind] at hh
        refine ⟨_, hh, rfl, ?_, by rw [hg]; exact ho⟩
        simp only
        omega

theorem failing_safe (f : Frame) {e : Failure} (he : e.isMisfit = true → given = some e) :
    Safe c.body given (f.failing e) := by
  refine ⟨trivial, fun e' h hm => ?_⟩
  cases h
  exact he hm

theorem raising_safe (hm : c.body.Measured) (hcap : f.stack.capacity = c.body.maxStack)
    {wbs : List WalkedBlock} (hb : Block.Covered c.body.Walked f.blocks wbs) (e : Raised)
    (offset : Nat) : Safe c.body given (f.raising e offset) := by
  unfold raising
  dsimp only
  cases hu : f.unwind (.raising (e.through ⟨f.code.body.name, f.code.body.lineForOffset offset,
    offset⟩)) with
  | mk g u =>
    have hw := unwind_within hm hcap hb (fun _ h => by cases h) hu
    cases u with
    | handled target => exact ⟨hw, nofun⟩
    | faulted fault => exact hw.elim
    | unhandled => exact failing_safe _ (fun h => by cases h)

theorem failingAt_safe (hm : c.body.Measured) (hcap : f.stack.capacity = c.body.maxStack)
    {wbs : List WalkedBlock} (hb : Block.Covered c.body.Walked f.blocks wbs) (offset : Nat)
    {e : Failure} (he : e.isMisfit = true → given = some e) :
    Safe c.body given (f.failingAt offset e) := by
  cases e with
  | raised e => exact raising_safe hm hcap hb e offset
  | fatal e => exact failing_safe f he
  | uncatchable e => exact failing_safe f he

theorem resumed_safe (hm : c.body.Measured) (hcap : f.stack.capacity = c.body.maxStack)
    {site : Instruction} (hw : f.Within c.body site.next 1) (v : Value) :
    Safe c.body given (f.resumed v site) := by
  obtain ⟨p, hp, ho, hd, hb⟩ := hw
  have hl := hm.depth_le hp
  unfold resumed
  cases hpush : f.stack.push v with
  | error e =>
    have hfull := (OperandStack.push_eq_error_iff.1 hpush).1
    omega
  | ok s =>
    have hs := OperandStack.depth_push hpush
    refine ⟨⟨p, hp, ho, ?_, hb⟩, nofun⟩
    simp only [hs]
    omega

theorem exhausted_safe {site : Instruction} (hw : f.Within c.body site.target (-1)) :
    Safe c.body given (f.exhausted site) := by
  unfold exhausted
  cases hpop : f.stack.pop with
  | error e =>
    rw [OperandStack.pop_eq_error hpop]
    exact failing_safe f (fun h => by cases h)
  | ok r =>
    have hdepth := (Drift.pop hpop).depth
    exact ⟨hw.mono rfl (by simp only at hdepth ⊢; omega), nofun⟩

theorem failingLoop_safe (hm : c.body.Measured) (hcap : f.stack.capacity = c.body.maxStack)
    {site : Instruction} (hw : f.Within c.body site.target (-1)) {e : Failure}
    (he : e.isMisfit = true → given = some e) : Safe c.body given (f.failingLoop site e) := by
  unfold failingLoop
  split
  · exact exhausted_safe hw
  · obtain ⟨p, -, -, -, hb⟩ := hw
    exact failingAt_safe hm hcap hb site.offset he

/-- What comes from the frame above leaves the frame within a path, or is the failure it leaves
with. -/
theorem answered_safe (hm : c.body.Measured) (hcap : f.stack.capacity = c.body.maxStack)
    {s : Standing} (hs : s.control? = none) (hp : f.Placed c.body s)
    (result : Except Failure FrameExit) :
    Safe c.body (match result with | .ok _ => none | .error e => some e)
      (f.answered s result) := by
  cases s with
  | starting _ => cases hs
  | before _ => cases hs
  | leaving _ => cases hs
  | calling site =>
    obtain ⟨p, hw, ho, hd, hb⟩ := hp
    match result with
    | .ok (.returned v) => exact resumed_safe hm hcap ⟨p, hw, ho, hd, hb⟩ v
    | .ok (.yielded v) => exact failingAt_safe hm hcap hb _ (fun h => by cases h)
    | .error e => exact failingAt_safe hm hcap hb _ fun _ => rfl
  | looping site =>
    match result with
    | .ok (.returned v) => exact exhausted_safe hp.2
    | .ok (.yielded v) => exact resumed_safe hm hcap hp.1 v
    | .error e => exact failingLoop_safe hm hcap hp.2 fun _ => rfl

/-! ### Executing within a path -/

section Executing

variable {i : Instruction}

/-- Within a path no instruction needs more room than there is, or a block where none is. -/
theorem Within.not_strains (hm : c.body.Measured) (hcap : f.stack.capacity = c.body.maxStack)
    (hd : Instruction.decode c.body.bytecode o = .ok i) (hw : f.Within c.body o 0) :
    ¬Exec.Strains i f := by
  obtain ⟨p, hp, rfl, hl, hb⟩ := hw
  obtain ⟨ps, ha, hps⟩ := hm.leads hp hd
  have hmax := hm.depth_le hp
  -- the walk goes no deeper than the declared size
  have room {q : Path} (hq : q ∈ ps) : q.depth ≤ c.body.maxStack := hm.depth_le (hps q hq)
  have unwinding : ¬∃ b ∈ f.blocks, b.kind ≠ .loop ∧ f.stack.capacity < b.depth + 3 := by
    rintro ⟨b, hmem, hk, hlt⟩
    have hle := depth_le_of_covered hm hb hmem
    rw [values_of_ne_loop hk] at hle
    omega
  intro hs
  by_cases hop : i.opcode.isPlain = true
  · have hr := room (Path.mem_advance_plain hop ha)
    have hs := (Exec.strains_plain hop).1 hs
    simp only at hr
    omega
  · obtain ⟨o, op, arg⟩ := i
    cases op <;> first
      | exact absurd rfl hop
      | exact unwinding hs
      | skip
    case popBlock =>
      rcases hs with hs | ⟨b, outer, hbs, hk, hlt⟩
      · rw [hs] at hb
        generalize hpb : p.blocks = wbs at hb
        cases hb
        exact hm.consistent.closes p _ hp hd rfl hpb
      · exact unwinding ⟨b, by rw [hbs]; exact List.mem_cons_self, by rw [hk]; nofun, hlt⟩
    case forIter =>
      have hr := room (Path.mem_advance_forIter rfl ha).1
      have hs : f.stack.capacity < f.stack.depth + 1 := hs
      simp only at hr
      omega
    all_goals
      have hs : (f.stack.capacity : Int) < f.stack.depth + 0 := hs
      omega

/-- An unwinding for which an instruction has no room does not continue a loop, unless it takes
that up from the stack. -/
theorem not_continuing_of_unwinds {reason : Unwind Value} (hr : i.Unwinds f reason g)
    (hop : i.opcode ≠ .continueLoop) (hs : ∀ t, .suspended (.continuing t) ∉ f.stack.slots)
    (t : Nat) : reason ≠ .continuing t := by
  rintro rfl
  cases hr with
  | endFinally _ hr _ => exact hs t (List.mem_of_getElem? hr)
  | continueLoop hop' => exact hop hop'

/-- Where an instruction leads from within a path. -/
theorem Within.follows (hm : c.body.Measured) (hcap : f.stack.capacity = c.body.maxStack)
    (hd : Instruction.decode c.body.bytecode o = .ok i) (hw : f.Within c.body o 0)
    (hlast : f.lastOffset = some o) (hs : ∀ t, .suspended (.continuing t) ∉ f.stack.slots)
    {flow : Flow} (he : Exec.Effect i f flow g) {heap : Heap} {q : Frame × Standing}
    (hf : Follows heap i g flow given q) : Safe c.body given q := by
  have hi := ((hm.target hw.choose_spec.1).isBoundary (by rw [hw.choose_spec.2.1]; exact hd)).2
  obtain ⟨p, hp, rfl, hl, hb⟩ := hw
  obtain ⟨ps, ha, hps⟩ := hm.leads hp hd
  have hcap' : g.stack.capacity = c.body.maxStack := he.akin.capacity.trans hcap
  have hlast' : g.lastOffset = some p.offset := he.akin.lastOffset.trans hlast
  have hblocks {n : Int} (hg : f.Drift n g) : Block.Covered c.body.Walked g.blocks p.blocks := by
    rw [hg.blocks]
    exact hb
  -- the frame goes on with the blocks it has, along a path that is as deep
  have on {n more d : Int} {t : Nat} (hg : f.Drift n g) (hq : ⟨t, d, p.blocks⟩ ∈ ps)
      (hn : p.depth + n + more ≤ d) : g.Within c.body t more := by
    refine ⟨_, hps _ hq, rfl, ?_, hblocks hg⟩
    have hdepth := hg.depth
    simp only
    omega
  cases he with
  | plain hop hg =>
    cases hf
    exact ⟨on hg (Path.mem_advance_plain hop ha) (by omega), nofun⟩
  | invoke hop hg =>
    cases hf with
    | invoke =>
      have hplain : i.opcode.isPlain = true := by rw [hop]; rfl
      exact ⟨on hg (Path.mem_advance_plain hplain ha) (by omega), nofun⟩
    | refused =>
      exact failingAt_safe hm hcap' (hblocks hg) _ fun h => absurd h (LimitError.not_misfit _)
  | draw hop hg =>
    cases hf
    exact ⟨on hg (Path.mem_advance_forIter hop ha).1 (by omega), nofun⟩
  | drained hop hg =>
    cases hf
    exact ⟨on hg (Path.mem_advance_forIter hop ha).2 (by omega), nofun⟩
  | advance hop hg =>
    have hnext : g.Within c.body i.next 1 := on hg (Path.mem_advance_forIter hop ha).1 (by omega)
    have htarget : g.Within c.body i.target (-1) :=
      on hg (Path.mem_advance_forIter hop ha).2 (by omega)
    cases hf with
    | advance => exact ⟨⟨hnext, htarget⟩, nofun⟩
    | spent _ => exact failingLoop_safe hm hcap' htarget fun _ => rfl
  | jump hop hg =>
    cases hf
    exact ⟨on hg (Path.mem_advance_jump hop ha) (by omega), nofun⟩
  | stay hop hg =>
    cases hf
    exact ⟨on hg (Path.mem_advance_stay hop ha) (by omega), nofun⟩
  | setup hop =>
    cases hf
    have hk := (blockKind_setup hop).symm
    obtain ⟨hnext, hhandler⟩ := Path.mem_advance_setup hk ha
    exact ⟨⟨_, hps _ hnext, rfl, hl, .cons rfl (by simpa using hl) (hps _ hhandler) hb⟩, nofun⟩
  | @leaveBlock b outer _ hop hbs _ hg hdepth =>
    cases hf
    rw [hbs] at hb
    generalize hpb : p.blocks = wbs at hb
    cases hb with
    | cons hk hwb hh ho =>
      refine ⟨⟨_, hps _ (Path.mem_advance_popBlock hop hpb ha), rfl, ?_, by rw [hg]; exact ho⟩,
        nofun⟩
      simp only [hk]
      cases hkind : b.kind <;> rw [hkind] at hdepth <;> simp [BlockKind.setup] at hdepth ⊢ <;>
        omega
  | endFinally hop hg =>
    cases hf
    exact ⟨on hg (Path.mem_advance_endFinally hop ha) (by omega), nofun⟩
  | @unwound reason g' _ target hr hu =>
    cases hf
    have hw := unwind_within hm (hr.akin.capacity.trans hcap) (by rw [hr.blocks]; exact hb)
      (not_continuing_of_unwinds hr (hm.noContinue i hi) hs) hu
    exact ⟨hw, nofun⟩
  | returns _ _ =>
    cases hf
    exact ⟨trivial, nofun⟩
  | reraises _ _ =>
    cases hf
    exact failing_safe _ (fun h => by cases h)
  | yields hop hg =>
    cases hf
    refine ⟨⟨p.offset, i, hlast', hd, ?_⟩, nofun⟩
    refine on hg (Path.mem_advance_yieldValue hop ha) ?_
    split <;> omega

end Executing

/-- The values that may get on the stack: none of them continues a loop. -/
def Settled (v : Value) : Prop := ∀ t, v ≠ .suspended (.continuing t)

/-- **Every move keeps the frame within a path.** -/
theorem Placed.moves {σ : Type} {host : Host σ} {s : Standing} {q : Frame × Standing}
    (hm : c.body.Measured) (hfit : f.Fits False c) (ha : f.Allows Settled)
    (hp : f.Placed c.body s) (hmv : Moves host f given s q) : Safe c.body given q := by
  have hcap := hfit.capacity
  cases hmv with
  | start ho =>
    obtain ⟨o, ho', hw⟩ := hp
    rw [ho] at ho'
    cases ho'
    exact ⟨hw, nofun⟩
  | raise ho =>
    obtain ⟨o, -, p, -, -, -, hb⟩ := hp
    exact raising_safe hm hcap hb _ _
  | lost ho =>
    obtain ⟨o, ho', -⟩ := hp
    rw [ho] at ho'
    cases ho'
  | refused => exact failing_safe f fun h => absurd h (LimitError.not_misfit _)
  | undecoded ht hd =>
    obtain ⟨b, rfl⟩ := Instruction.error_of_decode hd
    exact failing_safe _ (fun h => by cases h)
  | @fails o o' g i h current e l ht hd hx =>
    obtain ⟨-, hi, trace, rfl⟩ := hfit.unhooked ht hd
    have hw : Within c.body { f with lastOffset := some o, trace } o 0 := hp
    have hdam := Exec.damage_of_execute hx
    -- an instruction within the stack cannot misfit, so that its fault is another one
    have hfine : e.isMisfit ≠ true := fun h => hw.not_strains hm hcap hi (hdam.misfit h)
    cases e with
    | raised e =>
      obtain ⟨p, -, -, -, hb⟩ := hw
      rw [← hdam.blocks e rfl] at hb
      exact raising_safe hm (hdam.capacity.trans hcap) hb e i.offset
    | fatal e => exact failing_safe _ fun h => absurd h hfine
    | uncatchable e => exact failing_safe _ fun h => absurd h hfine
  | @follows o o' g i h current flow l given q ht hd hx hf =>
    obtain ⟨-, hi, trace, rfl⟩ := hfit.unhooked ht hd
    have hw : Within c.body { f with lastOffset := some o, trace } o 0 := hp
    have he := Exec.effect_of_execute hx
    exact Within.follows (f := { f with lastOffset := some o, trace }) hm hcap hi hw rfl
      (fun t hmem => ha _ hmem t rfl) he hf
  | waits hs =>
    refine ⟨hp, fun e he _ => ?_⟩
    have he : s = .leaving (.error (.fatal e)) := he
    rw [he] at hs
    cases hs
  | answered hs => exact answered_safe hm hcap hs hp _

/-! ### A life within paths -/

/-- The frame can go on within a path, and where it takes up a value first, that has room. -/
def Rests (c : Code) (f : Frame) : Prop :=
  ∃ o, f.resumeOffset = .ok o ∧
    f.Within c o (if c.flags.acceptsInput && f.lastOffset.isSome then 1 else 0)

theorem Fresh.rests {globals : Ref .mapping} (hf : Fresh c globals f) : f.Rests c.body := by
  refine ⟨0, by rw [resumeOffset, hf.lastOffset], ⟨0, 0, []⟩, .start, rfl, ?_, ?_⟩
  · have hd : f.stack.depth = 0 := by
      rw [hf.stack]
      rfl
    rw [hf.lastOffset, hd]
    simp
  · rw [hf.blocks]
    exact .nil

/-- A frame that has yielded can go on behind the yield. -/
theorem Placed.rests {v : Value} (hp : f.Placed c.body (.leaving (.ok (.yielded v))))
    (hc : f.code = c) : (f.released (.ok (.yielded v))).Rests c.body := by
  obtain ⟨o, i, hl, hd, hw⟩ := hp
  have hr : f.resumeOffset = .ok i.next := resumeOffset_of_decode hl (hc ▸ hd)
  have hw : f.Within c.body i.next (if c.body.flags.acceptsInput && f.lastOffset.isSome
      then 1 else 0) := by
    rw [hl, Option.isSome_some, Bool.and_true]
    exact hw
  unfold released
  dsimp only
  split <;> exact ⟨_, hr, hw.mono rfl (Int.le_refl _)⟩

section Resuming

variable {input : Option Value} {stack : OperandStack}

/-- There is room for the value a frame takes up. -/
theorem Rests.admits (hm : c.body.Measured) (hfit : f.Fits False c) (hr : f.Rests c.body)
    (hi : input = none ∨ ∃ sent, input = f.input sent) : ∃ s, f.Admits input s := by
  have room {v : Value} {sent : Option Value} (h : some v = f.input sent) :
      ∃ s, f.stack.push v = .ok s := by
    obtain ⟨o, -, p, hp, -, hd, -⟩ := hr
    have hmax := hm.depth_le hp
    have hcap := hfit.capacity
    unfold Frame.input at h
    rw [hfit.code] at h
    split at h
    · rename_i ha
      rw [if_pos ha] at hd
      cases hpush : f.stack.push v with
      | ok s => exact ⟨s, rfl⟩
      | error e =>
        have hfull := (OperandStack.push_eq_error_iff.1 hpush).1
        omega
    · cases h
  cases input with
  | none => exact ⟨f.stack, rfl⟩
  | some v =>
    rcases hi with hi | ⟨sent, hi⟩
    · cases hi
    · exact room hi

/-- With what it takes up on its stack, the frame goes on within a path. -/
theorem Rests.entered (hfit : f.Fits False c) (hr : f.Rests c.body)
    (hi : input = none ∨ ∃ sent, input = f.input sent) (ha : f.Admits input stack)
    (back : Option Nat) (raising : Option Raised) :
    ({ f with stack, back } : Frame).Placed c.body (.starting raising) := by
  obtain ⟨o, ho, hw⟩ := hr
  refine ⟨o, ho, hw.mono rfl ?_⟩
  cases input with
  | none =>
    cases ha
    simp only
    split <;> omega
  | some v =>
    obtain ⟨sent, hi⟩ := hi.resolve_left nofun
    have hd := (Drift.push ha).depth
    unfold Frame.input at hi
    rw [hfit.code] at hi
    split at hi
    · rename_i h
      rw [if_pos h]
      simp only at hd ⊢
      omega
    · cases hi

/-- In every state of a run the frame is within a path. -/
theorem Rests.carried {σ : Type} {host : Host σ} {m n : Machine σ} {w : Waiting}
    {raising : Option Raised} {s : Standing} (hm : c.body.Measured) (hfit : f.Fits False c)
    (hr : f.Rests c.body) (hi : input = none ∨ ∃ sent, input = f.input sent)
    (hc : Machine.Carries host m.chain (f.entry w) Settled (m.enter host f input raising w) n g s) :
    g.Fits False c ∧ g.Placed c.body s := by
  refine hc.induct (I := fun g s => g.Fits False c ∧ g.Placed c.body s) (fun g s h => ?_)
    fun _ _ _ _ hi hs hmv => ⟨hi.1.moves (fun h => h.elim) hmv, (hi.2.moves hm hi.1 hs hmv).1⟩
  obtain ⟨stack, back, ha, rfl, rfl⟩ := Machine.enter_holds h
  exact ⟨hfit.entered ha, hr.entered hfit hi ha back raising⟩

end Resuming

/-- Whenever it is handed back, the frame can go on within a path. -/
theorem History.rests (hm : c.body.Measured) (hf : History Settled False c f) :
    f.Rests c.body := by
  induction hf with
  | created hg hc => exact (create_spec hg hc).rests
  | called hg hc hb => exact (bindArguments_spec (create_spec hg hc) hb).rests
  | traced hh => exact hh.elim
  | resumed _ hf hi hc ih =>
    obtain ⟨hfit, hp⟩ := ih.carried hm hf.fits hi hc
    exact hp.rests hfit.code

/-- **A frame of consistent code has room enough.**  It is not refused the value it takes up, and
if it fails for want of room or for a missing block in any state of any run, then because another
frame failed so and handed that failure to it. -/
theorem History.never_misfits {σ : Type} {host : Host σ} {a : Assembler} {input : Option Value}
    (hb : a.build = .ok c.body)
    (hc : StackDepth.Consistent c.body.flags.acceptsInput c.body.bytecode)
    (hl : ∀ i ∈ c.body.instructions, i.opcode ≠ .continueLoop)
    (hf : History Settled False c f) (hi : input = none ∨ ∃ sent, input = f.input sent)
    (m : Machine σ) (w : Waiting) (raising : Option Raised) :
    (∃ s, f.Admits input s) ∧
      ∀ n g s,
        Machine.Carries host m.chain (f.entry w) Settled (m.enter host f input raising w) n g s →
          ∀ g' e, e.isMisfit = true →
            (n.step host).Holds m.chain (f.entry w) g' (.leaving (.error (.fatal e))) →
            n.Hands host m.chain (f.entry w) (.fatal e) := by
  obtain ⟨hv, hs⟩ := Assembler.build_spec hb
  have hm : c.body.Measured := ⟨hv, hs, hc, hl⟩
  have hr := hf.rests hm
  refine ⟨hr.admits hm hf.fits hi, fun n g s hrun g' e he hh => ?_⟩
  obtain ⟨hfit, hp⟩ := hr.carried hm hf.fits hi hrun
  obtain ⟨hg, ha⟩ := hrun.held
  rcases hg.step host with ⟨result, rfl⟩ | ⟨given, q, hmv, hh', hgiven⟩
  · exact absurd hh hg.not_leaving
  · obtain ⟨rfl, hs⟩ := hh'.unique hh
    exact hgiven _ ((hp.moves hm hfit ha hmv).2 e hs he)

end Frame

/-! ### A guarded yield -/

/-- A generator body that yields inside a handler, which drops what it finds. -/
def guardedYield : Assembler where
  name := "guarded"
  firstLine := 1
  flags := .generatorBody
  consts := [.none]
  bytecode := #[Opcode.setupExcept.byte, 0, 0, Opcode.loadConst.byte, 0, 0,
    Opcode.yieldValue.byte, Opcode.popTop.byte, Opcode.popBlock.byte,
    Opcode.jumpForward.byte, 0, 0, Opcode.popTop.byte, Opcode.popTop.byte,
    Opcode.popTop.byte, Opcode.loadConst.byte, 0, 0, Opcode.returnValue.byte]
  labels := [("end", 15), ("handler", 12)]
  fixups := #[(0, "handler"), (9, "end")]

/-- The code object of the generator body. -/
def guardedCode : CodeObject where
  identity := 1
  body :=
    { name := "guarded"
      bytecode := [Opcode.setupExcept.byte, 9, 0, Opcode.loadConst.byte, 0, 0,
        Opcode.yieldValue.byte, Opcode.popTop.byte, Opcode.popBlock.byte,
        Opcode.jumpForward.byte, 3, 0, Opcode.popTop.byte, Opcode.popTop.byte,
        Opcode.popTop.byte, Opcode.loadConst.byte, 0, 0, Opcode.returnValue.byte]
      consts := [.none]
      maxStack := 3
      flags := .generatorBody
      firstLine := 1 }

theorem guardedYield_build : guardedYield.build = .ok guardedCode.body := by
  refine Assembler.build_eq_ok rfl rfl rfl ?_
  change guardedCode.body.validate = .ok ()
  cbv

/-- The paths through the body.  The handler is walked with its three values, the end along two
paths. -/
def guardedPaths : List Path :=
  [⟨0, 0, []⟩, ⟨3, 0, [⟨.setupExcept, 0⟩]⟩, ⟨6, 1, [⟨.setupExcept, 0⟩]⟩,
    ⟨7, 1, [⟨.setupExcept, 0⟩]⟩, ⟨8, 0, [⟨.setupExcept, 0⟩]⟩, ⟨9, 0, []⟩, ⟨12, 3, []⟩,
    ⟨13, 2, []⟩, ⟨14, 1, []⟩, ⟨15, 0, []⟩, ⟨18, 1, []⟩]

theorem guardedCode_consistent :
    StackDepth.Consistent guardedCode.body.flags.acceptsInput guardedCode.body.bytecode := by
  refine .of_paths guardedPaths ?_ ?_ ?_ ?_ <;> decide +kernel

theorem guardedCode_continues_no_loop :
    ∀ i ∈ guardedCode.body.instructions, i.opcode ≠ .continueLoop := by
  decide +kernel

/-- A frame about to run the body for the first time. -/
def guardedFrame : Frame where
  code := guardedCode
  globals := ⟨0⟩
  builtins := Heap.defaultBuiltins
  locals := .fast []
  cells := []
  stack := .empty 3
  trace := { line := 1 }

theorem guardedFrame_never_misfits :
    (∃ s, guardedFrame.Admits none s) ∧
      ∀ n g s, Machine.Carries Host.silent Machine.idle.chain (guardedFrame.entry .outside)
        Frame.Settled (Machine.idle.enter Host.silent guardedFrame none none .outside) n g s →
          ∀ g' e, e.isMisfit = true →
            (n.step Host.silent).Holds Machine.idle.chain (guardedFrame.entry .outside) g'
              (.leaving (.error (.fatal e))) →
            n.Hands Host.silent Machine.idle.chain (guardedFrame.entry .outside) (.fatal e) := by
  have hc : Frame.create guardedCode ⟨0⟩ Heap.defaultBuiltins [] .initial =
    .ok (guardedFrame, .initial) := rfl
  exact Frame.History.never_misfits guardedYield_build guardedCode_consistent
    guardedCode_continues_no_loop (.created (by decide) hc) (.inl rfl) .idle .outside none

end Resumable
