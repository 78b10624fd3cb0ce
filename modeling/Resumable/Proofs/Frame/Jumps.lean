import Resumable.Debugger
import Resumable.Proofs.Bytecode.Lines
import Resumable.Proofs.Bytecode.Nesting
import Resumable.Proofs.Machine.Handlers
import Resumable.Proofs.Machine.StackBound

/-!
# Jumps, blocks and handlers

A jump takes a frame from one offset to another and executes nothing in between.  It leaves the
blocks that are open only where it starts, and would enter those that are open only where it leads
(`CodeOf.left`); from the block balance in between it tells how many (`Frame.remaining_spec`).

A jump forward never enters a block.  A jump backward may, if it leaves twice as many: then it drops
as many live blocks as make the number right, and those that stay stand for other blocks than those
open at the target (`Frame.jump_blocks`).

Handlers are compared by what runs right after an instruction, so a jump may start at or lead to the
edge of a handler of which the other offset is not in (`Frame.jump_handlers`).
-/

namespace Resumable

namespace Frame

variable {f g : Frame} {line here target : Nat}

/-- How many blocks are to stay live on a jump from one offset to another. -/
def remaining (f : Frame) (here target : Nat) : Int :=
  if here < target then f.blocks.length + (f.balanceBetween here target).1
  else f.blocks.length - (f.balanceBetween here target).1

/-- The frame after a jump. -/
def movedTo (f : Frame) (here target line : Nat) : Frame :=
  { f with
    blocks := (dropBlocks (f.remaining here target) f.blocks f.stack).1
    stack := (dropBlocks (f.remaining here target) f.blocks f.stack).2
    lastOffset := some target
    trace := { f.trace with line } }

/-- A jump is refused for want of a hook or of a fitting line, for an exception that is missing or a
handler that is entered or left; if not for these, it depends on the block balance. -/
theorem jump_cases (ho : f.lastOffset.getD 0 = here) (line : Nat) :
    (∃ e, f.jump line = .error e ∧ e ≠ .intoBlock ∧
      ∀ l, e = .afterCode l → f.jumpTarget? line = none) ∨
      ∃ target l, f.jumpTarget? line = some (target, l) ∧
        f.code.body.handlerAt? here = f.code.body.handlerAt? target ∧
        if f.blocks.length + (f.balanceBetween here target).2 < f.remaining here target then
          f.jump line = .error .intoBlock
        else f.jump line = .ok (f.movedTo here target l) := by
  unfold jump
  split
  · exact .inl ⟨_, rfl, nofun, nofun⟩
  · split
    · exact .inl ⟨_, rfl, nofun, nofun⟩
    · cases ht : f.jumpTarget? line with
      | none => exact .inl ⟨_, rfl, nofun, fun _ _ => rfl⟩
      | some t =>
        obtain ⟨target, l⟩ := t
        dsimp only
        rw [ho]
        split
        · exact .inl ⟨_, rfl, nofun, nofun⟩
        · split
          · exact .inl ⟨_, rfl, nofun, nofun⟩
          · rename_i hh
            refine .inr ⟨target, l, rfl, not_ne_iff.1 hh, ?_⟩
            split
            · rename_i hlt
              exact if_pos hlt
            · rename_i hlt
              exact if_neg hlt

/-- What a jump that succeeds has found. -/
theorem jump_eq_ok (ho : f.lastOffset.getD 0 = here) (hj : f.jump line = .ok g) :
    ∃ target l, f.jumpTarget? line = some (target, l) ∧
      f.code.body.handlerAt? here = f.code.body.handlerAt? target ∧
      f.remaining here target ≤ f.blocks.length + (f.balanceBetween here target).2 ∧
      g = f.movedTo here target l := by
  rcases f.jump_cases ho line with ⟨e, he, -⟩ | ⟨target, l, ht, hh, hmove⟩
  · rw [hj] at he
    cases he
  · split at hmove
    · rw [hj] at hmove
      cases hmove
    · rename_i hlt
      exact ⟨target, l, ht, hh, Int.not_lt.1 hlt, Except.ok.inj (hj.symm.trans hmove)⟩

/-- A jump leads to an instruction. -/
theorem isBoundary_of_jumpTarget? {l : Nat} (hv : f.code.body.Valid)
    (ht : f.jumpTarget? line = some (target, l)) : f.code.body.isBoundary target = true := by
  unfold jumpTarget? at ht
  rw [Option.filter_eq_some_iff] at ht
  have hl : target < f.code.body.bytecode.length := by simpa using ht.2
  exact (hv.lineStart (List.mem_of_find?_eq_some ht.1)).resolve_left (Nat.ne_of_lt hl)

/-- Blocks are dropped from the inside, and the stack is cut to the depth of each. -/
theorem dropBlocks_eq {keep : Int} {n : Nat} {bs : List Block} (hk : keep + n = bs.length)
    (s : OperandStack) : dropBlocks keep bs s = (bs.drop n, s.cutThrough (bs.take n)) := by
  induction bs generalizing n s with
  | nil =>
    rw [List.drop_nil, List.take_nil]
    rfl
  | cons b outer ih =>
    rw [List.length_cons] at hk
    rw [dropBlocks]
    cases n with
    | zero =>
      rw [if_neg (by omega)]
      rfl
    | succ n =>
      rw [if_pos (by omega), ih (n := n) (by omega)]
      rfl

end Frame

/-- The live block stands for a block of the code: it is of the kind that the setup of that block
opens, and its handler is where the setup leads. -/
def Block.Marks (c : Code) (b : Block) (s : StaticBlock) : Prop :=
  ∃ i ∈ c.instructions, i.offset = s.setup ∧ i.opcode = b.kind.setup ∧ i.target? = some b.handler

namespace Frame

variable {f g : Frame} {line here target : Nat}

/-- The live blocks stand, one for one and in order, for the blocks open at an offset. -/
def Marked (f : Frame) (o : Nat) : Prop :=
  List.Forall₂ (Block.Marks f.code.body) f.blocks (f.code.body.openAt o)

/-- What a jump from one offset to another has made of the blocks of a frame.  It leaves the blocks
open only here and enters those open only at the target; it should enter none. -/
structure Moved (f g : Frame) (here target : Nat) : Prop where
  code : g.code = f.code
  lastOffset : g.lastOffset = some target
  blocks : g.blocks = f.blocks.drop
    ((f.code.body.left here target).length - (f.code.body.left target here).length)
  stack : g.stack = f.stack.cutThrough (f.blocks.take
    ((f.code.body.left here target).length - (f.code.body.left target here).length))
  count : g.blocks.length = (f.code.body.openAt target).length
  /-- A jump forward enters no block. -/
  forward : here ≤ target → f.code.body.left target here = []
  /-- A jump backward enters at most half as many blocks as it leaves. -/
  backward : 2 * (f.code.body.left target here).length ≤ (f.code.body.left here target).length
  /-- Unless a block is entered, the blocks that are live are those open at the target. -/
  marked : f.code.body.left target here = [] → g.Marked target

/-- The block balance between two offsets, in terms of the blocks open at them: on the way forward
the blocks left are closed and those entered are opened, on the way back it is the reverse. -/
theorem remaining_spec (hv : f.code.body.Valid) (hp : f.code.body.Paired) (here target : Nat) :
    ∃ common, f.code.body.openAt here = f.code.body.left here target ++ common ∧
      f.code.body.openAt target = f.code.body.left target here ++ common ∧
      f.remaining here target = f.blocks.length + (f.code.body.left target here).length -
        (f.code.body.left here target).length ∧
      (f.balanceBetween here target).2 = -((if here ≤ target then f.code.body.left here target
        else f.code.body.left target here).length : Int) := by
  have between {lo hi : Nat} (h : min here target = lo) (h' : max here target = hi) :
      f.balanceBetween here target = blockBalance (f.code.body.stretch lo hi) := by
    rw [← h, ← h']
    rfl
  unfold remaining
  rcases Nat.lt_or_ge target here with hlt | hle
  · obtain ⟨common, h⟩ := hp.crosses_left hv (Nat.le_of_lt hlt)
    rw [between (Nat.min_eq_right (Nat.le_of_lt hlt)) (Nat.max_eq_left (Nat.le_of_lt hlt)),
      h.balance, if_neg (Nat.lt_asymm hlt), if_neg (Nat.not_le.2 hlt)]
    exact ⟨common, h.stop, h.start, by omega, rfl⟩
  · obtain ⟨common, h⟩ := hp.crosses_left hv hle
    rw [between (Nat.min_eq_left hle) (Nat.max_eq_right hle), h.balance, if_pos hle]
    refine ⟨common, h.start, h.stop, ?_, rfl⟩
    split
    · omega
    · obtain rfl : here = target := by omega
      omega

/-- A jump that is not refused as one into a block. -/
theorem moved (hv : f.code.body.Valid) (hp : f.code.body.Paired) (hm : f.Marked here) (l : Nat)
    (ha : f.remaining here target ≤ f.blocks.length + (f.balanceBetween here target).2) :
    f.Moved (f.movedTo here target l) here target := by
  obtain ⟨common, hfrom, hto, hr, hleast⟩ := f.remaining_spec hv hp here target
  have hlen := hm.length_eq
  rw [hfrom, List.length_append] at hlen
  -- on the way forward the least balance counts what is left, so that nothing may be entered
  have hforward : here ≤ target → f.code.body.left target here = [] := by
    intro h
    rw [if_pos h] at hleast
    exact List.length_eq_zero_iff.1 (by omega)
  -- on the way back it counts what is entered, and is compared with what is left all the same
  have hbackward : 2 * (f.code.body.left target here).length ≤
      (f.code.body.left here target).length := by
    rcases Nat.lt_or_ge target here with hlt | hle
    · rw [if_neg (Nat.not_le.2 hlt)] at hleast
      omega
    · rw [hforward hle]
      exact Nat.zero_le _
  have hkeep : f.remaining here target + ((f.code.body.left here target).length -
      (f.code.body.left target here).length : Nat) = f.blocks.length := by omega
  have hdrop := dropBlocks_eq hkeep f.stack
  refine ⟨rfl, rfl, congrArg Prod.fst hdrop, congrArg Prod.snd hdrop, ?_, hforward, hbackward, ?_⟩
  · show (dropBlocks _ _ _).1.length = _
    rw [hdrop, List.length_drop, hto, List.length_append]
    omega
  · intro hnone
    show List.Forall₂ (Block.Marks f.code.body) (dropBlocks _ _ _).1 (f.code.body.openAt target)
    rw [hdrop, hto, hnone, List.length_nil, Nat.sub_zero, List.nil_append]
    have hd := List.forall₂_drop (f.code.body.left here target).length hm
    rw [hfrom, List.drop_left] at hd
    exact hd

/-- **Jumps and blocks.**  Let the blocks of valid code pair up, and let the live blocks of a frame
stand for those open where it is.  If a jump is refused, the frame is as before, and if it is
refused as one into a block, it would have entered one.  If it succeeds, the innermost live blocks
are dropped, and the stack is cut to the depth of each, so that as many are left as are open at the
target, and unless the jump has led back into a block, these stand for the blocks open there. -/
theorem jump_blocks (hv : f.code.body.Valid) (hp : f.code.body.Paired)
    (ho : f.lastOffset = some here) (hm : f.Marked here) (line : Nat) :
    (∀ e, f.jump line = .error e →
      (∀ h, (Act.jump line).perform h f = (f, .jumped f (some e))) ∧
        (e = .intoBlock → ∃ target l, f.jumpTarget? line = some (target, l) ∧
          f.code.body.left target here ≠ [])) ∧
      ∀ g, f.jump line = .ok g → ∃ target l, f.jumpTarget? line = some (target, l) ∧
        f.Moved g here target := by
  have hget : f.lastOffset.getD 0 = here := by rw [ho, Option.getD_some]
  constructor
  · intro e he
    refine ⟨fun h => by rw [Act.perform, he], ?_⟩
    rintro rfl
    rcases f.jump_cases hget line with ⟨e, he', hne, -⟩ | ⟨target, l, ht, -, hj⟩
    · exact absurd (Except.error.inj (he'.symm.trans he)) hne
    · refine ⟨target, l, ht, fun hnone => ?_⟩
      split at hj
      · rename_i hlt
        -- with nothing to enter, as many blocks remain as there are at least
        obtain ⟨-, -, -, hr, hleast⟩ := f.remaining_spec hv hp here target
        rw [hr, hleast, hnone, List.length_nil] at hlt
        split at hlt
        · omega
        · rw [List.length_nil] at hlt
          omega
      · rw [he] at hj
        cases hj
  · intro g hg
    obtain ⟨target, l, ht, -, hlive, rfl⟩ := jump_eq_ok hget hg
    exact ⟨target, l, ht, moved hv hp hm l hlive⟩

end Frame

/-! ### A jump back into a loop -/

/-- The code of a loop on the lines 2 and 3 and of two nested ones on the lines 4 and 5, each around
a `NOP`. -/
def loopsCode : CodeObject where
  identity := 1
  body :=
    { name := "loops"
      bytecode := [Opcode.setupLoop.byte, 2, 0, Opcode.nop.byte, Opcode.popBlock.byte,
        Opcode.setupLoop.byte, 6, 0, Opcode.setupLoop.byte, 2, 0, Opcode.nop.byte,
        Opcode.popBlock.byte, Opcode.popBlock.byte,
        Opcode.loadConst.byte, 0, 0, Opcode.returnValue.byte]
      consts := [.none]
      maxStack := 1
      firstLine := 1
      lineTable := [0, 1, 3, 1, 2, 1, 6, 1, 3, 1] }

theorem loopsCode_valid : loopsCode.body.Valid := by
  change loopsCode.body.validate = .ok ()
  cbv

theorem loopsCode_instructions : loopsCode.body.instructions =
    [⟨0, .setupLoop, 2⟩, ⟨3, .nop, 0⟩, ⟨4, .popBlock, 0⟩, ⟨5, .setupLoop, 6⟩, ⟨8, .setupLoop, 2⟩,
      ⟨11, .nop, 0⟩, ⟨12, .popBlock, 0⟩, ⟨13, .popBlock, 0⟩, ⟨14, .loadConst, 0⟩,
      ⟨17, .returnValue, 0⟩] := by
  cbv

theorem loopsCode_paired : loopsCode.body.Paired := by
  unfold CodeOf.Paired CodeOf.openedBefore CodeOf.stretch
  rw [loopsCode_instructions]
  decide

/-- A frame of that code at an offset, within a hook. -/
def loopsFrame (offset line : Nat) (blocks : List Block) : Frame where
  code := loopsCode
  globals := ⟨0⟩
  builtins := Heap.defaultBuiltins
  locals := .dict ⟨0⟩
  cells := []
  stack := .empty 1
  blocks
  lastOffset := some offset
  trace := { line, hook := some 0 }

/-- The frame at the `NOP` of the nested loops, both blocks being live. -/
def nestedFrame : Frame := loopsFrame 11 5 [⟨.loop, 13, 0⟩, ⟨.loop, 14, 0⟩]

theorem nestedFrame_jump : nestedFrame.jump 3 = .ok (loopsFrame 3 3 [⟨.loop, 14, 0⟩]) := by
  cbv

theorem loopsCode_openAt : loopsCode.body.openAt 3 = [⟨0, false, false⟩] ∧
    loopsCode.body.openAt 11 = [⟨8, false, false⟩, ⟨5, false, false⟩] := by
  unfold CodeOf.openAt CodeOf.openedBefore CodeOf.stretch
  rw [loopsCode_instructions]
  decide

theorem nestedFrame_marked : nestedFrame.Marked 11 := by
  show List.Forall₂ (Block.Marks loopsCode.body) _ (loopsCode.body.openAt 11)
  rw [loopsCode_openAt.2]
  have mem (i : Instruction) (hi : i ∈ [⟨5, .setupLoop, 6⟩, ⟨8, .setupLoop, 2⟩]) :
      i ∈ loopsCode.body.instructions := by
    rw [loopsCode_instructions]
    revert i
    decide
  exact .cons ⟨⟨8, .setupLoop, 2⟩, mem _ (by decide), rfl, rfl, rfl⟩
    (.cons ⟨⟨5, .setupLoop, 6⟩, mem _ (by decide), rfl, rfl, rfl⟩ .nil)

/-- The jump from the `NOP` of the nested loops back to that of the first loop drops one block, and
the one that stays stands for the outer one of the nested loops, not for the loop entered. -/
theorem nestedFrame_jump_back : ∃ g, nestedFrame.jump 3 = .ok g ∧ nestedFrame.Moved g 11 3 ∧
    ¬g.Marked 3 := by
  obtain ⟨target, l, -, hmoved⟩ := (Frame.jump_blocks loopsCode_valid loopsCode_paired rfl
    nestedFrame_marked 3).2 _ nestedFrame_jump
  cases hmoved.lastOffset
  refine ⟨_, nestedFrame_jump, hmoved, fun hm => ?_⟩
  unfold Frame.Marked at hm
  rw [show (loopsFrame 3 3 _).code = loopsCode from rfl, loopsCode_openAt.1] at hm
  obtain ⟨⟨i, hi, ho, -, ht⟩, -⟩ := List.forall₂_cons.1 hm
  rw [loopsCode_instructions] at hi
  revert i
  decide

/-! ### Jumps among handlers -/

/-- **Jumps and handlers.**  A jump from an instruction that succeeds crosses a `finally` handler
only at its edges: counted from the `POP_BLOCK` that begins it up to, not including, the
`END_FINALLY` that ends it, both offsets are in the same handlers.  So they are in the same handlers
as these run, behind the former and up to the latter, unless one of the offsets is at an edge. -/
theorem Frame.jump_handlers {f g : Frame} {line here : Nat} (hv : f.code.body.Valid)
    (ho : f.lastOffset = some here)
    (hb : f.code.body.isBoundary here = true) (hj : f.jump line = .ok g) :
    ∃ target, g.lastOffset = some target ∧
      ∀ s p e, f.code.body.BeginsHandler s p → f.code.body.EndsHandler s e →
        (p ≤ here ∧ here < e ↔ p ≤ target ∧ target < e) ∧
          ((p < here ∧ here ≤ e ↔ p < target ∧ target ≤ e) ↔
            here = target ∨ (here ≠ p ∧ here ≠ e ∧ target ≠ p ∧ target ≠ e)) := by
  have hget : f.lastOffset.getD 0 = here := by rw [ho, Option.getD_some]
  obtain ⟨target, l, ht, hh, -, rfl⟩ := jump_eq_ok hget hj
  refine ⟨target, rfl, fun s p e hp he => ?_⟩
  obtain ⟨i, hi, rfl⟩ := CodeOf.isBoundary_iff.1 hb
  obtain ⟨j, hj', rfl⟩ := CodeOf.isBoundary_iff.1 (isBoundary_of_jumpTarget? hv ht)
  -- the handlers compared are those that run at the offsets right behind
  rw [hv.handlerAt? hi, hv.handlerAt? hj'] at hh
  have hruns := hv.runs_congr (s := s) hh
  have hpe := ((hv.runs_iff hp he (o := e)).1 he.runs).1
  rw [hv.runs_iff hp he, hv.runs_iff hp he] at hruns
  omega

/-- The code of a `finally` block on the lines 3 and 4 with a handler on the lines 5 and 6. -/
def cleanupCode : CodeObject where
  identity := 1
  body :=
    { name := "cleanup"
      bytecode := [Opcode.nop.byte, Opcode.setupFinally.byte, 2, 0, Opcode.nop.byte,
        Opcode.popBlock.byte, Opcode.nop.byte, Opcode.endFinally.byte,
        Opcode.loadConst.byte, 0, 0, Opcode.returnValue.byte]
      consts := [.none]
      maxStack := 3
      firstLine := 1
      lineTable := [0, 1, 1, 1, 3, 1, 2, 1, 1, 1, 1, 1] }

theorem cleanupCode_valid : cleanupCode.body.Valid := by
  change cleanupCode.body.validate = .ok ()
  cbv

theorem cleanupCode_instructions : cleanupCode.body.instructions =
    [⟨0, .nop, 0⟩, ⟨1, .setupFinally, 2⟩, ⟨4, .nop, 0⟩, ⟨5, .popBlock, 0⟩, ⟨6, .nop, 0⟩,
      ⟨7, .endFinally, 0⟩, ⟨8, .loadConst, 0⟩, ⟨11, .returnValue, 0⟩] := by
  cbv

theorem cleanupCode_handler :
    cleanupCode.body.BeginsHandler 1 5 ∧ cleanupCode.body.EndsHandler 1 7 := by
  unfold CodeOf.BeginsHandler CodeOf.EndsHandler CodeOf.openedBefore CodeOf.stretch
  rw [cleanupCode_instructions]
  decide

/-- A frame of that code at an offset, within a hook. -/
def cleanupFrame (offset line : Nat) : Frame where
  code := cleanupCode
  globals := ⟨0⟩
  builtins := Heap.defaultBuiltins
  locals := .dict ⟨0⟩
  cells := []
  stack := .empty 3
  lastOffset := some offset
  trace := { line, hook := some 0 }

theorem cleanupFrame_jump : (cleanupFrame 0 2).jump 6 = .ok (cleanupFrame 7 6) := by
  cbv

/-- The jump from before the block to its `END_FINALLY` leads to the edge of the handler, and into
it. -/
theorem cleanupFrame_jump_in : ∃ g target, (cleanupFrame 0 2).jump 6 = .ok g ∧
    g.lastOffset = some target ∧ cleanupCode.body.BeginsHandler 1 5 ∧
      cleanupCode.body.EndsHandler 1 7 ∧ ¬(5 < 0 ∧ 0 ≤ 7 ↔ 5 < target ∧ target ≤ 7) := by
  have hb : cleanupCode.body.isBoundary 0 = true := by cbv
  obtain ⟨target, hl, h⟩ := Frame.jump_handlers cleanupCode_valid rfl hb cleanupFrame_jump
  obtain ⟨hbegins, hends⟩ := cleanupCode_handler
  refine ⟨_, target, cleanupFrame_jump, hl, hbegins, hends, ?_⟩
  cases hl
  exact (h 1 5 7 hbegins hends).2.not.2 (by decide)

end Resumable
