import Mathlib
import Resumable.Proofs.Bytecode.Targets
import Resumable.Proofs.Frame.Drift
import Resumable.Proofs.Snapshot.Restoring

/-!
# Which records are refused, and for what

A record of arbitrary values is either restored to the frame it describes or refused for something
that is wrong with it.  `FrameRecord.Describes` lists what a restored frame must carry, field by
field, and `FrameRecord.Blames` what each refusal says of the record.

* `FrameRecord.restore_eq_ok_iff_describes` : a record is restored to the frame it describes, which
  is the only one.
* `FrameRecord.blames_of_restore` : a refusal names a part of the record that does not fit the code,
  the first one where there is an order.
* `FrameRecord.restore_characterized` : the two together.  No refusal comes from the making of the
  frame itself, since the number of cells is checked before.
-/

namespace Resumable

attribute [ext] LineTrace Frame

namespace OperandStack

/-- A list with gaps is refused for its first one. -/
theorem filled_eq_error {slots : List (Option Value)} {index : Nat} {e : Fault}
    (h : filled slots index = .error e) :
    ∃ n, e = .missingStackSlot (index + n) ∧ slots[n]? = some none ∧
      ∀ m < n, slots[m]? ≠ some none := by
  induction slots generalizing index with
  | nil => cases h
  | cons slot slots ih =>
    cases slot with
    | none =>
      cases h
      exact ⟨0, rfl, rfl, fun m hm => absurd hm (Nat.not_lt_zero m)⟩
    | some v =>
      rw [filled] at h
      cases hf : filled slots (index + 1) with
      | ok vs =>
        rw [hf] at h
        cases h
      | error e' =>
        rw [hf] at h
        cases h
        obtain ⟨n, he, hn, hfirst⟩ := ih hf
        refine ⟨n + 1, by rw [he, Nat.add_right_comm, Nat.add_assoc], by simpa using hn, ?_⟩
        intro m hm
        cases m with
        | zero => simp
        | succ m => simpa using hfirst m (by omega)

end OperandStack

namespace FrameRecord

variable (r : FrameRecord)

/-- The frame is the one recorded: each field of the record has its place in it, with the very cells
and namespaces of the record, and it has neither a hook nor a caller. -/
structure Describes (f : Frame) : Prop where
  code : f.code = r.code
  globals : f.globals = r.globals
  builtins : f.builtins = r.builtins
  cells : f.cells = r.cells
  stack : f.stack.toList.map some = r.stack
  capacity : f.stack.capacity = r.code.body.maxStack
  blocks : f.blocks.reverse = r.blocks
  notStarted : f.lastOffset = none ↔ r.lastOffset = -1
  lastOffset : ∀ o, f.lastOffset = some o → r.lastOffset = o
  pending : f.pending = r.pending
  finished : f.finished = r.finished
  line : f.trace.line = r.line
  lower : f.trace.lower = r.lower
  upper : f.trace.upper = r.upper
  previous : f.trace.previous = r.previous
  fast : ∀ slots, r.locals = .fast slots → f.locals = .fast slots
  dict : ∀ names, r.locals = .dict names → f.locals = .dict names
  /-- Locals that are the globals are so again, not a copy of them. -/
  shared : r.locals = .globals → f.locals = .dict f.globals
  hook : f.trace.hook = none
  back : f.back = none

/-- What a refusal says of the record. -/
def Blames : SnapshotError → Prop
  | .versionMismatch found => found = r.version ∧ found ≠ snapshotVersion
  | .cellsMismatch expected found =>
    expected = r.code.body.cellCount ∧ found = r.cells.length ∧ found ≠ expected
  | .offsetOutOfRange offset =>
    offset = r.lastOffset ∧ offset ≠ -1 ∧
      ∀ i ∈ r.code.body.instructions, (i.offset : Int) ≠ offset
  | .stackOverflow capacity => capacity = r.code.body.maxStack ∧ capacity < r.stack.length
  | .missingStackSlot index =>
    r.stack[index]? = some none ∧ ∀ below < index, r.stack[below]? ≠ some none
  | .badBlock index =>
    ∃ b, r.blocks[index]? = some b ∧
      ((∀ i ∈ r.code.body.instructions, i.offset ≠ b.handler) ∨ r.stack.length < b.depth ∨
        ∃ outer ∈ r.blocks.take index, b.depth < outer.depth)
  | .localsMismatch => ¬r.LocalsFit
  | .invalidFrame _ | .codec _ => False

variable {r}

/-- An offset is recorded either as that of no instruction yet or as that of one. -/
theorem offset_iff :
    (r.lastOffset = -1 ∨ 0 ≤ r.lastOffset ∧ r.code.body.isBoundary r.lastOffset.toNat = true) ↔
      r.lastOffset = -1 ∨ ∃ i ∈ r.code.body.instructions, (i.offset : Int) = r.lastOffset := by
  rw [CodeOf.isBoundary_iff]
  refine or_congr Iff.rfl ⟨?_, ?_⟩
  · rintro ⟨hn, i, hi, ho⟩
    exact ⟨i, hi, by omega⟩
  · rintro ⟨i, hi, ho⟩
    exact ⟨by omega, i, hi, by omega⟩

/-- A stack is the list of its values exactly if no slot of it is missing. -/
theorem filled_iff : r.stack = r.values.map some ↔ none ∉ r.stack := by
  constructor
  · intro h hn
    rw [h] at hn
    simp at hn
  · intro h
    unfold values
    generalize r.stack = slots at h
    induction slots with
    | nil => rfl
    | cons slot slots ih =>
      rw [List.mem_cons, not_or] at h
      cases slot with
      | none => exact absurd rfl h.1
      | some v => simpa using ih h.2

/-! ### The frame restored -/

theorem describes_frame (h : r.Restorable) : r.Describes r.frame where
  code := rfl
  globals := rfl
  builtins := rfl
  cells := rfl
  stack := by
    change r.values.reverse.reverse.map some = r.stack
    rw [List.reverse_reverse, ← h.filled]
  capacity := rfl
  blocks := List.reverse_reverse _
  notStarted := by simp [frame]
  lastOffset := by
    intro o ho
    simp only [frame] at ho
    split at ho
    · cases ho
    · have hn := h.offset.resolve_left ‹_›
      have := Option.some.inj ho
      omega
  pending := rfl
  finished := rfl
  line := rfl
  lower := rfl
  upper := rfl
  previous := rfl
  fast slots hl := by simp only [frame, liveLocals, hl]
  dict names hl := by simp only [frame, liveLocals, hl]
  shared hl := by simp only [frame, liveLocals, hl]
  hook := rfl
  back := rfl

/-- A record describes one frame only. -/
theorem Describes.eq {f g : Frame} (hf : r.Describes f) (hg : r.Describes g) : f = g := by
  have hstack : f.stack = g.stack := by
    have hv : f.stack.toList = g.stack.toList :=
      List.map_injective_iff.2 (Option.some_injective _) (hf.stack.trans hg.stack.symm)
    exact OperandStack.ext (List.reverse_injective hv) (hf.capacity.trans hg.capacity.symm)
  have hblocks : f.blocks = g.blocks :=
    List.reverse_injective (hf.blocks.trans hg.blocks.symm)
  have hlast : f.lastOffset = g.lastOffset := by
    cases hfo : f.lastOffset with
    | none => exact (hg.notStarted.2 (hf.notStarted.1 hfo)).symm
    | some o =>
      cases hgo : g.lastOffset with
      -- neither frame has started if one has not, since the record says so
      | none => exact (hf.notStarted.2 (hg.notStarted.1 hgo)).symm.trans hfo |>.symm
      | some o' =>
        have ho := hf.lastOffset o hfo
        have ho' := hg.lastOffset o' hgo
        rw [show o = o' by omega]
  have hlocals : f.locals = g.locals := by
    cases hl : r.locals with
    | fast slots => rw [hf.fast slots hl, hg.fast slots hl]
    | dict names => rw [hf.dict names hl, hg.dict names hl]
    | globals => rw [hf.shared hl, hg.shared hl, hf.globals, hg.globals]
  have htrace : f.trace = g.trace :=
    LineTrace.ext (hf.line.trans hg.line.symm) (hf.hook.trans hg.hook.symm)
      (hf.lower.trans hg.lower.symm) (hf.upper.trans hg.upper.symm)
      (hf.previous.trans hg.previous.symm)
  exact Frame.ext (hf.code.trans hg.code.symm) (hf.globals.trans hg.globals.symm)
    (hf.builtins.trans hg.builtins.symm) hlocals (hf.cells.trans hg.cells.symm) hstack hblocks hlast
    (hf.back.trans hg.back.symm) (hf.pending.trans hg.pending.symm) htrace
    (hf.finished.trans hg.finished.symm)

/-- **Restoring a record** makes the frame that the record describes, if the record fits its code,
and no other frame. -/
theorem restore_eq_ok_iff_describes {f : Frame} :
    r.restore = .ok f ↔ r.Restorable ∧ r.Describes f := by
  rw [restore_eq_ok_iff]
  constructor
  · rintro ⟨hr, rfl⟩
    exact ⟨hr, describes_frame hr⟩
  · rintro ⟨hr, hf⟩
    exact ⟨hr, hf.eq (describes_frame hr)⟩

/-! ### What a record is refused for -/

theorem offset?_eq_error {e : SnapshotError} (h : r.offset? = .error e) : r.Blames e := by
  unfold offset? at h
  split at h
  case isTrue => cases h
  case isFalse hn =>
    split at h
    case isTrue => cases h
    case isFalse hb =>
      cases h
      refine ⟨rfl, hn, fun i hi ho => hb ?_⟩
      exact (offset_iff.2 (.inr ⟨i, hi, ho⟩)).resolve_left hn

theorem stack?_eq_error {e : SnapshotError} (h : r.stack? = .error e) : r.Blames e := by
  unfold stack? OperandStack.restore at h
  -- the size is checked first, so a list too long is not looked at for gaps
  by_cases hl : r.code.body.maxStack < r.stack.length
  · have hc : (OperandStack.empty r.code.body.maxStack).capacity < r.stack.length := hl
    simp only [if_pos hc] at h
    cases h
    exact ⟨rfl, hl⟩
  · have hc : ¬(OperandStack.empty r.code.body.maxStack).capacity < r.stack.length := hl
    simp only [if_neg hc] at h
    cases hf : OperandStack.filled r.stack 0 with
    | ok vs =>
      rw [hf] at h
      cases h
    | error fault =>
      obtain ⟨n, rfl, hn, hfirst⟩ := OperandStack.filled_eq_error hf
      rw [hf] at h
      cases h
      rw [Nat.zero_add]
      exact ⟨hn, hfirst⟩

/-- A block is named whose handler is no instruction, or which lies above the stack or below a block
around it. -/
theorem badBlock?_eq_some {code : Code} {depth index least i : Nat} {blocks : List Block}
    (h : badBlock? code depth blocks index least = some i) :
    ∃ n b, i = index + n ∧ blocks[n]? = some b ∧
      (¬code.isBoundary b.handler = true ∨ depth < b.depth ∨ b.depth < least ∨
        ∃ outer ∈ blocks.take n, b.depth < outer.depth) := by
  induction blocks generalizing index least with
  | nil => cases h
  | cons b inner ih =>
    rw [badBlock?] at h
    split at h
    case isTrue hb =>
      -- from here on the least depth is that of this block, which is then one of those around
      obtain ⟨n, c, rfl, hc, hbad⟩ := ih h
      refine ⟨n + 1, c, by omega, by simpa using hc, ?_⟩
      rcases hbad with hbad | hbad | hbad | ⟨outer, ho, hbad⟩
      · exact .inl hbad
      · exact .inr (.inl hbad)
      · exact .inr (.inr (.inr ⟨b, by simp, hbad⟩))
      · exact .inr (.inr (.inr ⟨outer, by simp [ho], hbad⟩))
    case isFalse hb =>
      cases h
      refine ⟨0, b, rfl, rfl, ?_⟩
      by_contra hall
      simp only [not_or, not_lt] at hall
      exact hb ⟨not_not.1 hall.1, hall.2.1, hall.2.2.1⟩

theorem blames_badBlock {i : Nat}
    (h : badBlock? r.code.body r.stack.length r.blocks 0 0 = some i) : r.Blames (.badBlock i) := by
  obtain ⟨n, b, rfl, hb, hbad⟩ := badBlock?_eq_some h
  rw [Nat.zero_add]
  refine ⟨b, hb, ?_⟩
  rcases hbad with hbad | hbad | hbad | hbad
  · refine .inl fun j hj ho => hbad (CodeOf.isBoundary_iff.2 ⟨j, hj, ho⟩)
  · exact .inr (.inl hbad)
  · exact absurd hbad (Nat.not_lt_zero _)
  · exact .inr (.inr hbad)

theorem locals?_eq_error {e : SnapshotError} (h : r.locals? = .error e) : r.Blames e := by
  have he : e = .localsMismatch := by
    simp only [locals?] at h
    split at h
    · split at h <;> cases h
      rfl
    · cases h
    · cases h
    · cases h
      rfl
  rw [he]
  intro hf
  rw [locals?_eq_ok_iff.2 ⟨hf, rfl⟩] at h
  cases h

/-- **A refusal** says of the record what is the case. -/
theorem blames_of_restore {e : SnapshotError} (h : r.restore = .error e) : r.Blames e := by
  unfold restore at h
  by_cases hv : r.version = snapshotVersion
  case neg =>
    rw [if_pos hv] at h
    cases h
    exact ⟨rfl, hv⟩
  by_cases hc : r.cells.length = r.code.body.cellCount
  case neg =>
    rw [if_neg (not_not_intro hv), if_pos hc] at h
    cases h
    exact ⟨rfl, rfl, hc⟩
  -- the cells that are left for the free variables are as many as these, so a frame can be made
  simp only [hv, hc, length_closure hc, ne_eq, not_true_eq_false, if_false] at h
  cases ho : r.offset? with
  | error e' =>
    rw [ho] at h
    cases h
    exact offset?_eq_error ho
  | ok o =>
    cases hs : r.stack? with
    | error e' =>
      rw [ho, hs] at h
      cases h
      exact stack?_eq_error hs
    | ok s =>
      cases hb : badBlock? r.code.body r.stack.length r.blocks 0 0 with
      | some i =>
        rw [ho, hs, hb] at h
        cases h
        exact blames_badBlock hb
      | none =>
        cases hl : r.locals? with
        | error e' =>
          rw [ho, hs, hb, hl] at h
          cases h
          exact locals?_eq_error hl
        | ok l =>
          rw [ho, hs, hb, hl] at h
          cases h

/-- What must be the case for a record to be restored, with instructions in the place of the offsets
at which one starts. -/
theorem restorable_iff : r.Restorable ↔
    r.version = snapshotVersion ∧
    r.cells.length = r.code.body.cellCount ∧
    (r.lastOffset = -1 ∨ ∃ i ∈ r.code.body.instructions, (i.offset : Int) = r.lastOffset) ∧
    none ∉ r.stack ∧
    r.stack.length ≤ r.code.body.maxStack ∧
    (∀ b ∈ r.blocks, ∃ i ∈ r.code.body.instructions, i.offset = b.handler) ∧
    (r.blocks.Pairwise fun b inner => b.depth ≤ inner.depth) ∧
    (∀ b ∈ r.blocks, b.depth ≤ r.stack.length) ∧
    r.LocalsFit := by
  constructor
  · intro h
    exact ⟨h.version, h.cells, offset_iff.1 h.offset, filled_iff.1 h.filled, h.room,
      fun b hb => CodeOf.isBoundary_iff.1 (h.handlers b hb), h.nested, h.depths, h.locals⟩
  · rintro ⟨hv, hc, ho, hf, hr, hh, hn, hd, hl⟩
    exact ⟨hv, hc, offset_iff.2 ho, filled_iff.2 hf, hr,
      fun b hb => CodeOf.isBoundary_iff.2 (hh b hb), hd, hn, hl⟩

/-- **Restoring, for every record**.  It succeeds exactly if the version is the current one, there
are as many cells as the code has, the offset executed last is none or that of an instruction, no
slot of the stack is missing and the stack fits, every block leads to an instruction, the depths of
the blocks never decrease and lie within the stack, and the locals are of the kind and number that
the flags of the code ask for.  The frame is then the one that the record describes.  A record that
is refused is refused for something that is wrong with it, and never because no frame can be made
for its code. -/
theorem restore_characterized (r : FrameRecord) :
    ((∃ f, r.restore = .ok f) ↔
      r.version = snapshotVersion ∧
      r.cells.length = r.code.body.cellCount ∧
      (r.lastOffset = -1 ∨ ∃ i ∈ r.code.body.instructions, (i.offset : Int) = r.lastOffset) ∧
      none ∉ r.stack ∧
      r.stack.length ≤ r.code.body.maxStack ∧
      (∀ b ∈ r.blocks, ∃ i ∈ r.code.body.instructions, i.offset = b.handler) ∧
      (r.blocks.Pairwise fun b inner => b.depth ≤ inner.depth) ∧
      (∀ b ∈ r.blocks, b.depth ≤ r.stack.length) ∧
      r.LocalsFit) ∧
    (∀ f, r.restore = .ok f → r.Describes f ∧ ∀ g, r.Describes g → g = f) ∧
    (∀ e, r.restore = .error e → r.Blames e) ∧
    ∀ fault, r.restore ≠ .error (.invalidFrame fault) := by
  refine ⟨?_, ?_, fun e he => blames_of_restore he, fun fault hf => blames_of_restore hf⟩
  · rw [← restorable_iff]
    constructor
    · rintro ⟨f, hf⟩
      exact restorable_of_restore hf
    · intro hr
      exact ⟨r.frame, restore_frame hr⟩
  · intro f hf
    have hd := (restore_eq_ok_iff_describes.1 hf).2
    exact ⟨hd, fun g hg => hg.eq hd⟩

end FrameRecord

end Resumable
