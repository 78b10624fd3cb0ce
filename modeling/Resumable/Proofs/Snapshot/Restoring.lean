import Resumable.Snapshot.Basic

/-!
# When a record is restored

`FrameRecord.restore` checks a record against its code.  `FrameRecord.Restorable` says what it
accepts, `FrameRecord.frame` is the frame it then makes, and `FrameRecord.restore_eq_ok_iff` that
nothing else happens.  A restored frame is recorded as it was (`FrameRecord.capture_frame`).
-/

namespace Resumable

namespace OperandStack

/-- A list without gaps is filled by its values. -/
theorem filled_eq_ok_iff {slots : List (Option Value)} {index : Nat} {vs : List Value} :
    filled slots index = .ok vs ↔ slots = vs.map some := by
  induction slots generalizing index vs with
  | nil => cases vs <;> simp [filled]
  | cons slot slots ih =>
    cases slot with
    | none => cases vs <;> simp [filled]
    | some v =>
      have hc : filled (some v :: slots) index = .ok vs ↔
          ∃ ws, filled slots (index + 1) = .ok ws ∧ v :: ws = vs := by
        rw [filled]
        cases filled slots (index + 1) <;> simp [Except.map]
      rw [hc]
      cases vs with
      | nil => simp
      | cons w vs =>
        constructor
        · rintro ⟨ws, hf, hw⟩
          obtain ⟨rfl, rfl⟩ := List.cons.inj hw
          rw [ih.1 hf, List.map_cons]
        · intro h
          obtain ⟨hv, hs⟩ := List.cons.inj h
          exact ⟨vs, ih.2 hs, by rw [Option.some.inj hv]⟩

end OperandStack

attribute [ext] FrameRecord

/-- Locals that are the globals are not recorded as a mapping of their own. -/
theorem Frame.capture_dict_ne {f : Frame} {names : Ref .mapping}
    (h : f.capture.locals = .dict names) : names ≠ f.globals := by
  unfold Frame.capture at h
  cases hl : f.locals with
  | fast slots =>
    rw [hl] at h
    cases h
  | dict r =>
    simp only [hl] at h
    split at h
    · cases h
    · cases h
      assumption

namespace FrameRecord

variable (r : FrameRecord)

/-- The locals are of the kind, and as many, as the code has. -/
def LocalsFit : Prop :=
  match r.locals with
  | .fast slots => r.code.body.flags.optimized = true ∧ slots.length = r.code.body.varnames.length
  | .dict _ => r.code.body.flags.optimized = false ∧ r.code.body.flags.newLocals = true
  | .globals => r.code.body.flags.optimized = false ∧ r.code.body.flags.newLocals = false

/-- The values recorded, the bottom one first. -/
def values : List Value := r.stack.filterMap id

/-- What a record must be like to be restored. -/
structure Restorable : Prop where
  version : r.version = snapshotVersion
  cells : r.cells.length = r.code.body.cellCount
  offset : r.lastOffset = -1 ∨ 0 ≤ r.lastOffset ∧ r.code.body.isBoundary r.lastOffset.toNat = true
  filled : r.stack = r.values.map some
  room : r.stack.length ≤ r.code.body.maxStack
  handlers : ∀ b ∈ r.blocks, r.code.body.isBoundary b.handler = true
  depths : ∀ b ∈ r.blocks, b.depth ≤ r.stack.length
  nested : r.blocks.Pairwise fun b inner => b.depth ≤ inner.depth
  locals : r.LocalsFit

/-- The locals of the frame recorded. -/
def liveLocals : Locals :=
  match r.locals with
  | .fast slots => .fast slots
  | .dict names => .dict names
  | .globals => .dict r.globals

/-- The frame recorded, without a hook and without a caller. -/
def frame : Frame where
  code := r.code
  globals := r.globals
  builtins := r.builtins
  locals := r.liveLocals
  cells := r.cells
  stack := ⟨r.values.reverse, r.code.body.maxStack, r.values.reverse.length, rfl⟩
  blocks := r.blocks.reverse
  lastOffset := if r.lastOffset = -1 then none else some r.lastOffset.toNat
  pending := r.pending
  finished := r.finished
  trace := { line := r.line, lower := r.lower, upper := r.upper, previous := r.previous }

variable {r}

theorem offset?_eq_ok_iff {o : Option Nat} : r.offset? = .ok o ↔
    (r.lastOffset = -1 ∨ 0 ≤ r.lastOffset ∧ r.code.body.isBoundary r.lastOffset.toNat = true) ∧
      o = r.frame.lastOffset := by
  unfold offset? frame
  by_cases h : r.lastOffset = -1
  · rw [if_pos h, if_pos h]
    exact ⟨fun ho => ⟨.inl h, (Except.ok.inj ho).symm⟩, fun ho => by rw [ho.2]⟩
  · rw [if_neg h, if_neg h]
    by_cases hb : 0 ≤ r.lastOffset ∧ r.code.body.isBoundary r.lastOffset.toNat = true
    · rw [if_pos hb]
      exact ⟨fun ho => ⟨.inr hb, (Except.ok.inj ho).symm⟩, fun ho => by rw [ho.2]⟩
    · rw [if_neg hb]
      exact ⟨nofun, fun ho => absurd (ho.1.resolve_left h) hb⟩

theorem values_of_stack {vs : List Value} (h : r.stack = vs.map some) : r.values = vs := by
  unfold values
  rw [h, List.filterMap_map]
  exact List.filterMap_some

theorem stack?_eq_ok_iff {s : OperandStack} : r.stack? = .ok s ↔
    r.stack = r.values.map some ∧ r.stack.length ≤ r.code.body.maxStack ∧ s = r.frame.stack := by
  have hr : r.stack? = .ok s ↔
      (OperandStack.empty r.code.body.maxStack).restore r.stack = .ok s := by
    unfold stack?
    split <;> simp_all
  rw [hr, OperandStack.restore]
  by_cases hl : r.code.body.maxStack < r.stack.length
  · have hc : (OperandStack.empty r.code.body.maxStack).capacity < r.stack.length := hl
    rw [if_pos hc]
    exact ⟨nofun, fun h => absurd h.2.1 (by omega)⟩
  · have hc : ¬(OperandStack.empty r.code.body.maxStack).capacity < r.stack.length := hl
    rw [if_neg hc]
    cases hf : OperandStack.filled r.stack 0 with
    | error e =>
      refine ⟨nofun, fun h => ?_⟩
      rw [OperandStack.filled_eq_ok_iff.2 h.1] at hf
      cases hf
    | ok vs =>
      have hs := OperandStack.filled_eq_ok_iff.1 hf
      have hv := values_of_stack hs
      refine ⟨fun h => ⟨by rw [hv]; exact hs, by omega, ?_⟩, fun h => ?_⟩
      · cases h
        simp only [frame, hv]
        rfl
      · rw [h.2.2]
        simp only [frame, hv]
        rfl

theorem badBlock?_eq_none_iff {code : Code} {depth index least : Nat} {blocks : List Block} :
    badBlock? code depth blocks index least = none ↔
      (∀ b ∈ blocks, code.isBoundary b.handler = true) ∧ (∀ b ∈ blocks, b.depth ≤ depth) ∧
        (∀ b ∈ blocks, least ≤ b.depth) ∧ blocks.Pairwise fun b inner => b.depth ≤ inner.depth := by
  induction blocks generalizing index least with
  | nil => simp [badBlock?]
  | cons b inner ih =>
    rw [badBlock?]
    by_cases h : code.isBoundary b.handler ∧ b.depth ≤ depth ∧ least ≤ b.depth
    · rw [if_pos h, ih]
      simp only [List.forall_mem_cons, List.pairwise_cons]
      obtain ⟨hb, hd, hl⟩ := h
      constructor
      · rintro ⟨hbs, hds, hls, hp⟩
        exact ⟨⟨hb, hbs⟩, ⟨hd, hds⟩, ⟨hl, fun c hc => Nat.le_trans hl (hls c hc)⟩, hls, hp⟩
      · rintro ⟨⟨-, hbs⟩, ⟨-, hds⟩, -, hls, hp⟩
        exact ⟨hbs, hds, hls, hp⟩
    · rw [if_neg h]
      refine ⟨nofun, fun hs => absurd ?_ h⟩
      have hm : b ∈ b :: inner := List.mem_cons_self
      exact ⟨hs.1 b hm, hs.2.1 b hm, hs.2.2.1 b hm⟩

theorem locals?_eq_ok_iff {l : Locals} :
    r.locals? = .ok l ↔ r.LocalsFit ∧ l = r.frame.locals := by
  have hs : r.LocalsFit → r.locals? = .ok r.frame.locals := by
    unfold LocalsFit locals? frame liveLocals
    cases r.locals with
    | fast slots =>
      rintro ⟨ho, hl⟩
      simp [ho, hl]
    | dict names =>
      rintro ⟨ho, hn⟩
      simp [ho, hn]
    | globals =>
      rintro ⟨ho, hn⟩
      simp [ho, hn]
  refine ⟨fun h => ?_, fun ⟨hf, hl⟩ => by rw [hl, hs hf]⟩
  have hf : r.LocalsFit := by
    simp only [locals?] at h
    unfold LocalsFit
    split at h
    · split at h
      · simp_all
      · cases h
    all_goals simp_all
  rw [hs hf] at h
  exact ⟨hf, (Except.ok.inj h).symm⟩

/-- As many cells as the code has leave one for each free variable. -/
theorem length_closure (h : r.cells.length = r.code.body.cellCount) :
    (r.cells.drop r.code.body.cellvars.length).length = r.code.body.freevars.length := by
  rw [List.length_drop, h, CodeOf.cellCount, CodeOf.cellNames, List.length_append]
  omega

theorem restore_frame (h : r.Restorable) : r.restore = .ok r.frame := by
  have ho : r.offset? = .ok r.frame.lastOffset := offset?_eq_ok_iff.2 ⟨h.offset, rfl⟩
  have hs : r.stack? = .ok r.frame.stack := stack?_eq_ok_iff.2 ⟨h.filled, h.room, rfl⟩
  have hb : badBlock? r.code.body r.stack.length r.blocks 0 0 = none :=
    badBlock?_eq_none_iff.2 ⟨h.handlers, h.depths, fun _ _ => Nat.zero_le _, h.nested⟩
  have hl : r.locals? = .ok r.frame.locals := locals?_eq_ok_iff.2 ⟨h.locals, rfl⟩
  unfold restore
  simp only [h.version, h.cells, length_closure h.cells, ho, hs, hb, hl, ne_eq, not_true_eq_false,
    if_false]
  rfl

theorem restorable_of_restore {f : Frame} (h : r.restore = .ok f) : r.Restorable := by
  unfold restore at h
  by_cases hv : r.version = snapshotVersion
  case neg =>
    rw [if_pos hv] at h
    cases h
  by_cases hc : r.cells.length = r.code.body.cellCount
  case neg =>
    rw [if_neg (not_not_intro hv), if_pos hc] at h
    cases h
  simp only [hv, hc, length_closure hc, ne_eq, not_true_eq_false, if_false] at h
  cases ho : r.offset? with
  | error e => rw [ho] at h; cases h
  | ok o =>
    cases hs : r.stack? with
    | error e => rw [ho, hs] at h; cases h
    | ok s =>
      cases hb : badBlock? r.code.body r.stack.length r.blocks 0 0 with
      | some i => rw [ho, hs, hb] at h; cases h
      | none =>
        cases hl : r.locals? with
        | error e => rw [ho, hs, hb, hl] at h; cases h
        | ok l =>
          obtain ⟨hf, hr, -⟩ := stack?_eq_ok_iff.1 hs
          obtain ⟨hh, hd, -, hn⟩ := badBlock?_eq_none_iff.1 hb
          exact ⟨hv, hc, (offset?_eq_ok_iff.1 ho).1, hf, hr, hh, hd, hn, (locals?_eq_ok_iff.1 hl).1⟩

/-- **Restoring a record** succeeds exactly when it fits its code, and then makes the frame
recorded. -/
theorem restore_eq_ok_iff {f : Frame} : r.restore = .ok f ↔ r.Restorable ∧ f = r.frame := by
  refine ⟨fun h => ?_, fun ⟨hr, hf⟩ => by rw [hf, restore_frame hr]⟩
  have hr := restorable_of_restore h
  rw [restore_frame hr] at h
  exact ⟨hr, (Except.ok.inj h).symm⟩

/-- A restored frame is recorded as it was, if the line was that of the offset and locals that are
the globals were recorded as such. -/
theorem capture_frame (h : r.Restorable) (hl : r.line = r.frame.lastLine)
    (hd : ∀ names, r.locals = .dict names → names ≠ r.globals) : r.frame.capture = r := by
  have hs : r.frame.stack.toList.map some = r.stack := by
    change r.values.reverse.reverse.map some = r.stack
    rw [List.reverse_reverse, ← h.filled]
  have ho : r.frame.capture.lastOffset = r.lastOffset := by
    unfold Frame.capture frame
    by_cases hn : r.lastOffset = -1
    · simp [hn]
    · simp only [hn, if_false]
      exact Int.toNat_of_nonneg (h.offset.resolve_left hn).1
  have hf : r.frame.capture.locals = r.locals := by
    unfold Frame.capture frame liveLocals
    cases hr : r.locals with
    | fast slots => rfl
    | dict names => simp [hd names hr]
    | globals => simp
  have hb : r.frame.blocks.reverse = r.blocks := List.reverse_reverse _
  exact FrameRecord.ext h.version.symm rfl rfl hs hb rfl rfl ho rfl hl.symm hf rfl rfl rfl rfl

end FrameRecord

end Resumable
