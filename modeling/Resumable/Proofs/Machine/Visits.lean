import Resumable.Proofs.Bytecode.Lines
import Resumable.Proofs.Machine.Life
import Resumable.Proofs.Machine.Notices
import Resumable.Proofs.Snapshot.Restoring

/-!
# Line events along the life of a frame

A frame visits an offset when it dispatches the instruction there.  The step then reports the line
of the offset and calls the hook with it, or tells nothing of lines; which of them is decided by the
offset visited before and by three numbers that the frame keeps: the bounds of a range, and that
offset once more.

A line is due (`CodeOf.LineDue`) where execution comes to the first offset of a range from another
range, and where it goes back within a range.  `Frame.HasVisited` are the frames of a code object at
any moment of their lives, with all they have visited by then; the numbers a frame keeps always fit
what it visited last (`Frame.Abides`).  So a line is told of at a visit exactly if it is due
(`Frame.HasVisited.line_events`).
-/

namespace Resumable

/-- An offset that a frame was about to execute, the hook it had then, and what the step that
dispatched the instruction there has told of lines. -/
structure Visit where
  offset : Nat
  hook : Option Nat
  told : List Notice

/-- A line is due at an offset, with `last` visited before: the offset is the first one of another
range, or one further back in the same range. -/
def CodeOf.LineDue {κ : Type} (c : CodeOf κ) (last : Option Nat) (o : Nat) : Prop :=
  match last with
  | none => c.Begins o
  | some p => (¬c.Together p o ∧ c.Begins o) ∨ (c.Together p o ∧ o < p)

/-- What was told at a visit of code `c`, with `last` visited before: if a line is due, then the
line of the offset was reported, and the hook was called with it and with the frame, which stood at
the offset; and nothing otherwise. -/
structure Visit.Reports (c : Code) (last : Option Nat) (v : Visit) : Prop where
  due : c.LineDue last v.offset → ∃ f : Frame, f.code.body = c ∧ f.lastOffset = some v.offset ∧
    f.trace.hook = v.hook ∧ v.told = f.tells (c.lineForOffset v.offset)
  quiet : ¬c.LineDue last v.offset → v.told = []

/-- At each visit, a line was told of exactly if it was due. -/
def Visit.Lawful (c : Code) (vs : List Visit) : Prop :=
  ∀ (k : Nat) (v : Visit), vs[k]? = some v → v.Reports c ((vs.take k).getLast?.map Visit.offset)

/-! ### Runs with their visits -/

namespace Machine

variable {σ : Type}

/-- What a frame that stands so visits in the next step: an offset that is dispatched, unless the
budget refuses to. -/
def visits (host : Host σ) (m : Machine σ) (f : Frame) : Standing → List Visit
  | .before o =>
    if (m.decodes? host).isSome then [⟨o, f.trace.hook, m.toldOfLines host⟩] else []
  | _ => []

/-- The states of a run from `m₀`, in which a frame is held right above the frames `below`: the
machine, the frame, how it stands, and what it has visited in the run. -/
inductive VisitingRun (host : Host σ) (below : List Activation) (w : Entry) (m₀ : Machine σ) :
    Machine σ → Frame → Standing → List Visit → Prop
  | entered {f : Frame} {s : Standing} (hh : m₀.Holds below w f s) :
    VisitingRun host below w m₀ m₀ f s []
  | step {m : Machine σ} {f f' : Frame} {s s' : Standing} {vs : List Visit}
      (ht : VisitingRun host below w m₀ m f s vs) (hh : (m.step host).Holds below w f' s') :
    VisitingRun host below w m₀ (m.step host) f' s' (vs ++ m.visits host f s)

end Machine

namespace Frame

/-- The frame `g` is at the same place of the same code as `f`, and knows the same of lines,
whatever else has changed. -/
structure Stays (f g : Frame) : Prop where
  body : g.code.body = f.code.body
  lastOffset : g.lastOffset = f.lastOffset
  lower : g.trace.lower = f.trace.lower
  upper : g.trace.upper = f.trace.upper
  previous : g.trace.previous = f.trace.previous

end Frame

/-- The hooks of the host move no frame to another place. -/
def Host.Stays {σ : Type} (host : Host σ) : Prop :=
  ∀ hook line f h s, Frame.Stays f (host.onLine hook line f h s).1

namespace Frame

/-- The frames of code `c` at any moment of their lives, with all that they have visited by then.
Whoever has a frame may change it in any way but move it: bind its arguments, attach a hook, work on
its stack.  It may be captured, also by its own hook, and go on as the frame restored; and it may be
put on a chain and run, as often as it likes. -/
inductive HasVisited (c : Code) : Frame → List Visit → Prop
  | created {code : CodeObject} {globals builtins : Ref .mapping} {closure : List (Ref .cell)}
      {f : Frame} {h h' : Heap} (hc : create code globals builtins closure h = .ok (f, h'))
      (hb : code.body = c) : HasVisited c f []
  | changed {f g : Frame} {vs : List Visit} (hf : HasVisited c f vs) (hs : f.Stays g) :
    HasVisited c g vs
  | restored {f g : Frame} {vs : List Visit} (hf : HasVisited c f vs)
      (hr : f.capture.restore = .ok g) : HasVisited c g vs
  | ran {σ : Type} {host : Host σ} {m m' : Machine σ} {w : Waiting} {f g : Frame}
      {input : Option Value} {raising : Option Raised} {s : Standing} {vs vs' : List Visit}
      (hh : host.Stays) (hf : HasVisited c f vs)
      (ht : Machine.VisitingRun host m.chain (f.entry w) (m.enter host f input raising w)
        m' g s vs') :
    HasVisited c g (vs ++ vs')
  | hooked {σ : Type} {host : Host σ} {m m' : Machine σ} {w : Waiting} {f g k : Frame}
      {input : Option Value} {raising : Option Raised} {o hook line : Nat} {vs vs' : List Visit}
      (hh : host.Stays) (hf : HasVisited c f vs)
      (ht : Machine.VisitingRun host m.chain (f.entry w) (m.enter host f input raising w)
        m' g (.before o) vs')
      (hk : .called hook line k ∈ m'.toldOfLines host) :
      HasVisited c k (vs ++ (vs' ++ m'.visits host g (.before o)))

/-! ### What a frame keeps of its last visit -/

/-- The frame was at `o` last: the bounds it keeps are those of a part of the range of `o` that
starts where the range begins. -/
structure Knows (c : Code) (f : Frame) (o : Nat) : Prop where
  previous : f.trace.previous = o
  lower : ∃ s : Nat, f.trace.lower = s ∧ c.Begins s ∧ c.Together s o
  upper : (o : Int) < f.trace.upper
  inside : ∀ x : Nat, f.trace.lower ≤ x → (x : Int) < f.trace.upper → c.Together o x

/-- The frame has left its code. -/
def Lost (c : Code) (f : Frame) : Prop := ∃ o, f.lastOffset = some o ∧ c.bytecode.length ≤ o

/-- What a frame keeps fits what it visited last. -/
def Abides (c : Code) (f : Frame) : Option Nat → Prop
  | none => f.trace.upper = -1
  | some o => if o < c.bytecode.length then f.Knows c o else f.Lost c

/-- The bounds that a frame keeps fit what it visited last, wherever that was. -/
def Recalls (c : Code) (f : Frame) : Option Nat → Prop
  | none => f.trace.upper = -1
  | some o => f.Knows c o

variable {c : Code} {f g : Frame} {last : Option Nat} {o : Nat}

theorem abides_of_lt (ho : o < c.bytecode.length) : f.Abides c (some o) ↔ f.Knows c o :=
  iff_of_eq (if_pos ho)

theorem abides_of_le (ho : c.bytecode.length ≤ o) : f.Abides c (some o) ↔ f.Lost c :=
  iff_of_eq (if_neg (Nat.not_lt.2 ho))

theorem Abides.recalls (ha : f.Abides c last)
    (hin : ∀ o, last = some o → o < c.bytecode.length) : f.Recalls c last := by
  cases last with
  | none => exact ha
  | some o => exact (abides_of_lt (hin o rfl)).1 ha

theorem Stays.knows (hs : f.Stays g) (hk : f.Knows c o) : g.Knows c o where
  previous := hs.previous.trans hk.previous
  lower := by
    rw [hs.lower]
    exact hk.lower
  upper := by
    rw [hs.upper]
    exact hk.upper
  inside := by
    rw [hs.lower, hs.upper]
    exact hk.inside

theorem Stays.recalls (hs : f.Stays g) (h : f.Recalls c last) : g.Recalls c last := by
  cases last with
  | none => exact hs.upper.trans h
  | some o => exact hs.knows h

theorem Stays.lost (hs : f.Stays g) (h : f.Lost c) : g.Lost c := by
  obtain ⟨o, ho, hle⟩ := h
  exact ⟨o, hs.lastOffset.trans ho, hle⟩

theorem Stays.abides (hs : f.Stays g) (ha : f.Abides c last) : g.Abides c last := by
  cases last with
  | none => exact hs.upper.trans ha
  | some o =>
    rcases Nat.lt_or_ge o c.bytecode.length with ho | ho
    · exact (abides_of_lt ho).2 (hs.knows ((abides_of_lt ho).1 ha))
    · exact (abides_of_le ho).2 (hs.lost ((abides_of_le ho).1 ha))

theorem Turns.stays (ht : f.Turns g) : f.Stays g := by
  have akin {g : Frame} (ha : f.Akin g) : f.Stays g :=
    ⟨congrArg _ ha.code, ha.lastOffset, congrArg _ ha.trace, congrArg _ ha.trace,
      congrArg _ ha.trace⟩
  rcases ht with ha | ⟨g', ha, rfl⟩
  · exact akin ha
  · obtain ⟨hb, hl, hlo, hu, hp⟩ := akin ha
    exact ⟨hb, hl, hlo, hu, hp⟩

theorem stays_of_restore (hr : f.capture.restore = .ok g) : f.Stays g := by
  obtain ⟨-, rfl⟩ := FrameRecord.restore_eq_ok_iff.1 hr
  refine ⟨rfl, ?_, rfl, rfl, rfl⟩
  show (if f.capture.lastOffset = -1 then none else some f.capture.lastOffset.toNat) = f.lastOffset
  unfold capture
  cases f.lastOffset with
  | none => rfl
  | some o => exact if_neg (by dsimp only; omega)

/-! ### One visit -/

/-- When a line is reported. -/
theorem lineAt?_eq (f : Frame) (o : Nat) : f.lineAt? o =
    let y := f.recordedOffset o
    if f.trace.lower ≤ y ∧ (y : Int) < f.trace.upper then
      if (y : Int) < f.trace.previous then some (f.code.body.lineForOffset y) else none
    else if (f.code.body.lineRange y).start = y then some (f.code.body.lineForOffset y)
    else none := by
  dsimp only
  rw [← CodeOf.line_lineRange]
  unfold lineAt? lineEvent
  dsimp only
  split
  · rw [CodeOf.line_lineRange]
  · rfl

/-- What a frame keeps of a visit. -/
theorem trace_reported (f : Frame) (o : Nat) :
    let y := f.recordedOffset o
    (f.reported o).trace.previous = y ∧
      if f.trace.lower ≤ y ∧ (y : Int) < f.trace.upper then
        (f.reported o).trace.lower = f.trace.lower ∧ (f.reported o).trace.upper = f.trace.upper
      else
        (f.reported o).trace.lower = (f.code.body.lineRange y).start ∧
          (f.reported o).trace.upper = match (f.code.body.lineRange y).stop with
            | some e => (e : Int)
            | none => farthestOffset := by
  unfold reported lineEvent
  dsimp only
  split
  · exact ⟨rfl, rfl, rfl⟩
  · exact ⟨rfl, rfl, rfl⟩

/-- With nothing visited, no offset lies within the bounds. -/
theorem Recalls.unvisited (ha : f.Recalls c none) (x : Nat) :
    ¬(f.trace.lower ≤ x ∧ (x : Int) < f.trace.upper) := by
  have hu : f.trace.upper = -1 := ha
  omega

/-- Outside the bounds, a line is due where the range found starts. -/
theorem Knows.due_outside {x : Nat} (hk : f.Knows c o)
    (hx : ¬(f.trace.lower ≤ x ∧ (x : Int) < f.trace.upper)) :
    c.LineDue (some o) x ↔ (c.lineRange x).start = x := by
  obtain ⟨hle, hsx, hs⟩ := c.lineRange_start x
  unfold CodeOf.LineDue
  dsimp only
  by_cases ht : c.Together o x
  · -- within the range, the offset lies behind the bounds
    obtain ⟨s, hl, hb, hso⟩ := hk.lower
    have hsx' : s ≤ x := hb.le (CodeOf.together_iff.2
      ((CodeOf.together_iff.1 hso).trans (CodeOf.together_iff.1 ht)))
    have hu := hk.upper
    have hox : o < x := by omega
    refine iff_of_false (by simp only [ht, not_true_eq_false, false_and, true_and, false_or]; omega)
      fun he => ?_
    rw [he] at hs
    exact hs o hox ht
  · simp only [ht, not_false_eq_true, true_and, false_and, or_false]
    refine ⟨fun hb => Nat.le_antisymm hle (hb.le ?_), fun he => he ▸ hs⟩
    exact CodeOf.together_iff.2 (CodeOf.together_iff.1 hsx).symm

/-- Within the bounds, a line is due on the way back. -/
theorem Knows.due_inside {x : Nat} (hk : f.Knows c o) (hl : f.trace.lower ≤ x)
    (hu : (x : Int) < f.trace.upper) : c.LineDue (some o) x ↔ (x : Int) < f.trace.previous := by
  have ht := hk.inside x hl hu
  rw [hk.previous]
  unfold CodeOf.LineDue
  simp only [ht, not_true_eq_false, false_and, true_and, false_or, Nat.cast_lt]

/-- A line is reported exactly if it is due, as long as the offset can be recorded. -/
theorem Recalls.reports {x : Nat} (hc : f.code.body = c) (ha : f.Recalls c last)
    (hx : f.recordedOffset x = x) (line : Nat) :
    f.lineAt? x = some line ↔ c.LineDue last x ∧ line = c.lineForOffset x := by
  rw [lineAt?_eq]
  dsimp only
  rw [hx, hc]
  have found (hd : c.LineDue last x ↔ (c.lineRange x).start = x) :
      (if (c.lineRange x).start = x then some (c.lineForOffset x) else none) = some line ↔
        c.LineDue last x ∧ line = c.lineForOffset x := by
    rw [hd, Option.ite_none_right_eq_some, Option.some.injEq, eq_comm (a := line)]
  cases last with
  | none =>
    rw [if_neg (ha.unvisited x)]
    obtain ⟨hle, hsx, hs⟩ := c.lineRange_start x
    refine found ⟨fun hb => Nat.le_antisymm hle (hb.le ?_), fun he => he ▸ hs⟩
    exact CodeOf.together_iff.2 (CodeOf.together_iff.1 hsx).symm
  | some o =>
    have hk : f.Knows c o := ha
    by_cases hb : f.trace.lower ≤ x ∧ (x : Int) < f.trace.upper
    · rw [if_pos hb, Option.ite_none_right_eq_some, Option.some.injEq,
        hk.due_inside hb.1 hb.2, eq_comm (a := line)]
    · rw [if_neg hb]
      exact found (hk.due_outside hb)

/-- After a visit that can be recorded, a frame knows where it was. -/
theorem Recalls.knows {x : Nat} (hc : f.code.body = c) (ha : f.Recalls c last)
    (hx : x < farthestOffset) : (f.reported x).Knows c x := by
  have hrec : f.recordedOffset x = x := if_pos (.inl (Nat.le_of_lt hx))
  obtain ⟨hp, ht⟩ := f.trace_reported x
  rw [hrec] at hp ht
  rw [hc] at ht
  -- within the bounds they stay, and outside of them they become those of the range found
  by_cases hb : f.trace.lower ≤ x ∧ (x : Int) < f.trace.upper
  · rw [if_pos hb] at ht
    obtain ⟨hl, hu⟩ := ht
    cases last with
    | none => exact absurd hb (ha.unvisited x)
    | some o =>
      have hk : f.Knows c o := ha
      have hox := CodeOf.together_iff.1 (hk.inside x hb.1 hb.2)
      obtain ⟨s, hs, hbeg, hso⟩ := hk.lower
      refine ⟨hp, ⟨s, hl.trans hs, hbeg, CodeOf.together_iff.2
        ((CodeOf.together_iff.1 hso).trans hox)⟩, hu ▸ hb.2, fun y hly hyu => ?_⟩
      rw [hl] at hly
      rw [hu] at hyu
      exact CodeOf.together_iff.2 (hox.symm.trans (CodeOf.together_iff.1 (hk.inside y hly hyu)))
  · rw [if_neg hb] at ht
    obtain ⟨hl, hu⟩ := ht
    obtain ⟨hle, hsx, hs⟩ := c.lineRange_start x
    obtain ⟨hstop, hlater⟩ := c.lineRange_stop x
    refine ⟨hp, ⟨_, hl, hs, hsx⟩, ?_, fun y hly hyu => ?_⟩
    · rw [hu]
      cases he : (c.lineRange x).stop with
      | none => exact Int.ofNat_lt.2 hx
      | some e => exact Int.ofNat_lt.2 (hstop e he)
    · rw [hl] at hly
      rcases Nat.le_total x y with hxy | hxy
      · refine hlater y hxy fun e he => ?_
        rw [hu, he] at hyu
        exact Int.ofNat_lt.1 hyu
      · -- between the start of the range and the offset
        have hss := CodeOf.together_iff.1 hsx
        have h1 := CodeOf.lineForOffset_mono (c := c) (Int.ofNat_le.1 hly)
        have h2 := CodeOf.lineForOffset_mono (c := c) hxy
        exact CodeOf.together_iff.2 (by omega)

/-- Beyond the end of valid code no line is due. -/
theorem not_due (hv : c.Valid) (hin : ∀ o, last = some o → o ≤ c.bytecode.length) {x : Nat}
    (hx : c.bytecode.length < x) : ¬c.LineDue last x := by
  have hb : ¬c.Begins x := by
    intro hb
    rcases CodeOf.begins_iff.1 hb with rfl | ⟨line, hl⟩
    · exact absurd hx (Nat.not_lt_zero _)
    · rcases hv.lineStart hl with rfl | hb
      · exact Nat.lt_irrefl _ hx
      · obtain ⟨i, -, hi⟩ := CodeOf.decode_of_isBoundary hb
        have := (Instruction.next_le_of_decode hi).1
        omega
  cases last with
  | none => exact hb
  | some o =>
    rintro (⟨-, h⟩ | ⟨-, h⟩)
    · exact hb h
    · have := hin o rfl
      omega

/-- A line is reported exactly if it is due. -/
theorem Recalls.visit (hv : c.Valid) (hlen : c.bytecode.length < farthestOffset)
    (hc : f.code.body = c) (ha : f.Recalls c last)
    (hin : ∀ o, last = some o → o ≤ c.bytecode.length) (x line : Nat) :
    f.lineAt? x = some line ↔ c.LineDue last x ∧ line = c.lineForOffset x := by
  by_cases hx : f.recordedOffset x = x
  · exact ha.reports hc hx line
  · -- what is recorded in place of the offset lies beyond the code as well
    have hy : f.recordedOffset x = farthestOffset ∧ c.bytecode.length < x := by
      unfold recordedOffset at hx ⊢
      rw [hc] at hx ⊢
      split at hx
      · exact absurd rfl hx
      · rename_i hn
        exact ⟨if_neg hn, by omega⟩
    have hl : f.lineAt? x = f.lineAt? farthestOffset := by
      have hf : f.recordedOffset farthestOffset = farthestOffset := if_pos (.inl (Nat.le_refl _))
      rw [lineAt?_eq, lineAt?_eq, hy.1, hf]
    rw [hl, ha.reports hc (if_pos (.inl (Nat.le_refl _)))]
    exact iff_of_false (fun h => not_due hv hin hlen h.1) fun h => not_due hv hin hy.2 h.1

/-- What the frame has to tell of lines is right. -/
theorem Recalls.tells (hv : c.Valid) (hlen : c.bytecode.length < farthestOffset)
    (hc : f.code.body = c) (ha : f.Recalls c last)
    (hin : ∀ o, last = some o → o ≤ c.bytecode.length) (x : Nat) :
    Visit.Reports c last ⟨x, f.trace.hook, f.tellsAt x⟩ where
  due hdue := by
    have hx : x ≤ c.bytecode.length := by
      by_contra hx
      exact not_due hv hin (Nat.not_le.1 hx) hdue
    obtain ⟨trace, hk, hr⟩ := f.reported_spec x
    have hrec : f.recordedOffset x = x := if_pos (.inl (Nat.le_of_lt (Nat.lt_of_le_of_lt hx hlen)))
    refine ⟨f.reported x, hc, ?_, ?_, ?_⟩
    · rw [hr, hrec]
    · rw [hr]
      exact hk
    · exact tellsAt_of_some ((ha.visit hv hlen hc hin x _).2 ⟨hdue, rfl⟩)
  quiet hdue := by
    refine tellsAt_of_none (Option.eq_none_iff_forall_ne_some.2 fun line hl => ?_)
    exact hdue ((ha.visit hv hlen hc hin x line).1 hl).1

/-- A frame that visits an offset beyond its code has left it. -/
theorem lost_of_le (hlen : c.bytecode.length ≤ farthestOffset) {x : Nat}
    (hx : c.bytecode.length ≤ x) : (f.reported x).Lost c := by
  refine ⟨_, rfl, ?_⟩
  unfold recordedOffset
  split
  · exact hx
  · exact hlen

/-- **One visit.** A line is told of exactly if it is due, and what the frame keeps fits the
visit. -/
theorem Abides.visit (hv : c.Valid) (hlen : c.bytecode.length < farthestOffset)
    (hc : f.code.body = c) (ha : f.Abides c last)
    (hin : ∀ o, last = some o → o < c.bytecode.length) (x : Nat) :
    Visit.Reports c last ⟨x, f.trace.hook, f.tellsAt x⟩ ∧
      (f.reported x).Abides c (some x) := by
  have hr := ha.recalls hin
  refine ⟨hr.tells hv hlen hc (fun o ho => Nat.le_of_lt (hin o ho)) x, ?_⟩
  rcases Nat.lt_or_ge x c.bytecode.length with hx | hx
  · exact (abides_of_lt hx).2 (hr.knows hc (Nat.lt_trans hx hlen))
  · exact (abides_of_le hx).2 (lost_of_le (Nat.le_of_lt hlen) hx)

/-- A frame that has left its code is not resumed. -/
theorem Lost.not_resumed (hc : f.code.body = c) (hl : f.Lost c) : f.resumeOffset ≠ .ok o := by
  obtain ⟨y, hy, hle⟩ := hl
  have hn : f.code.body.opcodeAt? y = none := by
    unfold CodeOf.opcodeAt?
    rw [hc, List.getElem?_eq_none hle]
    rfl
  unfold resumeOffset
  rw [hy]
  dsimp only
  rw [hn]
  exact nofun

end Frame

/-! ### All visits of a life -/

/-- Visits stay lawful with one more at which the law is kept. -/
theorem Visit.Lawful.concat {c : Code} {vs : List Visit} {v : Visit} (h : Visit.Lawful c vs)
    (hv : v.Reports c (vs.getLast?.map Visit.offset)) :
    Visit.Lawful c (vs ++ [v]) := by
  intro k u hk
  rcases Nat.lt_trichotomy k vs.length with hlt | rfl | hgt
  · rw [List.getElem?_append_left hlt] at hk
    rw [List.take_append_of_le_length (Nat.le_of_lt hlt)]
    exact h k u hk
  · rw [List.getElem?_append_right (Nat.le_refl _), Nat.sub_self] at hk
    cases hk
    rw [List.take_left]
    exact hv
  · rw [List.getElem?_eq_none (by rw [List.length_append, List.length_singleton]; omega)] at hk
    cases hk

/-- The frame is not being run. -/
def Standing.Idle : Standing → Prop
  | .starting _ | .leaving _ => True
  | _ => False

namespace Frame

/-- What was told of a frame of code `c` was due, and what it keeps fits what it visited last. -/
structure Accounts (c : Code) (f : Frame) (vs : List Visit) : Prop where
  body : f.code.body = c
  abides : f.Abides c (vs.getLast?.map Visit.offset)
  lawful : Visit.Lawful c vs

/-- The frame did not leave its code at its last visit. -/
def Inside (c : Code) (vs : List Visit) : Prop :=
  ∀ o, vs.getLast?.map Visit.offset = some o → o < c.bytecode.length

variable {c : Code} {f g : Frame} {vs : List Visit} {o : Nat}

theorem Accounts.stays (ha : f.Accounts c vs) (hs : f.Stays g) : g.Accounts c vs :=
  ⟨hs.body.trans ha.body, hs.abides ha.abides, ha.lawful⟩

/-- A frame that can be resumed has not left its code. -/
theorem Accounts.inside (ha : f.Accounts c vs) (ho : f.resumeOffset = .ok o) : Inside c vs := by
  intro y hy
  by_contra hle
  have hab := ha.abides
  rw [hy] at hab
  exact ((abides_of_le (Nat.not_lt.1 hle)).1 hab).not_resumed ha.body ho

/-- A visit is added to the account. -/
theorem Accounts.visit (hv : c.Valid) (hlen : c.bytecode.length < farthestOffset)
    (ha : f.Accounts c vs) (hin : Inside c vs) (o : Nat) :
    (f.reported o).Accounts c (vs ++ [⟨o, f.trace.hook, f.tellsAt o⟩]) := by
  obtain ⟨hl, hab⟩ := ha.abides.visit hv hlen ha.body hin o
  refine ⟨ha.body, ?_, ha.lawful.concat hl⟩
  rw [List.getLast?_append, List.getLast?_singleton]
  exact hab

/-- A hook that moves nothing leaves the frame as it was reported, and nothing is decoded outside
the code. -/
theorem Traced.stays {σ : Type} {host : Host σ} {o' : Nat} (hh : host.Stays)
    (ht : Traced host f o g o') : (f.reported o).Stays g ∧
      (o' = o ∨ o' = f.recordedOffset o) := by
  cases ht with
  | untold => exact ⟨⟨rfl, rfl, rfl, rfl, rfl⟩, .inl rfl⟩
  | @hooked hook line h s g _ hg =>
    have hs := hh hook line (f.reported o) h s
    rw [hg] at hs
    refine ⟨hs, .inr ?_⟩
    rw [hs.lastOffset]
    rfl

end Frame

namespace Machine

variable {σ : Type} {host : Host σ} {m m' : Machine σ} {below : List Activation} {w : Entry}
  {f g : Frame} {s : Standing} {c : Code} {vs vs' : List Visit} {o : Nat}

/-- Dispatching is refused, or visits an offset and turns the frame into another one, which is done
if there is nothing to decode. -/
theorem step_visits (host : Host σ) (h : m.Stands below w (f, .before o)) :
    (m.decodes? host = none ∧
      ∃ e, (m.step host).Holds below w (f.failing e).1 (f.failing e).2) ∨
    ∃ (g : Frame) (o' : Nat) (p : Frame × Standing),
      m.decodes? host = some (g, o') ∧ Frame.Traced host f o g o' ∧
      (m.step host).Holds below w p.1 p.2 ∧ g.Turns p.1 ∧
      ∀ e, Instruction.decode g.code.body.bytecode o' = .error e → p.2.Idle := by
  rw [h.step_before host]
  rcases dispatch_cases host h with ⟨e, hn, hs⟩ | ⟨g, o', m', hl, ht, hc, -, he, hi⟩
  · exact .inl ⟨hn, _, .innermost hs⟩
  refine .inr ?_
  have hd := decodes?_of_lined? host hl
  cases hdec : Instruction.decode g.code.body.bytecode o' with
  | error e =>
    rw [he e hdec]
    exact ⟨g, o', _, hd, ht, .innermost (fail_stands hc _), Frame.turns_failing g _,
      fun _ _ => trivial⟩
  | ok i =>
    rw [hi i hdec]
    have hn (p : Frame × Standing) (e : Fault)
        (he : Instruction.decode g.code.body.bytecode o' = .error e) : p.2.Idle := by
      rw [hdec] at he
      cases he
    rcases perform_holds host hc i with ⟨current, h', e, l, hx, hs⟩ |
      ⟨current, flow, l, given, p, hx, hf, hs⟩
    · exact ⟨g, o', _, hd, ht, .innermost hs,
        .after (Exec.damage_of_execute hx).toAkin (Frame.turns_failingAt _ _ _), hn _⟩
    · exact ⟨g, o', p, hd, ht, hs, .after (Exec.effect_of_execute hx).akin hf.turns, hn p⟩

/-- A step visits nothing and turns the frame into another one, which runs only if it has run before
or can be resumed; or it visits an offset. -/
theorem Holds.turns_or_visits {f' : Frame} {s' : Standing} (h : m.Holds below w f s)
    (h' : (m.step host).Holds below w f' s') :
    ((∀ o, s = .before o → m.decodes? host = none) ∧ f.Turns f' ∧
      (s'.Idle ∨ ¬s.Idle ∨ ∃ o, f.resumeOffset = .ok o)) ∨
    ∃ o g o', s = .before o ∧ m.decodes? host = some (g, o') ∧ Frame.Traced host f o g o' ∧
      g.Turns f' ∧ ∀ e, Instruction.decode g.code.body.bytecode o' = .error e → s'.Idle := by
  -- a machine holds one frame in one way, so that `p` is the frame and how it stands
  have turned {p : Frame × Standing} (hp : (m.step host).Holds below w p.1 p.2)
      (hs : ∀ o, s = .before o → m.decodes? host = none) (ht : f.Turns p.1)
      (hi : p.2.Idle ∨ ¬s.Idle ∨ ∃ o, f.resumeOffset = .ok o) :
      (∀ o, s = .before o → m.decodes? host = none) ∧ f.Turns f' ∧
        (s'.Idle ∨ ¬s.Idle ∨ ∃ o, f.resumeOffset = .ok o) := by
    obtain ⟨rfl, rfl⟩ := hp.unique h'
    exact ⟨hs, ht, hi⟩
  rcases h.step host with ⟨result, rfl⟩ | ⟨given, p, hm, hp, -⟩
  · exact absurd h' h.not_leaving
  cases s with
  | leaving result => exact absurd h' h.not_leaving
  | starting raising =>
    refine .inl ?_
    cases hm with
    | start ho => exact turned hp nofun (.refl f) (.inr (.inr ⟨_, ho⟩))
    | raise ho => exact turned hp nofun (Frame.turns_raising f _ _) (.inr (.inr ⟨_, ho⟩))
    | lost _ => exact turned hp nofun (.refl f) (.inl trivial)
    | waits hs => cases hs
    | answered hs => cases hs
  | calling site =>
    refine .inl ?_
    cases hm with
    | waits _ => exact turned hp nofun (.refl f) (.inr (.inl id))
    | answered _ => exact turned hp nofun (Frame.turns_answered f _ _) (.inr (.inl id))
  | looping site =>
    refine .inl ?_
    cases hm with
    | waits _ => exact turned hp nofun (.refl f) (.inr (.inl id))
    | answered _ => exact turned hp nofun (Frame.turns_answered f _ _) (.inr (.inl id))
  | before o =>
    rcases step_visits host (h.stands rfl) with ⟨hn, e, hp⟩ | ⟨g, o', p, hd, htr, hp, hturn, he⟩
    · exact .inl (turned hp (fun _ _ => hn) (Frame.turns_failing f e) (.inl trivial))
    · obtain ⟨rfl, rfl⟩ := hp.unique h'
      exact .inr ⟨o, g, o', rfl, hd, htr, hturn, he⟩

/-- A frame that dispatches has told what it has to tell. -/
theorem Holds.visits_before {p : Frame × Nat} (h : m.Holds below w f (.before o))
    (hd : m.decodes? host = some p) :
    m.visits host f (.before o) = [⟨o, f.trace.hook, f.tellsAt o⟩] := by
  have hsome : (m.decodes? host).isSome := hd ▸ rfl
  rw [visits, if_pos hsome, toldOfLines_of_decodes (h.stands rfl) hsome]

/-- The frame with which a hook is called has just visited the offset. -/
theorem Holds.hook_called {hook line : Nat} {k : Frame} (h : m.Holds below w f (.before o))
    (hk : .called hook line k ∈ m.toldOfLines host) : k = f.reported o ∧
      m.visits host f (.before o) = [⟨o, f.trace.hook, f.tellsAt o⟩] := by
  cases hd : m.decodes? host with
  | none =>
    rw [toldOfLines_of_not_decodes hd] at hk
    cases hk
  | some p =>
    refine ⟨?_, h.visits_before hd⟩
    rw [toldOfLines_of_decodes (h.stands rfl) (hd ▸ rfl)] at hk
    exact Frame.eq_of_called_mem_tellsAt hk

theorem VisitingRun.holds {m₀ : Machine σ} (h : VisitingRun host below w m₀ m f s vs) :
    m.Holds below w f s := by
  cases h with
  | entered hh => exact hh
  | step _ hh => exact hh

/-- **All along a run, the account of a frame is right**, and while it runs it is inside its
code. -/
theorem VisitingRun.accounts (hv : c.Valid) (hlen : c.bytecode.length < Frame.farthestOffset)
    (hh : host.Stays) {f₀ : Frame} {input : Option Value} {raising : Option Raised} {v : Waiting}
    (ha : f₀.Accounts c vs)
    (ht : VisitingRun host m.chain (f₀.entry v) (m.enter host f₀ input raising v) m' f s vs') :
    f.Accounts c (vs ++ vs') ∧ (s.Idle ∨ Frame.Inside c (vs ++ vs')) := by
  induction ht with
  | entered hheld =>
    obtain ⟨stack, back, -, rfl, rfl⟩ := enter_holds hheld
    rw [List.append_nil]
    exact ⟨ha.stays ⟨rfl, rfl, rfl, rfl, rfl⟩, .inl trivial⟩
  | @step n f f' s s' vs' ht hheld ih =>
    obtain ⟨hacc, hin⟩ := ih
    rcases ht.holds.turns_or_visits hheld with ⟨hn, hturn, hidle⟩ |
      ⟨o, g, o', rfl, hd, htr, hturn, he⟩
    · -- without a visit, the frame turns into another one
      have hnone : n.visits host f s = [] := by
        cases s with
        | before o => simp only [visits, hn o rfl, Option.isSome_none, Bool.false_eq_true, if_false]
        | _ => rfl
      rw [hnone, List.append_nil]
      refine ⟨hacc.stays hturn.stays, ?_⟩
      rcases hidle with hidle | hidle | ⟨o, ho⟩
      · exact .inl hidle
      · exact .inr (hin.resolve_left hidle)
      · exact .inr (hacc.inside ho)
    · rw [ht.holds.visits_before hd]
      obtain ⟨hstay, ho'⟩ := htr.stays hh
      have hvis := hacc.visit hv hlen (hin.resolve_left id) o
      rw [← List.append_assoc]
      refine ⟨(hvis.stays hstay).stays hturn.stays, or_iff_not_imp_left.2 fun hidle y hy => ?_⟩
      -- what was decoded lies inside the code
      rw [List.getLast?_append, List.getLast?_singleton] at hy
      cases hy
      cases hdec : Instruction.decode g.code.body.bytecode o' with
      | error e => exact absurd (he e hdec) hidle
      | ok i =>
        have hlt := (Instruction.next_le_of_decode hdec).1
        rw [(hvis.stays hstay).body] at hlt
        rcases ho' with rfl | rfl
        · exact hlt
        · unfold Frame.recordedOffset at hlt
          rw [hacc.body] at hlt
          split at hlt
          · exact hlt
          · omega

end Machine

namespace Frame

variable {c : Code} {f : Frame} {vs : List Visit}

/-- A new frame has nothing visited. -/
theorem unvisited_of_create {code : CodeObject} {globals builtins : Ref .mapping}
    {closure : List (Ref .cell)} {h h' : Heap}
    (hc : create code globals builtins closure h = .ok (f, h')) :
    f.code = code ∧ f.trace.upper = -1 := by
  simp only [create] at hc
  split at hc
  · cases hc
  · cases hc
    exact ⟨rfl, rfl⟩

theorem HasVisited.accounts (hv : c.Valid) (hlen : c.bytecode.length < farthestOffset)
    (h : HasVisited c f vs) : f.Accounts c vs := by
  induction h with
  | @created code _ _ closure f _ _ hc hb =>
    obtain ⟨hcode, hupper⟩ := unvisited_of_create hc
    exact ⟨(congrArg _ hcode).trans hb, hupper, fun k v hk => by cases hk⟩
  | changed _ hs ih => exact ih.stays hs
  | restored _ hr ih => exact ih.stays (stays_of_restore hr)
  | ran hh _ ht ih => exact (ht.accounts hv hlen hh ih).1
  | hooked hh _ ht hk ih =>
    obtain ⟨ha, hin⟩ := ht.accounts hv hlen hh ih
    obtain ⟨rfl, hvis⟩ := ht.holds.hook_called hk
    rw [hvis, ← List.append_assoc]
    exact ha.visit hv hlen (hin.resolve_left id) _

/-- **A line is reported where execution comes to the beginning of a range from elsewhere, and where
it goes back within a range**, all along the life of a frame of valid code, and nowhere else.  The
line reported is that of the offset, and the hook that the frame has is called with it. -/
theorem HasVisited.line_events (hv : c.Valid) (hlen : c.bytecode.length < farthestOffset)
    (h : HasVisited c f vs) {k : Nat} {v : Visit} (hk : vs[k]? = some v) :
    v.Reports c ((vs.take k).getLast?.map Visit.offset) :=
  (h.accounts hv hlen).lawful k v hk

end Frame

/-! ### A loop within a line -/

/-- The code of a loop on its second line: `NOP`, then `NOP`, `NOP` and a jump back. -/
def circlingCode : CodeObject where
  identity := 1
  body :=
    { name := "circling"
      bytecode := [Opcode.nop.byte, Opcode.nop.byte, Opcode.nop.byte,
        Opcode.jumpAbsolute.byte, 1, 0]
      firstLine := 1
      lineTable := [1, 1] }

theorem circlingCode_valid : circlingCode.body.Valid := by
  change circlingCode.body.validate = .ok ()
  cbv

/-- A new frame of that code. -/
def circlingFrame : Frame where
  code := circlingCode
  globals := ⟨0⟩
  builtins := Heap.defaultBuiltins
  locals := .dict ⟨0⟩
  cells := []
  stack := .empty 0
  trace := { line := 1 }

/-- The frame with both lines reported, about to jump back. -/
def turningFrame : Frame := ((circlingFrame.reported 0).reported 1).reported 2

theorem turningFrame_restore : turningFrame.capture.restore = .ok turningFrame := by
  have hb : circlingCode.body.isBoundary 2 = true := by cbv
  refine FrameRecord.restore_eq_ok_iff.2 ⟨?_, rfl⟩
  exact
    { version := rfl
      cells := rfl
      offset := .inr ⟨by decide, hb⟩
      filled := rfl
      room := by decide
      handlers := nofun
      depths := nofun
      nested := .nil
      locals := ⟨rfl, rfl⟩ }

theorem Machine.VisitingRun.running {m₀ : Machine Unit} {w : Entry} {f : Frame} {c c' : Control}
    {n n' : Nat} {s : Standing} {vs : List Visit}
    (h : VisitingRun Host.silent [] w m₀ (.running f c n) f s vs) (g : Frame) (s' : Standing)
    (hs : s'.control? = some c') (hm : (Machine.running f c n).step Host.silent = .running g c' n')
    (hw : g.entry .outside = w) : VisitingRun Host.silent [] w m₀ (.running g c' n') g s'
      (vs ++ (Machine.running f c n).visits Host.silent f s) := by
  rw [← hm]
  refine h.step (.innermost ⟨?_, ?_⟩)
  · rw [hm, ← hw]
    rfl
  · rw [hm]
    exact hs

/-- What the frame visits: it starts both lines, and jumps back within the second one. -/
def circlingVisits : List Visit :=
  let line (n : Nat) : Notice := .event (.line circlingCode.body.name n)
  [⟨0, none, [line 1]⟩, ⟨1, none, [line 2]⟩, ⟨2, none, []⟩, ⟨3, none, []⟩, ⟨1, none, [line 2]⟩]

/-- The frame is captured and restored before it jumps back. -/
theorem circlingFrame_hasVisited :
    ∃ f, Frame.HasVisited circlingCode.body f circlingVisits := by
  have stays : Host.silent.Stays := fun _ _ _ _ _ => ⟨rfl, rfl, rfl, rfl, rfl⟩
  have created : Frame.HasVisited circlingCode.body circlingFrame [] := by
    have hc : Frame.create circlingCode ⟨0⟩ Heap.defaultBuiltins [] .initial =
      .ok (circlingFrame, .initial) := rfl
    exact .created hc rfl
  have entered (f : Frame) (hf : f.back = none) : Machine.VisitingRun Host.silent []
      (f.entry .outside) (Machine.idle.enter Host.silent f none none .outside)
      (Machine.idle.enter Host.silent f none none .outside) f (.starting none) [] := by
    refine .entered (.innermost ⟨?_, rfl⟩)
    show [(⟨{ f with back := none }, f.entry .outside⟩ : Activation)] = _
    rw [← hf]
  have first := (((entered circlingFrame rfl).running (n := 0) _ (.before 0) rfl rfl rfl).running
    _ (.before 1) rfl rfl rfl).running _ (.before 2) rfl rfl rfl
  have before := first.running turningFrame (.before 3) rfl rfl rfl
  have second := (((entered turningFrame rfl).running (n := 0) _ (.before 3) rfl rfl rfl).running
    _ (.before 1) rfl rfl rfl).running _ (.before 2) rfl rfl rfl
  have restored := (created.ran (m := .idle) stays before).restored turningFrame_restore
  exact ⟨_, restored.ran (m := .idle) stays second⟩

/-- The second line is reported once more, since a line is due on the way back. -/
theorem circlingFrame_line_events :
    ∃ f vs v, Frame.HasVisited circlingCode.body f vs ∧ vs[4]? = some v ∧ v.offset = 1 ∧
      v.told = [.event (.line circlingCode.body.name 2)] ∧
      circlingCode.body.LineDue ((vs.take 4).getLast?.map Visit.offset) 1 := by
  obtain ⟨f, hf⟩ := circlingFrame_hasVisited
  have hlaw := Frame.HasVisited.line_events circlingCode_valid (by decide) hf (k := 4) rfl
  refine ⟨f, _, _, hf, rfl, rfl, rfl, ?_⟩
  by_contra hdue
  exact absurd (hlaw.quiet hdue) (List.cons_ne_nil _ _)

end Resumable
