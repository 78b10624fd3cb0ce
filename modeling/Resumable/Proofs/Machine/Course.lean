import Resumable.Proofs.Machine.Alignment
import Resumable.Proofs.Machine.Restraint
import Resumable.Proofs.Snapshot.Restoring

/-!
# The course of a frame

A frame of valid code decodes only where an instruction starts, or at the end of its code, whatever
has become of it before: it may be new, or restored from any record, it may have been moved by
hooks, and it may have been run before, whether it returned, yielded or failed (`Frame.Career`).  So
the only instruction it can miss is the one behind the last, and it never misses an operand.

What the rules of valid code cannot exclude is that the end of a handler continues a loop of other
code: a suspended `continue` is a value, and values come from anywhere.  `Machine.LoopsOwn` says
that this does not happen in a run.  `Frame.Career.decodes` is the main statement.
-/

namespace Resumable

/-- In valid code, every argument that indexes a table lies within it. -/
theorem CodeOf.Valid.indexes {c : Code} {i : Instruction} (h : c.Valid)
    (hi : i ∈ c.instructions) : i.Indexes c := by
  intro t ht
  have hd := h.checked.2
  unfold CodeOf.defect? at hd
  rw [Option.or_eq_none_iff, List.findSome?_eq_none_iff] at hd
  have hi := hd.1 i hi
  unfold CodeOf.instructionDefect? at hi
  rw [ht] at hi
  dsimp only at hi
  split at hi
  · cases hi
  · omega

namespace Machine

variable {σ : Type} (host : Host σ) (below : List Activation) (w : Entry) (c : Code)

/-- If the next step of the machine executes the end of a handler of the frame right above `below`,
and this continues a loop, then where a `continue` instruction of `c` does. -/
def ContinuesOwn (m : Machine σ) : Prop :=
  ∀ f g o i t, m.chain = ⟨f, w⟩ :: below → m.decodes? host = some (g, o) →
    Instruction.decode g.code.body.bytecode o = .ok i → i.opcode = .endFinally →
    g.stack.slots[2]? = some (.suspended (.continuing t)) →
    ∃ j ∈ c.instructions, j.opcode = .continueLoop ∧ j.target = t

/-- In a run from `m₀`, the ends of handlers of the frame right above `below` only continue loops
where a `continue` instruction of `c` does. -/
def LoopsOwn (m₀ : Machine σ) : Prop :=
  ∀ m f s, Carries host below w (fun _ => True) m₀ m f s → m.ContinuesOwn host below w c

end Machine

namespace Frame

/-- The frame is a frame of `c` that has come to a target, and so have its handlers. -/
structure Grounded (c : CodeObject) (f : Frame) : Prop where
  shaped : f.Shaped c
  last : ∀ o, f.lastOffset = some o → c.body.Target o
  handlers : ∀ b ∈ f.blocks, c.body.Target b.handler

/-- A frame of code object `c` as it may be found between two runs: a new one, one restored from a
record, one that a debugger has adjusted, or one that has left the chain after a run, with whatever
result. -/
inductive Career (c : CodeObject) : Frame → Prop
  | created {globals builtins : Ref .mapping} {closure : List (Ref .cell)} {f : Frame}
      {h h' : Heap} (hc : create c globals builtins closure h = .ok (f, h')) : Career c f
  | called {globals builtins : Ref .mapping} {closure : List (Ref .cell)} {args : List Value}
      {f g : Frame} {h h' h'' : Heap} (hc : create c globals builtins closure h = .ok (f, h'))
      (hb : f.bindArguments args h' = .ok (g, h'')) : Career c g
  | restored {r : FrameRecord} {f : Frame} (hr : r.restore = .ok f) (hc : r.code = c)
      (back : Option Nat) : Career c { f with back }
  | adjusted {f g : Frame} (hf : Career c f) (ha : f.Adjusts g) : Career c g
  | resumed {σ : Type} {host : Host σ} {m m' : Machine σ} {w : Waiting} {f g : Frame}
      {input : Option Value} {raising : Option Raised} {result : Except Failure FrameExit}
      (hh : host.Courteous) (hf : Career c f)
      (hown : (m.enter host f input raising w).LoopsOwn host m.chain (f.entry w) c.body)
      (hc : Machine.Carries host m.chain (f.entry w) (fun _ => True)
        (m.enter host f input raising w) m' g (.leaving result)) : Career c (g.released result)

variable {c : CodeObject} {f g : Frame}

/-! ### The shape of a frame -/

theorem Shaped.finish (hf : f.Shaped c) : f.finish.Shaped c := { hf with }

theorem Shaped.of_akin (hf : f.Shaped c) (ha : f.Akin g) : g.Shaped c :=
  hf.of_same ha.code ha.cells ha.locals

theorem Shaped.turns (hf : f.Shaped c) (ht : f.Turns g) : g.Shaped c := by
  rcases ht with ha | ⟨g', ha, rfl⟩
  · exact hf.of_akin ha
  · exact (hf.of_akin ha).finish

theorem Shaped.adjusts (hf : f.Shaped c) (ha : f.Adjusts g) : g.Shaped c := by
  induction ha with
  | refl => exact hf
  | jump _ hj ih =>
    obtain ⟨keep, target, l, -, -, rfl⟩ := jump_spec hj
    exact { ih with }
  | bind _ hs ih =>
    unfold setFastLocal at hs
    split at hs
    · cases hs
    · rename_i slots hl
      split at hs <;> cases hs
      refine { ih with slots := ?_ }
      intro slots' hs'
      cases hs'
      rw [List.length_set]
      exact ih.slots slots hl
  | popBlock _ hb ih =>
    unfold Frame.popBlock at hb
    split at hb <;> cases hb
    exact { ih with }
  | setTrace _ hook ih => exact { ih with }

theorem Shaped.traced {σ : Type} {host : Host σ} {o o' : Nat} (hh : host.Courteous)
    (hf : f.Shaped c) (ht : Traced host f o g o') : g.Shaped c := by
  have hr : (f.reported o).Shaped c := { hf with }
  rcases ht.hooked_or with ⟨rfl, -⟩ | ⟨-, ha, -⟩
  · exact hr
  · exact hr.adjusts (ha hh)

theorem create_shaped {globals builtins : Ref .mapping} {closure : List (Ref .cell)} {h h' : Heap}
    (hc : create c globals builtins closure h = .ok (f, h')) :
    f.Shaped c ∧ f.lastOffset = none ∧ f.blocks = [] := by
  simp only [create] at hc
  by_cases hl : closure.length ≠ c.body.freevars.length
  · rw [if_pos hl] at hc
    cases hc
  · rw [if_neg hl] at hc
    rw [Decidable.not_not] at hl
    cases hc
    refine ⟨⟨rfl, ?_, fun slots hs => ?_⟩, rfl, rfl⟩
    · rw [List.length_append, length_newCells, hl, CodeOf.cellCount, CodeOf.cellNames,
        List.length_append]
    · unfold initialLocals at hs
      split at hs
      · cases hs
        exact List.length_replicate
      · split at hs <;> cases hs

theorem bindArguments_shaped {args : List Value} {h h' : Heap} (hf : f.Shaped c)
    (hb : f.bindArguments args h = .ok (g, h')) :
    g.Shaped c ∧ g.lastOffset = f.lastOffset ∧ g.blocks = f.blocks := by
  unfold bindArguments at hb
  split at hb
  · cases hb
  · rename_i slots hs
    split at hb <;> cases hb
    refine ⟨{ hf with slots := fun slots' hs' => ?_ }, rfl, rfl⟩
    cases hs'
    rw [length_bindSlots]
    exact hf.slots slots hs

theorem restore_grounded {r : FrameRecord} (hr : r.restore = .ok f) (hc : r.code = c) :
    f.Grounded c := by
  obtain ⟨hres, rfl⟩ := FrameRecord.restore_eq_ok_iff.1 hr
  subst hc
  refine ⟨⟨rfl, hres.cells, fun slots hs => ?_⟩, fun o ho => ?_, fun b hb => ?_⟩
  · have hl := hres.locals
    have hs : r.liveLocals = .fast slots := hs
    unfold FrameRecord.LocalsFit at hl
    unfold FrameRecord.liveLocals at hs
    cases hrl : r.locals with
    | fast slots' =>
      rw [hrl] at hl hs
      cases hs
      exact hl.2
    | dict names =>
      rw [hrl] at hs
      cases hs
    | globals =>
      rw [hrl] at hs
      cases hs
  · have ho : (if r.lastOffset = -1 then none else some r.lastOffset.toNat) = some o := ho
    by_cases hn : r.lastOffset = -1
    · rw [if_pos hn] at ho
      cases ho
    · rw [if_neg hn] at ho
      obtain ⟨-, hb⟩ := hres.offset.resolve_left hn
      cases ho
      exact .inr hb
  · exact .inr (hres.handlers b (List.mem_reverse.1 hb))

/-! ### Runs -/

theorem Turns.lastOffset (ht : f.Turns g) : g.lastOffset = f.lastOffset := by
  rcases ht with ha | ⟨g', ha, rfl⟩
  · exact ha.lastOffset
  · exact ha.lastOffset

/-- The frame has come to a target, and goes on at one. -/
structure OnTrack (c : CodeObject) (f : Frame) (s : Standing) : Prop where
  shaped : f.Shaped c
  last : ∀ o, f.lastOffset = some o → c.body.Target o
  aligned : f.Aligned c.body s

theorem OnTrack.grounded {s : Standing} (h : f.OnTrack c s) : f.Grounded c :=
  ⟨h.shaped, h.last, h.aligned.handlers⟩

theorem Grounded.onTrack {p : Frame × Standing} (hf : f.Grounded c) (ht : f.Turns p.1)
    (ha : p.1.Aligned c.body p.2) : p.1.OnTrack c p.2 where
  shaped := hf.shaped.turns ht
  last := by
    rw [ht.lastOffset]
    exact hf.last
  aligned := ha

theorem Grounded.released (hf : f.Grounded c) (result : Except Failure FrameExit) :
    (f.released result).Grounded c := by
  unfold Frame.released
  dsimp only
  split <;> exact ⟨{ hf.shaped with }, hf.last, hf.handlers⟩

theorem Grounded.adjusts (hv : c.body.Valid) (hf : f.Grounded c) (ha : f.Adjusts g) :
    g.Grounded c := by
  obtain ⟨-, hb, -, hl⟩ := ha.spec
  refine ⟨hf.shaped.adjusts ha, fun o ho => ?_, fun b hm => hf.handlers b (hb.subset hm)⟩
  rcases hl with hl | ⟨target, line, hl, hm, -⟩
  · exact hf.last o (hl ▸ ho)
  · rw [hl] at ho
    cases ho
    rw [hf.shaped.code] at hm
    exact hv.lineStart hm

/-- A frame put on the chain goes on at a target. -/
theorem Grounded.entered (hv : c.body.Valid) (hf : f.Grounded c) {stack : OperandStack}
    {back : Option Nat} {raising : Option Raised} :
    ({ f with stack, back } : Frame).OnTrack c (.starting raising) :=
  ⟨{ hf.shaped with }, hf.last, hf.handlers, fun _ ho =>
    target_of_resumeOffset (f := f) hv hf.shaped.code hf.last ho⟩

end Frame

/-! ### What a frame can leave with -/

/-- If the frame leaves with the fault of a frame that has left its code, then it has run off the
end. -/
def Standing.Straight (c : Code) : Standing → Prop
  | leaving (.error e) =>
    e.isStray = true → ∃ b, e = .fatal (.invalidOpcode c.bytecode.length b)
  | _ => True

theorem LimitError.not_stray (e : LimitError) : e.toFailure.isStray = false := by
  cases e <;> rfl

theorem Heap.Refuses.not_stray {h : Heap} {r : Ref .generator} {e : Failure}
    (hr : h.Refuses r e) : e.isStray = false := by
  cases hr with
  | limit l => exact l.not_stray
  | input _ _ hp =>
    rw [(OperandStack.push_eq_error_iff.1 hp).2]
    rfl
  | frame ht =>
    unfold Heap.takeFrame at ht
    dsimp only at ht
    split at ht
    · cases ht
      rfl
    · cases ht
      rfl
    · cases ht
      rfl
    · split at ht
      · cases ht
        rfl
      · split at ht <;> cases ht
        rfl
    · split at ht <;> cases ht
      rfl

namespace Frame

variable {c : CodeObject} {f g : Frame} {i : Instruction} {o : Nat}

theorem straight_failing (f : Frame) {e : Failure} (he : e.isStray = false) :
    (f.failing e).2.Straight c.body := by
  intro hs
  rw [he] at hs
  cases hs

theorem straight_raising (f : Frame) (e : Raised) (offset : Nat) :
    (f.raising e offset).2.Straight c.body := by
  unfold raising
  dsimp only
  cases hu : f.unwind (.raising (e.through ⟨f.code.body.name, f.code.body.lineForOffset offset,
    offset⟩)) with
  | mk g u =>
    obtain ⟨-, hs⟩ := unwind_spec hu
    cases u with
    | handled target => trivial
    | faulted fault =>
      refine straight_failing g ?_
      rw [hs.1]
      rfl
    | unhandled => exact straight_failing _ rfl

theorem straight_failingAt (f : Frame) (offset : Nat) {e : Failure} (he : e.isStray = false) :
    (f.failingAt offset e).2.Straight c.body := by
  cases e with
  | raised e => exact straight_raising f e offset
  | fatal e => exact straight_failing f he
  | uncatchable e => exact straight_failing f he

theorem straight_failingLoop (f : Frame) (site : Instruction) {e : Failure}
    (he : e.isStray = false) : (f.failingLoop site e).2.Straight c.body := by
  unfold failingLoop
  split
  · unfold exhausted
    cases hp : f.stack.pop with
    | ok r => trivial
    | error e =>
      refine straight_failing f ?_
      rw [OperandStack.pop_eq_error hp]
      rfl
  · exact straight_failingAt f site.offset he

theorem Follows.straight {heap : Heap} {flow : Flow} {given : Option Failure}
    {p : Frame × Standing} (hf : Follows heap i f flow given p) : p.2.Straight c.body := by
  cases hf with
  | reraise => exact straight_failing f rfl
  | refused => exact straight_failingAt f _ (LimitError.not_stray _)
  | spent hr => exact straight_failingLoop f i hr.not_stray
  | _ => trivial

end Frame

namespace Machine

variable {σ : Type} {host : Host σ} {below : List Activation} {w : Entry} {m m₀ m' : Machine σ}
  {f g : Frame} {s : Standing} {c : CodeObject}

/-- The frame held is the innermost one if nothing is above it. -/
theorem Holds.stands_of_chain (h : m.Holds below w f s) (hc : m.chain = ⟨g, w⟩ :: below) :
    m.Stands below w (f, s) := by
  obtain ⟨above, ha, -, hs⟩ := h.split
  rcases hs with ⟨rfl, hs⟩ | ⟨outer, g', v, rfl, -⟩
  · exact ⟨ha, hs⟩
  · have hl := congrArg List.length (ha.symm.trans hc)
    simp only [List.length_append, List.length_cons, List.length_nil] at hl
    omega

/-- What dispatching leaves of a frame on its track. -/
theorem dispatch_onTrack (hv : c.body.Valid) (hlen : c.body.bytecode.length ≤ Frame.farthestOffset)
    (hh : host.Courteous) {o : Nat} (hs : m.Stands below w (f, .before o))
    (hown : m.ContinuesOwn host below w c.body) (ht : f.OnTrack c (.before o)) :
    (∀ g o', m.decodes? host = some (g, o') → g.code = c ∧ c.body.Target o') ∧
      ∃ p : Frame × Standing, (m.dispatch host o).Holds below w p.1 p.2 ∧ p.1.OnTrack c p.2 ∧
        p.2.Straight c.body := by
  rcases dispatch_cases host hs with ⟨e, hn, hl⟩ | ⟨g, o', m', hd, htr, hc, -, he, hi⟩
  · refine ⟨fun g o' hd => ?_, f.failing e.toFailure, .innermost hl, ?_, ?_⟩
    · rw [hn] at hd
      cases hd
    · exact ht.grounded.onTrack (Frame.turns_failing f _) (Frame.arrives_finish _ _).aligned
    · exact Frame.straight_failing f e.not_stray
  · obtain ⟨hcode, htarget, hlast, hb, hst⟩ :=
      ht.aligned.reaches hv ht.shaped.code (fun _ => trivial) (fun _ : True => hh)
        (fun _ => hlen) htr
    have hg : g.Grounded c := by
      refine ⟨ht.shaped.traced hh htr, fun o ho => ?_, hb⟩
      rw [hlast, Frame.recordedOffset_of_target hcode htarget hlen] at ho
      cases ho
      exact htarget
    refine ⟨fun g₁ o₁ hd₁ => ?_, ?_⟩
    · rw [decodes?_of_lined? host hd] at hd₁
      cases hd₁
      exact ⟨hcode, htarget⟩
    · cases hdec : Instruction.decode g.code.body.bytecode o' with
      | error e =>
        rw [he e hdec]
        refine ⟨g.failing (.fatal e), .innermost (fail_stands hc _),
          hg.onTrack (Frame.turns_failing g _) (Frame.arrives_finish _ _).aligned, fun hstray => ?_⟩
        -- only at the end of the code is there nothing to decode
        obtain ⟨b, rfl⟩ := Instruction.error_of_decode hdec
        rw [hcode] at hdec
        exact ⟨b, by rw [htarget.eq_length hdec]⟩
      | ok i =>
        rw [hi i hdec]
        have hcdec := hdec
        rw [hcode] at hcdec
        obtain ⟨hbound, hmem⟩ := htarget.isBoundary hcdec
        have hio := Instruction.offset_of_decode hdec
        rcases perform_holds host hc i with ⟨current, h, e, l, hx, hp⟩ |
          ⟨current, flow, l, given, p, hx, hf, hp⟩
        · have hdam := Exec.damage_of_execute hx
          refine ⟨l.frame.failingAt i.offset e, .innermost hp,
            hg.onTrack (.after hdam.toAkin (Frame.turns_failingAt _ _ _))
              (Frame.damaged_arrives hb hdam).aligned, Frame.straight_failingAt _ _ ?_⟩
          -- the argument of an instruction of valid code is in range
          have hst := Exec.steady_execute (c := c) current i ⟨g, h⟩
          rw [hx] at hst
          exact hst.2 (hv.indexes hmem) hg.shaped
        · have heff := Exec.effect_of_execute hx
          refine ⟨p, hp, hg.onTrack (.after heff.akin hf.turns) ?_, hf.straight⟩
          rw [Frame.recordedOffset_of_target hcode htarget hlen, ← hio] at hlast
          rw [← hio] at hbound
          refine Frame.follows_aligned hv hmem hlast hbound hb (fun hop t hslot => ?_) heff hf
          obtain ⟨j, hj, hjop, rfl⟩ :=
            hown f g o' i t hs.chain (decodes?_of_lined? host hd) hdec hop hslot
          refine hv.target hj ?_
          obtain ⟨oj, opj, argj⟩ := j
          obtain rfl : opj = .continueLoop := hjop
          rfl

/-- What a frame that waits is given leaves it on its track. -/
theorem answered_onTrack (hv : c.body.Valid) (hn : s.control? = none) (ht : f.OnTrack c s)
    {given : Option Failure} {p : Frame × Standing} (hm : Frame.Moves host f given s p) :
    p.1.OnTrack c p.2 := by
  cases hm with
  | waits _ => exact ht
  | answered _ =>
    exact ht.grounded.onTrack (Frame.turns_answered f _ _)
      (Frame.answered_arrives ht.aligned.handlers (ht.aligned.returns hv) hn _).aligned
  | _ => cases hn

/-- Starting a frame leaves it on its track. -/
theorem start_onTrack {raising : Option Raised} (ht : f.OnTrack c (.starting raising))
    {given : Option Failure} {p : Frame × Standing}
    (hm : Frame.Moves host f given (.starting raising) p) :
    p.1.OnTrack c p.2 ∧ p.2.Straight c.body := by
  cases hm with
  | start ho =>
    exact ⟨ht.grounded.onTrack (.refl f) ⟨ht.aligned.handlers, ht.aligned.faces _ ho⟩, trivial⟩
  | raise _ =>
    exact ⟨ht.grounded.onTrack (Frame.turns_raising f _ _)
      (Frame.raising_arrives ht.aligned.handlers _ _).aligned, Frame.straight_raising f _ _⟩
  | lost ho =>
    obtain ⟨b, rfl⟩ := Frame.resumeOffset_eq_error ht.shaped.code ht.last ho
    exact ⟨ht.grounded.onTrack (.refl f) ⟨ht.aligned.handlers, trivial⟩, fun _ => ⟨b, rfl⟩⟩
  | waits hn => cases hn
  | answered hn => cases hn

/-- A frame that decodes next is about to execute. -/
theorem Stands.before_of_decodes? {g : Frame} {o : Nat} (h : m.Stands below w (f, s))
    (hd : m.decodes? host = some (g, o)) : ∃ o', s = .before o' := by
  have hs := h.control
  unfold decodes? lined? at hd
  cases hm : m.control with
  | dispatch offset =>
    rw [hm] at hs
    exact ⟨offset, Standing.control?_injective hs rfl⟩
  | start _ => rw [hm] at hd; cases hd
  | leave _ => rw [hm] at hd; cases hd
  | halted _ _ => rw [hm] at hd; cases hd

/-- **A step leaves the frame on its track**, and if it is a step of the frame, then it ends the run
of the frame with no fault of a frame that has left its code, unless it ran off the end. -/
theorem step_onTrack (hv : c.body.Valid) (hlen : c.body.bytecode.length ≤ Frame.farthestOffset)
    (hh : host.Courteous) (h : m.Holds below w f s) (hown : m.ContinuesOwn host below w c.body)
    (ht : f.OnTrack c s) :
    (∃ result, s = .leaving result) ∨
      ∃ p : Frame × Standing, (m.step host).Holds below w p.1 p.2 ∧ p.1.OnTrack c p.2 ∧
        (m.chain = ⟨f, w⟩ :: below → p.2.Straight c.body) := by
  have waiting (hn : s.control? = none) (hc : m.chain = ⟨f, w⟩ :: below) : False := by
    have hs := (h.stands_of_chain hc).control
    rw [hn] at hs
    cases hs
  rcases h.step host with ⟨result, rfl⟩ | ⟨given, p, hm, hp, -⟩
  · exact .inl ⟨result, rfl⟩
  refine .inr ?_
  cases s with
  | before o =>
    have hs := h.stands rfl
    obtain ⟨-, q, hq, hqt, hqs⟩ := dispatch_onTrack hv hlen hh hs hown ht
    rw [hs.step_before host]
    exact ⟨q, hq, hqt, fun _ => hqs⟩
  | starting raising =>
    obtain ⟨hpt, hps⟩ := start_onTrack ht hm
    exact ⟨p, hp, hpt, fun _ => hps⟩
  | leaving result => exact absurd hp h.not_leaving
  | calling site => exact ⟨p, hp, answered_onTrack hv rfl ht hm, fun hc => (waiting rfl hc).elim⟩
  | looping site => exact ⟨p, hp, answered_onTrack hv rfl ht hm, fun hc => (waiting rfl hc).elim⟩

/-- All along a run, a frame stays on its track. -/
theorem Carries.onTrack (hv : c.body.Valid) (hlen : c.body.bytecode.length ≤ Frame.farthestOffset)
    (hh : host.Courteous) {f₀ : Frame} {input : Option Value} {raising : Option Raised}
    {v : Waiting} (hf : f₀.Grounded c)
    (hown : (m₀.enter host f₀ input raising v).LoopsOwn host m₀.chain (f₀.entry v) c.body)
    (hc : Carries host m₀.chain (f₀.entry v) (fun _ => True) (m₀.enter host f₀ input raising v) m f
      s) :
    f.OnTrack c s := by
  induction hc with
  | entered hh ha =>
    obtain ⟨stack, back, -, rfl, rfl⟩ := enter_holds hh
    exact hf.entered hv
  | step hr hh' ha ih =>
    rcases step_onTrack hv hlen hh hr.held.1 (hown _ _ _ hr) ih with ⟨result, rfl⟩ |
      ⟨p, hp, hpt, -⟩
    · exact absurd hh' hr.held.1.not_leaving
    · obtain ⟨rfl, rfl⟩ := hp.unique hh'
      exact hpt

end Machine

namespace Frame

variable {c : CodeObject} {f g : Frame}

/-- Whatever has become of it, a frame of valid code has come to a target. -/
theorem Career.grounded (hv : c.body.Valid) (hlen : c.body.bytecode.length ≤ farthestOffset)
    (hf : Career c f) : f.Grounded c := by
  induction hf with
  | created hc =>
    obtain ⟨hs, hl, hb⟩ := create_shaped hc
    exact ⟨hs, by rw [hl]; nofun, by rw [hb]; nofun⟩
  | called hc hb =>
    obtain ⟨hs, hl, hn⟩ := create_shaped hc
    obtain ⟨hs, hl', hn'⟩ := bindArguments_shaped hs hb
    exact ⟨hs, by rw [hl', hl]; nofun, by rw [hn', hn]; nofun⟩
  | restored hr hc back =>
    have hg := restore_grounded hr hc
    exact ⟨{ hg.shaped with }, hg.last, hg.handlers⟩
  | adjusted _ ha ih => exact ih.adjusts hv ha
  | resumed hh _ hown hc ih => exact (hc.onTrack hv hlen hh ih hown).grounded.released _

/-- **A frame of valid code decodes where an instruction starts, or at the end.**  In every state of
a run of the frame in which it is the innermost one, what is decoded next is decoded there; and if
the next step ends its run with a fault, then an invalid opcode was met at the end of the code only,
and no operand was missed. -/
theorem Career.decodes {σ : Type} {host : Host σ} {m m' : Machine σ} {w : Waiting}
    {input : Option Value} {raising : Option Raised} {s : Standing} (hv : c.body.Valid)
    (hlen : c.body.bytecode.length ≤ farthestOffset) (hf : Career c f) (hh : host.Courteous)
    (hown : (m.enter host f input raising w).LoopsOwn host m.chain (f.entry w) c.body)
    (hc : Machine.Carries host m.chain (f.entry w) (fun _ => True)
      (m.enter host f input raising w) m' g s)
    (htop : m'.chain = ⟨g, f.entry w⟩ :: m.chain) :
    (∀ f' o, m'.decodes? host = some (f', o) →
      f'.code = c ∧ (o = c.body.bytecode.length ∨ ∃ i ∈ c.body.instructions, i.offset = o)) ∧
    ∀ f' e, (m'.step host).Stands m.chain (f.entry w) (f', .leaving (.error (.fatal e))) →
      (∀ o b, e = .invalidOpcode o b → o = c.body.bytecode.length) ∧
      (∀ t index, e ≠ .invalidCode (.operandOutOfRange t index)) ∧
      ∀ index, e ≠ .invalidCode (.slotOutOfRange index) := by
  have hown' := hown _ _ _ hc
  have ht := hc.onTrack hv hlen hh (hf.grounded hv hlen) hown
  have hs := hc.held.1.stands_of_chain htop
  refine ⟨fun f' o hd => ?_, fun f' e hl => ?_⟩
  · obtain ⟨o', rfl⟩ := hs.before_of_decodes? hd
    obtain ⟨hcode, ht⟩ := (Machine.dispatch_onTrack hv hlen hh hs hown' ht).1 f' o hd
    exact ⟨hcode, ht.imp_right CodeOf.isBoundary_iff.1⟩
  · rcases Machine.step_onTrack hv hlen hh hc.held.1 hown' ht with ⟨result, rfl⟩ | ⟨p, hp, -, hps⟩
    · exact absurd (.innermost hl) hc.held.1.not_leaving
    · have hstraight := hps htop
      -- a frame that fails so has run straight behind the last instruction
      rw [(hp.unique (.innermost hl)).2] at hstraight
      refine ⟨?_, ?_, ?_⟩
      · rintro o b rfl
        obtain ⟨b', he⟩ := hstraight rfl
        cases he
        rfl
      · rintro t index rfl
        obtain ⟨b, he⟩ := hstraight rfl
        cases he
      · rintro index rfl
        obtain ⟨b, he⟩ := hstraight rfl
        cases he

end Frame

/-! ### Frames that never yield -/

/-- The frame is done for this run, with a value that it yields. -/
def Standing.Yields : Standing → Prop
  | .leaving (.ok (.yielded _)) => True
  | _ => False

/-- A frame that waits does not yield. -/
theorem Standing.not_yields {s : Standing} (hs : s.control? = none) : ¬s.Yields := by
  cases s with
  | leaving result => cases hs
  | _ => exact id

namespace Frame

theorem not_yields_raising (f : Frame) (e : Raised) (offset : Nat) :
    ¬(f.raising e offset).2.Yields := by
  unfold raising
  dsimp only
  split <;> exact id

theorem not_yields_failingAt (f : Frame) (offset : Nat) (e : Failure) :
    ¬(f.failingAt offset e).2.Yields := by
  cases e with
  | raised e => exact not_yields_raising f e offset
  | fatal e => exact id
  | uncatchable e => exact id

theorem not_yields_resumed (f : Frame) (v : Value) (site : Instruction) :
    ¬(f.resumed v site).2.Yields := by
  unfold resumed
  split <;> exact id

theorem not_yields_exhausted (f : Frame) (site : Instruction) : ¬(f.exhausted site).2.Yields := by
  unfold exhausted
  split <;> exact id

theorem not_yields_failingLoop (f : Frame) (site : Instruction) (e : Failure) :
    ¬(f.failingLoop site e).2.Yields := by
  unfold failingLoop
  split
  · exact not_yields_exhausted f site
  · exact not_yields_failingAt f _ _

theorem not_yields_answered (f : Frame) {s : Standing} (hs : s.control? = none)
    (result : Except Failure FrameExit) : ¬(f.answered s result).2.Yields := by
  unfold answered
  split
  · exact not_yields_resumed f _ _
  · exact not_yields_failingAt f _ _
  · exact not_yields_failingAt f _ _
  · exact not_yields_resumed f _ _
  · exact not_yields_exhausted f _
  · exact not_yields_failingLoop f _ _
  · exact Standing.not_yields hs

/-- A frame yields by an instruction that yields. -/
theorem Moves.of_yields {σ : Type} {host : Host σ} {f : Frame} {given : Option Failure}
    {s : Standing} {p : Frame × Standing} (hm : Moves host f given s p) (hy : p.2.Yields) :
    ∃ o g o' i, s = .before o ∧ Traced host f o g o' ∧
      Instruction.decode g.code.body.bytecode o' = .ok i ∧ i.opcode = .yieldValue := by
  cases hm with
  | start _ => exact hy.elim
  | raise _ => exact absurd hy (not_yields_raising f _ _)
  | lost _ => exact hy.elim
  | refused => exact hy.elim
  | undecoded _ _ => exact hy.elim
  | fails _ _ _ => exact absurd hy (not_yields_failingAt _ _ _)
  | @follows o o' g i _ _ flow l _ _ ht hd hx hf =>
    refine ⟨o, g, o', i, rfl, ht, hd, ?_⟩
    cases hf with
    | yielded =>
      cases Exec.effect_of_execute hx with
      | yields hop _ => exact hop
    | refused => exact absurd hy (not_yields_failingAt _ _ _)
    | spent _ => exact absurd hy (not_yields_failingLoop _ _ _)
    | _ => exact hy.elim
  | waits hs => exact absurd hy (Standing.not_yields hs)
  | answered hs => exact absurd hy (not_yields_answered f hs _)

/-- **A frame of valid code that makes no generators never yields**, whatever has become of it
before. -/
theorem Career.never_yields {σ : Type} {host : Host σ} {c : CodeObject} {f g : Frame}
    {m m' : Machine σ} {w : Waiting} {input : Option Value} {raising : Option Raised} {s : Standing}
    (hv : c.body.Valid) (hlen : c.body.bytecode.length ≤ farthestOffset)
    (hgen : c.body.flags.generator = false) (hf : Career c f) (hh : host.Courteous)
    (hown : (m.enter host f input raising w).LoopsOwn host m.chain (f.entry w) c.body)
    (hc : Machine.Carries host m.chain (f.entry w) (fun _ => True)
      (m.enter host f input raising w) m' g s) :
    ¬s.Yields := by
  intro hy
  cases hc with
  | entered hheld _ =>
    obtain ⟨stack, back, -, -, rfl⟩ := Machine.enter_holds hheld
    exact hy
  | step hr hheld _ =>
    have ht := hr.onTrack hv hlen hh (hf.grounded hv hlen) hown
    rcases hr.held.1.step host with ⟨result, rfl⟩ | ⟨given, p, hm, hp, -⟩
    · exact hr.held.1.not_leaving hheld
    obtain ⟨-, rfl⟩ := hheld.unique hp
    obtain ⟨o, g', o', i, rfl, htr, hd, hop⟩ := hm.of_yields hy
    obtain ⟨hcode, htarget, -⟩ :=
      ht.aligned.reaches hv ht.shaped.code (fun _ => trivial) (fun _ : True => hh)
        (fun _ => hlen) htr
    rw [hcode] at hd
    have hi := hv.generator (htarget.isBoundary hd).2 hop
    rw [hgen] at hi
    cases hi

end Frame

/-! ### A handler that continues a loop -/

namespace Machine

variable {σ : Type} {host : Host σ} {below : List Activation} {w : Entry} {m m₀ : Machine σ}
  {f : Frame} {s : Standing}

/-- What holds at the start of a run, and is kept as long as the frame is held, holds all along the
run. -/
theorem Carries.among {allowed : Value → Prop} {S : Machine σ → Prop} (h0 : S m₀)
    (hs : ∀ m, S m → S (m.step host) ∨ ∀ f s, ¬(m.step host).Holds below w f s)
    (h : Carries host below w allowed m₀ m f s) : S m := by
  induction h with
  | entered _ _ => exact h0
  | step hc hh _ ih => exact (hs _ ih).resolve_right fun hn => hn _ _ hh

/-- Where nothing is observed, a frame without a hook decodes where it is. -/
theorem decodes?_running {o n : Nat} (hf : f.trace.hook = none) :
    (running f (.dispatch o) n).decodes? Host.silent = some (f.reported o, o) := by
  obtain ⟨trace, ht, hr⟩ := f.reported_spec o
  have hk : (f.reported o).trace.hook = none := by
    rw [hr]
    exact ht.trans hf
  show some (traceLine Host.silent _ ⟨f, f.entry .outside⟩ o).2 = _
  rw [traceLine_eq]
  dsimp only
  cases f.lineAt? o with
  | none => rfl
  | some line =>
    dsimp only
    rw [hk]

theorem continuesOwn_running {o n : Nat} {code : Code} (hf : f.trace.hook = none)
    (hi : ∀ i t, Instruction.decode f.code.body.bytecode o = .ok i → i.opcode = .endFinally →
      f.stack.slots[2]? = some (.suspended (.continuing t)) →
      ∃ j ∈ code.instructions, j.opcode = .continueLoop ∧ j.target = t) :
    (running f (.dispatch o) n).ContinuesOwn Host.silent [] (f.entry .outside) code := by
  intro g f' o' i t hc hd hdec hop hslot
  rw [decodes?_running hf] at hd
  cases hd
  exact hi i t hdec hop hslot

end Machine

/-- The code of a loop around a `finally` block that continues it: `SETUP_LOOP`, `SETUP_FINALLY`,
`CONTINUE_LOOP` to the `POP_BLOCK` behind the handler, which is `END_FINALLY` alone. -/
def continuingCode : CodeObject where
  identity := 1
  body :=
    { name := "continuing"
      bytecode := [Opcode.setupLoop.byte, 8, 0, Opcode.setupFinally.byte, 3, 0,
        Opcode.continueLoop.byte, 10, 0, Opcode.endFinally.byte, Opcode.popBlock.byte,
        Opcode.loadConst.byte, 0, 0, Opcode.returnValue.byte]
      consts := [.none]
      maxStack := 3
      firstLine := 1 }

theorem continuingCode_valid : continuingCode.body.Valid := by
  change continuingCode.body.validate = .ok ()
  cbv

theorem continuingCode_instructions : continuingCode.body.instructions =
    [⟨0, .setupLoop, 8⟩, ⟨3, .setupFinally, 3⟩, ⟨6, .continueLoop, 10⟩, ⟨9, .endFinally, 0⟩,
      ⟨10, .popBlock, 0⟩, ⟨11, .loadConst, 0⟩, ⟨14, .returnValue, 0⟩] := by
  cbv

/-- A frame of that code that has executed the instruction at an offset last. -/
def continuingFrame (offset : Nat) (blocks : List Block) (values : List Value) : Frame where
  code := continuingCode
  globals := ⟨0⟩
  builtins := Heap.defaultBuiltins
  locals := .dict ⟨0⟩
  cells := []
  stack := ⟨values, 3, values.length, rfl⟩
  blocks
  lastOffset := some offset
  trace := { line := 1, lower := 0, upper := Frame.farthestOffset, previous := offset }

/-- The frame about to execute its `CONTINUE_LOOP`, both blocks being live. -/
def insideFrame : Frame := continuingFrame 3 [⟨.cleanup, 9, 0⟩, ⟨.loop, 11, 0⟩] []

theorem insideFrame_restored : insideFrame.capture.restore = .ok insideFrame := by
  have boundary (o : Nat) (ho : o ∈ [3, 9, 11]) : continuingCode.body.isBoundary o = true := by
    rw [CodeOf.isBoundary_iff, continuingCode_instructions]
    revert o
    decide
  refine FrameRecord.restore_eq_ok_iff.2 ⟨?_, rfl⟩
  exact
    { version := rfl
      cells := rfl
      offset := .inr ⟨by decide, boundary 3 (by decide)⟩
      filled := rfl
      room := by decide
      handlers := List.forall_mem_cons.2 ⟨boundary 11 (by decide), List.forall_mem_cons.2
        ⟨boundary 9 (by decide), List.forall_mem_nil _⟩⟩
      depths := by decide
      nested := by decide
      locals := ⟨rfl, rfl⟩ }

/-- The run of that frame from its `CONTINUE_LOOP` on, which the handler suspends and resumes. -/
def continuingRun : List (Machine Unit) :=
  let loop : Block := ⟨.loop, 11, 0⟩
  let suspended : List Value := [.none, .none, .suspended (.continuing 10)]
  [.running insideFrame (.start none) 0,
    .running insideFrame (.dispatch 6) 0,
    .running (continuingFrame 6 [loop] suspended) (.dispatch 9) 1,
    .running (continuingFrame 9 [loop] []) (.dispatch 10) 2,
    .running (continuingFrame 10 [] []) (.dispatch 11) 3,
    .running (continuingFrame 11 [] [.none]) (.dispatch 14) 4,
    .running (continuingFrame 14 [] []).finish (.leave (.ok (.returned .none))) 5]

theorem continuingRun_step : ∀ m ∈ continuingRun,
    m.step Host.silent ∈ continuingRun ∨
      ∀ f s, ¬(m.step Host.silent).Holds [] (insideFrame.entry .outside) f s := by
  intro m hm
  unfold continuingRun at hm ⊢
  simp only [List.mem_cons, List.not_mem_nil, or_false] at hm
  rcases hm with rfl | rfl | rfl | rfl | rfl | rfl | rfl
  · exact .inl (.tail _ (.head _))
  · exact .inl (.tail _ (.tail _ (.head _)))
  · exact .inl (.tail _ (.tail _ (.tail _ (.head _))))
  · exact .inl (.tail _ (.tail _ (.tail _ (.tail _ (.head _)))))
  · exact .inl (.tail _ (.tail _ (.tail _ (.tail _ (.tail _ (.head _))))))
  · exact .inl (.tail _ (.tail _ (.tail _ (.tail _ (.tail _ (.tail _ (.head _)))))))
  · refine .inr fun f s hh => ?_
    have hl := hh.not_halted
    cases hl

theorem continuingRun_own : ∀ m ∈ continuingRun,
    m.ContinuesOwn Host.silent [] (insideFrame.entry .outside) continuingCode.body := by
  intro m hm
  unfold continuingRun at hm
  simp only [List.mem_cons, List.not_mem_nil, or_false] at hm
  rcases hm with rfl | rfl | rfl | rfl | rfl | rfl | rfl
  · exact fun _ _ _ _ _ _ hd => by cases hd
  · exact Machine.continuesOwn_running rfl fun i t hd hop _ => by cases hd; cases hop
  · refine Machine.continuesOwn_running rfl fun i t hd hop hslot => ?_
    cases hslot
    refine ⟨⟨6, .continueLoop, 10⟩, ?_, rfl, rfl⟩
    rw [continuingCode_instructions]
    decide
  · exact Machine.continuesOwn_running rfl fun i t hd hop _ => by cases hd; cases hop
  · exact Machine.continuesOwn_running rfl fun i t hd hop _ => by cases hd; cases hop
  · exact Machine.continuesOwn_running rfl fun i t hd hop _ => by cases hd; cases hop
  · exact fun _ _ _ _ _ _ hd => by cases hd

/-- The handler of that frame, restored from a record, ends at an instruction and goes on at one. -/
theorem continuingFrame_decodes :
    let m := Machine.running (continuingFrame 6 [⟨.loop, 11, 0⟩]
      [.none, .none, .suspended (.continuing 10)]) (.dispatch 9) 1
    (∃ f, m.decodes? Host.silent = some (f, 9)) ∧
    (∀ f o, m.decodes? Host.silent = some (f, o) → f.code = continuingCode ∧
      (o = continuingCode.body.bytecode.length ∨
        ∃ i ∈ continuingCode.body.instructions, i.offset = o)) ∧
    ∀ f e, (m.step Host.silent).Stands [] (insideFrame.entry .outside)
        (f, .leaving (.error (.fatal e))) →
      (∀ o b, e = .invalidOpcode o b → o = continuingCode.body.bytecode.length) ∧
      (∀ t index, e ≠ .invalidCode (.operandOutOfRange t index)) ∧
      ∀ index, e ≠ .invalidCode (.slotOutOfRange index) := by
  intro m
  have entered : Machine.Carries Host.silent [] (insideFrame.entry .outside) (fun _ => True)
      (Machine.idle.enter Host.silent insideFrame none none .outside)
      (.running insideFrame (.start none) 0) insideFrame (.starting none) :=
    .entered (.innermost ⟨rfl, rfl⟩) nofun
  have started := entered.running insideFrame (.before 6) rfl rfl nofun rfl
  have suspended := started.running (continuingFrame 6 [⟨.loop, 11, 0⟩]
    [.none, .none, .suspended (.continuing 10)]) (.before 9) rfl rfl (fun _ _ => trivial) rfl
  refine ⟨⟨_, Machine.decodes?_running rfl⟩, ?_⟩
  refine Frame.Career.decodes (m := .idle) continuingCode_valid (by decide)
    (.restored insideFrame_restored rfl none) (fun _ _ _ _ _ => .refl) (fun m f s hc => ?_)
    suspended rfl
  exact continuingRun_own m (hc.among (List.mem_cons_self) continuingRun_step)

end Resumable
