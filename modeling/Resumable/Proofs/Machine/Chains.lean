import Resumable.Proofs.Machine.Apart

/-!
# Chains of frames that are resumed

A chain of frames can go on in two ways.  It can be put back as it was, the callers waiting at their
calls (`Machine.nested`).  Or its frames are run one after the other, each with nothing below it and
with what the one above came to (`Session.resumeChain`).

Both come to the same result with the same effects (`Session.resumeChain_iff_nested`), provided that
nothing that happens depends on the callers being there (`Machine.Undisturbed`): there is room for
frames, no bare raise raises an exception again that only waiting callers handle, and no frame
yields to a caller, as no frame does whose code makes no generators.
-/

namespace Resumable

variable {σ τ : Type}

/-- The frame has executed the call `i` last, and waits for its value. -/
structure Frame.AtCall (f : Frame) (i : Instruction) : Prop where
  last : f.lastOffset = some i.offset
  decoded : Instruction.decode f.code.body.bytecode i.offset = .ok i
  call : i.opcode = .callFunction

/-- A caller goes on behind its call. -/
theorem Frame.AtCall.resumeOffset {f : Frame} {i : Instruction} (h : f.AtCall i) :
    f.resumeOffset = .ok i.next :=
  Frame.resumeOffset_of_decode h.last h.decoded

/-- The contexts are the same as far as it is seen. -/
structure Context.Agrees (view : σ → τ) (c c' : Context σ) : Prop where
  heap : c.heap = c'.heap
  budget : c.budget = c'.budget
  state : view c.state = view c'.state

theorem Context.Agrees.trans {view : σ → τ} {c c' c'' : Context σ} (h : c.Agrees view c')
    (h' : c'.Agrees view c'') : c.Agrees view c'' :=
  ⟨h.heap.trans h'.heap, h.budget.trans h'.budget, h.state.trans h'.state⟩

theorem Context.Agrees.symm {view : σ → τ} {c c' : Context σ} (h : c.Agrees view c') :
    c'.Agrees view c :=
  ⟨h.heap.symm, h.budget.symm, h.state.symm⟩

theorem Context.Agrees.congr {view : σ → τ} {c c' seen : Context σ} (h : c.Agrees view c') :
    c.Agrees view seen ↔ c'.Agrees view seen :=
  ⟨h.symm.trans, h.trans⟩

namespace Machine

/-! ### Chains as they were -/

/-- What a frame is to the innermost of its callers, each given with the call it waits at. -/
def waitingFor : List (Frame × Instruction) → Waiting
  | [] => .outside
  | (_, i) :: _ => .call i

/-- The callers of a frame on the chain. -/
def waiters : List (Frame × Instruction) → List Activation
  | [] => []
  | (f, _) :: callers => ⟨f, f.entry (waitingFor callers)⟩ :: waiters callers

/-- The machine that is about to go on with a frame above its callers. -/
def nested (c : Context σ) (f : Frame) (callers : List (Frame × Instruction)) : Machine σ :=
  { c with chain := ⟨f, f.entry (waitingFor callers)⟩ :: waiters callers, control := .start none }

/-- The machine halts with a result, in a context. -/
def Halts (host : Host σ) (m : Machine σ) (result : Except Failure FrameExit) (c : Context σ) :
    Prop :=
  ∃ fuel g, (run host fuel m).outcome? = some (g, result) ∧ (run host fuel m).toContext = c

/-- A run in which nothing depends on the frames that wait at the bottom of the chain all along:
they leave room for those that come, handle no exception that is raised again above them, and are
given no yielded value. -/
structure Undisturbed (host : Host σ) (m : Machine σ) : Prop where
  room : ∀ k, ¬(run host k m).Crowded host
  handles : ∀ k below, m.Awaits host below k → ¬(run host k m).LooksBelow host below
  returns : ∀ k f w i below v, m.Awaits host below k → (run host k m).chain = ⟨f, w⟩ :: below →
    w.waiting = .call i → (run host k m).control ≠ .leave (.ok (.yielded v))

variable {host : Host σ} {view : σ → τ} {m n : Machine σ} {f g : Frame} {w : Entry}
  {result r : Except Failure FrameExit} {c c' : Context σ} {callers : List (Frame × Instruction)}
  {j k : Nat}

theorem run_add (m : Machine σ) : run host (j + k) m = run host k (run host j m) := by
  induction k with
  | zero => rfl
  | succ k ih => rw [← Nat.add_assoc, run_succ, run_succ, ih]

/-- Once a machine has halted, it has halted for good. -/
theorem run_of_outcome? {p : Frame × Except Failure FrameExit}
    (h : (run host j m).outcome? = some p) (hk : j ≤ k) : run host k m = run host j m := by
  obtain ⟨d, rfl⟩ := Nat.exists_eq_add_of_le hk
  rw [run_add, run_of_halted (isHalted_of_outcome? h)]

/-- A machine halts with one result only. -/
theorem run_eq_of_outcome? {p q : Frame × Except Failure FrameExit}
    (hj : (run host j m).outcome? = some p) (hk : (run host k m).outcome? = some q) :
    run host j m = run host k m := by
  rcases Nat.le_total j k with h | h
  · exact (run_of_outcome? hj h).symm
  · exact run_of_outcome? hk h

theorem halts_run : (run host j m).Halts host result c ↔ m.Halts host result c := by
  constructor
  · rintro ⟨fuel, g, ho, hc⟩
    rw [← run_add] at ho hc
    exact ⟨j + fuel, g, ho, hc⟩
  · rintro ⟨fuel, g, ho, hc⟩
    have hr : run host j (run host fuel m) = run host fuel m :=
      run_of_halted (isHalted_of_outcome? ho) j
    refine ⟨fuel, g, ?_, ?_⟩ <;>
      rw [← run_add, Nat.add_comm, run_add, hr] <;> assumption

theorem halts_step : (m.step host).Halts host result c ↔ m.Halts host result c := by
  have h : run host 1 m = m.step host := run_succ 0 m
  rw [← h]
  exact halts_run

theorem Halts.unique {r' : Except Failure FrameExit} (h : m.Halts host r c) :
    m.Halts host r' c' ↔ r' = r ∧ c' = c := by
  constructor
  · rintro ⟨fuel', g', ho', rfl⟩
    obtain ⟨fuel, g, ho, rfl⟩ := h
    have he := run_eq_of_outcome? ho ho'
    rw [he] at ho
    exact ⟨(Prod.mk.inj (Option.some.inj (ho'.symm.trans ho))).2, by rw [he]⟩
  · rintro ⟨rfl, rfl⟩
    exact h

/-- Whoever waits from a move on has waited since the start if it has until then. -/
theorem Awaits.extend {below : List Activation} (hj : m.Awaits host below j)
    (hk : (run host j m).Awaits host below k) : m.Awaits host below (j + k) := by
  intro l hl
  rcases Nat.le_total l j with hlj | hlj
  · exact hj l hlj
  · obtain ⟨d, rfl⟩ := Nat.exists_eq_add_of_le hlj
    rw [run_add]
    exact hk d (by omega)

/-- The rest of a run is undisturbed too, if whoever waits for it has waited before. -/
theorem Undisturbed.run (h : m.Undisturbed host)
    (hw : ∀ below, (∃ a above, (run host j m).chain = a :: (above ++ below)) →
      m.Awaits host below j) :
    (run host j m).Undisturbed host where
  room k := by
    rw [← run_add]
    exact h.room _
  handles k below hk := by
    rw [← run_add]
    exact h.handles _ below ((hw below (hk 0 (Nat.zero_le k))).extend hk)
  returns k f w i below v hk := by
    rw [← run_add]
    exact h.returns _ f w i below v ((hw below (hk 0 (Nat.zero_le k))).extend hk)

/-! ### Frames that leave -/

theorem step_of_leaving (host : Host σ) {rest : List Activation}
    (h : m.Stands rest w (f, .leaving r)) :
    m.step host = (m.popped host w rest r).deliver host w.waiting (f.released r) r := by
  rw [h.step_leaving host, leave_eq m h.chain]

/-- That a frame leaves is not seen. -/
theorem popped_agrees (hh : host.Unplaced view) (m : Machine σ) (w : Entry) (rest : List Activation)
    (r : Except Failure FrameExit) : (m.popped host w rest r).Agrees view m.toContext :=
  ⟨rfl, rfl, hh.passages _ _ (by simp [Event.isPassage]) _⟩

/-- A frame with nothing below it that leaves halts the machine. -/
theorem step_outside (hh : host.Unplaced view) (h : m.LeavesAlone f r) :
    (m.step host).outcome? = some (f.released r, r) ∧ (m.step host).Agrees view m.toContext := by
  obtain ⟨w, hw, h⟩ := h
  refine ⟨outcome?_of_leaving h hw, ?_⟩
  rw [step_of_leaving host h, hw]
  exact popped_agrees hh m w [] r

theorem toContext_fail (m : Machine σ) (e : Failure) : (m.fail e).toContext = m.toContext := by
  unfold fail setFrame
  split <;> rfl

/-- A failure that is no exception ends all the callers. -/
theorem halts_of_failing (hh : host.Unplaced view) {e : Failure} (he : ∀ x, e ≠ .raised x) :
    ∀ {callers : List (Frame × Instruction)} {m : Machine σ} {f : Frame} {w : Entry},
      w.waiting = waitingFor callers → m.Stands (waiters callers) w (f, .leaving (.error e)) →
      ∃ c, m.Halts host (.error e) c ∧ c.Agrees view m.toContext := by
  intro callers
  induction callers with
  | nil =>
    intro m f w hw hm
    obtain ⟨ho, hc⟩ := step_outside hh ⟨w, hw, hm⟩
    exact ⟨_, halts_step.1 ⟨0, _, ho, rfl⟩, hc⟩
  | cons caller callers ih =>
    intro m f w hw hm
    obtain ⟨k, i⟩ := caller
    -- no caller can handle what is not an exception
    have hs : m.step host =
        (m.popped host w (waiters ((k, i) :: callers)) (.error e)).fail e := by
      rw [step_of_leaving host hm, hw]
      cases e with
      | raised x => exact absurd rfl (he x)
      | fatal x => rfl
      | uncatchable x => rfl
    have hm' : (m.step host).Stands (waiters callers) (k.entry (waitingFor callers))
        (k.failing e) := by
      rw [hs]
      exact fail_stands rfl e
    obtain ⟨c, hc, ha⟩ := ih rfl hm'
    refine ⟨c, halts_step.1 hc, ha.trans ?_⟩
    rw [hs, toContext_fail]
    exact popped_agrees hh m w _ _

end Machine

namespace Session

variable {host : Host σ} {view : σ → τ} {n : Machine σ} {f g : Frame} {fuel fuel' j : Nat}
  {result r : Except Failure FrameExit} {c c' : Context σ} {callers : List Frame}
  {raising : Option Raised}

/-- The callers go on with what a frame came to. -/
def passOn (host : Host σ) (fuel : Nat) (callers : List Frame) :
    Except Failure FrameExit → Session σ (Except Failure FrameExit)
  | .ok (.yielded v) => return .ok (.yielded v)
  | .ok (.returned v) => resumeCallers host fuel callers (.ok v)
  | .error e => resumeCallers host fuel callers (.error e)

/-- The machine, which runs a frame alone, halts, and the callers go on to a result. -/
def Concludes (host : Host σ) (n : Machine σ) (callers : List Frame)
    (result : Except Failure FrameExit) (c : Context σ) : Prop :=
  ∃ fuel g r, (Machine.run host fuel n).outcome? = some (g, r) ∧
    ∃ fuel', passOn host fuel' callers r (Machine.run host fuel n).toContext = some (result, c)

theorem resumeChain_cons :
    resumeChain host fuel (f :: callers) c =
      (execute host fuel f c).bind fun p => passOn host fuel callers p.1.2 p.2 := by
  show (execute host fuel f c).bind _ = _
  congr 1

theorem resumeCallers_cons {o : Except Failure Value} (h : afterCallee f o = .ok (g, raising)) :
    resumeCallers host fuel (f :: callers) o c =
      (runFrame host fuel g none raising c).bind fun p => passOn host fuel callers p.1.2 p.2 := by
  unfold resumeCallers
  rw [h]
  show (runFrame host fuel g none raising c).bind _ = _
  congr 1

theorem resumeCallers_cons_error {o : Except Failure Value} {e : Failure}
    (h : afterCallee f o = .error e) :
    resumeCallers host fuel (f :: callers) o c = some (.error e, c) := by
  unfold resumeCallers
  rw [h]
  rfl

/-! ### More moves do not change what a run comes to -/

theorem runFrame_mono {x : (Frame × Except Failure FrameExit) × Context σ}
    (h : runFrame host fuel f none raising c = some x) (hle : fuel ≤ fuel') :
    runFrame host fuel' f none raising c = some x := by
  unfold runFrame at h ⊢
  obtain ⟨p, ho, -⟩ := Option.map_eq_some_iff.1 h
  rw [Machine.run_of_outcome? ho hle]
  exact h

theorem passOn_of_resumeCallers {x : Except Failure FrameExit × Context σ}
    (hc : ∀ (o : Except Failure Value) (c : Context σ),
      resumeCallers host fuel callers o c = some x → resumeCallers host fuel' callers o c = some x)
    (h : passOn host fuel callers r c = some x) : passOn host fuel' callers r c = some x := by
  match r with
  | .ok (.returned v) => exact hc _ _ h
  | .ok (.yielded v) => exact h
  | .error e => exact hc _ _ h

theorem resumeCallers_mono {x : Except Failure FrameExit × Context σ} (hle : fuel ≤ fuel') :
    ∀ (o : Except Failure Value) (c : Context σ), resumeCallers host fuel callers o c = some x →
      resumeCallers host fuel' callers o c = some x := by
  induction callers with
  | nil =>
    intro o c h
    cases o <;> exact h
  | cons f callers ih =>
    intro o c h
    cases ha : afterCallee f o with
    | error e =>
      rw [resumeCallers_cons_error ha] at h ⊢
      exact h
    | ok p =>
      rw [resumeCallers_cons ha] at h ⊢
      obtain ⟨q, hq, hp⟩ := Option.bind_eq_some_iff.1 h
      exact Option.bind_eq_some_iff.2 ⟨q, runFrame_mono hq hle, passOn_of_resumeCallers ih hp⟩

theorem passOn_mono {x : Except Failure FrameExit × Context σ}
    (h : passOn host fuel callers r c = some x) (hle : fuel ≤ fuel') :
    passOn host fuel' callers r c = some x :=
  passOn_of_resumeCallers (resumeCallers_mono hle) h

/-! ### What a chain comes to -/

/-- A frame is run alone, and then its callers go on. -/
theorem concludes_iff : Concludes host (machine host c f none raising) callers result c' ↔
    ∃ fuel, ((runFrame host fuel f none raising c).bind
      fun p => passOn host fuel callers p.1.2 p.2) = some (result, c') := by
  constructor
  · rintro ⟨fuel, g, r, ho, fuel', hp⟩
    refine ⟨max fuel fuel', Option.bind_eq_some_iff.2 ⟨((g, r), _), runFrame_mono ?_
      (Nat.le_max_left fuel fuel'), passOn_mono hp (Nat.le_max_right fuel fuel')⟩⟩
    unfold runFrame
    dsimp only
    rw [ho]
    rfl
  · rintro ⟨fuel, h⟩
    obtain ⟨⟨⟨g, r⟩, c₁⟩, hr, hp⟩ := Option.bind_eq_some_iff.1 h
    obtain ⟨q, ho, hq⟩ := Option.map_eq_some_iff.1 hr
    obtain ⟨rfl, rfl⟩ := Prod.mk.inj hq
    exact ⟨fuel, g, r, ho, fuel, hp⟩

theorem concludes_iff_resumeChain :
    Concludes host (machine host c f none none) callers result c' ↔
      ∃ fuel, resumeChain host fuel (f :: callers) c = some (result, c') := by
  simp only [resumeChain_cons]
  exact concludes_iff

/-- A caller that goes on is run alone. -/
theorem passOn_iff {o : Except Failure Value} (ha : afterCallee f o = .ok (g, raising)) :
    (∃ fuel, resumeCallers host fuel (f :: callers) o c = some (result, c')) ↔
      Concludes host (machine host c g none raising) callers result c' := by
  simp only [resumeCallers_cons ha]
  exact concludes_iff.symm

theorem concludes_step (hn : n.isHalted = false) :
    Concludes host (n.step host) callers result c ↔ Concludes host n callers result c := by
  have hs (fuel : Nat) : Machine.run host (fuel + 1) n = Machine.run host fuel (n.step host) := by
    rw [Machine.run, if_neg (by simp [hn])]
  constructor
  · rintro ⟨fuel, g, r, ho, hp⟩
    rw [← hs] at ho hp
    exact ⟨fuel + 1, g, r, ho, hp⟩
  · rintro ⟨fuel, g, r, ho, hp⟩
    cases fuel with
    | zero =>
      have hh : n.isHalted = true := Machine.isHalted_of_outcome? ho
      rw [hn] at hh
      cases hh
    | succ fuel =>
      rw [hs] at ho hp
      exact ⟨fuel, g, r, ho, hp⟩

/-- Once the frame that runs alone has left, it is up to its callers. -/
theorem concludes_of_outcome? (ho : (Machine.run host j n).outcome? = some (g, r)) :
    Concludes host n callers result c ↔
      ∃ fuel, passOn host fuel callers r (Machine.run host j n).toContext = some (result, c) := by
  constructor
  · rintro ⟨fuel, g', r', ho', fuel', hp⟩
    have he := Machine.run_eq_of_outcome? ho ho'
    rw [← he] at ho' hp
    obtain ⟨rfl, rfl⟩ := Prod.mk.inj (Option.some.inj (ho.symm.trans ho'))
    exact ⟨fuel', hp⟩
  · rintro ⟨fuel, hp⟩
    exact ⟨j, g, r, ho, fuel, hp⟩

/-- No callers are left. -/
theorem passOn_nil :
    (∃ fuel, passOn host fuel [] r c = some (result, c')) ↔ result = r ∧ c' = c := by
  have hp (fuel : Nat) : passOn host fuel [] r c = some (r, c) := by
    match r with
    | .ok (.returned v) => rfl
    | .ok (.yielded v) => rfl
    | .error e => rfl
  simp only [hp, exists_const, Option.some.injEq, Prod.mk.injEq]
  exact and_congr eq_comm eq_comm

/-- The callers go on with a value or a failure. -/
theorem passOn_returned (o : Except Failure Value) :
    passOn host fuel callers (o.map .returned) = resumeCallers host fuel callers o := by
  cases o <;> rfl

end Session

namespace Machine

variable {host : Host σ} {view : σ → τ} {m n : Machine σ} {f g : Frame} {w : Entry}
  {rest : List Activation} {i : Instruction} {c : Context σ} {raising : Option Raised}
  {o : Except Failure Value} {e : Failure} {callers : List (Frame × Instruction)} {k : Nat}

/-! ### A caller that goes on, on the chain and alone -/

/-- A frame that may be run is put on the empty chain. -/
theorem machine_eq (hroom : c.budget.checkDepth 0 = .ok ()) :
    Session.machine host c f none raising =
      pushed host { c with chain := [], control := .start none } f f.stack raising .outside := by
  unfold Session.machine
  dsimp only
  rcases enter_eq host { c with chain := [], control := .start none } f none raising
    .outside with ⟨stack, -, rfl, he⟩ | ⟨_, -, ⟨l, hl, -⟩ | ⟨x, _, hx, -⟩⟩
  · exact he
  · exact absurd (hroom.symm.trans hl) (by simp)
  · cases hx

/-- A frame that is about to be run alone, beside the same frame on the chain. -/
theorem beside_machine (hh : host.Unplaced view) (hc : m.chain = ⟨f, w⟩ :: rest)
    (ha : m.Agrees view c) (hroom : c.budget.checkDepth 0 = .ok ()) (raising : Option Raised) :
    m.Beside view w rest (Session.machine host c f none raising) := by
  rw [machine_eq hroom]
  refine ⟨ha.heap, ha.budget, ha.state.trans ?_, ?_⟩
  · exact (hh.passages _ _ (by simp [Event.isPassage]) _).symm
  · rw [hc]
    exact .bottom rfl rfl

theorem control_machine (hroom : c.budget.checkDepth 0 = .ok ()) :
    (Session.machine host c f none raising).control = .start raising := by
  rw [machine_eq hroom]
  rfl

/-- A frame that is started goes on where the one beside it would. -/
theorem Beside.step_start {below : List Activation} (h : m.Beside view w below n)
    (hc : m.chain = ⟨f, w⟩ :: below) (hs : n.control = .start none) {offset : Nat}
    (ho : f.resumeOffset = .ok offset) : n.step host = n.goTo offset := by
  have hst := h.stacked
  rw [hc] at hst
  obtain ⟨g, v, hn, -, hg⟩ := hst.of_outermost
  rw [Frame.congr_sole Frame.resumeOffset (fun _ => rfl) hg] at ho
  unfold step start
  rw [hs, hn]
  dsimp only
  rw [ho]

theorem Beside.step_start_raising {below : List Activation} {x : Raised}
    (h : m.Beside view w below n) (hc : m.chain = ⟨f, w⟩ :: below)
    (hs : n.control = .start (some x)) {offset : Nat} (ho : f.resumeOffset = .ok offset) :
    n.step host = n.raise host x (f.lastOffset.getD 0) := by
  have hst := h.stacked
  rw [hc] at hst
  obtain ⟨g, v, hn, -, hg⟩ := hst.of_outermost
  have hl : f.lastOffset = g.lastOffset := Frame.congr_sole (·.lastOffset) (fun _ => rfl) hg
  rw [Frame.congr_sole Frame.resumeOffset (fun _ => rfl) hg] at ho
  unfold step start
  rw [hs, hn, hl]
  dsimp only
  rw [ho]

/-- The caller is lost. -/
theorem deliver_lost (host : Host σ) (hc : m.chain = ⟨f, w⟩ :: rest)
    (ha : Session.afterCallee f o = .error e) (i : Instruction) (g : Frame) :
    m.deliver host (.call i) g (o.map .returned) = m.fail e ∧ ∀ x, e ≠ .raised x := by
  unfold Session.afterCallee at ha
  match o with
  | .ok v =>
    show m.resumeWith v i = _ ∧ _
    unfold resumeWith
    rw [hc]
    dsimp only at ha ⊢
    cases hp : f.stack.push v with
    | ok s =>
      rw [hp] at ha
      cases ha
    | error fault =>
      rw [hp] at ha
      cases ha
      exact ⟨rfl, fun x hx => by cases hx⟩
  | .error (.raised x) => cases ha
  | .error (.fatal x) =>
    cases ha
    exact ⟨rfl, fun x hx => by cases hx⟩
  | .error (.uncatchable x) =>
    cases ha
    exact ⟨rfl, fun x hx => by cases hx⟩

/-- The caller goes on. -/
theorem deliver_resumed (hh : host.Unplaced view) (hc : m.chain = ⟨f, w⟩ :: rest)
    (hf : f.AtCall i) (hm : m.Agrees view c) (hroom : c.budget.checkDepth 0 = .ok ()) {k : Frame}
    (ha : Session.afterCallee f o = .ok (k, raising)) :
    Atop view w rest (m.deliver host (.call i) g (o.map .returned))
      ((Session.machine host c k none raising).step host) := by
  unfold Session.afterCallee at ha
  match o with
  | .ok v =>
    -- the value is pushed on both sides, and then the frame alone starts where it is
    show Atop view w rest (m.resumeWith v i) _
    unfold resumeWith
    rw [hc]
    dsimp only at ha ⊢
    cases hp : f.stack.push v with
    | error fault =>
      rw [hp] at ha
      cases ha
    | ok stack =>
      rw [hp] at ha
      cases ha
      have hm' : (m.setFrame { f with stack }).Agrees view c := by
        refine ⟨?_, ?_, ?_⟩
        · rw [heap_setFrame, hm.heap]
        · rw [budget_setFrame, hm.budget]
        · rw [state_setFrame, hm.state]
      have hb := beside_machine hh (setFrame_chain hc _) hm' hroom none
      rw [hb.step_start (setFrame_chain hc _) (control_machine hroom) hf.resumeOffset]
      exact { hb with control := rfl }
  | .error (.raised x) =>
    -- the exception is raised in the frame alone when it starts
    cases ha
    have hb := beside_machine hh hc hm hroom (some x)
    rw [hb.step_start_raising hc (control_machine hroom) hf.resumeOffset, hf.last]
    exact hb.leads hh (leads_raise m x _) (leads_raise _ x _) (Frame.unlinked_raising x _)
  | .error (.fatal x) => cases ha
  | .error (.uncatchable x) => cases ha

/-! ### The two ways to go on -/

theorem tracker_run (m : Machine σ) : (run host k m).budget.tracker = m.budget.tracker := by
  induction k with
  | zero => rfl
  | succ k ih => rw [run_succ, (tracker_step host _).1, ih]

/-- Whoever waits below the frame that a caller becomes again has waited all along. -/
theorem Awaits.deliver {d d' : Frame} {v : Entry} {waiting below : List Activation}
    (h : m.Awaits host (⟨d, v⟩ :: waiting) k) (hc : (run host (k + 1) m).chain = ⟨d', v⟩ :: waiting)
    (hb : ∃ a above, (run host (k + 1) m).chain = a :: (above ++ below)) :
    m.Awaits host below (k + 1) := by
  intro j hj
  rcases Nat.lt_or_ge j (k + 1) with hlt | hge
  · obtain ⟨a, above, ha⟩ := hb
    obtain ⟨-, rfl⟩ := List.cons.inj (hc.symm.trans ha)
    obtain ⟨a', above', ha'⟩ := h j (Nat.le_of_lt_succ hlt)
    exact ⟨a', above' ++ ⟨d, v⟩ :: above, by rw [ha']; simp⟩
  · obtain rfl : j = k + 1 := Nat.le_antisymm hj hge
    exact hb

/-- A frame that never leaves comes to nothing, on the chain and alone. -/
theorem forever {below : List Activation} {result : Except Failure FrameExit} {seen : Context σ}
    {callers : List Frame}
    (h : ∀ k, (∃ f s, (run host k m).Holds below w f s) ∧
      Atop view w below (run host k m) (run host k n)) :
    (∃ c, m.Halts host result c ∧ c.Agrees view seen) ↔
      ∃ c, Session.Concludes host n callers result c ∧ c.Agrees view seen := by
  constructor
  · rintro ⟨c, ⟨fuel, g, ho, -⟩, -⟩
    obtain ⟨⟨f, s, hf⟩, -⟩ := h fuel
    rw [outcome?_of_not_halted hf.not_halted] at ho
    cases ho
  · rintro ⟨c, ⟨fuel, g, r, ho, -⟩, -⟩
    obtain ⟨⟨f, s, hf⟩, ha⟩ := h fuel
    have hn : (run host fuel n).isHalted = false := by
      rw [← hf.not_halted]
      unfold isHalted
      rw [ha.control]
    rw [outcome?_of_not_halted hn] at ho
    cases ho

variable {below : List Activation} {r result : Except Failure FrameExit} {seen : Context σ}

theorem Atop.agrees (h : m.Atop view w below n) : m.Agrees view n.toContext :=
  ⟨h.heap, h.budget, h.state⟩

namespace Parting

variable {v : Entry} {d d' : Frame}

/-- What the frame that has left came to is up to its callers. -/
theorem concludes (hh : host.Unplaced view) (hp : Parting host view w below m n k f g r)
    {callers : List Frame} :
    Session.Concludes host n callers result c ↔
      ∃ fuel, Session.passOn host fuel callers r (run host (k + 1) n).toContext =
        some (result, c) := by
  have ho := (step_outside hh hp.alone).1
  rw [← run_succ] at ho
  exact Session.concludes_of_outcome? ho

/-- The caller on the chain is given what the frame came to. -/
theorem delivers (hh : host.Unplaced view)
    (hp : Parting host view w (⟨d, v⟩ :: rest) m n k f g r) (hw : w.waiting = .call i) :
    ∃ q : Machine σ, run host (k + 1) m = q.deliver host (.call i) (f.released r) r ∧
      q.chain = ⟨d, v⟩ :: rest ∧ q.budget.tracker = m.budget.tracker ∧
      q.Agrees view (run host (k + 1) n).toContext := by
  obtain ⟨-, hc⟩ := step_outside hh hp.alone
  rw [run_succ, run_succ, ← hw]
  exact ⟨_, step_of_leaving host hp.stands, rfl, tracker_run m,
    ((popped_agrees hh _ w _ r).trans hp.atop.agrees).trans hc.symm⟩

/-- A caller that is lost ends the chain. -/
theorem lost (hh : host.Unplaced view)
    (hp : Parting host view w (⟨d, d.entry (waitingFor callers)⟩ :: waiters callers) m n k f g
      (o.map .returned))
    (hw : w.waiting = .call i) (ha : Session.afterCallee d o = .error e) :
    ∃ c, m.Halts host (.error e) c ∧ c.Agrees view (run host (k + 1) n).toContext := by
  obtain ⟨q, hq, hqc, -, hqa⟩ := hp.delivers hh hw
  obtain ⟨hd, he⟩ := deliver_lost host hqc ha i (f.released (o.map .returned))
  rw [hd] at hq
  have hst : (run host (k + 1) m).Stands (waiters callers) (d.entry (waitingFor callers))
      (d.failing e) := by
    rw [hq]
    exact fail_stands hqc e
  obtain ⟨c, hc, hca⟩ := halts_of_failing hh he rfl hst
  rw [hq, toContext_fail] at hca
  exact ⟨c, halts_run.1 hc, hca.trans hqa⟩

/-- A caller that goes on does so on the chain and alone. -/
theorem resumes (hh : host.Unplaced view)
    (hp : Parting host view w (⟨d, v⟩ :: rest) m n k f g (o.map .returned))
    (hw : w.waiting = .call i) (hd : d.AtCall i)
    (hroom : ∀ n, m.budget.tracker.checkDepth n 0 = .ok ())
    (ha : Session.afterCallee d o = .ok (d', raising)) :
    (run host (k + 1) n).budget.checkDepth 0 = .ok () ∧
      (∃ p, (run host (k + 1) m).Stands rest v p) ∧
      Atop view v rest (run host (k + 1) m)
        ((Session.machine host (run host (k + 1) n).toContext d' none raising).step host) := by
  obtain ⟨q, hq, hqc, htracker, hqa⟩ := hp.delivers hh hw
  have hroom' : (run host (k + 1) n).budget.checkDepth 0 = .ok () := by
    rw [← hqa.budget]
    unfold Budget.checkDepth
    rw [htracker]
    exact hroom _
  rw [hq]
  exact ⟨hroom', ⟨_, deliver_stands host hqc rfl _ _⟩, deliver_resumed hh hqc hd hqa hroom' ha⟩

end Parting

/-- A chain that ends when the frame has left comes to the same in both ways. -/
theorem ended {callers : List Frame} {c' : Context σ} (hm : m.Halts host r c)
    (hn : ∀ x, Session.Concludes host n callers result x ↔ result = r ∧ x = c')
    (hc : c.Agrees view c') :
    (∃ c, m.Halts host result c ∧ c.Agrees view seen) ↔
      ∃ c, Session.Concludes host n callers result c ∧ c.Agrees view seen := by
  simp only [hm.unique, hn]
  constructor
  · rintro ⟨_, ⟨rfl, rfl⟩, hs⟩
    exact ⟨c', ⟨rfl, rfl⟩, hc.congr.1 hs⟩
  · rintro ⟨_, ⟨rfl, rfl⟩, hs⟩
    exact ⟨c, ⟨rfl, rfl⟩, hc.congr.2 hs⟩

/-- **Frames above their callers come to what they come to one after the other.** -/
theorem halts_iff_concludes (hh : host.Unplaced view) :
    ∀ {callers : List (Frame × Instruction)} {m n : Machine σ} {f : Frame} {w : Entry}
        {s : Standing},
      (∀ caller ∈ callers, caller.1.AtCall caller.2) →
      (∀ n, m.budget.tracker.checkDepth n 0 = .ok ()) → m.Undisturbed host →
      w.waiting = waitingFor callers → m.Holds (waiters callers) w f s →
      m.Atop view w (waiters callers) n →
      ((∃ c, m.Halts host result c ∧ c.Agrees view seen) ↔
        ∃ c, Session.Concludes host n (callers.map Prod.fst) result c ∧ c.Agrees view seen) := by
  intro callers
  induction callers with
  | nil =>
    intro m n f w s _ _ hu hw hf ha
    rcases ha.run hh hf hu.room (fun k => hu.handles k _) with hrun | ⟨k, f', g, r, hp⟩
    · exact forever hrun
    obtain ⟨ho, hc⟩ := step_outside hh ⟨w, hw, hp.stands⟩
    obtain ⟨-, hc'⟩ := step_outside hh hp.alone
    rw [← run_succ] at ho hc hc'
    have hm : m.Halts host r (run host (k + 1) m).toContext := ⟨k + 1, _, ho, rfl⟩
    refine ended hm (fun x => ?_) ((hc.trans hp.atop.agrees).trans hc'.symm)
    rw [hp.concludes hh]
    exact Session.passOn_nil
  | cons caller callers ih =>
    obtain ⟨d, i⟩ := caller
    intro m n f w s hcall hroom hu hw hf ha
    rcases ha.run hh hf hu.room (fun k => hu.handles k _) with hrun | ⟨k, f', g, r, hp⟩
    · exact forever hrun
    -- the frame has left with a value or a failure `o`, which its caller `d` waits for
    obtain ⟨o, rfl⟩ : ∃ o : Except Failure Value, r = o.map .returned := by
      match r with
      | .ok (.returned v) => exact ⟨.ok v, rfl⟩
      | .ok (.yielded v) =>
        exact absurd (Option.some.inj hp.stands.control).symm
          (hu.returns k f' w i _ v hp.awaits hp.stands.chain hw)
      | .error e => exact ⟨.error e, rfl⟩
    have hcallers {x : Context σ} : Session.Concludes host n (d :: callers.map Prod.fst) result x ↔
        ∃ fuel, Session.resumeCallers host fuel (d :: callers.map Prod.fst) o
          (run host (k + 1) n).toContext = some (result, x) := by
      simp only [hp.concludes hh, Session.passOn_returned]
    cases hac : Session.afterCallee d o with
    | error e =>
      obtain ⟨c, hc, hca⟩ := hp.lost hh hw hac
      refine ended hc (fun x => ?_) hca
      rw [List.map_cons, hcallers]
      simp only [Session.resumeCallers_cons_error hac, exists_const, Option.some.injEq,
        Prod.mk.injEq]
      exact and_congr eq_comm eq_comm
    | ok p =>
      obtain ⟨d', raising⟩ := p
      obtain ⟨hroom', ⟨p, hst⟩, hnext⟩ :=
        hp.resumes hh hw (hcall (d, i) List.mem_cons_self) hroom hac
      have hroom₁ : ∀ n, (run host (k + 1) m).budget.tracker.checkDepth n 0 = .ok () := by
        rw [tracker_run m]
        exact hroom
      -- whoever waits for the caller now has waited for the frame before
      have hu' : (run host (k + 1) m).Undisturbed host :=
        hu.run fun below hb => hp.awaits.deliver hst.chain hb
      have hrest := ih (fun caller hmem => hcall caller (List.mem_cons_of_mem _ hmem)) hroom₁ hu'
        rfl (.innermost hst) hnext
      have hn : (Session.machine host (run host (k + 1) n).toContext d' none
          raising).isHalted = false := by
        unfold isHalted
        rw [control_machine hroom']
      simp only [halts_run] at hrest
      rw [hrest]
      simp only [List.map_cons, hcallers, Session.passOn_iff hac, Session.concludes_step hn]

/-! ### Runs that are undisturbed -/

/-- The next step cannot need another frame, raise an exception again or hand on a yielded value. -/
def isPlain (host : Host σ) (m : Machine σ) : Bool :=
  (match m.decodes? host with
    | some (f, offset) =>
      match Instruction.decode f.code.body.bytecode offset with
      | .ok i => !i.opcode.mayEnter && i.opcode != .raiseVarargs
      | .error _ => true
    | none => true) &&
  match m.control with
  | .leave (.ok (.yielded _)) => false
  | _ => true

/-- A run of plain steps is undisturbed. -/
theorem undisturbed_of_isPlain (hm : ∀ k, (run host k m).isPlain host = true) :
    m.Undisturbed host := by
  have opcode {m : Machine σ} {f : Frame} {offset : Nat} {i : Instruction}
      (hm : m.isPlain host = true) (hd : m.decodes? host = some (f, offset))
      (hi : Instruction.decode f.code.body.bytecode offset = .ok i) :
      i.opcode.mayEnter = false ∧ i.opcode ≠ .raiseVarargs := by
    unfold isPlain at hm
    rw [hd] at hm
    dsimp only at hm
    rw [hi] at hm
    simp only [Bool.and_eq_true, Bool.not_eq_true', bne_iff_ne, ne_eq] at hm
    exact hm.1
  refine ⟨fun k => ?_, fun k below _ => ?_, fun k f w i below v _ _ _ hc => ?_⟩
  · rintro ⟨g, offset, i, hd, hi, henter, -⟩
    rw [(opcode (hm k) hd hi).1] at henter
    cases henter
  · rintro ⟨f, w, top, g, offset, i, -, hd, hi, hraise, -⟩
    exact (opcode (hm k) hd hi).2 hraise
  · have hk := hm k
    unfold isPlain at hk
    rw [hc] at hk
    simp at hk

/-- It is enough to look at a run until it halts. -/
theorem undisturbed_of_halted (hh : (run host k m).isHalted = true)
    (hm : (List.range k).all (fun j => (run host j m).isPlain host) = true) :
    m.Undisturbed host := by
  refine undisturbed_of_isPlain fun j => ?_
  rcases Nat.lt_or_ge j k with hlt | hge
  · exact List.all_eq_true.1 hm j (List.mem_range.2 hlt)
  · obtain ⟨d, rfl⟩ := Nat.exists_eq_add_of_le hge
    rw [run_add, run_of_halted hh]
    unfold isHalted at hh
    unfold isPlain decodes? lined?
    split at hh
    · rename_i hc
      rw [hc]
      rfl
    · cases hh

end Machine

namespace Session

/-- **Resuming a chain of frames, one after the other, is going on with the chain as it was**, as
long as nothing that happens depends on the callers being on the chain: the one comes to a result,
and to effects that are seen, exactly if the other does. -/
theorem resumeChain_iff_nested {host : Host σ} {view : σ → τ} {c seen : Context σ} {f : Frame}
    {callers : List (Frame × Instruction)} {result : Except Failure FrameExit}
    (hh : host.Unplaced view) (hcall : ∀ caller ∈ callers, caller.1.AtCall caller.2)
    (hroom : ∀ n, c.budget.tracker.checkDepth n 0 = .ok ())
    (hu : (Machine.nested c f callers).Undisturbed host) :
    (∃ fuel c', resumeChain host fuel (f :: callers.map Prod.fst) c = some (result, c') ∧
        c'.Agrees view seen) ↔
      ∃ c', (Machine.nested c f callers).Halts host result c' ∧ c'.Agrees view seen := by
  have hnow : c.budget.checkDepth 0 = .ok () := hroom _
  have hb : (Machine.nested c f callers).Beside view (f.entry (Machine.waitingFor callers))
      (Machine.waiters callers) (machine host c f none none) :=
    Machine.beside_machine hh rfl ⟨rfl, rfl, rfl⟩ hnow none
  have hf : (Machine.nested c f callers).Holds (Machine.waiters callers)
      (f.entry (Machine.waitingFor callers)) f (.starting none) :=
    .innermost ⟨rfl, rfl⟩
  rw [Machine.halts_iff_concludes hh hcall hroom hu rfl hf
    { hb with control := (Machine.control_machine hnow).symm }]
  simp only [concludes_iff_resumeChain]
  constructor
  · rintro ⟨fuel, c', h, ha⟩
    exact ⟨c', ⟨fuel, h⟩, ha⟩
  · rintro ⟨c', ⟨fuel, h⟩, ha⟩
    exact ⟨fuel, c', h, ha⟩

end Session

/-- The code of a function that returns a number. -/
def numberCode : CodeObject where
  identity := 1
  body :=
    { name := "number"
      flags := { optimized := true, newLocals := true }
      bytecode := [Opcode.nop.byte, Opcode.loadConst.byte, 0, 0, Opcode.returnValue.byte]
      consts := [.int 7]
      maxStack := 1
      firstLine := 1
      lineTable := [5, 1] }

/-- A frame of that function, stopped before its end. -/
def numberFrame : Frame where
  code := numberCode
  globals := ⟨0⟩
  builtins := Heap.defaultBuiltins
  locals := .fast []
  cells := []
  stack := .empty 1
  lastOffset := some 0
  trace := { line := 1 }

/-- The code of a caller, which returns what comes of a call. -/
def callerCode : CodeObject where
  identity := 2
  body :=
    { name := "caller"
      bytecode := [Opcode.callFunction.byte, 0, 0, Opcode.returnValue.byte]
      maxStack := 1
      firstLine := 1
      lineTable := [4, 1] }

/-- A frame of the caller that waits at its call. -/
def callerFrame : Frame where
  code := callerCode
  globals := ⟨0⟩
  builtins := Heap.defaultBuiltins
  locals := .dict ⟨0⟩
  cells := []
  stack := .empty 1
  lastOffset := some 0
  trace := { line := 1 }

/-- A chain of the two returns the number. -/
theorem callerFrame_resumes :
    ∃ fuel c, Session.resumeChain Host.silent fuel [numberFrame, callerFrame]
      Machine.idle.toContext = some (.ok (.returned (.int 7)), c) := by
  have hh : Host.silent.Unplaced (id : Unit → Unit) :=
    ⟨fun _ _ _ _ h => h, fun _ _ _ _ => rfl, fun _ _ _ _ _ _ _ => rfl,
      fun _ _ _ _ _ _ _ hf h => ⟨hf, rfl, h⟩⟩
  let i : Instruction := ⟨0, .callFunction, 0⟩
  have hcall : callerFrame.AtCall i := ⟨rfl, by cbv, rfl⟩
  let m := Machine.nested Machine.idle.toContext numberFrame [(callerFrame, i)]
  have hu : m.Undisturbed Host.silent :=
    Machine.undisturbed_of_halted (k := 7) (by cbv) (by cbv)
  obtain ⟨c, hc, -⟩ : ∃ c', m.Halts Host.silent (.ok (.returned (.int 7))) c' ∧
      c'.Agrees id c' := by
    have ho : (m.run Host.silent 7).outcome?.map Prod.snd = some (.ok (.returned (.int 7))) := by
      cbv
    obtain ⟨⟨g, r⟩, ho, rfl⟩ := Option.map_eq_some_iff.1 ho
    exact ⟨_, ⟨7, g, ho, rfl⟩, rfl, rfl, rfl⟩
  obtain ⟨fuel, c', h, -⟩ := (Session.resumeChain_iff_nested hh
    (by simpa using hcall) (fun _ => rfl) hu).2 ⟨c, hc, rfl, rfl, rfl⟩
  exact ⟨fuel, c', h⟩

/-- The condition on bare raises is needed: an exception that only a waiting caller handles is
raised again on the chain, but not by a frame that runs alone. -/
example :
    let reraising : Frame := { numberFrame with
      code := ⟨3,
        { name := "reraise"
          bytecode := [Opcode.nop.byte, Opcode.raiseVarargs.byte, 0, 0]
          firstLine := 1
          lineTable := [4, 1] }⟩ }
    let handling : Frame := { callerFrame with pending := some (Raised.new .valueError "x") }
    let c := Machine.idle.toContext
    let m := Machine.nested c reraising [(handling, ⟨0, .callFunction, 0⟩)]
    (m.run Host.silent 7).outcome?.map Prod.snd =
        some (.error (.raised ⟨⟨.valueError, some "x"⟩,
          [⟨"reraise", 1, 1⟩, ⟨"caller", 1, 0⟩]⟩)) ∧
      (Session.resumeChain Host.silent 7 [reraising, handling] c).map Prod.fst =
        some (.error (.raised ⟨⟨.runtimeError, some "No active exception to reraise"⟩,
          [⟨"reraise", 1, 1⟩, ⟨"caller", 1, 0⟩]⟩)) := by
  exact ⟨by cbv, by cbv⟩

end Resumable
