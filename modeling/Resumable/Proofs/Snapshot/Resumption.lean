import Resumable.Proofs.Machine.Depth
import Resumable.Proofs.Machine.Lockstep
import Resumable.Proofs.Snapshot.Suspension

/-!
# Resuming from a hook

When a hook is called, the frame has already recorded the offset of the instruction it is about to
execute.  A record that the hook makes of the frame says that this instruction was executed last, so
the frame restored from it goes on behind the instruction, and runs like the frame would if the
instruction were left out (`Frame.History.resume_capture`).
-/

namespace Resumable

variable {σ τ : Type}

namespace Machine

/-- The machine whose only frame is about to execute the instruction at an offset, once the hook has
looked at it. -/
def looked (host : Host σ) (m : Machine σ) (f : Frame) (o hook line : Nat) : Machine σ :=
  let g := f.reported o
  let seen := host.onLine hook line g m.heap (host.observe m.heap (.line g.name line) m.state)
  { m with
    budget := m.budget.dispatch.2
    state := seen.2.2
    chain := [⟨g, f.entry .outside⟩] }

/-- What a run that has ended came to: the frame but for its hook, how it stopped, and its effects,
as far as they are seen. -/
def verdict (view : σ → τ) (m : Machine σ) :
    Option (Frame × Except Failure FrameExit × Heap × Budget × τ) :=
  m.outcome?.map fun r => (r.1.bare, r.2, m.heap, m.budget, view m.state)

variable {host : Host σ} {view : σ → τ} {m n : Machine σ} {f : Frame} {o hook line : Nat}

theorem Alike.verdict (h : m.Alike view n) : m.verdict view = n.verdict view := by
  have parts (m : Machine σ) : m.verdict view = (m.outcome?.map fun r => (r.1.bare, r.2)).map
      fun r => (r.1, r.2, m.heap, m.budget, view m.state) := by
    unfold Machine.verdict
    cases m.outcome? <;> rfl
  rw [parts, parts, h.outcome?, h.heap, h.budget, h.state]

/-- The step in which the hook looks at the frame goes on to execute the instruction recorded. -/
theorem step_looked (hh : host.Onlooking view)
    (hs : m.Stands [] (f.entry .outside) (f, .before o))
    (hb : m.budget.dispatch.1 = .ok ()) (hf : f.trace.hook = some hook)
    (hl : f.lineAt? o = some line) {i : Instruction}
    (hd : Instruction.decode f.code.body.bytecode (f.recordedOffset o) = .ok i) :
    m.step host =
      (m.looked host f o hook line).perform host ⟨f.reported o, f.entry .outside⟩ i := by
  obtain ⟨⟨heap, budget, state⟩, chain, control⟩ := m
  obtain rfl := hs.chain
  obtain rfl := Option.some.inj hs.control
  have hhook : (f.reported o).trace.hook = some hook := by
    obtain ⟨trace, ht, hr⟩ := f.reported_spec o
    rw [hr]
    exact ht.trans hf
  have hbudget : budget.dispatch = (.ok (), budget.dispatch.2) := Prod.ext hb rfl
  unfold step dispatch
  dsimp only
  rw [hbudget]
  dsimp only
  rw [traceLine_eq]
  dsimp only
  rw [hl]
  dsimp only
  rw [hhook]
  dsimp only
  -- the hook changes neither the frame nor the heap
  rw [hh.frame, hh.heap]
  have hcode : (f.reported o).code = f.code := rfl
  have hlast : (f.reported o).lastOffset = some (f.recordedOffset o) := rfl
  rw [hcode, hlast, Option.getD_some, hd]
  rfl

/-- A frame that is admitted is put on an empty chain. -/
theorem machine_admitted (host : Host σ) {c : Context σ} (r : Frame)
    (hc : c.budget.checkDepth 0 = .ok ()) :
    (Session.machine host c r none none).heap = c.heap ∧
      (Session.machine host c r none none).budget = c.budget ∧
      (Session.machine host c r none none).Stands [] (r.entry .outside)
        ({ r with back := none }, .starting none) := by
  have ha : ({ c with chain := [], control := .start none } : Machine σ).budget.checkDepth
    ({ c with chain := [], control := .start none } : Machine σ).depth = .ok () := hc
  unfold Session.machine
  dsimp only
  unfold enter
  rw [ha]
  exact ⟨rfl, rfl, rfl, rfl⟩

/-- Starting a frame only finds out where it goes on. -/
theorem step_start (host : Host σ) {w : Entry} {offset : Nat}
    (hs : m.Stands [] w (f, .starting none)) (ho : f.resumeOffset = .ok offset) :
    m.step host = m.goTo offset := by
  rw [hs.step_starting host]
  unfold start
  rw [hs.chain]
  dsimp only
  rw [ho]

end Machine

namespace Frame

variable {c : CodeObject} {f f₀ r : Frame} {host : Host σ} {view : σ → τ} {m m₀ : Machine σ}
  {allowed : Value → Prop} {input : Option Value} {raising : Option Raised} {o hook line : Nat}

/-- A restored frame goes on behind the instruction that its record says was executed last. -/
theorem resumeOffset_restored {i : Instruction} (hfit : f.Fits True c)
    (hr : f.capture.restore = .ok r) {last : Nat} (hl : f.lastOffset = some last)
    (hd : Instruction.decode c.body.bytecode last = .ok i) : r.resumeOffset = .ok i.next := by
  have hrd : r = f.detached := by
    rw [← frame_capture hfit]
    exact (FrameRecord.restore_eq_ok_iff.1 hr).2
  have hlast : r.lastOffset = some last := by
    rw [hrd]
    exact hl
  have hcode : r.code = c := by
    rw [hrd]
    exact hfit.code
  exact resumeOffset_of_decode hlast (hcode ▸ hd)

/-- **Resuming from a hook.**  Take any run of a frame, and a line event of it at which a hook looks
at the frame and makes a record.  The run goes on with the instruction `i` that the frame has come
to.  But if the record is restored, the restored frame runs, among the same objects and with the
same budget, like the machine does that goes on *behind* `i`: it comes to the same frame and result
with the same effects, in as many steps. -/
theorem History.resume_capture (hf : History allowed True c f₀) (hh : host.Onlooking view)
    (h₀ : m₀.chain = []) (ht : m₀.budget.tracker.Steady)
    (hrun : Machine.Carries host m₀.chain (f₀.entry .outside) allowed
      (m₀.enter host f₀ input raising .outside) m f (.before o))
    (hb : m.budget.dispatch.1 = .ok ()) (hhook : f.trace.hook = some hook)
    (hline : f.lineAt? o = some line) (hr : (f.reported o).capture.restore = .ok r) :
    ∃ i, Instruction.decode c.body.bytecode (f.recordedOffset o) = .ok i ∧
      m.step host =
        (m.looked host f o hook line).perform host ⟨f.reported o, f.entry .outside⟩ i ∧
      ∀ ctx : Context σ, ctx.heap = m.heap → ctx.budget = m.budget.dispatch.2 →
        view (Session.machine host ctx r none none).state =
          view (m.looked host f o hook line).state →
        (∀ fuel, (Machine.run host fuel
          ((m.looked host f o hook line).goTo i.next)).Recordable) →
        ∀ fuel,
          Machine.Alike view (Machine.run host fuel ((m.looked host f o hook line).goTo i.next))
              (Machine.run host (fuel + 1) (Session.machine host ctx r none none)) ∧
            (Session.execute host (fuel + 1) r ctx).map (fun x =>
                (x.1.1.bare, x.1.2, x.2.heap, x.2.budget, view x.2.state)) =
              (Machine.run host fuel ((m.looked host f o hook line).goTo i.next)).verdict view := by
  have courteous : host.Courteous := fun hook line f h s => by
    rw [hh.frame]
    exact .refl
  have hfit : (f.reported o).Fits True c :=
    (hf.fits.carried (fun _ => courteous) hrun).reported o
  have hlast : (f.reported o).lastOffset = some (f.recordedOffset o) := rfl
  have hcode : f.code = c := hfit.code
  -- the frame has kept its code, and with it the name under which it was put on the chain
  have hname (g : Frame) (hg : g.code = c) : g.entry .outside = f₀.entry .outside :=
    congrArg (fun code : CodeObject => (⟨code.body.name, .outside⟩ : Entry))
      (hg.trans hf.fits.code.symm)
  have hstands : m.Stands [] (f.entry .outside) (f, .before o) := by
    rw [h₀] at hrun
    rw [hname f hcode]
    exact hrun.held.1.stands rfl
  obtain ⟨hrestorable, hrd⟩ := FrameRecord.restore_eq_ok_iff.1 hr
  -- the offset recorded is one at which an instruction starts, or the record would be refused
  obtain ⟨i, -, hd⟩ :=
    CodeOf.decode_of_isBoundary (isBoundary_of_restorable hfit hrestorable hlast)
  refine ⟨i, hd, Machine.step_looked hh hstands hb hhook hline (by rw [hcode]; exact hd), ?_⟩
  intro ctx hheap hbudget hstate hrec fuel
  have hadm : ctx.budget.checkDepth 0 = .ok () := by
    have h := hrun.admitted ht
    unfold Machine.depth at h
    rw [h₀] at h
    have hsteady : m.budget.tracker.Steady := by
      rw [hrun.tracker, Machine.budget_enter]
      exact ht
    rw [hbudget]
    exact hsteady (Nat.le_refl _) h
  obtain ⟨hheap', hbudget', hentered⟩ := Machine.machine_admitted host r hadm
  have hresume : r.resumeOffset = .ok i.next := resumeOffset_restored hfit hr hlast hd
  have hstep := Machine.step_start host hentered hresume
  have halike : Machine.Alike view ((m.looked host f o hook line).goTo i.next)
      ((Session.machine host ctx r none none).step host) := by
    rw [hstep]
    refine ⟨(hheap'.trans hheap).symm, (hbudget'.trans hbudget).symm, hstate.symm, ?_, .refl _⟩
    show List.Forall₂ _ [_] (Session.machine host ctx r none none).chain
    rw [hentered.chain, hrd, frame_capture hfit]
    rw [hname f hcode, hname (f.reported o).detached hcode]
    exact .cons (.outside rfl rfl) .nil
  have hrun' : Machine.run host (fuel + 1) (Session.machine host ctx r none none) =
      Machine.run host fuel ((Session.machine host ctx r none none).step host) := by
    rw [Machine.run, hentered.not_halted]
    rfl
  have hlock := halike.run hh hrec fuel
  rw [← hrun'] at hlock
  refine ⟨hlock, ?_⟩
  rw [hlock.verdict]
  unfold Session.execute Session.runFrame Machine.verdict
  dsimp only
  rw [Option.map_map]
  rfl

end Frame

/-! ### A value that is not loaded -/

/-- A body that returns one. -/
def returnOne : CodeObject where
  identity := 1
  body :=
    { name := "one"
      bytecode := [Opcode.loadConst.byte, 0, 0, Opcode.returnValue.byte]
      consts := [.int 1]
      maxStack := 1
      firstLine := 1 }

/-- A frame about to run the body, with a hook. -/
def hookedFrame : Frame where
  code := returnOne
  globals := ⟨0⟩
  builtins := Heap.defaultBuiltins
  locals := .dict ⟨0⟩
  cells := []
  stack := .empty 1
  trace := { line := 1, hook := some 0 }

theorem hookedFrame_history : Frame.History (fun _ => True) True returnOne hookedFrame := by
  have hc : Frame.create returnOne ⟨0⟩ Heap.defaultBuiltins [] .initial =
    .ok ({ hookedFrame with trace := { line := 1 } }, .initial) := rfl
  exact .traced trivial (.created (by decide) hc) (some 0)

theorem hookedFrame_restore :
    (hookedFrame.reported 0).capture.restore = .ok (hookedFrame.reported 0).detached := by
  have hfit := hookedFrame_history.fits.reported 0
  rw [← Frame.frame_capture hfit]
  refine FrameRecord.restore_frame ((Frame.restorable_capture_iff hfit .nil nofun).2 ⟨?_, nofun⟩)
  intro o ho
  cases ho
  decide +kernel

/-- The machine that is about to execute the first instruction of the frame. -/
def Machine.hooked : Machine Unit := .running hookedFrame (.dispatch 0) 0

theorem Host.silent_onlooking : Host.silent.Onlooking (id : Unit → Unit) :=
  ⟨fun _ _ _ _ h => h, fun _ _ _ _ _ => rfl, fun _ _ _ _ _ => rfl, fun _ _ _ _ _ => rfl⟩

/-- What there is besides the frame when its hook is called. -/
def Machine.surroundings : Context Unit :=
  (Machine.hooked.looked Host.silent hookedFrame 0 0 1).toContext

/-- The hook is called before one is loaded.  The run returns one, but the frame restored from the
record finds nothing to return. -/
theorem hookedFrame_resumed :
    (Machine.run Host.silent 4 .hooked).outcome?.map (·.2) = some (.ok (.returned (.int 1))) ∧
      ∃ r, (hookedFrame.reported 0).capture.restore = .ok r ∧
        (Session.execute Host.silent 4 r Machine.surroundings).map (·.1.2) =
          some (.error (.fatal .stackUnderflow)) := by
  have entered : Machine.Carries Host.silent [] (hookedFrame.entry .outside) (fun _ => True)
      (Machine.idle.enter Host.silent hookedFrame none none .outside)
      (.running hookedFrame (.start none) 0) hookedFrame (.starting none) :=
    .entered (.innermost ⟨rfl, rfl⟩) fun _ _ => trivial
  have started : Machine.Carries Host.silent Machine.idle.chain (hookedFrame.entry .outside)
      (fun _ => True) (Machine.idle.enter Host.silent hookedFrame none none .outside)
      .hooked hookedFrame (.before 0) := entered.running _ _ rfl rfl (fun _ _ => trivial) rfl
  -- behind the load nothing is on the stack, so the return fails and the machine halts
  have recordable (fuel : Nat) : (Machine.run Host.silent fuel
      ((Machine.hooked.looked Host.silent hookedFrame 0 0 1).goTo 3)).Recordable := by
    match fuel with
    | 0 =>
      intro f w rest o hf _ ho
      cases ho
      exact if_pos (.inl (by decide))
    | 1 =>
      intro f w rest o _ _ ho
      cases ho
    | fuel + 2 =>
      intro f w rest o _ _ ho
      cases fuel <;> cases ho
  obtain ⟨i, hd, -, hlock⟩ := Frame.History.resume_capture hookedFrame_history
    Host.silent_onlooking rfl Tracker.steady_unlimited started rfl rfl rfl hookedFrame_restore
  obtain rfl : i = ⟨0, .loadConst, 0⟩ := (Except.ok.inj hd).symm
  refine ⟨rfl, _, hookedFrame_restore, ?_⟩
  obtain ⟨-, he⟩ := hlock Machine.surroundings rfl rfl rfl recordable 3
  have hresult := congrArg (Option.map (·.2.1)) he
  rw [Option.map_map] at hresult
  exact hresult

end Resumable
