import Resumable.Proofs.Machine.Bracketing
import Resumable.Proofs.Machine.Metering

/-!
# Runs that differ in their budget

A machine asks its budget before each dispatch and before each frame it puts on the chain, and
nothing else depends on it.  So two machines that differ in a budget and are refused the same frames
(`Machine.funded`) make the same move, unless a dispatch is refused (`Machine.funded_step`), and
their runs are the same until then (`Machine.funded_run`).

Whatever a host does to its state that keeps to a preorder, a whole run keeps to it
(`Machine.run_along`); in particular, what has been recorded stays recorded.

A frame that is run with a budget of `n` instructions is thus run as it is without one, but for an
end that may come too early (`Session.runs_allowed`), and that does not if `n` is large enough
(`Session.never_exhausted`).
-/

namespace Resumable

variable {σ : Type}

/-- No more frames than usual may be on a chain, at any time. -/
def Tracker.Usual (t : Tracker) : Prop :=
  ∀ n depth, t.checkDepth n depth = depthWithin defaultMaxDepth depth

/-- A tracker that limits frames only admits every instruction, and the usual number of frames. -/
theorem Budget.dispatch_unlimited {b : Budget} (h : b.tracker = .unlimited) :
    b.dispatch.1 = .ok () ∧
      ∀ depth, b.dispatch.2.checkDepth depth = Tracker.depthWithin defaultMaxDepth depth := by
  obtain ⟨tracker, asked⟩ := b
  subst h
  exact ⟨rfl, fun _ => rfl⟩

theorem Tracker.usual_limited (n : Nat) : (limited { instructions := some n }).Usual :=
  fun _ _ => rfl

namespace Machine

variable (host : Host σ) (m : Machine σ) (b : Budget)

/-- The machine with another budget. -/
def funded : Machine σ := { m with budget := b }

theorem chain_funded : (m.funded b).chain = m.chain := rfl

theorem funded_setFrame (f : Frame) : (m.funded b).setFrame f = (m.setFrame f).funded b := by
  unfold setFrame funded
  dsimp only
  split <;> rfl

theorem funded_fail (e : Failure) : (m.funded b).fail e = (m.fail e).funded b := by
  unfold fail
  rw [chain_funded]
  cases m.chain with
  | nil => rfl
  | cons a rest =>
    dsimp only
    rw [funded_setFrame]
    rfl

theorem funded_raise (e : Raised) (offset : Nat) :
    (m.funded b).raise host e offset = (m.raise host e offset).funded b := by
  unfold raise
  rw [chain_funded]
  cases m.chain with
  | nil => rfl
  | cons a rest =>
    dsimp only
    split
    · exact congrArg (goTo · _) (funded_setFrame (m.report host _) b _)
    · rw [← funded_fail, ← funded_setFrame]
      rfl
    · rw [← funded_fail, ← funded_setFrame]
      rfl

theorem funded_failAt (offset : Nat) (e : Failure) :
    (m.funded b).failAt host offset e = (m.failAt host offset e).funded b := by
  cases e with
  | raised e => exact funded_raise host m b e offset
  | fatal e => exact funded_fail m b _
  | uncatchable e => exact funded_fail m b _

theorem funded_resumeWith (v : Value) (site : Instruction) :
    (m.funded b).resumeWith v site = (m.resumeWith v site).funded b := by
  unfold resumeWith
  rw [chain_funded]
  cases m.chain with
  | nil => rfl
  | cons a rest =>
    dsimp only
    split
    · exact congrArg (goTo · _) (funded_setFrame m b _)
    · exact funded_fail m b _

theorem funded_exhaust (site : Instruction) :
    (m.funded b).exhaust site = (m.exhaust site).funded b := by
  unfold exhaust
  rw [chain_funded]
  cases m.chain with
  | nil => rfl
  | cons a rest =>
    dsimp only
    split
    · exact congrArg (goTo · _) (funded_setFrame m b _)
    · exact funded_fail m b _

theorem funded_failLoop (site : Instruction) (e : Failure) :
    (m.funded b).failLoop host site e = (m.failLoop host site e).funded b := by
  unfold failLoop
  split
  · exact funded_exhaust m b site
  · exact funded_failAt host m b site.offset e

theorem funded_deliver (w : Waiting) (f : Frame) (result : Except Failure FrameExit) :
    (m.funded b).deliver host w f result = (m.deliver host w f result).funded b := by
  unfold deliver
  cases w with
  | outside => rfl
  | call site =>
    match result with
    | .ok (.returned v) => exact funded_resumeWith m b v site
    | .ok (.yielded v) => exact funded_failAt host m b site.offset (.fatal _)
    | .error e => exact funded_failAt host m b site.offset e
  | loop r site =>
    match result with
    | .ok (.returned v) => exact funded_exhaust { m with heap := m.heap.settle r f _ } b site
    | .ok (.yielded v) => exact funded_resumeWith { m with heap := m.heap.settle r f _ } b v site
    | .error e => exact funded_failLoop host { m with heap := m.heap.settle r f _ } b site e

theorem funded_start (raising : Option Raised) :
    (m.funded b).start host raising = (m.start host raising).funded b := by
  unfold start
  rw [chain_funded]
  split
  · rfl
  · split
    · rfl
    · split
      · rfl
      · exact funded_raise host m b _ _

theorem funded_leave (result : Except Failure FrameExit) :
    (m.funded b).leave host result = (m.leave host result).funded b := by
  cases hc : m.chain with
  | nil =>
    unfold leave
    rw [chain_funded, hc]
  | cons a rest =>
    rw [leave_eq (f := a.frame) (w := a.entry) m hc,
      leave_eq (f := a.frame) (w := a.entry) (m.funded b) hc]
    exact funded_deliver host (m.popped host a.entry rest result) b _ _ result

theorem funded_traceLine (a : Activation) (o : Nat) : (m.funded b).traceLine host a o =
    ((m.traceLine host a o).1.funded b, (m.traceLine host a o).2) := by
  rw [traceLine_eq, traceLine_eq]
  dsimp only
  split
  · rfl
  · split <;> rfl

/-- A dispatch that is admitted follows the line, and executes what it leads to. -/
theorem dispatch_admitted {b' : Budget} {a : Activation} {rest : List Activation} {o : Nat}
    (hc : m.chain = a :: rest) (hb : m.budget.dispatch = (.ok (), b')) :
    m.dispatch host o =
      let t := (m.funded b').traceLine host a o
      match Instruction.decode t.2.1.code.body.bytecode t.2.2 with
      | .error e => (t.1.setFrame t.2.1).fail (.fatal e)
      | .ok i => (t.1.setFrame t.2.1).perform host { a with frame := t.2.1 } i := by
  obtain ⟨⟨heap, budget, state⟩, chain, control⟩ := m
  subst hc
  unfold dispatch
  dsimp only at hb ⊢
  rw [hb]
  rfl

/-! ### Budgets that admit the same frames -/

section

variable {host m b} (hd : ∀ depth, b.checkDepth depth = m.budget.checkDepth depth)

include hd

theorem funded_enter (f : Frame) (input : Option Value) (raising : Option Raised) (w : Waiting) :
    (m.funded b).enter host f input raising w = (m.enter host f input raising w).funded b := by
  have hc : (m.funded b).budget.checkDepth (m.funded b).depth = m.budget.checkDepth m.depth :=
    hd m.depth
  unfold enter
  rw [hc]
  dsimp only
  split
  · exact funded_deliver host m b w f _
  · rfl

theorem funded_follow (i : Instruction) (flow : Flow) :
    (m.funded b).follow host i flow = (m.follow host i flow).funded b := by
  cases flow with
  | next => rfl
  | jump target => rfl
  | exit result =>
    cases result with
    | returned v =>
      unfold follow
      rw [chain_funded]
      cases m.chain with
      | nil => rfl
      | cons a rest =>
        dsimp only
        rw [funded_setFrame]
        rfl
    | yielded v => rfl
  | reraise e => exact funded_fail m b _
  | invoke callee => exact funded_enter hd callee none none (.call i)
  | advance r =>
    unfold follow
    have ht : (m.funded b).heap.takeFrame r false = m.heap.takeFrame r false := rfl
    dsimp only
    rw [ht]
    cases m.heap.takeFrame r false with
    | error e => exact funded_failLoop host m b i e
    | ok t =>
      exact funded_enter (m := { m with heap := t.2 }) hd t.1 (t.1.input none) none (.loop r i)

theorem funded_perform (a : Activation) (i : Instruction) :
    (m.funded b).perform host a i = (m.perform host a i).funded b := by
  obtain ⟨f, w⟩ := a
  have executed (l : Local) : (((m.funded b).announced host f i).executed l) =
      ((m.announced host f i).executed l).funded b :=
    funded_setFrame { m.announced host f i with heap := l.heap } b l.frame
  cases hx : (Exec.execute m.currentException i).run ⟨f, m.heap⟩ with
  | ok flow l =>
    rw [perform_of_ok m w hx, perform_of_ok (m.funded b) w hx, executed]
    have hb : ((m.announced host f i).executed l).budget = m.budget := budget_setFrame _ _
    exact funded_follow (by rw [hb]; exact hd) i flow
  | error e l =>
    rw [perform_of_error m w hx, perform_of_error (m.funded b) w hx, executed]
    exact funded_failAt host _ b i.offset e

end

/-- A dispatch that both budgets admit. -/
theorem funded_dispatch {host : Host σ} {m : Machine σ} {b b' b'' : Budget} {a : Activation}
    {rest : List Activation} {o : Nat} (hc : m.chain = a :: rest)
    (hm : m.budget.dispatch = (.ok (), b'')) (hb : b.dispatch = (.ok (), b'))
    (hd : ∀ depth, b'.checkDepth depth = b''.checkDepth depth) :
    (m.funded b).dispatch host o = (m.dispatch host o).funded b' := by
  have hbudget : ((m.funded b'').traceLine host a o).1.budget = b'' := by
    obtain ⟨heap, state, g, o', -, ht⟩ := traceLine_lined host (m.funded b'') a o
    rw [ht]
    rfl
  have ht : ((m.funded b).funded b').traceLine host a o = _ :=
    funded_traceLine host (m.funded b'') b' a o
  rw [dispatch_admitted host m hc hm, dispatch_admitted host (m.funded b) hc hb, ht]
  dsimp only
  rw [funded_setFrame]
  split
  · exact funded_fail _ b' _
  · refine funded_perform (fun depth => ?_) _ _
    rw [budget_setFrame, hbudget]
    exact hd depth

/-! ### Two runs side by side

Here the first tracker limits frames only, to the usual number, and the second one instructions
too. -/

variable {host m b}

/-- The budget refuses the instruction that is about to be dispatched. -/
def Exhausted (m : Machine σ) : Prop :=
  ∃ o e, m.control = .dispatch o ∧ m.budget.dispatch.1 = .error e

theorem dispatch_of_not_exhausted {o : Nat} (hr : ¬m.Exhausted) (ho : m.control = .dispatch o) :
    m.budget.dispatch = (.ok (), m.budget.dispatch.2) := by
  cases hb : m.budget.dispatch with
  | mk admitted b =>
    cases admitted with
    | ok u => rfl
    | error e => exact absurd ⟨o, e, ho, congrArg Prod.fst hb⟩ hr

/-- What the other budget does not refuse is executed under both. -/
theorem isSome_decodes?_funded (hm : m.budget.tracker = .unlimited)
    (hr : ¬(m.funded b).Exhausted) :
    ((m.funded b).decodes? host).isSome = (m.decodes? host).isSome := by
  rw [Bool.eq_iff_iff, isSome_decodes?_iff, isSome_decodes?_iff]
  refine and_congr_right fun ⟨o, ho⟩ => and_congr_right fun _ => ?_
  rw [dispatch_of_not_exhausted hr ho, (Budget.dispatch_unlimited hm).1]

/-- A move that the other budget does not refuse is the same move. -/
theorem funded_step (hm : m.budget.tracker = .unlimited) (hd : b.tracker.Usual)
    (hr : ¬(m.funded b).Exhausted) :
    ∃ b' : Budget, b'.tracker.Usual ∧ (m.funded b).step host = (m.step host).funded b' ∧
      (m.step host).budget.tracker = .unlimited := by
  have hm' : (m.step host).budget.tracker = .unlimited := (tracker_step host m).1.trans hm
  suffices h : ∃ b' : Budget, b'.tracker.Usual ∧
      (m.funded b).step host = (m.step host).funded b' from
    h.imp fun _ h => ⟨h.1, h.2, hm'⟩
  have hcontrol : (m.funded b).control = m.control := rfl
  unfold step
  rw [hcontrol]
  cases hc : m.control with
  | start raising =>
    exact ⟨b, hd, funded_start host m b raising⟩
  | leave result => exact ⟨b, hd, funded_leave host m b result⟩
  | halted f result => exact ⟨b, hd, rfl⟩
  | dispatch o =>
    have hb : b.dispatch = (.ok (), b.dispatch.2) := dispatch_of_not_exhausted hr hc
    obtain ⟨hadmitted, hfree⟩ := Budget.dispatch_unlimited hm
    dsimp only
    cases hchain : m.chain with
    | nil =>
      have hnil (n : Machine σ) (hn : n.chain = []) : n.dispatch host o = n := by
        unfold dispatch
        rw [hn]
      rw [hnil m hchain, hnil (m.funded b) hchain]
      exact ⟨b, hd, rfl⟩
    | cons a rest =>
      exact ⟨b.dispatch.2, hd, funded_dispatch hchain (Prod.ext hadmitted rfl) hb fun depth =>
        (hd _ depth).trans (hfree depth).symm⟩

/-- **Runs that differ in their budget** do the same until a dispatch is refused. -/
theorem funded_run (hm : m.budget.tracker = .unlimited) (hd : b.tracker.Usual) {k : Nat}
    (hr : ∀ j < k, ¬(run host j (m.funded b)).Exhausted) :
    ∃ b' : Budget, b'.tracker.Usual ∧ run host k (m.funded b) = (run host k m).funded b' ∧
      (run host k m).budget.tracker = .unlimited ∧
      executions host (m.funded b) k = executions host m k := by
  induction k with
  | zero => exact ⟨b, hd, rfl, hm, rfl⟩
  | succ k ih =>
    obtain ⟨b', hd', hrun, hm', hcount⟩ := ih fun j hj => hr j (Nat.lt_succ_of_lt hj)
    have hk := hr k (Nat.lt_succ_self k)
    rw [hrun] at hk
    obtain ⟨b'', hd'', hstep, hm''⟩ := funded_step hm' hd' hk
    refine ⟨b'', hd'', ?_, ?_, ?_⟩
    · rw [run_succ, run_succ, hrun, hstep]
    · rw [run_succ]
      exact hm''
    · rw [executions_succ, executions_succ, hcount, hrun, isSome_decodes?_funded hm' hk]

end Machine

/-! ### What is recorded stays recorded -/

/-- Whatever the host does keeps to a preorder of its states. -/
structure Host.Along (host : Host σ) (R : σ → σ → Prop) : Prop where
  refl : ∀ s, R s s
  trans : ∀ {s s' s''}, R s s' → R s' s'' → R s s''
  observe : ∀ h e s, R s (host.observe h e s)
  onLine : ∀ hook line f h s, R s (host.onLine hook line f h s).2.2

theorem Host.recorded_along (host : Host σ) : host.recorded.Along fun s s' => s.2 <+: s'.2 where
  refl _ := List.prefix_rfl
  trans := List.IsPrefix.trans
  observe _ e s := List.prefix_append s.2 [e]
  onLine _ _ _ _ _ := List.prefix_rfl

namespace Machine

section

variable {host : Host σ} {R : σ → σ → Prop} (hR : host.Along R) {m m' : Machine σ} {f : Frame}
  {w : Entry} {rest : List Activation}

include hR

theorem told_along (h : Heap) (es : List Event) (s : σ) : R s (host.told h es s) := by
  induction es generalizing s with
  | nil => exact hR.refl s
  | cons e es ih => exact hR.trans (hR.observe h e s) (ih _)

theorem Ongoing.along (ho : m.Ongoing host m') (hc : m.chain = ⟨f, w⟩ :: rest) :
    R m.state m'.state := by
  obtain ⟨es, hs, -⟩ := ho.told f w rest hc
  rw [hs]
  exact told_along hR _ es _

theorem deliver_along (hc : m.chain = ⟨f, w⟩ :: rest) (v : Waiting) (g : Frame)
    (result : Except Failure FrameExit) : R m.state (m.deliver host v g result).state := by
  by_cases hv : v = .outside
  · subst hv
    exact hR.refl _
  · exact (ongoing_deliver m hv g result).along hR hc

theorem enter_along (hc : m.chain = ⟨f, w⟩ :: rest) (g : Frame) (input : Option Value)
    (raising : Option Raised) (v : Waiting) :
    R m.state (m.enter host g input raising v).state := by
  rcases enter_eq host m g input raising v with ⟨stack, -, -, he⟩ | ⟨e, he, -⟩
  · rw [he]
    exact told_along hR _ _ _
  · rw [he]
    exact deliver_along hR hc v g _

theorem perform_along (hc : m.chain = ⟨f, w⟩ :: rest) (i : Instruction) :
    R m.state (m.perform host ⟨f, w⟩ i).state := by
  have executed (l : Local) : ((m.announced host f i).executed l).chain = ⟨l.frame, w⟩ :: rest ∧
      R m.state ((m.announced host f i).executed l).state := by
    refine ⟨chain_executed host hc i l, ?_⟩
    unfold Machine.executed
    rw [state_setFrame]
    exact hR.observe _ _ _
  rcases perform_cases host m f w i with ⟨e, l, -, ho⟩ | ⟨flow, l, -, hp⟩
  · obtain ⟨hc', hs⟩ := executed l
    exact hR.trans hs (ho.along hR hc')
  · obtain ⟨hc', hs⟩ := executed l
    rw [hp]
    refine hR.trans hs ?_
    rcases follow_cases host _ i flow hc' with
      ho | ⟨v, -, he⟩ | ⟨callee, -, he⟩ | ⟨r, g, heap, -, -, he⟩
    · exact ho.along hR hc'
    · rw [he]
      exact hR.refl _
    · rw [he]
      exact enter_along hR hc' callee none none _
    · rw [he]
      exact enter_along hR (m := { (m.announced host f i).executed l with heap }) hc' g _ none _

theorem dispatch_along (hc : m.chain = ⟨f, w⟩ :: rest) (o : Nat) :
    R m.state (m.dispatch host o).state := by
  obtain ⟨budget, -, ⟨e, hd⟩ | ⟨heap, state, g, o', hl, hd⟩⟩ := dispatch_lined host m o hc
  · rw [hd, state_fail]
    exact hR.refl _
  · have hs : R m.state state := by
      cases hl with
      | silent => exact hR.refl _
      | told line => exact hR.observe _ _ _
      | hooked hook line _ hr =>
        subst hr
        exact hR.trans (hR.observe _ _ _) (hR.onLine _ _ _ _ _)
    rcases hd with ⟨e, hd⟩ | ⟨i, -, hd⟩
    · rw [hd, state_fail]
      exact hs
    · rw [hd]
      exact hR.trans hs
        (perform_along hR (m := { m with heap, budget, state, chain := ⟨g, w⟩ :: rest }) rfl i)

/-- **Every move** of a machine keeps to what its host keeps to. -/
theorem step_along (hn : Nested m.chain) : R m.state (m.step host).state := by
  obtain ⟨f, w, rest, hc⟩ := hn.eq_cons
  unfold step
  split
  · exact (ongoing_start m _).along hR hc
  · exact dispatch_along hR hc _
  · rename_i result _
    rw [leave_eq m hc]
    have hs : R m.state (m.popped host w rest result).state := told_along hR _ _ _
    rw [hc] at hn
    cases hn with
    | outermost _ hw =>
      rw [hw]
      exact hs
    | above _ hw hrest =>
      obtain ⟨g, v, rest', rfl⟩ := hrest.eq_cons
      exact hR.trans hs (deliver_along hR rfl _ _ result)
  · exact hR.refl _

theorem run_along (hn : ∀ k, (run host k m).isHalted = false → Nested (run host k m).chain)
    {j k : Nat} (hjk : j ≤ k) : R (run host j m).state (run host k m).state := by
  induction k, hjk using Nat.le_induction with
  | base => exact hR.refl _
  | succ k _ ih =>
    refine hR.trans ih ?_
    rw [run_succ]
    cases hh : (run host k m).isHalted with
    | true =>
      rw [step_of_halted hh]
      exact hR.refl _
    | false => exact step_along hR (hn k hh)

end

end Machine

namespace Session

variable {host : Host σ} {fuel k n : Nat} {f : Frame} {input : Option Value}
  {raising : Option Raised}

/-- The context without a limit on instructions. -/
def unlimited (c : Context σ) : Context σ := { c with budget := .unlimited }

/-- The context with a fresh budget of `n` instructions and the usual limit on frames. -/
def allowing (n : Nat) (c : Context σ) : Context σ :=
  { c with budget := .limited { instructions := some n } 0 }

/-- A machine that runs a frame under a budget is the one that runs it without, but for the
budget. -/
theorem machine_allowing (c : Context σ) :
    machine host (allowing n c) f input raising =
      (machine host (unlimited c) f input raising).funded
        (.limited { instructions := some n } 0) := by
  exact Machine.funded_enter (m := { unlimited c with chain := [], control := .start none })
    (b := .limited { instructions := some n } 0) (fun _ => rfl) f input raising .outside

theorem tracker_unlimited (c : Context σ) :
    (machine host (unlimited c) f input raising).budget.tracker = .unlimited :=
  congrArg Budget.tracker (budget_machine host (unlimited c) f input raising)

/-- A budget of as many instructions as are executed without a limit refuses none. -/
theorem never_exhausted {c : Context σ}
    (hk : ∀ k, Machine.executions host (machine host (unlimited c) f input raising) k ≤ n) :
    ¬(Machine.run host k (machine host (allowing n c) f input raising)).Exhausted := by
  induction k using Nat.strong_induction_on with
  | _ k ih =>
    rintro ⟨o, e, ho, he⟩
    obtain ⟨u, hu, -, hspent⟩ :=
      Machine.metered_run host (budget_machine host (allowing n c) f input raising) ⟨rfl, rfl⟩ k
    rw [machine_allowing] at ih ho
    obtain ⟨b, -, hrun, hfree, hcount⟩ := Machine.funded_run (tracker_unlimited c)
      (Tracker.usual_limited n) ih
    rw [hrun] at ho
    -- what is refused has been preceded by as many instructions as the budget has
    have hn : Machine.executions host (machine host (unlimited c) f input raising) k = n := by
      rw [← hcount, ← machine_allowing]
      rw [hu, Budget.dispatch_limited ⟨rfl, rfl⟩] at he
      dsimp only at he
      split at he
      · omega
      · cases he
    -- and without a limit, it is one more
    have hone : ((Machine.run host k (machine host (unlimited c) f input raising)).decodes?
        host).isSome = true := by
      have hh : (Machine.run host k (machine host (unlimited c) f input raising)).isHalted =
          false := by
        unfold Machine.isHalted
        rw [show (Machine.run host k (machine host (unlimited c) f input raising)).control =
          .dispatch o from ho]
      obtain ⟨g, w, rest, hc⟩ := (nested_run hh).eq_cons
      refine (Machine.isSome_decodes?_iff host).2
        ⟨⟨o, ho⟩, ?_, (Budget.dispatch_unlimited hfree).1⟩
      rw [hc]
      exact List.cons_ne_nil _ rest
    have hmore := hk (k + 1)
    rw [Machine.executions_succ, if_pos hone, hn] at hmore
    omega

/-- **A budget only cuts a run short.**  A frame is run with and without a budget of `n`
instructions.  Until a dispatch is refused, both runs go through machines that differ in the budget
alone, so that what was recorded until then is the beginning of all that is recorded without a
limit.  If no more than `n` instructions are executed without one, both runs end with the same
frame, the same value or failure and the same context: the same heap, and all that was recorded. -/
theorem runs_allowed (host : Host σ) (c : Context (σ × List Event)) (n : Nat) (f : Frame)
    (input : Option Value) (raising : Option Raised) :
    let free := machine host.recorded (unlimited c) f input raising
    let cut := machine host.recorded (allowing n c) f input raising
    (∀ k, (∀ j < k, ¬(Machine.run host.recorded j cut).Exhausted) →
      (∃ b, Machine.run host.recorded k cut = (Machine.run host.recorded k free).funded b) ∧
      ∀ k', k ≤ k' → (Machine.run host.recorded k cut).state.2 <+:
        (Machine.run host.recorded k' free).state.2) ∧
    ((∀ k, Machine.executions host.recorded free k ≤ n) → ∀ fuel, 4 * n + 3 ≤ fuel →
      ∃ p c' u, runFrame host.recorded fuel f input raising (unlimited c) =
          some (p, c') ∧
        runFrame host.recorded fuel f input raising (allowing n c) =
          some (p, { c' with budget := .limited { instructions := some n } u })) := by
  intro free cut
  -- until the budget is spent, the two runs differ in their budgets alone
  have agree {k : Nat} (hk : ∀ j < k, ¬(Machine.run host.recorded j cut).Exhausted) :
      ∃ b, Machine.run host.recorded k cut = (Machine.run host.recorded k free).funded b := by
    have hcut : cut = free.funded _ := machine_allowing c
    rw [hcut] at hk ⊢
    obtain ⟨b, -, hrun, -⟩ := Machine.funded_run (tracker_unlimited c) (Tracker.usual_limited n) hk
    exact ⟨b, hrun⟩
  refine ⟨fun k hk => ?_, fun hn fuel hf => ?_⟩
  · obtain ⟨b, hrun⟩ := agree hk
    refine ⟨⟨b, hrun⟩, fun k' hk' => ?_⟩
    rw [hrun]
    exact Machine.run_along host.recorded_along (fun _ => nested_run) hk'
  · -- the run with a budget halts, so that the other one has halted too
    obtain ⟨b, hrun⟩ := agree (k := fuel) fun j _ => never_exhausted hn
    obtain ⟨p, hp⟩ : ∃ p, (Machine.run host.recorded fuel cut).outcome? = some p :=
      halts_within (c := allowing n c) rfl ⟨rfl, rfl⟩ hf
    obtain ⟨u, hu, -⟩ := Machine.metered_run host.recorded
      (budget_machine _ (allowing n c) f input raising) ⟨rfl, rfl⟩ fuel
    rw [hrun] at hp hu
    have hb : b = .limited { instructions := some n } u := hu
    refine ⟨p, (Machine.run host.recorded fuel free).toContext, u, ?_, ?_⟩
    · show Option.map _ (Machine.run host.recorded fuel free).outcome? = _
      rw [show (Machine.run host.recorded fuel free).outcome? = some p from hp, Option.map_some]
    · show Option.map _ (Machine.run host.recorded fuel cut).outcome? = _
      rw [hrun, hp, Option.map_some, hb]
      rfl

end Session

/-- A budget of two instructions is all that the function with a number needs. -/
theorem numberFrame_allowed :
    let c : Context (Unit × List Event) := { Machine.idle.toContext with state := ((), []) }
    let host := Host.silent.recorded
    let free := Session.machine host (Session.unlimited c) numberFrame none none
    let cut := Session.machine host (Session.allowing 2 c) numberFrame none none
    (Machine.run host 2 cut).state.2 <+: (Machine.run host 4 free).state.2 ∧
      ∃ p c' u, Session.runFrame host 11 numberFrame none none (Session.unlimited c) =
          some (p, c') ∧
        Session.runFrame host 11 numberFrame none none (Session.allowing 2 c) =
          some (p, { c' with budget := .limited { instructions := some 2 } u }) := by
  intro c host free cut
  have hn (k : Nat) : Machine.executions host free k ≤ 2 :=
    Machine.executions_le_of_halted host (j := 4) (by cbv) k
  have h := Session.runs_allowed Host.silent c 2 numberFrame none none
  exact ⟨(h.1 2 fun j _ => Session.never_exhausted hn).2 4 (by decide), h.2 hn 11 (by decide)⟩

end Resumable
