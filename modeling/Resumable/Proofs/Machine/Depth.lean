import Resumable.Proofs.Machine.Ongoing

/-!
# The tracker of a run

A run asks the same tracker all along, before every instruction and before every frame, and only
dispatching an instruction moves it on (`Machine.budget_step`, `Machine.tracker_step`).  A tracker
caps the chain if it admits no frame beyond a number of them (`Tracker.Caps`).  It is steady if what
it says of frames does not depend on the instructions it was asked about (`Tracker.Steady`): then
where a frame was put on a chain once, another one can be put later (`Machine.Carries.admitted`).
-/

namespace Resumable

/-! ### What trackers admit -/

namespace Tracker

/-- No chain that is admitted gets longer than `max` frames. -/
def Caps (t : Tracker) (max : Nat) : Prop :=
  ∀ n depth, t.checkDepth n depth = .ok () → depth < max

/-- A frame that is admitted on a chain is admitted at any time, and on shorter chains too. -/
def Steady (t : Tracker) : Prop :=
  ∀ ⦃n n' depth depth'⦄, depth' ≤ depth → t.checkDepth n depth = .ok () →
    t.checkDepth n' depth' = .ok ()

theorem depthWithin_eq_ok_iff {max depth : Nat} : depthWithin max depth = .ok () ↔ depth < max := by
  unfold depthWithin
  split
  · simp only [reduceCtorEq, false_iff]
    omega
  · simp only [true_iff]
    omega

theorem caps_unlimited : unlimited.Caps defaultMaxDepth := fun _ _ h => depthWithin_eq_ok_iff.1 h

theorem caps_limited {limits : Limits} {max : Nat} (h : limits.maxDepth = some max) :
    (limited limits).Caps max := by
  intro n depth hd
  unfold limited at hd
  dsimp only at hd
  rw [h] at hd
  exact depthWithin_eq_ok_iff.1 hd

theorem steady_unlimited : unlimited.Steady := fun _ _ _ _ hd h =>
  depthWithin_eq_ok_iff.2 (Nat.lt_of_le_of_lt hd (depthWithin_eq_ok_iff.1 h))

theorem steady_limited (limits : Limits) : (limited limits).Steady := by
  intro n n' depth depth' hd h
  unfold limited at h ⊢
  dsimp only at h ⊢
  cases hmax : limits.maxDepth with
  | none => rfl
  | some max =>
    rw [hmax] at h
    exact depthWithin_eq_ok_iff.2 (Nat.lt_of_le_of_lt hd (depthWithin_eq_ok_iff.1 h))

end Tracker

/-- The budget of a tracker that keeps a state asks it as its own functions do, one state after the
other. -/
theorem Budget.dispatch_ofState {τ : Type} (onDispatch : τ → Except LimitError Unit × τ)
    (checkDepth : τ → Nat → Except LimitError Unit) (initial : τ) (n : Nat) :
    let b : Budget := ⟨.ofState onDispatch checkDepth initial, n⟩
    let now := Tracker.stateAfter onDispatch initial n
    b.dispatch = ((onDispatch now).1, ⟨b.tracker, n + 1⟩) ∧
      Tracker.stateAfter onDispatch initial (n + 1) = (onDispatch now).2 ∧
      ∀ depth, b.checkDepth depth = checkDepth now depth :=
  ⟨rfl, rfl, fun _ => rfl⟩

namespace Machine

variable {σ : Type} (host : Host σ) (m : Machine σ)

/-! ### Everything but dispatching leaves the budget alone -/

theorem budget_deliver (w : Waiting) (f : Frame) (result : Except Failure FrameExit) :
    (m.deliver host w f result).budget = m.budget := by
  by_cases hw : w = .outside
  · subst hw
    rfl
  · exact (ongoing_deliver m hw f result).budget

theorem budget_enter (f : Frame) (input : Option Value) (raising : Option Raised) (w : Waiting) :
    (m.enter host f input raising w).budget = m.budget := by
  rcases enter_eq host m f input raising w with ⟨stack, -, -, he⟩ | ⟨e, he, -⟩
  · rw [he]
    rfl
  · rw [he, budget_deliver]

theorem budget_perform {a : Activation} {rest : List Activation} (hc : m.chain = a :: rest)
    (i : Instruction) : (m.perform host a i).budget = m.budget := by
  have executed (l : Local) : ((m.announced host a.frame i).executed l).budget = m.budget :=
    budget_setFrame _ _
  rcases perform_cases host m a.frame a.entry i with ⟨e, l, -, ho⟩ | ⟨flow, l, -, hp⟩
  · exact ho.budget.trans (executed l)
  · rw [hp]
    rcases follow_cases host _ i flow (chain_executed host hc i l) with
      ho | ⟨v, -, he⟩ | ⟨callee, -, he⟩ | ⟨r, g, heap, -, -, he⟩
    · exact ho.budget.trans (executed l)
    · rw [he]
      exact executed l
    · rw [he, budget_enter, executed]
    · rw [he, budget_enter]
      exact executed l

/-- Dispatching uses up the budget once. -/
theorem budget_dispatch {a : Activation} {rest : List Activation} (hc : m.chain = a :: rest)
    (o : Nat) : (m.dispatch host o).budget = m.budget.dispatch.2 := by
  obtain ⟨budget, hb, ⟨e, hd⟩ | ⟨heap, state, g, o', -, ⟨e, hd⟩ | ⟨i, -, hd⟩⟩⟩ :=
    dispatch_lined host m o hc
  · rw [hd, budget_fail, hb]
  · rw [hd, budget_fail, hb]
  · rw [hd, budget_perform host _ rfl, hb]

/-- Only a move that dispatches uses up the budget. -/
theorem budget_step (h : ∀ o, m.control ≠ .dispatch o) : (m.step host).budget = m.budget := by
  unfold step
  split
  · exact (ongoing_start m _).budget
  · rename_i o ho
    exact absurd ho (h o)
  · cases hc : m.chain with
    | nil =>
      unfold leave
      rw [hc]
    | cons a rest =>
      rw [leave_eq (f := a.frame) (w := a.entry) m hc, budget_deliver]
      rfl
  · rfl

/-! ### The tracker along a run -/

/-- Every move leaves the tracker the same, and asked about no fewer instructions. -/
theorem tracker_step : (m.step host).budget.tracker = m.budget.tracker ∧
    m.budget.asked ≤ (m.step host).budget.asked := by
  have same (h : (m.step host).budget = m.budget) :
      (m.step host).budget.tracker = m.budget.tracker ∧
        m.budget.asked ≤ (m.step host).budget.asked := by
    rw [h]
    exact ⟨rfl, Nat.le_refl _⟩
  by_cases h : ∃ o, m.control = .dispatch o
  · obtain ⟨o, ho⟩ := h
    have hs : m.step host = m.dispatch host o := by
      unfold step
      rw [ho]
    cases hc : m.chain with
    | nil =>
      refine same ?_
      rw [hs]
      unfold dispatch
      rw [hc]
    | cons a rest =>
      rw [hs, budget_dispatch host m hc]
      exact ⟨rfl, Nat.le_succ _⟩
  · exact same (budget_step host m fun o ho => h ⟨o, ho⟩)

variable {host m} {m₀ : Machine σ} {below : List Activation} {w : Entry} {v : Waiting}
  {allowed : Value → Prop} {f g : Frame} {s : Standing} {input : Option Value}
  {raising : Option Raised}

/-- A frame that is held after entering was admitted. -/
theorem admitted_of_enter (h : (m.enter host f input raising v).Holds m.chain w g s) :
    m.budget.checkDepth m.depth = .ok () := by
  cases hc : m.budget.checkDepth m.depth with
  | ok u => rfl
  | error e =>
    obtain ⟨above, hchain, -⟩ := h.split
    have hl := congrArg List.length hchain
    have he : m.enter host f input raising v = m.deliver host v f (.error e.toFailure) := by
      unfold enter
      rw [hc]
    rw [he, length_deliver, List.length_append, List.length_cons] at hl
    omega

theorem Carries.tracker (h : Carries host below w allowed m₀ m f s) :
    m.budget.tracker = m₀.budget.tracker := by
  induction h with
  | entered _ _ => rfl
  | step _ _ _ ih => exact (tracker_step host _).1.trans ih

theorem Carries.start (h : Carries host below w allowed m₀ m f s) :
    ∃ f s, m₀.Holds below w f s := by
  induction h with
  | entered hh _ => exact ⟨_, _, hh⟩
  | step _ _ _ ih => exact ih

/-- **What a steady tracker admitted once it admits all along the run.** -/
theorem Carries.admitted {n : Machine σ} (ht : n.budget.tracker.Steady)
    (h : Carries host n.chain w allowed (n.enter host f input raising v) m g s) :
    m.budget.checkDepth n.depth = .ok () := by
  obtain ⟨g', s', hh⟩ := h.start
  unfold Budget.checkDepth
  rw [h.tracker, budget_enter]
  exact ht (Nat.le_refl _) (admitted_of_enter hh)

end Machine

end Resumable
