import Resumable.Proofs.Machine.Collapse
import Resumable.Proofs.Machine.Depth

/-!
# Runs under a budget

A budget that counts instructions makes every run end.  Each move either executes an instruction,
which the budget counts, or brings the machine closer to the next one or to its end
(`Machine.weight_step`): a frame that has been put on the chain has to start, one that goes on has
to execute an instruction, and one that is done has to leave.  So a run ends within a number of
moves that depends on the budget alone (`Session.halts_within`), however its frames call each other,
resume generators or loop.

What is executed and what is left of the budget is always the same in sum
(`Machine.metered_run`), and once nothing is left, the next dispatch breaks the run
(`Session.runs_metered`).
-/

namespace Resumable

variable {σ : Type}

/-- The limits allow `n` instructions and set no deadline. -/
structure Limits.Counts (limits : Limits) (n : Nat) : Prop where
  instructions : limits.instructions = some n
  deadline : limits.deadline = none

theorem Budget.dispatch_limited {limits : Limits} {n : Nat} (hn : limits.Counts n) (used : Nat) :
    (Budget.limited limits used).dispatch =
      (if n < used + 1 then .error (.instructions n) else .ok (), .limited limits (used + 1)) := by
  have hc : Tracker.countInstruction limits used =
      if n < used + 1 then .error (.instructions n) else .ok () := by
    simp only [Tracker.countInstruction, Tracker.checkDeadline, hn.instructions, hn.deadline,
      ite_self]
  rw [← hc]
  rfl

/-- How many moves are needed, at most, before the chain gets shorter or an instruction is
executed. -/
def Control.weight : Control → Nat
  | start _ => 2
  | dispatch _ => 1
  | leave _ | halted _ _ => 0

namespace Machine

/-- How many moves the machine can make at most without executing an instruction. -/
def weight (m : Machine σ) : Nat := 2 * m.depth + m.control.weight

variable (host : Host σ) {m : Machine σ} {f : Frame} {w : Entry} {v : Waiting}
  {rest : List Activation} {limits : Limits} {n used : Nat}

/-! ### Every move counts -/

variable {p : Frame × Standing}

theorem Stands.weight_eq {c : Control} (h : m.Stands rest w p) (hc : p.2.control? = some c) :
    m.weight = 2 * (rest.length + 1) + c.weight := by
  unfold weight depth
  rw [h.chain, List.length_cons, Option.some.inj (h.control.symm.trans hc)]

/-- A frame that has been started executes an instruction next, or leaves. -/
theorem Stands.weight_le (h : m.Stands rest w p) (hp : ∀ raising, p.2 ≠ .starting raising) :
    m.weight ≤ 2 * (rest.length + 1) + 1 := by
  obtain ⟨f, s⟩ := p
  have hs := h.control
  cases s with
  | starting raising => exact absurd rfl (hp raising)
  | before o => exact Nat.le_of_eq (h.weight_eq rfl)
  | leaving result =>
    rw [h.weight_eq rfl]
    exact Nat.le_succ _
  | _ => cases hs

theorem weight_deliver {g : Frame} (hc : m.chain = ⟨f, w⟩ :: rest) (hv : v ≠ .outside)
    (result : Except Failure FrameExit) :
    (m.deliver host v g result).weight ≤ 2 * (rest.length + 1) + 1 := by
  obtain ⟨s, hs⟩ := standing?_of_ne hv
  have hd := deliver_stands host hc hs g result
  exact hd.weight_le (f.settles_answered (control?_of_standing? hs) result).not_starting

/-- A frame that is put on the chain has to be started. -/
theorem weight_enter (hc : m.chain = ⟨f, w⟩ :: rest) (hv : v ≠ .outside) (g : Frame)
    (input : Option Value) : (m.enter host g input none v).weight ≤ 2 * (rest.length + 2) + 2 := by
  rcases enter_eq host m g input none v with ⟨stack, -, -, he⟩ | ⟨e, he, -⟩
  · have hp : (m.pushed host g stack none v).Stands m.chain (g.entry v) (_, .starting none) :=
      ⟨rfl, rfl⟩
    rw [he, hp.weight_eq rfl, hc]
    exact Nat.le_refl _
  · have hd := weight_deliver host (g := g) hc hv (.error e)
    rw [he]
    omega

theorem weight_follow (hc : m.chain = ⟨f, w⟩ :: rest) (i : Instruction) (flow : Flow) :
    (m.follow host i flow).weight ≤ 2 * (rest.length + 2) + 2 := by
  -- unless it enters a frame, the innermost one goes on or leaves
  have stays {m' : Machine σ} {p : Frame × Standing} (hs : m'.Stands rest w p)
      (hp : ∀ raising, p.2 ≠ .starting raising) : m'.weight ≤ 2 * (rest.length + 2) + 2 := by
    have hl := hs.weight_le hp
    omega
  cases flow with
  | next =>
    have hs : (m.follow host i .next).Stands rest w (f, .before i.next) := ⟨hc, rfl⟩
    exact stays hs nofun
  | jump target =>
    have hs : (m.follow host i (.jump target)).Stands rest w (f, .before target) := ⟨hc, rfl⟩
    exact stays hs nofun
  | exit result =>
    cases result with
    | returned v =>
      have hs : (m.follow host i (.exit (.returned v))).Stands rest w
          (f.finish, .leaving (.ok (.returned v))) := by
        unfold follow
        dsimp only
        rw [hc]
        exact ⟨setFrame_chain hc _, rfl⟩
      exact stays hs nofun
    | yielded v =>
      have hs : (m.follow host i (.exit (.yielded v))).Stands rest w
          (f, .leaving (.ok (.yielded v))) := ⟨hc, rfl⟩
      exact stays hs nofun
  | reraise e => exact stays (fail_stands hc _) (f.settles_failing _).not_starting
  | invoke callee => exact weight_enter host hc (fun hn => by cases hn) callee none
  | advance r =>
    unfold follow
    dsimp only
    cases ht : m.heap.takeFrame r false with
    | error e => exact stays (failLoop_stands host hc i e) (f.settles_failingLoop i e).not_starting
    | ok t =>
      exact weight_enter host (m := { m with heap := t.2 }) hc (fun hn => by cases hn) t.1
        (t.1.input none)

theorem weight_perform (hc : m.chain = ⟨f, w⟩ :: rest) (i : Instruction) :
    (m.perform host ⟨f, w⟩ i).weight ≤ 2 * (rest.length + 2) + 2 := by
  cases hx : (Exec.execute m.currentException i).run ⟨f, m.heap⟩ with
  | ok flow l =>
    rw [perform_of_ok m w hx]
    exact weight_follow host (chain_executed host hc i l) i flow
  | error e l =>
    have hs := failAt_stands host (chain_executed host hc i l) i.offset e
    have hl := hs.weight_le (l.frame.settles_failingAt i.offset e).not_starting
    rw [perform_of_error m w hx]
    omega

theorem weight_start (hc : m.chain = ⟨f, w⟩ :: rest) (raising : Option Raised) :
    (m.start host raising).weight ≤ 2 * (rest.length + 1) + 1 := by
  obtain ⟨p, hs, hp⟩ : ∃ p, (m.start host raising).Stands rest w p ∧
      ∀ raising, p.2 ≠ .starting raising := by
    unfold start
    rw [hc]
    dsimp only
    cases f.resumeOffset with
    | error e => exact ⟨(f, .leaving _), ⟨rfl, rfl⟩, nofun⟩
    | ok o =>
      cases raising with
      | none => exact ⟨(f, .before o), ⟨hc, rfl⟩, nofun⟩
      | some e => exact ⟨_, raise_stands host hc e _, (f.settles_raising e _).not_starting⟩
  exact hs.weight_le hp

/-- **Every move** brings the machine closer to its end, unless it executes an instruction, and that
takes it four moves away at most. -/
theorem weight_step (hn : Nested m.chain) (hm : m.isHalted = false) :
    (m.step host).weight + 1 ≤ m.weight + if (m.decodes? host).isSome then 4 else 0 := by
  obtain ⟨f, w, rest, hc⟩ := hn.eq_cons
  obtain ⟨s, hs⟩ : ∃ s, m.Stands rest w (f, s) := stands_of_chain hc hm
  have hctl := hs.control
  cases s with
  | calling site => cases hctl
  | looping site => cases hctl
  | starting raising =>
    have hl := weight_start host hc raising
    rw [hs.weight_eq rfl, hs.step_starting host, Control.weight]
    omega
  | before o =>
    -- a dispatch that is refused makes the frame leave, and any other executes an instruction
    rw [hs.weight_eq rfl, hs.step_before host, Control.weight]
    rcases dispatch_cases host hs with ⟨e, hd, hf⟩ | ⟨g, o', m', hd, -, hc', -, he, hi⟩
    · rw [hd, hf.weight_eq rfl, Control.weight]
      omega
    · rw [decodes?_of_lined? host hd, Option.isSome_some, if_pos rfl]
      cases hi' : Instruction.decode g.code.body.bytecode o' with
      | error e =>
        have hl := (fail_stands hc' (.fatal e)).weight_eq rfl
        rw [he e hi', hl, Control.weight]
        omega
      | ok i =>
        have hl := weight_perform host hc' i
        rw [hi i hi']
        omega
  | leaving result =>
    -- the frame that is gone weighs more than what the one below still has to do
    rw [hs.weight_eq rfl, step_of_leaving host hs, Control.weight]
    rw [hc] at hn
    cases hn with
    | outermost _ hw =>
      rw [hw]
      show 0 + 1 ≤ _
      omega
    | above _ hw hrest =>
      obtain ⟨g, v, rest', rfl⟩ := hrest.eq_cons
      have hl : ((m.popped host w (⟨g, v⟩ :: rest') result).deliver host w.waiting
          (f.released result) result).weight ≤ _ := weight_deliver host rfl hw result
      rw [List.length_cons]
      omega

/-! ### What is executed -/

/-- How many instructions are executed in the first `k` moves. -/
def executions (host : Host σ) (m : Machine σ) (k : Nat) : Nat :=
  (List.range k).countP fun j => ((run host j m).decodes? host).isSome

theorem executions_succ (m : Machine σ) (k : Nat) : executions host m (k + 1) =
    executions host m k + if ((run host k m).decodes? host).isSome then 1 else 0 := by
  unfold executions
  rw [List.range_succ, List.countP_append, List.countP_singleton]

/-- An instruction is executed if one is about to be dispatched and the budget admits it. -/
theorem isSome_decodes?_iff : (m.decodes? host).isSome = true ↔
    (∃ o, m.control = .dispatch o) ∧ m.chain ≠ [] ∧ m.budget.dispatch.1 = .ok () := by
  unfold decodes? lined?
  split
  · rename_i o a rest ho hc
    have hne : m.chain ≠ [] := by
      rw [hc]
      exact List.cons_ne_nil a rest
    cases hb : m.budget.dispatch with
    | mk admitted budget =>
      cases admitted with
      | ok u => exact ⟨fun _ => ⟨⟨o, ho⟩, hne, rfl⟩, fun _ => rfl⟩
      | error e => exact ⟨nofun, fun h => nomatch h.2.2⟩
  · rename_i hn
    refine ⟨nofun, fun ⟨⟨o, ho⟩, hc, _⟩ => ?_⟩
    obtain ⟨a, rest, hc⟩ := List.exists_cons_of_ne_nil hc
    exact absurd hc (hn o a rest ho)

/-- A machine that has halted executes nothing more. -/
theorem executions_le_of_halted {j : Nat} (hj : (run host j m).isHalted = true) (k : Nat) :
    executions host m k ≤ executions host m j := by
  rcases Nat.le_total k j with hk | hk
  · exact (List.range_sublist.2 hk).countP_le
  · induction k, hk using Nat.le_induction with
    | base => exact Nat.le_refl _
    | succ k hk ih =>
      have hrun : run host k m = run host j m := by
        obtain ⟨d, rfl⟩ := Nat.exists_eq_add_of_le hk
        rw [run_add, run_of_halted hj]
      have hn : ¬((run host k m).decodes? host).isSome = true := fun hs => by
        obtain ⟨⟨o, ho⟩, -⟩ := (isSome_decodes?_iff host).1 hs
        rw [hrun] at ho
        unfold isHalted at hj
        rw [ho] at hj
        cases hj
      rw [executions_succ, if_neg hn]
      exact ih

/-- What a move executes is what it uses up of the budget. -/
theorem metered_step (hb : m.budget = .limited limits used) (hn : limits.Counts n) :
    ∃ used', (m.step host).budget = .limited limits used' ∧ used ≤ used' ∧
      (if (m.decodes? host).isSome then 1 else 0) + (n - used') = n - used := by
  -- only a dispatch uses up budget, also if it is refused
  by_cases h : (∃ o, m.control = .dispatch o) ∧ m.chain ≠ []
  · obtain ⟨⟨o, ho⟩, hc⟩ := h
    obtain ⟨a, rest, hc'⟩ := List.exists_cons_of_ne_nil hc
    have hstep : (m.step host).budget = .limited limits (used + 1) := by
      unfold step
      rw [ho]
      exact (budget_dispatch host m hc' o).trans (by rw [hb, Budget.dispatch_limited hn])
    refine ⟨used + 1, hstep, Nat.le_succ used, ?_⟩
    have hd := isSome_decodes?_iff host (m := m)
    rw [hb, Budget.dispatch_limited hn] at hd
    by_cases hu : used < n
    · rw [if_neg (by omega)] at hd
      rw [if_pos (hd.2 ⟨⟨o, ho⟩, hc, rfl⟩)]
      omega
    · rw [if_pos (by omega)] at hd
      rw [if_neg fun hs => by cases (hd.1 hs).2.2]
      omega
  · refine ⟨used, ?_, Nat.le_refl used, ?_⟩
    · by_cases ho : ∃ o, m.control = .dispatch o
      · obtain ⟨o, ho'⟩ := ho
        have hc : m.chain = [] := by
          by_contra hc
          exact h ⟨⟨o, ho'⟩, hc⟩
        unfold step dispatch
        rw [ho', hc, hb]
      · rw [budget_step host m fun o ho' => ho ⟨o, ho'⟩, hb]
    · have hs : ¬(m.decodes? host).isSome = true := fun hs =>
        have hd := (isSome_decodes?_iff host).1 hs
        h ⟨hd.1, hd.2.1⟩
      rw [if_neg hs]
      exact Nat.zero_add _

/-- **What is executed and what is left of the budget** are the same in sum all along a run. -/
theorem metered_run (hb : m.budget = .limited limits used) (hn : limits.Counts n)
    (k : Nat) : ∃ used', (run host k m).budget = .limited limits used' ∧ used ≤ used' ∧
      executions host m k + (n - used') = n - used := by
  induction k with
  | zero => exact ⟨used, hb, Nat.le_refl used, Nat.zero_add _⟩
  | succ k ih =>
    obtain ⟨u, hb', hu, hk⟩ := ih
    obtain ⟨u', hb'', hu', hs⟩ := metered_step host hb' hn
    refine ⟨u', ?_, Nat.le_trans hu hu', ?_⟩
    · rw [run_succ]
      exact hb''
    · rw [executions_succ]
      omega

/-- A run that goes on has executed enough instructions for the moves it has made. -/
theorem weight_run (hn : ∀ k, (run host k m).isHalted = false → Nested (run host k m).chain)
    {k : Nat} (hk : (run host k m).isHalted = false) :
    (run host k m).weight + k ≤ m.weight + 4 * executions host m k := by
  induction k with
  | zero => exact Nat.le_refl _
  | succ k ih =>
    have hk' : (run host k m).isHalted = false := by
      by_contra hh
      rw [run_succ, step_of_halted (Bool.eq_true_of_not_eq_false hh)] at hk
      exact hh hk
    have hs := weight_step host (hn k hk') hk'
    have hr := ih hk'
    rw [run_succ, executions_succ]
    split at hs <;> rename_i hd <;> simp only [hd, if_true, if_false, Bool.false_eq_true] <;> omega

end Machine

namespace Session

variable {host : Host σ} {fuel k n used : Nat} {c : Context σ} {limits : Limits} {f : Frame}
  {input : Option Value} {raising : Option Raised} {α β : Type}

theorem budget_machine (host : Host σ) (c : Context σ) (f : Frame) (input : Option Value)
    (raising : Option Raised) : (machine host c f input raising).budget = c.budget :=
  Machine.budget_enter host { c with chain := [], control := .start none } f input raising .outside

/-- The frame that is run has been put on an empty chain. -/
theorem weight_machine (host : Host σ) (c : Context σ) (f : Frame) (input : Option Value)
    (raising : Option Raised) : (machine host c f input raising).weight ≤ 4 := by
  let m : Machine σ := { c with chain := [], control := .start none }
  show (m.enter host f input raising .outside).weight ≤ 4
  rcases Machine.enter_eq host m f input raising .outside with ⟨stack, -, -, hp⟩ | ⟨e, hp, -⟩
  · rw [hp]
    exact Nat.le_refl 4
  · rw [hp]
    exact Nat.zero_le 4

/-- **A run under a budget halts** within a number of moves that depends on the budget alone. -/
theorem halts_within (hb : c.budget = .limited limits used) (hn : limits.Counts n)
    (hf : 4 * (n - used) + 3 ≤ fuel) :
    ∃ p, (Machine.run host fuel (machine host c f input raising)).outcome? = some p := by
  by_contra ho
  have hh : (Machine.run host fuel (machine host c f input raising)).isHalted = false := by
    unfold Machine.isHalted
    split
    · rename_i g result hc
      refine absurd ⟨(g, result), ?_⟩ ho
      unfold Machine.outcome?
      rw [hc]
    · rfl
  have hw := Machine.weight_run host (fun k => nested_run) hh
  obtain ⟨u, -, -, he⟩ :=
    Machine.metered_run host ((budget_machine host c f input raising).trans hb) hn fuel
  have hstart := weight_machine host c f input raising
  -- the frame that was started is still on the chain
  have hend : 2 ≤ (Machine.run host fuel (machine host c f input raising)).weight := by
    obtain ⟨g, w, rest, hc⟩ := (nested_run hh).eq_cons
    unfold Machine.weight Machine.depth
    rw [hc, List.length_cons]
    omega
  omega

/-! ### Whatever a client asks for -/

/-- The session comes to a result under a budget with these limits of which `used` instructions or
more have been counted, and leaves one. -/
def Ends (limits : Limits) (used : Nat) (x : Session σ α) : Prop :=
  ∀ (c : Context σ) (u : Nat), c.budget = .limited limits u → used ≤ u →
    ∃ a c' u', x c = some (a, c') ∧ c'.budget = .limited limits u' ∧ used ≤ u'

theorem Ends.bind {x : Session σ α} {k : α → Session σ β} (hx : Ends limits used x)
    (hk : ∀ a, Ends limits used (k a)) : Ends limits used (x >>= k) := by
  intro c u hc hu
  obtain ⟨a, c', u', ha, hc', hu'⟩ := hx c u hc hu
  obtain ⟨b, c'', u'', hb, hc''⟩ := hk a c' u' hc' hu'
  refine ⟨b, c'', u'', ?_, hc''⟩
  show (x c).bind _ = _
  rw [ha]
  exact hb

theorem ends_pure (a : α) : Ends limits used (pure a : Session σ α) := fun c u hc hu =>
  ⟨a, c, u, rfl, hc, hu⟩

theorem ends_getHeap : Ends limits used (getHeap : Session σ Heap) := fun c u hc hu =>
  ⟨c.heap, c, u, rfl, hc, hu⟩

theorem ends_setHeap (h : Heap) : Ends limits used (setHeap h : Session σ Unit) := fun c u hc hu =>
  ⟨(), { c with heap := h }, u, rfl, hc, hu⟩

theorem ends_withHeap (g : Heap → α × Heap) : Ends limits used (withHeap g : Session σ α) :=
  fun c u hc hu => ⟨(g c.heap).1, { c with heap := (g c.heap).2 }, u, rfl, hc, hu⟩

theorem ends_settle (r : Ref .generator) (f : Frame) (result : Except Failure FrameExit) :
    Ends limits used (settle r f result : Session σ _) :=
  ends_getHeap.bind fun _ => (ends_setHeap _).bind fun _ => ends_pure _

theorem ends_makeFrame (code : CodeObject) (globals builtins : Ref .mapping)
    (closure : List (Ref .cell)) :
    Ends limits used (makeFrame code globals builtins closure : Session σ _) := by
  refine ends_getHeap.bind fun h => ?_
  split
  · exact (ends_setHeap _).bind fun _ => ends_pure _
  · exact ends_pure _

section

variable (host) (hn : limits.Counts n) (hf : 4 * (n - used) + 3 ≤ fuel)

include hn hf

theorem ends_runFrame (f : Frame) (input : Option Value) (raising : Option Raised) :
    Ends limits used (runFrame host fuel f input raising) := by
  intro c u hc hu
  obtain ⟨u', hc', hu', -⟩ :=
    Machine.metered_run host ((budget_machine host c f input raising).trans hc) hn fuel
  obtain ⟨p, ho⟩ : ∃ p, (Machine.run host fuel (machine host c f input raising)).outcome? =
    some p := halts_within hc hn (by omega)
  refine ⟨p, _, u', ?_, hc', Nat.le_trans hu hu'⟩
  unfold runFrame
  dsimp only
  rw [ho]
  rfl

theorem ends_evaluate (f : Frame) : Ends limits used (evaluate host fuel f) := by
  unfold evaluate
  split
  · exact (ends_withHeap _).bind fun _ => ends_pure _
  · refine (ends_runFrame host hn hf f none none).bind fun (_, result) => ?_
    dsimp only
    split <;> exact ends_pure _

theorem ends_runCode (code : CodeObject) (globals : Ref .mapping) :
    Ends limits used (runCode host fuel code globals) := by
  refine (ends_makeFrame code globals Heap.defaultBuiltins []).bind fun made => ?_
  split
  · exact ends_evaluate host hn hf _
  · exact ends_pure _

theorem ends_send (r : Ref .generator) (v : Value) : Ends limits used (send host fuel r v) := by
  refine ends_getHeap.bind fun h => ?_
  split
  · exact ends_pure _
  · exact (ends_setHeap _).bind fun _ => (ends_runFrame host hn hf _ _ none).bind fun _ =>
      ends_settle r _ _

theorem ends_throwInto (r : Ref .generator) (e : Raised) :
    Ends limits used (throwInto host fuel r e) := by
  refine ends_getHeap.bind fun h => ?_
  split
  · exact ends_pure _
  · exact (ends_setHeap _).bind fun _ => ends_pure _
  · exact ends_pure _
  · exact ends_pure _
  · split
    · exact ends_pure _
    · exact (ends_setHeap _).bind fun _ => (ends_runFrame host hn hf _ none _).bind fun _ =>
        ends_settle r _ _

theorem ends_close (r : Ref .generator) : Ends limits used (close host fuel r) := by
  refine ends_getHeap.bind fun h => ?_
  split
  · exact (ends_setHeap _).bind fun _ => ends_pure _
  · exact ends_pure _
  · exact ends_pure _
  all_goals
    refine (ends_throwInto host hn hf r _).bind fun answer => ?_
    split
    · exact ends_pure _
    · exact ends_pure _
    · split <;> exact ends_pure _

omit hn hf in
theorem ends_passOn {callers : List Frame}
    (hc : ∀ outcome, Ends limits used (resumeCallers host fuel callers outcome))
    (result : Except Failure FrameExit) : Ends limits used (passOn host fuel callers result) := by
  unfold passOn
  split
  · exact ends_pure _
  · exact hc _
  · exact hc _

theorem ends_resumeCallers (callers : List Frame) (outcome : Except Failure Value) :
    Ends limits used (resumeCallers host fuel callers outcome) := by
  induction callers generalizing outcome with
  | nil => cases outcome <;> exact ends_pure _
  | cons f callers ih =>
    intro c u hc hu
    cases ha : afterCallee f outcome with
    | error e => exact ⟨_, c, u, resumeCallers_cons_error ha, hc, hu⟩
    | ok p =>
      have hrun : Ends limits used (runFrame host fuel p.1 none p.2 >>= fun q =>
          passOn host fuel callers q.2) :=
        (ends_runFrame host hn hf p.1 none p.2).bind fun q => ends_passOn host ih q.2
      obtain ⟨a, c', u', hx, hc'⟩ := hrun c u hc hu
      exact ⟨a, c', u', (resumeCallers_cons ha).trans hx, hc'⟩

theorem ends_resumeChain (frames : List Frame) :
    Ends limits used (resumeChain host fuel frames) := by
  cases frames with
  | nil => exact ends_pure _
  | cons f callers =>
    exact (ends_runFrame host hn hf f none none).bind fun p =>
      ends_passOn host (ends_resumeCallers host hn hf callers) p.2

end

/-- Whatever a client asks for in the context comes to a result. -/
structure Answers (host : Host σ) (fuel : Nat) (c : Context σ) : Prop where
  runs : ∀ f input raising, (runFrame host fuel f input raising c).isSome = true
  evaluates : ∀ f, (evaluate host fuel f c).isSome = true
  runsCode : ∀ code globals, (runCode host fuel code globals c).isSome = true
  sends : ∀ r v, (send host fuel r v c).isSome = true
  throws : ∀ r e, (throwInto host fuel r e c).isSome = true
  closes : ∀ r, (close host fuel r c).isSome = true
  resumes : ∀ frames, (resumeChain host fuel frames c).isSome = true

theorem answers_of_budget (hn : limits.Counts n) (hb : c.budget = .limited limits used)
    (hf : 4 * (n - used) + 3 ≤ fuel) : Answers host fuel c := by
  have ends {α : Type} {x : Session σ α} (hx : Ends limits used x) : (x c).isSome = true := by
    obtain ⟨a, c', u, ha, -⟩ := hx c used hb (Nat.le_refl used)
    rw [ha]
    rfl
  exact {
    runs := fun f input raising => ends (ends_runFrame host hn hf f input raising)
    evaluates := fun f => ends (ends_evaluate host hn hf f)
    runsCode := fun code globals => ends (ends_runCode host hn hf code globals)
    sends := fun r v => ends (ends_send host hn hf r v)
    throws := fun r e => ends (ends_throwInto host hn hf r e)
    closes := fun r => ends (ends_close host hn hf r)
    resumes := fun frames => ends (ends_resumeChain host hn hf frames) }

/-- The failure with which a budget of `n` instructions ends a run. -/
def exhausted (n : Nat) : Failure :=
  .uncatchable (Raised.new .timeoutError s!"instruction budget of {n} exhausted")

/-- **Runs under a budget** of `n` instructions, `used` of which have been counted.  Whatever a
client asks for comes to a result within a number of moves that depends on nothing else, and
whatever frame is run, its own instructions and those of all frames above it are no more than are
left of the budget.  When so many have been executed and another one is about to be dispatched, the
run ends with the failure of an exhausted budget. -/
theorem runs_metered (host : Host σ) (hn : limits.Counts n)
    (hb : c.budget = .limited limits used) (hf : 4 * (n - used) + 3 ≤ fuel) :
    Answers host fuel c ∧ ∀ f input raising,
      (∀ k, Machine.executions host (machine host c f input raising) k ≤ n - used) ∧
      ∀ k o, (Machine.run host k (machine host c f input raising)).control = .dispatch o →
        Machine.executions host (machine host c f input raising) k = n - used →
        ∃ g c', runFrame host fuel f input raising c = some ((g, .error (exhausted n)), c') := by
  refine ⟨answers_of_budget hn hb hf, fun f input raising => ?_⟩
  have hb' := (budget_machine host c f input raising).trans hb
  refine ⟨fun k => ?_, fun k o ho hk => ?_⟩
  · obtain ⟨u, -, -, hu⟩ := Machine.metered_run host hb' hn k
    omega
  · -- nothing is left of the budget, so that the dispatch is refused
    obtain ⟨u, hu, -, hsum⟩ := Machine.metered_run host hb' hn k
    have hhalted : (Machine.run host k (machine host c f input raising)).isHalted = false := by
      unfold Machine.isHalted
      rw [ho]
    obtain ⟨g, w, rest, hc⟩ := (nested_run hhalted).eq_cons
    have hs : (Machine.run host k (machine host c f input raising)).Stands rest w (g, .before o) :=
      ⟨hc, by rw [ho]; rfl⟩
    have hrefused : (Machine.run host k (machine host c f input raising)).budget.dispatch.1 =
        .error (.instructions n) := by
      rw [hu, Budget.dispatch_limited hn, if_pos (by omega)]
    have hbreaks : (Machine.run host k (machine host c f input raising)).Breaks host
        (exhausted n) := Machine.breaks_of_refused hs hrefused fun r hr => by cases hr
    -- from here on all frames fail, and the run that has halted ends in that failure
    obtain ⟨g', ho', -⟩ := (collapses_of_breaks hbreaks).halts host none
    rw [← Machine.run_add] at ho'
    obtain ⟨p, hp⟩ : ∃ p, (Machine.run host fuel (machine host c f input raising)).outcome? =
      some p := halts_within hb hn hf
    rw [Machine.run_eq_of_outcome? ho' hp, hp] at ho'
    refine ⟨g', (Machine.run host fuel (machine host c f input raising)).toContext, ?_⟩
    unfold runFrame
    dsimp only
    rw [hp, ho']
    rfl

end Session

/-- The code of a loop without end. -/
def endlessCode : CodeObject where
  identity := 1
  body :=
    { name := "endless"
      bytecode := [Opcode.jumpAbsolute.byte, 0, 0]
      maxStack := 0
      firstLine := 1 }

/-- A frame of that loop. -/
def endlessFrame : Frame where
  code := endlessCode
  globals := ⟨0⟩
  builtins := Heap.defaultBuiltins
  locals := .dict ⟨0⟩
  cells := []
  stack := .empty 0
  trace := { line := 1 }

/-- It ends under a budget of three instructions, when the fourth is about to be dispatched. -/
theorem endlessFrame_metered : ∃ g c',
    Session.runFrame Host.silent 15 endlessFrame none none
        { Machine.idle.toContext with budget := .limited { instructions := some 3 } 0 } =
      some ((g, .error (Session.exhausted 3)), c') := by
  let c : Context Unit :=
    { Machine.idle.toContext with budget := .limited { instructions := some 3 } 0 }
  have hb : c.budget = .limited { instructions := some 3 } 0 := rfl
  have hf : 4 * (3 - 0) + 3 ≤ 15 := by decide
  exact ((Session.runs_metered Host.silent ⟨rfl, rfl⟩ hb hf).2 endlessFrame none none).2 4 0
    (by cbv) (by cbv)

end Resumable
