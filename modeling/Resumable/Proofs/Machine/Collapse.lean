import Resumable.Proofs.Machine.Chains
import Resumable.Proofs.Machine.Moments

/-!
# Failures that nothing stops

An exception is raised in the frame that meets it, and a handler may stop it.  Any other failure
finishes the frame, and then the frame that waits for it, down to the outermost one: the chain
collapses (`Machine.Collapses`).  On the way nothing is dispatched, every frame is left finished and
empty, and every generator whose frame was on the chain has failed (`Machine.ComesDown`).

A run breaks when an instruction of one of its frames fails in this way (`Machine.Breaks`).  Whoever
has started the run, be it by calling a frame, by resuming, closing or throwing into a generator, or
by resuming a chain (`Session.Runs`), is handed that very failure (`Session.Runs.breaks`).
-/

namespace Resumable

variable {σ : Type}

/-- The failure is no exception, so that nothing stops it. -/
def Failure.Unstoppable (e : Failure) : Prop := ∀ r, e ≠ .raised r

theorem Failure.Unstoppable.not_caught {e : Failure} (he : e.Unstoppable) (kind : ExceptionKind) :
    e.isCaughtBy kind = false := by
  cases e with
  | raised r => exact absurd rfl (he r)
  | _ => rfl

/-! ### Frames that fail -/

namespace Frame

variable (f : Frame)

/-- The frame is finished, and both its stacks are empty. -/
structure Emptied : Prop where
  finished : f.finished = true
  slots : f.stack.slots = []
  blocks : f.blocks = []

/-- The frame goes on at an offset, or leaves with a failure, finished and empty. -/
def Settles (p : Frame × Standing) : Prop :=
  (∃ o, p.2 = .before o) ∨ ∃ e, p.2 = .leaving (.error e) ∧ p.1.Emptied

theorem emptied_finish : f.finish.Emptied where
  finished := rfl
  slots := by
    show f.stack.slots.drop (f.stack.depth - 0) = []
    rw [List.drop_eq_nil_iff, ← f.stack.depth_eq]
    exact Nat.le_refl _
  blocks := rfl

theorem Emptied.released {f : Frame} (h : f.Emptied) (e : Failure) :
    (f.released (.error e)).Emptied :=
  ⟨h.finished, h.slots, h.blocks⟩

theorem settles_before (o : Nat) : Settles (f, .before o) := .inl ⟨o, rfl⟩

theorem settles_failing (e : Failure) : Settles (f.failing e) := .inr ⟨e, rfl, f.emptied_finish⟩

theorem settles_raising (e : Raised) (offset : Nat) : Settles (f.raising e offset) := by
  unfold raising
  dsimp only
  split
  · exact settles_before _ _
  · exact settles_failing _ _
  · exact settles_failing _ _

theorem settles_failingAt (offset : Nat) (e : Failure) : Settles (f.failingAt offset e) := by
  cases e with
  | raised e => exact settles_raising f e offset
  | _ => exact settles_failing f _

theorem settles_resumed (v : Value) (site : Instruction) : Settles (f.resumed v site) := by
  unfold resumed
  split
  · exact settles_before _ _
  · exact settles_failing _ _

theorem settles_exhausted (site : Instruction) : Settles (f.exhausted site) := by
  unfold exhausted
  split
  · exact settles_before _ _
  · exact settles_failing _ _

theorem settles_failingLoop (site : Instruction) (e : Failure) :
    Settles (f.failingLoop site e) := by
  unfold failingLoop
  split
  · exact settles_exhausted f site
  · exact settles_failingAt f site.offset e

/-- A frame that is given what it waits for settles. -/
theorem settles_answered {s : Standing} (hs : s.control? = none)
    (result : Except Failure FrameExit) : Settles (f.answered s result) := by
  cases s with
  | calling site =>
    match result with
    | .ok (.returned v) => exact settles_resumed f v site
    | .ok (.yielded _) => exact settles_failingAt f site.offset _
    | .error e => exact settles_failingAt f site.offset e
  | looping site =>
    match result with
    | .ok (.returned _) => exact settles_exhausted f site
    | .ok (.yielded v) => exact settles_resumed f v site
    | .error e => exact settles_failingLoop f site e
  | _ => cases hs

variable {f}

theorem Settles.emptied {p : Frame × Standing} {e : Failure} (h : Settles p)
    (he : p.2 = .leaving (.error e)) : p.1.Emptied := by
  rcases h with ⟨o, ho⟩ | ⟨-, -, hf⟩
  · rw [ho] at he
    cases he
  · exact hf

theorem Settles.not_starting {p : Frame × Standing} (h : Settles p) (raising : Option Raised) :
    p.2 ≠ .starting raising := by
  rcases h with ⟨o, ho⟩ | ⟨e, he, -⟩
  · rw [ho]
    nofun
  · rw [he]
    nofun

/-- **A frame that leaves with a failure** has been finished, unless it has not even found out where
it goes on. -/
theorem Moves.emptied {host : Host σ} {given : Option Failure} {s : Standing} {p : Frame × Standing}
    {e : Failure} (hm : Moves host f given s p)
    (hs : ∀ raising, s = .starting raising → ∃ o, f.resumeOffset = .ok o)
    (he : p.2 = .leaving (.error e)) : p.1.Emptied := by
  cases hm with
  | start _ => cases he
  | raise _ => exact (settles_raising f _ _).emptied he
  | lost hl =>
    obtain ⟨o, ho⟩ := hs _ rfl
    rw [ho] at hl
    cases hl
  | refused => exact emptied_finish f
  | undecoded _ _ => exact emptied_finish _
  | fails _ _ _ => exact (settles_failingAt _ _ _).emptied he
  | waits hn =>
    cases he
    cases hn
  | answered hn => exact (settles_answered f hn _).emptied he
  | follows _ _ _ hf =>
    cases hf with
    | reraise => exact emptied_finish _
    | refused => exact (settles_failingAt _ _ _).emptied he
    | spent _ => exact (settles_failingLoop _ _ _).emptied he
    | _ => cases he

/-- What waits for a frame that leaves with such a failure fails with it. -/
theorem answered_unstoppable {e : Failure} (he : e.Unstoppable) {s : Standing}
    (hs : s.control? = none) : f.answered s (.error e) = f.failing e := by
  have failingAt (o : Nat) : f.failingAt o e = f.failing e := by
    cases e with
    | raised r => exact absurd rfl (he r)
    | _ => rfl
  cases s with
  | calling site => exact failingAt site.offset
  | looping site =>
    show f.failingLoop site e = _
    unfold failingLoop
    rw [he.not_caught, if_neg Bool.false_ne_true]
    exact failingAt site.offset
  | _ => cases hs

end Frame

/-! ### Generators that fail -/

namespace Heap

variable {h : Heap} {r : Ref .generator} {f : Frame} {owner : Option (Ref .generator)}

/-- The generator has failed, and its frame is back, finished and empty. -/
def Failed (h : Heap) (r : Ref .generator) : Prop :=
  ∃ name f, h.generatorAt r = ⟨.errored, name, some f⟩ ∧ f.Emptied

theorem size_returned (result : Except Failure FrameExit) :
    (h.returned owner f result).generators.size = h.generators.size := by
  cases owner with
  | none => rfl
  | some r => exact size_setGenerator h r _

/-- Putting back a frame that has failed makes its generator one that has failed, and leaves the
others as they are. -/
theorem failed_returned (hr : r.index < h.generators.size) (hf : f.Emptied) (e : Failure)
    (hh : owner = some r ∨ h.Failed r) : (h.returned owner f (.error e)).Failed r := by
  cases owner with
  | none => exact hh.resolve_left nofun
  | some r' =>
    by_cases he : r = r'
    · subst he
      exact ⟨_, f, generatorAt_setGenerator_self hr _, hf⟩
    · have hn : (h.settle r' f (.error e)).generatorAt r = h.generatorAt r :=
        generatorAt_setGenerator_ne he _
      obtain ⟨name, g, hg, hg'⟩ := hh.resolve_left fun hn => he (Option.some.inj hn).symm
      exact ⟨name, g, hn.trans hg, hg'⟩

end Heap

/-! ### The collapse of a chain -/

namespace Machine

variable {m : Machine σ} {f g : Frame} {w v : Entry} {rest : List Activation} {e : Failure}

/-- The innermost frame leaves with a failure that nothing stops, finished and empty. -/
structure Collapses (m : Machine σ) (e : Failure) : Prop where
  nested : Nested m.chain
  control : m.control = .leave (.error e)
  unstoppable : e.Unstoppable
  emptied : ∀ a ∈ m.chain.head?, a.frame.Emptied

/-- What becomes of a machine whose chain collapses with a failure; `owner` is the generator of the
outermost frame. -/
structure ComesDown (host : Host σ) (owner : Option (Ref .generator)) (m : Machine σ)
    (e : Failure) : Prop where
  /-- Nothing is dispatched any more, in no frame. -/
  idle : ∀ j o, (run host j m).control ≠ .dispatch o
  /-- The budget is not used any more. -/
  budget : ∀ j, (run host j m).budget = m.budget
  /-- One frame after the other leaves with the failure, finished and empty. -/
  leaves : ∀ j < m.chain.length, ∃ f w, (run host j m).chain = ⟨f, w⟩ :: m.chain.drop (j + 1) ∧
    (run host j m).control = .leave (.error e) ∧ f.Emptied
  /-- In the end the outermost one has left with it, and all generators whose frames were on the
  chain have failed. -/
  halts : ∃ f, (run host m.chain.length m).outcome? = some (f, .error e) ∧ f.Emptied ∧
    ∀ r ∈ m.executing owner, r.index < m.heap.generators.size →
      ((run host m.chain.length m).heap.returned owner f (.error e)).Failed r

namespace Collapses

variable (host : Host σ) (owner : Option (Ref .generator))

theorem head (h : m.Collapses e) : ∃ f w rest, m.chain = ⟨f, w⟩ :: rest ∧ f.Emptied := by
  obtain ⟨f, w, rest, hc⟩ := h.nested.eq_cons
  refine ⟨f, w, rest, hc, h.emptied ⟨f, w⟩ ?_⟩
  rw [hc]
  rfl

theorem run_succ (h : m.Collapses e) (j : Nat) :
    run host (j + 1) m = run host j (m.step host) := by
  have hm : m.isHalted = false := by
    unfold isHalted
    rw [h.control]
  rw [run, hm]
  rfl

/-- The outermost frame leaves. -/
theorem last (h : m.Collapses e) (hc : m.chain = [⟨f, w⟩]) (hw : w.waiting = .outside) :
    (m.step host).outcome? = some (f.released (.error e), .error e) ∧
      (m.step host).heap = m.heap ∧ (m.step host).budget = m.budget := by
  have hs : m.Stands [] w (f, .leaving (.error e)) := ⟨hc, by rw [h.control]; rfl⟩
  refine ⟨outcome?_of_leaving hs hw, ?_⟩
  rw [step_of_leaving host hs, hw]
  exact ⟨rfl, rfl⟩

/-- A frame leaves, and the one that waits for it fails. -/
theorem step (h : m.Collapses e) (hc : m.chain = ⟨f, w⟩ :: ⟨g, v⟩ :: rest) :
    (m.step host).Collapses e ∧ (m.step host).chain = ⟨g.finish, v⟩ :: rest ∧
      (m.step host).heap =
        m.heap.returned (w.waiting.runs? owner) (f.released (.error e)) (.error e) ∧
      (m.step host).budget = m.budget := by
  have hs : m.Stands (⟨g, v⟩ :: rest) w (f, .leaving (.error e)) := ⟨hc, by rw [h.control]; rfl⟩
  have hn := h.nested
  rw [hc] at hn
  cases hn with
  | above _ hw hrest =>
    obtain ⟨s, hv⟩ := standing?_of_ne hw
    have hd : (m.step host).Stands rest v (g.failing e) := by
      rw [step_of_leaving host hs,
        ← Frame.answered_unstoppable h.unstoppable (control?_of_standing? hv)]
      exact deliver_stands host rfl hv _ _
    have ho : Ongoing host _ (m.step host) :=
      step_of_leaving host hs ▸ ongoing_deliver (m.popped host w (⟨g, v⟩ :: rest) (.error e)) hw
        (f.released (.error e)) (.error e)
    refine ⟨⟨?_, (Option.some.inj hd.control).symm, h.unstoppable, ?_⟩, hd.chain, ?_, ho.budget⟩
    · rw [hd.chain]
      exact hrest.replace g.finish
    · rw [hd.chain]
      rintro a ⟨⟩
      exact g.emptied_finish
    · rw [ho.heap]
      exact settled_eq hw m.heap _ _

/-- **Induction over a chain that collapses**, from the outermost frame inwards. -/
@[elab_as_elim]
theorem induct {motive : (m : Machine σ) → m.Collapses e → Prop}
    (last : ∀ m f w h, m.chain = [⟨f, w⟩] → w.waiting = .outside → motive m h)
    (step : ∀ m f w g v rest h (hs : (m.step host).Collapses e),
      m.chain = ⟨f, w⟩ :: ⟨g, v⟩ :: rest → motive (m.step host) hs → motive m h)
    (m : Machine σ) (h : m.Collapses e) : motive m h := by
  -- not on the chain itself: a move also finishes the frame below
  induction hl : m.chain.length generalizing m with
  | zero =>
    obtain ⟨f, w, rest, hc⟩ := h.nested.eq_cons
    rw [hc] at hl
    cases hl
  | succ n ih =>
    have hn := h.nested
    cases hc : m.chain with
    | nil =>
      rw [hc] at hl
      cases hl
    | cons a rest =>
      rw [hc] at hn hl
      cases hn with
      | outermost f hw => exact last m f _ h hc hw
      | above f hw hrest =>
        obtain ⟨g, v, rest', rfl⟩ := hrest.eq_cons
        obtain ⟨hstep, hc', -⟩ := h.step host none hc
        refine step m f _ g v rest' h hstep hc (ih _ hstep ?_)
        rw [hc', List.length_cons]
        exact Nat.succ.inj hl

/-- A chain that collapses dispatches nothing, and keeps the budget. -/
theorem idle (h : m.Collapses e) :
    ∀ j, (∀ o, (run host j m).control ≠ .dispatch o) ∧ (run host j m).budget = m.budget := by
  have now {m : Machine σ} (h : m.Collapses e) (o : Nat) : m.control ≠ .dispatch o := by
    rw [h.control]
    exact nofun
  induction m, h using induct host with
  | last m f w h hc hw =>
    intro j
    cases j with
    | zero => exact ⟨now h, rfl⟩
    | succ j =>
      obtain ⟨ho, -, hb⟩ := h.last host hc hw
      rw [h.run_succ, run_of_halted (isHalted_of_outcome? ho)]
      refine ⟨fun o hd => ?_, hb⟩
      unfold outcome? at ho
      rw [hd] at ho
      cases ho
  | step m f w g v rest h _ hc ih =>
    intro j
    cases j with
    | zero => exact ⟨now h, rfl⟩
    | succ j =>
      obtain ⟨-, -, -, hb⟩ := h.step host none hc
      rw [h.run_succ]
      exact ⟨(ih j).1, (ih j).2.trans hb⟩

/-- Before each of its moves, the innermost of the frames that are left leaves with the failure. -/
theorem leaves (h : m.Collapses e) :
    ∀ j < m.chain.length, ∃ f w, (run host j m).chain = ⟨f, w⟩ :: m.chain.drop (j + 1) ∧
      (run host j m).control = .leave (.error e) ∧ f.Emptied := by
  have now {m : Machine σ} (h : m.Collapses e) : ∃ f w, m.chain = ⟨f, w⟩ :: m.chain.drop 1 ∧
      m.control = .leave (.error e) ∧ f.Emptied := by
    obtain ⟨f, w, rest, hc, hf⟩ := h.head
    exact ⟨f, w, by rw [hc]; rfl, h.control, hf⟩
  induction m, h using induct host with
  | last m f w h hc hw =>
    intro j hj
    rw [hc] at hj
    obtain rfl : j = 0 := Nat.lt_one_iff.1 hj
    exact now h
  | step m f w g v rest h _ hc ih =>
    intro j hj
    cases j with
    | zero => exact now h
    | succ j =>
      obtain ⟨-, hc', -⟩ := h.step host none hc
      rw [hc', List.length_cons] at ih
      rw [hc, List.length_cons, List.length_cons] at hj
      rw [h.run_succ, hc]
      exact ih j (by omega)

/-- Once the chain is empty, the machine has halted with the failure.  The generators whose frames
were on the chain have failed by then, and those that had failed before still have. -/
theorem halts (h : m.Collapses e) :
    ∃ f, (run host m.chain.length m).outcome? = some (f, .error e) ∧ f.Emptied ∧
      ∀ r : Ref .generator, r.index < m.heap.generators.size →
        r ∈ m.executing owner ∨ m.heap.Failed r →
        ((run host m.chain.length m).heap.returned owner f (.error e)).Failed r := by
  induction m, h using induct host with
  | last m f w h hc hw =>
    obtain ⟨ho, hh, -⟩ := h.last host hc hw
    have hf : (f.released (.error e)).Emptied :=
      (h.emptied ⟨f, w⟩ (by rw [hc]; rfl)).released e
    rw [hc, List.length_singleton, h.run_succ]
    refine ⟨_, ho, hf, fun r hr hx => ?_⟩
    -- the generator of the last frame is the owner, if the run is for one
    rw [executing_cons hc, hw, List.filterMap_nil, List.append_nil, Option.mem_toList] at hx
    show ((m.step host).heap.returned owner _ _).Failed r
    rw [hh]
    exact Heap.failed_returned hr hf e hx
  | step m f w g v rest h _ hc ih =>
    obtain ⟨-, hc', hh, -⟩ := h.step host owner hc
    have hf : (f.released (.error e)).Emptied := (h.emptied ⟨f, w⟩ (by rw [hc]; rfl)).released e
    rw [hc', List.length_cons] at ih
    obtain ⟨k, ho, hk, hfailed⟩ := ih
    rw [hc, List.length_cons, List.length_cons, h.run_succ]
    refine ⟨k, ho, hk, fun r hr hx => hfailed r ?_ ?_⟩
    · rw [hh, Heap.size_returned]
      exact hr
    · -- the generator of the frame that leaves fails, the others go on waiting
      have hm : m.executing owner =
          (w.waiting.runs? owner).toList ++ (m.step host).executing owner := by
        rw [executing_cons hc, executing, hc', List.filterMap_cons, List.filterMap_cons]
      rw [hm, List.mem_append, Option.mem_toList] at hx
      rw [hh]
      rcases hx with (hx | hx) | hx
      · exact .inr (Heap.failed_returned hr hf e (.inl hx))
      · exact .inl hx
      · exact .inr (Heap.failed_returned hr hf e (.inr hx))

/-- **A chain that collapses comes down to the end.** -/
theorem comesDown (h : m.Collapses e) : m.ComesDown host owner e where
  idle j := (h.idle host j).1
  budget j := (h.idle host j).2
  leaves := h.leaves host
  halts := by
    obtain ⟨f, ho, hf, hr⟩ := h.halts host owner
    exact ⟨f, ho, hf, fun r hx hs => hr r hs (.inl hx)⟩

end Collapses

/-! ### Runs that break -/

variable {host : Host σ} {below : List Activation} {s : Standing}

/-- The next move makes an instruction of a frame on the chain fail with `e`, which nothing stops:
the instruction that is dispatched, the call or the loop at which the frame has waited for what
comes now, or the one from which it goes on with an exception.  A frame that does not find out where
it goes on executes none. -/
structure Breaks (host : Host σ) (m : Machine σ) (e : Failure) : Prop where
  unstoppable : e.Unstoppable
  fails : ∃ below w f s g, m.Holds below w f s ∧
    (∀ raising, s = .starting raising → ∃ o, f.resumeOffset = .ok o) ∧
    (m.step host).Holds below w g (.leaving (.error e))

/-- Frames above one that was put on the chain from outside wait for each other. -/
theorem Holds.nested (h : m.Holds [] w f s) (hw : w.waiting = .outside) : Nested m.chain := by
  obtain ⟨above, hc, ha, -⟩ := h.split
  rw [hc]
  clear hc
  induction above with
  | nil => exact .outermost f hw
  | cons a above ih =>
    rw [List.forall_mem_cons] at ha
    exact .above a.frame ha.1 (ih ha.2)

/-- **A run that breaks** is one whose chain collapses. -/
theorem Breaks.collapses (hb : m.Breaks host e) (hn : Nested (m.step host).chain) :
    (m.step host).Collapses e := by
  obtain ⟨below, w, f, s, g, hm, hs, hm'⟩ := hb.fails
  have hg : (m.step host).Stands below w (g, .leaving (.error e)) := hm'.stands rfl
  refine ⟨hn, (Option.some.inj hg.control).symm, hb.unstoppable, ?_⟩
  rcases hm.step host with ⟨result, rfl⟩ | ⟨given, p, hmove, hp, -⟩
  · exact absurd hm' hm.not_leaving
  · obtain ⟨rfl, hl⟩ := hp.unique hm'
    rw [hg.chain]
    rintro a ⟨⟩
    exact hmove.emptied hs hl

/-- An instruction that is dispatched and fails with no exception breaks the run with that very
failure. -/
theorem breaks_of_execute {o : Nat} {i : Instruction} {m' : Machine σ} {l : Local}
    (h : m.Stands below w (f, .before o)) (hd : m.dispatch host o = m'.perform host ⟨g, w⟩ i)
    (hc : m'.chain = ⟨g, w⟩ :: below) (he : e.Unstoppable)
    (hx : (Exec.execute m'.currentException i).run ⟨g, m'.heap⟩ = .error e l) :
    m.Breaks host e := by
  have hf : m'.perform host ⟨g, w⟩ i = ((m'.announced host g i).executed l).fail e := by
    rw [perform_of_error m' w hx]
    cases e with
    | raised r => exact absurd rfl (he r)
    | _ => rfl
  have hs : (m.step host).Stands below w (l.frame.failing e) := by
    rw [h.step_before host, hd, hf]
    exact fail_stands (chain_executed host hc i l) e
  exact ⟨he, below, w, f, _, _, .innermost h, nofun, .innermost hs⟩

/-- A dispatch that the budget refuses breaks the run. -/
theorem breaks_of_refused {o : Nat} {l : LimitError} (h : m.Stands below w (f, .before o))
    (hb : m.budget.dispatch.1 = .error l) (hl : l.toFailure.Unstoppable) :
    m.Breaks host l.toFailure := by
  have hd : m.dispatch host o = fail { m with budget := m.budget.dispatch.2 } l.toFailure := by
    unfold dispatch
    rw [h.chain]
    dsimp only
    cases hdispatch : m.budget.dispatch with
    | mk admitted budget =>
      rw [hdispatch] at hb
      cases hb
      rfl
  have hs : (m.step host).Stands below w (f.failing l.toFailure) := by
    rw [h.step_before host, hd]
    exact fail_stands (m := { m with budget := m.budget.dispatch.2 }) h.chain _
  exact ⟨hl, below, w, f, _, _, .innermost h, nofun, .innermost hs⟩

end Machine

/-! ### What clients are handed -/

namespace Session

variable {host : Host σ} {fuel k : Nat} {c c' : Context σ} {n : Machine σ}
  {owner : Option (Ref .generator)} {f : Frame} {e : Failure}

/-- What a client calls in a context runs a frame: the machine that runs it, and the generator that
owns the frame if one does. -/
inductive Runs (host : Host σ) (fuel : Nat) : {α : Type} → Session σ (Except Failure α) →
    Context σ → Machine σ → Option (Ref .generator) → Prop
  | frame {c : Context σ} {f : Frame} (input : Option Value) (raising : Option Raised) :
    Runs host fuel (Prod.snd <$> runFrame host fuel f input raising) c
      (machine host c f input raising) none
  | evaluate {c : Context σ} {f : Frame} (hf : f.code.body.flags.generator = false) :
    Runs host fuel (evaluate host fuel f) c (machine host c f none none) none
  | code {c : Context σ} {code : CodeObject} {globals : Ref .mapping} {f : Frame} {heap : Heap}
      (hc : Frame.create code globals Heap.defaultBuiltins [] c.heap = .ok (f, heap))
      (hf : f.code.body.flags.generator = false) :
    Runs host fuel (runCode host fuel code globals) c (machine host { c with heap } f none none)
      none
  | send {c : Context σ} {r : Ref .generator} {v : Value} {f : Frame} {heap : Heap}
      (ht : c.heap.takeFrame r (!v.isNone) = .ok (f, heap)) :
    Runs host fuel (send host fuel r v) c
      (machine host { c with heap } f (f.input (some v)) none) (some r)
  | throwInto {c : Context σ} {r : Ref .generator} {error : Raised} {f : Frame} {heap : Heap}
      (hs : (c.heap.generatorAt r).state = .suspended)
      (ht : c.heap.takeFrame r false = .ok (f, heap)) :
    Runs host fuel (throwInto host fuel r error) c
      (machine host { c with heap } f none (some error)) (some r)
  | close {c : Context σ} {r : Ref .generator} {f : Frame} {heap : Heap}
      (hs : (c.heap.generatorAt r).state = .suspended)
      (ht : c.heap.takeFrame r false = .ok (f, heap)) :
    Runs host fuel (close host fuel r) c
      (machine host { c with heap } f none (some (Raised.bare .generatorExit))) (some r)
  | chain {c : Context σ} {f : Frame} (callers : List Frame) :
    Runs host fuel (resumeChain host fuel (f :: callers)) c (machine host c f none none) none
  | caller {c : Context σ} {f g : Frame} {outcome : Except Failure Value} {raising : Option Raised}
      (ha : afterCallee f outcome = .ok (g, raising)) (callers : List Frame) :
    Runs host fuel (resumeCallers host fuel (f :: callers) outcome) c
      (machine host c g none raising) none
  /-- A caller further down a chain is run. -/
  | later {c c' : Context σ} {n : Machine σ} {owner : Option (Ref .generator)} {f g : Frame}
      {callers : List Frame} {result : Except Failure FrameExit}
      (hx : execute host fuel f c = some ((g, result), c'))
      (hr : Runs host fuel (passOn host fuel callers result) c' n owner) :
    Runs host fuel (resumeChain host fuel (f :: callers)) c n owner
  | laterCaller {c c' : Context σ} {n : Machine σ} {owner : Option (Ref .generator)}
      {f g g' : Frame} {callers : List Frame} {outcome : Except Failure Value}
      {raising : Option Raised} {result : Except Failure FrameExit}
      (ha : afterCallee f outcome = .ok (g, raising))
      (hx : runFrame host fuel g none raising c = some ((g', result), c'))
      (hr : Runs host fuel (passOn host fuel callers result) c' n owner) :
    Runs host fuel (resumeCallers host fuel (f :: callers) outcome) c n owner

/-- While a machine runs a frame for a client, only the outermost frame was put there from
outside. -/
theorem nested_run {input : Option Value} {raising : Option Raised}
    (h : (Machine.run host k (machine host c f input raising)).isHalted = false) :
    Machine.Nested (Machine.run host k (machine host c f input raising)).chain := by
  rcases Machine.enter_cases host ({ c with chain := [], control := .start none } : Machine σ) f
    input raising .outside with ⟨stack, back, -, hs⟩ | ⟨error, he, -⟩
  · have hc : Machine.Carries host [] (f.entry .outside) (fun _ => True)
        (machine host c f input raising) _ _ _ := .entered (.innermost hs) fun _ _ => trivial
    rcases hc.run rfl k with ⟨g, t, hk⟩ | ⟨n, g, result, -, ho⟩
    · exact hk.held.1.nested rfl
    · rw [Machine.isHalted_of_outcome? ho] at h
      cases h
  · have hm : machine host c f input raising =
      { c with chain := [], control := .halted f (.error error) } := he
    rw [hm, Machine.run_of_halted rfl] at h
    cases h

/-- A run that breaks collapses with its next move. -/
theorem collapses_of_breaks {input : Option Value} {raising : Option Raised}
    (hb : (Machine.run host k (machine host c f input raising)).Breaks host e) :
    (Machine.run host (k + 1) (machine host c f input raising)).Collapses e := by
  have hs : Machine.run host (k + 1) (machine host c f input raising) =
      (Machine.run host k (machine host c f input raising)).step host := Machine.run_succ k _
  obtain ⟨_, _, _, _, _, -, -, hh⟩ := hb.fails
  rw [hs]
  refine hb.collapses ?_
  rw [← hs] at hh ⊢
  exact nested_run hh.not_halted

theorem Runs.machine {α : Type} {x : Session σ (Except Failure α)}
    (hr : Runs host fuel x c n owner) :
    ∃ c f input raising, n = machine host c f input raising := by
  induction hr with
  | later _ _ ih => exact ih
  | laterCaller _ _ _ ih => exact ih
  | _ => exact ⟨_, _, _, _, rfl⟩

/-- The callers of a frame are not run when it fails so. -/
theorem passOn_unstoppable (he : e.Unstoppable) (callers : List Frame) (c : Context σ) :
    passOn host fuel callers (.error e) c = some (.error e, c) := by
  cases callers with
  | nil => rfl
  | cons f callers =>
    refine resumeCallers_cons_error ?_
    cases e with
    | raised r => exact absurd rfl (he r)
    | _ => rfl

/-- Running a frame, and putting it back if a generator owns it. -/
theorem runSettled_eq {r : Ref .generator} {input : Option Value} {raising : Option Raised}
    {g : Frame} {result : Except Failure FrameExit}
    (h : runFrame host fuel f input raising c = some ((g, result), c')) :
    runSettled host fuel r f input raising c =
      some (result, { c' with heap := c'.heap.settle r g result }) := by
  show (runFrame host fuel f input raising c).bind _ = _
  rw [h]
  rfl

/-- **The client is handed the failure** with which the frame that was run for it leaves, if nothing
stops it. -/
theorem Runs.handed {α : Type} {x : Session σ (Except Failure α)} {g : Frame}
    (hr : Runs host fuel x c n owner) (he : e.Unstoppable)
    (ho : (Machine.run host fuel n).outcome? = some (g, .error e)) :
    x c = some (.error e, { (Machine.run host fuel n).toContext with
      heap := (Machine.run host fuel n).heap.returned owner g (.error e) }) := by
  have run (c : Context σ) (f : Frame) (input : Option Value) (raising : Option Raised)
      (ho : (Machine.run host fuel (Session.machine host c f input raising)).outcome? =
        some (g, .error e)) : runFrame host fuel f input raising c = some ((g, .error e),
        (Machine.run host fuel (Session.machine host c f input raising)).toContext) := by
    unfold runFrame
    dsimp only
    rw [ho]
    rfl
  have value (c : Context σ) (f : Frame) (hf : f.code.body.flags.generator = false)
      (ho : (Machine.run host fuel (Session.machine host c f none none)).outcome? =
        some (g, .error e)) : Session.evaluate host fuel f c = some (.error e,
        (Machine.run host fuel (Session.machine host c f none none)).toContext) := by
    unfold Session.evaluate
    rw [hf, if_neg Bool.false_ne_true]
    show (runFrame host fuel f none none c).bind _ = _
    rw [run _ _ _ _ ho]
    rfl
  induction hr with
  | @frame c f input raising =>
    show (runFrame host fuel f input raising c).bind _ = _
    rw [run _ _ _ _ ho]
    rfl
  | evaluate hf => exact value _ _ hf ho
  | @code c code globals f heap hc hf =>
    have hm : (makeFrame code globals Heap.defaultBuiltins [] : Session σ _).run c =
        some (.ok f, { c with heap }) := by
      rw [makeFrame, StateT.run_bind, run_getHeap, Option.bind_eq_bind, Option.bind_some]
      dsimp only
      rw [hc]
      rfl
    show (StateT.run (makeFrame code globals Heap.defaultBuiltins []) c).bind _ = _
    rw [hm]
    exact value _ _ hf ho
  | send ht =>
    rw [send_eq ht]
    exact runSettled_eq (run _ _ _ _ ho)
  | throwInto hs ht =>
    rw [throwInto_eq hs ht]
    exact runSettled_eq (run _ _ _ _ ho)
  | @close c r f heap hs ht =>
    -- what is thrown in is let pass if it is an exception, and this failure is none
    have hthrow : StateT.run (Session.throwInto host fuel r (Raised.bare .generatorExit)) c = _ :=
      (throwInto_eq hs ht).trans (runSettled_eq (run _ _ _ _ ho))
    show StateT.run (Session.close host fuel r) c = _
    rw [Session.close, StateT.run_bind, run_getHeap, Option.bind_eq_bind, Option.bind_some]
    dsimp only
    rw [hs]
    dsimp only
    rw [StateT.run_bind, hthrow, Option.bind_eq_bind, Option.bind_some]
    dsimp only
    rw [he.not_caught, he.not_caught]
    rfl
  | chain callers =>
    rw [resumeChain_cons, execute, run _ _ _ _ ho]
    exact passOn_unstoppable he callers _
  | caller ha callers =>
    rw [resumeCallers_cons ha, run _ _ _ _ ho]
    exact passOn_unstoppable he callers _
  | later hx _ ih =>
    rw [resumeChain_cons, hx]
    exact ih ho
  | laterCaller ha hx _ ih =>
    rw [resumeCallers_cons ha, hx]
    exact ih ho

/-- **A run that breaks** executes nothing any more: no handler, no loop and no waiting client stops
the failure.  The frames on the chain leave with it one after the other, finished and empty, whoever
has asked for the run is handed that very failure, and by then every generator whose frame was on
the chain has failed.  The bound on its reference says that it is a generator of the heap, as those
are whose frames a run has taken (`Heap.Keeps.executing`). -/
theorem Runs.breaks {α : Type} {x : Session σ (Except Failure α)}
    (hr : Runs host fuel x c n owner) (hb : (Machine.run host k n).Breaks host e)
    (hfuel : k + 1 + (Machine.run host (k + 1) n).depth ≤ fuel) :
    (Machine.run host (k + 1) n).ComesDown host owner e ∧ ∃ c', x c = some (.error e, c') ∧
      ∀ r ∈ (Machine.run host (k + 1) n).executing owner,
        r.index < (Machine.run host (k + 1) n).heap.generators.size → c'.heap.Failed r := by
  have hm : (Machine.run host (k + 1) n).Collapses e := by
    obtain ⟨c, f, input, raising, rfl⟩ := hr.machine
    exact collapses_of_breaks hb
  have hdown := hm.comesDown host owner
  refine ⟨hdown, ?_⟩
  obtain ⟨g, ho, -, hfailed⟩ := hdown.halts
  rw [← Machine.run_add] at ho hfailed
  have hlast := Machine.run_of_outcome? ho hfuel
  refine ⟨_, hr.handed hb.unstoppable (hlast ▸ ho), fun r hx hs => ?_⟩
  show ((Machine.run host fuel n).heap.returned owner g (.error e)).Failed r
  rw [hlast]
  exact hfailed r hx hs

end Session

/-- The code of a generator that fails at its first instruction: it has nothing to return. -/
def brokenCode : CodeObject where
  identity := 1
  body :=
    { name := "broken"
      flags := { optimized := true, newLocals := true, generator := true }
      bytecode := [Opcode.returnValue.byte]
      maxStack := 1
      firstLine := 1 }

/-- The code of a loop whose block is handled by returning what made the handler start. -/
def loopingCode : CodeObject where
  identity := 2
  body :=
    { name := "looping"
      bytecode := [Opcode.forIter.byte, 0, 0, Opcode.returnValue.byte]
      maxStack := 4
      firstLine := 1 }

/-- A frame about to advance the first generator in such a loop. -/
def loopingFrame : Frame where
  code := loopingCode
  globals := ⟨0⟩
  builtins := Heap.defaultBuiltins
  locals := .dict ⟨0⟩
  cells := []
  stack := ((OperandStack.empty 4).pushAll [.generator ⟨0⟩]).2
  blocks := [⟨.cleanup, 3, 0⟩]
  trace := { line := 1 }

/-- A context whose first generator fails. -/
def brokenContext : Context Unit :=
  { Machine.idle.toContext with
    heap := (Heap.initial.newGeneratorOf
      { code := brokenCode
        globals := ⟨0⟩
        builtins := Heap.defaultBuiltins
        locals := .fast []
        cells := []
        stack := .empty 1
        trace := { line := 1 } }).2 }

/-- The handler around the loop is not started, and the generator has failed. -/
theorem loopingFrame_breaks : ∃ c',
    Session.evaluate Host.silent 6 loopingFrame brokenContext =
        some (.error (.fatal .stackUnderflow), c') ∧
      c'.heap.Failed ⟨0⟩ := by
  let n := Session.machine Host.silent brokenContext loopingFrame none none
  have hb : (n.run Host.silent 3).Breaks Host.silent (.fatal .stackUnderflow) :=
    ⟨nofun, _, _, _, .before 0, _, .innermost ⟨rfl, rfl⟩, nofun, .innermost ⟨rfl, rfl⟩⟩
  obtain ⟨-, c', hc, hf⟩ := Session.Runs.breaks (.evaluate rfl) hb (Nat.le_refl 6)
  exact ⟨c', hc, hf ⟨0⟩ (by decide) (by decide)⟩

end Resumable
