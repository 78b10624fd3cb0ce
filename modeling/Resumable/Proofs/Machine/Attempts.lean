import Resumable.Proofs.Machine.Chains
import Resumable.Proofs.Machine.Moments

/-!
# Resuming a generator in vain

An attempt to resume a generator may fail before any instruction of its frame is executed.  If the
generator gives out no frame, because of its state or because it refuses the value sent, then
nothing has happened, and the attempt can be repeated.

Once the frame is out, the generator is done, whatever stops the frame: one frame more is too many,
the value sent does not fit, the frame does not know where to go on, or the budget is used up.
`Frame.Unrun` lists these cases with the frame that is put back, which in the first two is the one
taken out.  `Machine.resumed_in_vain` says so of sending and of loops.
-/

namespace Resumable

variable {σ : Type} {host : Host σ} {ends : Generator.Ending → Prop}

namespace Machine

/-- The next step executes an instruction of the innermost frame. -/
def Executes (host : Host σ) (m : Machine σ) : Prop :=
  ∃ g o i, m.decodes? host = some (g, o) ∧ Instruction.decode g.code.body.bytecode o = .ok i

/-- In the run from `m₀`, no instruction is executed of the frame right above the frames `below`. -/
def Skips (host : Host σ) (below : List Activation) (w : Entry) (m₀ : Machine σ) : Prop :=
  ∀ m f o, Carries host below w (fun _ => True) m₀ m f (.before o) → ¬m.Executes host

end Machine

/-- What stops a frame that is to be resumed, with `depth` frames on the chain, before an
instruction of it is executed, and the frame as it is handed back. -/
inductive Frame.Unrun (host : Host σ) (b : Budget) (depth : Nat) (f : Frame)
    (input : Option Value) : Failure → Frame → Prop
  /-- One frame more is too many. -/
  | barred {l : LimitError} (hb : b.checkDepth depth = .error l) :
    Unrun host b depth f input l.toFailure f
  /-- The value sent does not fit on the stack. -/
  | unfit {v : Value} {fault : Fault} (hb : b.checkDepth depth = .ok ()) (hi : input = some v)
      (hp : f.stack.push v = .error fault) : Unrun host b depth f input (.fatal fault) f
  /-- The frame does not know where to go on. -/
  | lost {stack : OperandStack} {fault : Fault} (hb : b.checkDepth depth = .ok ())
      (ha : f.Admits input stack) (ho : f.resumeOffset = .error fault) :
    Unrun host b depth f input (.fatal fault) { f with stack, back := none }
  /-- The budget is used up. -/
  | spent {stack : OperandStack} {o : Nat} {l : LimitError} (hb : b.checkDepth depth = .ok ())
      (ha : f.Admits input stack) (ho : f.resumeOffset = .ok o)
      (hl : b.dispatch.1 = .error l) :
    Unrun host b depth f input l.toFailure { { f with stack }.finish with back := none }
  /-- There is no instruction where the frame goes on, once its line has been followed. -/
  | undecoded {stack : OperandStack} {back : Option Nat} {o o' : Nat} {g : Frame} {fault : Fault}
      (hb : b.checkDepth depth = .ok ()) (ha : f.Admits input stack)
      (ho : f.resumeOffset = .ok o) (hl : b.dispatch.1 = .ok ())
      (ht : Traced host { f with stack, back } o g o')
      (hd : Instruction.decode g.code.body.bytecode o' = .error fault) :
    Unrun host b depth f input (.fatal fault) { g.finish with back := none }

namespace Machine

variable {m : Machine σ} {f : Frame} {w : Entry} {rest : List Activation} {input : Option Value}

theorem leavesRunning_traceLine (hh : host.LeavesRunning ends) (m : Machine σ) (a : Activation)
    (o : Nat) : m.heap.LeavesRunning ends (m.traceLine host a o).1.heap := by
  obtain ⟨heap, state, g, o', hl, ht⟩ := traceLine_lined host m a o
  rw [ht]
  cases hl with
  | silent => exact (Heap.AddsGenerators.refl _).leavesRunning
  | told line => exact (Heap.AddsGenerators.refl _).leavesRunning
  | hooked hook line hf hr =>
    subst hr
    exact hh _ _ _ _ _

/-- Dispatching executes nothing if the budget refuses or nothing can be decoded. -/
theorem dispatch_unexecuted (hh : host.LeavesRunning ends) {o : Nat}
    (h : m.Stands rest w (f, .before o)) (hx : ¬m.Executes host) :
    (∃ (l : LimitError) (m' : Machine σ), m.budget.dispatch.1 = .error l ∧
      m.step host = m'.fail l.toFailure ∧ m'.chain = ⟨f, w⟩ :: rest ∧ m'.heap = m.heap) ∨
    ∃ (g : Frame) (o' : Nat) (fault : Fault) (m' : Machine σ),
      m.budget.dispatch.1 = .ok () ∧ Frame.Traced host f o g o' ∧
      Instruction.decode g.code.body.bytecode o' = .error fault ∧
      m.step host = m'.fail (.fatal fault) ∧ m'.chain = ⟨g, w⟩ :: rest ∧
      m.heap.LeavesRunning ends m'.heap := by
  rw [h.step_before host]
  obtain ⟨⟨heap, budget, state⟩, chain, control⟩ := m
  have hc := h.chain
  have hk := h.control
  subst hc
  cases hk
  unfold dispatch
  unfold Executes decodes? lined? at hx
  dsimp only at hx ⊢
  -- the budget is asked before the line is followed, and only then anything is decoded
  cases hb : budget.dispatch with
  | mk admitted budget' =>
    rw [hb] at hx
    cases admitted with
    | error l => exact .inl ⟨l, _, rfl, rfl, rfl, rfl⟩
    | ok u =>
      let n : Machine σ := ⟨⟨heap, budget', state⟩, ⟨f, w⟩ :: rest, .dispatch o⟩
      obtain ⟨ht, hchain, -⟩ := traceLine_spec host n ⟨f, w⟩ o
      have hheap := leavesRunning_traceLine hh n ⟨f, w⟩ o
      dsimp only at hx ⊢
      cases hd : Instruction.decode (n.traceLine host ⟨f, w⟩ o).2.1.code.body.bytecode
          (n.traceLine host ⟨f, w⟩ o).2.2 with
      | ok i => exact absurd ⟨_, _, i, rfl, hd⟩ hx
      | error fault =>
        refine .inr ⟨_, _, fault, _, rfl, ht, hd, rfl, setFrame_chain hchain _, ?_⟩
        rw [heap_setFrame]
        exact hheap

theorem step_fail (host : Host σ) (hc : m.chain = ⟨f, w⟩ :: rest) (e : Failure) :
    ∃ m' : Machine σ, (m.fail e).step host =
        m'.deliver host w.waiting { f.finish with back := none } (.error e) ∧
      m'.chain = rest ∧ m'.heap = m.heap :=
  ⟨(m.fail e).popped host w rest (.error e), step_of_leaving host (fail_stands hc e), rfl,
    heap_fail m e⟩

theorem enter_unrun_or (m : Machine σ) (f : Frame) (input : Option Value) (v : Waiting) :
    (∃ stack, m.budget.checkDepth m.depth = .ok () ∧ f.Admits input stack ∧
      m.enter host f input none v = m.pushed host f stack none v) ∨
    ∃ e, f.Unrun host m.budget m.depth input e f ∧
      m.enter host f input none v = m.deliver host v f (.error e) := by
  unfold enter
  cases hb : m.budget.checkDepth m.depth with
  | error l => exact .inr ⟨_, .barred hb, rfl⟩
  | ok u =>
    cases input with
    | none => exact .inl ⟨f.stack, rfl, rfl, rfl⟩
    | some x =>
      dsimp only
      cases hp : f.stack.push x with
      | ok stack => exact .inl ⟨stack, rfl, hp, rfl⟩
      | error fault => exact .inr ⟨_, .unfit hb rfl hp, rfl⟩

theorem start_unraised (host : Host σ) (h : m.Stands rest w (f, .starting none)) :
    (∃ fault, f.resumeOffset = .error fault ∧
      m.step host = { m with control := .leave (.error (.fatal fault)) }) ∨
    ∃ o, f.resumeOffset = .ok o ∧ m.step host = m.goTo o := by
  rw [h.step_starting host]
  unfold start
  rw [h.chain]
  dsimp only
  cases f.resumeOffset with
  | error fault => exact .inl ⟨fault, rfl, rfl⟩
  | ok o => exact .inr ⟨o, rfl, rfl⟩

/-- **A frame that is entered in vain** is handed back with a failure. -/
theorem enter_unrun (hh : host.LeavesRunning ends) {v : Waiting}
    (hs : (m.enter host f input none v).Skips host m.chain (f.entry v)) :
    ∃ k e g m', f.Unrun host m.budget m.depth input e g ∧
      run host k (m.enter host f input none v) = deliver host m' v g (.error e) ∧
      m'.chain = m.chain ∧ m.heap.LeavesRunning ends m'.heap := by
  rcases enter_unrun_or m f input v with ⟨stack, hb, ha, he⟩ | ⟨e, hu, he⟩
  case inr => exact ⟨0, e, f, m, hu, he, rfl, (Heap.AddsGenerators.refl _).leavesRunning⟩
  rw [he] at hs ⊢
  -- the frame is on the chain, and its first step says whether it is about to run
  let n := m.pushed host f stack none v
  obtain ⟨back, hstart⟩ : ∃ back,
      n.Stands m.chain (f.entry v) ({ f with stack, back }, .starting none) := ⟨_, rfl, rfl⟩
  have hrun (k : Nat) : run host (k + 1) n = (run host k n).step host := run_succ k n
  rcases start_unraised host hstart with ⟨fault, ho, hn⟩ | ⟨o, ho, hn⟩
  · -- the frame leaves as it was entered
    have hlost : (n.step host).Stands m.chain (f.entry v)
        ({ f with stack, back }, .leaving (.error (.fatal fault))) := by
      rw [hn]
      exact ⟨hstart.chain, rfl⟩
    refine ⟨2, _, _, (n.step host).popped host (f.entry v) m.chain
      (.error (.fatal fault)), .lost hb ha ho, ?_, rfl, ?_⟩
    · rw [hrun, hrun, run, step_of_leaving host hlost]
      rfl
    · show m.heap.LeavesRunning ends (n.step host).heap
      rw [hn]
      exact (Heap.AddsGenerators.refl _).leavesRunning
  · -- the frame is about to execute an instruction, but does not
    have hbefore : (n.step host).Stands m.chain (f.entry v)
        ({ f with stack, back }, .before o) := by
      rw [hn]
      exact ⟨hstart.chain, rfl⟩
    have hx : ¬(n.step host).Executes host := by
      refine hs _ _ _ (.step (.entered (.innermost hstart) fun _ _ => trivial)
        (.innermost hbefore) fun _ _ => trivial)
    have hkept : (n.step host).heap = m.heap ∧ (n.step host).budget = m.budget := by
      rw [hn]
      exact ⟨rfl, rfl⟩
    rcases dispatch_unexecuted hh hbefore hx with
      ⟨l, m', hl, hm, hc, hheap⟩ | ⟨g, o', fault, m', hl, ht, hd, hm, hc, hheap⟩
    · obtain ⟨m'', hm', hc', hheap'⟩ := step_fail host hc l.toFailure
      rw [hkept.2] at hl
      refine ⟨3, _, _, m'', .spent hb ha ho hl, ?_, hc', ?_⟩
      · rw [hrun, hrun, hrun, run, hm, hm']
        rfl
      · rw [hheap', hheap, hkept.1]
        exact (Heap.AddsGenerators.refl _).leavesRunning
    · obtain ⟨m'', hm', hc', hheap'⟩ := step_fail host hc (.fatal fault)
      rw [hkept.2] at hl
      refine ⟨3, _, _, m'', .undecoded hb ha ho hl ht hd, ?_, hc', ?_⟩
      · rw [hrun, hrun, hrun, run, hm, hm']
        rfl
      · rw [hheap', ← hkept.1]
        exact hheap

end Machine

/-! ### Generators -/

namespace Heap

variable {h h' : Heap} {r : Ref .generator} {f g : Frame}

theorem takeFrame_terminal (hs : (h.generatorAt r).state.isTerminal = true) (sending : Bool) :
    h.takeFrame r sending = .error (.raised (Raised.bare .stopIteration)) := by
  unfold takeFrame
  dsimp only
  cases hg : (h.generatorAt r).state <;> rw [hg] at hs <;> first | rfl | cases hs

/-- The frame of a generator is put back with a failure: the generator is done, and gives out no
frame any more. -/
structure Spent (h h' : Heap) (r : Ref .generator) (g : Frame) : Prop where
  generator : h'.generatorAt r = ⟨.errored, (h.generatorAt r).name, some g⟩
  refuses : ∀ sending, h'.takeFrame r sending = .error (.raised (Raised.bare .stopIteration))

theorem spent_settle {taken : Heap} {sending : Bool} (ht : h.takeFrame r sending = .ok (f, taken))
    (hh : taken.LeavesRunning ends h') (g : Frame) (e : Failure) :
    h.Spent (h'.settle r g (.error e)) r g := by
  obtain ⟨hg, rfl⟩ := takeFrame_eq_ok ht
  have hr : r.index < h.generators.size := by
    refine lt_of_not_terminal ?_
    obtain ⟨name, hg | hg⟩ := hg <;> rw [hg] <;> rfl
  -- while its frame is out the generator counts as running, and hooks leave it so
  have hrunning := generatorAt_setGenerator_self hr ⟨.running, (h.generatorAt r).name, none⟩
  have hsize : r.index <
      (h.setGenerator r ⟨.running, (h.generatorAt r).name, none⟩).generators.size := by
    rwa [size_setGenerator]
  have hkept := hh.running r hsize (by rw [hrunning])
  rw [hrunning] at hkept
  have hput : (h'.settle r g (.error e)).generatorAt r =
      ⟨.errored, (h.generatorAt r).name, some g⟩ := by
    unfold settle
    rw [generatorAt_setGenerator_self (Nat.lt_of_lt_of_le hsize hh.size), hkept]
    rfl
  exact ⟨hput, fun sending => takeFrame_terminal (by rw [hput]; rfl) sending⟩

end Heap

namespace Session

variable {fuel : Nat} {c c' : Context σ} {r : Ref .generator} {v : Value} {e : Failure}

theorem send_refused (ht : c.heap.takeFrame r (!v.isNone) = .error e) :
    send host fuel r v c = some (.error e, c) := by
  show StateT.run (send host fuel r v) c = _
  rw [send, StateT.run_bind, run_getHeap, Option.bind_eq_bind, Option.bind_some]
  dsimp only
  rw [ht]
  rfl

theorem send_unrun (hh : host.LeavesRunning ends) (h : send host fuel r v c = some (.error e, c'))
    (hs : ∀ f heap, c.heap.takeFrame r (!v.isNone) = .ok (f, heap) →
      (machine host { c with heap } f (f.input (some v)) none).Skips host []
        (f.entry .outside)) :
    (c.heap.takeFrame r (!v.isNone) = .error e ∧ c' = c) ∨
    ∃ f heap g, c.heap.takeFrame r (!v.isNone) = .ok (f, heap) ∧
      f.Unrun host c.budget 0 (f.input (some v)) e g ∧ c.heap.Spent c'.heap r g := by
  cases ht : c.heap.takeFrame r (!v.isNone) with
  | error e' =>
    rw [send_refused ht] at h
    cases h
    exact .inl ⟨rfl, rfl⟩
  | ok taken =>
    obtain ⟨f, heap⟩ := taken
    refine .inr ⟨f, heap, ?_⟩
    rw [send_eq ht] at h
    obtain ⟨⟨⟨g, result⟩, c₁⟩, hr, hset⟩ := Option.bind_eq_some_iff.1 h
    obtain ⟨rfl, rfl⟩ := Prod.mk.inj (Option.some.inj hset)
    obtain ⟨p, ho, hp⟩ := Option.map_eq_some_iff.1 hr
    obtain ⟨rfl, rfl⟩ := Prod.mk.inj hp
    let idle : Machine σ := { c with heap, chain := [], control := .start none }
    have hskips : (idle.enter host f (f.input (some v)) none .outside).Skips host idle.chain
        (f.entry .outside) := hs f heap ht
    obtain ⟨k, e', g', m', hu, hk, -, hleaves⟩ := Machine.enter_unrun hh hskips
    have hhalt : (Machine.run host k
        (machine host { c with heap } f (f.input (some v)) none)).outcome? =
          some (g', .error e') := by
      show (Machine.run host k (idle.enter host f (f.input (some v)) none .outside)).outcome? = _
      rw [hk]
      rfl
    -- the run that was made halts with the frame handed back here
    have hsame := Machine.run_eq_of_outcome? ho hhalt
    rw [hsame, hhalt] at ho
    obtain ⟨rfl, he⟩ := Prod.mk.inj (Option.some.inj ho)
    cases he
    refine ⟨g', rfl, hu, ?_⟩
    show c.heap.Spent (Heap.settle _ r g' (.error e)) r g'
    rw [hsame]
    show c.heap.Spent (Heap.settle
      (Machine.run host k (idle.enter host f (f.input (some v)) none .outside)).heap r g' _) r g'
    rw [hk]
    exact Heap.spent_settle ht hleaves g' e

end Session

theorem Machine.advance_unrun {m : Machine σ} {r : Ref .generator} {i : Instruction}
    (hh : host.LeavesRunning ends) (hs : ∀ f heap, m.heap.takeFrame r false = .ok (f, heap) →
      (m.follow host i (.advance r)).Skips host m.chain (f.entry (.loop r i))) :
    (∃ e, m.heap.takeFrame r false = .error e ∧
      m.follow host i (.advance r) = m.failLoop host i e) ∨
    ∃ f heap e g k m', m.heap.takeFrame r false = .ok (f, heap) ∧
      f.Unrun host m.budget m.depth (f.input none) e g ∧
      run host k (m.follow host i (.advance r)) = failLoop host m' i e ∧
      m'.chain = m.chain ∧ m.heap.Spent m'.heap r g := by
  unfold follow at hs ⊢
  dsimp only at hs ⊢
  cases ht : m.heap.takeFrame r false with
  | error e => exact .inl ⟨e, rfl, rfl⟩
  | ok taken =>
    obtain ⟨f, heap⟩ := taken
    have hs := hs f heap ht
    rw [ht] at hs
    obtain ⟨k, e, g, m', hu, hk, hc, hleaves⟩ := enter_unrun (m := { m with heap }) hh hs
    exact .inr ⟨f, heap, e, g, k, { m' with heap := m'.heap.settle r g (.error e) }, rfl, hu, hk,
      hc, Heap.spent_settle ht hleaves g e⟩

/-- **A generator that is resumed in vain**, by sending it a value or in a loop, so that no
instruction of its frame is executed.  Either it gives out no frame, because of its state or of the
value; then nothing has changed, and doing the same again comes to the same.  Or its frame is
stopped on the way; then the generator is done although its frame has not run, and nothing resumes
it any more. -/
theorem resumed_in_vain (hh : host.LeavesRunning ends) (r : Ref .generator) :
    (∀ fuel v (c c' : Context σ) e, Session.send host fuel r v c = some (.error e, c') →
      (∀ f heap, c.heap.takeFrame r (!v.isNone) = .ok (f, heap) →
        (Session.machine host { c with heap } f (f.input (some v)) none).Skips host []
          (f.entry .outside)) →
      (c.heap.takeFrame r (!v.isNone) = .error e ∧ c' = c) ∨
      ∃ f heap g, c.heap.takeFrame r (!v.isNone) = .ok (f, heap) ∧
        f.Unrun host c.budget 0 (f.input (some v)) e g ∧ c.heap.Spent c'.heap r g) ∧
    ∀ (m : Machine σ) i,
      (∀ f heap, m.heap.takeFrame r false = .ok (f, heap) →
        (m.follow host i (.advance r)).Skips host m.chain (f.entry (.loop r i))) →
      (∃ e, m.heap.takeFrame r false = .error e ∧
        m.follow host i (.advance r) = m.failLoop host i e) ∨
      ∃ f heap e g k m', m.heap.takeFrame r false = .ok (f, heap) ∧
        f.Unrun host m.budget m.depth (f.input none) e g ∧
        Machine.run host k (m.follow host i (.advance r)) = Machine.failLoop host m' i e ∧
        m'.chain = m.chain ∧ m.heap.Spent m'.heap r g :=
  ⟨fun _ _ _ _ _ h hs => Session.send_unrun hh h hs, fun _ _ hs => Machine.advance_unrun hh hs⟩

/-! ### No room for a frame -/

/-- Nothing is executed of a frame that is not on the chain. -/
theorem Machine.skips_of_not_held {m₀ : Machine σ} {below : List Activation} {w : Entry}
    (h : ∀ f s, ¬m₀.Holds below w f s) : m₀.Skips host below w := by
  have never {m : Machine σ} {f : Frame} {s : Standing}
      (hc : Carries host below w (fun _ => True) m₀ m f s) : False := by
    induction hc with
    | entered hh _ => exact h _ _ hh
    | step _ _ _ ih => exact ih
  exact fun _ _ _ hc => (never hc).elim

theorem Machine.enter_barred {m : Machine σ} {f : Frame} {input : Option Value}
    {raising : Option Raised} {w : Waiting} {l : LimitError}
    (hb : m.budget.checkDepth m.depth = .error l) :
    m.enter host f input raising w = m.deliver host w f (.error l.toFailure) := by
  unfold enter
  rw [hb]

theorem Session.machine_barred (host : Host σ) {c : Context σ} {l : LimitError}
    (hb : c.budget.checkDepth 0 = .error l) (f : Frame) (input : Option Value)
    (raising : Option Raised) : machine host c f input raising =
      { c with chain := [], control := .halted f (.error l.toFailure) } :=
  Machine.enter_barred (m := { c with chain := [], control := .start none }) hb

theorem Session.send_barred (host : Host σ) (fuel : Nat) {c : Context σ} {r : Ref .generator}
    {v : Value} {f : Frame} {heap : Heap} {l : LimitError}
    (ht : c.heap.takeFrame r (!v.isNone) = .ok (f, heap))
    (hb : c.budget.checkDepth 0 = .error l) :
    send host fuel r v c = some (.error l.toFailure,
      { c with heap := heap.settle r f (.error l.toFailure) }) := by
  have hm := machine_barred host (c := { c with heap }) hb f (f.input (some v)) none
  have hr : runFrame host fuel f (f.input (some v)) none { c with heap } =
      some ((f, .error l.toFailure), { c with heap }) := by
    unfold runFrame
    rw [hm, Machine.run_of_halted rfl]
    rfl
  rw [send_eq ht]
  show (runFrame host fuel f (f.input (some v)) none { c with heap } >>= _) = _
  rw [hr]
  rfl

/-- The context with a generator that has not started, and no room for a frame. -/
def narrowContext : Context Unit :=
  { yieldingContext with budget := .limited { maxDepth := some 0 } 0 }

/-- The generator that would yield is done after it was resumed without room for its frame, which
has not run and is not finished.  With room for it, nothing resumes it any more. -/
theorem narrowContext_resumed_in_vain :
    ∃ c' g, Session.send Host.silent 10 ⟨0⟩ .none narrowContext =
        some (.error (LimitError.depth 0).toFailure, c') ∧
      c'.heap.generatorAt ⟨0⟩ = ⟨.errored, "yielding", some g⟩ ∧ g.finished = false ∧
      Session.send Host.silent 10 ⟨0⟩ .none { c' with budget := .unlimited } =
        some (.error (.raised (Raised.bare .stopIteration)), { c' with budget := .unlimited }) := by
  obtain ⟨f₀, heap₀, ht₀, hf₀⟩ : ∃ f heap, narrowContext.heap.takeFrame ⟨0⟩ false = .ok (f, heap) ∧
      f.finished = false := ⟨_, _, rfl, rfl⟩
  have hb : narrowContext.budget.checkDepth 0 = .error (.depth 0) := rfl
  have hs := Session.send_barred Host.silent 10 (v := .none) ht₀ hb
  have hleaves : Host.silent.LeavesRunning fun _ => False :=
    fun _ _ _ h _ => (Heap.AddsGenerators.refl h).leavesRunning
  have hskips (f : Frame) (heap : Heap) :
      (Session.machine Host.silent { narrowContext with heap } f (f.input (some .none)) none).Skips
        Host.silent [] (f.entry .outside) := by
    refine Machine.skips_of_not_held fun g s hh => ?_
    have hm := Session.machine_barred Host.silent (c := { narrowContext with heap }) hb f
      (f.input (some .none)) none
    obtain ⟨above, hc, -⟩ := hh.split
    have hn := (congrArg Machine.chain hm).symm.trans hc
    exact absurd hn.symm (List.append_ne_nil_of_right_ne_nil _ (List.cons_ne_nil _ _))
  rcases (resumed_in_vain hleaves ⟨0⟩).1 10 .none narrowContext _ _ hs fun f heap _ => hskips f heap
    with ⟨ht, -⟩ | ⟨f, heap, g, ht, hu, hspent⟩
  · cases ht₀.symm.trans ht
  · cases ht₀.symm.trans ht
    -- of all that may stop a frame, this one can only be barred
    have hg : g = f₀ := by
      generalize hl : (LimitError.depth 0).toFailure = e at hu
      cases hu with
      | barred _ => rfl
      | _ hb' => cases hb.symm.trans hb'
    subst hg
    exact ⟨_, g, hs, hspent.generator, hf₀, Session.send_refused (hspent.refuses false)⟩

end Resumable
