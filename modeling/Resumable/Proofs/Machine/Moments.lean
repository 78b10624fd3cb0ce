import Resumable.Proofs.Machine.Alignment
import Resumable.Proofs.Machine.Generators
import Resumable.Proofs.Machine.Sessions

/-!
# Generators and the chain

Between two runs a client has a context, and while a frame runs there is a machine (`Moment`).  A
client makes generators, takes their frames out to run them, or ends them before they have started,
and a machine advances generators in its loops (`Moment.Next`).  Sending a value, throwing an
exception and closing are made of such steps, and each only ends generators in its own way.

At every moment the generators that execute are those whose frames are on the chain: that of the
frame the client runs, and those that loops wait for (`Machine.executing`).  `Machine.Orderly` is
what each step keeps, and `Moment.generators_governed` what follows for every generator.
-/

namespace Resumable

open Relation (ReflTransGen)

variable {σ : Type}

/-- The hooks of the host use generators as clients do: none that executes is changed, and all
others are at rest afterwards. -/
def Host.LeavesRunning (host : Host σ) (ends : Generator.Ending → Prop) : Prop :=
  ∀ hook line f (h : Heap) s, h.LeavesRunning ends (host.onLine hook line f h s).2.1

/-- The generator whose frame is on the chain; `owner` is that of the frame that a client runs. -/
def Waiting.runs? (owner : Option (Ref .generator)) : Waiting → Option (Ref .generator)
  | outside => owner
  | call _ => none
  | loop r _ => some r

/-- The frame is not done if it belongs to a generator. -/
def Activation.Live (owner : Option (Ref .generator)) (a : Activation) : Prop :=
  (a.waiting.runs? owner).isSome = true → a.frame.finished = false

namespace Machine

/-- The generators whose frames are on the chain, innermost first. -/
def executing (owner : Option (Ref .generator)) (m : Machine σ) : List (Ref .generator) :=
  m.chain.filterMap fun a => a.waiting.runs? owner

/-- Only the outermost frame of the chain was put there from outside. -/
inductive Nested : List Activation → Prop
  | outermost (f : Frame) {w : Entry} (hw : w.waiting = .outside) : Nested [⟨f, w⟩]
  | above (f : Frame) {w : Entry} {rest : List Activation} (hw : w.waiting ≠ .outside)
      (h : Nested rest) : Nested (⟨f, w⟩ :: rest)

variable {host : Host σ} {owner : Option (Ref .generator)} {m m' : Machine σ} {f g : Frame}
  {w : Entry} {v : Waiting} {rest : List Activation} {i : Instruction}
  {ends : Generator.Ending → Prop}

theorem Nested.replace (h : Nested (⟨f, w⟩ :: rest)) (g : Frame) : Nested (⟨g, w⟩ :: rest) := by
  cases h with
  | outermost _ hw => exact .outermost g hw
  | above _ hw h => exact .above g hw h

theorem Nested.eq_cons {chain : List Activation} (h : Nested chain) :
    ∃ f w rest, chain = ⟨f, w⟩ :: rest := by
  cases h <;> exact ⟨_, _, _, rfl⟩

/-- The generators that execute are those of the frames on the chain and in `pending`, and the
frames of generators are not done. -/
structure Tidy (owner : Option (Ref .generator)) (pending : Option (Ref .generator))
    (m : Machine σ) : Prop where
  keeps : m.heap.Keeps (pending.toList ++ m.executing owner)
  nested : Nested m.chain
  live : ∀ a ∈ m.chain, a.Live owner

/-- The same of a machine whose innermost frame may be about to leave. -/
structure Orderly (owner : Option (Ref .generator)) (m : Machine σ) : Prop where
  keeps : m.heap.Keeps (m.executing owner)
  nested : Nested m.chain
  stands : ∃ rest w p, m.Stands rest w p ∧
    ((w.waiting.runs? owner).isSome = true → p.1.Paced p.2) ∧
    ∀ a ∈ rest, a.Live owner

theorem executing_cons (hc : m.chain = ⟨f, w⟩ :: rest) :
    m.executing owner =
      (w.waiting.runs? owner).toList ++ rest.filterMap fun a => a.waiting.runs? owner := by
  unfold executing
  rw [hc, List.filterMap_cons, Activation.waiting_mk]
  cases w.waiting.runs? owner <;> rfl

theorem executing_replace (hc : m.chain = ⟨f, w⟩ :: rest) (hc' : m'.chain = ⟨g, w⟩ :: rest) :
    m'.executing owner = m.executing owner := by
  rw [executing_cons hc, executing_cons hc']

theorem settled_eq (hv : v ≠ .outside) (h : Heap) (f : Frame) (result : Except Failure FrameExit) :
    v.settled h f result = h.returned (v.runs? owner) f result := by
  cases v with
  | outside => exact absurd rfl hv
  | call _ => rfl
  | loop r _ => rfl

/-! ### Operations -/

theorem Tidy.ongoing (h : m.Tidy owner none) (ho : m.Ongoing host m') : m'.Orderly owner := by
  obtain ⟨f, w, rest, hc⟩ := h.nested.eq_cons
  obtain ⟨p, hp, hl⟩ := ho.led f w rest hc
  have live := h.live
  rw [hc, List.forall_mem_cons] at live
  refine ⟨?_, ?_, rest, w, p, hp, fun hw => hl.paced (live.1 hw), live.2⟩
  · rw [ho.heap, executing_replace hc hp.chain]
    exact h.keeps
  · rw [hp.chain]
    exact (hc ▸ h.nested).replace p.1

/-- Putting a frame back into its generator, and giving the result to whoever waits for it. -/
theorem Tidy.delivered (h : m.Tidy owner (v.runs? owner)) (hv : v ≠ .outside) (k : Frame)
    (result : Except Failure FrameExit)
    (hk : (v.runs? owner).isSome = true → k.Paced (.leaving result)) :
    (m.deliver host v k result).Orderly owner ∧
      m.heap.Evolves ends (m.deliver host v k result).heap := by
  obtain ⟨hkeeps, hev⟩ := h.keeps.putBack hk
  rw [← settled_eq hv] at hkeeps hev
  have ht : Tidy owner none { m with heap := v.settled m.heap k result } :=
    ⟨hkeeps, h.nested, h.live⟩
  have ho : Ongoing host _ (m.deliver host v k result) := ongoing_deliver m hv k result
  refine ⟨ht.ongoing ho, ?_⟩
  rw [ho.heap]
  exact hev

theorem Tidy.pushed (k : Frame)
    (hkeeps : m.heap.Keeps ((v.runs? owner).toList ++ m.executing owner))
    (hn : ∀ g, Nested (⟨g, k.entry v⟩ :: m.chain)) (hlive : ∀ a ∈ m.chain, a.Live owner)
    (hk : (v.runs? owner).isSome = true → k.finished = false) (stack : OperandStack)
    (raising : Option Raised) : (m.pushed host k stack raising v).Orderly owner := by
  have hc : (m.pushed host k stack raising v).chain = ⟨_, k.entry v⟩ :: m.chain := rfl
  refine ⟨?_, hn _, m.chain, k.entry v, (_, .starting raising), ⟨hc, rfl⟩, hk, hlive⟩
  rw [executing_cons hc]
  exact hkeeps

/-- A frame that is entered is put on the chain, or refused and put back. -/
theorem Tidy.entered (h : m.Tidy owner (v.runs? owner)) (hv : v ≠ .outside) (k : Frame)
    (hk : (v.runs? owner).isSome = true → k.finished = false) (input : Option Value) :
    (m.enter host k input none v).Orderly owner ∧
      m.heap.Evolves ends (m.enter host k input none v).heap := by
  rcases enter_eq host m k input none v with ⟨stack, -, -, he⟩ | ⟨e, he, -⟩
  · rw [he]
    exact ⟨Tidy.pushed k h.keeps (fun _ => .above _ hv h.nested) h.live hk stack none, .refl _⟩
  · rw [he]
    exact h.delivered hv k (.error e) fun _ => trivial

theorem Tidy.followed (h : m.Tidy owner none) (hc : m.chain = ⟨f, w⟩ :: rest) (flow : Flow)
    (hy : ∀ v, flow = .exit (.yielded v) → (w.waiting.runs? owner).isSome = true → f.AtYield) :
    (m.follow host i flow).Orderly owner ∧ m.heap.Evolves ends (m.follow host i flow).heap := by
  rcases follow_cases host m i flow hc with
    ho | ⟨v, hflow, he⟩ | ⟨callee, -, he⟩ | ⟨r, g, heap, -, ht, he⟩
  · refine ⟨h.ongoing ho, ?_⟩
    rw [ho.heap]
    exact .refl _
  · have live := h.live
    rw [hc, List.forall_mem_cons] at live
    rw [he]
    exact ⟨⟨h.keeps, h.nested, rest, w, (f, .leaving _), ⟨hc, rfl⟩, hy v hflow, live.2⟩, .refl _⟩
  · rw [he]
    have hcall : m.Tidy owner (Waiting.runs? owner (.call i)) := h
    exact hcall.entered (fun hn => by cases hn) callee (fun hn => by cases hn) none
  · obtain ⟨hg, hkeeps, hev⟩ := h.keeps.takeFrame ht
    have hloop : Tidy owner (Waiting.runs? owner (.loop r i)) { m with heap } :=
      ⟨hkeeps, h.nested, h.live⟩
    rw [he]
    exact (hloop.entered (fun hn => by cases hn) g (fun _ => hg) (g.input none)).imp_right hev.trans

/-- Executing the instruction that the innermost frame has recorded. -/
theorem Tidy.performed (h : m.Tidy owner none) (hc : m.chain = ⟨f, w⟩ :: rest)
    {o : Nat} (ho : f.lastOffset = some o)
    (hd : Instruction.decode f.code.body.bytecode o = .ok i) :
    (m.perform host ⟨f, w⟩ i).Orderly owner ∧
      m.heap.Evolves ends (m.perform host ⟨f, w⟩ i).heap := by
  have live := h.live
  rw [hc, List.forall_mem_cons] at live
  -- what an instruction leaves is tidy again, also when it fails
  have executed (l : Local) (hl : Local.Steady ⟨f, m.heap⟩ l) :
      ((m.announced host f i).executed l).Tidy owner none ∧
        ((m.announced host f i).executed l).chain = ⟨l.frame, w⟩ :: rest ∧
        ((m.announced host f i).executed l).heap = l.heap := by
    have hc' : ((m.announced host f i).executed l).chain = ⟨l.frame, w⟩ :: rest :=
      chain_executed host hc i l
    have hh : ((m.announced host f i).executed l).heap = l.heap := heap_setFrame _ _
    refine ⟨⟨?_, ?_, ?_⟩, hc', hh⟩
    · rw [hh, executing_replace hc hc']
      exact h.keeps.addsGenerators hl.heap.adds
    · rw [hc']
      exact (hc ▸ h.nested).replace l.frame
    · rw [hc', List.forall_mem_cons]
      exact ⟨fun hw => hl.finished.trans (live.1 hw), live.2⟩
  have hst := Exec.steady_execute (c := f.code) m.currentException i ⟨f, m.heap⟩
  rcases perform_cases host m f w i with ⟨e, l, hx, hg⟩ | ⟨flow, l, hx, hp⟩
  · rw [hx] at hst
    obtain ⟨ht, -, hh⟩ := executed l hst.1
    refine ⟨ht.ongoing hg, ?_⟩
    rw [hg.heap, hh]
    exact hst.1.heap.adds.leavesRunning.toEvolves
  · rw [hx] at hst
    have hl : Local.Steady ⟨f, m.heap⟩ l := hst
    obtain ⟨ht, hc', hh⟩ := executed l hl
    -- only `YIELD_VALUE` yields, and it has just been executed
    have hy (v : Value) (hflow : flow = .exit (.yielded v))
        (hw : (w.waiting.runs? owner).isSome = true) : l.frame.AtYield := by
      have heff := Exec.effect_of_execute hx
      rw [hflow] at heff
      cases heff with
      | yields hop hd' =>
        refine ⟨hl.finished.trans (live.1 hw), o, i, ?_, ?_, hop⟩
        · rw [hd'.toAkin.lastOffset]
          exact ho
        · rw [hl.code]
          exact hd
    rw [hp]
    refine (ht.followed hc' flow hy).imp_right fun (hev : Heap.Evolves ends _ _) => ?_
    rw [hh] at hev
    exact hl.heap.adds.leavesRunning.toEvolves.trans hev

/-- Following a line, which may move the frame. -/
theorem Lined.leavesRunning {h h' : Heap} {s s' : σ} {o o' : Nat} (hh : host.Courteous)
    (ht : host.LeavesRunning ends) (hl : Lined host h s f o h' s' g o') :
    h.LeavesRunning ends h' ∧ g.finished = f.finished ∧
      ∀ i, Instruction.decode g.code.body.bytecode o' = .ok i → g.lastOffset = some o' := by
  have untold : ∀ i, Instruction.decode (f.reported o).code.body.bytecode o = .ok i →
      (f.reported o).lastOffset = some o := fun i hd =>
    congrArg some (Frame.recordedOffset_of_lt (Instruction.next_le_of_decode hd).1)
  cases hl with
  | silent => exact ⟨(Heap.AddsGenerators.refl h).leavesRunning, rfl, untold⟩
  | told line => exact ⟨(Heap.AddsGenerators.refl h).leavesRunning, rfl, untold⟩
  | hooked hook line hf hr =>
    subst hr
    have ha := hh hook line (f.reported o) h (host.observe h (.line f.name line) s)
    refine ⟨ht _ _ _ _ _, ha.keeps.2, fun i _ => ?_⟩
    rcases ha.spec.2.2.2 with hl | ⟨target, line, hl, -⟩ <;> rw [hl] <;> rfl

theorem Tidy.dispatched (hh : host.Courteous) (ht : host.LeavesRunning ends)
    (h : m.Tidy owner none) (o : Nat) :
    (m.dispatch host o).Orderly owner ∧ m.heap.Evolves ends (m.dispatch host o).heap := by
  obtain ⟨f, w, rest, hc⟩ := h.nested.eq_cons
  have live := h.live
  rw [hc, List.forall_mem_cons] at live
  obtain ⟨budget, -, ⟨e, hd⟩ | ⟨heap, state, g, o', hl, hd⟩⟩ := dispatch_lined host m o hc
  · rw [hd, heap_fail]
    have ht : Tidy owner none { m with budget } := ⟨h.keeps, h.nested, h.live⟩
    have ho : Ongoing host _ (fail { m with budget } e) := ongoing_fail _ e
    exact ⟨ht.ongoing ho, .refl _⟩
  · obtain ⟨hleaves, hfin, hlast⟩ := hl.leavesRunning hh ht
    let m₁ : Machine σ := { m with heap, budget, state, chain := ⟨g, w⟩ :: rest }
    have hc₁ : m₁.chain = ⟨g, w⟩ :: rest := rfl
    have ht₁ : m₁.Tidy owner none := by
      refine ⟨?_, (hc ▸ h.nested).replace g, ?_⟩
      · rw [executing_replace hc hc₁]
        exact h.keeps.leavesRunning hleaves
      · rw [hc₁, List.forall_mem_cons]
        exact ⟨fun hw => hfin.trans (live.1 hw), live.2⟩
    rcases hd with ⟨e, hd⟩ | ⟨i, hi, hd⟩
    · rw [hd, heap_fail]
      have ho : m₁.Ongoing host (m₁.fail e) := ongoing_fail m₁ e
      exact ⟨ht₁.ongoing ho, hleaves.toEvolves⟩
    · rw [hd]
      exact (ht₁.performed hc₁ (hlast i hi) hi).imp_right hleaves.toEvolves.trans

theorem Paced.released {result : Except Failure FrameExit} (h : f.Paced (.leaving result)) :
    (f.released result).Paced (.leaving result) := by
  match result with
  | .ok (.yielded v) =>
    unfold Frame.released
    dsimp only
    split <;> exact ⟨h.unfinished, h.last⟩
  | .ok (.returned v) => exact h
  | .error e => exact h

/-- **One step** of an orderly machine ends the run, or leaves it orderly. -/
theorem Orderly.step (hh : host.Courteous) (ht : host.LeavesRunning ends) (h : m.Orderly owner) :
    (∃ w f result, w.waiting = .outside ∧ m.Stands [] w (f, .leaving result)) ∨
      (m.step host).Orderly owner ∧ m.heap.Evolves ends (m.step host).heap := by
  obtain ⟨rest, w, p, hs, hp, live⟩ := h.stands
  obtain ⟨f, s⟩ := p
  have hc : m.chain = ⟨f, w⟩ :: rest := hs.chain
  have hctl := hs.control
  -- with the innermost frame at rest, the machine is tidy
  have tidy (hf : (w.waiting.runs? owner).isSome = true → f.finished = false) :
      m.Tidy owner none := by
    refine ⟨h.keeps, h.nested, ?_⟩
    rw [hc, List.forall_mem_cons]
    exact ⟨hf, live⟩
  cases s with
  | calling site => cases hctl
  | looping site => cases hctl
  | starting raising =>
    have ho : m.Ongoing host (m.start host raising) := ongoing_start m raising
    rw [hs.step_starting host, ho.heap]
    exact .inr ⟨(tidy hp).ongoing ho, .refl _⟩
  | before o =>
    rw [hs.step_before host]
    exact .inr ((tidy hp).dispatched hh ht o)
  | leaving result =>
    have hn := h.nested
    rw [hc] at hn
    cases hn with
    | outermost _ hw => exact .inl ⟨w, f, result, hw, hs⟩
    -- what waits below takes the result, and the generator gets its frame back
    | above _ hw hrest =>
      have hkeeps := h.keeps
      rw [executing_cons hc] at hkeeps
      have hpop : (m.popped host w rest result).Tidy owner (w.waiting.runs? owner) :=
        ⟨hkeeps, hrest, live⟩
      rw [hs.step_leaving host, leave_eq m hc]
      exact .inr (hpop.delivered hw (f.released result) result fun hr => Paced.released (hp hr))

end Machine

/-! ### Refused, and ended without running -/

namespace Session

variable {host : Host σ} {fuel : Nat} {c c' : Context σ} {r : Ref .generator} {v : Value}
  {e : Raised}

theorem send_running (hs : (c.heap.generatorAt r).state = .running) :
    send host fuel r v c = some (.error (.fatal .generatorRunning), c) := by
  show StateT.run (send host fuel r v) c = _
  rw [send, StateT.run_bind, run_getHeap, Option.bind_eq_bind, Option.bind_some]
  dsimp only
  rw [Heap.takeFrame_running hs]
  rfl

theorem throwInto_running (hs : (c.heap.generatorAt r).state = .running) :
    throwInto host fuel r e c = some (.error (.fatal .generatorRunning), c) := by
  show StateT.run (throwInto host fuel r e) c = _
  rw [throwInto, StateT.run_bind, run_getHeap, Option.bind_eq_bind, Option.bind_some]
  dsimp only
  rw [hs]
  rfl

/-- An exception thrown into a generator that has not started comes back at once. -/
theorem throwInto_notStarted (hs : (c.heap.generatorAt r).state = .notStarted) :
    throwInto host fuel r e c =
      some (.error (.raised e), { c with heap := c.heap.endUnstarted r .errored }) := by
  show StateT.run (throwInto host fuel r e) c = _
  rw [throwInto, StateT.run_bind, run_getHeap, Option.bind_eq_bind, Option.bind_some]
  dsimp only
  rw [hs]
  rfl

/-- A generator that has not started is closed without running it. -/
theorem close_notStarted (hs : (c.heap.generatorAt r).state = .notStarted) :
    close host fuel r c =
      some (.ok (), { c with heap := c.heap.endUnstarted r .completed }) := by
  show StateT.run (close host fuel r) c = _
  rw [close, StateT.run_bind, run_getHeap, Option.bind_eq_bind, Option.bind_some]
  dsimp only
  rw [hs]
  rfl

theorem close_running (hs : (c.heap.generatorAt r).state = .running) :
    close host fuel r c = some (.error (.fatal .generatorRunning), c) := by
  show StateT.run (close host fuel r) c = _
  rw [close, StateT.run_bind, run_getHeap, Option.bind_eq_bind, Option.bind_some]
  dsimp only
  rw [hs]
  dsimp only
  have ht : (throwInto host fuel r (Raised.bare .generatorExit)).run c = _ := throwInto_running hs
  rw [StateT.run_bind, ht]
  rfl

end Session

/-- A loop does not advance a generator that executes, and fails. -/
theorem Machine.follow_running {host : Host σ} {m : Machine σ} {r : Ref .generator}
    (hs : (m.heap.generatorAt r).state = .running) (i : Instruction) :
    m.follow host i (.advance r) = m.fail (.fatal .generatorRunning) := by
  unfold Machine.follow
  dsimp only
  rw [Heap.takeFrame_running hs]
  rfl

/-! ### Moments -/

/-- What a client has: a context, or a machine that runs a frame for it, and the generator that owns
the frame. -/
inductive Moment (σ : Type) where
  | idle (c : Context σ)
  | running (m : Machine σ) (owner : Option (Ref .generator))

namespace Moment

/-- The heap at a moment, in whoever's hands it is. -/
def heap : Moment σ → Heap
  | idle c => c.heap
  | running m _ => m.heap

/-- The generators whose frames are on the chain. -/
def executing : Moment σ → List (Ref .generator)
  | idle _ => []
  | running m owner => m.executing owner

/-- A machine that has halted hands the frame back. -/
def of (m : Machine σ) (owner : Option (Ref .generator)) : Moment σ :=
  match m.outcome? with
  | some r => idle { m.toContext with heap := m.heap.returned owner r.1 r.2 }
  | none => running m owner

/-- What can happen next: the client does something that is not about generators, makes a generator,
throws an exception into one that has not started or closes it, if these are among the ways `ends`,
or runs a frame, which may be taken out of a generator; or the machine makes a step. -/
inductive Next (host : Host σ) (ends : Generator.Ending → Prop) : Moment σ → Moment σ → Prop
  | elsewhere {c c' : Context σ} (hg : c'.heap.generators = c.heap.generators) :
    Next host ends (.idle c) (.idle c')
  | make {c : Context σ} {f : Frame} (hf : f.finished = false) :
    Next host ends (.idle c) (.idle { c with heap := (c.heap.newGeneratorOf f).2 })
  | throw {c : Context σ} {r : Ref .generator} (he : ends .throw)
      (hs : (c.heap.generatorAt r).state = .notStarted) :
    Next host ends (.idle c) (.idle { c with heap := c.heap.endUnstarted r .errored })
  | close {c : Context σ} {r : Ref .generator} (he : ends .close)
      (hs : (c.heap.generatorAt r).state = .notStarted) :
    Next host ends (.idle c) (.idle { c with heap := c.heap.endUnstarted r .completed })
  | run {c : Context σ} (f : Frame) (input : Option Value) (raising : Option Raised) :
    Next host ends (.idle c) (.of (Session.machine host c f input raising) none)
  | resume {c : Context σ} {r : Ref .generator} {f : Frame} {heap : Heap} {sending : Bool}
      (ht : c.heap.takeFrame r sending = .ok (f, heap)) (input : Option Value)
      (raising : Option Raised) :
    Next host ends (.idle c)
      (.of (Session.machine host { c with heap } f input raising) (some r))
  | step (m : Machine σ) (owner : Option (Ref .generator)) :
    Next host ends (.running m owner) (.of (m.step host) owner)

/-- The generators that execute are those whose frames are on the chain. -/
def Orderly : Moment σ → Prop
  | idle c => c.heap.Keeps []
  | running m owner => m.Orderly owner

variable {host : Host σ} {owner : Option (Ref .generator)} {m : Machine σ} {x y : Moment σ}
  {c : Context σ} {f : Frame} {result : Except Failure FrameExit} {ends : Generator.Ending → Prop}

theorem Orderly.keeps (h : x.Orderly) : x.heap.Keeps x.executing := by
  cases x with
  | idle c => exact h
  | running m owner => exact Machine.Orderly.keeps h

theorem of_orderly (h : m.Orderly owner) : of m owner = running m owner := by
  obtain ⟨_, _, _, hs, -⟩ := h.stands
  unfold of
  rw [Machine.outcome?_of_not_halted hs.not_halted]

/-- A machine that halts, and whose frame is put back. -/
theorem of_halted (ho : m.outcome? = some (f, result)) (hk : m.heap.Keeps owner.toList)
    (hp : owner.isSome = true → f.Paced (.leaving result)) :
    (of m owner).Orderly ∧ m.heap.Evolves ends (of m owner).heap := by
  unfold of
  rw [ho]
  exact Heap.Keeps.putBack (R := []) ((List.append_nil _).symm ▸ hk) hp

/-- A frame that the client runs. -/
theorem machine_orderly (hk : c.heap.Keeps owner.toList)
    (hf : owner.isSome = true → f.finished = false) (input : Option Value)
    (raising : Option Raised) :
    (of (Session.machine host c f input raising) owner).Orderly ∧
      c.heap.Evolves ends (of (Session.machine host c f input raising) owner).heap := by
  let m : Machine σ := { c with chain := [], control := .start none }
  have hk' : m.heap.Keeps (((Waiting.outside).runs? owner).toList ++ m.executing owner) :=
    (List.append_nil _).symm ▸ hk
  rcases Machine.enter_eq host m f input raising .outside with
    ⟨stack, -, -, he⟩ | ⟨e, he, -⟩
  · have ho : (Session.machine host c f input raising).Orderly owner := by
      show (m.enter host f input raising .outside).Orderly owner
      rw [he]
      exact Machine.Tidy.pushed f hk' (fun g => .outermost g rfl)
        (fun _ ha => absurd ha List.not_mem_nil) hf stack raising
    have hh : (Session.machine host c f input raising).heap = c.heap := by
      show (m.enter host f input raising .outside).heap = _
      rw [he]
      rfl
    rw [of_orderly ho]
    exact ⟨ho, hh ▸ .refl _⟩
  · have hm : Session.machine host c f input raising =
        { m with control := .halted f (.error e) } := he
    rw [hm]
    exact of_halted rfl hk fun _ => trivial

/-- **What happens next** leaves the generators in order, and changes them as generators change. -/
theorem Next.orderly (hh : host.Courteous) (ht : host.LeavesRunning ends) (hx : x.Orderly)
    (hn : Next host ends x y) : y.Orderly ∧ x.heap.Evolves ends y.heap := by
  -- ending a generator that has not started leaves what is running alone
  have ended {c : Context σ} {r : Ref .generator} {e : Generator.Ending} (hx : c.heap.Keeps [])
      (he : ends e) (hs : (c.heap.generatorAt r).state = .notStarted) :
      (c.heap.endUnstarted r e.state).Keeps [] ∧
        c.heap.Evolves ends (c.heap.endUnstarted r e.state) := by
    have hr := Heap.lt_of_not_terminal (by rw [hs]; rfl)
    have hleaves := Heap.LeavesRunning.endUnstarted hs (hx.resting r hr List.not_mem_nil) he
    exact ⟨hx.leavesRunning hleaves, hleaves.toEvolves⟩
  cases hn with
  | elsewhere hg =>
    have hadds := Heap.AddsGenerators.of_generators hg
    exact ⟨Heap.Keeps.addsGenerators hx hadds, hadds.leavesRunning.toEvolves⟩
  | @make c _ hf =>
    have hadds := Heap.AddsGenerators.newGeneratorOf c.heap hf
    exact ⟨Heap.Keeps.addsGenerators hx hadds, hadds.leavesRunning.toEvolves⟩
  | throw he hs => exact ended hx he hs
  | close he hs => exact ended hx he hs
  | @run c f input raising =>
    have hk : c.heap.Keeps (none : Option (Ref .generator)).toList := hx
    exact machine_orderly hk (fun hn => by cases hn) input raising
  | @resume c r f heap _ htake input raising =>
    obtain ⟨hf, hk, hev⟩ := Heap.Keeps.takeFrame hx htake
    have hk' : ({ c with heap } : Context σ).heap.Keeps (some r).toList := hk
    exact (machine_orderly hk' (fun _ => hf) input raising).imp_right hev.trans
  | step m owner =>
    have hm : m.Orderly owner := hx
    rcases hm.step hh ht with ⟨w, f, result, hw, hs⟩ | ⟨ho, hev⟩
    · -- the run ends, and the frame goes back
      obtain ⟨rest, w', p, hs', hp, -⟩ := hm.stands
      have hk := hm.keeps
      rw [Machine.executing_cons hs.chain, hw] at hk
      have hheap : (m.step host).heap = m.heap := by
        rw [hs.step_leaving host, Machine.leave_eq m hs.chain, hw]
        rfl
      -- if the frame is a generator's, then it left at a yield or has finished
      have hpaced : owner.isSome = true → (f.released result).Paced (.leaving result) := by
        intro hsome
        have hc := hs.chain.symm.trans hs'.chain
        cases hc
        have hctl := Machine.Standing.control?_injective hs'.control hs.control
        refine Machine.Paced.released ?_
        have hp := hp (by rw [hw]; exact hsome)
        rw [hctl] at hp
        exact hp
      refine (of_halted (Machine.outcome?_of_leaving hs hw)
        (hheap ▸ (List.append_nil owner.toList) ▸ hk) hpaced).imp_right
        fun (hev : Heap.Evolves ends _ _) => ?_
      rw [hheap] at hev
      exact hev
    · rw [of_orderly ho]
      exact ⟨ho, hev⟩

/-- **Whatever happens**, the generators stay in order. -/
theorem Orderly.reaches (hh : host.Courteous) (ht : host.LeavesRunning ends) (hx : x.Orderly)
    (hn : ReflTransGen (Next host ends) x y) : y.Orderly ∧ x.heap.Evolves ends y.heap := by
  induction hn with
  | refl => exact ⟨hx, .refl _⟩
  | tail _ hn ih =>
    obtain ⟨ho, hev⟩ := hn.orderly hh ht ih.1
    exact ⟨ho, ih.2.trans hev⟩

/-! ### Sessions are made of what can happen -/

variable {fuel : Nat} {c' : Context σ} {r : Ref .generator} {v : Value} {e : Raised}

theorem of_run (m : Machine σ) (owner : Option (Ref .generator)) (fuel : Nat) :
    ReflTransGen (Next host ends) (of m owner) (of (m.run host fuel) owner) := by
  induction fuel with
  | zero => exact .refl
  | succ fuel ih =>
    rw [Machine.run_succ]
    cases hm : (m.run host fuel).isHalted with
    | true =>
      rw [Machine.step_of_halted hm]
      exact ih
    | false =>
      have hof : of (m.run host fuel) owner = running (m.run host fuel) owner := by
        unfold of
        rw [Machine.outcome?_of_not_halted hm]
      exact (hof ▸ ih).tail (.step _ owner)

/-- A frame that was run to its end, and is put back if it belongs to a generator. -/
theorem of_runFrame {g : Frame} {input : Option Value} {raising : Option Raised}
    (h : Session.runFrame host fuel f input raising c = some ((g, result), c')) :
    ReflTransGen (Next host ends) (of (Session.machine host c f input raising) owner)
      (idle { c' with heap := c'.heap.returned owner g result }) := by
  obtain ⟨p, ho, hp⟩ := Option.map_eq_some_iff.1 h
  obtain ⟨rfl, rfl⟩ := Prod.mk.inj hp
  have hr : ReflTransGen (Next host ends) _ _ :=
    of_run (Session.machine host c f input raising) owner fuel
  have hof : of ((Session.machine host c f input raising).run host fuel) owner =
      idle { ((Session.machine host c f input raising).run host fuel).toContext with
        heap := ((Session.machine host c f input raising).run host fuel).heap.returned owner g
          result } := by
    unfold of
    rw [ho]
  exact hof ▸ hr

theorem reaches_runFrame {g : Frame} {input : Option Value} {raising : Option Raised}
    (h : Session.runFrame host fuel f input raising c = some ((g, result), c')) :
    ReflTransGen (Next host ends) (idle c) (idle c') :=
  .head (.run f input raising) (of_runFrame h)

/-- Taking the frame out of a generator, running it and putting it back. -/
theorem reaches_runSettled {heap : Heap} {sending : Bool} {input : Option Value}
    {raising : Option Raised} (ht : c.heap.takeFrame r sending = .ok (f, heap))
    (h : Session.runSettled host fuel r f input raising { c with heap } = some (result, c')) :
    ReflTransGen (Next host ends) (idle c) (idle c') := by
  obtain ⟨⟨⟨g, result'⟩, c₁⟩, hr, hs⟩ := Option.bind_eq_some_iff.1 h
  obtain ⟨rfl, rfl⟩ := Prod.mk.inj (Option.some.inj hs)
  exact .head (.resume ht input raising) (of_runFrame hr)

theorem reaches_send (h : Session.send host fuel r v c = some (result, c')) :
    ReflTransGen (Next host ends) (idle c) (idle c') := by
  cases ht : c.heap.takeFrame r (!v.isNone) with
  | error e =>
    have hs : Session.send host fuel r v c = some (.error e, c) := by
      show StateT.run (Session.send host fuel r v) c = _
      rw [Session.send, StateT.run_bind, Session.run_getHeap, Option.bind_eq_bind, Option.bind_some]
      dsimp only
      rw [ht]
      rfl
    cases hs.symm.trans h
    exact .refl
  | ok p =>
    rw [Session.send_eq ht] at h
    exact reaches_runSettled ht h

/-- Throwing an exception into a generator that has started ends none that has not. -/
theorem reaches_throwInto_started (hn : (c.heap.generatorAt r).state ≠ .notStarted)
    (h : Session.throwInto host fuel r e c = some (result, c')) :
    ReflTransGen (Next host ends) (idle c) (idle c') := by
  have hrun : StateT.run (Session.throwInto host fuel r e) c = some (result, c') := h
  rw [Session.throwInto, StateT.run_bind, Session.run_getHeap, Option.bind_eq_bind,
    Option.bind_some] at hrun
  dsimp only at hrun
  cases hs : (c.heap.generatorAt r).state with
  | notStarted => exact absurd hs hn
  -- in these three states the generator has no frame to raise the exception in
  | running =>
    rw [hs] at hrun
    cases hrun
    exact .refl
  | completed =>
    rw [hs] at hrun
    cases hrun
    exact .refl
  | errored =>
    rw [hs] at hrun
    cases hrun
    exact .refl
  | suspended =>
    cases ht : c.heap.takeFrame r false with
    | error e =>
      rw [hs] at hrun
      dsimp only at hrun
      rw [ht] at hrun
      cases hrun
      exact .refl
    | ok p =>
      rw [Session.throwInto_eq hs ht] at h
      exact reaches_runSettled ht h

theorem reaches_throwInto (he : ends .throw)
    (h : Session.throwInto host fuel r e c = some (result, c')) :
    ReflTransGen (Next host ends) (idle c) (idle c') := by
  by_cases hs : (c.heap.generatorAt r).state = .notStarted
  · cases (Session.throwInto_notStarted hs).symm.trans h
    exact .single (.throw he hs)
  · exact reaches_throwInto_started hs h

theorem reaches_close {answer : Except Failure Unit} (he : ends .close)
    (h : Session.close host fuel r c = some (answer, c')) :
    ReflTransGen (Next host ends) (idle c) (idle c') := by
  have hrun : StateT.run (Session.close host fuel r) c = some (answer, c') := h
  rw [Session.close, StateT.run_bind, Session.run_getHeap, Option.bind_eq_bind,
    Option.bind_some] at hrun
  dsimp only at hrun
  cases hs : (c.heap.generatorAt r).state with
  | running =>
    cases (Session.close_running hs).symm.trans h
    exact .refl
  | completed =>
    rw [hs] at hrun
    cases hrun
    exact .refl
  | errored =>
    rw [hs] at hrun
    cases hrun
    exact .refl
  | notStarted =>
    cases (Session.close_notStarted hs).symm.trans h
    exact .single (.close he hs)
  | suspended =>
    rw [hs] at hrun
    dsimp only at hrun
    rw [StateT.run_bind] at hrun
    obtain ⟨⟨thrown, c₁⟩, ht, hr⟩ := Option.bind_eq_some_iff.1 hrun
    -- the answer depends on what the exception comes to, and changes nothing
    have hc : c₁ = c' := by
      dsimp only at hr
      split at hr
      · cases hr
        rfl
      · cases hr
        rfl
      · split at hr <;> cases hr <;> rfl
    exact hc ▸ reaches_throwInto_started (by rw [hs]; nofun) ht

/-- What holds of a generator at a moment. -/
structure Governs (host : Host σ) (x : Moment σ) (r : Ref .generator) : Prop where
  /-- It is running while its frame is on the chain. -/
  running : (x.heap.generatorAt r).state = .running ↔ r ∈ x.executing
  /-- Its frame is taken out while it is on the chain. -/
  out : (x.heap.generatorAt r).frame = none ↔ r ∈ x.executing
  /-- While it is suspended, its frame is not done and waits where it has yielded. -/
  suspended : (x.heap.generatorAt r).state = .suspended →
    ∃ f, (x.heap.generatorAt r).frame = some f ∧ f.AtYield
  /-- Before it has started, throwing an exception into it leaves it errored, and closing it leaves
  it completed. -/
  notStarted : (x.heap.generatorAt r).state = .notStarted →
    ∃ name f, x.heap.generatorAt r = ⟨.notStarted, name, some f⟩ ∧
      ∀ c : Context σ, c.heap = x.heap → ∀ fuel e,
        (∃ c', Session.throwInto host fuel r e c = some (.error (.raised e), c') ∧
          c'.heap.generatorAt r = ⟨.errored, name, some f.finish⟩) ∧
        ∃ c', Session.close host fuel r c = some (.ok (), c') ∧
          c'.heap.generatorAt r = ⟨.completed, name, some f.finish⟩
  /-- From now on it changes as generators change, and if it ends before it has started then in a
  way that is used. -/
  changes : ∀ ends, host.LeavesRunning ends → ∀ y, ReflTransGen (Next host ends) x y →
    ReflTransGen (Generator.Changes ends) (x.heap.generatorAt r) (y.heap.generatorAt r)
  /-- Once it is done it never changes, and its frame never gets on the chain. -/
  done : (x.heap.generatorAt r).state.isTerminal = true → ∀ ends, host.LeavesRunning ends →
    ∀ y, ReflTransGen (Next host ends) x y →
      y.heap.generatorAt r = x.heap.generatorAt r ∧ r ∉ y.executing
  /-- While it is running, whoever tries to use it fails, and nothing changes. -/
  refuses : (x.heap.generatorAt r).state = .running →
    (∀ c : Context σ, c.heap = x.heap → ∀ fuel v e,
      Session.send host fuel r v c = some (.error (.fatal .generatorRunning), c) ∧
      Session.throwInto host fuel r e c = some (.error (.fatal .generatorRunning), c) ∧
      Session.close host fuel r c = some (.error (.fatal .generatorRunning), c)) ∧
    ∀ m : Machine σ, m.heap = x.heap → ∀ i,
      m.follow host i (.advance r) = m.fail (.fatal .generatorRunning) ∧
      (m.follow host i (.advance r)).heap = x.heap

theorem Orderly.governs (hh : host.Courteous) (ho : x.Orderly)
    (hr : r.index < x.heap.generators.size) : x.Governs host r where
  running := ho.keeps.running_iff hr
  out := ho.keeps.frame_iff hr
  suspended hs := by
    have hn : r ∉ x.executing := by
      rw [← ho.keeps.running_iff hr, hs]
      nofun
    exact (ho.keeps.resting r hr hn).atYield hs
  notStarted hs := by
    have hn : r ∉ x.executing := by
      rw [← ho.keeps.running_iff hr, hs]
      nofun
    obtain ⟨name, f, hg, he⟩ := Heap.endUnstarted_spec hs (ho.keeps.resting r hr hn)
    refine ⟨name, f, hg, fun c hc fuel e => ?_⟩
    -- the outcome is written where the generator stood, with its frame finished
    have ended (state : GeneratorState) : (c.heap.endUnstarted r state).generatorAt r =
        ⟨state, name, some f.finish⟩ := by
      rw [hc, he, Heap.generatorAt_setGenerator_self hr]
    rw [← hc] at hs
    exact ⟨⟨_, Session.throwInto_notStarted hs, ended .errored⟩,
      _, Session.close_notStarted hs, ended .completed⟩
  changes ends ht y hy := (ho.reaches hh ht hy).2.changes r hr
  done hs ends ht y hy := by
    obtain ⟨hoy, hev⟩ := ho.reaches hh ht hy
    have heq := Generator.eq_of_terminal hs (hev.changes r hr)
    refine ⟨heq, fun hm => ?_⟩
    rw [← hoy.keeps.running_iff (Nat.lt_of_lt_of_le hr hev.size), heq] at hm
    rw [hm] at hs
    cases hs
  refuses hs := by
    refine ⟨fun c hc fuel v e => ?_, fun m hm i => ?_⟩
    · rw [← hc] at hs
      exact ⟨Session.send_running hs, Session.throwInto_running hs, Session.close_running hs⟩
    · rw [← hm] at hs ⊢
      have hf : m.follow host i (.advance r) = m.fail (.fatal .generatorRunning) :=
        Machine.follow_running hs i
      exact ⟨hf, by rw [hf, Machine.heap_fail]⟩

/-- **What becomes of generators.**  A client starts from generators at rest, as new ones are.  Then
whatever it does, and at every moment of a run, each generator is running exactly while its frame is
on the chain, where it is at most once, and changes as generators change; and when no frame runs, no
generator is running.  A client may send values, throw exceptions and close: sending ends no
generator that has not started, throwing ends it as errored, and closing as completed. -/
theorem generators_governed (hh : host.Courteous) (ht : host.LeavesRunning ends)
    (h₀ : ∀ r : Ref .generator, r.index < c.heap.generators.size → (c.heap.generatorAt r).Rests)
    (hx : ReflTransGen (Next host ends) (idle c) x) :
    (∀ r : Ref .generator, r.index < x.heap.generators.size → x.Governs host r) ∧
    x.executing.Nodup ∧
    ∀ c', x = idle c' →
      (∀ r : Ref .generator, r.index < c'.heap.generators.size →
        (c'.heap.generatorAt r).state ≠ .running) ∧
      ∀ fuel r c'',
        (∀ v result, Session.send host fuel r v c' = some (result, c'') →
          ReflTransGen (Next host fun _ => False) x (idle c'')) ∧
        (∀ e result, Session.throwInto host fuel r e c' = some (result, c'') →
          ReflTransGen (Next host (· = .throw)) x (idle c'')) ∧
        ∀ answer, Session.close host fuel r c' = some (answer, c'') →
          ReflTransGen (Next host (· = .close)) x (idle c'') := by
  have hidle : (idle c).Orderly := ⟨List.nodup_nil, fun r hr => absurd hr List.not_mem_nil,
    fun r hr _ => h₀ r hr⟩
  have ho := (hidle.reaches hh ht hx).1
  refine ⟨fun r hr => ho.governs hh hr, ho.keeps.nodup, ?_⟩
  rintro c' rfl
  refine ⟨fun r hr hs => ?_, fun fuel r c'' => ⟨fun v result h => reaches_send h,
    fun e result h => reaches_throwInto rfl h, fun answer h => reaches_close rfl h⟩⟩
  exact absurd ((ho.keeps.running_iff hr).1 hs) List.not_mem_nil

end Moment

/-- The code of a generator that yields `None` and then returns what is sent to it. -/
def yieldingCode : CodeObject where
  identity := 1
  body :=
    { name := "yielding"
      flags := { optimized := true, newLocals := true, generator := true, acceptsInput := true }
      bytecode := [Opcode.loadConst.byte, 0, 0, Opcode.yieldValue.byte, Opcode.returnValue.byte]
      consts := [.none]
      maxStack := 1
      firstLine := 1
      lineTable := [5, 1] }

/-- A context with one generator of that code, which has not started. -/
def yieldingContext : Context Unit :=
  { Machine.idle.toContext with
    heap := (Heap.initial.newGeneratorOf
      { code := yieldingCode
        globals := ⟨0⟩
        builtins := Heap.defaultBuiltins
        locals := .fast []
        cells := []
        stack := .empty 1
        trace := { line := 1 } }).2 }

/-- That generator, having been resumed, is suspended where it has yielded. -/
theorem yieldingContext_suspends :
    ∃ c', Session.send Host.silent 10 ⟨0⟩ .none yieldingContext = some (.ok (.yielded .none), c') ∧
      (c'.heap.generatorAt ⟨0⟩).state = .suspended ∧
      ∃ f, (c'.heap.generatorAt ⟨0⟩).frame = some f ∧ f.AtYield := by
  have hsend : (Session.send Host.silent 10 ⟨0⟩ .none yieldingContext).map Prod.fst =
      some (.ok (.yielded .none)) := by cbv
  have hstate : (Session.send Host.silent 10 ⟨0⟩ .none yieldingContext).map
      (fun p => (p.2.heap.generatorAt ⟨0⟩).state) = some .suspended := by cbv
  obtain ⟨⟨result, c'⟩, hs, rfl⟩ := Option.map_eq_some_iff.1 hsend
  rw [hs] at hstate
  have hstate : (c'.heap.generatorAt ⟨0⟩).state = .suspended := Option.some.inj hstate
  have hcourteous : Host.silent.Courteous := fun _ _ _ _ _ => .refl
  have hleaves : Host.silent.LeavesRunning (fun _ => False) :=
    fun _ _ _ h _ => (Heap.AddsGenerators.refl h).leavesRunning
  have governed := Moment.generators_governed (c := yieldingContext) hcourteous hleaves
    (fun r hr => by
      obtain ⟨r⟩ := r
      have hr : r = 0 := Nat.lt_one_iff.1 hr
      subst hr
      exact .notStarted rfl)
    (Moment.reaches_send hs)
  have hr : 0 < c'.heap.generators.size := Heap.lt_of_not_terminal (r := ⟨0⟩) (by rw [hstate]; rfl)
  exact ⟨c', hs, hstate, (governed.1 ⟨0⟩ hr).suspended hstate⟩

end Resumable
