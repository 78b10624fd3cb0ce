import Resumable.Proofs.Machine.Depth
import Resumable.Proofs.Machine.Sessions

/-!
# What a run reports

A frame that is put on the chain is reported in one group: it is entered and called, then come its
own events and the groups of the frames above it, and then it stops and is left (`Event.Body`,
`Event.group`).  The group bears the name of the code the frame came with; its own events bear the
name of the code it has then, which only a hook can give it.  `Host.recorded` also keeps what it
observes, whatever the host does with it, and `Machine.Journal` says what has been recorded of the
frames that are still on the chain.  One step keeps the record in order (`Machine.Recounts.step`),
and so does a run (`Machine.Carries.recounts`).  `Machine.enter_reports` says that every frame put
on a chain, however its run ends, leaves the frames below as they were, keeps within the depth limit
and is reported in one group.
-/

namespace Resumable

variable {σ : Type}

/-- The host that also keeps the events it observes. -/
def Host.recorded (host : Host σ) : Host (σ × List Event) where
  observe h e s := (host.observe h e s.1, s.2 ++ [e])
  onLine hook line f h s :=
    let r := host.onLine hook line f h s.1
    (r.1, r.2.1, r.2.2, s.2)

/-- A hook may leave a frame of code `name` with code `name'`. -/
def Host.Renames (host : Host σ) (name name' : String) : Prop :=
  ∃ hook line f h s, f.name = name ∧ (host.onLine hook line f h s).1.name = name'

namespace Event

/-- The events of a frame itself, the chain being `depth` frames long with it. -/
inductive Own (name : String) (depth : Nat) : Event → Prop
  | instruction (offset : Nat) (opcode : Opcode) (stackDepth : Nat) :
    Own name depth (.instruction offset opcode stackDepth depth)
  | line (number : Nat) : Own name depth (.line name number)
  | exception (error : Raised) : Own name depth (.exception name error)

/-- What is reported of a frame from its beginning to its end, with `body` in between. -/
def group (name : String) (depth : Nat) (body : List Event) (value : Option Value) : List Event :=
  [.enter name depth, .call name depth] ++ body ++ [.stop name value depth, .leave name depth]

/-- What can be reported, while it runs, of a frame that came with code `name` and whose code is
`now`: its own events, and the groups of the frames right above it. -/
inductive Body (host : Host σ) : (name : String) → (depth : Nat) → (now : String) →
    List Event → Prop
  | nil {name : String} {depth : Nat} : Body host name depth name []
  | own {name now : String} {depth : Nat} {es : List Event} {e : Event}
      (hb : Body host name depth now es) (he : e.Own now depth) :
      Body host name depth now (es ++ [e])
  | hooked {name now now' : String} {depth : Nat} {es : List Event}
      (hb : Body host name depth now es) (number : Nat) (hr : host.Renames now now') :
      Body host name depth now' (es ++ [.line now number])
  | inner {name now callee now' : String} {depth : Nat} {es body : List Event}
      (hb : Body host name depth now es) (hi : Body host callee (depth + 1) now' body)
      (value : Option Value) :
      Body host name depth now (es ++ group callee (depth + 1) body value)

variable {host : Host σ} {name now : String} {depth : Nat} {es es' : List Event}

theorem Body.append (hb : Body host name depth now es) (h : ∀ e ∈ es', e.Own now depth) :
    Body host name depth now (es ++ es') := by
  induction es' generalizing es with
  | nil =>
    rw [List.append_nil]
    exact hb
  | cons e es' ih =>
    rw [← List.singleton_append, ← List.append_assoc]
    obtain ⟨he, hes⟩ := List.forall_mem_cons.1 h
    exact ih (hb.own he) hes

/-- Under a host whose hooks leave a frame the name of its code, its own events bear that name. -/
theorem Body.now_eq (hk : ∀ name name', host.Renames name name' → name' = name)
    (hb : Body host name depth now es) : now = name := by
  induction hb with
  | nil => rfl
  | own _ _ ih => exact ih
  | hooked _ _ hr ih => exact (hk _ _ hr).trans ih
  | inner _ _ _ ih _ => exact ih

end Event

theorem Host.told_recorded (host : Host σ) (h : Heap) (es : List Event) (s : σ × List Event) :
    (host.recorded.told h es s).2 = s.2 ++ es := by
  induction es generalizing s with
  | nil => exact (List.append_nil _).symm
  | cons e es ih =>
    show (host.recorded.told h es (host.recorded.observe h e s)).2 = _
    rw [ih]
    exact List.append_assoc _ _ _

namespace Machine

/-- What has been recorded of the frames on a chain above `base` others, all of which still run. -/
inductive Journal (host : Host σ) (base : Nat) : List Activation → List Event → Prop
  | nil : Journal host base [] []
  | frame {f : Frame} {w : Entry} {rest : List Activation} {es body : List Event}
      (h : Journal host base rest es)
      (hb : Event.Body host w.name (base + rest.length + 1) f.name body) :
      Journal host base (⟨f, w⟩ :: rest) (es ++ ([.enter w.name (base + rest.length + 1),
        .call w.name (base + rest.length + 1)] ++ body))

variable {host : Host σ} {base : Nat} {f g : Frame} {w v : Entry}
  {rest top below : List Activation} {es es' log : List Event}

theorem Journal.own (h : Journal host base (⟨f, w⟩ :: rest) es)
    (he : ∀ e ∈ es', e.Own f.name (base + rest.length + 1)) (hn : g.name = f.name) :
    Journal host base (⟨g, w⟩ :: rest) (es ++ es') := by
  cases h with
  | frame h hb =>
    rw [List.append_assoc, List.append_assoc]
    exact h.frame (hn ▸ hb.append he)

/-- A hook that is called on a line may give the frame other code. -/
theorem Journal.hooked (h : Journal host base (⟨f, w⟩ :: rest) es) (line : Nat)
    (hr : host.Renames f.name g.name) :
    Journal host base (⟨g, w⟩ :: rest) (es ++ [.line f.name line]) := by
  cases h with
  | frame h hb =>
    rw [List.append_assoc, List.append_assoc]
    exact h.frame (hb.hooked line hr)

theorem Journal.entered (h : Journal host base rest es) (hn : v.name = g.name) :
    Journal host base (⟨g, v⟩ :: rest) (es ++ [.enter v.name (base + rest.length + 1),
      .call v.name (base + rest.length + 1)]) := by
  have hb : Event.Body host v.name (base + rest.length + 1) g.name [] := by
    rw [hn]
    exact .nil
  have hg := h.frame hb
  rw [List.append_nil] at hg
  exact hg

/-- A frame that leaves has been recorded as a group of the frame below. -/
theorem Journal.left (h : Journal host base (⟨g, v⟩ :: ⟨f, w⟩ :: rest) es) (value : Option Value) :
    Journal host base (⟨f, w⟩ :: rest) (es ++ [.stop v.name value (base + (rest.length + 1) + 1),
      .leave v.name (base + (rest.length + 1) + 1)]) := by
  cases h with
  | frame h hi =>
    cases h with
    | frame h hb =>
      have hg := h.frame (w := w) (hb.inner hi value)
      simp only [Event.group, List.append_assoc, List.length_cons] at hg ⊢
      exact hg

variable {m m' : Machine (σ × List Event)}

/-- The machine runs the frames `top` above the frames `below`, of which `log` had been recorded
when they were put there, and what it has recorded since is about them. -/
structure Recounts (host : Host σ) (below : List Activation) (log : List Event)
    (m : Machine (σ × List Event)) (top : List Activation) : Prop where
  chain : m.chain = top ++ below
  journal : ∃ es, m.state.2 = log ++ es ∧ Journal host below.length top es
  limit : ∀ max, m.budget.tracker.Caps max → m.chain.length ≤ max

theorem Recounts.depth (h : m.Recounts host below log (⟨f, w⟩ :: top)) :
    m.depth = below.length + top.length + 1 := by
  unfold Machine.depth
  rw [h.chain, List.length_append, List.length_cons]
  omega

/-- Reporting something of the innermost frame, and giving it back changed. -/
theorem Recounts.told (h : m.Recounts host below log (⟨f, w⟩ :: top))
    (hc : m'.chain = ⟨g, w⟩ :: (top ++ below))
    (hb : m'.budget.tracker = m.budget.tracker) (hs : m'.state.2 = m.state.2 ++ es')
    (hj : ∀ es, Journal host below.length (⟨f, w⟩ :: top) es →
      Journal host below.length (⟨g, w⟩ :: top) (es ++ es')) :
    m'.Recounts host below log (⟨g, w⟩ :: top) := by
  obtain ⟨es, hes, h'⟩ := h.journal
  refine ⟨hc, ⟨es ++ es', ?_, hj es h'⟩, fun max hmax => ?_⟩
  · rw [hs, hes, List.append_assoc]
  · rw [hb] at hmax
    have hl := h.limit max hmax
    rw [h.chain] at hl
    rw [hc]
    exact hl

/-- Reporting events of the innermost frame, and giving it back with the same code. -/
theorem Recounts.own (h : m.Recounts host below log (⟨f, w⟩ :: top))
    (hc : m'.chain = ⟨g, w⟩ :: (top ++ below))
    (hb : m'.budget.tracker = m.budget.tracker) (hs : m'.state.2 = m.state.2 ++ es')
    (he : ∀ e ∈ es', e.Own f.name m.depth) (hg : g.code = f.code) :
    m'.Recounts host below log (⟨g, w⟩ :: top) := by
  rw [h.depth] at he
  refine h.told hc hb hs fun es hj => hj.own he ?_
  unfold Frame.name
  rw [hg]

theorem Recounts.ongoing (h : m.Recounts host below log (⟨f, w⟩ :: top))
    (ho : m.Ongoing host.recorded m') : ∃ g, m'.Recounts host below log (⟨g, w⟩ :: top) := by
  obtain ⟨p, hp, ht⟩ := ho.led f w (top ++ below) h.chain
  obtain ⟨es, hs, he⟩ := ho.told f w (top ++ below) h.chain
  refine ⟨p.1, h.own hp.chain (by rw [ho.budget]) (hs ▸ host.told_recorded _ _ _) ?_ ht.turns.code⟩
  intro e hm
  obtain ⟨r, rfl⟩ := he e hm
  exact .exception r

theorem Recounts.delivered {v : Waiting} (h : m.Recounts host below log (⟨f, w⟩ :: top))
    (hv : v ≠ .outside) (k : Frame) (result : Except Failure FrameExit) :
    ∃ g, (m.deliver host.recorded v k result).Recounts host below log (⟨g, w⟩ :: top) := by
  have hh : Recounts host below log { m with heap := v.settled m.heap k result } (⟨f, w⟩ :: top) :=
    ⟨h.chain, h.journal, h.limit⟩
  exact hh.ongoing (ongoing_deliver m hv k result)

theorem Recounts.pushed (hc : m.chain = top ++ below)
    (hj : ∃ es, m.state.2 = log ++ es ∧ Journal host below.length top es)
    (hd : m.budget.checkDepth m.depth = .ok ()) (stack : OperandStack) (raising : Option Raised)
    (v : Waiting) : ∃ g, (m.pushed host.recorded f stack raising v).Recounts host below log
      (⟨g, f.entry v⟩ :: top) := by
  obtain ⟨es, hs, hj⟩ := hj
  have hlen : m.depth = below.length + top.length := by
    unfold Machine.depth
    rw [hc, List.length_append, Nat.add_comm]
  refine ⟨_, congrArg (List.cons _) hc, ⟨_, ?_, hj.entered rfl⟩, fun max hmax => ?_⟩
  · unfold Machine.pushed
    rw [Host.told_recorded, hs, List.append_assoc, hlen]
    rfl
  · show (_ :: m.chain).length ≤ max
    rw [List.length_cons]
    exact hmax _ _ hd

theorem Recounts.entered {v : Waiting} (h : m.Recounts host below log (⟨f, w⟩ :: top))
    (hv : v ≠ .outside) (k : Frame) (input : Option Value) :
    ∃ top', (m.enter host.recorded k input none v).Recounts host below log top' := by
  rcases enter_eq host.recorded m k input none v with ⟨stack, hd, -, he⟩ | ⟨e, he, -⟩
  · rw [he]
    obtain ⟨g, hg⟩ := Recounts.pushed (f := k) h.chain h.journal hd stack none v
    exact ⟨_, hg⟩
  · rw [he]
    obtain ⟨g, hg⟩ := h.delivered hv k (.error e)
    exact ⟨_, hg⟩

theorem Recounts.followed (h : m.Recounts host below log (⟨f, w⟩ :: top)) (i : Instruction)
    (flow : Flow) : ∃ top', (m.follow host.recorded i flow).Recounts host below log top' := by
  rcases follow_cases host.recorded m i flow h.chain with
    ho | ⟨v, -, he⟩ | ⟨callee, -, he⟩ | ⟨r, g, heap, -, -, he⟩
  · obtain ⟨g, hg⟩ := h.ongoing ho
    exact ⟨_, hg⟩
  · rw [he]
    exact ⟨_, h.chain, h.journal, h.limit⟩
  · rw [he]
    exact h.entered (fun hn => by cases hn) callee none
  · rw [he]
    have hh : Recounts host below log { m with heap } (⟨f, w⟩ :: top) :=
      ⟨h.chain, h.journal, h.limit⟩
    exact hh.entered (fun hn => by cases hn) g (g.input none)

theorem Recounts.performed (h : m.Recounts host below log (⟨f, w⟩ :: top)) (i : Instruction) :
    ∃ top', (m.perform host.recorded ⟨f, w⟩ i).Recounts host below log top' := by
  have executed (l : Local) (hl : l.frame.code = f.code) :
      ((m.announced host.recorded f i).executed l).Recounts host below log
        (⟨l.frame, w⟩ :: top) := by
    have hs : ((m.announced host.recorded f i).executed l).state.2 =
        m.state.2 ++ [.instruction i.offset i.opcode f.stack.depth m.depth] :=
      congrArg Prod.snd (state_setFrame _ _)
    refine h.own (chain_executed host.recorded h.chain i l)
      (congrArg Budget.tracker (budget_setFrame _ _)) hs (fun e he => ?_) hl
    rw [List.mem_singleton.1 he]
    exact .instruction _ _ _
  rcases perform_cases host.recorded m f w i with ⟨e, l, hx, ho⟩ | ⟨flow, l, hx, hp⟩
  · obtain ⟨g, hg⟩ := (executed l (Exec.damage_of_execute hx).toAkin.code).ongoing ho
    exact ⟨_, hg⟩
  · rw [hp]
    exact (executed l (Exec.effect_of_execute hx).akin.code).followed i flow

/-- Following a line reports at most the line, and then a hook may give the frame other code. -/
theorem Lined.recorded {h h' : Heap} {s s' : σ × List Event} {o o' : Nat}
    (hl : Lined host.recorded h s f o h' s' g o') :
    ∃ es, s'.2 = s.2 ++ es ∧ ∀ log, Journal host base (⟨f, w⟩ :: rest) log →
      Journal host base (⟨g, w⟩ :: rest) (log ++ es) := by
  cases hl with
  | silent => exact ⟨[], (List.append_nil _).symm, fun log hj => hj.own nofun rfl⟩
  | told line =>
    refine ⟨_, rfl, fun log hj => hj.own (fun e he => ?_) rfl⟩
    rw [List.mem_singleton.1 he]
    exact .line line
  | hooked hook line hf hr =>
    subst hr
    exact ⟨_, rfl, fun log hj => hj.hooked line ⟨hook, line, f.reported o, _, _, rfl, rfl⟩⟩

theorem Recounts.dispatched (h : m.Recounts host below log (⟨f, w⟩ :: top)) (o : Nat) :
    ∃ top', (m.dispatch host.recorded o).Recounts host below log top' := by
  obtain ⟨budget, hb, ⟨e, hd⟩ | ⟨heap, state, g, o', hl, hd⟩⟩ :=
    dispatch_lined host.recorded m o h.chain
  · rw [hd]
    have hm : Recounts host below log { m with budget } (⟨f, w⟩ :: top) := by
      refine ⟨h.chain, h.journal, fun max hmax => h.limit max ?_⟩
      rw [hb] at hmax
      exact hmax
    have ho : Ongoing host.recorded _ (fail { m with budget } e) := ongoing_fail _ e
    obtain ⟨g', hg'⟩ := hm.ongoing ho
    exact ⟨_, hg'⟩
  · obtain ⟨es, hes, hj⟩ := hl.recorded
    let m₁ : Machine (σ × List Event) :=
      { m with heap, budget, state, chain := ⟨g, w⟩ :: (top ++ below) }
    have hm : m₁.Recounts host below log (⟨g, w⟩ :: top) := by
      refine h.told rfl ?_ hes hj
      show budget.tracker = _
      rw [hb]
      rfl
    rcases hd with ⟨e, hd⟩ | ⟨i, -, hd⟩
    · rw [hd]
      have ho : m₁.Ongoing host.recorded (m₁.fail e) := ongoing_fail m₁ e
      obtain ⟨g', hg'⟩ := hm.ongoing ho
      exact ⟨_, hg'⟩
    · rw [hd]
      exact hm.performed i

/-- A frame that leaves has been reported as a group, and the frame below is given its result. -/
theorem Recounts.left (h : m.Recounts host below log (⟨g, v⟩ :: ⟨f, w⟩ :: top))
    (hv : v.waiting ≠ .outside) (result : Except Failure FrameExit) :
    ∃ g', (m.leave host.recorded result).Recounts host below log (⟨g', w⟩ :: top) := by
  obtain ⟨es, hs, hj⟩ := h.journal
  rw [leave_eq m h.chain]
  suffices hp : Recounts host below log (m.popped host.recorded v (⟨f, w⟩ :: (top ++ below)) result)
      (⟨f, w⟩ :: top) from hp.delivered hv (g.released result) result
  refine ⟨rfl, ⟨_, ?_, hj.left (stopped result)⟩, fun max hmax => ?_⟩
  · unfold popped
    have hlen : (⟨f, w⟩ :: (top ++ below) : List Activation).length =
        below.length + (top.length + 1) := by
      rw [List.length_cons, List.length_append]
      omega
    rw [Host.told_recorded, hs, List.append_assoc, h.depth, hlen]
    rfl
  · have hl := h.limit max hmax
    rw [h.chain] at hl
    exact Nat.le_of_succ_le hl

/-- When the frame right above `below` leaves, it has been reported as a group. -/
theorem Recounts.finished (h : m.Recounts host below log [⟨f, w⟩])
    (result : Except Failure FrameExit) :
    ∃ body, Event.Body host w.name (below.length + 1) f.name body ∧
      (m.popped host.recorded w below result).state.2 =
        log ++ Event.group w.name (below.length + 1) body (stopped result) := by
  obtain ⟨es, hs, hj⟩ := h.journal
  have hd : m.depth = below.length + 1 := h.depth
  cases hj with
  | @frame _ _ _ _ body hj hb =>
    cases hj
    refine ⟨body, hb, ?_⟩
    unfold popped
    rw [Host.told_recorded, hs, hd, List.append_assoc]
    rfl

/-- **One step is recounted**, unless the frame right above `below` leaves. -/
theorem Recounts.step (h : m.Recounts host below log (⟨f, w⟩ :: top))
    (hl : ∀ result, m.control = .leave result → w.waiting ≠ .outside ∧ top ≠ []) :
    ∃ top', (m.step host.recorded).Recounts host below log top' := by
  unfold Machine.step
  split
  · obtain ⟨g, hg⟩ := h.ongoing (ongoing_start m _)
    exact ⟨_, hg⟩
  · exact h.dispatched _
  · rename_i result hc
    obtain ⟨hw, ht⟩ := hl result hc
    obtain ⟨a, top, rfl⟩ := List.exists_cons_of_ne_nil ht
    obtain ⟨g, hg⟩ := h.left hw result
    exact ⟨_, hg⟩
  · exact ⟨_, h⟩

variable {m₀ : Machine (σ × List Event)} {allowed : Value → Prop} {s : Standing}

/-- Where the frame right above `below` is among those recounted. -/
theorem Recounts.split (h : m.Recounts host below log top) (hh : m.Holds below w f s) :
    ∃ above, top = above ++ [⟨f, w⟩] ∧ (∀ a ∈ above, a.waiting ≠ .outside) ∧
      (s.control? = some m.control ∧ above = [] ∨ s.control? = none ∧ above ≠ []) := by
  obtain ⟨above, hc, ha, hs⟩ := hh.split
  refine ⟨above, ?_, ha, ?_⟩
  · have he := h.chain
    rw [hc, ← List.singleton_append, ← List.append_assoc] at he
    exact (List.append_cancel_right he).symm
  · rcases hs with ⟨rfl, hs⟩ | ⟨outer, g, v, rfl, hv⟩
    · exact .inl ⟨hs, rfl⟩
    · exact .inr ⟨control?_of_standing? hv,
        List.append_ne_nil_of_right_ne_nil _ (List.cons_ne_nil _ _)⟩

/-- **All of a run is recounted**, as long as the frame right above `below` is on the chain. -/
theorem Carries.recounts (h₀ : ∃ top, m₀.Recounts host below log top)
    (h : Carries host.recorded below w allowed m₀ m f s) :
    ∃ top, m.Recounts host below log top := by
  induction h with
  | entered _ _ => exact h₀
  | step hc hh _ ih =>
    rename_i m f f' s s'
    have hm := hc.held.1
    obtain ⟨top, hr⟩ := ih
    obtain ⟨above, rfl, ha, ⟨hs, rfl⟩ | ⟨-, hn⟩⟩ := hr.split hm
    · refine Recounts.step hr fun result hl => ?_
      -- the frame itself does not leave, since it is held after the step
      rw [hl] at hs
      have hleaving : (Standing.leaving result).control? = some (.leave result) := rfl
      rw [Standing.control?_injective hs hleaving] at hm
      exact absurd hh hm.not_leaving
    · obtain ⟨a, above, rfl⟩ := List.exists_cons_of_ne_nil hn
      exact Recounts.step hr fun _ _ =>
        ⟨ha a List.mem_cons_self, List.append_ne_nil_of_right_ne_nil _ (List.cons_ne_nil _ _)⟩

/-- **What becomes of a frame that is put on a chain**, whatever the tracker and the hooks do.  It
may be refused, by the tracker or because what it is resumed with does not fit on its stack; then
its failure is delivered and nothing else happens.  Else, in every state of its run, the frames
below are what they were, and the chain is no longer than the tracker allows; and when the frame
leaves, then to those same frames, and it has been reported in one group, under the name it came
with, and with a value if it returned or yielded. -/
theorem enter_reports (host : Host σ) (m : Machine (σ × List Event)) (f : Frame)
    (input : Option Value) (raising : Option Raised) (w : Waiting) :
    (∃ e, m.enter host.recorded f input raising w = m.deliver host.recorded w f (.error e) ∧
      ((∃ l, m.budget.checkDepth m.depth = .error l ∧ e = l.toFailure) ∨
        ∃ v fault, input = some v ∧ f.stack.push v = .error fault ∧ e = .fatal fault)) ∨
    ((∃ stack back, (m.enter host.recorded f input raising w).Stands m.chain (f.entry w)
        ({ f with stack, back }, .starting raising)) ∧
      ∀ m' g s, Carries host.recorded m.chain (f.entry w) (fun _ => True)
          (m.enter host.recorded f input raising w) m' g s →
        (∃ above, m'.chain = above ++ ⟨g, f.entry w⟩ :: m.chain) ∧
        (∀ max, m.budget.tracker.Caps max → m'.depth ≤ max) ∧
        ((∃ g' s', Carries host.recorded m.chain (f.entry w) (fun _ => True)
            (m.enter host.recorded f input raising w) (m'.step host.recorded) g' s') ∨
          ∃ (result : _) (m'' : Machine (σ × List Event)) (body : _) (value : _),
            s = .leaving result ∧
            m'.step host.recorded = m''.deliver host.recorded w (g.released result) result ∧
            m''.chain = m.chain ∧ Event.Body host f.name (m.depth + 1) g.name body ∧
            m''.state.2 = m.state.2 ++ Event.group f.name (m.depth + 1) body value ∧
            ∀ v, value = some v ↔ ∃ exit, result = .ok exit ∧ exit.value = v)) := by
  rcases enter_eq host.recorded m f input raising w with
    ⟨stack, hd, -, he⟩ | ⟨e, he, hwhy⟩
  · have hs : (m.enter host.recorded f input raising w).Stands m.chain (f.entry w)
        ({ f with stack, back := if m.depth = 0 then none else some (m.depth - 1) },
          .starting raising) := by
      rw [he]
      exact ⟨rfl, rfl⟩
    -- the record is in order when the frame is pushed, and so all along its run
    have h₀ : ∃ top,
        (m.enter host.recorded f input raising w).Recounts host m.chain m.state.2 top := by
      have hc : m.chain = [] ++ m.chain := rfl
      obtain ⟨g, hg⟩ := Recounts.pushed (f := f) hc ⟨[], (List.append_nil _).symm, .nil⟩
        hd stack raising w
      exact ⟨_, he ▸ hg⟩
    refine .inr ⟨⟨stack, _, hs⟩, fun m' g s hc => ?_⟩
    have hh := hc.held.1
    obtain ⟨top, hr⟩ := hc.recounts h₀
    obtain ⟨above, rfl, -, hsplit⟩ := hr.split hh
    refine ⟨⟨above, ?_⟩, fun max hmax => ?_, ?_⟩
    · rw [hr.chain, List.append_assoc]
      rfl
    · refine hr.limit max ?_
      rw [hc.tracker, budget_enter]
      exact hmax
    · rcases hh.step host.recorded with ⟨result, rfl⟩ | ⟨given, p, -, hp, -⟩
      · -- only the innermost frame leaves
        rcases hsplit with ⟨hctl, rfl⟩ | ⟨hctl, -⟩
        · have hleaving : m'.Stands m.chain (f.entry w) (g, .leaving result) := ⟨hr.chain, hctl⟩
          obtain ⟨body, hb, hlog⟩ := hr.finished result
          refine .inr ⟨result, m'.popped host.recorded (f.entry w) m.chain result, body,
            stopped result, rfl, (hleaving.step_leaving _).trans (leave_eq m' hr.chain result), rfl,
            hb, hlog, fun v => ?_⟩
          unfold stopped
          cases result with
          | ok exit => simp
          | error e => simp
        · cases hctl
      · exact .inl ⟨_, _, .step hc hp fun _ _ => trivial⟩
  · exact .inl ⟨e, he, hwhy⟩

end Machine

/-- The code of a function that returns `None`. -/
def answeringCode : CodeObject where
  identity := 1
  body :=
    { name := "answer"
      flags := { optimized := true, newLocals := true }
      bytecode := [Opcode.loadConst.byte, 0, 0, Opcode.returnValue.byte]
      consts := [.none]
      maxStack := 1
      firstLine := 1
      lineTable := [4, 1] }

/-- The code of a caller, which calls what is on its stack and returns what comes of it. -/
def askingCode : CodeObject where
  identity := 2
  body :=
    { name := "ask"
      bytecode := [Opcode.callFunction.byte, 0, 0, Opcode.returnValue.byte]
      maxStack := 1
      firstLine := 1 }

/-- A frame about to call the function. -/
def askingFrame : Frame where
  code := askingCode
  globals := ⟨0⟩
  builtins := Heap.defaultBuiltins
  locals := .dict ⟨0⟩
  cells := []
  stack := ⟨[.function 3 ⟨answeringCode, ⟨0⟩, [], []⟩], 1, 1, rfl⟩
  trace := { line := 1, lower := 0, upper := Frame.farthestOffset, previous := 0 }

/-- A run of that frame, in which it calls the function, is reported in one group, all under the
name of its code. -/
theorem askingFrame_reports :
    let host := Host.silent.recorded
    let m : Machine (Unit × List Event) := { Machine.idle with state := ((), []) }
    ∃ body, Event.Body Host.silent "ask" 1 "ask" body ∧
      ((m.enter host askingFrame none none .outside).run host 8).state.2 =
        Event.group "ask" 1 body (some .none) := by
  intro host m
  rcases Machine.enter_reports Host.silent m askingFrame none none .outside with
    ⟨e, he, -⟩ | ⟨-, h⟩
  · cases congrArg Machine.isHalted he
  · let m₀ := m.enter host askingFrame none none .outside
    let w := askingFrame.entry .outside
    -- the frame is on the chain until the machine halts
    have next {k : Nat}
        (hc : ∃ g s, Machine.Carries host [] w (fun _ => True) m₀ (m₀.run host k) g s)
        (hn : (m₀.run host (k + 1)).isHalted = false) :
        ∃ g s, Machine.Carries host [] w (fun _ => True) m₀ (m₀.run host (k + 1)) g s := by
      obtain ⟨g, s, hc⟩ := hc
      rw [Machine.run_succ] at hn ⊢
      rcases (h _ g s hc).2.2 with hc | ⟨result, m'', body, value, -, hm, -⟩
      · exact hc
      · rw [hm] at hn
        cases hn
    have entered :
        ∃ g s, Machine.Carries host [] w (fun _ => True) m₀ (m₀.run host 0) g s :=
      ⟨_, _, .entered (.innermost (s := .starting none) ⟨rfl, rfl⟩) fun _ _ => trivial⟩
    have called := next (next entered (by cbv)) (by cbv)
    have answered := next (next (next (next called (by cbv)) (by cbv)) (by cbv)) (by cbv)
    obtain ⟨g, s, hc⟩ := next answered (by cbv)
    have returns : (m₀.run host 7).control = .leave (.ok (.returned .none)) := by cbv
    have halts : (m₀.run host 8).isHalted = true := by cbv
    rw [Machine.run_succ] at halts
    rcases (h _ g s hc).2.2 with ⟨g', s', hc⟩ | ⟨result, m'', body, value, rfl, hm, -, hb, hlog, hv⟩
    · exact absurd halts (Bool.eq_false_iff.1 hc.held.1.not_halted)
    · have hresult := (hc.held.1.stands rfl).control.trans (congrArg some returns)
      cases hresult
      cases (hv .none).2 ⟨_, rfl, rfl⟩
      have hnow : g.name = "ask" := by
        refine hb.now_eq ?_
        rintro name name' ⟨-, -, g, -, -, rfl, rfl⟩
        rfl
      rw [hnow] at hb
      refine ⟨body, hb, ?_⟩
      rw [Machine.run_succ, hm]
      exact hlog

end Resumable
