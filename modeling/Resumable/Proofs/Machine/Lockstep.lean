import Resumable.Proofs.Machine.Blindness
import Resumable.Proofs.Machine.Life
import Mathlib.Data.List.Forall2

/-!
# Hooks that only look

A host whose hooks look at a frame and leave it alone (`Host.Onlooking`) does the same whether or
not they are called.  So two machines that are alike but for the hook of the outermost frame, and
for what the host has seen of it, stay alike (`Machine.Alike.run`).

`view` is what is compared of the states of the host.
-/

namespace Resumable

variable {σ τ : Type}

/-- Hooks leave the frame and the heap as they are, and what is seen of a state depends on what was
seen of it before and on what is observed since. -/
structure Host.Onlooking (host : Host σ) (view : σ → τ) : Prop where
  observe : ∀ h e s s', view s = view s' → view (host.observe h e s) = view (host.observe h e s')
  frame : ∀ hook line f h s, (host.onLine hook line f h s).1 = f
  heap : ∀ hook line f h s, (host.onLine hook line f h s).2.1 = h
  state : ∀ hook line f h s, view (host.onLine hook line f h s).2.2 = view s

/-- Two frames on a chain that differ at most in what a bare frame lacks, and in nothing unless they
are outermost. -/
inductive Activation.Alike : Activation → Activation → Prop
  | refl (a : Activation) : Alike a a
  | outside {f g : Frame} {w : Entry} (hw : w.waiting = .outside) (h : f.bare = g.bare) :
    Alike ⟨f, w⟩ ⟨g, w⟩

/-- Two machines are about to do the same. -/
inductive Control.Alike : Control → Control → Prop
  | refl (c : Control) : Alike c c
  | halted {f g : Frame} (h : f.bare = g.bare) (result : Except Failure FrameExit) :
    Alike (.halted f result) (.halted g result)

/-- Two machines differ at most in what the bare outermost frame lacks, and in what is not seen of
the host. -/
structure Machine.Alike (view : σ → τ) (m n : Machine σ) : Prop where
  heap : m.heap = n.heap
  budget : m.budget = n.budget
  state : view m.state = view n.state
  chain : List.Forall₂ Activation.Alike m.chain n.chain
  control : m.control.Alike n.control

namespace Frame

/-- Which line is reported does not depend on who is told. -/
theorem lineEvent_bare (f : Frame) (o : Nat) :
    (f.bare.lineEvent o).1 = (f.lineEvent o).1 ∧
      (f.bare.lineEvent o).2.bare = (f.lineEvent o).2.bare := by
  have ht : f.bare.trace.lower = f.trace.lower ∧ f.bare.trace.upper = f.trace.upper :=
    ⟨rfl, rfl⟩
  unfold lineEvent
  dsimp only
  rw [ht.1, ht.2]
  split <;> exact ⟨rfl, rfl⟩

theorem reported_bare (f : Frame) (o : Nat) : (f.bare.reported o).bare = (f.reported o).bare :=
  (lineEvent_bare { f with lastOffset := some (f.recordedOffset o) } (f.recordedOffset o)).2

theorem lineAt?_bare (f : Frame) (o : Nat) : f.bare.lineAt? o = f.lineAt? o :=
  (lineEvent_bare { f with lastOffset := some (f.recordedOffset o) } (f.recordedOffset o)).1

end Frame

namespace Activation.Alike

variable {f g : Frame} {w : Entry}

theorem entry {a b : Activation} (h : a.Alike b) : a.entry = b.entry := by
  cases h <;> rfl

theorem bare {a b : Activation} (h : a.Alike b) : a.frame.bare = b.frame.bare := by
  cases h with
  | refl => rfl
  | outside _ h => exact h

/-- What does not depend on what a bare frame lacks is the same. -/
theorem congr {α : Type} (F : Frame → α) (hF : ∀ f : Frame, F f.bare = F f) {a b : Activation}
    (h : a.Alike b) : F a.frame = F b.frame := by
  rw [← hF, h.bare, hF]

/-- What is done to the frames leaves them alike if it does the same to the bare frame. -/
theorem map (F : Frame → Frame) (hF : ∀ f : Frame, (F f.bare).bare = (F f).bare)
    (h : Alike ⟨f, w⟩ ⟨g, w⟩) : Alike ⟨F f, w⟩ ⟨F g, w⟩ := by
  cases h with
  | refl => exact .refl _
  | outside hw h =>
    refine .outside hw ?_
    rw [← hF, h, hF]

end Activation.Alike

namespace Machine.Alike

variable {host : Host σ} {view : σ → τ} {m n : Machine σ} {f g : Frame} {w : Entry}
  {rest rest' : List Activation}

theorem depth (h : m.Alike view n) : m.depth = n.depth := h.chain.length_eq

theorem withControl (h : m.Alike view n) (c : Control) :
    Alike view { m with control := c } { n with control := c } :=
  { h with control := .refl c }

theorem withHeap (h : m.Alike view n) (heap : Heap) :
    Alike view { m with heap } { n with heap } :=
  { h with heap := rfl }

theorem report (hh : host.Onlooking view) (h : m.Alike view n) (e : Event) :
    Alike view (m.report host e) (n.report host e) :=
  { h with
    state := by
      show view (host.observe m.heap e m.state) = view (host.observe n.heap e n.state)
      rw [h.heap]
      exact hh.observe _ _ _ _ h.state }

/-- Either both chains are empty, or both have an innermost frame. -/
theorem heads (h : m.Alike view n) : (m.chain = [] ∧ n.chain = []) ∨
    ∃ f g w rest rest', m.chain = ⟨f, w⟩ :: rest ∧ n.chain = ⟨g, w⟩ :: rest' ∧
      Activation.Alike ⟨f, w⟩ ⟨g, w⟩ ∧ List.Forall₂ Activation.Alike rest rest' := by
  have hc := h.chain
  cases hm : m.chain with
  | nil =>
    rw [hm] at hc
    exact .inl ⟨rfl, List.forall₂_nil_left_iff.1 hc⟩
  | cons a rest =>
    obtain ⟨f, w⟩ := a
    rw [hm] at hc
    obtain ⟨⟨g, w'⟩, rest', ha, hr, hn⟩ := List.forall₂_cons_left_iff.1 hc
    obtain rfl : w = w' := ha.entry
    exact .inr ⟨f, g, w, rest, rest', rfl, hn, ha, hr⟩

theorem setFrame (h : m.Alike view n) (hm : m.chain = ⟨f, w⟩ :: rest)
    (hn : n.chain = ⟨g, w⟩ :: rest') {f' g' : Frame}
    (hf : Activation.Alike ⟨f', w⟩ ⟨g', w⟩) : Alike view (m.setFrame f') (n.setFrame g') := by
  have hc := h.chain
  rw [hm, hn] at hc
  unfold Machine.setFrame
  rw [hm, hn]
  exact { h with chain := .cons hf (List.forall₂_cons.1 hc).2 }

theorem currentException (h : m.Alike view n) : m.currentException = n.currentException := by
  have hc := h.chain
  unfold Machine.currentException
  generalize m.chain = a at hc ⊢
  generalize n.chain = b at hc ⊢
  induction hc with
  | nil => rfl
  | cons ha _ ih =>
    have hp := ha.congr (·.pending) fun _ => rfl
    simp only [List.findSome?_cons, hp, ih]

/-! ### Failing and going on -/

theorem fail (h : m.Alike view n) (e : Failure) : Alike view (m.fail e) (n.fail e) := by
  unfold Machine.fail
  rcases h.heads with ⟨hm, hn⟩ | ⟨f, g, w, rest, rest', hm, hn, ha, -⟩
  · rw [hm, hn]
    exact h
  · rw [hm, hn]
    exact (h.setFrame hm hn (ha.map Frame.finish fun _ => rfl)).withControl _

theorem raise (hh : host.Onlooking view) (h : m.Alike view n) (e : Raised) (offset : Nat) :
    Alike view (m.raise host e offset) (n.raise host e offset) := by
  unfold Machine.raise
  rcases h.heads with ⟨hm, hn⟩ | ⟨f, g, w, rest, rest', hm, hn, ha, -⟩
  · rw [hm, hn]
    exact h
  · rw [hm, hn]
    have hcode : f.code = g.code := ha.congr (·.code) fun _ => rfl
    dsimp only
    rw [hcode]
    generalize e.through ⟨g.code.body.name, g.code.body.lineForOffset offset, offset⟩ = e
    have hr := h.report hh (.exception g.code.body.name e)
    have hu : (f.unwind (.raising e)).2 = (g.unwind (.raising e)).2 :=
      ha.congr (fun f => (f.unwind (.raising e)).2) fun f => by rw [f.unwind_bare]
    have hf : Activation.Alike ⟨(f.unwind (.raising e)).1, w⟩ ⟨(g.unwind (.raising e)).1, w⟩ :=
      ha.map (fun f => (f.unwind (.raising e)).1) fun f => by rw [f.unwind_bare]; rfl
    generalize f.unwind (.raising e) = r at hu hf ⊢
    generalize g.unwind (.raising e) = r' at hu hf ⊢
    obtain ⟨f', u⟩ := r
    obtain ⟨g', u'⟩ := r'
    obtain rfl : u = u' := hu
    cases u with
    | handled target => exact (hr.setFrame hm hn hf).withControl _
    | faulted fault => exact (hr.setFrame hm hn hf).fail _
    | unhandled =>
      exact (hr.setFrame hm hn (hf.map (fun f => { f with pending := some e }) fun _ => rfl)).fail _

theorem failAt (hh : host.Onlooking view) (h : m.Alike view n) (offset : Nat) (e : Failure) :
    Alike view (m.failAt host offset e) (n.failAt host offset e) := by
  cases e with
  | raised e => exact h.raise hh e offset
  | fatal e => exact h.fail _
  | uncatchable e => exact h.fail _

theorem resumeWith (h : m.Alike view n) (v : Value) (site : Instruction) :
    Alike view (m.resumeWith v site) (n.resumeWith v site) := by
  unfold Machine.resumeWith
  rcases h.heads with ⟨hm, hn⟩ | ⟨f, g, w, rest, rest', hm, hn, ha, -⟩
  · rw [hm, hn]
    exact h
  · rw [hm, hn]
    have hs : f.stack = g.stack := ha.congr (·.stack) fun _ => rfl
    dsimp only
    rw [hs]
    cases g.stack.push v with
    | ok stack =>
      exact (h.setFrame hm hn (ha.map (fun f => { f with stack }) fun _ => rfl)).withControl _
    | error e => exact h.fail _

theorem exhaust (h : m.Alike view n) (site : Instruction) :
    Alike view (m.exhaust site) (n.exhaust site) := by
  unfold Machine.exhaust
  rcases h.heads with ⟨hm, hn⟩ | ⟨f, g, w, rest, rest', hm, hn, ha, -⟩
  · rw [hm, hn]
    exact h
  · rw [hm, hn]
    have hs : f.stack = g.stack := ha.congr (·.stack) fun _ => rfl
    dsimp only
    rw [hs]
    cases g.stack.pop with
    | ok r =>
      have hf := ha.map (fun f => { f with stack := r.2 }) fun _ => rfl
      exact (h.setFrame hm hn hf).withControl _
    | error e => exact h.fail _

theorem failLoop (hh : host.Onlooking view) (h : m.Alike view n) (site : Instruction)
    (e : Failure) : Alike view (m.failLoop host site e) (n.failLoop host site e) := by
  unfold Machine.failLoop
  split
  · exact h.exhaust site
  · exact h.failAt hh site.offset e

/-- The result of a frame is the same to whoever waits for it. -/
theorem deliver (hh : host.Onlooking view) (h : m.Alike view n)
    (ha : Activation.Alike ⟨f, w⟩ ⟨g, w⟩) (result : Except Failure FrameExit) :
    Alike view (m.deliver host w.waiting f result) (n.deliver host w.waiting g result) := by
  cases ha with
  | outside hw hb =>
    rw [hw]
    exact { h with control := .halted hb result }
  | refl =>
    cases w.waiting with
    | outside => exact h.withControl _
    | call site =>
      match result with
      | .ok (.returned v) => exact h.resumeWith v site
      | .ok (.yielded v) =>
        exact h.failAt hh site.offset (.fatal (.invalidCode .yieldOutsideGenerator))
      | .error e => exact h.failAt hh site.offset e
    | loop r site =>
      unfold Machine.deliver
      dsimp only
      rw [h.heap]
      have hs := h.withHeap (n.heap.settle r f result)
      match result with
      | .ok (.yielded v) => exact hs.resumeWith v site
      | .ok (.returned v) => exact hs.exhaust site
      | .error e => exact hs.failLoop hh site e

/-! ### Frames that come and go -/

theorem enter (hh : host.Onlooking view) (h : m.Alike view n) (f : Frame) (input : Option Value)
    (raising : Option Raised) (w : Waiting) :
    Alike view (m.enter host f input raising w) (n.enter host f input raising w) := by
  have push (f : Frame) : Alike view
      { m with chain := ⟨f, f.entry w⟩ :: m.chain, control := .start raising }
      { n with chain := ⟨f, f.entry w⟩ :: n.chain, control := .start raising } :=
    { h with chain := .cons (.refl _) h.chain, control := .refl _ }
  have entered (f : Frame) := ((push f).report hh (.enter f.name (n.depth + 1))).report hh
    (.call f.name (n.depth + 1))
  unfold Machine.enter
  rw [h.depth, h.budget]
  cases n.budget.checkDepth n.depth with
  | error e => exact h.deliver hh (.refl ⟨f, f.entry w⟩) _
  | ok u =>
    cases input with
    | none => exact entered _
    | some v =>
      dsimp only
      cases f.stack.push v with
      | ok stack => exact entered _
      | error e => exact h.deliver hh (.refl ⟨f, f.entry w⟩) _

theorem start (hh : host.Onlooking view) (h : m.Alike view n) (raising : Option Raised) :
    Alike view (m.start host raising) (n.start host raising) := by
  unfold Machine.start
  rcases h.heads with ⟨hm, hn⟩ | ⟨f, g, w, rest, rest', hm, hn, ha, hr⟩
  · rw [hm, hn]
    exact h
  · rw [hm, hn]
    have ho : f.resumeOffset = g.resumeOffset := ha.congr Frame.resumeOffset fun _ => rfl
    have hl : f.lastOffset = g.lastOffset := ha.congr (·.lastOffset) fun _ => rfl
    dsimp only
    rw [ho, hl]
    cases g.resumeOffset with
    | error e => exact { h with chain := .cons ha hr, control := .refl _ }
    | ok offset =>
      cases raising with
      | none => exact h.withControl _
      | some e => exact h.raise hh e _

theorem leave (hh : host.Onlooking view) (h : m.Alike view n)
    (result : Except Failure FrameExit) :
    Alike view (m.leave host result) (n.leave host result) := by
  unfold Machine.leave
  rcases h.heads with ⟨hm, hn⟩ | ⟨f, g, w, rest, rest', hm, hn, ha, hr⟩
  · rw [hm, hn]
    exact h
  · rw [hm, hn]
    have hback : Activation.Alike ⟨f.released result, w⟩ ⟨g.released result, w⟩ := by
      refine ha.map (Frame.released · result) fun f => ?_
      show (if (result.isOk && f.finished) = true then _ else _ : Frame).bare =
        (if (result.isOk && f.finished) = true then _ else _ : Frame).bare
      split <;> rfl
    have left (value : Option Value) : Alike view
        (({ m.report host (.stop w.name value n.depth) with chain := rest } : Machine σ).report host
          (.leave w.name (rest'.length + 1)) |>.deliver host w.waiting (f.released result) result)
        (({ n.report host (.stop w.name value n.depth) with chain := rest' } : Machine σ).report
          host (.leave w.name (rest'.length + 1)) |>.deliver host w.waiting (g.released result)
            result) := by
      have hs := h.report hh (.stop w.name value n.depth)
      have hc : Alike view
          { m.report host (.stop w.name value n.depth) with chain := rest }
          { n.report host (.stop w.name value n.depth) with chain := rest' } :=
        { hs with chain := hr }
      exact (hc.report hh _).deliver hh hback result
    dsimp only
    rw [h.depth, hr.length_eq]
    cases result with
    | ok exit => exact left _
    | error e => exact left _

theorem follow (hh : host.Onlooking view) (h : m.Alike view n) (i : Instruction) (flow : Flow) :
    Alike view (m.follow host i flow) (n.follow host i flow) := by
  cases flow with
  | next => exact h.withControl _
  | jump target => exact h.withControl _
  | exit result =>
    cases result with
    | returned v =>
      unfold Machine.follow
      dsimp only
      rcases h.heads with ⟨hm, hn⟩ | ⟨f, g, w, rest, rest', hm, hn, ha, -⟩
      · rw [hm, hn]
        exact h
      · rw [hm, hn]
        exact (h.setFrame hm hn (ha.map Frame.finish fun _ => rfl)).withControl _
    | yielded v => exact h.withControl _
  | reraise e => exact h.fail _
  | invoke callee => exact h.enter hh callee none none _
  | advance r =>
    unfold Machine.follow
    dsimp only
    rw [h.heap]
    cases n.heap.takeFrame r false with
    | error e => exact h.failLoop hh i e
    | ok t => exact (h.withHeap t.2).enter hh t.1 _ none _

/-! ### Steps -/

/-- An instruction does the same to alike frames. -/
theorem execute {heap : Heap} (ha : Activation.Alike ⟨f, w⟩ ⟨g, w⟩) (current : Option Raised)
    (i : Instruction) :
    (∃ flow l l', (Exec.execute current i).run ⟨f, heap⟩ = .ok flow l ∧
        (Exec.execute current i).run ⟨g, heap⟩ = .ok flow l' ∧ l.heap = l'.heap ∧
        Activation.Alike ⟨l.frame, w⟩ ⟨l'.frame, w⟩) ∨
      ∃ e l l', (Exec.execute current i).run ⟨f, heap⟩ = .error e l ∧
        (Exec.execute current i).run ⟨g, heap⟩ = .error e l' ∧ l.heap = l'.heap ∧
        Activation.Alike ⟨l.frame, w⟩ ⟨l'.frame, w⟩ := by
  cases ha with
  | refl =>
    cases hx : (Exec.execute current i).run ⟨f, heap⟩ with
    | ok flow l => exact .inl ⟨flow, l, l, rfl, rfl, rfl, .refl _⟩
    | error e l => exact .inr ⟨e, l, l, rfl, rfl, rfl, .refl _⟩
  | outside hw hb =>
    -- an instruction sees neither the hook nor the caller
    have hx := Exec.blind_execute current i ⟨f, heap⟩
    have hy := Exec.blind_execute current i ⟨g, heap⟩
    have hl : Local.bare ⟨f, heap⟩ = Local.bare ⟨g, heap⟩ := by
      unfold Local.bare
      rw [hb]
    rw [hl, hy] at hx
    cases h₁ : (Exec.execute current i).run ⟨f, heap⟩ <;>
      cases h₂ : (Exec.execute current i).run ⟨g, heap⟩ <;> rw [h₁, h₂] at hx
    case ok.ok a l b l' =>
      obtain ⟨rfl, hl⟩ := EStateM.Result.ok.inj hx
      exact .inl ⟨_, l, l', rfl, rfl, (congrArg Local.heap hl).symm,
        .outside hw (congrArg Local.frame hl).symm⟩
    case error.error e l e' l' =>
      obtain ⟨rfl, hl⟩ := EStateM.Result.error.inj hx
      exact .inr ⟨_, l, l', rfl, rfl, (congrArg Local.heap hl).symm,
        .outside hw (congrArg Local.frame hl).symm⟩
    all_goals cases hx

theorem perform (hh : host.Onlooking view) (h : m.Alike view n) {f₀ g₀ : Frame}
    (hm : m.chain = ⟨f₀, w⟩ :: rest) (hn : n.chain = ⟨g₀, w⟩ :: rest')
    (ha : Activation.Alike ⟨f, w⟩ ⟨g, w⟩) (i : Instruction) :
    Alike view (m.perform host ⟨f, w⟩ i) (n.perform host ⟨g, w⟩ i) := by
  have hs : f.stack = g.stack := ha.congr (·.stack) fun _ => rfl
  have hr := h.report hh (.instruction i.offset i.opcode g.stack.depth n.depth)
  unfold Machine.perform
  dsimp only
  rw [hs, h.depth, hr.currentException, hr.heap]
  rcases execute ha _ i with ⟨flow, l, l', hf, hg, hl, hf'⟩ | ⟨e, l, l', hf, hg, hl, hf'⟩
  · rw [hf, hg]
    dsimp only
    rw [hl]
    exact ((hr.withHeap l'.heap).setFrame hm hn hf').follow hh i flow
  · rw [hf, hg]
    dsimp only
    rw [hl]
    exact ((hr.withHeap l'.heap).setFrame hm hn hf').failAt hh i.offset e

/-- A hook that has looked at the frame of one machine leaves it like the other. -/
theorem look (hh : host.Onlooking view) (h : m.Alike view n) (hook line : Nat) (f : Frame) :
    Alike view { m with
      heap := (host.onLine hook line f m.heap m.state).2.1
      state := (host.onLine hook line f m.heap m.state).2.2 } n :=
  { h with
    heap := (hh.heap hook line f m.heap m.state).trans h.heap
    state := (hh.state hook line f m.heap m.state).trans h.state }

theorem look' (hh : host.Onlooking view) (h : m.Alike view n) (hook line : Nat) (f : Frame) :
    Alike view m { n with
      heap := (host.onLine hook line f n.heap n.state).2.1
      state := (host.onLine hook line f n.heap n.state).2.2 } :=
  { h with
    heap := h.heap.trans (hh.heap hook line f n.heap n.state).symm
    state := h.state.trans (hh.state hook line f n.heap n.state).symm }

/-- Following a line leaves the same frame to execute, at the same offset, as long as the frame can
record it: a hook that is called lets the recorded offset be executed. -/
theorem traceLine (hh : host.Onlooking view) (h : m.Alike view n)
    (ha : Activation.Alike ⟨f, w⟩ ⟨g, w⟩) {o : Nat}
    (ho : w.waiting = .outside → f.recordedOffset o = o) :
    Alike view (m.traceLine host ⟨f, w⟩ o).1 (n.traceLine host ⟨g, w⟩ o).1 ∧
      Activation.Alike ⟨(m.traceLine host ⟨f, w⟩ o).2.1, w⟩
        ⟨(n.traceLine host ⟨g, w⟩ o).2.1, w⟩ ∧
      (m.traceLine host ⟨f, w⟩ o).2.2 = (n.traceLine host ⟨g, w⟩ o).2.2 := by
  have hline : f.lineAt? o = g.lineAt? o := ha.congr (·.lineAt? o) fun f => f.lineAt?_bare o
  have hrep : Activation.Alike ⟨f.reported o, w⟩ ⟨g.reported o, w⟩ :=
    ha.map (·.reported o) fun f => f.reported_bare o
  have hname : (f.reported o).name = (g.reported o).name := hrep.congr Frame.name fun _ => rfl
  have hrec : f.recordedOffset o = g.recordedOffset o :=
    ha.congr (·.recordedOffset o) fun _ => rfl
  -- where a hook lets the frame go on
  have seen (f : Frame) (hook line : Nat) (heap : Heap) (s : σ) :
      (host.onLine hook line (f.reported o) heap s).1.lastOffset.getD 0 = f.recordedOffset o := by
    rw [hh.frame]
    rfl
  rw [Machine.traceLine_eq, Machine.traceLine_eq]
  dsimp only
  rw [← hline]
  cases f.lineAt? o with
  | none => exact ⟨h, hrep, rfl⟩
  | some line =>
    have hr := h.report hh (.line (g.reported o).name line)
    dsimp only
    rw [hname]
    cases hf : (f.reported o).trace.hook with
    | none =>
      cases hg : (g.reported o).trace.hook with
      | none => exact ⟨hr, hrep, rfl⟩
      | some hook =>
        refine ⟨hr.look' hh hook line _, by dsimp only; rw [hh.frame]; exact hrep, ?_⟩
        dsimp only
        rw [seen, ← hrec]
        cases ha with
        | refl =>
          rw [hf] at hg
          cases hg
        | outside hw => exact (ho hw).symm
    | some hook =>
      cases hg : (g.reported o).trace.hook with
      | none =>
        refine ⟨hr.look hh hook line _, by dsimp only; rw [hh.frame]; exact hrep, ?_⟩
        dsimp only
        rw [seen]
        cases ha with
        | refl =>
          rw [hf] at hg
          cases hg
        | outside hw => exact ho hw
      | some hook' =>
        refine ⟨(hr.look hh hook line _).look' hh hook' line _, ?_, ?_⟩
        · dsimp only
          rw [hh.frame, hh.frame]
          exact hrep
        · dsimp only
          rw [seen, seen, hrec]

theorem dispatch (hh : host.Onlooking view) (h : m.Alike view n) {o : Nat}
    (ho : ∀ f w rest, m.chain = ⟨f, w⟩ :: rest → w.waiting = .outside → f.recordedOffset o = o) :
    Alike view (m.dispatch host o) (n.dispatch host o) := by
  unfold Machine.dispatch
  rcases h.heads with ⟨hm, hn⟩ | ⟨f, g, w, rest, rest', hm, hn, ha, hr⟩
  · rw [hm, hn]
    exact h
  · rw [hm, hn, h.budget]
    dsimp only
    obtain ⟨admitted, budget⟩ := n.budget.dispatch
    have hb : Alike view { m with budget } { n with budget } := { h with budget := rfl }
    cases admitted with
    | error e =>
      rw [hm, hn] at hb
      exact hb.fail _
    | ok u =>
      have ht := hb.traceLine hh ha (o := o) fun hw => ho f w rest hm hw
      have hcm := (traceLine_spec host { m with budget } ⟨f, w⟩ o).2.1
      have hcn := (traceLine_spec host { n with budget } ⟨g, w⟩ o).2.1
      simp only [hm, hn] at ht hcm hcn ⊢
      generalize Machine.traceLine host _ ⟨f, w⟩ o = t at ht hcm ⊢
      generalize Machine.traceLine host _ ⟨g, w⟩ o = t' at ht hcn ⊢
      obtain ⟨m', f', o'⟩ := t
      obtain ⟨n', g', o''⟩ := t'
      obtain ⟨ht, hf, rfl⟩ := ht
      have hs := ht.setFrame hcm hcn hf
      -- a hook may have changed the frame, but it has done so on both sides
      have hcode : f'.code = g'.code := hf.congr (·.code) fun _ => rfl
      dsimp only
      rw [hcode]
      cases Instruction.decode g'.code.body.bytecode o' with
      | error e => exact hs.fail _
      | ok i => exact hs.perform hh (setFrame_chain hcm f') (setFrame_chain hcn g') hf i

end Machine.Alike

namespace Machine

/-- What is about to be dispatched in the outermost frame lies where the frame can record it. -/
def Recordable (m : Machine σ) : Prop :=
  ∀ f w rest o, m.chain = ⟨f, w⟩ :: rest → w.waiting = .outside → m.control = .dispatch o →
    f.recordedOffset o = o

variable {host : Host σ} {view : σ → τ} {m n : Machine σ}

/-- **Alike machines take alike steps.** -/
theorem Alike.step (hh : host.Onlooking view) (h : m.Alike view n) (hr : m.Recordable) :
    Alike view (m.step host) (n.step host) := by
  unfold Machine.step
  have hc := h.control
  cases hm : m.control <;> cases hn : n.control <;> rw [hm, hn] at hc
  case start.start raising _ =>
    cases hc
    exact h.start hh raising
  case dispatch.dispatch o _ =>
    cases hc
    exact h.dispatch hh fun f w rest hf hw => hr f w rest o hf hw hm
  case leave.leave result _ =>
    cases hc
    exact h.leave hh result
  case halted.halted => exact h
  all_goals cases hc

theorem Alike.isHalted (h : m.Alike view n) : m.isHalted = n.isHalted := by
  have hc := h.control
  unfold Machine.isHalted
  cases hm : m.control <;> cases hn : n.control <;> rw [hm, hn] at hc
  all_goals first
    | rfl
    | cases hc

/-- **Alike machines run in lockstep.** -/
theorem Alike.run (hh : host.Onlooking view) (h : m.Alike view n)
    (hr : ∀ fuel, (Machine.run host fuel m).Recordable) (fuel : Nat) :
    Alike view (Machine.run host fuel m) (Machine.run host fuel n) := by
  induction fuel generalizing m n with
  | zero => exact h
  | succ fuel ih =>
    unfold Machine.run
    rw [h.isHalted]
    by_cases hn : n.isHalted = true
    · rw [if_pos hn, if_pos hn]
      exact h
    · rw [if_neg hn, if_neg hn]
      refine ih (h.step hh (hr 0)) fun k => ?_
      have hk := hr (k + 1)
      unfold Machine.run at hk
      rw [h.isHalted, if_neg hn] at hk
      exact hk

/-- Alike machines have come to the same result, and to frames that differ at most in what a bare
frame lacks. -/
theorem Alike.outcome? (h : m.Alike view n) :
    m.outcome?.map (fun r => (r.1.bare, r.2)) = n.outcome?.map fun r => (r.1.bare, r.2) := by
  have hc := h.control
  unfold Machine.outcome?
  cases hm : m.control <;> cases hn : n.control <;> rw [hm, hn] at hc
  case halted.halted f result g result' =>
    cases hc with
    | refl => rfl
    | halted hb => exact congrArg some (Prod.ext hb rfl)
  all_goals first
    | rfl
    | cases hc

end Machine

end Resumable
