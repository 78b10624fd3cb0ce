import Resumable.Proofs.Machine.Blindness
import Resumable.Proofs.Machine.Depth
import Resumable.Proofs.Machine.Sessions

/-!
# A frame apart from its callers

A frame that runs above its callers, and the same frame run with nothing below it, do the same step
by step (`Machine.Atop.step`), for a host that does not see how deep a frame is (`Host.Unplaced`).
There are two exceptions: the frame may find its callers too many for another call, and it may raise
again an exception that only a caller handles (`Machine.LooksBelow`).

What a frame knows of its callers is `Frame.back`; frames are compared without it (`Frame.sole`).
`view` is what is compared of the states of the host.
-/

namespace Resumable

variable {σ τ : Type}

namespace Frame

/-- The frame without its caller. -/
def sole (f : Frame) : Frame := { f with back := none }

variable {f g : Frame}

theorem eq_of_sole (h : f.sole = g.sole) : g = { f with back := g.back } := by
  cases f
  cases g
  unfold sole at h
  simp only [mk.injEq] at h ⊢
  simp_all

/-- Frames that are the same but for their callers, in terms of bare ones. -/
theorem sole_eq_iff : f.sole = g.sole ↔ f.bare = g.bare ∧ f.trace = g.trace := by
  refine ⟨fun h => ?_, fun ⟨hb, ht⟩ => ?_⟩
  · have hb : f.sole.bare = g.sole.bare := congrArg bare h
    have ht : f.sole.trace = g.sole.trace := congrArg trace h
    exact ⟨hb, ht⟩
  · have hf : f.sole = { f.bare with trace := f.trace } := rfl
    have hg : g.sole = { g.bare with trace := g.trace } := rfl
    rw [hf, hg, hb, ht]

/-- What does not depend on the caller is the same. -/
theorem congr_sole {α : Type} (F : Frame → α) (hF : ∀ f : Frame, F f.sole = F f)
    (h : f.sole = g.sole) : F f = F g := by
  rw [← hF, h, hF]

/-- A frame is handed back without its caller. -/
theorem released_sole (h : f.sole = g.sole) (result : Except Failure FrameExit) :
    f.released result = g.released result :=
  congr_sole (·.released result) (fun _ => rfl) h

/-- A way to lead a frame on, and what is reported of it, that do not depend on the caller. -/
def Unlinked (P : Frame → Frame × Standing) (es : Frame → List Event) : Prop :=
  ∀ f g : Frame, f.sole = g.sole → (P f).1.sole = (P g).1.sole ∧ (P f).2 = (P g).2 ∧ es f = es g

theorem unlinked_failing (e : Failure) : Unlinked (·.failing e) fun _ => [] := by
  intro f g h
  rw [eq_of_sole h]
  exact ⟨rfl, rfl, rfl⟩

theorem unlinked_resumed (v : Value) (site : Instruction) :
    Unlinked (·.resumed v site) fun _ => [] := by
  intro f g h
  rw [eq_of_sole h]
  dsimp only [resumed]
  cases f.stack.push v <;> exact ⟨rfl, rfl, rfl⟩

theorem unlinked_exhausted (site : Instruction) : Unlinked (·.exhausted site) fun _ => [] := by
  intro f g h
  rw [eq_of_sole h]
  dsimp only [exhausted]
  cases f.stack.pop <;> exact ⟨rfl, rfl, rfl⟩

/-- Unwinding does not depend on the caller. -/
theorem unwind_sole (h : f.sole = g.sole) (reason : Unwind Value) :
    (f.unwind reason).1.sole = (g.unwind reason).1.sole ∧
      (f.unwind reason).2 = (g.unwind reason).2 := by
  obtain ⟨hb, ht⟩ := sole_eq_iff.1 h
  have hu := unwind_bare f reason
  rw [hb, unwind_bare g reason] at hu
  obtain ⟨hbare, hu⟩ := Prod.mk.inj hu
  refine ⟨sole_eq_iff.2 ⟨hbare.symm, ?_⟩, hu.symm⟩
  rw [(unwind_spec (Prod.eta (f.unwind reason)).symm).1.trace,
    (unwind_spec (Prod.eta (g.unwind reason)).symm).1.trace, ht]

theorem unlinked_raising (e : Raised) (offset : Nat) :
    Unlinked (·.raising e offset) fun f =>
      [.exception f.name (e.through ⟨f.name, f.code.body.lineForOffset offset, offset⟩)] := by
  intro f g h
  have hcode : f.code = g.code := congr_sole (·.code) (fun _ => rfl) h
  unfold raising name
  dsimp only
  rw [hcode]
  generalize e.through ⟨g.code.body.name, g.code.body.lineForOffset offset, offset⟩ = e
  obtain ⟨hs, hu⟩ := unwind_sole h (.raising e)
  generalize f.unwind (.raising e) = p at hs hu ⊢
  generalize g.unwind (.raising e) = q at hs hu ⊢
  obtain ⟨f', u⟩ := p
  obtain ⟨g', u'⟩ := q
  obtain rfl : u = u' := hu
  have hg : g' = { f' with back := g'.back } := eq_of_sole hs
  rw [hg]
  cases u <;> exact ⟨rfl, rfl, rfl⟩

end Frame

/-- An instruction that may put a frame on the chain. -/
def Opcode.mayEnter : Opcode → Bool
  | callFunction | forIter => true
  | _ => false

/-- Execution goes on in another frame. -/
def Flow.enters : Flow → Bool
  | invoke _ | advance _ => true
  | _ => false

theorem Exec.Effect.mayEnter {i : Instruction} {f g : Frame} {flow : Flow}
    (h : Effect i f flow g) (he : flow.enters = true) : i.opcode.mayEnter = true := by
  cases h with
  | invoke hop _ =>
    rw [hop]
    rfl
  | advance hop _ =>
    rw [hop]
    rfl
  | _ => cases he

/-- An event about frames that come and go. -/
def Event.isPassage : Event → Bool
  | enter _ _ | leave _ _ | call _ _ | stop _ _ _ => true
  | _ => false

/-- What is seen of the host does not depend on where in the chain a frame is, nor on which frames
come and go. -/
structure Host.Unplaced (host : Host σ) (view : σ → τ) : Prop where
  observe : ∀ h e s s', view s = view s' → view (host.observe h e s) = view (host.observe h e s')
  passage : ∀ h (e : Event) s, e.isPassage = true → view (host.observe h e s) = view s
  depth : ∀ h offset opcode stackDepth d d' s,
    view (host.observe h (.instruction offset opcode stackDepth d) s) =
      view (host.observe h (.instruction offset opcode stackDepth d') s)
  hook : ∀ hook line (f g : Frame) h s s', f.sole = g.sole → view s = view s' →
    (host.onLine hook line f h s).1.sole = (host.onLine hook line g h s').1.sole ∧
    (host.onLine hook line f h s).2.1 = (host.onLine hook line g h s').2.1 ∧
    view (host.onLine hook line f h s).2.2 = view (host.onLine hook line g h s').2.2

theorem Host.Unplaced.told {host : Host σ} {view : σ → τ} (hh : host.Unplaced view) (h : Heap)
    (es : List Event) {s s' : σ} (hs : view s = view s') :
    view (host.told h es s) = view (host.told h es s') := by
  induction es generalizing s s' with
  | nil => exact hs
  | cons e es ih => exact ih (hh.observe h e _ _ hs)

/-- Frames that come and go are not seen. -/
theorem Host.Unplaced.passages {host : Host σ} {view : σ → τ} (hh : host.Unplaced view) (h : Heap)
    (es : List Event) (he : ∀ e ∈ es, e.isPassage = true) (s : σ) :
    view (host.told h es s) = view s := by
  induction es generalizing s with
  | nil => rfl
  | cons e es ih =>
    obtain ⟨he, hes⟩ := List.forall_mem_cons.1 he
    exact (ih hes _).trans (hh.passage h e s he)

/-- A frame may be put on chains of so many frames and of fewer. -/
def Budget.Admits (b : Budget) (depth : Nat) : Prop := ∀ d ≤ depth, b.checkDepth d = .ok ()

namespace Machine

/-- The exception that the frames of a chain handle. -/
def handled (chain : List Activation) : Option Raised := chain.findSome? (·.frame.pending)

/-- The next step raises again the exception being handled, which is handled by a frame of `below`
and by none above. -/
def LooksBelow (host : Host σ) (below : List Activation) (m : Machine σ) : Prop :=
  ∃ f w top g o i, m.chain = ⟨f, w⟩ :: (top ++ below) ∧ m.decodes? host = some (g, o) ∧
    Instruction.decode g.code.body.bytecode o = .ok i ∧ i.opcode = .raiseVarargs ∧
    i.arg.toNat = 0 ∧ g.pending = none ∧ handled top = none ∧ handled below ≠ none

/-- The next instruction is one that may need another frame, and a frame would be refused on the
chain or on a shorter one. -/
def Crowded (host : Host σ) (m : Machine σ) : Prop :=
  ∃ g o i, m.decodes? host = some (g, o) ∧ Instruction.decode g.code.body.bytecode o = .ok i ∧
    i.opcode.mayEnter = true ∧ ¬m.budget.dispatch.2.Admits m.depth

/-- The frames `below` have waited from the start of the run up to its move `k`. -/
def Awaits (host : Host σ) (below : List Activation) (m : Machine σ) (k : Nat) : Prop :=
  ∀ j ≤ k, ∃ a above, (run host j m).chain = a :: (above ++ below)

/-- A chain above the frames `below`, for which its outermost frame is `w₀`, and the same chain with
nothing below it. -/
inductive Stacked (w₀ : Entry) (below : List Activation) :
    List Activation → List Activation → Prop
  | bottom {f g : Frame} {v : Entry} (hv : v.waiting = .outside) (h : f.sole = g.sole) :
    Stacked w₀ below (⟨f, w₀⟩ :: below) [⟨g, v⟩]
  | above {f g : Frame} {w : Entry} {chain chain' : List Activation} (h : f.sole = g.sole)
      (hw : w.waiting ≠ .outside) (hs : Stacked w₀ below chain chain') :
    Stacked w₀ below (⟨f, w⟩ :: chain) (⟨g, w⟩ :: chain')

theorem control_setFrame (m : Machine σ) (f : Frame) : (m.setFrame f).control = m.control := by
  unfold setFrame
  split <;> rfl

theorem depth_setFrame (m : Machine σ) (f : Frame) : (m.setFrame f).depth = m.depth := by
  unfold setFrame depth
  split
  · rfl
  · rename_i hc
    rw [hc]
    rfl

variable {host : Host σ} {view : σ → τ} {w₀ : Entry} {below : List Activation}
  {m n m' n' : Machine σ} {f g : Frame} {w v : Entry} {rest chain chain' : List Activation}
  {P : Frame → Frame × Standing} {es : Frame → List Event}

namespace Stacked

theorem length (h : Stacked w₀ below chain chain') :
    chain.length = chain'.length + below.length := by
  induction h with
  | bottom => exact Nat.add_comm _ _
  | above _ _ _ ih =>
    rw [List.length_cons, List.length_cons, ih]
    omega

/-- The frames above `below`, and what they handle. -/
theorem handled (h : Stacked w₀ below chain chain') :
    ∃ top, chain = top ++ below ∧ top ≠ [] ∧ Machine.handled top = Machine.handled chain' := by
  induction h with
  | @bottom f g v hv h =>
    have hp : f.pending = g.pending := Frame.congr_sole (·.pending) (fun _ => rfl) h
    refine ⟨[⟨f, w₀⟩], rfl, List.cons_ne_nil _ _, ?_⟩
    unfold Machine.handled
    simp only [List.findSome?_cons, hp]
  | @above f g w _ _ h _ _ ih =>
    obtain ⟨top, rfl, -, hi⟩ := ih
    have hp : f.pending = g.pending := Frame.congr_sole (·.pending) (fun _ => rfl) h
    refine ⟨⟨f, w⟩ :: top, rfl, List.cons_ne_nil _ _, ?_⟩
    unfold Machine.handled at hi ⊢
    simp only [List.findSome?_cons, hp, hi]

/-- The innermost frames; they may be replaced by others that are the same but for their callers. -/
theorem heads (h : Stacked w₀ below chain chain') :
    ∃ f g w w' rest rest', chain = ⟨f, w⟩ :: rest ∧ chain' = ⟨g, w'⟩ :: rest' ∧
      f.sole = g.sole ∧
      ∀ f' g' : Frame, f'.sole = g'.sole →
        Stacked w₀ below (⟨f', w⟩ :: rest) (⟨g', w'⟩ :: rest') := by
  cases h with
  | bottom hv h => exact ⟨_, _, _, _, _, _, rfl, rfl, h, fun _ _ h' => .bottom hv h'⟩
  | above h hw hs => exact ⟨_, _, _, _, _, _, rfl, rfl, h, fun _ _ h' => .above h' hw hs⟩

/-- If the outermost frame above `below` is innermost, it is the only one of the other chain. -/
theorem of_outermost (h : Stacked w₀ below (⟨f, w₀⟩ :: below) chain') :
    ∃ g v, chain' = [⟨g, v⟩] ∧ v.waiting = .outside ∧ f.sole = g.sole := by
  cases h with
  | bottom hv h => exact ⟨_, _, rfl, hv, h⟩
  | above _ _ hs =>
    obtain ⟨_, _, _, _, _, _, -, hc, -⟩ := hs.heads
    have hl := hs.length
    rw [hc, List.length_cons] at hl
    omega

end Stacked

/-- The machine `m` has above the frames `below` what `n` has with nothing below it. -/
structure Beside (view : σ → τ) (w₀ : Entry) (below : List Activation) (m n : Machine σ) :
    Prop where
  heap : m.heap = n.heap
  budget : m.budget = n.budget
  state : view m.state = view n.state
  stacked : Stacked w₀ below m.chain n.chain

/-- The machine `m` runs above the frames `below` what `n` runs with nothing below it. -/
structure Atop (view : σ → τ) (w₀ : Entry) (below : List Activation) (m n : Machine σ) : Prop
    extends Beside view w₀ below m n where
  control : m.control = n.control

/-- A frame with nothing below it is about to leave with a result. -/
def LeavesAlone (m : Machine σ) (f : Frame) (result : Except Failure FrameExit) : Prop :=
  ∃ v : Entry, v.waiting = .outside ∧ m.Stands [] v (f, .leaving result)

/-- After `k` moves a frame that ran above `below` in the one machine, and alone in the other, is
about to leave both with a result. -/
structure Parting (host : Host σ) (view : σ → τ) (w₀ : Entry) (below : List Activation)
    (m n : Machine σ) (k : Nat) (f g : Frame) (result : Except Failure FrameExit) : Prop where
  awaits : m.Awaits host below k
  atop : Atop view w₀ below (run host k m) (run host k n)
  stands : (run host k m).Stands below w₀ (f, .leaving result)
  alone : (run host k n).LeavesAlone g result
  sole : f.sole = g.sole

/-- Replacing the innermost frames. -/
theorem Beside.setFrame (h : m.Beside view w₀ below n) (hs : f.sole = g.sole) :
    Beside view w₀ below (m.setFrame f) (n.setFrame g) := by
  obtain ⟨_, _, w, w', rest, rest', hm, hn, -, hf⟩ := h.stacked.heads
  unfold Machine.setFrame
  rw [hm, hn]
  exact { h with stacked := hf f g hs }

/-- **Leading the innermost frames on in the same way.** -/
theorem Beside.leads (hh : host.Unplaced view) (h : m.Beside view w₀ below n)
    (hm : m.Leads host m' P es) (hn : n.Leads host n' P es) (hu : Frame.Unlinked P es) :
    m'.Atop view w₀ below n' := by
  obtain ⟨f, g, w, w', rest, rest', hcm, hcn, hs, hf⟩ := h.stacked.heads
  obtain ⟨hp, hstanding, hes⟩ := hu f g hs
  have hsm := hm.stands f w rest hcm
  have hsn := hn.stands g w' rest' hcn
  refine ⟨⟨?_, ?_, ?_, ?_⟩, ?_⟩
  · rw [hm.heap, hn.heap, h.heap]
  · rw [hm.budget, hn.budget, h.budget]
  · rw [hm.state f w rest hcm, hn.state g w' rest' hcn, h.heap, hes]
    exact hh.told _ _ h.state
  · rw [hsm.chain, hsn.chain]
    exact hf _ _ hp
  · exact Option.some.inj (hsm.control.symm.trans (hstanding ▸ hsn.control))

namespace Atop

theorem withControl (h : m.Atop view w₀ below n) (c : Control) :
    Atop view w₀ below { m with control := c } { n with control := c } :=
  { h with control := rfl }

theorem withHeap (h : m.Atop view w₀ below n) (heap : Heap) :
    Atop view w₀ below { m with heap } { n with heap } :=
  { h with heap := rfl }

theorem withBudget (h : m.Atop view w₀ below n) (budget : Budget) :
    Atop view w₀ below { m with budget } { n with budget } :=
  { h with budget := rfl }

theorem report (hh : host.Unplaced view) (h : m.Atop view w₀ below n) (e : Event) :
    Atop view w₀ below (m.report host e) (n.report host e) :=
  { h with
    state := by
      show view (host.observe m.heap e m.state) = view (host.observe n.heap e n.state)
      rw [h.heap]
      exact hh.observe _ _ _ _ h.state }

theorem setFrame (h : m.Atop view w₀ below n) (hs : f.sole = g.sole) :
    Atop view w₀ below (m.setFrame f) (n.setFrame g) := by
  refine { h.toBeside.setFrame hs with control := ?_ }
  rw [control_setFrame, control_setFrame, h.control]

theorem fail (hh : host.Unplaced view) (h : m.Atop view w₀ below n) (e : Failure) :
    Atop view w₀ below (m.fail e) (n.fail e) :=
  h.toBeside.leads hh (leads_fail m e) (leads_fail n e) (Frame.unlinked_failing e)

theorem goTo (h : m.Atop view w₀ below n) (o : Nat) :
    Atop view w₀ below (m.goTo o) (n.goTo o) := h.withControl _

theorem raise (hh : host.Unplaced view) (h : m.Atop view w₀ below n) (e : Raised) (offset : Nat) :
    Atop view w₀ below (m.raise host e offset) (n.raise host e offset) :=
  h.toBeside.leads hh (leads_raise m e offset) (leads_raise n e offset)
    (Frame.unlinked_raising e offset)

theorem failAt (hh : host.Unplaced view) (h : m.Atop view w₀ below n) (offset : Nat)
    (e : Failure) : Atop view w₀ below (m.failAt host offset e) (n.failAt host offset e) := by
  cases e with
  | raised e => exact h.raise hh e offset
  | fatal e => exact h.fail hh _
  | uncatchable e => exact h.fail hh _

theorem resumeWith (hh : host.Unplaced view) (h : m.Atop view w₀ below n) (v : Value)
    (site : Instruction) : Atop view w₀ below (m.resumeWith v site) (n.resumeWith v site) :=
  h.toBeside.leads hh (leads_resumeWith m v site) (leads_resumeWith n v site)
    (Frame.unlinked_resumed v site)

theorem exhaust (hh : host.Unplaced view) (h : m.Atop view w₀ below n) (site : Instruction) :
    Atop view w₀ below (m.exhaust site) (n.exhaust site) :=
  h.toBeside.leads hh (leads_exhaust m site) (leads_exhaust n site) (Frame.unlinked_exhausted site)

theorem failLoop (hh : host.Unplaced view) (h : m.Atop view w₀ below n) (site : Instruction)
    (e : Failure) : Atop view w₀ below (m.failLoop host site e) (n.failLoop host site e) := by
  unfold Machine.failLoop
  split
  · exact h.exhaust hh site
  · exact h.failAt hh site.offset e

theorem start (hh : host.Unplaced view) (h : m.Atop view w₀ below n) (raising : Option Raised) :
    Atop view w₀ below (m.start host raising) (n.start host raising) := by
  obtain ⟨f, g, w, w', rest, rest', hm, hn, hs, hf⟩ := h.stacked.heads
  have ho : f.resumeOffset = g.resumeOffset := Frame.congr_sole Frame.resumeOffset (fun _ => rfl) hs
  have hl : f.lastOffset = g.lastOffset := Frame.congr_sole (·.lastOffset) (fun _ => rfl) hs
  unfold Machine.start
  rw [hm, hn]
  dsimp only
  rw [ho, hl]
  cases g.resumeOffset with
  | error e => exact { h with stacked := hf f g hs, control := rfl }
  | ok offset =>
    cases raising with
    | none => exact h.goTo offset
    | some e => exact h.raise hh e _

/-! ### Frames that come and go -/

/-- Whoever waits above is given the same. -/
theorem deliver (hh : host.Unplaced view) (h : m.Atop view w₀ below n) {v : Waiting}
    (hv : v ≠ .outside) (k : Frame) (result : Except Failure FrameExit) :
    Atop view w₀ below (m.deliver host v k result) (n.deliver host v k result) := by
  cases v with
  | outside => exact absurd rfl hv
  | call site =>
    match result with
    | .ok (.returned v) => exact h.resumeWith hh v site
    | .ok (.yielded v) =>
      exact h.failAt hh site.offset (.fatal (.invalidCode .yieldOutsideGenerator))
    | .error e => exact h.failAt hh site.offset e
  | loop r site =>
    have hs : Atop view w₀ below { m with heap := m.heap.settle r k result }
        { n with heap := n.heap.settle r k result } := { h with heap := by rw [h.heap] }
    match result with
    | .ok (.yielded v) => exact hs.resumeWith hh v site
    | .ok (.returned v) => exact hs.exhaust hh site
    | .error e => exact hs.failLoop hh site e

theorem depth_le (h : m.Atop view w₀ below n) : n.depth ≤ m.depth := by
  unfold Machine.depth
  rw [h.stacked.length]
  exact Nat.le_add_right _ _

theorem enter (hh : host.Unplaced view) (h : m.Atop view w₀ below n) {v : Waiting}
    (hv : v ≠ .outside) (hroom : m.budget.Admits m.depth) (k : Frame) (input : Option Value)
    (raising : Option Raised) :
    Atop view w₀ below (m.enter host k input raising v) (n.enter host k input raising v) := by
  have pushed (stack : OperandStack) :
      Atop view w₀ below (m.pushed host k stack raising v) (n.pushed host k stack raising v) := by
    refine ⟨⟨h.heap, h.budget, ?_, .above rfl hv h.stacked⟩, rfl⟩
    have passage : ∀ d, ∀ e ∈ [Event.enter k.name d, .call k.name d], e.isPassage = true := by
      simp [Event.isPassage]
    exact ((hh.passages _ _ (passage _) _).trans h.state).trans
      (hh.passages _ _ (passage _) _).symm
  have refused (e : Failure) := h.deliver hh hv k (.error e)
  have hroom' : n.budget.checkDepth n.depth = .ok () := h.budget ▸ hroom n.depth h.depth_le
  -- with room for the frame, only what it is resumed with decides
  unfold Machine.enter
  rw [hroom m.depth (Nat.le_refl _), hroom']
  dsimp only
  cases input with
  | none => exact pushed k.stack
  | some x =>
    dsimp only
    cases k.stack.push x with
    | ok s => exact pushed s
    | error fault => exact refused (.fatal fault)

/-- A frame that leaves to one above `below`. -/
theorem leave (hh : host.Unplaced view) (h : m.Atop view w₀ below n)
    (hn : ∀ g v, n.chain = [⟨g, v⟩] → v.waiting ≠ .outside) (result : Except Failure FrameExit) :
    Atop view w₀ below (m.leave host result) (n.leave host result) := by
  have hs := h.stacked
  generalize hcm : m.chain = cm at hs
  generalize hcn : n.chain = cn at hs
  cases hs with
  | bottom hv _ => exact absurd hv (hn _ _ hcn)
  | @above f g w rest rest' hsole hw hrest =>
    rw [leave_eq m hcm, leave_eq n hcn, Frame.released_sole hsole]
    suffices hp : Atop view w₀ below (m.popped host w rest result) (n.popped host w rest' result)
      from hp.deliver hh hw _ _
    refine ⟨⟨h.heap, h.budget, ?_, hrest⟩, h.control⟩
    have passage (name : String) (value : Option Value) (d d' : Nat) :
        ∀ e ∈ [Event.stop name value d, .leave name d'], e.isPassage = true := by
      simp [Event.isPassage]
    exact ((hh.passages _ _ (passage _ _ _ _) _).trans h.state).trans
      (hh.passages _ _ (passage _ _ _ _) _).symm

theorem follow (hh : host.Unplaced view) (h : m.Atop view w₀ below n) (i : Instruction)
    (flow : Flow) (hroom : flow.enters = true → m.budget.Admits m.depth) :
    Atop view w₀ below (m.follow host i flow) (n.follow host i flow) := by
  cases flow with
  | next => exact h.goTo _
  | jump target => exact h.goTo _
  | exit result =>
    cases result with
    | returned v =>
      obtain ⟨f, g, w, w', rest, rest', hm, hn, hs, -⟩ := h.stacked.heads
      unfold Machine.follow
      dsimp only
      rw [hm, hn]
      have hf : f.finish.sole = g.finish.sole := by
        rw [Frame.eq_of_sole hs]
        rfl
      exact (h.setFrame hf).withControl _
    | yielded v => exact h.withControl _
  | reraise e => exact h.fail hh _
  | invoke callee => exact h.enter hh (fun hn => by cases hn) (hroom rfl) callee none none
  | advance r =>
    unfold Machine.follow
    dsimp only
    rw [h.heap]
    cases n.heap.takeFrame r false with
    | error e => exact h.failLoop hh i e
    | ok t => exact (h.withHeap t.2).enter hh (fun hn => by cases hn) (hroom rfl) t.1 _ none

/-! ### Instructions -/

/-- Only a bare raise asks for the exception being handled. -/
theorem execute_current {i : Instruction} (hi : i.opcode = .raiseVarargs → i.arg.toNat ≠ 0)
    (current current' : Option Raised) : Exec.execute current i = Exec.execute current' i := by
  obtain ⟨o, op, arg⟩ := i
  cases op
  case raiseVarargs =>
    have hraised : Exec.raised current arg.toNat = Exec.raised current' arg.toNat := by
      unfold Exec.raised
      split
      · exact absurd (by assumption) (hi rfl)
      all_goals rfl
    show (Exec.raised current arg.toNat >>= fun e => Exec.raise e) = _
    rw [hraised]
    rfl
  all_goals rfl

/-- An instruction does not depend on the caller of its frame. -/
theorem execute (hs : f.sole = g.sole) (heap : Heap) (current : Option Raised) (i : Instruction) :
    (∃ flow l l', (Exec.execute current i).run ⟨f, heap⟩ = .ok flow l ∧
        (Exec.execute current i).run ⟨g, heap⟩ = .ok flow l' ∧ l.heap = l'.heap ∧
        l.frame.sole = l'.frame.sole) ∨
      ∃ e l l', (Exec.execute current i).run ⟨f, heap⟩ = .error e l ∧
        (Exec.execute current i).run ⟨g, heap⟩ = .error e l' ∧ l.heap = l'.heap ∧
        l.frame.sole = l'.frame.sole := by
  obtain ⟨hb, ht⟩ := Frame.sole_eq_iff.1 hs
  have hx := Exec.blind_execute current i ⟨f, heap⟩
  have hy := Exec.blind_execute current i ⟨g, heap⟩
  have hl : Local.bare ⟨f, heap⟩ = Local.bare ⟨g, heap⟩ := by
    unfold Local.bare
    rw [hb]
  rw [hl, hy] at hx
  cases h₁ : (Exec.execute current i).run ⟨f, heap⟩ <;>
    cases h₂ : (Exec.execute current i).run ⟨g, heap⟩ <;> rw [h₁, h₂] at hx
  case ok.ok a l b l' =>
    obtain ⟨rfl, hl⟩ := EStateM.Result.ok.inj hx
    refine .inl ⟨_, l, l', rfl, rfl, (congrArg Local.heap hl).symm,
      Frame.sole_eq_iff.2 ⟨(congrArg Local.frame hl).symm, ?_⟩⟩
    rw [(Exec.effect_of_execute h₁).akin.trace, (Exec.effect_of_execute h₂).akin.trace, ht]
  case error.error e l e' l' =>
    obtain ⟨rfl, hl⟩ := EStateM.Result.error.inj hx
    refine .inr ⟨_, l, l', rfl, rfl, (congrArg Local.heap hl).symm,
      Frame.sole_eq_iff.2 ⟨(congrArg Local.frame hl).symm, ?_⟩⟩
    rw [(Exec.damage_of_execute h₁).toAkin.trace, (Exec.damage_of_execute h₂).toAkin.trace, ht]
  all_goals cases hx

theorem executed (h : m.Atop view w₀ below n) {l l' : Local} (hl : l.heap = l'.heap)
    (hs : l.frame.sole = l'.frame.sole) : Atop view w₀ below (m.executed l) (n.executed l') := by
  have hheap : Atop view w₀ below { m with heap := l.heap } { n with heap := l'.heap } :=
    { h with heap := hl }
  exact hheap.setFrame hs

/-- Executing an instruction that does the same whatever the callers handle. -/
theorem perform (hh : host.Unplaced view) (h : m.Atop view w₀ below n) (hs : f.sole = g.sole)
    (i : Instruction)
    (hroom : i.opcode.mayEnter = true → m.budget.Admits m.depth)
    (hi : Exec.execute m.currentException i = Exec.execute n.currentException i) :
    Atop view w₀ below (m.perform host ⟨f, w⟩ i) (n.perform host ⟨g, v⟩ i) := by
  have hstack : f.stack = g.stack := Frame.congr_sole (·.stack) (fun _ => rfl) hs
  have hr : Atop view w₀ below (m.announced host f i) (n.announced host g i) := by
    refine { h with state := ?_ }
    show view (host.observe m.heap (.instruction i.offset i.opcode f.stack.depth m.depth) m.state) =
      view (host.observe n.heap (.instruction i.offset i.opcode g.stack.depth n.depth) n.state)
    rw [h.heap, hstack, hh.depth _ _ _ _ m.depth n.depth]
    exact hh.observe _ _ _ _ h.state
  rcases execute hs n.heap n.currentException i with
    ⟨flow, l, l', hf, hg, hl, hs'⟩ | ⟨e, l, l', hf, hg, hl, hs'⟩
  · rw [← h.heap, ← hi] at hf
    rw [perform_of_ok m w hf, perform_of_ok n v hg]
    refine (hr.executed hl hs').follow hh i flow fun he => ?_
    have hdepth : ((m.announced host f i).executed l).depth = m.depth := depth_setFrame _ _
    have hbudget : ((m.announced host f i).executed l).budget = m.budget := budget_setFrame _ _
    rw [hdepth, hbudget]
    exact hroom ((Exec.effect_of_execute hf).mayEnter he)
  · rw [← h.heap, ← hi] at hf
    rw [perform_of_error m w hf, perform_of_error n v hg]
    exact (hr.executed hl hs').failAt hh i.offset e

/-- Following a line does the same. -/
theorem traceLine (hh : host.Unplaced view) (h : m.Atop view w₀ below n) (hs : f.sole = g.sole)
    (o : Nat) :
    Atop view w₀ below (m.traceLine host ⟨f, w⟩ o).1 (n.traceLine host ⟨g, v⟩ o).1 ∧
      (m.traceLine host ⟨f, w⟩ o).2.1.sole = (n.traceLine host ⟨g, v⟩ o).2.1.sole ∧
      (m.traceLine host ⟨f, w⟩ o).2.2 = (n.traceLine host ⟨g, v⟩ o).2.2 := by
  -- the line, the name and the hook do not depend on what lies below the frame
  have hrep : (f.reported o).sole = (g.reported o).sole := by
    rw [Frame.eq_of_sole hs]
    rfl
  have hline : f.lineAt? o = g.lineAt? o :=
    Frame.congr_sole (·.lineAt? o) (fun _ => rfl) hs
  have hname : (f.reported o).name = (g.reported o).name :=
    Frame.congr_sole Frame.name (fun _ => rfl) hrep
  have hhook : (f.reported o).trace.hook = (g.reported o).trace.hook :=
    Frame.congr_sole (·.trace.hook) (fun _ => rfl) hrep
  rw [Machine.traceLine_eq, Machine.traceLine_eq]
  dsimp only
  rw [hline]
  cases g.lineAt? o with
  | none => exact ⟨h, hrep, rfl⟩
  | some line =>
    have hr := h.report hh (.line (g.reported o).name line)
    dsimp only
    rw [hname, hhook]
    cases (g.reported o).trace.hook with
    | none => exact ⟨hr, hrep, rfl⟩
    | some hook =>
      dsimp only
      obtain ⟨hf, hheap, hstate⟩ := hh.hook hook line _ _
        (m.report host (.line (g.reported o).name line)).heap _ _ hrep hr.state
      rw [hr.heap] at hf hheap hstate ⊢
      refine ⟨{ hr with heap := hheap, state := hstate }, hf, ?_⟩
      rw [Frame.congr_sole (·.lastOffset) (fun _ => rfl) hf]

/-- The chain above `below` handles the same exception, unless only frames of `below` handle one. -/
theorem currentException (h : m.Atop view w₀ below n) (hc : m.chain = ⟨f, w⟩ :: rest)
    (hb : ∀ top, rest = top ++ below → f.pending = none → Machine.handled top = none →
      Machine.handled below = none) :
    m.currentException = n.currentException := by
  obtain ⟨top, htop, hne, hhandled⟩ := h.stacked.handled
  have hm : m.currentException = (Machine.handled top).or (Machine.handled below) := by
    unfold Machine.currentException Machine.handled
    rw [htop, List.findSome?_append]
  obtain ⟨a, top, rfl⟩ := List.exists_cons_of_ne_nil hne
  obtain ⟨rfl, hrest⟩ := List.cons.inj (hc.symm.trans htop)
  refine hm.trans (Eq.trans ?_ hhandled)
  cases ha : Machine.handled (⟨f, w⟩ :: top) with
  | some e => rfl
  | none =>
    have hp := List.findSome?_eq_none_iff.1 ha
    rw [hb top hrest (hp _ List.mem_cons_self)
      (List.findSome?_eq_none_iff.2 fun a ha => hp a (List.mem_cons_of_mem _ ha))]
    rfl

/-- Executing what is decoded, unless an exception is raised again that only a caller handles. -/
theorem perform_decoded (hh : host.Unplaced view) (h : m.Atop view w₀ below n)
    (hs : f.sole = g.sole) (hc : m.chain = ⟨f, w⟩ :: rest) (o : Nat)
    (hroom : ∀ i, Instruction.decode f.code.body.bytecode o = .ok i → i.opcode.mayEnter = true →
      m.budget.Admits m.depth)
    (hl : ∀ i top, Instruction.decode f.code.body.bytecode o = .ok i → i.opcode = .raiseVarargs →
      i.arg.toNat = 0 → rest = top ++ below → f.pending = none → Machine.handled top = none →
      Machine.handled below = none) :
    Atop view w₀ below
      (match Instruction.decode f.code.body.bytecode o with
        | .error e => m.fail (.fatal e)
        | .ok i => m.perform host ⟨f, w⟩ i)
      (match Instruction.decode g.code.body.bytecode o with
        | .error e => n.fail (.fatal e)
        | .ok i => n.perform host ⟨g, v⟩ i) := by
  have hcode : f.code = g.code := Frame.congr_sole (·.code) (fun _ => rfl) hs
  rw [← hcode]
  cases hd : Instruction.decode f.code.body.bytecode o with
  | error e => exact h.fail hh _
  | ok i =>
    refine h.perform hh hs i (hroom i hd) ?_
    by_cases hi : i.opcode = .raiseVarargs ∧ i.arg.toNat = 0
    · exact congrArg (Exec.execute · i)
        (h.currentException hc fun top => hl i top hd hi.1 hi.2)
    · exact execute_current (fun hop hz => hi ⟨hop, hz⟩) _ _

/-- Dispatching, unless an exception is raised again that only a caller handles. -/
theorem dispatch (hh : host.Unplaced view) (h : m.Atop view w₀ below n) {o : Nat}
    (ho : m.control = .dispatch o) (hroom : ¬m.Crowded host) (hl : ¬m.LooksBelow host below) :
    Atop view w₀ below (m.dispatch host o) (n.dispatch host o) := by
  obtain ⟨f, g, w, w', rest, rest', hm, hn, hs, -⟩ := h.stacked.heads
  -- what is decoded, in terms of the line that is followed
  have hdecodes : ∀ budget, m.budget.dispatch = (.ok (), budget) →
      m.decodes? host = some (Machine.traceLine host { m with budget } ⟨f, w⟩ o).2 := by
    intro budget hb
    unfold decodes? lined?
    rw [ho, hm]
    dsimp only
    rw [hb]
    rfl
  unfold Machine.dispatch
  rw [hm, hn, h.budget]
  rw [h.budget] at hdecodes
  dsimp only
  cases hbd : n.budget.dispatch with
  | mk admitted budget =>
    have hb : Atop view w₀ below { m with budget } { n with budget } := h.withBudget budget
    cases admitted with
    | error e =>
      dsimp only
      rw [hm, hn] at hb
      exact hb.fail hh _
    | ok u =>
      have ht := hb.traceLine hh hs o (w := w) (v := w')
      have hd := hdecodes budget hbd
      have hcm := (traceLine_spec host { m with budget } ⟨f, w⟩ o).2.1
      have hbm : (Machine.traceLine host { m with budget } ⟨f, w⟩ o).1.budget = budget := by
        obtain ⟨heap, state, g, o', -, ht⟩ := traceLine_lined host { m with budget } ⟨f, w⟩ o
        rw [ht]
      simp only [hm, hn] at ht hcm hd hbm ⊢
      generalize Machine.traceLine host _ ⟨f, w⟩ o = t at ht hcm hd hbm ⊢
      generalize Machine.traceLine host _ ⟨g, w'⟩ o = t' at ht ⊢
      obtain ⟨m', f', o'⟩ := t
      obtain ⟨n', g', o''⟩ := t'
      obtain ⟨ht, hf, rfl⟩ := ht
      dsimp only at hcm hbm ⊢
      refine (ht.setFrame hf).perform_decoded hh hf (setFrame_chain hcm f') o' ?_ ?_
      · -- the machine that executes is as crowded as the one that dispatches
        intro i hdc hi
        have hc := not_not.1 fun hc => hroom ⟨f', o', i, hd, hdc, hi, hc⟩
        have hdepth : (m'.setFrame f').depth = m.depth := by
          rw [depth_setFrame]
          unfold Machine.depth
          rw [hcm, hm]
        rw [hdepth, budget_setFrame, hbm]
        rwa [h.budget, hbd] at hc
      · intro i top hdc hop harg hrest hp htop
        exact not_not.1 fun hbelow => hl
          ⟨f, w, top, f', o', i, hrest ▸ hm, hd, hdc, hop, harg, hp, htop, hbelow⟩

/-- **A step above the callers and the same step alone.**  Either the frame above the callers leaves
both machines, or they go on alike. -/
theorem step (hh : host.Unplaced view) (h : m.Atop view w₀ below n) (hroom : ¬m.Crowded host)
    (hl : ¬m.LooksBelow host below) :
    (∃ f g result, m.Stands below w₀ (f, .leaving result) ∧
      n.LeavesAlone g result ∧ f.sole = g.sole) ∨
      Atop view w₀ below (m.step host) (n.step host) := by
  have hc := h.control
  unfold Machine.step
  cases hm : m.control <;> rw [hm] at hc <;> rw [← hc] <;> dsimp only
  case start raising => exact .inr (h.start hh raising)
  case dispatch o => exact .inr (h.dispatch hh hm hroom hl)
  case halted => exact .inr h
  case leave result =>
    have hs := h.stacked
    generalize hcm : m.chain = cm at hs
    generalize hcn : n.chain = cn at hs
    cases hs with
    | @bottom f g v hv hs =>
      exact .inl ⟨f, g, result, ⟨hcm, by rw [hm]; rfl⟩, ⟨v, hv, hcn, by rw [← hc]; rfl⟩, hs⟩
    | above _ hw _ =>
      refine .inr (h.leave hh (fun g v hg => ?_) result)
      rw [hcn] at hg
      obtain ⟨⟨⟩, -⟩ := List.cons.inj hg
      exact hw

/-- Where the frame above the callers leaves one machine, it leaves the other. -/
theorem parts (h : m.Atop view w₀ below n) {result : Except Failure FrameExit}
    (hm : m.Stands below w₀ (f, .leaving result)) :
    ∃ g, n.LeavesAlone g result ∧ f.sole = g.sole := by
  have hs := h.stacked
  rw [hm.chain] at hs
  obtain ⟨g, v, hn, hv, hsole⟩ := hs.of_outermost
  exact ⟨g, ⟨v, hv, hn, h.control ▸ hm.control⟩, hsole⟩

/-- **A run above the callers and the same run alone.**  Either the frame above the callers never
leaves, and the two machines go on alike, or it leaves both after as many moves, and the callers
have waited until then. -/
theorem run (hh : host.Unplaced view) (h : m.Atop view w₀ below n) {s : Standing}
    (hf : m.Holds below w₀ f s) (hroom : ∀ k, ¬(Machine.run host k m).Crowded host)
    (hl : ∀ k, m.Awaits host below k → ¬(Machine.run host k m).LooksBelow host below) :
    (∀ k, (∃ f s, (Machine.run host k m).Holds below w₀ f s) ∧
      Atop view w₀ below (Machine.run host k m) (Machine.run host k n)) ∨
    ∃ k f g result, Parting host view w₀ below m n k f g result := by
  by_cases hp : ∃ k f g result, Parting host view w₀ below m n k f g result
  · exact .inr hp
  · left
    -- that the callers have waited so far is known of all moves at once
    suffices hk : ∀ k, ∀ j ≤ k, (∃ f s, (Machine.run host j m).Holds below w₀ f s) ∧
        Atop view w₀ below (Machine.run host j m) (Machine.run host j n) from
      fun k => hk k k (Nat.le_refl k)
    intro k
    induction k with
    | zero =>
      intro j hj
      obtain rfl : j = 0 := Nat.le_zero.1 hj
      exact ⟨⟨f, s, hf⟩, h⟩
    | succ k ih =>
      have hwait : m.Awaits host below k := by
        intro j hj
        obtain ⟨⟨f', s', hf'⟩, -⟩ := ih j hj
        obtain ⟨above, hc, -, -⟩ := hf'.split
        cases above with
        | nil => exact ⟨_, [], hc⟩
        | cons a above => exact ⟨a, above ++ [⟨f', w₀⟩], by rw [hc]; simp⟩
      intro j hj
      rcases Nat.lt_or_ge j (k + 1) with hlt | hge
      · exact ih j (Nat.le_of_lt_succ hlt)
      obtain rfl : j = k + 1 := Nat.le_antisymm hj hge
      obtain ⟨⟨f', s', hf'⟩, hk⟩ := ih k (Nat.le_refl k)
      rw [run_succ, run_succ]
      rcases hf'.step host with ⟨result, rfl⟩ | ⟨given, p, -, hnext, -⟩
      · have hs := hf'.stands (c := .leave result) rfl
        obtain ⟨g, hg, hsole⟩ := hk.parts hs
        exact absurd ⟨k, f', g, result, ⟨hwait, hk, hs, hg, hsole⟩⟩ hp
      · rcases hk.step hh (hroom k) (hl k hwait) with ⟨f', g, result, hs, hg, hsole⟩ | hstep
        · exact absurd ⟨k, f', g, result, ⟨hwait, hk, hs, hg, hsole⟩⟩ hp
        · exact ⟨⟨_, _, hnext⟩, hstep⟩

end Atop

end Machine

end Resumable
