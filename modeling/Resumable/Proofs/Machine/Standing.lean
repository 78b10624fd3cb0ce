import Resumable.Machine.Step
import Resumable.Proofs.Machine.Instructions

/-!
# A frame among the others

What happens to one frame on the chain can be told without the others.  A frame *stands* at an
offset it is about to execute, at a call or loop whose value is still to come, or at its beginning
or end (`Standing`), and `Frame.Moves` are the ways it gets from one standing to the next, whatever
the heap, the budget, the host and the other frames do.

`Machine.Holds below w m f s` says that machine `m` holds the frame `f` right above the frames
`below`, and that it stands at `s`.  `Machine.Holds.step` is the link: one step of the machine is
one move of the frame, unless the frame leaves the chain.
-/

namespace Resumable

/-- How a frame on the chain stands. -/
inductive Standing where
  /-- Before its first instruction of this run, with an exception to raise if there is one. -/
  | starting (raising : Option Raised)
  /-- About to execute the instruction at an offset. -/
  | before (offset : Nat)
  /-- Done for this run. -/
  | leaving (result : Except Failure FrameExit)
  /-- At a call, whose value is still to come. -/
  | calling (site : Instruction)
  /-- At a loop, whose generator runs. -/
  | looping (site : Instruction)

/-- What a machine does next whose innermost frame stands so. -/
def Standing.control? : Standing → Option Control
  | starting raising => some (.start raising)
  | before offset => some (.dispatch offset)
  | leaving result => some (.leave result)
  | calling _ | looping _ => none

/-- How the frame below stands. -/
def Waiting.standing? : Waiting → Option Standing
  | outside => none
  | call site => some (.calling site)
  | loop _ site => some (.looping site)

@[simp] theorem Activation.waiting_mk (f : Frame) (w : Entry) :
    (⟨f, w⟩ : Activation).waiting = w.waiting := rfl

@[simp] theorem Frame.waiting_entry (f : Frame) (w : Waiting) : (f.entry w).waiting = w := rfl

@[simp] theorem Frame.name_entry (f : Frame) (w : Waiting) : (f.entry w).name = f.name := rfl

/-! ### The moves of one frame -/

namespace Frame

variable (f : Frame)

/-- The frame fails. -/
def failing (e : Failure) : Frame × Standing := (f.finish, .leaving (.error e))

/-- An exception is raised in the frame. -/
def raising (e : Raised) (offset : Nat) : Frame × Standing :=
  let body := f.code.body
  let e := e.through ⟨body.name, body.lineForOffset offset, offset⟩
  match f.unwind (.raising e) with
  | (f, .handled target) => (f, .before target)
  | (f, .faulted fault) => f.failing (.fatal fault)
  | (f, .unhandled) => { f with pending := some e }.failing (.raised e)

/-- An instruction of the frame fails. -/
def failingAt (offset : Nat) : Failure → Frame × Standing
  | .raised e => f.raising e offset
  | e => f.failing e

/-- The value of a call or loop comes. -/
def resumed (v : Value) (site : Instruction) : Frame × Standing :=
  match f.stack.push v with
  | .ok stack => ({ f with stack }, .before site.next)
  | .error e => f.failing (.fatal e)

/-- The generator of a loop is exhausted. -/
def exhausted (site : Instruction) : Frame × Standing :=
  match f.stack.pop with
  | .ok (_, stack) => ({ f with stack }, .before site.target)
  | .error e => f.failing (.fatal e)

/-- The generator of a loop fails. -/
def failingLoop (site : Instruction) (e : Failure) : Frame × Standing :=
  if e.isCaughtBy .stopIteration then f.exhausted site else f.failingAt site.offset e

/-- What the frame above came to. -/
def answered : Standing → Except Failure FrameExit → Frame × Standing
  | .calling site, .ok (.returned v) => f.resumed v site
  | .calling site, .ok (.yielded _) =>
    f.failingAt site.offset (.fatal (.invalidCode .yieldOutsideGenerator))
  | .calling site, .error e => f.failingAt site.offset e
  | .looping site, .ok (.yielded v) => f.resumed v site
  | .looping site, .ok (.returned _) => f.exhausted site
  | .looping site, .error e => f.failingLoop site e
  | s, _ => (f, s)

end Frame

/-- The stack `s` is that of the frame with the value pushed with which the frame is resumed. -/
def Frame.Admits (f : Frame) (input : Option Value) (s : OperandStack) : Prop :=
  match input with
  | none => s = f.stack
  | some v => f.stack.push v = .ok s

/-- Why a loop cannot advance a generator: it has no frame to run, one frame more is too many, or
the value it is resumed with does not fit on its stack. -/
inductive Heap.Refuses (h : Heap) (r : Ref .generator) : Failure → Prop
  | frame {e : Failure} (ht : h.takeFrame r false = .error e) : h.Refuses r e
  | limit (e : LimitError) : h.Refuses r e.toFailure
  | input {g : Frame} {h' : Heap} {v : Value} {e : Fault} (ht : h.takeFrame r false = .ok (g, h'))
      (hi : g.input none = some v) (hp : g.stack.push v = .error e) : h.Refuses r (.fatal e)

namespace Frame

/-- Where a frame that has executed instruction `i` is led, and the failure of a generator that
brings it there. -/
inductive Follows (h : Heap) (i : Instruction) (f : Frame) :
    Flow → Option Failure → Frame × Standing → Prop
  | next : Follows h i f .next none (f, .before i.next)
  | jump {target : Nat} : Follows h i f (.jump target) none (f, .before target)
  | returned {v : Value} :
    Follows h i f (.exit (.returned v)) none (f.finish, .leaving (.ok (.returned v)))
  | yielded {v : Value} :
    Follows h i f (.exit (.yielded v)) none (f, .leaving (.ok (.yielded v)))
  | reraise {e : Raised} : Follows h i f (.reraise e) none (f.failing (.raised e))
  | invoke {callee : Frame} : Follows h i f (.invoke callee) none (f, .calling i)
  | refused {callee : Frame} {e : LimitError} :
    Follows h i f (.invoke callee) none (f.failingAt i.offset e.toFailure)
  | advance {r : Ref .generator} : Follows h i f (.advance r) none (f, .looping i)
  | spent {r : Ref .generator} {e : Failure} (he : h.Refuses r e) :
    Follows h i f (.advance r) (some e) (f.failingLoop i e)

/-- The frame about to execute the instruction at `o`, once its line has been followed. -/
def reported (f : Frame) (o : Nat) : Frame :=
  ({ f with lastOffset := some (f.recordedOffset o) }.lineEvent (f.recordedOffset o)).2

/-- The line to report of a frame about to execute the instruction at `o`, if there is one. -/
def lineAt? (f : Frame) (o : Nat) : Option Nat :=
  ({ f with lastOffset := some (f.recordedOffset o) }.lineEvent (f.recordedOffset o)).1

/-- What becomes of a frame about to execute the instruction at `o` when its line is reported: the
frame, and the offset it then executes.  Its hook may change both. -/
inductive Traced {σ : Type} (host : Host σ) (f : Frame) (o : Nat) : Frame → Nat → Prop
  | untold : Traced host f o (f.reported o) o
  | hooked {hook line : Nat} {h : Heap} {s : σ} {g : Frame} (hf : f.trace.hook = some hook)
      (hg : (host.onLine hook line (f.reported o) h s).1 = g) :
    Traced host f o g (g.lastOffset.getD 0)

/-- The ways in which a frame moves on from a standing, and the failure of another frame that makes
it. -/
inductive Moves {σ : Type} (host : Host σ) (f : Frame) :
    Option Failure → Standing → Frame × Standing → Prop
  | start {o : Nat} (ho : f.resumeOffset = .ok o) :
    Moves host f none (.starting none) (f, .before o)
  | raise {o : Nat} {e : Raised} (ho : f.resumeOffset = .ok o) :
    Moves host f none (.starting (some e)) (f.raising e (f.lastOffset.getD 0))
  | lost {raising : Option Raised} {e : Fault} (ho : f.resumeOffset = .error e) :
    Moves host f none (.starting raising) (f, .leaving (.error (.fatal e)))
  | refused {o : Nat} {e : LimitError} : Moves host f none (.before o) (f.failing e.toFailure)
  | undecoded {o o' : Nat} {g : Frame} {e : Fault} (ht : Traced host f o g o')
      (hd : Instruction.decode g.code.body.bytecode o' = .error e) :
    Moves host f none (.before o) (g.failing (.fatal e))
  | fails {o o' : Nat} {g : Frame} {i : Instruction} {h : Heap} {current : Option Raised}
      {e : Failure} {l : Local} (ht : Traced host f o g o')
      (hd : Instruction.decode g.code.body.bytecode o' = .ok i)
      (hx : (Exec.execute current i).run ⟨g, h⟩ = .error e l) :
    Moves host f none (.before o) (l.frame.failingAt i.offset e)
  | follows {o o' : Nat} {g : Frame} {i : Instruction} {h : Heap} {current : Option Raised}
      {flow : Flow} {l : Local} {given : Option Failure} {p : Frame × Standing}
      (ht : Traced host f o g o')
      (hd : Instruction.decode g.code.body.bytecode o' = .ok i)
      (hx : (Exec.execute current i).run ⟨g, h⟩ = .ok flow l)
      (hf : Follows l.heap i l.frame flow given p) :
    Moves host f given (.before o) p
  | waits {s : Standing} (hs : s.control? = none) : Moves host f none s (f, s)
  | answered {s : Standing} {result : Except Failure FrameExit} (hs : s.control? = none) :
    Moves host f (match result with | .ok _ => none | .error e => some e) s
      (f.answered s result)

end Frame

namespace Machine

variable {σ : Type} (host : Host σ) {m : Machine σ} {rest below : List Activation} {f : Frame}
  {w v : Entry} {s : Standing}

/-- The innermost frame, above the frames `rest`, and how it stands. -/
structure Stands (m : Machine σ) (rest : List Activation) (w : Entry) (p : Frame × Standing) :
    Prop where
  chain : m.chain = ⟨p.1, w⟩ :: rest
  control : p.2.control? = some m.control

/-- The machine that decodes an instruction in the next step, its line followed, with its innermost
frame and the offset.  There is none if the machine is not about to dispatch, or if its budget
refuses to. -/
def lined? (m : Machine σ) : Option (Machine σ × Frame × Nat) :=
  match m.control, m.chain with
  | .dispatch offset, a :: _ =>
    match m.budget.dispatch with
    | (.ok (), budget) =>
      let (m, f, offset) := { m with budget }.traceLine host a offset
      some (m.setFrame f, f, offset)
    | (.error _, _) => none
  | _, _ => none

/-- Where the next step decodes an instruction: the frame and the offset. -/
def decodes? (m : Machine σ) : Option (Frame × Nat) := (m.lined? host).map (·.2)

/-- The failure `e` comes to the frame right above the frames `below` from another one: from the
frame above it, which leaves with it, or from the generator on top of its stack, which the loop it
executes cannot advance. -/
inductive Hands (below : List Activation) (w : Entry) (m : Machine σ) (e : Failure) : Prop
  | above {f g : Frame} {v : Entry} (hc : m.chain = ⟨g, v⟩ :: ⟨f, w⟩ :: below)
      (hm : m.control = .leave (.error e))
  | generator {f g : Frame} {n : Machine σ} {o : Nat} {i : Instruction} {r : Ref .generator}
      (hc : m.chain = ⟨f, w⟩ :: below) (hl : m.lined? host = some (n, g, o))
      (hd : Instruction.decode g.code.body.bytecode o = .ok i) (hop : i.opcode = .forIter)
      (ht : g.stack.peek 0 = .ok (.generator r)) (hr : n.heap.Refuses r e)

/-- The machine holds the frame `f` right above the frames `below`, and it stands at `s`.  The
frames above it were all called by frames. -/
inductive Holds (below : List Activation) (w : Entry) (m : Machine σ) (f : Frame)
    (s : Standing) : Prop
  | innermost (h : m.Stands below w (f, s))
  | waiting {above : List Activation} {g : Frame} {v : Entry}
      (hc : m.chain = above ++ ⟨g, v⟩ :: ⟨f, w⟩ :: below) (hv : v.waiting.standing? = some s)
      (ha : ∀ a ∈ above, a.waiting ≠ .outside) (hm : m.isHalted = false)

/-- A machine with a frame that is not done has not halted. -/
theorem Stands.not_halted {p : Frame × Standing} (h : m.Stands rest w p) : m.isHalted = false := by
  have hs := h.control
  unfold isHalted
  cases hm : m.control with
  | halted f result =>
    rw [hm] at hs
    cases hp : p.2 <;> rw [hp] at hs <;> cases hs
  | _ => rfl

/-- The move of a machine is that of its innermost frame. -/
theorem Stands.step_starting {raising : Option Raised}
    (h : m.Stands rest w (f, .starting raising)) : m.step host = m.start host raising := by
  unfold step
  rw [← Option.some.inj h.control]

theorem Stands.step_before {o : Nat} (h : m.Stands rest w (f, .before o)) :
    m.step host = m.dispatch host o := by
  unfold step
  rw [← Option.some.inj h.control]

theorem Stands.step_leaving {result : Except Failure FrameExit}
    (h : m.Stands rest w (f, .leaving result)) : m.step host = m.leave host result := by
  unfold step
  rw [← Option.some.inj h.control]

theorem Holds.not_halted (h : m.Holds below w f s) : m.isHalted = false := by
  cases h with
  | innermost h => exact h.not_halted
  | waiting _ _ _ hm => exact hm

/-- The frame right below the innermost one. -/
theorem Holds.called {p : Frame × Standing} (h : m.Stands rest v p) (hr : rest = ⟨f, w⟩ :: below)
    (hv : v.waiting.standing? = some s) : m.Holds below w f s := by
  subst hr
  have hc : m.chain = [] ++ ⟨p.1, v⟩ :: ⟨f, w⟩ :: below := h.chain
  exact .waiting hc hv (List.forall_mem_nil _) h.not_halted

theorem standing?_of_ne {v : Waiting} (h : v ≠ .outside) : ∃ s, v.standing? = some s := by
  cases v with
  | outside => exact absurd rfl h
  | call site => exact ⟨_, rfl⟩
  | loop r site => exact ⟨_, rfl⟩

/-- A frame that waits has nothing to do. -/
theorem control?_of_standing? {v : Waiting} (h : v.standing? = some s) : s.control? = none := by
  cases v <;> cases h <;> rfl

/-- Where a frame that is held stands in the chain. -/
theorem Holds.split (h : m.Holds below w f s) :
    ∃ above, m.chain = above ++ ⟨f, w⟩ :: below ∧ (∀ a ∈ above, a.waiting ≠ .outside) ∧
      (above = [] ∧ s.control? = some m.control ∨
        ∃ outer g v, above = outer ++ [⟨g, v⟩] ∧ v.waiting.standing? = some s) := by
  cases h with
  | innermost h => exact ⟨[], h.chain, List.forall_mem_nil _, .inl ⟨rfl, h.control⟩⟩
  | @waiting above g v hc hv ha _ =>
    refine ⟨above ++ [⟨g, v⟩], ?_, ?_, .inr ⟨above, g, v, rfl, hv⟩⟩
    · rw [hc, List.append_assoc]
      rfl
    · intro a hmem
      rcases List.mem_append.1 hmem with hmem | hmem
      · exact ha a hmem
      · rw [List.mem_singleton.1 hmem]
        intro hn
        have hn : v.waiting = .outside := hn
        rw [hn] at hv
        cases hv

theorem fail_stands (h : m.chain = ⟨f, w⟩ :: rest) (e : Failure) :
    (m.fail e).Stands rest w (f.failing e) := by
  unfold fail setFrame
  rw [h]
  exact ⟨rfl, rfl⟩

theorem setFrame_chain (h : m.chain = ⟨f, w⟩ :: rest) (g : Frame) :
    (m.setFrame g).chain = ⟨g, w⟩ :: rest := by
  unfold setFrame
  rw [h]

theorem heap_setFrame (m : Machine σ) (g : Frame) : (m.setFrame g).heap = m.heap := by
  unfold setFrame
  cases m.chain <;> rfl

theorem raise_stands (h : m.chain = ⟨f, w⟩ :: rest) (e : Raised) (offset : Nat) :
    (m.raise host e offset).Stands rest w (f.raising e offset) := by
  have hr (e : Event) : (m.report host e).chain = ⟨f, w⟩ :: rest := h
  unfold raise Frame.raising
  rw [h]
  dsimp only
  cases f.unwind (.raising (e.through ⟨f.code.body.name, f.code.body.lineForOffset offset, offset⟩))
    with
  | mk g u =>
    cases u with
    | handled target => exact ⟨setFrame_chain (hr _) _, rfl⟩
    | faulted fault => exact fail_stands (setFrame_chain (hr _) _) _
    | unhandled => exact fail_stands (setFrame_chain (hr _) _) _

theorem failAt_stands (h : m.chain = ⟨f, w⟩ :: rest) (offset : Nat) (e : Failure) :
    (m.failAt host offset e).Stands rest w (f.failingAt offset e) := by
  cases e with
  | raised e => exact raise_stands host h e offset
  | fatal e => exact fail_stands h _
  | uncatchable e => exact fail_stands h _

theorem resumeWith_stands (h : m.chain = ⟨f, w⟩ :: rest) (v : Value) (site : Instruction) :
    (m.resumeWith v site).Stands rest w (f.resumed v site) := by
  unfold resumeWith Frame.resumed
  rw [h]
  dsimp only
  cases f.stack.push v with
  | ok s => exact ⟨setFrame_chain h _, rfl⟩
  | error e => exact fail_stands h _

theorem exhaust_stands (h : m.chain = ⟨f, w⟩ :: rest) (site : Instruction) :
    (m.exhaust site).Stands rest w (f.exhausted site) := by
  unfold exhaust Frame.exhausted
  rw [h]
  dsimp only
  cases f.stack.pop with
  | ok r => exact ⟨setFrame_chain h _, rfl⟩
  | error e => exact fail_stands h _

theorem failLoop_stands (h : m.chain = ⟨f, w⟩ :: rest) (site : Instruction) (e : Failure) :
    (m.failLoop host site e).Stands rest w (f.failingLoop site e) := by
  unfold failLoop Frame.failingLoop
  by_cases hc : e.isCaughtBy .stopIteration = true
  · rw [if_pos hc, if_pos hc]
    exact exhaust_stands h site
  · rw [if_neg hc, if_neg hc]
    exact failAt_stands host h site.offset e

/-- Whoever waits is given what the frame above came to. -/
theorem deliver_stands {v : Waiting} (h : m.chain = ⟨f, w⟩ :: rest) (hv : v.standing? = some s)
    (g : Frame) (result : Except Failure FrameExit) :
    (m.deliver host v g result).Stands rest w (f.answered s result) := by
  cases v with
  | outside => cases hv
  | call site =>
    cases hv
    match result with
    | .ok (.returned v) => exact resumeWith_stands h v site
    | .ok (.yielded v) =>
      exact failAt_stands host h site.offset (.fatal (.invalidCode .yieldOutsideGenerator))
    | .error e => exact failAt_stands host h site.offset e
  | loop r site =>
    cases hv
    have h : ({ m with heap := m.heap.settle r g result } : Machine σ).chain = ⟨f, w⟩ :: rest := h
    match result with
    | .ok (.returned v) => exact exhaust_stands h site
    | .ok (.yielded v) => exact resumeWith_stands h v site
    | .error e => exact failLoop_stands host h site e

/-! ### Entering, executing and following -/

/-- A frame is put on the chain, with what it is resumed with on its stack, or handed back with a
failure. -/
theorem enter_cases (m : Machine σ) (g : Frame) (input : Option Value)
    (raising : Option Raised) (v : Waiting) :
    (∃ s back, g.Admits input s ∧
      (m.enter host g input raising v).Stands m.chain (g.entry v)
        ({ g with stack := s, back }, .starting raising)) ∨
      ∃ e, m.enter host g input raising v = m.deliver host v g (.error e) ∧
        ((∃ l : LimitError, e = l.toFailure) ∨
          ∃ x fault, input = some x ∧ g.stack.push x = .error fault ∧ e = .fatal fault) := by
  unfold enter
  cases m.budget.checkDepth m.depth with
  | error l => exact .inr ⟨l.toFailure, rfl, .inl ⟨l, rfl⟩⟩
  | ok _ =>
    cases input with
    | none => exact .inl ⟨g.stack, _, rfl, rfl, rfl⟩
    | some x =>
      dsimp only
      cases hp : g.stack.push x with
      | ok s => exact .inl ⟨s, _, hp, rfl, rfl⟩
      | error fault => exact .inr ⟨.fatal fault, rfl, .inr ⟨x, fault, rfl, hp, rfl⟩⟩

/-- Following an instruction is one of the ways a frame is led on. -/
theorem follow_holds (h : m.chain = ⟨f, w⟩ :: rest) (i : Instruction) (flow : Flow) :
    ∃ given p, Frame.Follows m.heap i f flow given p ∧
      (m.follow host i flow).Holds rest w p.1 p.2 := by
  cases flow with
  | next => exact ⟨_, _, .next, .innermost ⟨h, rfl⟩⟩
  | jump target => exact ⟨_, _, .jump, .innermost ⟨h, rfl⟩⟩
  | exit result =>
    cases result with
    | returned v =>
      refine ⟨_, _, .returned, .innermost ?_⟩
      unfold follow
      dsimp only
      rw [h]
      exact ⟨setFrame_chain h _, rfl⟩
    | yielded v => exact ⟨_, _, .yielded, .innermost ⟨h, rfl⟩⟩
  | reraise e => exact ⟨_, _, .reraise, .innermost (fail_stands h _)⟩
  | invoke callee =>
    -- the callee is on the chain, or refused for the depth of the chain
    rcases enter_cases host m callee none none (.call i) with ⟨s, back, -, hs⟩ | ⟨e, he, hr⟩
    · exact ⟨_, _, .invoke, .called hs h rfl⟩
    · rcases hr with ⟨l, rfl⟩ | ⟨x, fault, hx, -⟩
      · have hd := deliver_stands host h (v := .call i) rfl callee (.error l.toFailure)
        rw [← he] at hd
        exact ⟨_, _, .refused, .innermost hd⟩
      · cases hx
  | advance r =>
    unfold follow
    dsimp only
    -- the generator gives its frame, which then is on the chain or refused as well
    cases ht : m.heap.takeFrame r false with
    | error e =>
      exact ⟨_, _, .spent (.frame ht), .innermost (failLoop_stands host h i e)⟩
    | ok t =>
      obtain ⟨g, heap⟩ := t
      dsimp only
      rcases enter_cases host { m with heap } g (g.input none) none (.loop r i) with
        ⟨s, back, -, hs⟩ | ⟨e, he, hr⟩
      · exact ⟨_, _, .advance, .called hs h rfl⟩
      · have hh : m.heap.Refuses r e := by
          rcases hr with ⟨l, rfl⟩ | ⟨x, fault, hx, hp, rfl⟩
          · exact .limit l
          · exact .input ht hx hp
        have hd := deliver_stands (m := { m with heap }) host h (v := .loop r i) rfl g (.error e)
        rw [← he] at hd
        exact ⟨_, _, .spent hh, .innermost hd⟩

theorem traceLine_eq (m : Machine σ) (a : Activation) (o : Nat) :
    m.traceLine host a o =
      let f := a.frame.reported o
      match a.frame.lineAt? o with
      | none => (m, f, o)
      | some line =>
        let m := m.report host (.line f.name line)
        match f.trace.hook with
        | none => (m, f, o)
        | some hook =>
          let r := host.onLine hook line f m.heap m.state
          ({ m with heap := r.2.1, state := r.2.2 }, r.1, r.1.lastOffset.getD 0) := rfl

/-- Following the line of an instruction changes the innermost frame alone, unless it has a hook. -/
theorem traceLine_spec (m : Machine σ) (a : Activation) (o : Nat) :
    Frame.Traced host a.frame o (m.traceLine host a o).2.1 (m.traceLine host a o).2.2 ∧
      (m.traceLine host a o).1.chain = m.chain ∧
      (a.frame.trace.hook = none → (m.traceLine host a o).1.heap = m.heap) := by
  have hk : (a.frame.reported o).trace.hook = a.frame.trace.hook := by
    unfold Frame.reported Frame.lineEvent
    dsimp only
    split <;> rfl
  rw [traceLine_eq]
  cases a.frame.lineAt? o with
  | none => exact ⟨.untold, rfl, fun _ => rfl⟩
  | some line =>
    cases hh : (a.frame.reported o).trace.hook with
    | none =>
      simp only [hh]
      exact ⟨.untold, rfl, fun _ => rfl⟩
    | some hook =>
      simp only [hh]
      rw [hk] at hh
      exact ⟨.hooked hh rfl, rfl, fun hn => by rw [hn] at hh; cases hh⟩

/-- Executing an instruction leads the innermost frame on or fails it. -/
theorem perform_holds (h : m.chain = ⟨f, w⟩ :: rest) (i : Instruction) :
    (∃ current h e l, (Exec.execute current i).run ⟨f, h⟩ = .error e l ∧
      (m.perform host ⟨f, w⟩ i).Stands rest w (l.frame.failingAt i.offset e)) ∨
    ∃ current flow l given p, (Exec.execute current i).run ⟨f, m.heap⟩ = .ok flow l ∧
      Frame.Follows l.heap i l.frame flow given p ∧
      (m.perform host ⟨f, w⟩ i).Holds rest w p.1 p.2 := by
  have hc (h' : Heap) : ({ m.report host
      (.instruction i.offset i.opcode f.stack.depth m.depth) with heap := h' } : Machine σ).chain =
    ⟨f, w⟩ :: rest := h
  unfold perform
  dsimp only
  split
  · rename_i flow l hx
    obtain ⟨given, p, hf, hh⟩ := follow_holds host (setFrame_chain (hc l.heap) l.frame) i flow
    rw [heap_setFrame] at hf
    exact .inr ⟨_, flow, l, given, p, hx, hf, hh⟩
  · rename_i e l hx
    exact .inl ⟨_, _, e, l, hx, failAt_stands host (setFrame_chain (hc l.heap) l.frame) i.offset e⟩

/-- Only a loop asks for a generator, the one on top of the stack, and leaves the heap as it is. -/
theorem executes_advance {current : Option Raised} {i : Instruction} {l l' : Local}
    {r : Ref .generator} (hx : (Exec.execute current i).run l = .ok (.advance r) l') :
    l'.heap = l.heap ∧ i.opcode = .forIter ∧ l.frame.stack.peek 0 = .ok (.generator r) := by
  have hop : i.opcode = .forIter := by
    cases Exec.effect_of_execute (f := l.frame) (h := l.heap) hx
    assumption
  obtain ⟨o, op, arg⟩ := i
  subst hop
  -- the top value is looked at, and only a generator makes the loop ask for it
  obtain ⟨v, l₁, ht, hx⟩ := Exec.run_bind_eq_ok (x := Exec.top) hx
  have hl : l₁ = l := Exec.run_top_eq_ok ht
  subst hl
  cases v with
  | generator r =>
    cases hx
    exact ⟨rfl, rfl, Exec.peek_of_run_top ht⟩
  | iterator r =>
    obtain ⟨h, l₂, -, hx⟩ := Exec.run_bind_eq_ok (x := Exec.heap) hx
    split at hx
    · obtain ⟨_, _, _, hx⟩ := Exec.run_bind_eq_ok (x := Exec.setHeap _) hx
      obtain ⟨_, _, _, hx⟩ := Exec.run_bind_eq_ok (x := Exec.push _) hx
      cases hx
    · obtain ⟨_, _, _, hx⟩ := Exec.run_bind_eq_ok (x := discard Exec.pop) hx
      cases hx
    · cases hx
  | _ => cases hx

theorem decodes?_of_lined? {m' : Machine σ} {g : Frame} {o : Nat}
    (h : m.lined? host = some (m', g, o)) : m.decodes? host = some (g, o) := by
  unfold decodes?
  rw [h]
  rfl

/-- Dispatching fails for want of a budget, or decodes an instruction and executes it. -/
theorem dispatch_cases {o : Nat} (h : m.Stands rest w (f, .before o)) :
    (∃ e : LimitError, m.decodes? host = none ∧
      (m.dispatch host o).Stands rest w (f.failing e.toFailure)) ∨
    ∃ (g : Frame) (o' : Nat) (m' : Machine σ), m.lined? host = some (m', g, o') ∧
      Frame.Traced host f o g o' ∧ m'.chain = ⟨g, w⟩ :: rest ∧
      (f.trace.hook = none → m'.heap = m.heap) ∧
      (∀ e, Instruction.decode g.code.body.bytecode o' = .error e →
        m.dispatch host o = m'.fail (.fatal e)) ∧
      ∀ i, Instruction.decode g.code.body.bytecode o' = .ok i →
        m.dispatch host o = m'.perform host ⟨g, w⟩ i := by
  obtain ⟨⟨heap, budget, state⟩, chain, control⟩ := m
  have hc := h.chain
  have hk := h.control
  subst hc
  cases hk
  unfold dispatch decodes? lined?
  dsimp only
  -- the budget is asked before the line is followed
  cases hb : budget.dispatch with
  | mk admitted budget =>
    cases admitted with
    | error e => exact .inl ⟨e, rfl, fail_stands rfl _⟩
    | ok u =>
      obtain ⟨ht, hk, hh⟩ := traceLine_spec host
        ⟨⟨heap, budget, state⟩, ⟨f, w⟩ :: rest, .dispatch o⟩ ⟨f, w⟩ o
      dsimp only
      refine .inr ⟨_, _, _, rfl, ht, setFrame_chain hk _, ?_, ?_, ?_⟩
      · exact fun hn => (heap_setFrame _ _).trans (hh hn)
      · intro e hd
        rw [hd]
      · intro i hd
        rw [hd]

/-- Dispatching is one of the ways the innermost frame moves. -/
theorem dispatch_moves {o : Nat} (h : m.Stands rest w (f, .before o)) :
    ∃ given p, Frame.Moves host f given (.before o) p ∧ (m.dispatch host o).Holds rest w p.1 p.2 ∧
      ∀ e, given = some e → m.Hands host rest w e := by
  rcases dispatch_cases host h with ⟨e, -, hs⟩ | ⟨g, o', m', hl, ht, hc, -, he, hi⟩
  · exact ⟨none, _, .refused, .innermost hs, nofun⟩
  · cases hd : Instruction.decode g.code.body.bytecode o' with
    | error e =>
      rw [he e hd]
      exact ⟨none, _, .undecoded ht hd, .innermost (fail_stands hc _), nofun⟩
    | ok i =>
      rw [hi i hd]
      rcases perform_holds host hc i with ⟨current, h', e, l, hx, hs⟩ |
        ⟨current, flow, l, given, p, hx, hf, hs⟩
      · exact ⟨none, _, .fails ht hd hx, .innermost hs, nofun⟩
      · refine ⟨given, p, .follows ht hd hx hf, hs, fun e he => ?_⟩
        subst he
        cases hf with
        | spent hr =>
          obtain ⟨hheap, hop, ht⟩ := executes_advance hx
          rw [hheap] at hr
          exact .generator h.chain hl hd hop ht hr

/-- **A step of the innermost frame.** -/
theorem step_innermost (h : m.Stands rest w (f, s)) :
    (∃ result, s = .leaving result) ∨
      ∃ given p, Frame.Moves host f given s p ∧ (m.step host).Holds rest w p.1 p.2 ∧
        ∀ e, given = some e → m.Hands host rest w e := by
  have hc := h.chain
  have hs := h.control
  cases s with
  | leaving result => exact .inl ⟨result, rfl⟩
  | calling site => cases hs
  | looping site => cases hs
  | before o =>
    rw [h.step_before host]
    exact .inr (dispatch_moves host h)
  | starting raising =>
    rw [h.step_starting host]
    unfold start
    rw [hc]
    dsimp only
    cases ho : f.resumeOffset with
    | error e => exact .inr ⟨none, _, .lost ho, .innermost ⟨rfl, rfl⟩, nofun⟩
    | ok o =>
      cases raising with
      | none => exact .inr ⟨none, _, .start ho, .innermost ⟨hc, rfl⟩, nofun⟩
      | some e => exact .inr ⟨none, _, .raise ho, .innermost (raise_stands host hc e _), nofun⟩

/-- What the machine is left with when its innermost frame leaves. -/
theorem step_leave {result : Except Failure FrameExit} (h : m.Stands rest w (f, .leaving result)) :
    ∃ m' g, (m.step host) = deliver host m' w.waiting g result ∧ m'.chain = rest := by
  rw [h.step_leaving host]
  unfold leave
  rw [h.chain]
  exact ⟨_, _, rfl, rfl⟩

/-- The frame that is given a result stays where it is. -/
theorem deliver_chain {a : Activation} (h : m.chain = a :: rest) (v : Waiting) (g : Frame)
    (result : Except Failure FrameExit) :
    ∃ f, (m.deliver host v g result).chain = ⟨f, a.entry⟩ :: rest := by
  cases hv : v.standing? with
  | none =>
    have ho : v = .outside := by
      cases v <;> first | rfl | cases hv
    subst ho
    exact ⟨a.frame, h⟩
  | some s => exact ⟨_, (deliver_stands host h hv g result).chain⟩

/-- A machine that has not halted has its innermost frame stand somehow. -/
theorem stands_of_chain {a : Activation} (h : m.chain = a :: rest) (hm : m.isHalted = false) :
    ∃ s, m.Stands rest a.entry (a.frame, s) := by
  cases hc : m.control with
  | start raising => exact ⟨.starting raising, h, by rw [hc]; rfl⟩
  | dispatch o => exact ⟨.before o, h, by rw [hc]; rfl⟩
  | leave result => exact ⟨.leaving result, h, by rw [hc]; rfl⟩
  | halted f result =>
    unfold isHalted at hm
    rw [hc] at hm
    cases hm

/-- Whatever the frames above a waiting frame do, it goes on waiting, until the one it waits for
leaves. -/
theorem step_waiting {above : List Activation} {g : Frame}
    (hc : m.chain = above ++ ⟨g, v⟩ :: rest) (ha : ∀ a ∈ above, a.waiting ≠ .outside)
    (hm : m.isHalted = false) :
    (∃ above' g', (m.step host).chain = above' ++ ⟨g', v⟩ :: rest ∧
      (∀ a ∈ above', a.waiting ≠ .outside) ∧ (m.step host).isHalted = false) ∨
      ∃ result, m.Stands rest v (g, .leaving result) := by
  cases above with
  | nil =>
    -- the frame waited for is the innermost one
    obtain ⟨s, hs⟩ := stands_of_chain hc hm
    rcases step_innermost host hs with ⟨result, rfl⟩ | ⟨given, p, -, hh, -⟩
    · exact .inr ⟨result, hs⟩
    · obtain ⟨above', hc', ha', -⟩ := hh.split
      exact .inl ⟨above', p.1, hc', ha', hh.not_halted⟩
  | cons a above =>
    obtain ⟨s, hs⟩ := stands_of_chain hc hm
    rcases step_innermost host hs with ⟨result, rfl⟩ | ⟨given, p, -, hh, -⟩
    · -- a frame leaves, and the next one is given its result
      obtain ⟨m', f, hm', hc'⟩ := step_leave host hs
      obtain ⟨s', hs'⟩ := standing?_of_ne (ha a List.mem_cons_self)
      rw [hm']
      cases above with
      | nil =>
        have hd := deliver_stands host hc' hs' f result
        exact .inl ⟨[], _, hd.chain, List.forall_mem_nil _, hd.not_halted⟩
      | cons b above =>
        have hd := deliver_stands host hc' hs' f result
        refine .inl ⟨⟨_, b.entry⟩ :: above, g, hd.chain, ?_, hd.not_halted⟩
        rw [List.forall_mem_cons] at ha ⊢
        rw [List.forall_mem_cons] at ha
        exact ha.2
    · -- the frame that moves keeps what it waits for, and what is below it
      obtain ⟨above', hc', ha', -⟩ := hh.split
      refine .inl ⟨above' ++ ⟨p.1, a.entry⟩ :: above, g, ?_, ?_, hh.not_halted⟩
      · rw [hc', List.append_assoc]
        rfl
      · rw [List.forall_mem_append, List.forall_mem_cons]
        rw [List.forall_mem_cons] at ha
        exact ⟨ha', ha⟩

/-- **A step of the machine is a move of each frame it holds**, unless the frame leaves. -/
theorem Holds.step (h : m.Holds below w f s) :
    (∃ result, s = .leaving result) ∨
      ∃ given p, Frame.Moves host f given s p ∧ (m.step host).Holds below w p.1 p.2 ∧
        ∀ e, given = some e → m.Hands host below w e := by
  cases h with
  | innermost h => exact step_innermost host h
  | @waiting above g v hc hv ha hm =>
    have hs := control?_of_standing? hv
    rcases step_waiting host hc ha hm with ⟨above', g', hc', ha', hm'⟩ | ⟨result, hl⟩
    · exact .inr ⟨none, (f, s), .waits hs, .waiting hc' hv ha' hm', nofun⟩
    · obtain ⟨m', g', hm, hc'⟩ := step_leave host hl
      have hd := deliver_stands host hc' hv g' result
      rw [← hm] at hd
      refine .inr ⟨_, _, .answered hs, .innermost hd, fun e he => ?_⟩
      cases result with
      | ok exit => cases he
      | error e' =>
        cases he
        exact .above hl.chain (Option.some.inj hl.control).symm

end Machine

end Resumable
