import Resumable.Proofs.Machine.Chains
import Resumable.Proofs.Machine.Course

/-!
# Unwinding through handlers

A frame unwinds for a reason: it returns a value, an exception was raised in it, or it leaves or
continues a loop (`Machine.Unwinds`).  On the way out, the handler of each `finally` block is
started with the reason suspended on the stack, and its `END_FINALLY` takes the reason up again.

`Machine.Handles` is the course of such an unwinding through some blocks: the handlers of the
`finally` blocks run one after the other, each once, with the stack cut to the depth of every block
on the way.  If each handler runs to its own end, the unwinding goes through all of them and then
ends as it began (`Machine.Unwinds.through_handlers`).
-/

namespace Resumable

variable {σ : Type}

namespace OperandStack

variable {s t : OperandStack}

/-- The stack cut to the depth of one block after the other. -/
def cutThrough (s : OperandStack) (bs : List Block) : OperandStack :=
  bs.foldl (fun s b => s.truncate b.depth) s

/-- Values that fitted are taken off again. -/
theorem popN_pushAll {vs : List Value} (hr : vs.length ≤ s.room) :
    (s.pushAll vs).2.popN vs.length = .ok (vs, s) := by
  have hf : vs.take s.room = vs := List.take_of_length_le hr
  have hl : vs.reverse.length = vs.length := List.length_reverse
  have hslots : (s.pushAll vs).2.slots = vs.reverse ++ s.slots := by
    rw [slots_pushAll, hf]
  have hd : vs.length ≤ (s.pushAll vs).2.depth := by
    rw [(s.pushAll vs).2.depth_eq, hslots, List.length_append, hl]
    omega
  have hvs : ((s.pushAll vs).2.slots.take vs.length).reverse = vs := by
    rw [hslots, ← hl, List.take_left, List.reverse_reverse]
  have hs : (s.pushAll vs).2.without vs.length = s := by
    refine ext ?_ (s.capacity_pushAll vs)
    show (s.pushAll vs).2.slots.drop vs.length = _
    rw [hslots, ← hl, List.drop_left]
  unfold popN peekN dropN
  rw [if_pos hd, if_pos hd, hvs, hs]
  rfl

end OperandStack

/-! ### The reason and where it leads -/

namespace Frame

variable {f : Frame} {b : Block} {outer : List Block} {reason : Unwind Value}

/-- The frame unwinds for a reason. -/
def unwound (f : Frame) (reason : Unwind Value) : Frame × Standing :=
  match f.unwind reason with
  | (g, .handled target) => (g, .before target)
  | (g, .faulted fault) => g.failing (.fatal fault)
  | (g, .unhandled) =>
    match reason with
    | .returning v => (g.finish, .leaving (.ok (.returned v)))
    | .raising e => { g with pending := some e }.failing (.raised e)
    | other => g.failing (.fatal (.malformedBlocks (.outsideLoop g.name other.word)))

theorem raising_eq_unwound (f : Frame) (e : Raised) (offset : Nat) : f.raising e offset =
    f.unwound (.raising (e.through
      ⟨f.code.body.name, f.code.body.lineForOffset offset, offset⟩)) := by
  cases hu : f.unwind (.raising (e.through
      ⟨f.code.body.name, f.code.body.lineForOffset offset, offset⟩)) with
  | mk g u => cases u <;> simp only [raising, unwound, hu]

/-- A block that does not stop the unwinding is passed. -/
theorem unwound_of_passed (hb : f.blocks = b :: outer) (hr : b.handles reason = false) :
    f.unwound reason = ({ f with blocks := outer }.cutTo b).unwound reason := by
  have hu : f.unwind reason = ({ f with blocks := outer }.cutTo b).unwind reason := by
    unfold unwind
    rw [hb, unwindThrough, hr]
    rfl
  unfold unwound
  rw [hu]

/-- The handler of a `finally` block takes the reason, whatever it is, if its values fit. -/
theorem unwound_of_cleanup (reason : Unwind Value) (hb : f.blocks = b :: outer)
    (hk : b.kind = .cleanup) (hroom : (f.stack.truncate b.depth).depth + 3 ≤ f.stack.capacity) :
    ∃ g, f.unwound reason = (g, .before b.handler) ∧ g.blocks = outer ∧
      g.stack = ((f.stack.truncate b.depth).pushAll (handlerValues reason)).2 := by
  have hh : b.handles reason = true := by
    unfold Block.handles
    rw [hk]
  let f' : Frame := { f with blocks := outer }
  have hfit : ((f'.cutTo b).stack.pushAll (handlerValues reason)).1 = .ok () := by
    refine OperandStack.pushAll_of_le_room ?_
    rw [length_handlerValues]
    show 3 ≤ f.stack.capacity - (f.stack.truncate b.depth).depth
    omega
  have hs : (f'.startHandler b reason).2 = .handled b.handler := by
    simp only [startHandler, hfit]
  have hu : f.unwind reason = ((f'.startHandler b reason).1, .handled b.handler) := by
    rw [← hs]
    unfold unwind
    rw [hb, unwindThrough, if_pos hh]
    unfold handle
    rw [hk]
  refine ⟨(f'.startHandler b reason).1, ?_, rfl, rfl⟩
  unfold unwound
  rw [hu]

end Frame

/-- How an unwinding ends as it began, among the blocks `outer` and with the stack `s`. -/
inductive Frame.Concludes (s : OperandStack) : Unwind Value → List Block → Frame × Standing → Prop
  | returned {v : Value} {g : Frame} (hg : g.finished = true) :
    Concludes s (.returning v) [] (g, .leaving (.ok (.returned v)))
  | raised {e : Raised} {g : Frame} (hg : g.finished = true) :
    Concludes s (.raising e) [] (g, .leaving (.error (.raised e)))
  /-- The loop is popped, and the stack cut to its depth. -/
  | broken {b : Block} {outer : List Block} {g : Frame} (hg : g.blocks = outer)
      (hs : g.stack = s.truncate b.depth) :
    Concludes s .breaking (b :: outer) (g, .before b.handler)
  /-- The loop stays live. -/
  | continued {b : Block} {outer : List Block} {target : Nat} {g : Frame}
      (hg : g.blocks = b :: outer) (hs : g.stack = s) :
    Concludes s (.continuing target) (b :: outer) (g, .before target)

/-- Among which blocks an unwinding ends: one that leaves the frame among none, one that leaves or
continues a loop at a loop. -/
def Unwind.EndsAt (reason : Unwind Value) (outer : List Block) : Prop :=
  match reason with
  | .returning _ | .raising _ => outer = []
  | .breaking | .continuing _ => ∃ b bs, outer = b :: bs ∧ b.kind = .loop

theorem Frame.concludes_unwound {f : Frame} {outer : List Block} {reason : Unwind Value}
    (hb : f.blocks = outer) (he : reason.EndsAt outer) :
    Concludes f.stack reason outer (f.unwound reason) := by
  unfold unwound unwind
  rw [hb]
  cases reason with
  | returning v =>
    cases he
    exact .returned rfl
  | raising e =>
    cases he
    exact .raised rfl
  | breaking =>
    obtain ⟨b, bs, rfl, hk⟩ := he
    rw [unwindThrough]
    unfold Block.handles handle
    rw [hk]
    exact .broken rfl rfl
  | continuing target =>
    obtain ⟨b, bs, rfl, hk⟩ := he
    rw [unwindThrough]
    unfold Block.handles handle
    rw [hk]
    exact .continued rfl rfl

/-- The reason for which an instruction of the frame `f` unwinds, and the frame that it unwinds. -/
inductive Instruction.Begins (i : Instruction) (f : Frame) : Unwind Value → Frame → Prop
  | returnValue {v : Value} {s : OperandStack} (hop : i.opcode = .returnValue)
      (hp : f.stack.pop = .ok (v, s)) : i.Begins f (.returning v) { f with stack := s }
  | breakLoop (hop : i.opcode = .breakLoop) : i.Begins f .breaking f
  | continueLoop (hop : i.opcode = .continueLoop) : i.Begins f (.continuing i.target) f
  /-- The reason has been suspended while a handler ran. -/
  | endFinally {reason : Unwind Value} {a b : Value} {s : OperandStack}
      (hop : i.opcode = .endFinally) (hp : f.stack.popN 3 = .ok ([.suspended reason, a, b], s)) :
      i.Begins f reason { f with stack := s }

theorem Instruction.Begins.run_execute {i : Instruction} {f g : Frame} {reason : Unwind Value}
    (hi : i.Begins f reason g) (current : Option Raised) (h : Heap) :
    (Exec.execute current i).run ⟨f, h⟩ = (Exec.unwind reason).run ⟨g, h⟩ := by
  obtain ⟨o, op, arg⟩ := i
  cases hi with
  | @returnValue v s hop hp =>
    cases hop
    show (Exec.pop >>= fun v => Exec.unwind (.returning v)).run ⟨f, h⟩ = _
    rw [Exec.run_bind, Exec.run_pop, hp]
  | breakLoop hop =>
    cases hop
    rfl
  | continueLoop hop =>
    cases hop
    rfl
  | @endFinally _ a b s hop hp =>
    cases hop
    show Exec.endFinally.run ⟨f, h⟩ = _
    unfold Exec.endFinally
    rw [Exec.run_bind, Exec.run_popN, hp]

namespace Machine

variable (host : Host σ) (below : List Activation) (w : Entry)

/-- The next move unwinds the frame `f` for a reason: an instruction asks for it, or an exception is
raised in the frame, be it by an instruction, by the frame above that leaves, or from outside. -/
inductive Unwinds (m : Machine σ) (f : Frame) : Unwind Value → Prop
  | instruction {f₀ g : Frame} {o o' : Nat} {i : Instruction} {reason : Unwind Value}
      (hs : m.Stands below w (f₀, .before o)) (hd : m.decodes? host = some (g, o'))
      (hi : Instruction.decode g.code.body.bytecode o' = .ok i) (hr : i.Begins g reason f) :
      Unwinds m f reason
  | exception {m' : Machine σ} {e : Raised} {offset : Nat}
      (hm : m.step host = m'.raise host e offset) (hc : m'.chain = ⟨f, w⟩ :: below) :
      Unwinds m f (.raising
        (e.through ⟨f.code.body.name, f.code.body.lineForOffset offset, offset⟩))

variable {host below w} {m : Machine σ} {f g : Frame} {i : Instruction} {reason : Unwind Value}

theorem perform_unwinds (hc : m.chain = ⟨g, w⟩ :: below) (hi : i.Begins g reason f) :
    (m.perform host ⟨g, w⟩ i).Stands below w (f.unwound reason) := by
  have executed := chain_executed host hc i
  have hx := (hi.run_execute m.currentException m.heap).trans (Exec.run_unwind reason _)
  unfold Frame.unwound
  cases hu : f.unwind reason with
  | mk f' u =>
    simp only [hu] at hx
    cases u with
    | handled target =>
      rw [perform_of_ok m w hx]
      exact ⟨executed _, rfl⟩
    | faulted e =>
      rw [perform_of_error m w hx]
      exact fail_stands (executed _) _
    -- with no block left, a return or an exception leaves the frame, and the others are faults
    | unhandled =>
      cases reason with
      | returning v =>
        rw [perform_of_ok m w hx]
        unfold follow
        rw [executed]
        exact ⟨setFrame_chain (executed _) _, rfl⟩
      | raising e =>
        rw [perform_of_ok m w hx]
        exact fail_stands (executed _) _
      | breaking =>
        rw [perform_of_error m w hx]
        exact fail_stands (executed _) _
      | continuing target =>
        rw [perform_of_error m w hx]
        exact fail_stands (executed _) _

theorem Unwinds.step (h : m.Unwinds host below w f reason) :
    (m.step host).Stands below w (f.unwound reason) := by
  cases h with
  | @instruction f₀ g o o' i _ hs hd hi hr =>
    rw [hs.step_before host]
    rcases dispatch_cases host hs with ⟨e, hn, -⟩ | ⟨g', o'', m', hd', -, hc, -, -, hp⟩
    · rw [hd] at hn
      cases hn
    · cases hd.symm.trans (decodes?_of_lined? host hd')
      rw [hp i hi]
      exact perform_unwinds hc hr
  | exception hm hc =>
    rw [hm, ← Frame.raising_eq_unwound]
    exact raise_stands host hc _ _

/-- An instruction that fails with an exception unwinds the frame it leaves. -/
theorem unwinds_of_execute {f₀ : Frame} {o : Nat} {m' : Machine σ} {e : Raised} {l : Local}
    (h : m.Stands below w (f₀, .before o)) (hd : m.dispatch host o = m'.perform host ⟨g, w⟩ i)
    (hc : m'.chain = ⟨g, w⟩ :: below)
    (hx : (Exec.execute m'.currentException i).run ⟨g, m'.heap⟩ = .error (.raised e) l) :
    m.Unwinds host below w l.frame (.raising (e.through
      ⟨l.frame.code.body.name, l.frame.code.body.lineForOffset i.offset, i.offset⟩)) := by
  refine .exception ?_ (chain_executed host hc i l)
  rw [h.step_before host, hd]
  exact perform_of_error m' w hx

/-! ### The course of the handlers -/

variable (host below w)

/-- A handler is entered: the frame `g` is about to execute its first instruction, among the blocks
`outer` around that of the handler, with the stack `s` cut to the depth of the block and the
suspended reason with its two values on top. -/
structure Enters (m : Machine σ) (reason : Unwind Value) (b : Block) (outer : List Block)
    (s : OperandStack) (g : Frame) : Prop where
  stands : m.Stands below w (g, .before b.handler)
  blocks : g.blocks = outer
  stack : g.stack = ((s.truncate b.depth).pushAll (Frame.handlerValues reason)).2

/-- The next move executes an `END_FINALLY` with the blocks and the stack of the frame `g`. -/
def Finishes (m : Machine σ) (g : Frame) : Prop :=
  ∃ f o f' o' i, m.Stands below w (f, .before o) ∧ m.decodes? host = some (f', o') ∧
    Instruction.decode f'.code.body.bytecode o' = .ok i ∧ i.opcode = .endFinally ∧
    f'.blocks = g.blocks ∧ f'.stack = g.stack

/-- A handler that the frame `g` has entered runs up to its own `END_FINALLY`, with the frame on the
chain all along. -/
structure Runs (m : Machine σ) (g : Frame) (m' : Machine σ) : Prop where
  finishes : m'.Finishes host below w g
  first : ∃ k, run host k m = m' ∧ (∀ j ≤ k, ∃ f s, (run host j m).Holds below w f s) ∧
    ∀ j < k, ¬(run host j m).Finishes host below w g

/-- How an unwinding goes through the blocks `bs`, from a move of `m` on that unwinds a frame with
the stack `s`: the handlers of the `finally` blocks run one after the other, up to a move of `m'`
that takes the unwinding up again, and all other blocks are passed.  The blocks `outer` are around
them all. -/
inductive Handles (reason : Unwind Value) (outer : List Block) :
    List Block → OperandStack → Machine σ → Machine σ → Prop
  | done {s : OperandStack} {m : Machine σ} : Handles reason outer [] s m m
  | passes {b : Block} {bs : List Block} {s : OperandStack} {m m' : Machine σ}
      (hb : b.kind ≠ .cleanup) (h : Handles reason outer bs (s.truncate b.depth) m m') :
      Handles reason outer (b :: bs) s m m'
  | runs {b : Block} {bs : List Block} {s : OperandStack} {m m' m'' : Machine σ} {g : Frame}
      (hb : b.kind = .cleanup) (he : (m.step host).Enters below w reason b (bs ++ outer) s g)
      (hr : (m.step host).Runs host below w g m')
      (h : Handles reason outer bs (s.truncate b.depth) m' m'') :
      Handles reason outer (b :: bs) s m m''

/-- Every handler that is entered when those before it have run runs to its own `END_FINALLY`. -/
def HandlersRun (m : Machine σ) (reason : Unwind Value) (bs outer : List Block) (s : OperandStack) :
    Prop :=
  ∀ inner b rest m' g, bs = inner ++ b :: rest → b.kind = .cleanup →
    Handles host below w reason (b :: rest ++ outer) inner s m m' →
    (m'.step host).Enters below w reason b (rest ++ outer) (s.cutThrough inner) g →
    ∃ m'', (m'.step host).Runs host below w g m''

variable {host below w}

/-- An `END_FINALLY` that finds what its handler found takes the reason up again. -/
theorem Finishes.unwinds {g : Frame} {s : OperandStack} (h : m.Finishes host below w g)
    (hs : g.stack = (s.pushAll (Frame.handlerValues reason)).2) (hroom : s.depth + 3 ≤ s.capacity) :
    ∃ f, m.Unwinds host below w f reason ∧ f.blocks = g.blocks ∧ f.stack = s := by
  obtain ⟨f, o, f', o', i, hst, hd, hi, hop, hb, hstack⟩ := h
  have hfit : (Frame.handlerValues reason).length ≤ s.room := by
    rw [Frame.length_handlerValues]
    show 3 ≤ s.capacity - s.depth
    omega
  have hp : f'.stack.popN 3 = .ok (Frame.handlerValues reason, s) := by
    have h := OperandStack.popN_pushAll hfit
    rw [Frame.length_handlerValues, ← hs, ← hstack] at h
    exact h
  obtain ⟨a, b, hv⟩ : ∃ a b, Frame.handlerValues reason = [.suspended reason, a, b] := by
    cases reason <;> exact ⟨_, _, rfl⟩
  rw [hv] at hp
  exact ⟨{ f' with stack := s }, .instruction hst hd hi (.endFinally hop hp), hb, rfl⟩

/-- A handler comes to its own end once. -/
theorem Runs.unique {m₁ m₂ : Machine σ} (h₁ : m.Runs host below w g m₁)
    (h₂ : m.Runs host below w g m₂) : m₁ = m₂ := by
  obtain ⟨k₁, rfl, -, hn₁⟩ := h₁.first
  obtain ⟨k₂, rfl, -, hn₂⟩ := h₂.first
  rcases Nat.lt_trichotomy k₁ k₂ with h | rfl | h
  · exact absurd h₁.finishes (hn₂ k₁ h)
  · rfl
  · exact absurd h₂.finishes (hn₁ k₂ h)

/-- What stands there when a handler is entered is the frame that has entered it. -/
theorem Enters.frame_eq {b : Block} {outer : List Block} {s : OperandStack} {f : Frame} {o : Nat}
    (h : m.Enters below w reason b outer s g) (hs : m.Stands below w (f, .before o)) : f = g :=
  congrArg Activation.frame (List.cons.inj (hs.chain.symm.trans h.stands.chain)).1

theorem Handles.reaches {bs outer : List Block} {s : OperandStack} {m m' : Machine σ}
    (h : Handles host below w reason outer bs s m m') : ∃ k, run host k m = m' := by
  induction h with
  | done => exact ⟨0, rfl⟩
  | passes _ _ ih => exact ih
  | @runs b bs s m m' m'' g hb he hr h ih =>
    obtain ⟨k, hk, -⟩ := hr.first
    obtain ⟨k', hk'⟩ := ih
    refine ⟨1 + k + k', ?_⟩
    rw [run_add, run_add]
    show run host k' (run host k (run host (0 + 1) m)) = m''
    rw [run_succ]
    show run host k' (run host k (m.step host)) = m''
    rw [hk, hk']

/-- **The induction over the blocks.**  An unwinding gets through blocks none of which stops it for
good, and is then one of the frame with the blocks around them and the stack cut. -/
theorem handles_through {bs outer : List Block} {f : Frame} {m : Machine σ}
    (hm : (m.step host).Stands below w (f.unwound reason)) (hb : f.blocks = bs ++ outer)
    (hpass : ∀ b ∈ bs, b.kind ≠ .cleanup → b.handles reason = false)
    (hroom : ∀ inner b rest, bs = inner ++ b :: rest → b.kind = .cleanup →
      (f.stack.cutThrough (inner ++ [b])).depth + 3 ≤ f.stack.capacity)
    (hrun : m.HandlersRun host below w reason bs outer f.stack) :
    ∃ (m' : Machine σ) (g : Frame), Handles host below w reason outer bs f.stack m m' ∧
      (m'.step host).Stands below w (g.unwound reason) ∧ g.blocks = outer ∧
      g.stack = f.stack.cutThrough bs := by
  induction bs generalizing f m with
  | nil => exact ⟨m, f, .done, hm, hb, rfl⟩
  | cons b bs ih =>
    have hpass' : ∀ c ∈ bs, c.kind ≠ .cleanup → c.handles reason = false :=
      fun c hc => hpass c (List.mem_cons_of_mem b hc)
    have hroom' : ∀ inner c rest, bs = inner ++ c :: rest → c.kind = .cleanup →
        ((f.stack.truncate b.depth).cutThrough (inner ++ [c])).depth + 3 ≤ f.stack.capacity :=
      fun inner c rest he => hroom (b :: inner) c rest (congrArg (b :: ·) he)
    by_cases hk : b.kind = .cleanup
    · have hfit := hroom [] b bs rfl hk
      obtain ⟨g, hu, hgb, hgs⟩ := Frame.unwound_of_cleanup reason hb hk hfit
      rw [hu] at hm
      have he : (m.step host).Enters below w reason b (bs ++ outer) f.stack g := ⟨hm, hgb, hgs⟩
      obtain ⟨m', hr⟩ := hrun [] b bs m g rfl hk .done he
      -- the handler ends with the blocks and the stack with which the unwinding of the rest begins
      obtain ⟨f', hu', hb', hs'⟩ := hr.finishes.unwinds hgs hfit
      -- what has run before a later handler is this one and what has run since
      have hrun' : m'.HandlersRun host below w reason bs outer f'.stack := by
        intro inner c rest m'' g' heq hc hi
        rw [hs'] at hi
        rw [hs']
        refine hrun (b :: inner) c rest m'' g' (congrArg (b :: ·) heq) hc (.runs hk ?_ hr hi)
        rw [← List.append_assoc, ← heq]
        exact he
      obtain ⟨m'', g', hh, hs, hgb', hgs'⟩ := ih hu'.step (hb'.trans hgb) hpass'
        (by rw [hs']; exact hroom') hrun'
      rw [hs'] at hh hgs'
      exact ⟨m'', g', .runs hk he hr hh, hs, hgb', hgs'⟩
    · rw [Frame.unwound_of_passed hb (hpass b List.mem_cons_self hk)] at hm
      obtain ⟨m', g, hh, hs, hg⟩ := ih (f := ({ f with blocks := bs ++ outer } : Frame).cutTo b)
        hm rfl hpass' hroom' fun inner c rest m' g he hc hi =>
          hrun (b :: inner) c rest m' g (congrArg (b :: ·) he) hc (.passes hk hi)
      exact ⟨m', g, .passes hk hh, hs, hg⟩

/-- **Unwinding through handlers.**  A frame unwinds for a reason, with the blocks `inside` between
it and where the unwinding ends: all blocks of the frame if a value is returned or an exception was
raised, and those inside the innermost loop if that is left or continued.  Of these blocks, only
those of `finally` stop the unwinding, and the values that their handlers find fit on the stack.  If
every handler, once entered, runs up to its own `END_FINALLY`, then the handlers run in the order of
the blocks, each once, and the unwinding ends as it began. -/
theorem Unwinds.through_handlers {inside outer : List Block} (h : m.Unwinds host below w f reason)
    (hb : f.blocks = inside ++ outer) (he : reason.EndsAt outer)
    (hpass : ∀ b ∈ inside, b.kind ≠ .cleanup → b.handles reason = false)
    (hroom : ∀ inner b rest, inside = inner ++ b :: rest → b.kind = .cleanup →
      (f.stack.cutThrough (inner ++ [b])).depth + 3 ≤ f.stack.capacity)
    (hrun : m.HandlersRun host below w reason inside outer f.stack) :
    ∃ k p, Handles host below w reason outer inside f.stack m (run host k m) ∧
      (run host (k + 1) m).Stands below w p ∧
      Frame.Concludes (f.stack.cutThrough inside) reason outer p := by
  obtain ⟨m', g, hh, hs, hgb, hgs⟩ := handles_through h.step hb hpass hroom hrun
  obtain ⟨k, rfl⟩ := hh.reaches
  refine ⟨k, g.unwound reason, hh, ?_, ?_⟩
  · rw [run_succ]
    exact hs
  · rw [← hgs]
    exact Frame.concludes_unwound hgb he

end Machine

/-- The code of a loop around two `finally` blocks that continues it.  The inner handler is a `NOP`
and its `END_FINALLY` at 13, the outer one the `END_FINALLY` at 14. -/
def guardingCode : CodeObject where
  identity := 1
  body :=
    { name := "guarding"
      bytecode := [Opcode.setupLoop.byte, 13, 0, Opcode.setupFinally.byte, 8, 0,
        Opcode.setupFinally.byte, 3, 0, Opcode.continueLoop.byte, 15, 0, Opcode.nop.byte,
        Opcode.endFinally.byte, Opcode.endFinally.byte, Opcode.popBlock.byte,
        Opcode.loadConst.byte, 0, 0, Opcode.returnValue.byte]
      consts := [.none]
      maxStack := 3
      firstLine := 1 }

/-- A frame of that code that has executed the instruction at an offset last. -/
def guardingFrame (offset : Nat) (blocks : List Block) (stack : OperandStack) : Frame where
  code := guardingCode
  globals := ⟨0⟩
  builtins := Heap.defaultBuiltins
  locals := .dict ⟨0⟩
  cells := []
  stack
  blocks
  lastOffset := some offset
  trace := { line := 1, lower := 0, upper := Frame.farthestOffset, previous := offset }

/-- The stack with which the handlers of that code start when the loop is continued. -/
def continuingStack : OperandStack := ⟨[.none, .none, .suspended (.continuing 15)], 3, 3, rfl⟩

namespace Guarding

/-- The inner of the two `finally` blocks. -/
def innerBlock : Block := ⟨.cleanup, 12, 0⟩

/-- The outer one. -/
def outerBlock : Block := ⟨.cleanup, 14, 0⟩

/-- The loop around them. -/
def loopBlock : Block := ⟨.loop, 16, 0⟩

/-- What the frame came to the chain with. -/
def entry : Entry := (guardingFrame 6 [] (.empty 3)).entry .outside

/-- The frame that has entered the inner handler. -/
def innerFrame : Frame := guardingFrame 9 [outerBlock, loopBlock] continuingStack

/-- The frame that has executed the `NOP` there. -/
def lastFrame : Frame := guardingFrame 12 [outerBlock, loopBlock] continuingStack

/-- The frame that has entered the outer handler. -/
def outerFrame : Frame := guardingFrame 13 [loopBlock] continuingStack

/-- A frame without a hook finishes the handler whose `END_FINALLY` it is about to execute. -/
theorem finishes_running {f : Frame} {o n : Nat} (hk : f.trace.hook = none)
    (hi : Instruction.decode f.code.body.bytecode o = .ok ⟨o, .endFinally, 0⟩) :
    (Machine.running f (.dispatch o) n).Finishes Host.silent [] (f.entry .outside) f := by
  obtain ⟨trace, -, hr⟩ := f.reported_spec o
  exact ⟨f, o, f.reported o, o, _, ⟨rfl, rfl⟩, Machine.decodes?_running hk, by rw [hr]; exact hi,
    rfl, by rw [hr], by rw [hr]⟩

/-- The machine when the inner handler is entered. -/
def first : Machine Unit := .running innerFrame (.dispatch 12) 1

/-- The machine at the `END_FINALLY` of the inner handler. -/
def second : Machine Unit := .running lastFrame (.dispatch 13) 2

/-- The machine when the outer handler is entered, at its `END_FINALLY`. -/
def third : Machine Unit := .running outerFrame (.dispatch 14) 3

theorem second_step : second.step Host.silent = third := by cbv

/-- The inner handler runs its `NOP` and then comes to its end. -/
theorem inner_runs : first.Runs Host.silent [] entry innerFrame second := by
  have hnext : Machine.run Host.silent 1 first = second := by cbv
  have hdecode : Instruction.decode guardingCode.body.bytecode 13 = .ok ⟨13, .endFinally, 0⟩ := by
    cbv
  refine ⟨finishes_running (f := lastFrame) rfl hdecode, 1, hnext, fun j hj => ?_, fun j hj => ?_⟩
  · rcases Nat.le_one_iff_eq_zero_or_eq_one.1 hj with rfl | rfl
    · exact ⟨_, _, .innermost (s := .before 12) ⟨rfl, rfl⟩⟩
    · rw [hnext]
      exact ⟨_, _, .innermost (s := .before 13) ⟨rfl, rfl⟩⟩
  · -- it is not at its end before, since there is the `NOP`
    cases Nat.lt_one_iff.1 hj
    rintro ⟨-, -, g, o, i, -, hd, hi, hop, -⟩
    obtain ⟨rfl, rfl⟩ :=
      Prod.mk.inj (Option.some.inj ((Machine.decodes?_running rfl).symm.trans hd))
    obtain ⟨trace, -, hr⟩ := innerFrame.reported_spec 12
    rw [hr] at hi
    have hnop : Instruction.decode guardingCode.body.bytecode 12 = .ok ⟨12, .nop, 0⟩ := by cbv
    obtain rfl := Except.ok.inj (hnop.symm.trans hi)
    cases hop

/-- The outer handler is at its end when it is entered. -/
theorem outer_runs : third.Runs Host.silent [] entry outerFrame third := by
  have hdecode : Instruction.decode guardingCode.body.bytecode 14 = .ok ⟨14, .endFinally, 0⟩ := by
    cbv
  refine ⟨finishes_running (f := outerFrame) rfl hdecode, 0, rfl, fun j hj => ?_,
    fun j hj => absurd hj (Nat.not_lt_zero j)⟩
  cases Nat.le_zero.1 hj
  exact ⟨_, _, .innermost (s := .before 14) ⟨rfl, rfl⟩⟩

/-- The blocks inside one of the two, and those between it and the loop. -/
theorem blocks_eq {i r : List Block} {b : Block} (h : [innerBlock, outerBlock] = i ++ b :: r) :
    (i = [] ∧ b = innerBlock ∧ r = [outerBlock]) ∨
      (i = [innerBlock] ∧ b = outerBlock ∧ r = []) := by
  rcases List.cons_eq_append_iff.1 h with ⟨rfl, h₁⟩ | ⟨i', rfl, h₁⟩
  · cases h₁
    exact .inl ⟨rfl, rfl, rfl⟩
  · rcases List.cons_eq_append_iff.1 h₁ with ⟨rfl, h₂⟩ | ⟨i'', rfl, h₂⟩
    · cases h₂
      exact .inr ⟨rfl, rfl, rfl⟩
    · exact absurd h₂ (by simp)

/-- Both handlers run, once the step before them unwinds. -/
theorem handlersRun {m : Machine Unit} {s : OperandStack} (hm : m.step Host.silent = first) :
    m.HandlersRun Host.silent [] entry (.continuing 15) [innerBlock, outerBlock] [loopBlock] s := by
  intro i b r m' g heq hk hh he
  rcases blocks_eq heq with ⟨rfl, rfl, rfl⟩ | ⟨rfl, rfl, rfl⟩
  · cases hh
    rw [hm] at he ⊢
    obtain rfl := he.frame_eq ⟨rfl, rfl⟩
    exact ⟨second, inner_runs⟩
  · cases hh with
    | passes hb _ => exact absurd rfl hb
    | runs _ he₁ hr hrest =>
      cases hrest
      rw [hm] at he₁ hr
      obtain rfl := he₁.frame_eq ⟨rfl, rfl⟩
      obtain rfl := inner_runs.unique hr
      rw [second_step] at he ⊢
      obtain rfl := he.frame_eq ⟨rfl, rfl⟩
      exact ⟨third, outer_runs⟩

end Guarding

open Guarding

/-- A `CONTINUE_LOOP` runs both handlers around it, the inner one first, and then continues the
loop. -/
theorem guardingFrame_continues : ∃ k g,
    (Machine.run Host.silent k (.running
        (guardingFrame 6 [⟨.cleanup, 12, 0⟩, ⟨.cleanup, 14, 0⟩, ⟨.loop, 16, 0⟩] (.empty 3))
        (.dispatch 9) 0)).Stands [] (Frame.entry (guardingFrame 6 [] (.empty 3)) .outside)
          (g, .before 15) ∧
      g.blocks = [⟨.loop, 16, 0⟩] := by
  let f := guardingFrame 6 [innerBlock, outerBlock, loopBlock] (.empty 3)
  let m : Machine Unit := .running f (.dispatch 9) 0
  obtain ⟨trace, -, hf⟩ := f.reported_spec 9
  have hu : m.Unwinds Host.silent [] entry (f.reported 9) (.continuing 15) :=
    .instruction ⟨rfl, rfl⟩ (Machine.decodes?_running rfl)
      (i := ⟨9, .continueLoop, 15⟩) (by rw [hf]; cbv) (.continueLoop rfl)
  have hroom : ∀ i b r, [innerBlock, outerBlock] = i ++ b :: r → b.kind = .cleanup →
      ((f.reported 9).stack.cutThrough (i ++ [b])).depth + 3 ≤ (f.reported 9).stack.capacity := by
    intro i b r heq hk
    have hstack : (f.reported 9).stack = f.stack := by rw [hf]
    rw [hstack]
    rcases blocks_eq heq with ⟨rfl, rfl, rfl⟩ | ⟨rfl, rfl, rfl⟩ <;> decide
  have hblocks : (f.reported 9).blocks = [innerBlock, outerBlock] ++ [loopBlock] := by rw [hf]; rfl
  have hrun : m.step Host.silent = first := by cbv
  obtain ⟨k, p, -, hs, hc⟩ := hu.through_handlers hblocks ⟨loopBlock, [], rfl, rfl⟩ (by decide)
    hroom (handlersRun hrun)
  cases hc with
  | continued hg _ => exact ⟨k + 1, _, hs, hg⟩

end Resumable
