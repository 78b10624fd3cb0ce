import Resumable.Proofs.Machine.Handlers
import Resumable.Proofs.Machine.NewExceptions

/-!
# Tracebacks

Each time an exception is raised in a frame it gets one entry more (`Frame.entryAt`), and that is
the only way in which it gets any.  From then on the frame bears it (`Frame.Bears`): it is suspended
on the stack while handlers run, or it is the one that the frame handles, or the frame leaves with
it.

`Machine.Raises` lists what is raised in a frame: a new exception, one sent from outside, the one
that the frame above leaves with, and once more the one being handled, by a bare raise.  The last
two have entries already.  `Machine.Gathers` follows an exception back through them, to where it was
first raised or to where the frame received it as a value.

`Session.traceback_of_escape` : an exception with which a frame leaves has gathered one entry for
each time it was raised on its way, in this order, and no other.  No handler adds or loses an entry,
but a bare raise adds one, also in a frame that has added one before.
-/

namespace Resumable

variable {σ : Type} {host : Host σ}

/-! ### What a frame bears -/

namespace OperandStack

variable {s t : OperandStack}

theorem slots_pop {v : Value} (h : s.pop = .ok (v, t)) : t.slots ⊆ s.slots := by
  rw [(pop_eq_ok h).1]
  exact List.subset_cons_self v t.slots

theorem slots_popN {n : Nat} {vs : List Value} (h : s.popN n = .ok (vs, t)) :
    vs ⊆ s.slots ∧ t.slots ⊆ s.slots := by
  unfold popN peekN dropN at h
  by_cases hn : n ≤ s.depth
  · rw [if_pos hn, if_pos hn] at h
    cases h
    exact ⟨fun v hv => List.mem_of_mem_take (List.mem_reverse.1 hv),
      fun v hv => List.mem_of_mem_drop hv⟩
  · rw [if_neg hn] at h
    cases h

end OperandStack

namespace Frame

/-- The entry that a frame adds to a traceback for what happens at an offset. -/
def entryAt (f : Frame) (offset : Nat) : TracebackEntry :=
  ⟨f.name, f.code.body.lineForOffset offset, offset⟩

/-- The frame has the exception suspended on its stack, or handles it. -/
def Bears (f : Frame) (e : Raised) : Prop :=
  .suspended (.raising e) ∈ f.stack.slots ∨ f.pending = some e

variable {f g : Frame} {e e₀ : Raised} {reason : Unwind Value} {b : Block}

theorem entryAt_of_code (h : g.code = f.code) (o : Nat) : g.entryAt o = f.entryAt o := by
  unfold entryAt name
  rw [h]

theorem Bears.of_stack {s : OperandStack} (hs : s.slots ⊆ f.stack.slots)
    (h : Bears { f with stack := s } e) : f.Bears e :=
  h.imp_left fun h => hs h

theorem Bears.of_cutTo (h : (f.cutTo b).Bears e) : f.Bears e :=
  h.imp_left List.mem_of_mem_drop

theorem Bears.of_finish (h : f.finish.Bears e) : f.Bears e :=
  h.imp_left List.mem_of_mem_drop

theorem mem_handlerValues (h : .suspended (.raising e) ∈ handlerValues reason) :
    reason = .raising e := by
  cases reason <;> simp_all [handlerValues]

theorem Bears.of_startHandler (h : (f.startHandler b reason).1.Bears e) :
    f.Bears e ∨ reason = .raising e := by
  rcases h with h | h
  · have hs : (f.startHandler b reason).1.stack.slots = _ :=
      OperandStack.slots_pushAll (f.cutTo b).stack (handlerValues reason)
    rw [hs] at h
    rcases List.mem_append.1 h with h | h
    · exact .inr (mem_handlerValues (List.mem_of_mem_take (List.mem_reverse.1 h)))
    · exact .inl (.inl (List.mem_of_mem_drop h))
  · cases reason with
    | raising e' => exact .inr (congrArg Unwind.raising (Option.some.inj h))
    | _ => exact .inl (.inr h)

theorem Bears.of_handle (h : (f.handle b reason).1.Bears e) : f.Bears e ∨ reason = .raising e := by
  unfold handle at h
  split at h
  · exact .inl h
  · exact .inl h.of_cutTo
  · exact h.of_startHandler

theorem Bears.of_unwindThrough {bs : List Block} (h : (unwindThrough reason bs f).1.Bears e) :
    f.Bears e ∨ reason = .raising e := by
  induction bs generalizing f with
  | nil => exact .inl h
  | cons b outer ih =>
    unfold unwindThrough at h
    split at h
    · exact h.of_handle
    · exact (ih h).imp_left Bears.of_cutTo

end Frame

/-- A frame that stands so bears the exception, or leaves with it. -/
def Standing.Bears (s : Standing) (f : Frame) (e : Raised) : Prop :=
  f.Bears e ∨ s = .leaving (.error (.raised e))

namespace Frame

variable {f g : Frame} {e : Raised} {reason : Unwind Value} {x : Failure}

theorem bears_failing (h : (f.failing x).2.Bears (f.failing x).1 e) :
    f.Bears e ∨ x = .raised e := by
  rcases h with h | h
  · exact .inl h.of_finish
  · cases h
    exact .inr rfl

/-- Unwinding brings in no other exception than the one it is for. -/
theorem bears_unwound (h : (f.unwound reason).2.Bears (f.unwound reason).1 e) :
    f.Bears e ∨ reason = .raising e := by
  unfold unwound at h
  have hg : ∀ g u, f.unwind reason = (g, u) → g.Bears e → f.Bears e ∨ reason = .raising e := by
    intro g u hu hg
    have hb : (unwindThrough reason f.blocks f).1.Bears e := by
      unfold unwind at hu
      rw [hu]
      exact hg
    exact hb.of_unwindThrough
  split at h
  · rename_i g target hu
    exact hg _ _ hu (h.resolve_right nofun)
  · rename_i g fault hu
    exact hg _ _ hu ((bears_failing h).resolve_right nofun)
  · rename_i g hu
    cases reason with
    | returning v => exact hg _ _ hu (h.resolve_right nofun).of_finish
    | raising e' =>
      rcases bears_failing h with h | h
      · rcases h with h | h
        · exact hg _ _ hu (.inl h)
        · exact .inr (congrArg Unwind.raising (Option.some.inj h))
      · exact .inr (congrArg Unwind.raising (Failure.raised.inj h))
    | breaking => exact hg _ _ hu ((bears_failing h).resolve_right nofun)
    | continuing target => exact hg _ _ hu ((bears_failing h).resolve_right nofun)

/-- **Raising an exception** adds one entry to it. -/
theorem bears_raising {e₀ : Raised} {o : Nat} (h : (f.raising e₀ o).2.Bears (f.raising e₀ o).1 e) :
    f.Bears e ∨ e = e₀.through (f.entryAt o) := by
  rw [raising_eq_unwound] at h
  exact (bears_unwound h).imp_right fun h => (Unwind.raising.inj h).symm

theorem bears_failingAt {o : Nat} (h : (f.failingAt o x).2.Bears (f.failingAt o x).1 e) :
    f.Bears e ∨ ∃ e₀, x = .raised e₀ ∧ e = e₀.through (f.entryAt o) := by
  cases x with
  | raised e₀ => exact (bears_raising h).imp_right fun h => ⟨e₀, rfl, h⟩
  | fatal fault => exact .inl ((bears_failing h).resolve_right nofun)
  | uncatchable e₀ => exact .inl ((bears_failing h).resolve_right nofun)

theorem bears_resumed {v : Value} {i : Instruction}
    (h : (f.resumed v i).2.Bears (f.resumed v i).1 e) :
    f.Bears e ∨ v = .suspended (.raising e) := by
  unfold resumed at h
  cases hp : f.stack.push v with
  | ok s =>
    rw [hp] at h
    unfold OperandStack.push at hp
    split at hp <;> cases hp
    rcases h with (h | h) | h
    · rcases List.mem_cons.1 h with h | h
      · exact .inr h.symm
      · exact .inl (.inl h)
    · exact .inl (.inr h)
    · cases h
  | error fault =>
    rw [hp] at h
    exact .inl ((bears_failing h).resolve_right fun hx => by cases hx)

theorem bears_exhausted {i : Instruction} (h : (f.exhausted i).2.Bears (f.exhausted i).1 e) :
    f.Bears e := by
  unfold exhausted at h
  cases hp : f.stack.pop with
  | ok r =>
    obtain ⟨v, s⟩ := r
    rw [hp] at h
    exact Bears.of_stack (OperandStack.slots_pop hp) (h.resolve_right nofun)
  | error fault =>
    rw [hp] at h
    exact (bears_failing h).resolve_right nofun

theorem bears_failingLoop {i : Instruction}
    (h : (f.failingLoop i x).2.Bears (f.failingLoop i x).1 e) :
    f.Bears e ∨ x.isCaughtBy .stopIteration = false ∧
      ∃ e₀, x = .raised e₀ ∧ e = e₀.through (f.entryAt i.offset) := by
  unfold failingLoop at h
  split at h
  · exact .inl (bears_exhausted h)
  · rename_i hc
    exact (bears_failingAt h).imp_right fun h => ⟨Bool.eq_false_iff.2 hc, h⟩

/-! #### Hooks -/

theorem Traced.keeps {o o' : Nat} (hh : host.Courteous) (ht : Traced host f o g o') :
    g.code = f.code ∧ g.pending = f.pending ∧ g.stack.slots ⊆ f.stack.slots := by
  obtain ⟨trace, -, hr⟩ := f.reported_spec o
  rcases ht.hooked_or with ⟨rfl, -⟩ | ⟨-, ha, -⟩
  · rw [hr]
    exact ⟨rfl, rfl, List.Subset.refl _⟩
  · obtain ⟨hcode, -, hslots, -⟩ := (ha hh).spec
    have hpending := (ha hh).keeps.1
    rw [hr] at hcode hpending hslots
    exact ⟨hcode, hpending, hslots.subset⟩

theorem Traced.bears {o o' : Nat} (hh : host.Courteous) (ht : Traced host f o g o')
    (h : g.Bears e) : f.Bears e := by
  obtain ⟨-, hp, hs⟩ := ht.keeps hh
  exact h.imp (fun h => hs h) fun h => hp ▸ h

end Frame

/-- An unwinding that an instruction begins is for an exception that the frame bears. -/
theorem Instruction.Begins.bears {i : Instruction} {f g : Frame} {reason : Unwind Value}
    {e : Raised} (hi : i.Begins f reason g) (h : g.Bears e ∨ reason = .raising e) : f.Bears e := by
  cases hi with
  | returnValue _ hp =>
    exact Frame.Bears.of_stack (OperandStack.slots_pop hp) (h.resolve_right nofun)
  | breakLoop _ => exact h.resolve_right nofun
  | continueLoop _ => exact h.resolve_right nofun
  | endFinally _ hp =>
    obtain ⟨hv, hs⟩ := OperandStack.slots_popN hp
    rcases h with h | rfl
    · exact Frame.Bears.of_stack hs h
    · exact .inl (hv (List.mem_cons_self ..))

/-! ### What an instruction does about exceptions -/

/-- The exceptions that an instruction of the frame `g` raises: by itself, or because the frame that
it would put on the chain is one too many. -/
inductive Instruction.Throws (i : Instruction) (g : Frame) (current : Option Raised) (e : Raised) :
    Prop
  | itself {h : Heap} {l : Local} (hx : (Exec.execute current i).run ⟨g, h⟩ = .error (.raised e) l)
  | barred {h : Heap} {l : Local} {flow : Flow} {limit : LimitError}
      (hx : (Exec.execute current i).run ⟨g, h⟩ = .ok flow l)
      (hf : (∃ callee, flow = .invoke callee) ∨ ∃ r, flow = .advance r)
      (he : limit.toFailure = .raised e)

/-- The frame `k` is what the instruction leaves of the frame `g`, whether it fails or not. -/
def Instruction.Leaves (i : Instruction) (g k : Frame) : Prop :=
  ∃ current h l, l.frame = k ∧ ((∃ flow, (Exec.execute current i).run ⟨g, h⟩ = .ok flow l) ∨
    ∃ x, (Exec.execute current i).run ⟨g, h⟩ = .error x l)

/-- The instruction, which begins no unwinding, takes the exception from elsewhere as a value. -/
structure Instruction.Loads (i : Instruction) (g : Frame) (e : Raised) : Prop where
  keeps : ∀ reason g', ¬i.Begins g reason g'
  loads : ∃ k, i.Leaves g k ∧ k.Bears e
  fresh : ¬g.Bears e

theorem LimitError.new_of_toFailure {limit : LimitError} {e : Raised}
    (h : limit.toFailure = .raised e) : e.IsNew := by
  cases limit with
  | depth n =>
    cases h
    rfl
  | _ => cases h

/-- An exception that an instruction raises is new, or the one that is handled. -/
theorem Instruction.Throws.new_or {i : Instruction} {g : Frame} {current : Option Raised}
    {e : Raised} (h : i.Throws g current e) :
    e.IsNew ∨ i.opcode = .raiseVarargs ∧ i.arg.toNat = 0 ∧ current = some e := by
  cases h with
  | itself hx => exact Exec.new_of_execute hx
  | barred _ _ he => exact .inl (LimitError.new_of_toFailure he)

/-- A generator that gives out no frame ends the loop, or fails for good. -/
theorem Heap.takeFrame_raised {h : Heap} {r : Ref .generator} {e : Raised}
    (ht : h.takeFrame r false = .error (.raised e)) : e = Raised.bare .stopIteration := by
  unfold takeFrame at ht
  dsimp only at ht
  cases hs : (h.generatorAt r).state <;> rw [hs] at ht <;>
    cases hf : (h.generatorAt r).frame <;> rw [hf] at ht <;> cases ht <;> rfl

/-- Where a frame is led brings in no exception, but for one frame too many. -/
theorem Frame.Follows.bears {h : Heap} {i : Instruction} {f : Frame} {flow : Flow}
    {given : Option Failure} {p : Frame × Standing} {e : Raised} (hf : f.Follows h i flow given p)
    (he : p.2.Bears p.1 e) : f.Bears e ∨ flow = .reraise e ∨
      ((∃ callee, flow = .invoke callee) ∨ ∃ r, flow = .advance r) ∧
        ∃ (limit : LimitError) (e₀ : Raised), limit.toFailure = .raised e₀ ∧
          e = e₀.through (f.entryAt i.offset) := by
  cases hf with
  | next | jump | yielded | invoke | advance => exact .inl (he.resolve_right nofun)
  | returned => exact .inl (he.resolve_right nofun).of_finish
  | reraise => exact (bears_failing he).imp_right fun he => .inl (congrArg Flow.reraise
      (Failure.raised.inj he))
  | @refused callee limit =>
    rcases bears_failingAt he with he | ⟨e₀, hlimit, he⟩
    · exact .inl he
    · exact .inr (.inr ⟨.inl ⟨callee, rfl⟩, limit, e₀, hlimit, he⟩)
  | @spent r x hr =>
    rcases bears_failingLoop he with he | ⟨hcaught, e₀, rfl, hthrough⟩
    · exact .inl he
    · -- of the failures of a generator, `StopIteration` is caught and a fault is no exception
      generalize hx : Failure.raised e₀ = x at hr
      cases hr with
      | frame ht =>
        subst hx
        rw [Heap.takeFrame_raised ht] at hcaught
        cases hcaught
      | limit limit => exact .inr (.inr ⟨.inr ⟨r, rfl⟩, limit, e₀, hx.symm, hthrough⟩)
      | input => cases hx

namespace Machine

/-! ### What is raised in a frame -/

/-- The frame right above the frames `below` bears the exception, or leaves with it. -/
def Bears (m : Machine σ) (below : List Activation) (w : Entry) (e : Raised) : Prop :=
  ∃ f, ⟨f, w⟩ :: below <:+ m.chain ∧
    (f.Bears e ∨ m.Stands below w (f, .leaving (.error (.raised e))))

/-- The next move executes an instruction of the frame `g`, which is right above the frames
`below`. -/
structure Performs (host : Host σ) (below : List Activation) (w : Entry) (m : Machine σ)
    (g : Frame) (i : Instruction) : Prop where
  chain : ∃ f, m.chain = ⟨f, w⟩ :: below ∧ g.code = f.code
  decodes : ∃ o, m.decodes? host = some (g, o) ∧
    Instruction.decode g.code.body.bytecode o = .ok i

/-- The next move raises an exception in the frame right above the frames `below`, and so adds an
entry to it.  What comes last is the frame that has the exception already, if one has: it stands
above other frames, and some frame waits for it. -/
inductive Raises (host : Host σ) (m : Machine σ) (below : List Activation) (w : Entry) :
    Raised → TracebackEntry → Option (List Activation × Entry) → Prop
  /-- An instruction raises a new exception. -/
  | anew {g : Frame} {i : Instruction} {e : Raised} (hi : m.Performs host below w g i)
      (hx : i.Throws g m.currentException e) (he : e.IsNew) :
      Raises host m below w e (g.entryAt i.offset) none
  /-- The frame is resumed with an exception, which is raised where it has stopped. -/
  | sent {f : Frame} {e : Raised} (hs : m.Stands below w (f, .starting (some e))) :
      Raises host m below w e (f.entryAt (f.lastOffset.getD 0)) none
  /-- The frame above leaves with the exception.  `StopIteration` only ends a loop. -/
  | passed {f g : Frame} {v : Entry} {i : Instruction} {e : Raised}
      (hs : m.Stands (⟨f, w⟩ :: below) v (g, .leaving (.error (.raised e))))
      (hv : v.waiting = .call i ∨
        (∃ r, v.waiting = .loop r i) ∧ e.isCaughtBy .stopIteration = false) :
      Raises host m below w e (f.entryAt i.offset) (some (⟨f, w⟩ :: below, v))
  /-- A raise without arguments raises the exception that is handled, by the innermost frame that
  handles one. -/
  | again {f g : Frame} {i : Instruction} {above rest : List Activation} {u : Entry} {e : Raised}
      (hi : m.Performs host below w g i) (hop : i.opcode = .raiseVarargs)
      (harg : i.arg.toNat = 0) (hc : m.chain = above ++ ⟨f, u⟩ :: rest) (hf : f.pending = some e)
      (ha : ∀ a ∈ above, a.frame.pending = none) :
      Raises host m below w e (g.entryAt i.offset) (some (rest, u))

/-- In the next move, the frame right above the frames `below` comes to bear an exception without
its being raised there: as it is put on the chain, as a value that an instruction takes from
elsewhere, as the value that the frame above leaves with, or as the failure with which the tracker
refuses an instruction. -/
inductive Receives (host : Host σ) (m : Machine σ) (below : List Activation) (w : Entry)
    (e : Raised) : Prop
  | entered (hn : m.chain.length ≤ below.length) (hb : (m.step host).Bears below w e)
  | loaded {g : Frame} {i : Instruction} (hi : m.Performs host below w g i) (hl : i.Loads g e)
  | given {f g : Frame} {v : Entry} {exit : FrameExit}
      (hs : m.Stands (⟨f, w⟩ :: below) v (g, .leaving (.ok exit)))
      (he : exit.value = .suspended (.raising e))
  | refused {f : Frame} {o : Nat} {limit : LimitError} (hs : m.Stands below w (f, .before o))
      (hl : m.budget.dispatch.1 = .error limit) (he : limit.toFailure = .raised e)

variable {m : Machine σ} {f g : Frame} {w u v : Entry} {rest below : List Activation}
  {i : Instruction} {e : Raised} {s : Standing}

/-- Where an exception is that is borne after a move: in the frame that has moved, below it, or in a
frame put on the chain. -/
theorem Holds.bears_cases (hh : m.Holds rest w f s) (hb : m.Bears below u e) :
    (below = rest ∧ u = w ∧ s.Bears f e) ∨ (∃ k, ⟨k, u⟩ :: below <:+ rest ∧ k.Bears e) ∨
      rest.length < below.length := by
  obtain ⟨k, hk, hb⟩ := hb
  obtain ⟨above, hc, -, -⟩ := hh.split
  have hrest : ⟨f, w⟩ :: rest <:+ m.chain := ⟨above, hc.symm⟩
  rcases Nat.lt_trichotomy below.length rest.length with hl | hl | hl
  · -- the frame is one of those below, and so does not leave
    refine .inr (.inl ⟨k, ?_, hb.resolve_right fun hs => ?_⟩)
    · exact List.suffix_of_suffix_length_le hk ((List.suffix_cons _ _).trans hrest) hl
    · have hlen := hrest.length_le
      rw [hs.chain] at hlen
      simp only [List.length_cons] at hlen
      omega
  · obtain ⟨ha, rfl⟩ := List.cons.inj <| (List.suffix_of_suffix_length_le hk hrest
      (by simp [hl])).eq_of_length (by simp [hl])
    cases ha
    refine .inl ⟨rfl, rfl, hb.imp_right fun hs => ?_⟩
    exact (hh.unique (.innermost hs)).2
  · exact .inr (.inr hl)

/-- Executing an instruction. -/
theorem perform_bears (hc : m.chain = ⟨g, w⟩ :: rest) (i : Instruction) :
    ∃ p : Frame × Standing, (m.perform host ⟨g, w⟩ i).Holds rest w p.1 p.2 ∧
      ∀ e, p.2.Bears p.1 e → g.Bears e ∨ i.Loads g e ∨
        ∃ e₀, i.Throws g m.currentException e₀ ∧ e = e₀.through (g.entryAt i.offset) := by
  by_cases hb : ∃ reason g', i.Begins g reason g'
  · -- the reason has been suspended before, if it is an exception
    obtain ⟨reason, g', hi⟩ := hb
    exact ⟨_, .innermost (perform_unwinds hc hi), fun e he => .inl (hi.bears
      (Frame.bears_unwound he))⟩
  · -- what the instruction leaves bears what the frame has borne, or what comes from elsewhere
    have left {k : Frame} {e : Raised} (hk : i.Leaves g k) (he : k.Bears e) :
        g.Bears e ∨ i.Loads g e := by
      by_cases hg : g.Bears e
      · exact .inl hg
      · exact .inr ⟨fun reason g' hi => hb ⟨reason, g', hi⟩, ⟨k, hk, he⟩, hg⟩
    cases hx : (Exec.execute m.currentException i).run ⟨g, m.heap⟩ with
    | error x l =>
      have hl : i.Leaves g l.frame := ⟨_, _, l, rfl, .inr ⟨x, hx⟩⟩
      have hcode := (Exec.damage_of_execute hx).toAkin.code
      have hs : (m.perform host ⟨g, w⟩ i).Stands rest w (l.frame.failingAt i.offset x) := by
        rw [perform_of_error m w hx]
        exact failAt_stands host (chain_executed host hc i l) i.offset x
      refine ⟨_, .innermost hs, fun e he => ?_⟩
      rcases Frame.bears_failingAt he with he | ⟨e₀, rfl, hthrough⟩
      · exact (left hl he).imp_right .inl
      · rw [Frame.entryAt_of_code hcode] at hthrough
        exact .inr (.inr ⟨e₀, .itself hx, hthrough⟩)
    | ok flow l =>
      have hl : i.Leaves g l.frame := ⟨_, _, l, rfl, .inl ⟨flow, hx⟩⟩
      have heff := Exec.effect_of_execute hx
      obtain ⟨given, p, hf, hh⟩ := follow_holds host (chain_executed host hc i l) i flow
      rw [← perform_of_ok m w hx] at hh
      refine ⟨p, hh, fun e he => ?_⟩
      rcases hf.bears he with he | rfl | ⟨hflow, limit, e₀, hlimit, he⟩
      · exact (left hl he).imp_right .inl
      · -- an exception that no block stops is handled by the frame that it leaves
        have hp : l.frame.pending = some e := by
          generalize l.frame = k at heff
          cases heff
          rfl
        exact (left hl (.inr hp)).imp_right .inl
      · rw [Frame.entryAt_of_code heff.akin.code] at he
        exact .inr (.inr ⟨e₀, .barred hx hflow hlimit, he⟩)

/-! ### One move -/

/-- An instruction raises a new exception, or the one that is handled. -/
theorem Performs.raises (hi : m.Performs host below w g i)
    (hx : i.Throws g m.currentException e) :
    ∃ src, m.Raises host below w e (g.entryAt i.offset) src := by
  rcases hx.new_or with he | ⟨hop, harg, he⟩
  · exact ⟨_, .anew hi hx he⟩
  · obtain ⟨above, ⟨f, u⟩, rest, hc, hf, ha⟩ := List.findSome?_eq_some_iff.1 he
    exact ⟨_, .again hi hop harg hc hf ha⟩

/-- A frame whose next instruction the tracker refuses fails. -/
theorem dispatch_refused {o : Nat} (h : m.Stands rest w (f, .before o))
    (hn : m.decodes? host = none) : ∃ limit : LimitError, m.budget.dispatch.1 = .error limit ∧
      (m.dispatch host o).Stands rest w (f.failing limit.toFailure) := by
  obtain ⟨⟨heap, budget, state⟩, chain, control⟩ := m
  have hc := h.chain
  have hk := h.control
  subst hc
  cases hk
  unfold decodes? lined? at hn
  unfold dispatch
  dsimp only at hn ⊢
  cases hb : budget.dispatch with
  | mk admitted budget =>
    cases admitted with
    | error limit => exact ⟨limit, rfl, fail_stands rfl _⟩
    | ok u =>
      rw [hb] at hn
      cases hn

/-- A dispatched instruction is executed, unless the frame fails. -/
theorem dispatch_bears (hh : host.Courteous) {o : Nat} (h : m.Stands rest w (f, .before o)) :
    ∃ p : Frame × Standing, (m.dispatch host o).Holds rest w p.1 p.2 ∧
      ∀ e, p.2.Bears p.1 e → f.Bears e ∨ m.Receives host rest w e ∨
        ∃ e₀ t src, m.Raises host rest w e₀ t src ∧ e = e₀.through t := by
  rcases dispatch_cases host h with ⟨-, hn, -⟩ | ⟨g, o', m', hd, ht, hc, -, hfault, hperform⟩
  · obtain ⟨limit, hl, hs⟩ := dispatch_refused h hn
    exact ⟨_, .innermost hs, fun e he => (Frame.bears_failing he).imp_right fun he =>
      .inl (.refused h hl he)⟩
  · replace hd := decodes?_of_lined? host hd
    cases hi : Instruction.decode g.code.body.bytecode o' with
    | error fault =>
      rw [hfault fault hi]
      refine ⟨g.failing (.fatal fault), .innermost (fail_stands hc _), fun e he =>
        .inl (ht.bears hh ?_)⟩
      exact (Frame.bears_failing he).resolve_right nofun
    | ok i =>
      have hp : m.Performs host rest w g i := ⟨⟨f, h.chain, (ht.keeps hh).1⟩, o', hd, hi⟩
      -- the hook leaves the exception that is handled as it is
      have hcurrent : m'.currentException = m.currentException := by
        unfold currentException
        rw [hc, h.chain, List.findSome?_cons, List.findSome?_cons, (ht.keeps hh).2.1]
      obtain ⟨p, hholds, hbears⟩ := perform_bears hc i
      rw [hperform i hi]
      refine ⟨p, hholds, fun e he => ?_⟩
      rcases hbears e he with hg | hl | ⟨e₀, hx, he⟩
      · exact .inl (ht.bears hh hg)
      · exact .inr (.inl (.loaded hp hl))
      · rw [hcurrent] at hx
        obtain ⟨src, hr⟩ := hp.raises hx
        exact .inr (.inr ⟨e₀, _, src, hr, he⟩)

/-- A frame that starts raises what it is resumed with. -/
theorem start_bears {raising : Option Raised} (h : m.Stands rest w (f, .starting raising)) :
    ∃ p : Frame × Standing, (m.start host raising).Holds rest w p.1 p.2 ∧
      ∀ e, p.2.Bears p.1 e → f.Bears e ∨
        ∃ e₀ t src, m.Raises host rest w e₀ t src ∧ e = e₀.through t := by
  have hc := h.chain
  unfold start
  rw [hc]
  dsimp only at hc ⊢
  cases f.resumeOffset with
  | error fault =>
    exact ⟨(f, .leaving (.error (.fatal fault))), .innermost ⟨rfl, rfl⟩, fun e he =>
      .inl (he.resolve_right nofun)⟩
  | ok o =>
    cases raising with
    | none =>
      exact ⟨(f, .before o), .innermost ⟨hc, rfl⟩, fun e he => .inl (he.resolve_right nofun)⟩
    | some e₀ =>
      exact ⟨_, .innermost (raise_stands host hc e₀ _), fun e he =>
        (Frame.bears_raising he).imp_right fun he => ⟨e₀, _, _, .sent h, he⟩⟩

/-- A frame that is given what the one above came to. -/
theorem answered_bears {result : Except Failure FrameExit}
    (h : m.Stands (⟨f, w⟩ :: below) v (g, .leaving result)) (hv : v.waiting.standing? = some s)
    (he : (f.answered s result).2.Bears (f.answered s result).1 e) :
    f.Bears e ∨ m.Receives host below w e ∨
      ∃ e₀ t src, m.Raises host below w e₀ t src ∧ e = e₀.through t := by
  cases hw : v.waiting with
  | outside =>
    rw [hw] at hv
    cases hv
  | call i =>
    rw [hw] at hv
    cases hv
    match result with
    | .ok (.returned x) =>
      exact (Frame.bears_resumed he).imp_right fun hx => .inl (.given h hx)
    -- a call is not answered by a yield: that is a failure without exception
    | .ok (.yielded x) =>
      exact .inl ((Frame.bears_failingAt he).resolve_right nofun)
    | .error x =>
      rcases Frame.bears_failingAt he with he | ⟨e₀, rfl, hthrough⟩
      · exact .inl he
      · exact .inr (.inr ⟨e₀, _, _, .passed h (.inl hw), hthrough⟩)
  | loop r i =>
    rw [hw] at hv
    cases hv
    match result with
    | .ok (.returned x) => exact .inl (Frame.bears_exhausted he)
    | .ok (.yielded x) =>
      exact (Frame.bears_resumed he).imp_right fun hx => .inl (.given h hx)
    | .error x =>
      rcases Frame.bears_failingLoop he with he | ⟨hc, e₀, rfl, hthrough⟩
      · exact .inl he
      · exact .inr (.inr ⟨e₀, _, _, .passed h (.inr ⟨⟨r, hw⟩, hc⟩), hthrough⟩)

/-- Without frames nothing moves. -/
theorem step_nil (hc : m.chain = []) : (m.step host).chain = [] := by
  unfold step
  split
  · unfold start
    rw [hc]
    exact hc
  · unfold dispatch
    rw [hc]
    exact hc
  · unfold leave
    rw [hc]
    exact hc
  · exact hc

/-- A frame that leaves. -/
theorem leave_bears {result : Except Failure FrameExit} (h : m.Stands rest v (g, .leaving result))
    (hb : (m.step host).Bears below w e) :
    (∃ f, ⟨f, w⟩ :: below <:+ m.chain ∧ f.Bears e) ∨ m.Receives host below w e ∨
      ∃ e₀ t src, m.Raises host below w e₀ t src ∧ e = e₀.through t := by
  have hrest : rest <:+ m.chain := by
    rw [h.chain]
    exact List.suffix_cons _ _
  rw [step_of_leaving host h] at hb
  cases hv : v.waiting.standing? with
  -- the run ends, and the frame below has borne it before
  | none =>
    have hout : v.waiting = .outside := by
      cases hw : v.waiting <;> rw [hw] at hv <;> first | rfl | cases hv
    rw [hout] at hb
    obtain ⟨f, hc, hf⟩ := hb
    exact .inl ⟨f, hc.trans hrest, hf.resolve_right fun hs => nomatch hs.control⟩
  | some s =>
    cases rest with
    | nil =>
      obtain ⟨f, hc, -⟩ := hb
      rw [deliver_nil rfl] at hc
      exact absurd hc.length_le (Nat.not_succ_le_zero _)
    | cons a rest =>
      obtain ⟨f, u⟩ := a
      have hs := deliver_stands host (m := m.popped host v (⟨f, u⟩ :: rest) result) rfl hv
        (g.released result) result
      -- either the frame that takes the result bears it, or one further below
      rcases (Holds.innermost hs).bears_cases hb with ⟨rfl, rfl, he⟩ | ⟨k, hk, he⟩ | hlen
      · exact (answered_bears h hv he).imp_left fun hf => ⟨f, hrest, hf⟩
      · exact .inl ⟨k, hk.trans ((List.suffix_cons _ _).trans hrest), he⟩
      · obtain ⟨k, hk, -⟩ := hb
        have hle := hk.length_le
        rw [hs.chain] at hle
        simp only [List.length_cons] at hle
        omega

/-- **One move.**  A frame that bears an exception afterwards has borne it before, has just received
it as a value, or has just had it raised, with one entry more. -/
theorem bears_step (hh : host.Courteous) (hb : (m.step host).Bears below w e) :
    (∃ f, ⟨f, w⟩ :: below <:+ m.chain ∧ f.Bears e) ∨ m.Receives host below w e ∨
      ∃ e₀ t src, m.Raises host below w e₀ t src ∧ e = e₀.through t := by
  by_cases hm : m.isHalted = true
  · rw [step_of_halted hm] at hb
    obtain ⟨f, hc, hf⟩ := hb
    refine .inl ⟨f, hc, hf.resolve_right fun hs => ?_⟩
    rw [hs.not_halted] at hm
    cases hm
  cases hc : m.chain with
  | nil =>
    obtain ⟨f, hf, -⟩ := hb
    rw [step_nil hc] at hf
    exact absurd hf.length_le (Nat.not_succ_le_zero _)
  | cons a rest =>
    obtain ⟨s, hs⟩ := stands_of_chain hc (Bool.eq_false_iff.2 hm)
    obtain ⟨f, u⟩ := a
    -- what the innermost frame comes to bear, those below have borne, and those above are new
    have moved (hp : ∃ p : Frame × Standing, (m.step host).Holds rest u p.1 p.2 ∧
        ∀ e, p.2.Bears p.1 e → f.Bears e ∨ m.Receives host rest u e ∨
          ∃ e₀ t src, m.Raises host rest u e₀ t src ∧ e = e₀.through t) :
        (∃ g, ⟨g, w⟩ :: below <:+ ⟨f, u⟩ :: rest ∧ g.Bears e) ∨ m.Receives host below w e ∨
          ∃ e₀ t src, m.Raises host below w e₀ t src ∧ e = e₀.through t := by
      obtain ⟨p, hholds, hbears⟩ := hp
      rcases hholds.bears_cases hb with ⟨rfl, rfl, he⟩ | ⟨k, hk, he⟩ | hlen
      · exact (hbears e he).imp_left fun hf => ⟨f, List.suffix_rfl, hf⟩
      · exact .inl ⟨k, hk.trans (List.suffix_cons _ _), he⟩
      · refine .inr (.inl (.entered ?_ hb))
        rw [hc]
        exact hlen
    cases s with
    | calling i => cases hs.control
    | looping i => cases hs.control
    | starting raising =>
      rw [hs.step_starting host] at moved
      exact moved ((start_bears hs).imp fun p hp =>
        ⟨hp.1, fun e he => (hp.2 e he).imp_right .inr⟩)
    | before o =>
      rw [hs.step_before host] at moved
      exact moved (dispatch_bears hh hs)
    | leaving result => exact hc ▸ leave_bears hs hb

/-! ### A whole run -/

variable {m₀ : Machine σ} {j n : Nat} {first : Raised} {es : List TracebackEntry}
  {t : TracebackEntry}

/-- From the `j`-th to the `n`-th move of a run, a frame is right above the frames `below`, the same
all along. -/
def Remains (host : Host σ) (below : List Activation) (w : Entry) (j n : Nat) (m₀ : Machine σ) :
    Prop :=
  ∀ k, j ≤ k → k ≤ n → ∃ f, ⟨f, w⟩ :: below <:+ (run host k m₀).chain

/-- After `n` moves, the frame right above the frames `below` bears the exception `e`, which is
`first` with the entries `es` that it has gathered in the run: one for each time it was raised, the
last one in this frame. -/
inductive Gathers (host : Host σ) (m₀ : Machine σ) :
    Nat → List Activation → Entry → Raised → Raised → List TracebackEntry → Prop
  /-- The frame has it since the start of the run. -/
  | initial {n : Nat} {below : List Activation} {w : Entry} {e : Raised}
      (hb : m₀.Bears below w e) (hr : m₀.Remains host below w 0 n) :
      Gathers host m₀ n below w e e []
  | received {j n : Nat} {below : List Activation} {w : Entry} {e : Raised}
      (hb : (run host j m₀).Receives host below w e) (hr : m₀.Remains host below w (j + 1) n) :
      Gathers host m₀ n below w e e []
  /-- It was raised for the first time. -/
  | raised {j n : Nat} {below : List Activation} {w : Entry} {e : Raised} {t : TracebackEntry}
      (hx : (run host j m₀).Raises host below w e t none)
      (hr : m₀.Remains host below w (j + 1) n) :
      Gathers host m₀ n below w (e.through t) e [t]
  /-- It was raised again, in the frame that it came to or in the one where it was before. -/
  | again {j n : Nat} {below rest : List Activation} {w u : Entry} {e first : Raised}
      {t : TracebackEntry} {es : List TracebackEntry}
      (hx : (run host j m₀).Raises host below w e t (some (rest, u)))
      (he : Gathers host m₀ j rest u e first es) (hr : m₀.Remains host below w (j + 1) n) :
      Gathers host m₀ n below w (e.through t) first (es ++ [t])

theorem Remains.later (h : m₀.Remains host below w j n)
    (hc : ∃ f, ⟨f, w⟩ :: below <:+ (run host (n + 1) m₀).chain) :
    m₀.Remains host below w j (n + 1) := by
  intro k hj hk
  rcases Nat.le_succ_iff.1 hk with hk | rfl
  · exact h k hj hk
  · exact hc

theorem Remains.now (hc : ∃ f, ⟨f, w⟩ :: below <:+ (run host n m₀).chain) :
    m₀.Remains host below w n n := by
  intro k hj hk
  rw [Nat.le_antisymm hk hj]
  exact hc

theorem Gathers.later (h : m₀.Gathers host n below w e first es)
    (hc : ∃ f, ⟨f, w⟩ :: below <:+ (run host (n + 1) m₀).chain) :
    m₀.Gathers host (n + 1) below w e first es := by
  cases h with
  | initial hb hr => exact .initial hb (hr.later hc)
  | received hb hr => exact .received hb (hr.later hc)
  | raised hx hr => exact .raised hx (hr.later hc)
  | again hx he hr => exact .again hx he (hr.later hc)

/-- The entries gathered are the last ones of the traceback. -/
theorem Gathers.traceback (h : m₀.Gathers host n below w e first es) :
    e.exception = first.exception ∧ e.traceback = first.traceback ++ es := by
  induction h with
  | initial _ _ => exact ⟨rfl, (List.append_nil _).symm⟩
  | received _ _ => exact ⟨rfl, (List.append_nil _).symm⟩
  | raised _ _ => exact ⟨rfl, rfl⟩
  | @again j n below rest w u e first t es _ _ _ ih =>
    refine ⟨ih.1, ?_⟩
    show e.traceback ++ [t] = _
    rw [ih.2, List.append_assoc]

/-- An exception that is raised again is borne by the frame that it comes from. -/
theorem Raises.borne (h : m.Raises host below w e t (some (rest, u))) : m.Bears rest u e := by
  cases h with
  | @passed f g v i e hs hv =>
    refine ⟨g, ?_, .inr hs⟩
    rw [hs.chain]
  | again _ _ _ hc hf _ => exact ⟨_, ⟨_, hc.symm⟩, .inl (.inr hf)⟩

/-- **Every exception on a chain** has gathered its entries in the frames where it was raised. -/
theorem gathers_of_bears (hh : host.Courteous) (hb : (run host n m₀).Bears below w e) :
    ∃ first es, m₀.Gathers host n below w e first es := by
  -- by induction on the moves, for all frames of the chain at once
  induction n generalizing below w e with
  | zero => exact ⟨e, [], .initial hb (.now (hb.imp fun _ h => h.1))⟩
  | succ n ih =>
    have hc : ∃ f, ⟨f, w⟩ :: below <:+ (run host (n + 1) m₀).chain := hb.imp fun _ h => h.1
    rw [run_succ] at hb
    rcases bears_step hh hb with ⟨f, hf, he⟩ | hx | ⟨e₀, t, src, hx, rfl⟩
    · obtain ⟨first, es, hg⟩ := ih ⟨f, hf, .inl he⟩
      exact ⟨first, es, hg.later hc⟩
    · exact ⟨e, [], .received hx (.now hc)⟩
    · -- the frame that it comes from has borne it before the move
      cases src with
      | none => exact ⟨e₀, [t], .raised hx (.now hc)⟩
      | some src =>
        obtain ⟨first, es, hg⟩ := ih hx.borne
        exact ⟨first, es ++ [t], .again hx hg (.now hc)⟩

end Machine

/-- **The traceback of an exception with which a frame leaves**, in whatever run.  Behind what it
had when it was first raised, or when a frame received it as a value, stand the entries that it has
gathered: one for each frame it has left on its way, innermost first, for the instruction that has
failed there, and one more for each bare raise.  Handlers that it has passed through, and
`END_FINALLY`, have added none. -/
theorem Session.traceback_of_escape (hh : host.Courteous) {c : Context σ} {f g : Frame}
    {input : Option Value} {raising : Option Raised} {n : Nat} {below : List Activation}
    {w : Entry} {e : Raised}
    (hs : (Machine.run host n (machine host c f input raising)).Stands below w
      (g, .leaving (.error (.raised e)))) :
    ∃ first es, (machine host c f input raising).Gathers host n below w e first es ∧
      e.exception = first.exception ∧ e.traceback = first.traceback ++ es := by
  have hb : (Machine.run host n (machine host c f input raising)).Bears below w e := by
    refine ⟨g, ?_, .inr hs⟩
    rw [hs.chain]
  obtain ⟨first, es, hg⟩ := Machine.gathers_of_bears hh hb
  exact ⟨first, es, hg, hg.traceback⟩

/-- The code of a block that raises an exception on line 2, with a handler that raises it again on
line 3. -/
def reraisingCode : CodeObject where
  identity := 1
  body :=
    { name := "reraising"
      bytecode := [Opcode.setupExcept.byte, 3, 0, Opcode.raiseVarargs.byte, 0, 0,
        Opcode.raiseVarargs.byte, 0, 0]
      maxStack := 3
      firstLine := 1
      lineTable := [3, 1, 3, 1] }

/-- A frame that has not started with it. -/
def reraisingFrame : Frame where
  code := reraisingCode
  globals := ⟨0⟩
  builtins := Heap.defaultBuiltins
  locals := .dict ⟨0⟩
  cells := []
  stack := .empty 3
  trace := { line := 1 }

/-- The frame leaves with an exception that has gathered two entries in it. -/
theorem reraisingFrame_traceback :
    let m := Session.machine Host.silent Machine.idle.toContext reraisingFrame none none
    let w := reraisingFrame.entry .outside
    ∃ g e first es, (m.run Host.silent 4).Stands [] w (g, .leaving (.error (.raised e))) ∧
      m.Gathers Host.silent 4 [] w e first es ∧
      first.traceback ++ es = [⟨"reraising", 2, 3⟩, ⟨"reraising", 3, 6⟩] := by
  intro m w
  have hs : ∃ g e, (m.run Host.silent 4).Stands [] w (g, .leaving (.error (.raised e))) ∧
      e.traceback = [⟨"reraising", 2, 3⟩, ⟨"reraising", 3, 6⟩] := ⟨_, _, ⟨rfl, rfl⟩, rfl⟩
  obtain ⟨g, e, hs, ht⟩ := hs
  obtain ⟨first, es, hg, -, he⟩ :=
    Session.traceback_of_escape (fun _ _ _ _ _ => .refl) hs
  exact ⟨g, e, first, es, hs, hg, he ▸ ht⟩

end Resumable
