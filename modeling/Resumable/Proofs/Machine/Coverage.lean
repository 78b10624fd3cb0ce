import Resumable.Proofs.Bytecode.Coverage
import Resumable.Proofs.Machine.Course

/-!
# Where control comes

Control comes only to the offsets that are `CodeOf.Reachable` in the code.  A frame is
`Frame.Routed` at a standing if it goes on at such an offset and the handlers of its live blocks
start at one; every move of a frame without a hook keeps it so (`Frame.Routed.moves`), be it a jump,
an exception, or an unwinding that is suspended in a handler and taken up at its end.

A loop may also be continued by a value that comes from elsewhere.  `Frame.OwnHistory` and
`Machine.OwnRun` say of each value that gets on the stack of a frame, unless the frame itself has
suspended a loop with it, that it only continues a loop as the code does.  It follows of the others
(`Frame.Keeping.carried`).

So where a frame executes an instruction the walk that measured its code has been, or the way there
leads through a `continueLoop` whose target the walk has missed (`Frame.OwnHistory.executes`).  Such
code is accepted, and then the declared stack size need not be enough.
-/

namespace Resumable

open Relation (ReflTransGen)

/-- The values that continue no loop but as the code does: where an instruction does that control
may come to. -/
def CodeOf.Owns {κ : Type} (c : CodeOf κ) (v : Value) : Prop :=
  ∀ t, v = .suspended (.continuing t) → ∃ o, c.Reachable o ∧ c.Continues o t

namespace CodeOf

variable {κ : Type} {c : CodeOf κ} {i : Instruction} {o : Nat}

theorem reachable_zero (c : CodeOf κ) : c.Reachable 0 := .refl

theorem Reachable.next (h : c.Reachable o) (hd : Instruction.decode c.bytecode o = .ok i)
    (hop : i.opcode.fallsThrough = true) : c.Reachable i.next :=
  h.tail (.inl ⟨i, hd, Instruction.next_mem_successors hop⟩)

/-- Control may come to every target: the walk follows the edge there, or a loop is continued. -/
theorem Reachable.target (h : c.Reachable o) (hd : Instruction.decode c.bytecode o = .ok i)
    (ht : i.opcode.addressing?.isSome = true) : c.Reachable i.target := by
  by_cases hop : i.opcode = .continueLoop
  · exact h.tail (.inr ⟨i, hd, hop, rfl⟩)
  · exact h.tail (.inl ⟨i, hd, Instruction.target_mem_successors ht hop⟩)

end CodeOf

namespace Frame

/-- Control may come to where the frame goes on from a standing. -/
def Heads (c : Code) (f : Frame) : Standing → Prop
  | .starting _ => ∀ o, f.resumeOffset = .ok o → c.Reachable o
  | .before o => c.Reachable o
  | .leaving (.ok (.yielded _)) => ∀ o, f.resumeOffset = .ok o → c.Reachable o
  | .leaving _ => True
  | .calling site => c.Reachable site.next
  | .looping site => c.Reachable site.next ∧ c.Reachable site.target

/-- Control may come to where the frame goes on, and to the handlers of its live blocks. -/
structure Routed (c : Code) (f : Frame) (s : Standing) : Prop where
  handlers : ∀ b ∈ f.blocks, c.Reachable b.handler
  heads : f.Heads c s

variable {c : CodeObject} {f g : Frame} {i : Instruction} {o : Nat}

theorem Arrives.routed {p : Frame × Standing} (h : Arrives c.body.Reachable p) :
    p.1.Routed c.body p.2 := by
  obtain ⟨g, s⟩ := p
  obtain ⟨hb, ⟨o, rfl, ho⟩ | ⟨e, rfl⟩⟩ := h
  · exact ⟨hb, ho⟩
  · exact ⟨hb, trivial⟩

theorem Routed.returns {s : Standing} (h : f.Routed c.body s) : Returns c.body.Reachable s := by
  have hf := h.heads
  cases s with
  | calling site => exact hf
  | looping site => exact hf
  | _ => trivial

/-- Where an instruction leads that control has come to. -/
theorem follows_routed (hcode : f.code = c) (ho : c.body.Reachable o)
    (hd : Instruction.decode c.body.bytecode o = .ok i) (hlast : f.lastOffset = some o)
    (hb : ∀ b ∈ f.blocks, c.body.Reachable b.handler) (hs : f.Allows c.body.Owns)
    {flow : Flow} (he : Exec.Effect i f flow g) {heap : Heap} {given : Option Failure}
    {q : Frame × Standing} (hf : Follows heap i g flow given q) : q.1.Routed c.body q.2 := by
  have continued (_ : i.opcode = .endFinally) (t : Nat)
      (ht : f.stack.slots[2]? = some (.suspended (.continuing t))) : c.body.Reachable t := by
    obtain ⟨o₁, ho₁, hc⟩ := hs _ (List.mem_of_getElem? ht) t rfl
    exact ho₁.tail (.inr hc)
  cases follows_departs hb (ho.next hd) (ho.target hd) continued he hf with
  | arrives h => exact h.routed
  | calls hb hn => exact ⟨hb, hn⟩
  | loops hb hn ht => exact ⟨hb, hn, ht⟩
  | yields hb hop =>
    refine ⟨hb, fun o' ho' => ?_⟩
    have hlast' : g.lastOffset = some o := he.akin.lastOffset.trans hlast
    have hcode' : g.code = c := he.akin.code.trans hcode
    rw [resumeOffset_of_decode hlast' (hcode' ▸ hd)] at ho'
    cases ho'
    exact ho.next hd (by rw [hop]; rfl)
  | returns => exact ⟨nofun, trivial⟩

/-- **Every move keeps to where control may come.** -/
theorem Routed.moves {σ : Type} {host : Host σ} {given : Option Failure} {s : Standing}
    {p : Frame × Standing} (hfit : f.Fits False c) (hs : f.Allows c.body.Owns)
    (h : f.Routed c.body s) (hm : Moves host f given s p) : p.1.Routed c.body p.2 := by
  cases hm with
  | start ho => exact ⟨h.handlers, h.heads _ ho⟩
  | raise _ => exact (raising_arrives h.handlers _ _).routed
  | lost _ => exact ⟨h.handlers, trivial⟩
  | refused => exact (arrives_finish _ _).routed
  | undecoded _ _ => exact (arrives_finish _ _).routed
  | @fails o _ _ _ _ _ _ _ ht hd hx =>
    obtain ⟨-, -, trace, rfl⟩ := hfit.unhooked ht hd
    have hb : ∀ b ∈ ({ f with lastOffset := some o, trace } : Frame).blocks,
        c.body.Reachable b.handler := h.handlers
    exact (damaged_arrives hb (Exec.damage_of_execute hx)).routed
  | @follows o _ _ _ _ _ _ _ _ _ ht hd hx hf =>
    obtain ⟨-, hi, trace, rfl⟩ := hfit.unhooked ht hd
    have he := Exec.effect_of_execute hx
    exact follows_routed (f := { f with lastOffset := some o, trace }) hfit.code h.heads hi rfl
      h.handlers hs he hf
  | waits _ => exact h
  | answered hc => exact (answered_arrives h.handlers h.returns hc _).routed

/-! ### A life where control comes -/

theorem Fresh.routed {globals : Ref .mapping} (hf : Fresh c globals f) :
    f.Routed c.body (.starting none) := by
  refine ⟨by rw [hf.blocks]; nofun, fun o ho => ?_⟩
  rw [resumeOffset, hf.lastOffset] at ho
  cases ho
  exact c.body.reachable_zero

end Frame

namespace Machine

variable {σ : Type} (host : Host σ) (below : List Activation) (w : Entry)

/-- In the next step the frame right above `below` executes a `continueLoop`, which suspends itself
as the value on the stack if a handler is in the way. -/
def ContinuesBy (m : Machine σ) (f : Frame) (v : Value) : Prop :=
  m.chain = ⟨f, w⟩ :: below ∧ ∃ g o i, m.decodes? host = some (g, o) ∧
    Instruction.decode g.code.body.bytecode o = .ok i ∧ i.opcode = .continueLoop ∧
    v = .suspended (.continuing i.target)

/-- The states of a run from `m₀` in which a frame is held right above `below`, and what gets on its
stack from elsewhere continues no loop but as the code `c` does. -/
inductive OwnRun (c : Code) (m₀ : Machine σ) : Machine σ → Frame → Standing → Prop
  | entered {f : Frame} {s : Standing} (hh : m₀.Holds below w f s) : OwnRun c m₀ m₀ f s
  | step {m : Machine σ} {f f' : Frame} {s s' : Standing} (hc : OwnRun c m₀ m f s)
      (hh : (m.step host).Holds below w f' s')
      (hv : ∀ v ∈ f'.stack.slots,
        v ∈ f.stack.slots ∨ c.Owns v ∨ m.ContinuesBy host below w f v) :
      OwnRun c m₀ (m.step host) f' s'

variable {host below w} {c : Code} {m₀ m : Machine σ} {f : Frame} {s : Standing}

theorem OwnRun.held (h : OwnRun host below w c m₀ m f s) : m.Holds below w f s := by
  cases h with
  | entered hh => exact hh
  | step _ hh _ => exact hh

/-- A run in which all values on the stack do so, wherever they come from. -/
theorem Carries.ownRun (h : Carries host below w c.Owns m₀ m f s) :
    OwnRun host below w c m₀ m f s := by
  induction h with
  | entered hh _ => exact .entered hh
  | step _ hh ha ih => exact .step ih hh fun v hv => .inr (.inl (ha v hv))

end Machine

namespace Frame

variable {c : CodeObject} {f g : Frame} {i : Instruction} {o : Nat}

/-- The frames of a code object without hooks that have run from yield to yield, the last one being
the frame as it was handed back, where no loop was continued by what came from elsewhere but as the
code does. -/
inductive OwnHistory (c : CodeObject) : Frame → Prop
  | created {globals builtins : Ref .mapping} {closure : List (Ref .cell)} {f : Frame}
      {h h' : Heap} (hg : globals.index < h.namespaces.size)
      (hc : create c globals builtins closure h = .ok (f, h')) : OwnHistory c f
  | called {globals builtins : Ref .mapping} {closure : List (Ref .cell)} {args : List Value}
      {f g : Frame} {h h' h'' : Heap} (hg : globals.index < h.namespaces.size)
      (hc : create c globals builtins closure h = .ok (f, h'))
      (hb : f.bindArguments args h' = .ok (g, h'')) : OwnHistory c g
  | resumed {σ : Type} {host : Host σ} {m m' : Machine σ} {w : Waiting} {f g : Frame}
      {input : Option Value} {raising : Option Raised} {v : Value} (hf : OwnHistory c f)
      (hi : ∀ v, input = some v → c.body.Owns v)
      (hc : Machine.OwnRun host m.chain (f.entry w) c.body (m.enter host f input raising w) m' g
        (.leaving (.ok (.yielded v)))) :
    OwnHistory c (g.released (.ok (.yielded v)))

/-- What a frame without a hook is about to execute is where control may come. -/
theorem Routed.reachable_of_decodes? {σ : Type} {host : Host σ} {m : Machine σ}
    {below : List Activation} {w : Entry} {s : Standing} (hfit : f.Fits False c)
    (hr : f.Routed c.body s)
    (hs : m.Stands below w (f, s)) (hd : m.decodes? host = some (g, o))
    (hi : Instruction.decode g.code.body.bytecode o = .ok i) :
    c.body.Reachable o ∧ Instruction.decode c.body.bytecode o = .ok i := by
  obtain ⟨o', rfl⟩ := hs.before_of_decodes? hd
  rcases Machine.dispatch_cases host hs with ⟨e, hn, -⟩ | ⟨g', o₁, m', hd', ht, -⟩
  · rw [hn] at hd
    cases hd
  · rw [Machine.decodes?_of_lined? host hd'] at hd
    cases hd
    obtain ⟨rfl, hi, -⟩ := hfit.unhooked ht hi
    exact ⟨hr.heads, hi⟩

/-- What an unhooked frame keeps from one move to the next: it is where control may come, and no
value on its stack continues a loop but as the code does. -/
structure Keeping (c : CodeObject) (f : Frame) (s : Standing) : Prop where
  fits : f.Fits False c
  routed : f.Routed c.body s
  owns : f.Allows c.body.Owns

/-- **In every state of a run the frame is where control may come**, and the loops it has suspended
itself are continued as the code does. -/
theorem Keeping.carried {σ : Type} {host : Host σ} {m n : Machine σ} {w : Waiting}
    {input : Option Value} {raising : Option Raised} {s : Standing}
    (hf : f.Keeping c (.starting none)) (hi : ∀ v, input = some v → c.body.Owns v)
    (hc : Machine.OwnRun host m.chain (f.entry w) c.body (m.enter host f input raising w) n g s) :
    g.Keeping c s := by
  induction hc with
  | entered hh =>
    obtain ⟨stack, back, ha, rfl, rfl⟩ := Machine.enter_holds hh
    refine ⟨hf.fits.entered ha, ⟨hf.routed.handlers, hf.routed.heads⟩, fun v hv => ?_⟩
    cases input with
    -- an input is pushed when the frame is entered, and nothing else changes
    | none =>
      cases ha
      exact hf.owns v hv
    | some x =>
      have hv : v ∈ stack.slots := hv
      rw [OperandStack.slots_push ha] at hv
      rcases List.mem_cons.1 hv with rfl | hv
      · exact hi v rfl
      · exact hf.owns v hv
  | step hr hh hv ih =>
    rcases hr.held.step host with ⟨result, rfl⟩ | ⟨given, p, hm, hp, -⟩
    · exact absurd hh hr.held.not_leaving
    · obtain ⟨rfl, rfl⟩ := hp.unique hh
      refine ⟨ih.fits.moves (fun h => h.elim) hm, ih.routed.moves ih.fits ih.owns hm,
        fun v hm => ?_⟩
      rcases hv v hm with hv | hv | ⟨hchain, g', o, i, hd, hi, hop, rfl⟩
      · exact ih.owns v hv
      · exact hv
      · -- the loop is continued from where control may come
        obtain ⟨ho, hi⟩ :=
          ih.routed.reachable_of_decodes? ih.fits (hr.held.stands_of_chain hchain) hd hi
        rintro t ht
        cases ht
        exact ⟨o, ho, i, hi, hop, rfl⟩

/-- Whenever it is handed back, the frame can go on only where control may come. -/
theorem OwnHistory.keeping (hf : OwnHistory c f) : f.Keeping c (.starting none) := by
  have fresh {globals : Ref .mapping} {g : Frame} (hg : Fresh c globals g) :
      g.Keeping c (.starting none) := by
    refine ⟨hg.fits, hg.routed, ?_⟩
    unfold Allows
    rw [hg.stack]
    nofun
  induction hf with
  | created hg hc => exact fresh (create_spec hg hc)
  | called hg hc hb => exact fresh (bindArguments_spec (create_spec hg hc) hb)
  | resumed hf hi hc ih =>
    obtain ⟨hfit, hr, ho⟩ := ih.carried hi hc
    refine ⟨hfit.released _, ?_, ?_⟩ <;> unfold released
    · dsimp only
      split <;> exact ⟨hr.handlers, hr.heads⟩
    · dsimp only
      split <;> exact ho

/-- **Where a frame executes, the walk has been, or a loop is continued where it has not.**  The
walk of an accepted code object visits what its edges reach from the start, and checks what it
visits.  If a frame without a hook, which is given no values that continue a loop where the code
does not, executes an instruction that the walk has not visited, then behind a `continueLoop` that
it has, whose target it has not. -/
theorem OwnHistory.executes {σ : Type} {host : Host σ} {a : Assembler} {m n : Machine σ}
    {w : Waiting} {input : Option Value} {raising : Option Raised} {s : Standing}
    (hb : a.build = .ok c.body) (hf : OwnHistory c f) (hi : ∀ v, input = some v → c.body.Owns v)
    (hc : Machine.OwnRun host m.chain (f.entry w) c.body (m.enter host f input raising w) n g s)
    (htop : n.chain = ⟨g, f.entry w⟩ :: m.chain) :
    (∀ o, c.body.Surveyed o ↔ o < c.body.bytecode.length ∧ ReflTransGen c.body.Leads 0 o) ∧
    (∀ o, c.body.Surveyed o → c.body.Checked o) ∧
    ∀ f' o i, n.decodes? host = some (f', o) →
      Instruction.decode f'.code.body.bytecode o = .ok i →
      c.body.Surveyed o ∨ ∃ o₁ t, c.body.Surveyed o₁ ∧ c.body.Continues o₁ t ∧
        ¬c.body.Surveyed t ∧ ReflTransGen c.body.Flows t o := by
  obtain ⟨-, hs⟩ := Assembler.build_spec hb
  obtain ⟨hfit, hr, -⟩ := hf.keeping.carried hi hc
  refine ⟨fun o => CodeOf.surveyed_iff hs, fun o ho => ho.checked hs, fun f' o i hd hi => ?_⟩
  obtain ⟨ho, hi⟩ := hr.reachable_of_decodes? hfit (hc.held.stands_of_chain htop) hd hi
  exact CodeOf.Reachable.surveyed_or hs ho (Instruction.next_le_of_decode hi).1

end Frame

/-! ### A loop continued where the walk does not come -/

/-- `SETUP_LOOP`, then a `CONTINUE_LOOP` to the instruction behind it, which loads a constant that
is returned. -/
def skippedLoop : Assembler where
  name := "skipped"
  firstLine := 1
  consts := [.none]
  bytecode := #[Opcode.setupLoop.byte, 0, 0, Opcode.continueLoop.byte, 0, 0,
    Opcode.loadConst.byte, 0, 0, Opcode.returnValue.byte]
  labels := [("end", 10), ("next", 6)]
  fixups := #[(0, "end"), (3, "next")]

/-- The code object: the walk finds no value on any path. -/
def skippedCode : CodeObject where
  identity := 1
  body :=
    { name := "skipped"
      bytecode := [Opcode.setupLoop.byte, 7, 0, Opcode.continueLoop.byte, 6, 0,
        Opcode.loadConst.byte, 0, 0, Opcode.returnValue.byte]
      consts := [.none]
      maxStack := 0
      flags := .function
      firstLine := 1 }

theorem skippedLoop_build : skippedLoop.build = .ok skippedCode.body := by
  refine Assembler.build_eq_ok rfl rfl rfl ?_
  change skippedCode.body.validate = .ok ()
  cbv

/-- The walk does not come behind the `CONTINUE_LOOP`. -/
theorem skippedCode_unsurveyed : ¬skippedCode.body.Surveyed 6 := by
  rintro ⟨visited, deepest, hs, hv⟩
  have he : StackDepth.survey skippedCode.body.flags.acceptsInput skippedCode.body.bytecode =
      .ok (#[true, false, false, true, false, false, false, false, false, false], 0) := rfl
  rw [he] at hs
  cases hs
  cases hv

/-- A frame of that code. -/
def skippedFrame (last : Option Nat) (blocks : List Block) (trace : LineTrace) : Frame where
  code := skippedCode
  globals := ⟨0⟩
  builtins := Heap.defaultBuiltins
  locals := .fast []
  cells := []
  stack := .empty 0
  blocks
  lastOffset := last
  trace

/-- The line of the code, once it has been entered. -/
def skippedTrace (offset : Nat) : LineTrace :=
  { line := 1, lower := 0, upper := Frame.farthestOffset, previous := offset }

/-- The frame executes the load all the same, for which it has no room. -/
theorem skippedFrame_executes :
    let m := Machine.running (skippedFrame (some 3) [⟨.loop, 10, 0⟩] (skippedTrace 3))
      (.dispatch 6) 2
    (∃ f, m.decodes? Host.silent = some (f, 6)) ∧ ¬skippedCode.body.Surveyed 6 ∧
    (∀ o, skippedCode.body.Surveyed o ↔
      o < skippedCode.body.bytecode.length ∧ ReflTransGen skippedCode.body.Leads 0 o) ∧
    (∀ o, skippedCode.body.Surveyed o → skippedCode.body.Checked o) ∧
    ∀ f o i, m.decodes? Host.silent = some (f, o) →
      Instruction.decode f.code.body.bytecode o = .ok i →
      skippedCode.body.Surveyed o ∨ ∃ o₁ t, skippedCode.body.Surveyed o₁ ∧
        skippedCode.body.Continues o₁ t ∧ ¬skippedCode.body.Surveyed t ∧
        ReflTransGen skippedCode.body.Flows t o := by
  intro m
  have hc : Frame.create skippedCode ⟨0⟩ Heap.defaultBuiltins [] .initial =
    .ok (skippedFrame none [] { line := 1 }, .initial) := rfl
  have entered : Machine.Carries Host.silent []
      ((skippedFrame none [] { line := 1 }).entry .outside) skippedCode.body.Owns
      (Machine.idle.enter Host.silent (skippedFrame none [] { line := 1 }) none none .outside)
      (.running (skippedFrame none [] { line := 1 }) (.start none) 0)
      (skippedFrame none [] { line := 1 }) (.starting none) :=
    .entered (.innermost ⟨rfl, rfl⟩) nofun
  have started := entered.running (skippedFrame none [] { line := 1 }) (.before 0) rfl rfl nofun rfl
  have opened := started.running (skippedFrame (some 0) [⟨.loop, 10, 0⟩] (skippedTrace 0))
    (.before 3) rfl rfl nofun rfl
  have continued := opened.running (skippedFrame (some 3) [⟨.loop, 10, 0⟩] (skippedTrace 3))
    (.before 6) rfl rfl nofun rfl
  refine ⟨⟨_, Machine.decodes?_running rfl⟩, skippedCode_unsurveyed, ?_⟩
  exact Frame.OwnHistory.executes (m := .idle) skippedLoop_build (.created (by decide) hc)
    (fun _ h => by cases h) continued.ownRun rfl

end Resumable
