import Resumable.Frame.Line
import Resumable.Machine.Run
import Resumable.Proofs.Bytecode.Targets
import Resumable.Proofs.Machine.Standing

/-!
# The life of a frame

A frame is made, put on a chain and run, and each time it yields it is handed back and may be run
again, on another chain, by another machine and under another host.  `Machine.Carries` are the
states of one such run, `Frame.History` the frames that are handed back.  Both are told which values
ever get on the stack of the frame, and whether hooks may be attached to it.

A property that every move of a frame keeps holds all its life (`Machine.Carries.induct`).  So a
frame has the shape its code asks for all its life (`Frame.History.fits`).
-/

namespace Resumable

namespace Frame

/-- Every value on the stack is allowed. -/
def Allows (allowed : Value → Prop) (f : Frame) : Prop := ∀ v ∈ f.stack.slots, allowed v

/-- The frame as it is handed back when it leaves the chain. -/
def released (f : Frame) (result : Except Failure FrameExit) : Frame :=
  let f := { f with back := none }
  if result.isOk && f.finished then { f with pending := none } else f

/-- What a hook that keeps to the frame's interface makes of a frame: it moves it to other lines,
binds its variables, closes its blocks, and detaches or replaces itself. -/
inductive Adjusts (f : Frame) : Frame → Prop
  | refl : f.Adjusts f
  | jump {g g' : Frame} {line : Nat} (hg : f.Adjusts g) (hj : g.jump line = .ok g') : f.Adjusts g'
  | bind {g g' : Frame} {index : Nat} {v : Value} (hg : f.Adjusts g)
      (hs : g.setFastLocal index v = .ok g') : f.Adjusts g'
  | popBlock {g g' : Frame} {b : Block} (hg : f.Adjusts g) (hb : g.popBlock = .ok (b, g')) :
      f.Adjusts g'
  | setTrace {g : Frame} (hg : f.Adjusts g) (hook : Option Nat) : f.Adjusts (g.setTrace hook)

end Frame

/-- The hooks of the host keep to the frame's interface. -/
def Host.Courteous {σ : Type} (host : Host σ) : Prop :=
  ∀ hook line f h s, Frame.Adjusts f (host.onLine hook line f h s).1

namespace Machine

variable {σ : Type}

/-- The states of a run from `m₀`, in which a frame is held right above the frames `below`: the
machine, the frame and how it stands. -/
inductive Carries (host : Host σ) (below : List Activation) (w : Entry) (allowed : Value → Prop)
    (m₀ : Machine σ) : Machine σ → Frame → Standing → Prop
  | entered {f : Frame} {s : Standing} (hh : m₀.Holds below w f s) (ha : f.Allows allowed) :
    Carries host below w allowed m₀ m₀ f s
  | step {m : Machine σ} {f f' : Frame} {s s' : Standing}
      (hc : Carries host below w allowed m₀ m f s) (hh : (m.step host).Holds below w f' s')
      (ha : f'.Allows allowed) : Carries host below w allowed m₀ (m.step host) f' s'

variable {host : Host σ} {below : List Activation} {w : Entry} {allowed : Value → Prop}
  {m₀ m : Machine σ} {f f' : Frame} {s s' : Standing}

theorem Standing.control?_injective {s s' : Standing} {c : Control} (h : s.control? = some c)
    (h' : s'.control? = some c) : s = s' := by
  cases s <;> cases h <;> cases s' <;> cases h' <;> rfl

/-- A machine holds one frame above `below`, which stands in one way. -/
theorem Holds.unique (h : m.Holds below w f s) (h' : m.Holds below w f' s') :
    f = f' ∧ s = s' := by
  obtain ⟨above, hc, -, hs⟩ := h.split
  obtain ⟨above', hc', -, hs'⟩ := h'.split
  rw [hc] at hc'
  obtain ⟨rfl, ha⟩ := List.append_inj' hc' rfl
  cases ha
  refine ⟨rfl, ?_⟩
  rcases hs with ⟨rfl, hs⟩ | ⟨outer, g, v, rfl, hv⟩
  · rcases hs' with ⟨-, hs'⟩ | ⟨outer, g, v, hn, -⟩
    · exact Standing.control?_injective hs hs'
    · exact absurd hn.symm (List.append_ne_nil_of_right_ne_nil _ (List.cons_ne_nil _ _))
  · rcases hs' with ⟨hn, -⟩ | ⟨outer', g', v', he, hv'⟩
    · exact absurd hn (List.append_ne_nil_of_right_ne_nil _ (List.cons_ne_nil _ _))
    · cases List.append_inj' he rfl |>.2
      exact Option.some.inj (hv.symm.trans hv')

/-- Nobody waits below the outermost frame. -/
theorem deliver_nil (h : m.chain = []) (v : Waiting) (g : Frame)
    (result : Except Failure FrameExit) : (m.deliver host v g result).chain = [] := by
  have failAt (m : Machine σ) (h : m.chain = []) (o : Nat) (e : Failure) :
      (m.failAt host o e).chain = [] := by
    cases e <;> simp [Machine.failAt, Machine.raise, Machine.fail, h]
  have exhaust (m : Machine σ) (h : m.chain = []) (site : Instruction) :
      (m.exhaust site).chain = [] := by
    simp [Machine.exhaust, h]
  have resume (m : Machine σ) (h : m.chain = []) (v : Value) (site : Instruction) :
      (m.resumeWith v site).chain = [] := by
    simp [Machine.resumeWith, h]
  cases v with
  | outside => exact h
  | call site =>
    match result with
    | .ok (.returned v) => exact resume _ h v site
    | .ok (.yielded _) =>
      exact failAt m h site.offset (.fatal (.invalidCode .yieldOutsideGenerator))
    | .error e => exact failAt _ h site.offset e
  | loop r site =>
    have h : ({ m with heap := m.heap.settle r g result } : Machine σ).chain = [] := h
    match result with
    | .ok (.returned v) => exact exhaust _ h site
    | .ok (.yielded v) => exact resume _ h v site
    | .error e =>
      show (failLoop host _ site e).chain = []
      unfold failLoop
      split
      · exact exhaust _ h site
      · exact failAt _ h site.offset e

theorem length_deliver (m : Machine σ) (v : Waiting) (g : Frame)
    (result : Except Failure FrameExit) :
    (m.deliver host v g result).chain.length = m.chain.length := by
  cases hc : m.chain with
  | nil => rw [deliver_nil hc]
  | cons a rest =>
    obtain ⟨g', hd⟩ := deliver_chain host hc v g result
    rw [hd, List.length_cons, List.length_cons]

/-- A frame that does not wait is the innermost one. -/
theorem Holds.stands {c : Control} (h : m.Holds below w f s) (hs : s.control? = some c) :
    m.Stands below w (f, s) := by
  cases h with
  | innermost h => exact h
  | waiting _ hv _ _ =>
    rw [control?_of_standing? hv] at hs
    cases hs

/-- A frame that leaves is no longer held. -/
theorem Holds.not_leaving {result : Except Failure FrameExit}
    (h : m.Holds below w f (.leaving result)) : ¬(m.step host).Holds below w f' s' := by
  intro h'
  obtain ⟨m', g, hm, hc⟩ := step_leave host (h.stands rfl)
  obtain ⟨above, hc', -⟩ := h'.split
  have hl : (m.step host).chain.length = below.length := by rw [hm, length_deliver, hc]
  rw [hc', List.length_append, List.length_cons] at hl
  omega

theorem Carries.held (h : Carries host below w allowed m₀ m f s) :
    m.Holds below w f s ∧ f.Allows allowed := by
  cases h with
  | entered hh ha => exact ⟨hh, ha⟩
  | step _ hh ha => exact ⟨hh, ha⟩

/-- **Induction over a run.**  What holds of the frame when it is put on the chain, and is kept by
every move of a frame with allowed values, holds of it in every state of the run. -/
theorem Carries.induct {I : Frame → Standing → Prop}
    (h0 : ∀ f s, m₀.Holds below w f s → I f s)
    (hs : ∀ given f s p, I f s → f.Allows allowed → Frame.Moves host f given s p → I p.1 p.2)
    (h : Carries host below w allowed m₀ m f s) : I f s := by
  induction h with
  | entered hh ha => exact h0 _ _ hh
  | step hc hh ha ih =>
    rename_i m f f' s s'
    obtain ⟨hm, ha'⟩ := hc.held
    rcases hm.step host with ⟨result, rfl⟩ | ⟨given, p, hp, hh', -⟩
    · exact absurd hh hm.not_leaving
    · obtain ⟨rfl, rfl⟩ := hh'.unique hh
      exact hs given f s p ih ha' hp

end Machine

namespace Frame

/-- The frames of a code object that have run from yield to yield, the last one being the frame as
it was handed back.  `allowed` are the values that got on its stack; `hooks` says that hooks may be
attached, which keep to the interface of frames. -/
inductive History (allowed : Value → Prop) (hooks : Prop) (code : CodeObject) : Frame → Prop
  | created {globals builtins : Ref .mapping} {closure : List (Ref .cell)} {f : Frame}
      {h h' : Heap} (hg : globals.index < h.namespaces.size)
      (hc : create code globals builtins closure h = .ok (f, h')) : History allowed hooks code f
  | called {globals builtins : Ref .mapping} {closure : List (Ref .cell)} {args : List Value}
      {f g : Frame} {h h' h'' : Heap} (hg : globals.index < h.namespaces.size)
      (hc : create code globals builtins closure h = .ok (f, h'))
      (hb : f.bindArguments args h' = .ok (g, h'')) : History allowed hooks code g
  | traced {f : Frame} (hh : hooks) (hf : History allowed hooks code f) (hook : Option Nat) :
    History allowed hooks code (f.setTrace hook)
  | resumed {σ : Type} {host : Host σ} {m m' : Machine σ} {w : Waiting} {f g : Frame}
      {input : Option Value} {raising : Option Raised} {v : Value}
      (hh : hooks → host.Courteous) (hf : History allowed hooks code f)
      (hi : input = none ∨ ∃ sent, input = f.input sent)
      (hc : Machine.Carries host m.chain (f.entry w) allowed (m.enter host f input raising w) m' g
        (.leaving (.ok (.yielded v)))) :
    History allowed hooks code (g.released (.ok (.yielded v)))

end Frame

/-! ### What entering the chain does -/

namespace Machine

variable {σ : Type} {host : Host σ} {m : Machine σ} {w : Waiting} {f g : Frame} {s : Standing}
  {input : Option Value} {raising : Option Raised}

/-- A frame that is held after entering has what it is resumed with on its stack. -/
theorem enter_holds (h : (m.enter host f input raising w).Holds m.chain (f.entry w) g s) :
    ∃ stack back, f.Admits input stack ∧ g = { f with stack, back } ∧ s = .starting raising := by
  rcases enter_cases host m f input raising w with ⟨stack, back, ha, hs⟩ | ⟨e, he, -⟩
  · obtain ⟨rfl, rfl⟩ := h.unique (.innermost hs)
    exact ⟨stack, back, ha, rfl, rfl⟩
  · obtain ⟨above, hc, -⟩ := h.split
    have hl := congrArg List.length hc
    rw [he, length_deliver, List.length_append, List.length_cons] at hl
    omega

end Machine

namespace Frame

/-! ### Moves change the frame only within its code -/

/-- The frame as an instruction leaves it, or that frame finished. -/
def Turns (f g : Frame) : Prop := f.Akin g ∨ ∃ g', f.Akin g' ∧ g = g'.finish

variable {f g h : Frame}

theorem Turns.refl (f : Frame) : f.Turns f := .inl (.refl f)

theorem Turns.after (hg : f.Akin g) (hh : g.Turns h) : f.Turns h := by
  rcases hh with hh | ⟨g', hg', rfl⟩
  · exact .inl (hg.trans hh)
  · exact .inr ⟨g', hg.trans hg', rfl⟩

theorem turns_failing (f : Frame) (e : Failure) : f.Turns (f.failing e).1 :=
  .inr ⟨f, .refl f, rfl⟩

theorem turns_raising (f : Frame) (e : Raised) (offset : Nat) :
    f.Turns (f.raising e offset).1 := by
  unfold raising
  dsimp only
  cases hu : f.unwind (.raising (e.through ⟨f.code.body.name, f.code.body.lineForOffset offset,
    offset⟩)) with
  | mk g u =>
    have ha := (unwind_spec hu).1
    cases u with
    | handled target => exact .inl ha
    | faulted fault => exact .after ha (turns_failing g _)
    | unhandled => exact .after (ha.trans (.withPending g _)) (turns_failing _ _)

theorem turns_failingAt (f : Frame) (offset : Nat) (e : Failure) :
    f.Turns (f.failingAt offset e).1 := by
  cases e with
  | raised e => exact turns_raising f e offset
  | fatal e => exact turns_failing f _
  | uncatchable e => exact turns_failing f _

theorem turns_resumed (f : Frame) (v : Value) (site : Instruction) :
    f.Turns (f.resumed v site).1 := by
  unfold resumed
  cases hp : f.stack.push v with
  | ok s => exact .inl (Drift.push hp).toAkin
  | error e => exact turns_failing f _

theorem turns_exhausted (f : Frame) (site : Instruction) : f.Turns (f.exhausted site).1 := by
  unfold exhausted
  cases hp : f.stack.pop with
  | ok r => exact .inl (Drift.pop hp).toAkin
  | error e => exact turns_failing f _

theorem turns_failingLoop (f : Frame) (site : Instruction) (e : Failure) :
    f.Turns (f.failingLoop site e).1 := by
  unfold failingLoop
  split
  · exact turns_exhausted f site
  · exact turns_failingAt f site.offset e

theorem turns_answered (f : Frame) (s : Standing) (result : Except Failure FrameExit) :
    f.Turns (f.answered s result).1 := by
  unfold answered
  split
  · exact turns_resumed f _ _
  · exact turns_failingAt f _ _
  · exact turns_failingAt f _ _
  · exact turns_resumed f _ _
  · exact turns_exhausted f _
  · exact turns_failingLoop f _ _
  · exact .refl f

theorem Follows.turns {heap : Heap} {i : Instruction} {flow : Flow} {given : Option Failure}
    {p : Frame × Standing} (hf : Follows heap i f flow given p) : f.Turns p.1 := by
  cases hf with
  | returned => exact .inr ⟨f, .refl f, rfl⟩
  | reraise => exact turns_failing f _
  | refused => exact turns_failingAt f _ _
  | spent _ => exact turns_failingLoop f _ _
  | _ => exact .refl f

theorem Traced.hooked_or {σ : Type} {host : Host σ} {o o' : Nat} (ht : Traced host f o g o') :
    (g = f.reported o ∧ o' = o) ∨
      f.trace.hook.isSome = true ∧ (host.Courteous → (f.reported o).Adjusts g) ∧
        o' = g.lastOffset.getD 0 := by
  cases ht with
  | untold => exact .inl ⟨rfl, rfl⟩
  | hooked hf hg => exact .inr ⟨by rw [hf]; rfl, fun hc => hg ▸ hc _ _ _ _ _, rfl⟩

/-- Following a line changes what the frame knows of lines, and nothing else. -/
theorem reported_spec (f : Frame) (o : Nat) :
    ∃ trace, trace.hook = f.trace.hook ∧
      f.reported o = { f with lastOffset := some (f.recordedOffset o), trace } := by
  refine ⟨(f.reported o).trace, ?_, rfl⟩
  unfold reported lineEvent
  dsimp only
  split <;> rfl

/-- A frame goes on behind the instruction it has recorded. -/
theorem resumeOffset_of_decode {o : Nat} {i : Instruction} (hl : f.lastOffset = some o)
    (hd : Instruction.decode f.code.body.bytecode o = .ok i) : f.resumeOffset = .ok i.next := by
  unfold resumeOffset
  rw [hl]
  dsimp only
  rw [Instruction.opcodeAt?_of_decode hd]
  dsimp only
  rw [Instruction.next, Instruction.offset_of_decode hd]

/-! ### What hooks may do -/

/-- Dropping blocks keeps the outer ones and cuts the stack. -/
theorem dropBlocks_spec (keep : Int) (bs : List Block) (s : OperandStack) :
    (dropBlocks keep bs s).1 <:+ bs ∧ (dropBlocks keep bs s).2.slots <:+ s.slots ∧
      (dropBlocks keep bs s).2.capacity = s.capacity ∧
      (dropBlocks keep bs s).2.depth ≤ s.depth := by
  induction bs generalizing s with
  | nil => exact ⟨List.suffix_rfl, List.suffix_rfl, rfl, Nat.le_refl _⟩
  | cons b outer ih =>
    unfold dropBlocks
    split
    · obtain ⟨hb, hs, hc, hd⟩ := ih (s.truncate b.depth)
      refine ⟨hb.trans (List.suffix_cons b outer), hs.trans (List.drop_suffix _ _), hc, ?_⟩
      rw [OperandStack.depth_truncate] at hd
      omega
    · exact ⟨List.suffix_rfl, List.suffix_rfl, rfl, Nat.le_refl _⟩

/-- A jump goes to an instruction at which a line starts. -/
theorem jump_spec {line : Nat} (hj : f.jump line = .ok g) :
    ∃ keep target l, (target, l) ∈ f.code.body.lineStarts ∧
      target < f.code.body.bytecode.length ∧
      g = { f with
        blocks := (dropBlocks keep f.blocks f.stack).1
        stack := (dropBlocks keep f.blocks f.stack).2
        lastOffset := some target
        trace := { f.trace with line := l } } := by
  unfold jump at hj
  split at hj
  · cases hj
  · split at hj
    · cases hj
    · cases ht : f.jumpTarget? line with
      | none =>
        rw [ht] at hj
        cases hj
      | some t =>
        obtain ⟨target, l⟩ := t
        rw [ht] at hj
        dsimp only at hj
        split at hj
        · cases hj
        · unfold jumpTarget? at ht
          rw [Option.filter_eq_some_iff] at ht
          have hm := List.mem_of_find?_eq_some ht.1
          have hl : target < f.code.body.bytecode.length := by simpa using ht.2
          split at hj
          · cases hj
          · -- the number of blocks that remain depends on the direction of the jump
            split at hj <;> split at hj <;> cases hj <;> exact ⟨_, target, l, hm, hl, rfl⟩

/-- A hook that keeps to the frame's interface leaves the exception that is handled as it is, and
finishes no frame. -/
theorem Adjusts.keeps (ha : f.Adjusts g) : g.pending = f.pending ∧ g.finished = f.finished := by
  induction ha with
  | refl => exact ⟨rfl, rfl⟩
  | jump _ hj ih =>
    obtain ⟨keep, target, l, -, -, rfl⟩ := jump_spec hj
    exact ih
  | bind _ hs ih =>
    unfold setFastLocal at hs
    split at hs
    · cases hs
    · split at hs <;> cases hs
      exact ih
  | popBlock _ hb ih =>
    unfold Frame.popBlock at hb
    split at hb <;> cases hb
    exact ih
  | setTrace _ hook ih => exact ih

/-! ### A frame fits its code -/

/-- The frame is one of code `c`: it has as many cells and locals as the code asks for and a stack
of the size the code declares, and it has no hook unless hooks may be attached. -/
structure Fits (hooks : Prop) (c : CodeObject) (f : Frame) : Prop where
  code : f.code = c
  cells : f.cells.length = c.body.cellCount
  locals : f.locals.Fit c.body f.globals
  capacity : f.stack.capacity = c.body.maxStack
  depth : f.stack.depth ≤ c.body.maxStack
  hook : f.trace.hook.isSome = true → hooks

variable {hooks : Prop} {c : CodeObject}

theorem Fits.of_akin (hf : f.Fits hooks c) (ha : f.Akin g) : g.Fits hooks c where
  code := ha.code.trans hf.code
  cells := by rw [ha.cells, hf.cells]
  locals := by
    rw [ha.globals]
    exact hf.locals.of_sameShape ha.locals
  capacity := ha.capacity.trans hf.capacity
  depth := by
    have hd := ha.fits (by rw [hf.capacity]; exact hf.depth)
    rw [ha.capacity, hf.capacity] at hd
    exact hd
  hook := by
    rw [ha.trace]
    exact hf.hook

theorem Fits.finish (hf : f.Fits hooks c) : f.finish.Fits hooks c :=
  { hf with
    capacity := hf.capacity
    depth := by
      have hd : f.finish.stack.depth = min f.stack.depth 0 := OperandStack.depth_truncate _ _
      omega }

theorem Fits.turns (hf : f.Fits hooks c) (ht : f.Turns g) : g.Fits hooks c := by
  rcases ht with ha | ⟨g', ha, rfl⟩
  · exact hf.of_akin ha
  · exact (hf.of_akin ha).finish

theorem Fits.reported (hf : f.Fits hooks c) (o : Nat) : (f.reported o).Fits hooks c := by
  obtain ⟨trace, hh, hr⟩ := f.reported_spec o
  rw [hr]
  exact { hf with hook := fun h => hf.hook (by rw [← hh]; exact h) }

/-- A courteous hook leaves a frame of the same code. -/
theorem Fits.adjusts (hf : f.Fits hooks c) (hh : hooks) (ha : f.Adjusts g) : g.Fits hooks c := by
  induction ha with
  | refl => exact hf
  | @jump g _ _ _ hj ih =>
    obtain ⟨keep, target, l, -, -, rfl⟩ := jump_spec hj
    obtain ⟨-, -, hc, hd⟩ := dropBlocks_spec keep g.blocks g.stack
    exact { ih with
      capacity := hc.trans ih.capacity
      depth := Nat.le_trans hd ih.depth
      hook := fun _ => hh }
  | bind _ hs ih =>
    unfold setFastLocal at hs
    split at hs
    · cases hs
    · rename_i slots hl
      split at hs <;> cases hs
      have hfit := ih.locals
      rw [hl] at hfit
      exact { ih with locals := ⟨hfit.1, by rw [List.length_set, hfit.2]⟩ }
  | popBlock _ hb ih =>
    unfold popBlock at hb
    split at hb <;> cases hb
    exact { ih with }
  | setTrace _ hook ih => exact { ih with hook := fun _ => hh }

theorem Fits.traced {σ : Type} {host : Host σ} {o o' : Nat} (hf : f.Fits hooks c)
    (hc : hooks → host.Courteous) (ht : Traced host f o g o') : g.Fits hooks c := by
  rcases ht.hooked_or with ⟨rfl, -⟩ | ⟨hs, ha, -⟩
  · exact hf.reported o
  · have hh := hf.hook hs
    exact (hf.reported o).adjusts hh (ha (hc hh))

/-- A frame without a hook executes what it has come to, and only what it knows of lines changes. -/
theorem Fits.unhooked {σ : Type} {host : Host σ} {o o' : Nat} {i : Instruction}
    (hf : f.Fits False c) (ht : Traced host f o g o')
    (hd : Instruction.decode g.code.body.bytecode o' = .ok i) :
    o' = o ∧ Instruction.decode c.body.bytecode o = .ok i ∧
      ∃ trace, g = { f with lastOffset := some o, trace } := by
  rcases ht.hooked_or with ⟨rfl, rfl⟩ | ⟨hs, -, -⟩
  · obtain ⟨trace, -, hr⟩ := f.reported_spec o'
    rw [hr] at hd ⊢
    have hd : Instruction.decode f.code.body.bytecode o' = .ok i := hd
    rw [recordedOffset_of_lt (Instruction.next_le_of_decode hd).1]
    exact ⟨rfl, hf.code ▸ hd, trace, rfl⟩
  · exact (hf.hook hs).elim

/-- What every instruction and every line event keeps, every move keeps. -/
theorem Moves.keeps {σ : Type} {host : Host σ} {P : Frame → Prop} {given : Option Failure}
    {s : Standing} {p : Frame × Standing} (hturns : ∀ f g, P f → f.Turns g → P g)
    (htraced : ∀ f g o o', P f → Traced host f o g o' → P g) (hf : P f)
    (hm : Moves host f given s p) : P p.1 := by
  cases hm with
  | start _ => exact hf
  | raise _ => exact hturns _ _ hf (turns_raising f _ _)
  | lost _ => exact hf
  | refused => exact hturns _ _ hf (turns_failing f _)
  | undecoded ht _ => exact hturns _ _ (htraced _ _ _ _ hf ht) (turns_failing _ _)
  | fails ht _ hx =>
    have hg := hturns _ _ (htraced _ _ _ _ hf ht) (.inl (Exec.damage_of_execute hx).toAkin)
    exact hturns _ _ hg (turns_failingAt _ _ _)
  | follows ht _ hx hfl =>
    have hg := hturns _ _ (htraced _ _ _ _ hf ht) (.inl (Exec.effect_of_execute hx).akin)
    exact hturns _ _ hg hfl.turns
  | waits _ => exact hf
  | answered _ => exact hturns _ _ hf (turns_answered f _ _)

/-- **Every move leaves a frame of the same code.** -/
theorem Fits.moves {σ : Type} {host : Host σ} {given : Option Failure} {s : Standing}
    {p : Frame × Standing} (hf : f.Fits hooks c) (hc : hooks → host.Courteous)
    (hm : Moves host f given s p) : p.1.Fits hooks c :=
  hm.keeps (P := Fits hooks c) (fun _ _ hf ht => hf.turns ht) (fun _ _ _ _ hf ht => hf.traced hc ht)
    hf

theorem Fits.released (hf : f.Fits hooks c) (result : Except Failure FrameExit) :
    (f.released result).Fits hooks c := by
  unfold Frame.released
  dsimp only
  split <;> exact { hf with }

theorem Fits.entered (hf : f.Fits hooks c) {input : Option Value} {stack : OperandStack}
    {back : Option Nat} (ha : f.Admits input stack) :
    ({ f with stack, back } : Frame).Fits hooks c := by
  cases input with
  | none =>
    cases ha
    exact { hf with }
  | some v =>
    have hg := hf.of_akin (Drift.push ha).toAkin
    exact { hg with }

theorem Fresh.fits {globals : Ref .mapping} (hf : Fresh c globals f) : f.Fits hooks c where
  code := hf.code
  cells := hf.cells
  locals := by
    rw [hf.globals]
    exact hf.locals
  capacity := by
    rw [hf.stack]
    rfl
  depth := by
    rw [hf.stack]
    exact Nat.zero_le _
  hook := by
    rw [hf.hook]
    nofun

variable {allowed : Value → Prop}

/-- A frame fits its code in every state of a run. -/
theorem Fits.carried {σ : Type} {host : Host σ} {m m' : Machine σ} {w : Waiting}
    {input : Option Value} {raising : Option Raised} {s : Standing} (hf : f.Fits hooks c)
    (hh : hooks → host.Courteous)
    (hc : Machine.Carries host m.chain (f.entry w) allowed (m.enter host f input raising w)
      m' g s) : g.Fits hooks c := by
  refine hc.induct (I := fun g _ => g.Fits hooks c) (fun g s h => ?_)
    fun _ _ _ _ hi _ hm => hi.moves hh hm
  obtain ⟨stack, back, ha, rfl, -⟩ := Machine.enter_holds h
  exact hf.entered ha

/-- **A frame fits its code all its life.** -/
theorem History.fits (h : History allowed hooks c f) : f.Fits hooks c := by
  induction h with
  | created hg hc => exact (create_spec hg hc).fits
  | called hg hc hb => exact (bindArguments_spec (create_spec hg hc) hb).fits
  | traced hh _ hook ih => exact { ih with hook := fun _ => hh }
  | resumed hh _ _ hc ih => exact (ih.carried hh hc).released _

end Frame

/-! ### A quiet place -/

/-- A host that observes nothing and whose hooks leave everything as it is. -/
def Host.silent : Host Unit where
  observe _ _ s := s
  onLine _ _ f h s := (f, h, s)

/-- A machine with nothing to do. -/
def Machine.idle : Machine Unit where
  heap := .initial
  budget := .unlimited
  state := ()
  chain := []
  control := .start none

/-- That machine, running one frame, after being asked about some instructions. -/
def Machine.running (f : Frame) (control : Control) (asked : Nat) : Machine Unit :=
  { Machine.idle with
    budget := ⟨.unlimited, asked⟩
    chain := [⟨f, f.entry .outside⟩]
    control }

theorem Machine.Carries.running {allowed : Value → Prop} {m₀ : Machine Unit} {w : Entry} {f : Frame}
    {c c' : Control} {n n' : Nat} {s : Standing}
    (h : Carries Host.silent [] w allowed m₀ (.running f c n) f s) (g : Frame) (s' : Standing)
    (hs : s'.control? = some c') (hm : (Machine.running f c n).step Host.silent = .running g c' n')
    (ha : g.Allows allowed) (hw : g.entry .outside = w) :
    Carries Host.silent [] w allowed m₀ (.running g c' n') g s' := by
  rw [← hm]
  refine h.step (.innermost ⟨?_, ?_⟩) ha
  · rw [hm, ← hw]
    rfl
  · rw [hm]
    exact hs

end Resumable
