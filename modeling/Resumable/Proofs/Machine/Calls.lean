import Resumable.Proofs.Frame.Binding
import Resumable.Proofs.Machine.Ongoing

/-!
# Calls of functions

A call instruction takes the arguments and the function off the stack.  Which calls the function
refuses only depends on the number of arguments (`FunctionOf.Refuses`); the exception is raised in
the caller.  Any other call makes a frame that binds the arguments (`Frame.Binds`).  For generator
code it is stored in a new generator, which is pushed, and nothing of it is executed.  For other
code it starts above the caller, unless there are too many frames already
(`Machine.perform_callFunction`).
-/

namespace Resumable

/-- The exception for a wrong number of arguments. -/
def FunctionOf.arityError {ν : Type} (fn : FunctionOf ν) (n : Nat) : Raised :=
  if fn.code.body.argCount < n then
    Raised.typeError
      s!"{fn.code.body.name}() takes {fn.code.body.argCount} positional arguments but {n} were given"
  else
    Raised.typeError
      s!"{fn.code.body.name}() missing {fn.code.body.argCount - fn.defaults.length - n} required positional arguments"

namespace OperandStack

variable {s : OperandStack}

theorem pop_of_cons {v : Value} {rest : List Value} (h : s.slots = v :: rest) :
    s.pop = .ok (v, s.without 1) := by
  obtain ⟨slots, capacity, depth, hd⟩ := s
  cases h
  rfl

theorem without_without (m n : Nat) : (s.without m).without n = s.without (m + n) := by
  simp only [without, List.drop_drop, Nat.sub_sub]

/-- What stands below a call. -/
theorem slots_without_call {args below : List Value} {callee : Value}
    (hs : s.slots = args.reverse ++ callee :: below) :
    (s.without (args.length + 1)).slots = below := by
  show s.slots.drop (args.length + 1) = below
  rw [hs, ← List.drop_drop, List.drop_left' List.length_reverse]
  rfl

/-- A stack has room for a value where it has held one. -/
theorem push_without {n : Nat} (hn : 0 < n) (hroom : s.depth ≤ s.capacity) (hd : n ≤ s.depth)
    (v : Value) : ∃ t, (s.without n).push v = .ok t ∧ t.slots = v :: (s.without n).slots := by
  refine ⟨_, if_neg ?_, rfl⟩
  simp only [without]
  omega

end OperandStack

namespace Exec

variable {fn : Function} {args : List Value} {f : Frame} {h : Heap}

theorem completeArguments_of_refuses (hr : fn.Refuses args.length) :
    completeArguments fn args = .error (fn.arityError args.length) := by
  unfold completeArguments FunctionOf.arityError
  dsimp only
  split
  · rfl
  · exact if_pos (hr.resolve_left ‹_›)

theorem completeArguments_of_not_refuses (hr : ¬ fn.Refuses args.length) :
    completeArguments fn args = .ok (fn.given args) := by
  obtain ⟨hmost, hleast⟩ := not_or.1 hr
  unfold completeArguments
  dsimp only
  rw [if_neg hmost, if_neg hleast]
  rfl

theorem run_frameOfCall_of_refuses (hr : fn.Refuses args.length) (l : Local) :
    (frameOfCall fn args).run l = .error (.raised (fn.arityError args.length)) l := by
  unfold frameOfCall
  rw [run_bind, completeArguments_of_refuses hr]
  rfl

/-- A possible call of valid code makes a frame that binds the arguments. -/
theorem run_frameOfCall (hv : fn.code.body.Valid) (ho : fn.code.body.flags.optimized = true)
    (hc : fn.closure.length = fn.code.body.freevars.length) (hr : ¬ fn.Refuses args.length) :
    ∃ callee h', callee.Binds fn f.builtins args h h' ∧
      (frameOfCall fn args).run ⟨f, h⟩ = .ok callee ⟨f, h'⟩ := by
  obtain ⟨f₀, h₀, callee, h', hcreate, hbind, hbinds⟩ :=
    Frame.exists_binds hv ho hc hr f.builtins h
  refine ⟨callee, h', hbinds, ?_⟩
  unfold frameOfCall
  rw [run_bind, completeArguments_of_not_refuses hr]
  show (ofFault (Frame.create fn.code fn.globals f.builtins fn.closure h) >>= fun r =>
    setHeap r.2 >>= fun _ => ofFault (r.1.bindArguments (fn.given args) r.2) >>= fun r =>
      setHeap r.2 >>= fun _ => pure r.1).run ⟨f, h⟩ = _
  rw [hcreate]
  show (ofFault (f₀.bindArguments (fn.given args) h₀) >>= fun r =>
    setHeap r.2 >>= fun _ => pure r.1).run ⟨f, h₀⟩ = _
  rw [hbind]
  rfl

variable {id : Identity} {below : List Value} {i : Instruction} {current : Option Raised}

/-- A call takes its arguments and what it calls off the stack. -/
theorem run_callFunction {callee : Value} (hop : i.opcode = .callFunction)
    (hn : i.arg.toNat = args.length) (hs : f.stack.slots = args.reverse ++ callee :: below) :
    (execute current i).run ⟨f, h⟩ =
      (call callee args).run ⟨{ f with stack := f.stack.without (args.length + 1) }, h⟩ := by
  have hlen := f.stack.depth_eq
  rw [hs, List.length_append, List.length_reverse, List.length_cons] at hlen
  have htop : f.stack.popN args.length = .ok (args, f.stack.without args.length) := by
    have htake : (f.stack.slots.take args.length).reverse = args := by
      rw [hs, List.take_left' List.length_reverse, List.reverse_reverse]
    rw [OperandStack.popN, OperandStack.peekN, OperandStack.dropN, if_pos (by omega),
      if_pos (by omega), htake]
    rfl
  have hpop : (f.stack.without args.length).pop =
      .ok (callee, f.stack.without (args.length + 1)) := by
    have hslots : (f.stack.without args.length).slots = callee :: below := by
      show f.stack.slots.drop args.length = _
      rw [hs, List.drop_left' List.length_reverse]
    rw [OperandStack.pop_of_cons hslots, OperandStack.without_without]
  have hexec : execute current i = (do
      let vs ← popN i.arg.toNat
      let v ← pop
      call v vs) := by
    unfold execute
    rw [hop]
  rw [hexec, run_bind, run_popN, hn, htop]
  dsimp only
  rw [run_bind, run_pop, hpop]

variable {callee : Frame} {h' : Heap}

theorem run_call_of_refuses (hr : fn.Refuses args.length) (l : Local) :
    (call (.function id fn) args).run l = .error (.raised (fn.arityError args.length)) l := by
  unfold call
  rw [run_bind, run_frameOfCall_of_refuses hr]

/-- The frame of a call of generator code is stored in a new generator, which is pushed. -/
theorem run_call_generator (hf : (frameOfCall fn args).run ⟨f, h⟩ = .ok callee ⟨f, h'⟩)
    (hg : fn.code.body.flags.generator = true) {stack : OperandStack}
    (hp : f.stack.push (.generator (h'.newGeneratorOf callee).1) = .ok stack) :
    (call (.function id fn) args).run ⟨f, h⟩ =
      .ok .next ⟨{ f with stack }, (h'.newGeneratorOf callee).2⟩ := by
  unfold call
  rw [run_bind, hf]
  dsimp only
  rw [if_pos hg]
  show (push (.generator (h'.newGeneratorOf callee).1) >>= fun _ => pure Flow.next).run
    ⟨f, (h'.newGeneratorOf callee).2⟩ = _
  rw [run_bind, run_push, hp]
  rfl

theorem run_call_invoke (hf : (frameOfCall fn args).run ⟨f, h⟩ = .ok callee ⟨f, h'⟩)
    (hg : fn.code.body.flags.generator = false) :
    (call (.function id fn) args).run ⟨f, h⟩ = .ok (.invoke callee) ⟨f, h'⟩ := by
  unfold call
  rw [run_bind, hf]
  dsimp only
  rw [if_neg (hg ▸ Bool.false_ne_true)]
  rfl

end Exec

namespace Machine

variable {σ : Type} (host : Host σ) (m : Machine σ)

/-- The machine at a call instruction `i` with `n` arguments in its innermost frame `f`: the
instruction is reported, and the arguments and what is called are off the stack. -/
def calling (f : Frame) (i : Instruction) (n : Nat) (h : Heap) : Machine σ :=
  (m.announced host f i).executed ⟨{ f with stack := f.stack.without (n + 1) }, h⟩

variable {host m} {f callee : Frame} {w : Entry} {rest : List Activation} {i : Instruction}
  {id : Identity} {fn : Function} {args below : List Value} {n : Nat} {h : Heap}

/-- A machine with a frame that may start does so at the first instruction. -/
theorem enter_call (host : Host σ) (i : Instruction) (hm : m.chain = ⟨f, w⟩ :: rest)
    (hd : m.budget.checkDepth m.depth = .ok ()) (hcallee : callee.lastOffset = none) :
    (m.enter host callee none none (.call i)).chain =
        ⟨{ callee with back := some rest.length }, callee.entry (.call i)⟩ :: m.chain ∧
      (m.enter host callee none none (.call i)).heap = m.heap ∧
      ((m.enter host callee none none (.call i)).step host).control = .dispatch 0 := by
  have hdepth : m.depth = rest.length + 1 := by
    rw [depth, hm, List.length_cons]
  rcases enter_eq host m callee none none (.call i) with ⟨stack, -, hadmit, he⟩ | ⟨e, -, he⟩
  · cases hadmit
    rw [he]
    refine ⟨?_, rfl, ?_⟩
    · unfold pushed
      rw [hdepth]
      rfl
    · show (start host _ none).control = _
      unfold start pushed Frame.resumeOffset
      dsimp only
      rw [hcallee]
      rfl
  · rcases he with ⟨l, hl, -⟩ | ⟨x, _, hx, -⟩
    · rw [hd] at hl
      cases hl
    · cases hx

/-- **What a call of a function comes to.**  It is refused exactly if the number of arguments is
wrong.  Otherwise it makes a frame that binds the arguments, which generator code leaves to a new
generator; for other code the frame starts if the depth limit admits it. -/
theorem perform_callFunction (hm : m.chain = ⟨f, w⟩ :: rest) (hop : i.opcode = .callFunction)
    (hn : i.arg.toNat = args.length)
    (hs : f.stack.slots = args.reverse ++ .function id fn :: below)
    (hroom : f.stack.depth ≤ f.stack.capacity) (hv : fn.code.body.Valid)
    (ho : fn.code.body.flags.optimized = true)
    (hc : fn.closure.length = fn.code.body.freevars.length) :
    (fn.Refuses args.length → m.perform host ⟨f, w⟩ i =
      (m.calling host f i args.length m.heap).raise host (fn.arityError args.length) i.offset) ∧
    (¬ fn.Refuses args.length → ∃ callee h, callee.Binds fn f.builtins args m.heap h ∧
      (fn.code.body.flags.generator = true → ∃ r stack heap,
        (r, heap) = h.newGeneratorOf callee ∧ stack.slots = .generator r :: below ∧
        heap.generatorAt r = ⟨.notStarted, fn.code.body.name, some callee⟩ ∧
        m.perform host ⟨f, w⟩ i =
          ((m.announced host f i).executed ⟨{ f with stack }, heap⟩).goTo i.next) ∧
      (fn.code.body.flags.generator = false →
        (∀ e, m.budget.checkDepth m.depth = .error e → m.perform host ⟨f, w⟩ i =
          (m.calling host f i args.length h).failAt host i.offset e.toFailure) ∧
        (m.budget.checkDepth m.depth = .ok () →
          (m.perform host ⟨f, w⟩ i).chain =
            ⟨{ callee with back := some rest.length }, callee.entry (.call i)⟩ ::
            ⟨{ f with stack := f.stack.without (args.length + 1) }, w⟩ :: rest ∧
          (m.perform host ⟨f, w⟩ i).heap = h ∧
          ((m.perform host ⟨f, w⟩ i).step host).control = .dispatch 0))) := by
  have hexec : (Exec.execute m.currentException i).run ⟨f, m.heap⟩ =
      (Exec.call (.function id fn) args).run
        ⟨{ f with stack := f.stack.without (args.length + 1) }, m.heap⟩ :=
    Exec.run_callFunction hop hn hs
  -- the arguments are taken from the stack before it is known whether they fit
  refine ⟨fun hr => ?_, fun hr => ?_⟩
  · exact perform_of_error m w (hexec.trans (Exec.run_call_of_refuses hr _))
  obtain ⟨callee, h, hbinds, hrun⟩ := Exec.run_frameOfCall
    (f := { f with stack := f.stack.without (args.length + 1) }) (h := m.heap) hv ho hc hr
  refine ⟨callee, h, hbinds, fun hg => ?_, fun hg => ?_⟩
  · -- a generator is pushed where the function was
    have hdepth : args.length + 1 ≤ f.stack.depth := by
      rw [f.stack.depth_eq, hs, List.length_append, List.length_reverse, List.length_cons]
      omega
    obtain ⟨stack, hpush, hslots⟩ := OperandStack.push_without (Nat.succ_pos _) hroom hdepth
      (.generator (h.newGeneratorOf callee).1)
    refine ⟨_, stack, _, rfl, ?_, ?_, ?_⟩
    · rw [hslots, OperandStack.slots_without_call hs]
      rfl
    · rw [← hbinds.fresh.code]
      exact Store.get_add_size ..
    · exact perform_of_ok m w (hexec.trans (Exec.run_call_generator hrun hg hpush))
  · -- the frame is entered, unless the chain is too deep
    have hinvoke : m.perform host ⟨f, w⟩ i =
        (m.calling host f i args.length h).enter host callee none none (.call i) :=
      perform_of_ok m w (hexec.trans (Exec.run_call_invoke hrun hg))
    have hchain : (m.calling host f i args.length h).chain =
        ⟨{ f with stack := f.stack.without (args.length + 1) }, w⟩ :: rest :=
      chain_executed host hm i _
    have hdepth : (m.calling host f i args.length h).depth = m.depth := by
      rw [depth, depth, hchain, hm, List.length_cons, List.length_cons]
    have hbudget : (m.calling host f i args.length h).budget = m.budget := budget_setFrame _ _
    rw [hinvoke]
    refine ⟨fun e he => ?_, fun hd => ?_⟩
    · unfold enter
      rw [hbudget, hdepth, he]
      rfl
    · rw [← hbudget, ← hdepth] at hd
      obtain ⟨hup, hheap, hstart⟩ := enter_call host i hchain hd hbinds.fresh.lastOffset
      exact ⟨hup.trans (by rw [hchain]), hheap.trans (heap_setFrame _ _), hstart⟩

end Machine

/-! ### A call with a default and a closure -/

/-- Code of a function of two parameters.  The second is a cell variable, as is one that is no
parameter; a third local and a free variable come from elsewhere. -/
def sharingCode : CodeObject where
  identity := 1
  body :=
    { name := "sharing"
      bytecode := [Opcode.loadConst.byte, 0, 0, Opcode.returnValue.byte]
      consts := [.none]
      varnames := ["a", "b", "t"]
      cellvars := ["u", "b"]
      freevars := ["c"]
      argCount := 2
      maxStack := 1
      flags := .function
      firstLine := 1 }

/-- The function, with a default for its second parameter. -/
def sharingFunction : Function := ⟨sharingCode, ⟨0⟩, [.int 1], [⟨0⟩]⟩

/-- A frame about to call the function with one argument. -/
def sharingCaller : Frame where
  code := { identity := 2, body := default }
  globals := ⟨0⟩
  builtins := Heap.defaultBuiltins
  locals := .fast []
  cells := []
  stack := ⟨[.int 7, .function 3 sharingFunction], 2, 2, rfl⟩
  trace := { line := 1 }

/-- A machine that runs this frame, and the cell that the function closes over. -/
def sharingMachine : Machine Unit where
  heap := { Heap.initial with cells := ⟨#[some (.int 5)]⟩ }
  budget := .unlimited
  state := ()
  chain := [⟨sharingCaller, sharingCaller.entry .outside⟩]
  control := .dispatch 0

theorem sharingCode_valid : sharingCode.body.Valid := by
  change sharingCode.body.validate = .ok ()
  cbv

/-- The second parameter has its default, in its slot and in its cell. -/
theorem sharingMachine_calls : ∃ (callee : Frame) (h : Heap) (u b : Ref .cell),
    callee.locals = .fast [some (.int 7), some (.int 1), none] ∧ callee.cells = [u, b, ⟨0⟩] ∧
      h.cellAt u = none ∧ h.cellAt b = some (.int 1) ∧ h.cellAt ⟨0⟩ = some (.int 5) ∧
      (sharingMachine.perform Host.silent ⟨sharingCaller, sharingCaller.entry .outside⟩
          ⟨0, .callFunction, 1⟩).chain =
        [⟨{ callee with back := some 0 }, callee.entry (.call ⟨0, .callFunction, 1⟩)⟩,
          ⟨{ sharingCaller with stack := sharingCaller.stack.without 2 },
            sharingCaller.entry .outside⟩] := by
  obtain ⟨callee, h, hbinds, -, hstart⟩ := (@Machine.perform_callFunction Unit Host.silent
    sharingMachine sharingCaller (sharingCaller.entry .outside) [] ⟨0, .callFunction, 1⟩ 3
    sharingFunction [.int 7] [] rfl rfl rfl rfl (by decide) sharingCode_valid rfl rfl).2 (by decide)
  obtain ⟨u, b, c, hcells⟩ := List.length_eq_three.1 hbinds.fresh.cells
  have hclosure := hbinds.closure
  rw [hcells] at hclosure
  cases hclosure
  refine ⟨callee, h, u, b, hbinds.locals_eq, hcells, hbinds.contents 0 "u" u rfl ?_,
    hbinds.contents 1 "b" b rfl ?_, hbinds.kept ⟨0⟩ (by decide), ((hstart rfl).2 rfl).1⟩
  · rw [hcells]
    rfl
  · rw [hcells]
    rfl

end Resumable
