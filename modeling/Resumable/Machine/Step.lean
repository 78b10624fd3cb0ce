import Resumable.Frame.Line
import Resumable.Machine.Budget
import Resumable.Machine.Event
import Resumable.Machine.Instruction

/-!
# The machine

A `Machine` runs a chain of frames, innermost first.  Each frame on the chain knows what the frame
below it waits for (`Waiting`).  `Machine.step` makes one move: it starts a frame, dispatches one
instruction of the innermost frame, or takes a frame that stopped off the chain and hands its result
to whoever waits.  The machine halts when the frame it was started with has left the chain.

What a machine reports, and what hooks do, is up to its `Host`, which keeps a state of its own.
-/

namespace Resumable

/-- What receives the events of a machine and is called on line events of frames with a hook. -/
structure Host (σ : Type) where
  observe : Heap → Event → σ → σ
  /-- Called with the hook, the line, and the frame, which it may change. -/
  onLine : Nat → Nat → Frame → Heap → σ → Frame × Heap × σ

/-- What a frame on the chain is to the one below. -/
inductive Waiting where
  /-- No frame waits: the run ends with this frame. -/
  | outside
  /-- A call, which pushes the value. -/
  | call (site : Instruction)
  /-- A `for` loop over a generator, which pushes the value or goes on after the loop. -/
  | loop (generator : Ref .generator) (site : Instruction)

/-- What is kept of a frame from when it is put on the chain until it leaves. -/
structure Entry where
  /-- The name of the code it came with, under which it is also reported when it leaves. -/
  name : String
  waiting : Waiting

/-- A frame on the chain. -/
structure Activation where
  frame : Frame
  entry : Entry

/-- What the frame is to the one below. -/
abbrev Activation.waiting (a : Activation) : Waiting := a.entry.waiting

/-- What is kept of a frame that is put on the chain. -/
def Frame.entry (f : Frame) (waiting : Waiting) : Entry := ⟨f.name, waiting⟩

/-- What a machine does next. -/
inductive Control where
  /-- Starts the innermost frame, raising an exception in it first if there is one. -/
  | start (raising : Option Raised)
  | dispatch (offset : Nat)
  /-- Takes the innermost frame, which stopped, off the chain. -/
  | leave (result : Except Failure FrameExit)
  /-- Nothing: the frame that was run, and how it stopped. -/
  | halted (frame : Frame) (result : Except Failure FrameExit)

/-- What outlives a run: the heap, the budget and the state of the host. -/
structure Context (σ : Type) where
  heap : Heap
  budget : Budget
  state : σ

/-- A run in progress. -/
structure Machine (σ : Type) extends Context σ where
  /-- The running frames, innermost first. -/
  chain : List Activation
  control : Control

namespace Machine

variable {σ : Type} (host : Host σ) (m : Machine σ)

/-- The number of frames on the chain. -/
def depth : Nat := m.chain.length

/-- Reports an event. -/
def report (e : Event) : Machine σ := { m with state := host.observe m.heap e m.state }

/-- Replaces the innermost frame. -/
def setFrame (f : Frame) : Machine σ :=
  match m.chain with
  | [] => m
  | a :: rest => { m with chain := { a with frame := f } :: rest }

/-- The exception being handled: the pending one of the innermost frame that has one. -/
def currentException : Option Raised := m.chain.findSome? fun a => a.frame.pending

/-- Continues the innermost frame at an offset. -/
def goTo (offset : Nat) : Machine σ := { m with control := .dispatch offset }

/-- Finishes the innermost frame with a failure. -/
def fail (e : Failure) : Machine σ :=
  match m.chain with
  | [] => m
  | a :: _ => { m.setFrame a.frame.finish with control := .leave (.error e) }

/-- Raises an exception in the innermost frame, which was at `offset`. -/
def raise (e : Raised) (offset : Nat) : Machine σ :=
  match m.chain with
  | [] => m
  | a :: _ =>
    let body := a.frame.code.body
    let e := e.through ⟨body.name, body.lineForOffset offset, offset⟩
    let m := m.report host (.exception body.name e)
    match a.frame.unwind (.raising e) with
    | (f, .handled target) => (m.setFrame f).goTo target
    | (f, .faulted fault) => (m.setFrame f).fail (.fatal fault)
    | (f, .unhandled) => (m.setFrame { f with pending := some e }).fail (.raised e)

/-- A failure of an instruction of the innermost frame: exceptions are raised there, anything else
finishes the frame. -/
def failAt (offset : Nat) : Failure → Machine σ
  | .raised e => m.raise host e offset
  | e => m.fail e

/-- Pushes the value an instruction was waiting for and goes on after it. -/
def resumeWith (v : Value) (site : Instruction) : Machine σ :=
  match m.chain with
  | [] => m
  | a :: _ =>
    match a.frame.stack.push v with
    | .ok stack => (m.setFrame { a.frame with stack }).goTo site.next
    | .error e => m.fail (.fatal e)

/-- Pops an exhausted generator and goes on after the loop. -/
def exhaust (site : Instruction) : Machine σ :=
  match m.chain with
  | [] => m
  | a :: _ =>
    match a.frame.stack.pop with
    | .ok (_, stack) => (m.setFrame { a.frame with stack }).goTo site.target
    | .error e => m.fail (.fatal e)

/-- A failure met while a loop advances a generator: `StopIteration` ends the loop. -/
def failLoop (site : Instruction) (e : Failure) : Machine σ :=
  if e.isCaughtBy .stopIteration then m.exhaust site else m.failAt host site.offset e

/-- Hands the result of a frame that is off the chain to whoever waits for it. -/
def deliver (waiting : Waiting) (f : Frame) (result : Except Failure FrameExit) : Machine σ :=
  match waiting with
  | .outside => { m with control := .halted f result }
  | .call site =>
    match result with
    | .ok (.returned v) => m.resumeWith v site
    | .ok (.yielded _) =>
      m.failAt host site.offset (.fatal (.invalidCode .yieldOutsideGenerator))
    | .error e => m.failAt host site.offset e
  | .loop r site =>
    let m := { m with heap := m.heap.settle r f result }
    match result with
    | .ok (.yielded v) => m.resumeWith v site
    | .ok (.returned _) => m.exhaust site
    | .error e => m.failLoop host site e

/-- Pushes a frame on the chain.  If there are too many frames already, or the value to push first
does not fit, the frame is handed back as it is, together with the failure. -/
def enter (f : Frame) (input : Option Value) (raising : Option Raised) (waiting : Waiting) :
    Machine σ :=
  let admitted : Except Failure Frame :=
    match m.budget.checkDepth m.depth with
    | .error e => .error e.toFailure
    | .ok () =>
      match input with
      | none => .ok f
      | some v =>
        match f.stack.push v with
        | .ok stack => .ok { f with stack }
        | .error e => .error (.fatal e)
  match admitted with
  | .error e => m.deliver host waiting f (.error e)
  | .ok f =>
    let caller := if m.depth = 0 then none else some (m.depth - 1)
    let depth := m.depth + 1
    let m : Machine σ :=
      { m with
        chain := ⟨{ f with back := caller }, f.entry waiting⟩ :: m.chain
        control := .start raising }
    (m.report host (.enter f.name depth)).report host (.call f.name depth)

/-- Starts the innermost frame. -/
def start (raising : Option Raised) : Machine σ :=
  match m.chain with
  | [] => m
  | a :: _ =>
    match a.frame.resumeOffset with
    | .error e => { m with control := .leave (.error (.fatal e)) }
    | .ok offset =>
      match raising with
      | none => m.goTo offset
      | some e => m.raise host e (a.frame.lastOffset.getD 0)

/-- Takes the innermost frame off the chain. -/
def leave (result : Except Failure FrameExit) : Machine σ :=
  match m.chain with
  | [] => m
  | a :: rest =>
    let value := match result with
      | .ok exit => some exit.value
      | .error _ => none
    let m := m.report host (.stop a.entry.name value m.depth)
    let m : Machine σ := { m with chain := rest }
    let m := m.report host (.leave a.entry.name (rest.length + 1))
    let f := { a.frame with back := none }
    let f := if result.isOk && f.finished then { f with pending := none } else f
    m.deliver host a.waiting f result

/-- Follows where an instruction leads. -/
def follow (i : Instruction) : Flow → Machine σ
  | .next => m.goTo i.next
  | .jump target => m.goTo target
  | .exit (.returned v) =>
    match m.chain with
    | [] => m
    | a :: _ => { m.setFrame a.frame.finish with control := .leave (.ok (.returned v)) }
  | .exit (.yielded v) => { m with control := .leave (.ok (.yielded v)) }
  | .reraise e => m.fail (.raised e)
  | .invoke callee => m.enter host callee none none (.call i)
  | .advance r =>
    match m.heap.takeFrame r false with
    | .error e => m.failLoop host i e
    | .ok (f, heap) =>
      { m with heap }.enter host f (f.input none) none (.loop r i)

/-- Executes an instruction of the innermost frame. -/
def perform (a : Activation) (i : Instruction) : Machine σ :=
  let m := m.report host
    (.instruction i.offset i.opcode a.frame.stack.depth m.depth)
  match (Exec.execute m.currentException i).run ⟨a.frame, m.heap⟩ with
  | .ok flow l => ({ m with heap := l.heap }.setFrame l.frame).follow host i flow
  | .error e l => ({ m with heap := l.heap }.setFrame l.frame).failAt host i.offset e

/-- Reports the line of the instruction at `offset` if there is a line event, and lets the hook of
the frame act on it.  The last component is the offset to execute, which after the hook is the one
recorded in the frame. -/
def traceLine (a : Activation) (offset : Nat) : Machine σ × Frame × Nat :=
  let recorded := a.frame.recordedOffset offset
  let (event, f) := { a.frame with lastOffset := some recorded }.lineEvent recorded
  match event with
  | none => (m, f, offset)
  | some line =>
    let m := m.report host (.line f.name line)
    match f.trace.hook with
    | none => (m, f, offset)
    | some hook =>
      let (f, heap, state) := host.onLine hook line f m.heap m.state
      ({ m with heap, state }, f, f.lastOffset.getD 0)

/-- Dispatches the instruction at an offset, or wherever the hook has moved the frame to. -/
def dispatch (offset : Nat) : Machine σ :=
  match m.chain with
  | [] => m
  | a :: _ =>
    match m.budget.dispatch with
    | (.error e, budget) => { m with budget }.fail e.toFailure
    | (.ok (), budget) =>
      let (m, f, offset) := { m with budget }.traceLine host a offset
      let m := m.setFrame f
      match Instruction.decode f.code.body.bytecode offset with
      | .error e => m.fail (.fatal e)
      | .ok i => m.perform host { a with frame := f } i

/-- One move.  A halted machine stays as it is. -/
def step : Machine σ :=
  match m.control with
  | .start raising => m.start host raising
  | .dispatch offset => m.dispatch host offset
  | .leave result => m.leave host result
  | .halted _ _ => m

/-- The machine has nothing left to do. -/
def isHalted : Bool :=
  match m.control with
  | .halted _ _ => true
  | _ => false

/-- Makes moves until the machine halts, at most `fuel` many. -/
def run : Nat → Machine σ → Machine σ
  | 0, m => m
  | fuel + 1, m => if m.isHalted then m else run fuel (m.step host)

/-- The frame that was run and how it stopped, once the machine has halted. -/
def outcome? : Option (Frame × Except Failure FrameExit) :=
  match m.control with
  | .halted f result => some (f, result)
  | _ => none

end Machine

end Resumable
