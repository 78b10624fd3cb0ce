import Resumable.Machine.Step

/-!
# Running frames and generators

`Session` is a computation with a context, in which frames are run to their end.  Between runs no
frame is on the chain.  A run is given `fuel`, a bound on the moves of the machine; a session in
which a run does not end within it has no result.  `patience` is a bound no run ever gets to.

* `Session.execute` runs a frame until it returns, yields or fails, and hands it back;
* `Session.send`, `Session.throwInto` and `Session.close` resume a generator;
* `Session.resumeChain` runs a chain of frames, the innermost first, each one's result being what
  its caller waits for.
-/

namespace Resumable

/-- A computation with a context, without result if a run does not end. -/
abbrev Session (σ : Type) := StateT (Context σ) Option

/-- More moves than any run makes. -/
def patience : Nat := 0x4000000000000000

namespace Session

variable {σ : Type} (host : Host σ) (fuel : Nat)

/-- The machine that is about to run a frame in a context. -/
def machine (c : Context σ) (f : Frame) (input : Option Value) (raising : Option Raised) :
    Machine σ :=
  let idle : Machine σ := { c with chain := [], control := .start none }
  idle.enter host f input raising .outside

/-- Runs a frame from its resume offset, after pushing `input` or raising an exception. -/
def runFrame (f : Frame) (input : Option Value) (raising : Option Raised) :
    Session σ (Frame × Except Failure FrameExit) := fun c =>
  let m := Machine.run host fuel (machine host c f input raising)
  m.outcome?.map fun r => (r, m.toContext)

/-- Runs a frame from its resume offset. -/
def execute (f : Frame) : Session σ (Frame × Except Failure FrameExit) :=
  runFrame host fuel f none none

/-- Resumes the frame of a generator, sending it a value. -/
def executeGenerator (f : Frame) (sent : Option Value) :
    Session σ (Frame × Except Failure FrameExit) :=
  runFrame host fuel f (f.input sent) none

/-- The heap that the client works on. -/
def getHeap : Session σ Heap := return (← get).heap

/-- Replaces that heap. -/
def setHeap (h : Heap) : Session σ Unit := modify fun c => { c with heap := h }

/-- Computes something and changes the heap. -/
def withHeap {α : Type} (f : Heap → α × Heap) : Session σ α :=
  modifyGet fun c => let (a, heap) := f c.heap; (a, { c with heap })

/-- The value of a frame run to its end.  Generator code makes a generator instead. -/
def evaluate (f : Frame) : Session σ (Except Failure Value) := do
  if f.code.body.flags.generator then
    let r ← withHeap fun h => h.newGeneratorOf f
    return .ok (.generator r)
  else
    let (_, result) ← execute host fuel f
    match result with
    | .ok (.returned v) => return .ok v
    | .ok (.yielded _) => return .error (.fatal (.invalidCode .yieldOutsideGenerator))
    | .error e => return .error e

/-- Makes a frame with the default builtins. -/
def makeFrame (code : CodeObject) (globals builtins : Ref .mapping) (closure : List (Ref .cell)) :
    Session σ (Except Fault Frame) := do
  match Frame.create code globals builtins closure (← getHeap) with
  | .ok (f, h) =>
    setHeap h
    return .ok f
  | .error e => return .error e

/-- The value of module code run with the given globals. -/
def runCode (code : CodeObject) (globals : Ref .mapping) : Session σ (Except Failure Value) := do
  match ← makeFrame code globals Heap.defaultBuiltins [] with
  | .ok f => evaluate host fuel f
  | .error e => return .error (.fatal e)

/-! ### Generators -/

/-- Puts the frame of a generator back. -/
def settle (r : Ref .generator) (f : Frame) (result : Except Failure FrameExit) :
    Session σ (Except Failure FrameExit) := do
  setHeap ((← getHeap).settle r f result)
  return result

/-- Resumes a generator with a value for the yield it waits at. -/
def send (r : Ref .generator) (v : Value) : Session σ (Except Failure FrameExit) := do
  match (← getHeap).takeFrame r (!v.isNone) with
  | .error e => return .error e
  | .ok (f, h) =>
    setHeap h
    let (f, result) ← executeGenerator host fuel f (some v)
    settle r f result

/-- Raises an exception in a generator where it waits.  One that has not started ends without
running, and one that is done raises the exception itself. -/
def throwInto (r : Ref .generator) (e : Raised) : Session σ (Except Failure FrameExit) := do
  let h ← getHeap
  match (h.generatorAt r).state with
  | .running => return .error (.fatal .generatorRunning)
  | .notStarted =>
    setHeap (h.endUnstarted r .errored)
    return .error (.raised e)
  | .completed | .errored => return .error (.raised e)
  | .suspended =>
    match h.takeFrame r false with
    | .error e => return .error e
    | .ok (f, h) =>
      setHeap h
      let (f, result) ← runFrame host fuel f none (some e)
      settle r f result

/-- Ends a generator by raising `GeneratorExit` in it, which it must not answer with a value. -/
def close (r : Ref .generator) : Session σ (Except Failure Unit) := do
  let h ← getHeap
  match (h.generatorAt r).state with
  | .notStarted =>
    setHeap (h.endUnstarted r .completed)
    return .ok ()
  | .completed | .errored => return .ok ()
  | .suspended | .running =>
    match ← throwInto host fuel r (Raised.bare .generatorExit) with
    | .ok (.yielded _) =>
      return .error (.raised (Raised.new .runtimeError "generator ignored GeneratorExit"))
    | .ok (.returned _) => return .ok ()
    | .error e =>
      if e.isCaughtBy .generatorExit || e.isCaughtBy .stopIteration then return .ok ()
      else return .error e

/-! ### Chains -/

/-- A caller as it goes on after its callee: the value is pushed, an exception is raised in it, and
any other failure ends the chain. -/
def afterCallee (f : Frame) : Except Failure Value → Except Failure (Frame × Option Raised)
  | .ok v =>
    match f.stack.push v with
    | .ok stack => .ok ({ f with stack }, none)
    | .error e => .error (.fatal e)
  | .error (.raised e) => .ok (f, some e)
  | .error e => .error e

/-- Runs the callers of a frame that stopped, innermost first, each from what its callee came to. -/
def resumeCallers : List Frame → Except Failure Value → Session σ (Except Failure FrameExit)
  | [], .ok v => return .ok (.returned v)
  | [], .error e => return .error e
  | f :: callers, outcome => do
    match afterCallee f outcome with
    | .error e => return .error e
    | .ok (f, raising) =>
      match (← runFrame host fuel f none raising).2 with
      | .ok (.yielded v) => return .ok (.yielded v)
      | .ok (.returned v) => resumeCallers callers (.ok v)
      | .error e => resumeCallers callers (.error e)

/-- Runs a chain of frames, given innermost first.  A yield ends the run and drops the callers. -/
def resumeChain : List Frame → Session σ (Except Failure FrameExit)
  | [] => return .ok (.returned .none)
  | f :: callers => do
    match (← execute host fuel f).2 with
    | .ok (.yielded v) => return .ok (.yielded v)
    | .ok (.returned v) => resumeCallers host fuel callers (.ok v)
    | .error e => resumeCallers host fuel callers (.error e)

end Session

end Resumable
