import Resumable.Heap.Basic
import Resumable.Failure.Basic

/-!
# Generators between runs

To run a generator its frame is taken out of the heap (`Heap.takeFrame`), which marks it running,
and put back when it stops (`Heap.settle`).  A running generator refuses to be resumed, and one that
is done raises `StopIteration`.
-/

namespace Resumable

/-- How a frame stopped without failing. -/
inductive FrameExit where
  /-- The frame is finished. -/
  | returned (value : Value)
  /-- The frame can be resumed. -/
  | yielded (value : Value)

/-- The value a frame stopped with. -/
def FrameExit.value : FrameExit → Value
  | returned v | yielded v => v

/-- The value pushed when a frame is resumed: the one sent, if the code accepts values and the frame
has started. -/
def Frame.input (f : Frame) (sent : Option Value) : Option Value :=
  if f.code.body.flags.acceptsInput && f.lastOffset.isSome then some (sent.getD .none) else none

/-- The state of a generator whose frame stopped. -/
def GeneratorState.after : Except Failure FrameExit → GeneratorState
  | .ok (.yielded _) => suspended
  | .ok (.returned _) => completed
  | .error _ => errored

namespace Heap

/-- Takes the frame out of a generator in order to run it.  `sending` says that a value other than
`None` is sent, which a generator that has not started refuses. -/
def takeFrame (h : Heap) (r : Ref .generator) (sending : Bool) : Except Failure (Frame × Heap) :=
  let g := h.generatorAt r
  let take : Except Failure (Frame × Heap) :=
    match g.frame with
    | some f => .ok (f, h.setGenerator r { g with state := .running, frame := none })
    | none => .error (.fatal (.invalidCode (.generatorWithoutFrame g.name)))
  match g.state with
  | .running => .error (.fatal .generatorRunning)
  | .completed | .errored => .error (.raised (Raised.bare .stopIteration))
  | .notStarted =>
    if sending then
      .error (.raised (Raised.typeError "can't send non-None value to a just-started generator"))
    else take
  | .suspended => take

/-- Puts the frame of a generator back after it stopped. -/
def settle (h : Heap) (r : Ref .generator) (f : Frame) (result : Except Failure FrameExit) : Heap :=
  h.setGenerator r
    { h.generatorAt r with state := GeneratorState.after result, frame := some f }

/-- Ends a generator that has not started, without running it. -/
def endUnstarted (h : Heap) (r : Ref .generator) (state : GeneratorState) : Heap :=
  let g := h.generatorAt r
  h.setGenerator r { g with state, frame := g.frame.map Frame.finish }

/-- A generator that owns a frame which has not started. -/
def newGeneratorOf (h : Heap) (f : Frame) : Ref .generator × Heap :=
  h.newGenerator ⟨.notStarted, f.name, some f⟩

end Heap

end Resumable
