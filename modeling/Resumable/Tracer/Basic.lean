import Resumable.Tracer.Recording
import Resumable.Tracer.Profile
import Resumable.Tracer.Log

/-!
# Tracers

A `Tracer` takes the events of a machine in order and keeps of them what it is for.
-/

namespace Resumable

/-- What is kept of the events of a machine. -/
inductive Tracer where
  | off
  /-- All events, or all but those of single instructions; the last one first. -/
  | recording (instructions : Bool) (reversed : List Recorded)
  | profiling (p : Profile)
  | logging (l : Log)

namespace Tracer

/-- Takes an event. -/
def observe (h : Heap) (e : Event) : Tracer → Tracer
  | off => off
  | recording instructions reversed =>
    let r := e.recorded h
    if r.isInstruction && !instructions then recording instructions reversed
    else recording instructions (r :: reversed)
  | profiling p => profiling (p.count e)
  | logging l => logging (l.add h e)

/-- The events recorded, in order. -/
def recorded : Tracer → List Recorded
  | recording _ reversed => reversed.reverse
  | _ => []

/-- The text logged. -/
def logged : Tracer → String
  | logging l => l.text
  | _ => ""

/-- The tracer with the events and the text it has kept so far dropped, but its counts kept. -/
def drained : Tracer → Tracer
  | recording instructions _ => recording instructions []
  | logging l => logging { l with text := "" }
  | t => t

end Tracer

end Resumable
