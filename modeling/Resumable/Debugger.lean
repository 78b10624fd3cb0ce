import Resumable.Machine.Step
import Resumable.Snapshot.Encode
import Resumable.Tracer.Basic

/-!
# Debuggers

A debugger is a host whose hooks are lists of rules.  On a line event each rule that is meant for
the line performs its acts on the frame, and the results are logged, together with the heap as it
was then.  Events go to a tracer.
-/

namespace Resumable

/-- Something done to a frame on a line event. -/
inductive Act where
  | jump (line : Nat)
  | state
  | capture (register : String)
  | dump
  | untrace
  | push (v : Value)
  | pop
  | setFast (index : Nat) (v : Value)
  | pushBlock (b : Block)
  | popBlock

/-- What an act came to. -/
inductive ActResult where
  /-- The frame after a jump, or the reason for which it was not moved. -/
  | jumped (f : Frame) (refusal : Option JumpRefusal)
  | state (f : Frame)
  | captured (register : String) (s : Snapshot)
  | dumped (bytes : List UInt8)
  | untraced (line : Nat)
  | done
  | value (v : Value)
  | block (b : Block)
  | fault (f : Fault)

/-- Acts to be performed on events of a line, or of any line; at most so many times, if there is a
bound. -/
structure Rule where
  line : Option Nat := none
  times : Option Nat := none
  acts : List Act

/-- A line event, and what the acts performed on it came to. -/
structure LineLog where
  line : Nat
  results : List (ActResult × Heap)

/-- The state of a debugger. -/
structure Debugger where
  tracer : Tracer := .off
  /-- The rules of each hook. -/
  hooks : Array (List Rule) := #[]
  /-- Line events logged, the last one first. -/
  reversed : List LineLog := []

namespace Act

/-- The outcome of an act that changes the frame or fails. -/
def changed (f : Frame) (r : Except Fault Frame) : Frame × ActResult :=
  match r with
  | .ok f' => (f', .done)
  | .error e => (f, .fault e)

/-- Performs an act. -/
def perform (h : Heap) (f : Frame) : Act → Frame × ActResult
  | jump line =>
    match f.jump line with
    | .ok f' => (f', .jumped f' none)
    | .error e => (f, .jumped f (some e))
  | state => (f, .state f)
  | capture register => (f, .captured register ⟨f.capture, []⟩)
  | dump => (f, .dumped (h.dump ⟨f.capture, []⟩))
  | untrace => let f := f.setTrace none; (f, .untraced f.currentLine)
  | push v => changed f ((f.stack.push v).map fun stack => { f with stack })
  | pop =>
    match f.stack.pop with
    | .ok (v, stack) => ({ f with stack }, .value v)
    | .error e => (f, .fault e)
  | setFast i v => changed f (f.setFastLocal i v)
  | pushBlock b => (f.pushBlock b, .done)
  | popBlock =>
    match f.popBlock with
    | .ok (b, f') => (f', .block b)
    | .error e => (f, .fault e)

/-- Performs acts in order. -/
def performAll (h : Heap) : List Act → Frame → Frame × List (ActResult × Heap)
  | [], f => (f, [])
  | a :: rest, f =>
    let (f, r) := a.perform h f
    let (f, rs) := performAll h rest f
    (f, (r, h) :: rs)

end Act

namespace Rule

/-- The rule is meant for a line and not used up. -/
def applies (r : Rule) (line : Nat) : Bool :=
  (r.line == none || r.line == some line) && r.times != some 0

/-- The rule after it was used. -/
def used (r : Rule) : Rule := { r with times := r.times.map (· - 1) }

/-- Applies rules in order. -/
def applyAll (h : Heap) (line : Nat) :
    List Rule → Frame → List Rule × Frame × List (ActResult × Heap)
  | [], f => ([], f, [])
  | r :: rest, f =>
    if r.applies line then
      let (f, results) := Act.performAll h r.acts f
      let (rules, f, later) := applyAll h line rest f
      (r.used :: rules, f, results ++ later)
    else
      let (rules, f, results) := applyAll h line rest f
      (r :: rules, f, results)

end Rule

namespace Debugger

/-- Adds a hook and returns its number. -/
def addHook (d : Debugger) (rules : List Rule) : Nat × Debugger :=
  (d.hooks.size, { d with hooks := d.hooks.push rules })

/-- Lets a hook act on a line event. -/
def onLine (hook line : Nat) (f : Frame) (h : Heap) (d : Debugger) : Frame × Heap × Debugger :=
  let (rules, f, results) := Rule.applyAll h line (d.hooks.getD hook []) f
  (f, h, { d with
    hooks := d.hooks.setIfInBounds hook rules, reversed := ⟨line, results⟩ :: d.reversed })

/-- A host that traces events and lets hooks act. -/
def host : Host Debugger where
  observe h e d := { d with tracer := d.tracer.observe h e }
  onLine := onLine

/-- The line events logged, in order. -/
def logged (d : Debugger) : List LineLog := d.reversed.reverse

end Debugger

end Resumable
