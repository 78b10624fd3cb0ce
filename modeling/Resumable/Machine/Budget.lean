import Resumable.Failure.Basic

/-!
# Budgets

A `Tracker` is asked before every instruction and before every frame, and what it answers is up to
it.  `Tracker.unlimited` bounds only the number of frames on the chain; `Tracker.limited` also
counts instructions and looks at a clock.  Too many frames raise an exception that handlers may
catch; an exhausted count, and a deadline that has passed, are exceptions that none sees.

A `Budget` is a tracker that has been asked about so many instructions.
-/

namespace Resumable

/-- How many frames may be on the chain when nothing else is said. -/
def defaultMaxDepth : Nat := 1000

/-- A span of time. -/
structure Duration where
  nanoseconds : Nat
  deriving DecidableEq, Repr

namespace Duration

/-- A number of units of a power of ten, with as many decimals as it takes. -/
def decimal (n unit : Nat) : String :=
  -- the leading one keeps the zeros in front of the decimals
  let decimals := (toString (unit + n % unit)).toList.tail
  let decimals := (decimals.reverse.dropWhile (· == '0')).reverse
  if decimals.isEmpty then toString (n / unit)
  else s!"{n / unit}.{String.ofList decimals}"

/-- The span in the largest unit of which it has one. -/
def text (d : Duration) : String :=
  let n := d.nanoseconds
  if 1000000000 ≤ n then decimal n 1000000000 ++ "s"
  else if 1000000 ≤ n then decimal n 1000000 ++ "ms"
  else if 1000 ≤ n then decimal n 1000 ++ "µs"
  else decimal n 1 ++ "ns"

example : text ⟨1500000000⟩ = "1.5s" := by decide +kernel

end Duration

/-- A limit that was met. -/
inductive LimitError where
  | instructions (limit : Nat)
  | deadline (limit elapsed : Duration)
  | depth (limit : Nat)
  deriving DecidableEq, Repr

namespace LimitError

/-- The message of the exception for a limit. -/
def message : LimitError → String
  | instructions n => s!"instruction budget of {n} exhausted"
  | deadline limit elapsed => s!"deadline of {limit.text} passed after {elapsed.text}"
  | depth _ => "maximum recursion depth exceeded"

/-- The failure that a limit ends a run with. -/
def toFailure (e : LimitError) : Failure :=
  match e with
  | depth _ => .raised (Raised.new .recursionError e.message)
  | instructions _ | deadline _ _ => .uncatchable (Raised.new .timeoutError e.message)

end LimitError

/-! ### Trackers -/

/-- What is asked before every instruction and before every frame.  Being asked about an instruction
is all that changes a tracker, so its answers depend on how often it has been. -/
structure Tracker where
  /-- Whether one more instruction may be dispatched, after being asked about `n` others. -/
  onDispatch : (n : Nat) → Except LimitError Unit
  /-- Whether one more frame may be put on a chain of `depth` frames, after being asked about `n`
  instructions. -/
  checkDepth : (n depth : Nat) → Except LimitError Unit
  /-- The instructions it says it has counted, after being asked about `n`. -/
  dispatched? : (n : Nat) → Option Nat := fun _ => none

/-- A time by which a run has to end, and what a clock shows that is looked at when a tracker is
asked about an instruction, having been asked about `n` others. -/
structure Deadline where
  limit : Duration
  elapsed : (n : Nat) → Duration

/-- Limits on a run; a missing one does not limit. -/
structure Limits where
  instructions : Option Nat := none
  deadline : Option Deadline := none
  maxDepth : Option Nat := some defaultMaxDepth

namespace Tracker

/-- Instructions between two looks at the clock. -/
def deadlineStride : Nat := 256

/-- Bounds the number of frames on a chain. -/
def depthWithin (max depth : Nat) : Except LimitError Unit :=
  if max ≤ depth then .error (.depth max) else .ok ()

/-- The tracker that limits the number of frames only. -/
def unlimited : Tracker where
  onDispatch _ := .ok ()
  checkDepth _ := depthWithin defaultMaxDepth

/-- Whether a deadline still lies ahead. -/
def checkDeadline (limits : Limits) (n : Nat) : Except LimitError Unit :=
  match limits.deadline with
  | none => .ok ()
  | some d => if d.limit.nanoseconds < (d.elapsed n).nanoseconds then
      .error (.deadline d.limit (d.elapsed n))
    else .ok ()

/-- Counts one more instruction, and now and then looks at the clock. -/
def countInstruction (limits : Limits) (n : Nat) : Except LimitError Unit :=
  let counted := n + 1
  let checked := if counted % deadlineStride = 1 then checkDeadline limits n else .ok ()
  match limits.instructions with
  | some max => if max < counted then .error (.instructions max) else checked
  | none => checked

/-- The tracker that enforces limits. -/
def limited (limits : Limits) : Tracker where
  onDispatch := countInstruction limits
  checkDepth _ depth :=
    match limits.maxDepth with
    | some max => depthWithin max depth
    | none => .ok ()
  dispatched? := some

/-- The state of a tracker that keeps one, after being asked about `n` instructions. -/
def stateAfter {τ : Type} (onDispatch : τ → Except LimitError Unit × τ) (initial : τ) : Nat → τ
  | 0 => initial
  | n + 1 => (onDispatch (stateAfter onDispatch initial n)).2

/-- A tracker that keeps a state of its own. -/
def ofState {τ : Type} (onDispatch : τ → Except LimitError Unit × τ)
    (checkDepth : τ → Nat → Except LimitError Unit) (initial : τ) : Tracker where
  onDispatch n := (onDispatch (stateAfter onDispatch initial n)).1
  checkDepth n := checkDepth (stateAfter onDispatch initial n)

end Tracker

/-! ### Budgets -/

/-- What is left to a run: a tracker that has been asked about so many instructions, refused ones
included. -/
structure Budget where
  tracker : Tracker
  asked : Nat := 0

namespace Budget

/-- The budget that limits the number of frames only. -/
def unlimited : Budget := { tracker := .unlimited }

/-- The budget with limits of which so many instructions have been used up. -/
def limited (limits : Limits) (used : Nat) : Budget := ⟨.limited limits, used⟩

/-- The number of instructions counted, refused ones included. -/
def dispatched? (b : Budget) : Option Nat := b.tracker.dispatched? b.asked

/-- Asks about an instruction that is about to be dispatched. -/
def dispatch (b : Budget) : Except LimitError Unit × Budget :=
  (b.tracker.onDispatch b.asked, { b with asked := b.asked + 1 })

/-- Asks about instructions until one is refused or `n` are admitted. -/
def dispatchMany : Nat → Budget → Except LimitError Unit × Budget
  | 0, b => (.ok (), b)
  | n + 1, b =>
    match b.dispatch with
    | (.ok (), b) => dispatchMany n b
    | refused => refused

/-- Asks about another frame on a chain of `depth` frames. -/
def checkDepth (b : Budget) (depth : Nat) : Except LimitError Unit :=
  b.tracker.checkDepth b.asked depth

end Budget

end Resumable
