import Resumable.Bytecode.Code

/-!
# Line tables

A line table is a list of steps: each moves the offset forward and then the line.  A step that
leaves the line as it is only pads, since no step exceeds 255.

* `CodeOf.lineForOffset` is the line of an offset;
* `CodeOf.lineStarts` are the offsets at which the line advances;
* `CodeOf.lineRange` is the range of offsets around an offset that share its line.

Lines are added up without bound here.  In the program they have 32 bits, and a table whose steps
lead beyond that stops it with an overflow; of all other tables the lines are these.
-/

namespace Resumable

/-- One step of a line table. -/
structure LineStep where
  offset : Nat
  line : Nat
  deriving DecidableEq, Repr

/-- The steps written in a line table; a last single byte is no step. -/
def LineStep.ofBytes : List UInt8 → List LineStep
  | o :: l :: rest => ⟨o.toNat, l.toNat⟩ :: ofBytes rest
  | _ => []

/-- The line of `offset`, with the steps read so far ending at `address` and `line`. -/
def LineStep.lineAt (offset : Nat) : List LineStep → Nat → Nat → Nat
  | [], _, line => line
  | s :: rest, address, line =>
    if offset < address + s.offset then line
    else lineAt offset rest (address + s.offset) (line + s.line)

/-- The offsets and lines at which the steps advance the line. -/
def LineStep.starts : List LineStep → Nat → Nat → List (Nat × Nat)
  | [], _, _ => []
  | s :: rest, address, line =>
    let later := starts rest (address + s.offset) (line + s.line)
    if s.line = 0 then later else (address + s.offset, line + s.line) :: later

/-- A range of offsets that share a line. -/
structure LineRange where
  line : Nat
  start : Nat
  /-- The first offset after the range; none if it runs to the end of the code. -/
  stop : Option Nat
  deriving DecidableEq, Repr

/-- The first address at or after which the line advances, or else the last address if it lies
beyond `offset`. -/
def LineRange.stopAfter (offset : Nat) : List LineStep → Nat → Option Nat
  | [], address => if offset < address then some address else none
  | s :: rest, address =>
    if s.line = 0 then stopAfter offset rest (address + s.offset) else some (address + s.offset)

/-- The range around `offset`, with the steps read so far ending at `address` and `line`, and the
line last advanced at `start`. -/
def LineRange.around (offset : Nat) : List LineStep → Nat → Nat → Nat → LineRange
  | [], address, line, start => ⟨line, start, stopAfter offset [] address⟩
  | s :: rest, address, line, start =>
    if offset < address + s.offset then ⟨line, start, stopAfter offset (s :: rest) address⟩
    else
      let address := address + s.offset
      around offset rest address (line + s.line) (if s.line = 0 then start else address)

namespace CodeOf

variable {κ : Type} (c : CodeOf κ)

/-- The steps of the line table. -/
def lineSteps : List LineStep := LineStep.ofBytes c.lineTable

/-- The line of the instruction at `offset`; in the program it has 32 bits. -/
def lineForOffset (offset : Nat) : Nat := LineStep.lineAt offset c.lineSteps 0 c.firstLine

/-- The offsets at which the line advances, in table order, with the line that starts there, which
in the program has 32 bits. -/
def lineStarts : List (Nat × Nat) := LineStep.starts c.lineSteps 0 c.firstLine

/-- The last line of the table. -/
def lastLine : Nat := (c.lineStarts.getLast?.map Prod.snd).getD c.firstLine

/-- The range of offsets around `offset` that share its line, which in the program has 32 bits. -/
def lineRange (offset : Nat) : LineRange := LineRange.around offset c.lineSteps 0 c.firstLine 0

end CodeOf

theorem LineRange.line_around (offset : Nat) (steps : List LineStep) (address line start : Nat) :
    (LineRange.around offset steps address line start).line =
      LineStep.lineAt offset steps address line := by
  induction steps generalizing address line start with
  | nil => rfl
  | cons s rest ih =>
    simp only [LineRange.around, LineStep.lineAt]
    split
    · rfl
    · exact ih ..

/-- The range around an offset carries the line of that offset. -/
theorem CodeOf.line_lineRange {κ : Type} (c : CodeOf κ) (offset : Nat) :
    (c.lineRange offset).line = c.lineForOffset offset :=
  LineRange.line_around ..

end Resumable
