import Resumable.Machine.Event
import Resumable.Bytecode.Listing
import Resumable.Number.Fixed

/-!
# Profiles

A profile counts how often each opcode was executed, how often frames of each code started or
resumed, and the exceptions raised.  Its report lists the most frequent first; equally frequent
opcodes come in the order of their numbers, and codes in the order of their names.
-/

namespace Resumable

/-- Counts of what a machine did. -/
structure Profile where
  opcodes : List (Opcode × Nat) := []
  codes : List (String × Nat) := []
  instructions : Nat := 0
  exceptions : Nat := 0
  /-- The most frames that were on the chain. -/
  deepest : Nat := 0
  deriving Repr

namespace Profile

/-- Adds one to the count of a key. -/
def increment {α : Type} [BEq α] (key : α) : List (α × Nat) → List (α × Nat)
  | [] => [(key, 1)]
  | (k, n) :: rest => if k == key then (k, n + 1) :: rest else (k, n) :: increment key rest

/-- Counts an event. -/
def count (p : Profile) : Event → Profile
  | .instruction _ op _ _ =>
    { p with opcodes := increment op p.opcodes, instructions := p.instructions + 1 }
  | .enter _ d => { p with deepest := max p.deepest d }
  | .call c _ => { p with codes := increment c p.codes }
  | .exception _ _ => { p with exceptions := p.exceptions + 1 }
  | .leave .. | .stop .. | .line .. => p

/-- The opcodes executed, most frequent first. -/
def rankedOpcodes (p : Profile) : List (Opcode × Nat) :=
  p.opcodes.mergeSort fun (a, m) (b, n) => decide (n < m) || (m == n && a.byte ≤ b.byte)

/-- The codes started, most frequent first. -/
def rankedCodes (p : Profile) : List (String × Nat) :=
  p.codes.mergeSort fun (a, m) (b, n) => decide (n < m) || (m == n && decide (a ≤ b))

/-- How often frames started or resumed. -/
def calls (p : Profile) : Nat := p.codes.foldl (fun total (_, n) => total + n) 0

/-- The percentage that a count is of all instructions. -/
def share (p : Profile) (count : Nat) : Binary64 :=
  let percent := (Binary64.ofInt count).mul (Binary64.ofInt 100)
  percent.div (Binary64.ofInt (max p.instructions 1 : Nat))

/-- The text of a profile. -/
def text (p : Profile) : String :=
  s!"{p.instructions} instructions, {p.calls} frame starts, {p.exceptions} exceptions, " ++
    s!"chain depth {p.deepest}\n" ++
    String.join (p.rankedCodes.map fun (c, n) =>
      s!"  {padRight 24 c} {padLeft 8 (toString n)}\n") ++
    String.join (p.rankedOpcodes.map fun (op, n) =>
      let percent := padLeft 5 ((p.share n).fixedText 1)
      s!"  {padRight 24 op.name} {padLeft 8 (toString n)} {percent}%\n")

end Profile

end Resumable
