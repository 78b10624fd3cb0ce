import Resumable.Bytecode.Code

/-!
# Listings

The listing of a code object has a heading and one line per instruction: its offset, its opcode,
and the argument of those that have one.
-/

namespace Resumable

/-- Text brought to a width with blanks on the left. -/
def padLeft (width : Nat) (s : String) : String :=
  String.ofList (List.replicate (width - s.length) ' ') ++ s

/-- Text brought to a width with blanks on the right. -/
def padRight (width : Nat) (s : String) : String :=
  s ++ String.ofList (List.replicate (width - s.length) ' ')

/-- The line of a listing that shows an instruction. -/
def Instruction.listing (i : Instruction) : String :=
  let offset := padLeft 5 (toString i.offset)
  if i.opcode.hasArgument then
    s!"  {offset} {padRight 20 i.opcode.name} {i.arg.toNat}\n"
  else s!"  {offset} {i.opcode.name}\n"

/-- The listing of a code object; it breaks off where the bytecode cannot be read. -/
def CodeOf.listing {κ : Type} (c : CodeOf κ) : String :=
  let (is, fault) := Instruction.sweep c.bytecode
  s!"code {c.name} (line {c.firstLine})\n" ++ String.join (is.map Instruction.listing) ++
    (if fault.isSome then "  <undecodable>\n" else "")

end Resumable
