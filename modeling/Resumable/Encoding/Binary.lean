import Resumable.Encoding.Datum

/-!
# Binary form

Numbers are written in base 128, the least significant digit first, with the high bit set on all
digits but the last; signed integers alternate between both signs.  Texts and sequences are preceded
by their length, variants by their number.  Records and tuples are their parts one after the other,
so the form can only be read by one who knows what is written.
-/

namespace Resumable

namespace Binary

/-- The digits of a number in base 128. -/
def varint (n : Nat) : List UInt8 :=
  if n < 128 then [UInt8.ofNat n]
  else UInt8.ofNat (n % 128 + 128) :: varint (n / 128)
  termination_by n

/-- Signed integers numbered by size: 0, -1, 1, -2, 2, … -/
def zigzag (i : Int) : Nat := if 0 ≤ i then 2 * i.toNat else 2 * (-i).toNat - 1

/-- The integer with a number. -/
def unzigzag (n : Nat) : Int := if n % 2 = 0 then (n / 2 : Nat) else -((n / 2 : Nat) : Int) - 1

theorem unzigzag_zigzag (i : Int) : unzigzag (zigzag i) = i := by
  unfold zigzag unzigzag
  split <;> split <;> omega

/-- The bytes of a number, the least significant first. -/
def littleEndian : Nat → Nat → List UInt8
  | 0, _ => []
  | count + 1, n => UInt8.ofNat (n % 256) :: littleEndian count (n / 256)

/-- A text after its length in bytes. -/
def text (s : String) : List UInt8 :=
  let bytes := s.toUTF8.toList
  varint bytes.length ++ bytes

end Binary

mutual

/-- The binary form of data. -/
def Datum.bytes : Datum → List UInt8
  | .bool b => [if b then 1 else 0]
  | .byte b => [b]
  | .natural n => Binary.varint n
  | .integer i => Binary.varint (Binary.zigzag i)
  | .float x => Binary.littleEndian 8 x.bits.toNat
  | .text s => Binary.text s
  | .absent => [0]
  | .present d => 1 :: Datum.bytes d
  | .sequence items => Binary.varint items.length ++ Datum.bytesOfItems items
  | .tuple items => Datum.bytesOfItems items
  | .mapping entries => Binary.varint entries.length ++ Datum.bytesOfEntries entries
  | .record fields => Datum.bytesOfFields fields
  | .constant index _ => Binary.varint index
  | .variant index _ payload => Binary.varint index ++ Datum.bytes payload

/-- The binary forms of items, one after the other. -/
def Datum.bytesOfItems : List Datum → List UInt8
  | [] => []
  | d :: rest => Datum.bytes d ++ Datum.bytesOfItems rest

/-- The binary forms of named items, each after its name. -/
def Datum.bytesOfEntries : List (String × Datum) → List UInt8
  | [] => []
  | (name, d) :: rest => Binary.text name ++ Datum.bytes d ++ Datum.bytesOfEntries rest

/-- The binary forms of the parts of a record, whose names are not written. -/
def Datum.bytesOfFields : List (String × Datum) → List UInt8
  | [] => []
  | (_, d) :: rest => Datum.bytes d ++ Datum.bytesOfFields rest

end

end Resumable
