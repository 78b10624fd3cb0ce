import Resumable.Number.Binary64

/-!
# Data

A `Datum` is structured data apart from any format in which it is written: numbers, texts,
sequences, records and variants.  A variant carries both its number and its name, since some formats
write the one and some the other.
-/

namespace Resumable

/-- Structured data. -/
inductive Datum where
  | bool (b : Bool)
  | byte (b : UInt8)
  | natural (n : Nat)
  | integer (i : Int)
  | float (x : Binary64)
  | text (s : String)
  | absent
  | present (d : Datum)
  /-- Any number of items. -/
  | sequence (items : List Datum)
  /-- A fixed number of items. -/
  | tuple (items : List Datum)
  /-- Any number of named items. -/
  | mapping (entries : List (String × Datum))
  /-- A fixed number of named items. -/
  | record (fields : List (String × Datum))
  /-- A variant that carries nothing. -/
  | constant (index : Nat) (name : String)
  | variant (index : Nat) (name : String) (payload : Datum)
  deriving Inhabited

namespace Datum

/-- A sequence of texts. -/
def texts (ss : List String) : Datum := .sequence (ss.map .text)

/-- A sequence of bytes. -/
def bytesOf (bs : List UInt8) : Datum := .sequence (bs.map .byte)

/-- Data that may be missing. -/
def optional : Option Datum → Datum
  | some d => .present d
  | none => .absent

end Datum

end Resumable
