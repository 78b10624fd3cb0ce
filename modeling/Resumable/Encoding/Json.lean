import Resumable.Encoding.Datum
import Resumable.Number.Shortest

/-!
# JSON form

Data written as indented JSON.  What is missing is `null`, what is present stands for itself; a
variant is its name, or an object that maps its name to what it carries.
-/

namespace Resumable

namespace Json

/-- Numbers are written without an exponent from 0.00001 up to sixteen digits before the point, and
of two equally near digit strings the even one is taken. -/
def numberStyle : DecimalStyle := ⟨.even, some (-5, 15)⟩

/-- A float; what is no finite number has no JSON form. -/
def float (x : Binary64) : String := if x.isFinite then numberStyle.finiteText x else "null"

/-- A digit of a control character's number. -/
def hexDigit (n : Nat) : Char := Nat.digitChar n

/-- A character as it stands between quotes. -/
def escape (c : Char) : String :=
  match c.toNat with
  | 0x22 => "\\\""
  | 0x5C => "\\\\"
  | 0x08 => "\\b"
  | 0x0C => "\\f"
  | 0x0A => "\\n"
  | 0x0D => "\\r"
  | 0x09 => "\\t"
  | n =>
    if n < 32 then "\\u00" ++ (hexDigit (n / 16)).toString ++ (hexDigit (n % 16)).toString
    else c.toString

/-- A text between quotes. -/
def quote (s : String) : String := "\"" ++ String.join (s.toList.map escape) ++ "\""

/-- The start of a line at a level of nesting. -/
def newline (level : Nat) : String := "\n" ++ String.ofList (List.replicate (2 * level) ' ')

/-- Items between brackets, one on a line. -/
def block (opening closing : String) (level : Nat) (items : List String) : String :=
  if items.isEmpty then opening ++ closing
  else
    opening ++ newline (level + 1) ++ ("," ++ newline (level + 1)).intercalate items ++
      newline level ++ closing

/-- Items of an object, one on a line. -/
def object (level : Nat) (items : List String) : String := block "\x7b" "\x7d" level items

end Json

mutual

/-- The JSON form of data that stands at a level of nesting. -/
def Datum.json (level : Nat) : Datum → String
  | .bool b => if b then "true" else "false"
  | .byte b => toString b.toNat
  | .natural n => toString n
  | .integer i => toString i
  | .float x => Json.float x
  | .text s => Json.quote s
  | .absent => "null"
  | .present d => Datum.json level d
  | .sequence items => Json.block "[" "]" level (Datum.jsonItems (level + 1) items)
  | .tuple items => Json.block "[" "]" level (Datum.jsonItems (level + 1) items)
  | .mapping entries => Json.object level (Datum.jsonEntries (level + 1) entries)
  | .record fields => Json.object level (Datum.jsonEntries (level + 1) fields)
  | .constant _ name => Json.quote name
  | .variant _ name payload =>
    Json.object level [Json.quote name ++ ": " ++ Datum.json (level + 1) payload]

/-- The JSON forms of items. -/
def Datum.jsonItems (level : Nat) : List Datum → List String
  | [] => []
  | d :: rest => Datum.json level d :: Datum.jsonItems level rest

/-- The JSON forms of named items, each after its name. -/
def Datum.jsonEntries (level : Nat) : List (String × Datum) → List String
  | [] => []
  | (name, d) :: rest =>
    (Json.quote name ++ ": " ++ Datum.json level d) :: Datum.jsonEntries level rest

end

end Resumable
