import Resumable.Snapshot.Basic
import Resumable.Encoding.Binary
import Resumable.Bytecode.Validation

/-!
# Decoding values and snapshots

A `Reader` reads values and snapshots from their binary form and makes the objects they name.  An
object is made, without contents, as soon as its number is met for the first time, so that what
its contents refer to can refer back to it.  Later occurrences of the number name the same object.

The numbers met stay known for a whole session, also after a part that could not be read.

Code is validated as it is read, and the frame of a generator is restored from its record.
-/

namespace Resumable

/-- What is left to read, the objects made so far, and those known by their number. -/
structure Reader where
  input : List UInt8
  heap : Heap
  known : List (Nat × SharedRef) := []

/-- A computation that reads.  One that fails keeps what it read and made until then. -/
abbrev Decoder := EStateM CodecError Reader

namespace Decoder

/-! ### Numbers and texts -/

/-- The next byte. -/
def byte : Decoder UInt8 := do
  match (← get).input with
  | [] => throw .endOfInput
  | b :: rest =>
    modify fun r => { r with input := rest }
    pure b

/-- The next `count` bytes, all or none. -/
def bytes (count : Nat) : Decoder (List UInt8) := do
  let input := (← get).input
  let taken := input.take count
  if taken.length < count then throw .endOfInput
  modify fun r => { r with input := input.drop count }
  pure taken

/-- The remaining digits of a number in base 128, at most `digits` of them.  The last digit that is
possible at all must not exceed `last`. -/
def varintFrom (last : Nat) : Nat → Nat → Nat → Decoder Nat
  | 0, _, _ => throw .badVarint
  | digits + 1, scale, sum => do
    let b := (← byte).toNat
    let sum := sum + b % 128 * scale
    if 128 ≤ b then varintFrom last digits (scale * 128) sum
    else if digits = 0 ∧ last < b then throw .badVarint
    else pure sum

/-- A number below `2 ^ 16`. -/
def word16 : Decoder Nat := varintFrom 3 3 1 0

/-- A number below `2 ^ 32`. -/
def word32 : Decoder Nat := varintFrom 15 5 1 0

/-- A number below `2 ^ 64`. -/
def word64 : Decoder Nat := varintFrom 1 10 1 0

/-- A signed number of sixty-four bits. -/
def integer : Decoder Int := return Binary.unzigzag (← word64)

/-- The number with given bytes, the least significant first. -/
def ofLittleEndian : List UInt8 → Nat
  | [] => 0
  | b :: rest => b.toNat + 256 * ofLittleEndian rest

/-- A floating point number, by its eight bytes. -/
def float : Decoder Binary64 := return ⟨UInt64.ofNat (ofLittleEndian (← bytes 8))⟩

/-- A truth value, in one byte. -/
def bool : Decoder Bool := do
  match (← byte).toNat with
  | 0 => pure false
  | 1 => pure true
  | _ => throw .badBool

/-- Whether something that may be missing is there. -/
def isPresent : Decoder Bool := do
  match (← byte).toNat with
  | 0 => pure false
  | 1 => pure true
  | _ => throw .badOption

/-- Something that may be missing, after a byte that says whether it is there. -/
def optional {α : Type} (item : Decoder α) : Decoder (Option α) := do
  if ← isPresent then return some (← item) else return none

/-- A text after its length in bytes, which must be well-formed. -/
def text : Decoder String := do
  let bs ← bytes (← word64)
  match String.fromUTF8? ⟨bs.toArray⟩ with
  | some s => pure s
  | none => throw .badText

/-- A number of items. -/
def items {α : Type} (item : Decoder α) : Nat → Decoder (List α)
  | 0 => pure []
  | n + 1 => do
    let a ← item
    let rest ← items item n
    pure (a :: rest)

/-- A sequence after its length. -/
def sequence {α : Type} (item : Decoder α) : Decoder (List α) := do items item (← word64)

/-- A form that can be read, but means nothing. -/
def meaningless {α : Type} : Decoder α := throw .meaningless

/-- What a variant number stands for. -/
def known {α : Type} : Option α → Decoder α
  | some a => pure a
  | none => meaningless

/-! ### What is not shared -/

/-- An identity for an immutable object that was read. -/
def newIdentity : Decoder Identity :=
  modifyGet fun r => let (i, heap) := r.heap.newIdentity; (i, { r with heap })

/-- The type of an exception, by its number. -/
def exceptionKind : Decoder ExceptionKind := do known (ExceptionKind.ofNumber? (← word32))

/-- An exception. -/
def exception : Decoder Exception := do
  let kind ← exceptionKind
  let message ← optional text
  pure ⟨kind, message⟩

/-- An entry of a traceback. -/
def tracebackEntry : Decoder TracebackEntry := do
  let code ← text
  let line ← word32
  let offset ← word64
  pure ⟨code, line, offset⟩

/-- An exception with its traceback. -/
def raised : Decoder Raised := do
  let e ← exception
  let traceback ← sequence tracebackEntry
  pure ⟨e, traceback⟩

/-- The flags of code. -/
def flags : Decoder Flags := do
  let optimized ← bool
  let newLocals ← bool
  let generator ← bool
  let acceptsInput ← bool
  pure { optimized, newLocals, generator, acceptsInput }

/-- Code that is valid. -/
def codeWith (constant : Decoder Const) : Decoder Code := do
  let name ← text
  let bytecode ← sequence byte
  let consts ← sequence constant
  let names ← sequence text
  let varnames ← sequence text
  let cellvars ← sequence text
  let freevars ← sequence text
  let argCount ← word16
  let maxStack ← word16
  let flags ← flags
  let firstLine ← word32
  let lineTable ← sequence byte
  let code : Code :=
    { name, bytecode, consts, names, varnames, cellvars, freevars, argCount, maxStack, flags,
      firstLine, lineTable }
  match code.validate with
  | .ok () => pure code
  | .error _ => meaningless

/-- A constant; `constant` reads those it holds. -/
def constantWith (constant : Decoder Const) : Decoder Const := do
  match ← word32 with
  | 0 => pure .none
  | 1 => return .bool (← bool)
  | 2 => return .int (Int64.ofInt (← integer))
  | 3 => return .float (← float)
  | 4 => return .str (← text)
  | 5 => return .tuple (← sequence constant)
  | 6 => do
    let body ← codeWith constant
    return .code (← newIdentity) body
  | _ => meaningless

/-- A constant that nests no deeper than `fuel`. -/
def constant : Nat → Decoder Const
  | 0 => throw .endOfInput
  | fuel + 1 => constantWith (constant fuel)

/-- Code.  Each level of nesting takes up a byte, so constants nest no deeper than what is left to
read is long. -/
def code : Decoder CodeObject := do
  let body ← codeWith (constant ((← get).input.length + 1))
  return ⟨← newIdentity, body⟩

/-- A builtin function, by its number. -/
def builtin : Decoder Builtin := do
  match ← word32 with
  | 0 => pure .len
  | 1 => pure .range
  | _ => meaningless

/-- The kind of a block, by its number. -/
def blockKind : Decoder BlockKind := do
  match ← word32 with
  | 0 => pure .loop
  | 1 => pure .except
  | 2 => pure .cleanup
  | _ => meaningless

/-- A block.  Where its handler lies is checked when the frame is restored. -/
def block : Decoder Block := do
  let kind ← blockKind
  let handler ← word64
  let depth ← word64
  pure ⟨kind, handler, depth⟩

/-- The state of a generator, by its number. -/
def generatorState : Decoder GeneratorState := do
  match ← word32 with
  | 0 => pure .notStarted
  | 1 => pure .suspended
  | 2 => pure .running
  | 3 => pure .completed
  | 4 => pure .errored
  | _ => meaningless

/-! ### Mutable objects -/

/-- Makes an object of a kind, about which nothing is known yet. -/
def newObject (kind : ObjectKind) (h : Heap) : SharedRef × Heap :=
  match kind with
  | .mapping => let (r, h) := h.newNamespace {}; (r.shared, h)
  | .cell => let (r, h) := h.newCell none; (r.shared, h)
  | .iterator => let (r, h) := h.newIterator Iteration.placeholder; (r.shared, h)
  | .generator => let (r, h) := h.newGenerator Generator.placeholder; (r.shared, h)

/-- Makes an object for a number that was not met before. -/
def register (kind : ObjectKind) (number : Nat) : Decoder SharedRef :=
  modifyGet fun r =>
    let (ref, heap) := newObject kind r.heap
    (ref, { r with heap, known := (number, ref) :: r.known })

/-- A shared object of a kind.  `fill` reads the contents of a new one. -/
def sharedWith (kind : ObjectKind) (fill : Nat → Decoder Unit) : Decoder Nat := do
  let number ← word32
  match (← get).known.lookup number with
  | some ref =>
    if ← isPresent then throw .unskippable
    if ref.kind = kind then pure ref.index else meaningless
  | none =>
    let ref ← register kind number
    if ← isPresent then
      fill ref.index
      pure ref.index
    else meaningless

/-- Changes the heap. -/
def change (f : Heap → Heap) : Decoder Unit := modify fun r => { r with heap := f r.heap }

section

variable (value : Decoder Value)

/-- A namespace: names with their values. -/
def mapping : Decoder (Ref .mapping) := do
  let entry : Decoder (String × Value) := do
    let name ← text
    let v ← value
    pure (name, v)
  let i ← sharedWith .mapping fun i => do
    let entries ← sequence entry
    change fun h => h.setNamespace ⟨i⟩ (Namespace.ofList entries)
  pure ⟨i⟩

/-- A cell, which may be unbound. -/
def cell : Decoder (Ref .cell) := do
  let i ← sharedWith .cell fun i => do
    let v ← optional value
    change fun h => h.setCell ⟨i⟩ v
  pure ⟨i⟩

/-- How far an iterator has come.  A position in a text may be any number. -/
def iteration : Decoder Iteration := do
  match ← word32 with
  | 0 => do
    let items ← sequence value
    return .items items.toArray (← word64)
  | 1 => do
    let s ← text
    return .chars s (← word64)
  | 2 => do
    let next ← integer
    let stop ← integer
    let step ← integer
    pure (.range (Int64.ofInt next) (Int64.ofInt stop) (Int64.ofInt step))
  | _ => meaningless

/-- An iterator. -/
def iterator : Decoder (Ref .iterator) := do
  let i ← sharedWith .iterator fun i => do
    let s ← iteration value
    change fun h => h.setIterator ⟨i⟩ s
  pure ⟨i⟩

/-- The locals of a frame. -/
def recordedLocals : Decoder RecordedLocals := do
  match ← word32 with
  | 0 => return .fast (← sequence (optional value))
  | 1 => return .dict (← mapping value)
  | 2 => pure .globals
  | _ => meaningless

/-- A snapshot; `back` reads that of the caller. -/
def snapshotWith (back : Decoder Snapshot) : Decoder Snapshot := do
  let version ← word32
  let code ← code
  let back ← optional back
  let builtins ← mapping value
  let stack ← sequence (optional value)
  let blocks ← sequence block
  let pending ← optional raised
  let globals ← mapping value
  let lastOffset ← integer
  let finished ← bool
  let line ← word32
  let locals ← recordedLocals value
  let lower ← integer
  let upper ← integer
  let previous ← integer
  let cells ← sequence (cell value)
  pure
    { frame := { version, code, builtins, stack, blocks, pending, globals, lastOffset, finished,
                 line, locals, lower, upper, previous, cells }
      callers := match back with
        | some s => s.records
        | none => [] }

/-- The state of a generator that was read: one whose frame is missing, or was executing elsewhere,
cannot go on. -/
def generatorStateRead (state : GeneratorState) (frame : Option Frame) : GeneratorState :=
  match state, frame with
  | .running, _ => .errored
  | _, none => .errored
  | s, some _ => s

/-- A generator; `snapshot` reads its frame, which is restored at once. -/
def generator (snapshot : Decoder Snapshot) : Decoder (Ref .generator) := do
  let i ← sharedWith .generator fun i => do
    let state ← generatorState
    let name ← text
    let frame ← optional do
      match (← snapshot).restore with
      | .ok f => pure f
      | .error _ => meaningless
    change fun h => h.setGenerator ⟨i⟩ ⟨generatorStateRead state frame, name, frame⟩
  pure ⟨i⟩

/-- A function. -/
def function : Decoder Function := do
  let code ← code
  let globals ← mapping value
  let defaults ← sequence value
  let closure ← sequence (cell value)
  pure ⟨code, globals, defaults, closure⟩

/-- A reason for unwinding. -/
def unwinding : Decoder (Unwind Value) := do
  match ← word32 with
  | 0 => return .returning (← value)
  | 1 => pure .breaking
  | 2 => return .continuing (← word64)
  | 3 => return .raising (← raised)
  | _ => meaningless

/-- A value; `value` reads those it holds, and `snapshot` those of generators. -/
def valueWith (snapshot : Decoder Snapshot) : Decoder Value := do
  match ← word32 with
  | 0 => pure .none
  | 1 => return .bool (← bool)
  | 2 => return .int (Int64.ofInt (← integer))
  | 3 => return .float (← float)
  | 4 => do
    let s ← text
    return .str (← newIdentity) s
  | 5 => do
    let items ← sequence value
    return .tuple (← newIdentity) items
  | 6 => return .exceptionKind (← exceptionKind)
  | 7 => return .exception (← exception)
  | 8 => do
    let f ← function value
    return .function (← newIdentity) f
  | 9 => return .builtin (← builtin)
  | 10 => return .generator (← generator snapshot)
  | 11 => return .iterator (← iterator value)
  | 12 => return .cell (← cell value)
  | 13 => return .code (← code)
  | 14 => return .suspended (← unwinding value)
  | _ => meaningless

end

/-- Readers of values and of snapshots that nest no deeper than `fuel`. -/
def nested : Nat → Decoder Value × Decoder Snapshot
  | 0 => (throw .endOfInput, throw .endOfInput)
  | fuel + 1 =>
    let (value, snapshot) := nested fuel
    (valueWith value snapshot, snapshotWith value snapshot)

/-- A value.  Each level of nesting takes up a byte, so values nest no deeper than what is left to
read is long. -/
def value : Decoder Value := do (nested ((← get).input.length + 1)).1

/-- A snapshot. -/
def snapshot : Decoder Snapshot := do (nested ((← get).input.length + 1)).2

end Decoder

namespace Reader

/-- Reads one value from its binary form, in the session of the values read before. -/
def next (r : Reader) (bytes : List UInt8) : Except CodecError Value × Reader :=
  match Decoder.value.run { r with input := bytes } with
  | .ok v r => (.ok v, r)
  | .error e r => (.error e, r)

end Reader

/-- The snapshot, if it is of the version that can be restored. -/
def Snapshot.current? (s : Snapshot) : Except SnapshotError Snapshot :=
  if s.frame.version = snapshotVersion then .ok s else .error (.versionMismatch s.frame.version)

/-- Reads a snapshot from its binary form, in a session of its own.  Bytes after it are ignored. -/
def Heap.load (h : Heap) (bytes : List UInt8) : Except SnapshotError Snapshot × Heap :=
  match Decoder.snapshot.run { input := bytes, heap := h } with
  | .ok s r => (s.current?, r.heap)
  | .error e _ => (.error (.codec e), h)

end Resumable
