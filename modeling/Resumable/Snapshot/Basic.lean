import Resumable.Heap.Basic
import Resumable.Frame.Line

/-!
# Snapshots

A `FrameRecord` holds everything that can change in a frame; a `Snapshot` is the record of a frame
together with those of its callers.  Mutable objects are not copied: a record names the same objects
as the frame.

`Frame.capture` makes a record and `FrameRecord.restore` a frame from it, which has no hook and no
caller.  A record that does not fit its code is refused.
-/

namespace Resumable

/-- The version of records that can be restored. -/
def snapshotVersion : Nat := 1

/-- Locals as they are recorded. -/
inductive RecordedLocals where
  | fast (slots : List (Option Value))
  | dict (names : Ref .mapping)
  /-- The locals are the globals. -/
  | globals
  deriving Inhabited

/-- Everything that can change in a frame. -/
structure FrameRecord where
  version : Nat := snapshotVersion
  code : CodeObject
  builtins : Ref .mapping
  /-- The value stack, the bottom value first; a frame is never restored with one missing. -/
  stack : List (Option Value)
  /-- Live blocks, outermost first. -/
  blocks : List Block
  pending : Option Raised
  globals : Ref .mapping
  /-- The offset of the instruction executed last; `-1` before the first one. -/
  lastOffset : Int
  finished : Bool
  line : Nat
  locals : RecordedLocals
  lower : Int
  upper : Int
  previous : Int
  cells : List (Ref .cell)
  deriving Inhabited

/-- A record of a frame, and those of its callers, innermost first. -/
structure Snapshot where
  frame : FrameRecord
  callers : List FrameRecord := []
  deriving Inhabited

/-- What can be wrong with the binary form of data. -/
inductive CodecError where
  | endOfInput
  | badVarint
  | badBool
  | badOption
  | badText
  /-- The form can be read, but means nothing. -/
  | meaningless
  /-- A part that had to be skipped without knowing what it holds. -/
  | unskippable
  deriving DecidableEq, Repr

/-- The wording of what is wrong with a binary form. -/
def CodecError.message : CodecError → String
  | endOfInput => "Hit the end of buffer, expected more data"
  | badVarint => "Found a varint that didn't terminate. Is the usize too big for this platform?"
  | badBool => "Found a bool that wasn't 0 or 1"
  | badOption => "Found an Option discriminant that wasn't 0 or 1"
  | badText => "Tried to parse invalid utf-8"
  | meaningless => "Serde Deserialization Error"
  | unskippable => "This is a feature that PostCard will never implement"

/-- Why a snapshot was refused. -/
inductive SnapshotError where
  | versionMismatch (found : Nat)
  /-- No instruction starts at the offset executed last. -/
  | offsetOutOfRange (offset : Int)
  | missingStackSlot (index : Nat)
  | stackOverflow (capacity : Nat)
  /-- A block lies above the stack or below an outer block, or its handler at no instruction. -/
  | badBlock (index : Nat)
  /-- The locals are not of the kind, or the number, that the code has. -/
  | localsMismatch
  | cellsMismatch (expected found : Nat)
  | invalidFrame (fault : Fault)
  | codec (error : CodecError)
  deriving DecidableEq, Repr

/-- The name of the kind of error. -/
def SnapshotError.name : SnapshotError → String
  | versionMismatch _ => "VersionMismatch"
  | offsetOutOfRange _ => "OffsetOutOfRange"
  | missingStackSlot _ => "MissingStackSlot"
  | stackOverflow _ => "StackOverflow"
  | badBlock _ => "BadBlock"
  | localsMismatch => "LocalsMismatch"
  | cellsMismatch _ _ => "CellsMismatch"
  | invalidFrame _ => "InvalidFrame"
  | codec _ => "Codec"

/-- The wording of a refusal. -/
def SnapshotError.message : SnapshotError → String
  | versionMismatch v =>
    s!"snapshot version {v} is not supported (expected {snapshotVersion})"
  | offsetOutOfRange o => s!"last instruction offset {o} is out of range"
  | missingStackSlot i => s!"value stack slot {i} is missing"
  | stackOverflow n => s!"value stack exceeds capacity {n}"
  | badBlock i => s!"block {i} is inconsistent with the frame"
  | localsMismatch => "locals do not match the code object"
  | cellsMismatch e f => s!"expected {e} cells, found {f}"
  | invalidFrame f => f.message
  | codec e => "snapshot encoding failed: " ++ e.message

/-! ### Capturing -/

/-- The record of a frame. -/
def Frame.capture (f : Frame) : FrameRecord where
  code := f.code
  builtins := f.builtins
  stack := f.stack.toList.map some
  blocks := f.blocks.reverse
  pending := f.pending
  globals := f.globals
  lastOffset := match f.lastOffset with
    | some o => o
    | none => -1
  finished := f.finished
  line := f.currentLine
  locals := match f.locals with
    | .fast slots => .fast slots
    | .dict r => if r = f.globals then .globals else .dict r
  lower := f.trace.lower
  upper := f.trace.upper
  previous := f.trace.previous
  cells := f.cells

/-! ### Restoring -/

namespace FrameRecord

variable (r : FrameRecord)

/-- The offset executed last, if it is one at which an instruction starts. -/
def offset? : Except SnapshotError (Option Nat) :=
  if r.lastOffset = -1 then .ok none
  else if 0 ≤ r.lastOffset ∧ r.code.body.isBoundary r.lastOffset.toNat then
    .ok (some r.lastOffset.toNat)
  else .error (.offsetOutOfRange r.lastOffset)

/-- The value stack of the restored frame. -/
def stack? : Except SnapshotError OperandStack :=
  match (OperandStack.empty r.code.body.maxStack).restore r.stack with
  | .ok s => .ok s
  | .error (.missingStackSlot i) => .error (.missingStackSlot i)
  | .error (.stackOverflow n) => .error (.stackOverflow n)
  | .error e => .error (.invalidFrame e)

/-- The first block whose handler is no instruction, or whose depth lies above the stack or below
the depth of the block around it. -/
def badBlock? (code : Code) (stackDepth : Nat) : List Block → Nat → Nat → Option Nat
  | [], _, _ => none
  | b :: inner, index, least =>
    if code.isBoundary b.handler ∧ b.depth ≤ stackDepth ∧ least ≤ b.depth then
      badBlock? code stackDepth inner (index + 1) b.depth
    else some index

/-- The locals of the restored frame. -/
def locals? : Except SnapshotError Locals :=
  let flags := r.code.body.flags
  match r.locals, flags.optimized, flags.newLocals with
  | .fast slots, true, _ =>
    if slots.length = r.code.body.varnames.length then .ok (.fast slots)
    else .error .localsMismatch
  | .dict names, false, true => .ok (.dict names)
  | .globals, false, false => .ok (.dict r.globals)
  | _, _, _ => .error .localsMismatch

/-- The frame that was recorded. -/
def restore : Except SnapshotError Frame := do
  let body := r.code.body
  if r.version ≠ snapshotVersion then throw (.versionMismatch r.version)
  if r.cells.length ≠ body.cellCount then
    throw (.cellsMismatch body.cellCount r.cells.length)
  let lastOffset ← r.offset?
  let closure := r.cells.drop body.cellvars.length
  if closure.length ≠ body.freevars.length then
    throw (.invalidFrame (.invalidCode
      (.closureMismatch body.name body.freevars.length closure.length)))
  let stack ← r.stack?
  match badBlock? body r.stack.length r.blocks 0 0 with
  | some i => throw (.badBlock i)
  | none =>
    let locals ← r.locals?
    pure
      { code := r.code, globals := r.globals, builtins := r.builtins, locals, cells := r.cells,
        stack, blocks := r.blocks.reverse, lastOffset, pending := r.pending,
        finished := r.finished,
        trace := { line := r.line, lower := r.lower, upper := r.upper, previous := r.previous } }

end FrameRecord

namespace Snapshot

variable (s : Snapshot)

/-- The records of the frame and its callers, innermost first. -/
def records : List FrameRecord := s.frame :: s.callers

/-- The number of frames. -/
def size : Nat := s.records.length

/-- The innermost frame. -/
def restore : Except SnapshotError Frame := s.frame.restore

/-- All frames, innermost first, each with the position of its caller counted from the outermost. -/
def restoreChain : Except SnapshotError (List Frame) := do
  let frames ← s.records.mapM FrameRecord.restore
  pure <| frames.mapIdx fun i f =>
    let position := frames.length - 1 - i
    { f with back := if position = 0 then none else some (position - 1) }

end Snapshot

/-! ### Equality -/

/-- Equality of lists by an equality of their items. -/
def eqListBy {α : Type} (eq : α → α → Bool) (as bs : List α) : Bool :=
  as.length == bs.length && (as.zip bs).all fun (a, b) => eq a b

namespace Heap

variable (h : Heap)

/-- Equality of recorded locals. -/
def recordedLocalsEq : RecordedLocals → RecordedLocals → Bool
  | .fast a, .fast b => eqListBy Value.eqOption a b
  | .dict a, .dict b => h.namespaceEq a b
  | .globals, .globals => true
  | _, _ => false

/-- Equality of records: of all fields by contents, with mutable objects looked into once. -/
def recordEq (a b : FrameRecord) : Bool :=
  a.version == b.version && a.code.body.eq b.code.body && h.namespaceEq a.builtins b.builtins &&
    eqListBy Value.eqOption a.stack b.stack && a.blocks == b.blocks && a.pending == b.pending &&
    h.namespaceEq a.globals b.globals && a.lastOffset == b.lastOffset &&
    a.finished == b.finished && a.line == b.line && h.recordedLocalsEq a.locals b.locals &&
    a.lower == b.lower && a.upper == b.upper && a.previous == b.previous &&
    eqListBy h.cellEq a.cells b.cells

/-- Equality of snapshots. -/
def snapshotEq (a b : Snapshot) : Bool := eqListBy h.recordEq a.records b.records

end Heap

end Resumable
