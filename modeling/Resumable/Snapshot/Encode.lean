import Resumable.Snapshot.Basic
import Resumable.Encoding.Binary

/-!
# Encoding values and snapshots

Values and snapshots become data (`Datum`).  Mutable objects may be shared and may refer to each
other in circles.  Within one session they are numbered in the order in which they are met: the
first time an object stands with its contents, after that with its number alone.

A session is the list of the objects met so far; the number of an object is its position.
-/

namespace Resumable

/-- A computation that numbers the objects it meets. -/
abbrev Encoder := StateM (List SharedRef)

/-- The data of each element. -/
def Encoder.all {α : Type} (f : α → Encoder Datum) (as : List α) : Encoder (List Datum) :=
  as.mapM f

/-- The data of something that may be missing. -/
def Encoder.optional {α : Type} (f : α → Encoder Datum) : Option α → Encoder Datum
  | some a => return .present (← f a)
  | none => pure .absent

/-! ### What is not shared -/

/-- The data of the type of an exception: its number and its name. -/
def ExceptionKind.datum (k : ExceptionKind) : Datum := .constant k.number k.name

/-- The data of an exception. -/
def Exception.datum (e : Exception) : Datum :=
  .record [("exc_type", e.kind.datum), ("message", .optional (e.message.map .text))]

/-- The data of an entry of a traceback. -/
def TracebackEntry.datum (t : TracebackEntry) : Datum :=
  .record [("code_name", .text t.code), ("line", .natural t.line), ("offset", .natural t.offset)]

/-- The data of an exception with its traceback. -/
def Raised.datum (e : Raised) : Datum :=
  .record [("exc", e.exception.datum), ("traceback", .sequence (e.traceback.map (·.datum)))]

/-- The data of the flags of code. -/
def Flags.datum (f : Flags) : Datum :=
  .record [("optimized", .bool f.optimized), ("new_locals", .bool f.newLocals),
    ("generator", .bool f.generator), ("accepts_resume_value", .bool f.acceptsInput)]

/-- The data of code, given that of its constants. -/
def CodeOf.datumWith {κ : Type} (c : CodeOf κ) (consts : List Datum) : Datum :=
  .record [("name", .text c.name), ("bytecode", .bytesOf c.bytecode), ("consts", .sequence consts),
    ("names", .texts c.names), ("varnames", .texts c.varnames), ("cellvars", .texts c.cellvars),
    ("freevars", .texts c.freevars), ("arg_count", .natural c.argCount),
    ("max_stack_size", .natural c.maxStack), ("flags", c.flags.datum),
    ("first_line", .natural c.firstLine), ("line_table", .bytesOf c.lineTable)]

mutual

/-- The data of a constant. -/
def Const.datum : Const → Datum
  | .none => .constant 0 "None"
  | .bool b => .variant 1 "Bool" (.bool b)
  | .int i => .variant 2 "Int" (.integer i.toInt)
  | .float x => .variant 3 "Float" (.float x)
  | .str s => .variant 4 "Str" (.text s)
  | .tuple items => .variant 5 "Tuple" (.sequence (Const.data items))
  | .code _ body => .variant 6 "Code" (body.datumWith (Const.data body.consts))

/-- The data of constants. -/
def Const.data : List Const → List Datum
  | [] => []
  | c :: rest => Const.datum c :: Const.data rest

end

/-- The data of code. -/
def Code.datum (c : Code) : Datum := c.datumWith (Const.data c.consts)

/-- The data of the kind of a block: its number and its name. -/
def BlockKind.datum : BlockKind → Datum
  | loop => .constant 0 loop.name
  | except => .constant 1 except.name
  | cleanup => .constant 2 cleanup.name

/-- The data of a block. -/
def Block.datum (b : Block) : Datum :=
  .record [("kind", b.kind.datum), ("handler", .natural b.handler), ("depth", .natural b.depth)]

/-- The data of a builtin function. -/
def Builtin.datum : Builtin → Datum
  | len => .constant 0 "Len"
  | range => .constant 1 "Range"

/-- The data of the state of a generator. -/
def GeneratorState.datum : GeneratorState → Datum
  | notStarted => .constant 0 "NotStarted"
  | suspended => .constant 1 "Suspended"
  | running => .constant 2 "Running"
  | completed => .constant 3 "Completed"
  | errored => .constant 4 "Errored"

/-! ### Values -/

section

variable (shared : SharedRef → Encoder Datum)

mutual

/-- The data of a value, given that of the objects it names. -/
def Value.datum : Value → Encoder Datum
  | .none => pure (.constant 0 "None")
  | .bool b => pure (.variant 1 "Bool" (.bool b))
  | .int i => pure (.variant 2 "Int" (.integer i.toInt))
  | .float x => pure (.variant 3 "Float" (.float x))
  | .str _ s => pure (.variant 4 "Str" (.text s))
  | .tuple _ items => return .variant 5 "Tuple" (.sequence (← Value.data items))
  | .exceptionKind k => pure (.variant 6 "ExcType" k.datum)
  | .exception e => pure (.variant 7 "Exception" e.datum)
  | .function _ f => do
    let globals ← shared f.globals.shared
    let defaults ← Value.data f.defaults
    let closure ← Encoder.all (fun r => shared r.shared) f.closure
    pure (.variant 8 "Function" (.record [("code", Code.datum f.code.body), ("globals", globals),
      ("defaults", .sequence defaults), ("closure", .sequence closure)]))
  | .builtin b => pure (.variant 9 "Builtin" b.datum)
  | .generator r => return .variant 10 "Generator" (← shared r.shared)
  | .iterator r => return .variant 11 "Iterator" (← shared r.shared)
  | .cell r => return .variant 12 "Cell" (← shared r.shared)
  | .code c => pure (.variant 13 "Code" (Code.datum c.body))
  | .suspended u => return .variant 14 "Unroller" (← Value.unwindDatum u)

/-- The data of values. -/
def Value.data : List Value → Encoder (List Datum)
  | [] => pure []
  | v :: rest => do
    let d ← Value.datum v
    let ds ← Value.data rest
    pure (d :: ds)

/-- The data of a reason for unwinding. -/
def Value.unwindDatum : Unwind Value → Encoder Datum
  | .returning v => return .variant 0 "Return" (← Value.datum v)
  | .breaking => pure (.constant 1 "Break")
  | .continuing t => pure (.variant 2 "Continue" (.natural t))
  | .raising e => pure (.variant 3 "Exception" e.datum)

end

/-- The data of named values. -/
def Namespace.datum (ns : Namespace) : Encoder Datum := do
  let ds ← ns.entries.mapM fun (name, v) => return (name, ← Value.datum shared v)
  pure (.mapping ds)

/-- The data of how far an iterator has come. -/
def Iteration.datum : Iteration → Encoder Datum
  | .items vs i => do
    let ds ← Value.data shared vs.toList
    pure (.variant 0 "Items" (.record [("items", .sequence ds), ("index", .natural i)]))
  | .chars s i => pure (.variant 1 "Chars" (.record [("text", .text s), ("index", .natural i)]))
  | .range next stop step =>
    pure (.variant 2 "Range" (.record [("next", .integer next.toInt), ("stop", .integer stop.toInt),
      ("step", .integer step.toInt)]))

/-- The data of values that may be missing. -/
def optionalValues (vs : List (Option Value)) : Encoder Datum :=
  return .sequence (← Encoder.all (Encoder.optional (Value.datum shared)) vs)

/-- The data of the locals of a frame. -/
def RecordedLocals.datum : RecordedLocals → Encoder Datum
  | .fast slots => return .variant 0 "Fast" (← optionalValues shared slots)
  | .dict r => return .variant 1 "Dict" (← shared r.shared)
  | .globals => pure (.constant 2 "Globals")

/-- The data of a record, given that of its callers. -/
def FrameRecord.datum (r : FrameRecord) (back : Datum) : Encoder Datum := do
  let builtins ← shared r.builtins.shared
  let stack ← optionalValues shared r.stack
  let globals ← shared r.globals.shared
  let locals ← RecordedLocals.datum shared r.locals
  let cells ← Encoder.all (fun c => shared c.shared) r.cells
  pure (.record [("version", .natural r.version), ("code", Code.datum r.code.body), ("back", back),
    ("builtins", builtins), ("value_stack", stack),
    ("blocks", .sequence (r.blocks.map (·.datum))),
    ("pending_exception", .optional (r.pending.map (·.datum))), ("globals", globals),
    ("last_instr", .integer r.lastOffset), ("finished", .bool r.finished),
    ("line", .natural r.line), ("locals", locals), ("instr_lb", .integer r.lower),
    ("instr_ub", .integer r.upper), ("instr_prev", .integer r.previous),
    ("cells", .sequence cells)])

/-- The data of records, those of the callers being part of that of the innermost. -/
def FrameRecord.chainDatum : List FrameRecord → Encoder Datum
  | [] => pure .absent
  | r :: callers => do
    let back ← chainDatum callers
    return .present (← FrameRecord.datum shared r back)

/-- The data of a snapshot, given that of the objects it names. -/
def Snapshot.datumWith (s : Snapshot) : Encoder Datum := do
  let back ← FrameRecord.chainDatum shared s.callers
  FrameRecord.datum shared s.frame back

/-- The data of a generator; its frame stands as a snapshot without callers. -/
def Generator.datum (g : Generator) : Encoder Datum := do
  let frame ← Encoder.optional (fun f => Snapshot.datumWith shared ⟨Frame.capture f, []⟩) g.frame
  pure (.record [("state", g.state.datum), ("name", .text g.name), ("frame", frame)])

end

/-! ### Mutable objects -/

namespace Heap

variable (h : Heap)

/-- The data of the contents of an object. -/
def contentsDatum (shared : SharedRef → Encoder Datum) (r : SharedRef) : Encoder Datum :=
  match r.kind with
  | .mapping => Namespace.datum shared (h.namespaceAt ⟨r.index⟩)
  | .cell => Encoder.optional (Value.datum shared) (h.cellAt ⟨r.index⟩)
  | .iterator => Iteration.datum shared (h.iteratorAt ⟨r.index⟩)
  | .generator => Generator.datum shared (h.generatorAt ⟨r.index⟩)

/-- The data of an object: its number, and its contents the first time it is met.  Objects nest no
deeper than there are objects, so with that much fuel all are written. -/
def sharedDatum : Nat → SharedRef → Encoder Datum
  | fuel, r => do
    let met ← get
    match met.idxOf? r with
    | some i => pure (.tuple [.natural i, .absent])
    | none =>
      set (met ++ [r])
      match fuel with
      | 0 => pure (.tuple [.natural met.length, .absent])
      | fuel + 1 =>
        let d ← h.contentsDatum (sharedDatum fuel) r
        pure (.tuple [.natural met.length, .present d])

/-- The data of an object in a heap. -/
def refDatum (r : SharedRef) : Encoder Datum := h.sharedDatum (h.size + 1) r

/-- The data of a value, within a session. -/
def valueDatum (v : Value) : Encoder Datum := v.datum h.refDatum

/-- The data of a value outside a session: each object that it names has a session of its own. -/
def separateDatum (v : Value) : Datum :=
  ((v.datum fun r => pure ((h.refDatum r).run []).1).run []).1

/-- The data of a snapshot, in a session of its own. -/
def snapshotDatum (s : Snapshot) : Datum := ((s.datumWith h.refDatum).run []).1

/-- The binary form of a snapshot. -/
def dump (s : Snapshot) : List UInt8 := (h.snapshotDatum s).bytes

end Heap

end Resumable
