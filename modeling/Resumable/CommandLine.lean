import Resumable.Bytecode.Assembler
import Resumable.Encoding.Json
import Resumable.Machine.Run
import Resumable.Snapshot.Decode
import Resumable.Snapshot.Encode
import Resumable.Tracer.Basic

/-!
# The command line

`inspect` shows a snapshot as JSON, `resume` runs the frames of a snapshot, and `demo` writes the
snapshot of a small program.  `Command.plan` says what is done for given arguments: which file is
read or written, and what is printed then.  The time a run took is filled in by whoever carries the
plan out.
-/

namespace Resumable

/-- What a command prints, and whether it succeeded. -/
structure Report where
  success : Bool
  stdout : String := ""
  /-- The messages, given the text of the time the run took. -/
  stderr : String → String

/-- What is done for a command. -/
inductive Plan where
  | print (r : Report)
  /-- Reads a file; the error of one that cannot be read is a text. -/
  | read (path : String) (next : Except String (List UInt8) → Report)
  | write (path : String) (bytes : List UInt8) (next : Except String Unit → Report)

/-- The text of a time in nanoseconds, in the largest unit it fills, without trailing zeros. -/
def durationText (nanoseconds : Nat) : String :=
  let scaled (unit digits : Nat) (suffix : String) : String :=
    let fraction := toString (nanoseconds % unit)
    let padded := DecimalStyle.zeros (digits - fraction.length) ++ fraction
    let trimmed := String.ofList ((padded.toList.reverse.dropWhile (· == '0')).reverse)
    toString (nanoseconds / unit) ++ (if trimmed.isEmpty then "" else "." ++ trimmed) ++ suffix
  if 1000000000 ≤ nanoseconds then scaled 1000000000 9 "s"
  else if 1000000 ≤ nanoseconds then scaled 1000000 6 "ms"
  else if 1000 ≤ nanoseconds then scaled 1000 3 "µs"
  else toString nanoseconds ++ "ns"

namespace Command

/-- How the program is called. -/
def usage : String := "usage: framevm <inspect|resume|demo> <snapshot> [--trace]"

/-- A command that failed, after some messages. -/
def failed (lines : List String) : Report :=
  { success := false, stderr := fun _ => String.join (lines.map (· ++ "\n")) }

/-- Continues with the snapshot read from a file. -/
def withSnapshot (path : String) (next : List String → Snapshot → Heap → Report)
    (file : Except String (List UInt8)) : Report :=
  let reading := [s!"Reading snapshot: {path}"]
  match file with
  | .error e => failed (reading ++ [s!"Error reading {path}: {e}"])
  | .ok bytes =>
    match Heap.initial.load bytes with
    | (.error e, _) => failed (reading ++ [s!"Error decoding {path}: {e.message}"])
    | (.ok s, h) => next reading s h

/-- Shows a snapshot. -/
def inspect (messages : List String) (s : Snapshot) (h : Heap) : Report :=
  let lines := messages ++ [s!"{s.size} frame(s), innermost {s.frame.code.body.name}"]
  { success := true
    stdout := (h.snapshotDatum s).json 0 ++ "\n"
    stderr := fun _ => String.join (lines.map (· ++ "\n")) }

/-- A host that traces events and has no hooks. -/
def tracingHost : Host Tracer where
  observe h e t := t.observe h e
  onLine _ _ f h t := (f, h, t)

/-- The message about a run that ended. -/
def resultText (h : Heap) (elapsed : String) : Except Failure FrameExit → String
  | .ok (.returned v) => s!"success after: {elapsed}\n{h.text v}\n"
  | .ok (.yielded v) => s!"suspended after: {elapsed}, yielded {h.text v}\n"
  | .error e => s!"error after: {elapsed}\n{e.message}\n"

/-- Runs the frames of a snapshot, with or without a log. -/
def resume (trace : Bool) (messages : List String) (s : Snapshot) (h : Heap) : Report :=
  let before := String.join (messages.map (· ++ "\n"))
  match s.restoreChain with
  | .error e => failed (messages ++ [e.message])
  | .ok frames =>
    let tracer := if trace then Tracer.logging {} else .off
    match (Session.resumeChain tracingHost patience frames).run ⟨h, .unlimited, tracer⟩ with
    | none => failed messages
    | some (result, c) =>
      { success := result.isOk
        stderr := fun elapsed =>
          before ++ c.state.logged ++ resultText c.heap elapsed result }

/-- A module that adds up `range(10)`. -/
def demoProgram : Assembly Unit := do
  let total ← Assembly.name "total"
  let i ← Assembly.name "i"
  let range ← Assembly.name "range"
  Assembly.line 1
  Assembly.load (.int 0)
  Assembly.emitWith .storeName total
  Assembly.line 2
  Assembly.jump .setupLoop "end"
  Assembly.emitWith .loadName range
  Assembly.load (.int 10)
  Assembly.emitWith .callFunction 1
  Assembly.emit .getIter
  Assembly.bind "next"
  Assembly.jump .forIter "exhausted"
  Assembly.emitWith .storeName i
  Assembly.line 3
  Assembly.emitWith .loadName total
  Assembly.emitWith .loadName i
  Assembly.emit .binaryAdd
  Assembly.emitWith .storeName total
  Assembly.jump .jumpAbsolute "next"
  Assembly.bind "exhausted"
  Assembly.emit .popBlock
  Assembly.bind "end"
  Assembly.line 4
  Assembly.emitWith .loadName total
  Assembly.emit .returnValue

/-- What the demonstration is built from.  Its tables are small, so it does not give up. -/
def demoAssembler : Assembler :=
  ((demoProgram.run { name := "<demo>", firstLine := 1, flags := Flags.module }).get rfl).2

/-- The snapshot of a frame that is about to run the demonstration. -/
def demoBytes : Except Fault (List UInt8) := do
  let code ← demoAssembler.build
  let (globals, h) := Heap.initial.newNamespace {}
  let (f, h) ← Frame.create ⟨0, code⟩ globals Heap.defaultBuiltins [] h
  pure (h.dump ⟨f.capture, []⟩)

/-- The report on a demonstration that was written. -/
def demoReport (path : String) : Except String Unit → Report
  | .ok () => { success := true, stderr := fun _ => s!"wrote {path}\n" }
  | .error e => failed [s!"error: Error writing {path}: {e}"]

/-- What is done for given arguments. -/
def plan (args : List String) : Plan :=
  match args with
  | command :: path :: options =>
    match command with
    | "inspect" => .read path (withSnapshot path inspect)
    | "resume" => .read path (withSnapshot path (resume (options.contains "--trace")))
    | "demo" =>
      match demoBytes with
      | .ok bytes => .write path bytes (demoReport path)
      | .error e => .print (failed [s!"error: {e.message}"])
    | other => .print (failed [s!"unknown command: {other}", usage])
  | _ => .print (failed [usage])

end Command

end Resumable
