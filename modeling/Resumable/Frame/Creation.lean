import Resumable.Heap.Basic

/-!
# Making frames

A new frame stands before its first instruction.  The flags of its code decide where its locals
are: in slots, in a mapping of its own, or in the globals.  Its cells are fresh for the cell
variables, and those of the closure for the free variables.
-/

namespace Resumable

namespace Frame

/-- The locals of a new frame. -/
def initialLocals (code : Code) (globals : Ref .mapping) (h : Heap) : Locals × Heap :=
  if code.flags.optimized then (.fast (List.replicate code.varnames.length none), h)
  else if code.flags.newLocals then
    let (r, h) := h.newNamespace {}
    (.dict r, h)
  else (.dict globals, h)

/-- A frame that is about to execute the first instruction of `code`. -/
def create (code : CodeObject) (globals builtins : Ref .mapping) (closure : List (Ref .cell))
    (h : Heap) : Except Fault (Frame × Heap) :=
  let body := code.body
  if closure.length ≠ body.freevars.length then
    .error (.invalidCode (.closureMismatch body.name body.freevars.length closure.length))
  else
    let (locals, h) := initialLocals body globals h
    let (cells, h) := Heap.newCells body.cellvars h
    .ok ({ code, globals, builtins, locals, cells := cells ++ closure,
           stack := .empty body.maxStack, trace := { line := body.firstLine } }, h)

/-- Slots whose leading ones are bound to the arguments. -/
def bindSlots : List Value → List (Option Value) → List (Option Value)
  | v :: args, _ :: slots => some v :: bindSlots args slots
  | [], slots => slots
  | _, [] => []

/-- Copies parameters that are also cell variables into their cells. -/
def fillCells (parameters : List String) (slots : List (Option Value)) :
    List (Ref .cell) → List String → Heap → Heap
  | cell :: cells, name :: names, h =>
    let h := match parameters.idxOf? name with
      | some i => h.setCell cell (slots[i]?).join
      | none => h
    fillCells parameters slots cells names h
  | _, _, h => h

/-- Binds arguments to the leading local slots and to the cells of the parameters. -/
def bindArguments (f : Frame) (args : List Value) (h : Heap) : Except Fault (Frame × Heap) :=
  match f.locals with
  | .dict _ => .error (.invalidCode (.scopeWithoutSlots f.name))
  | .fast slots =>
    if slots.length < args.length then .error (.scopeTooLong slots.length args.length)
    else
      let slots := bindSlots args slots
      .ok ({ f with locals := .fast slots },
        fillCells f.code.body.parameters slots f.cells f.code.body.cellvars h)

end Frame

end Resumable
