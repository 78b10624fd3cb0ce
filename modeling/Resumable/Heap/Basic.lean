import Resumable.Frame.Basic
import Resumable.Heap.Namespace
import Resumable.Heap.Iteration
import Resumable.Value.Text

/-!
# The heap

The heap holds the mutable objects: namespaces, cells, iterators and generators.  Each kind has a
`Store`, in which objects are numbered in the order of their creation and never removed.  The heap
also hands out the identities of immutable objects.

Reading what was just written gives it back, and leaves other objects as they were
(`Store.get_set_self`, `Store.get_set_ne`).
-/

namespace Resumable

/-- Objects numbered in the order of their creation. -/
structure Store (α : Type) where
  objects : Array α := #[]

namespace Store

variable {α : Type}

/-- The object with a number; a number not in use names the default object. -/
def get [Inhabited α] (s : Store α) (i : Nat) : α := s.objects.getD i default

/-- Replaces an object. -/
def set (s : Store α) (i : Nat) (a : α) : Store α := ⟨s.objects.setIfInBounds i a⟩

/-- Adds an object. -/
def add (s : Store α) (a : α) : Store α := ⟨s.objects.push a⟩

/-- The number of objects, which is the number of the next one. -/
def size (s : Store α) : Nat := s.objects.size

theorem get_set_self [Inhabited α] {s : Store α} {i : Nat} (h : i < s.size) (a : α) :
    (s.set i a).get i = a := by
  unfold size at h
  simp [get, set, Array.getD, h]

theorem get_set_ne [Inhabited α] {s : Store α} {i j : Nat} (h : j ≠ i) (a : α) :
    (s.set i a).get j = s.get j := by
  simp only [get, set, Array.getD_eq_getD_getElem?, Array.getElem?_setIfInBounds]
  rw [if_neg (Ne.symm h)]

theorem get_add_size [Inhabited α] (s : Store α) (a : α) : (s.add a).get s.size = a := by
  simp [get, add, size, Array.getD]

theorem get_add_lt [Inhabited α] {s : Store α} {i : Nat} (h : i < s.size) (a : α) :
    (s.add a).get i = s.get i := by
  unfold size at h
  simp [get, add, Array.getD, h, Nat.lt_succ_of_lt h, Array.getElem_push_lt h]

@[simp]
theorem size_set (s : Store α) (i : Nat) (a : α) : (s.set i a).size = s.size := by
  simp [set, size]

@[simp]
theorem size_add (s : Store α) (a : α) : (s.add a).size = s.size + 1 := by
  simp [add, size]

end Store

/-- How far a generator has come. -/
inductive GeneratorState where
  /-- Made, but never resumed. -/
  | notStarted
  /-- Waiting at a yield. -/
  | suspended
  /-- Its frame is executing. -/
  | running
  /-- Its frame returned. -/
  | completed
  /-- Its frame ended with a failure. -/
  | errored
  deriving DecidableEq, Repr

namespace GeneratorState

/-- A generator in this state never runs again. -/
def isTerminal : GeneratorState → Bool
  | completed | errored => true
  | _ => false

/-- The spelling of a state. -/
def name : GeneratorState → String
  | notStarted => "not_started"
  | suspended => "suspended"
  | running => "running"
  | completed => "completed"
  | errored => "errored"

end GeneratorState

/-- A generator and its suspended frame, which is missing while it executes. -/
structure Generator where
  state : GeneratorState
  name : String
  frame : Option Frame

/-- A generator about which nothing is known yet. -/
def Generator.placeholder : Generator := ⟨.completed, "", none⟩

instance : Inhabited Generator := ⟨Generator.placeholder⟩

/-- The mutable objects, and the next identity of an immutable one. -/
structure Heap where
  namespaces : Store Namespace := {}
  cells : Store (Option Value) := {}
  iterators : Store Iteration := {}
  generators : Store Generator := {}
  nextIdentity : Identity := 0

namespace Heap

/-- The namespace of builtins that frames use when they are given no other. -/
def defaultBuiltins : Ref .mapping := ⟨0⟩

/-- The heap that holds nothing but the default builtins. -/
def initial : Heap := { namespaces := ⟨#[Namespace.builtins]⟩ }

variable (h : Heap)

/-- The number of mutable objects. -/
def size : Nat := h.namespaces.size + h.cells.size + h.iterators.size + h.generators.size

/-! ### Reading -/

/-- The namespace with a number. -/
def namespaceAt (r : Ref .mapping) : Namespace := h.namespaces.get r.index

/-- The contents of a cell, if it is bound. -/
def cellAt (r : Ref .cell) : Option Value := h.cells.get r.index

/-- How far an iterator has come. -/
def iteratorAt (r : Ref .iterator) : Iteration := h.iterators.get r.index

/-- The generator with a number. -/
def generatorAt (r : Ref .generator) : Generator := h.generators.get r.index

/-- The value bound to a name in a namespace. -/
def lookup? (r : Ref .mapping) (name : String) : Option Value := (h.namespaceAt r).get? name

/-- The text of a value. -/
def text (v : Value) : String := v.textWith fun r => (h.generatorAt r).name

/-! ### Writing -/

/-- Replaces a namespace. -/
def setNamespace (r : Ref .mapping) (ns : Namespace) : Heap :=
  { h with namespaces := h.namespaces.set r.index ns }

/-- Binds a cell, or unbinds it. -/
def setCell (r : Ref .cell) (v : Option Value) : Heap :=
  { h with cells := h.cells.set r.index v }

/-- Moves an iterator. -/
def setIterator (r : Ref .iterator) (i : Iteration) : Heap :=
  { h with iterators := h.iterators.set r.index i }

/-- Replaces a generator. -/
def setGenerator (r : Ref .generator) (g : Generator) : Heap :=
  { h with generators := h.generators.set r.index g }

/-- Binds a name in a namespace. -/
def bindName (r : Ref .mapping) (name : String) (v : Value) : Heap :=
  h.setNamespace r ((h.namespaceAt r).set name v)

/-! ### Creating -/

/-- Makes a namespace. -/
def newNamespace (ns : Namespace) : Ref .mapping × Heap :=
  (⟨h.namespaces.size⟩, { h with namespaces := h.namespaces.add ns })

/-- Makes a cell. -/
def newCell (v : Option Value) : Ref .cell × Heap :=
  (⟨h.cells.size⟩, { h with cells := h.cells.add v })

/-- Makes an iterator. -/
def newIterator (i : Iteration) : Ref .iterator × Heap :=
  (⟨h.iterators.size⟩, { h with iterators := h.iterators.add i })

/-- Makes a generator. -/
def newGenerator (g : Generator) : Ref .generator × Heap :=
  (⟨h.generators.size⟩, { h with generators := h.generators.add g })

/-- An identity that no other object has. -/
def newIdentity : Identity × Heap :=
  (h.nextIdentity, { h with nextIdentity := h.nextIdentity + 1 })

/-- Empty cells, one for each element of a list. -/
def newCells : List String → Heap → List (Ref .cell) × Heap
  | [], h => ([], h)
  | _ :: rest, h =>
    let (r, h) := h.newCell none
    let (rs, h) := newCells rest h
    (r :: rs, h)

/-- Equality of namespaces: the same object, or equal mappings. -/
def namespaceEq (a b : Ref .mapping) : Bool := a == b || (h.namespaceAt a).eq (h.namespaceAt b)

/-- Equality of cells: the same object, or equal contents. -/
def cellEq (a b : Ref .cell) : Bool := a == b || Value.eqOption (h.cellAt a) (h.cellAt b)

end Heap

end Resumable
