import Resumable.Heap.Basic

/-!
# Operations on values

An operation on values reads and extends the heap and either gives a value or raises an exception;
it never sees a frame.  One that raises leaves the heap as it was.
-/

namespace Resumable

/-- The word with a given value, which must fit. -/
def narrowed (i : Int) : Except Raised Int64 :=
  match narrow? i with
  | some w => .ok w
  | none => .error Raised.overflow

theorem narrowed_eq_ok_iff {i : Int} {w : Int64} : narrowed i = .ok w ↔ w.toInt = i := by
  rw [← narrow?_eq_some_iff]
  unfold narrowed
  cases narrow? i <;> simp

theorem narrowed_eq_error_iff {i : Int} {e : Raised} :
    narrowed i = .error e ↔ ¬FitsWord i ∧ e = Raised.overflow := by
  rw [← narrow?_eq_none_iff]
  unfold narrowed
  cases narrow? i <;> simp [eq_comm]

/-- A computation with the heap that may raise an exception. -/
abbrev Operation := StateT Heap (Except Raised)

namespace Operation

/-- Raises an exception. -/
def raise {α : Type} (e : Raised) : Operation α := throw e

/-- The operation raises an exception of a class. -/
def Raises {α : Type} (x : Operation α) (kind : ExceptionKind) (h : Heap) : Prop :=
  ∃ e, x.run h = .error e ∧ e.exception.kind = kind

/-- Raises the exception for a value of the wrong type. -/
def typeError {α : Type} (message : String) : Operation α := throw (Raised.typeError message)

/-- A new string. -/
def str (text : String) : Operation Value := do
  let i ← modifyGet Heap.newIdentity
  pure (.str i text)

/-- A new tuple. -/
def tuple (items : List Value) : Operation Value := do
  let i ← modifyGet Heap.newIdentity
  pure (.tuple i items)

/-- A new iterator. -/
def iterator (i : Iteration) : Operation Value := do
  let r ← modifyGet fun h => h.newIterator i
  pure (.iterator r)

/-- The text of a value. -/
def text (v : Value) : Operation String := return (← get).text v

end Operation

end Resumable
