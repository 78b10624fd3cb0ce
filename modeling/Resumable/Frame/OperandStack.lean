import Resumable.Value.Basic
import Resumable.Failure.Fault

/-!
# Value stacks

An `OperandStack` is the bounded stack of values of a frame, kept with its top first and together
with its depth.  Its capacity is fixed; pushing beyond it or popping below the bottom is a fault.

Single values are pushed and popped as a whole or not at all.  Operations on many values
(`dupN`, `pushReversed`) push one after the other and keep what fitted when the stack is full.
`OperandStack.apply` performs any operation, given as data.
-/

namespace Resumable

/-- A bounded stack of values. -/
structure OperandStack where
  /-- Live values, the top one first. -/
  slots : List Value
  capacity : Nat
  /-- The number of live values. -/
  depth : Nat
  depth_eq : depth = slots.length

namespace OperandStack

/-- A stack without values. -/
def empty (capacity : Nat) : OperandStack := ⟨[], capacity, 0, rfl⟩

instance : Inhabited OperandStack := ⟨empty 0⟩

variable (s : OperandStack)

/-- How many more values fit. -/
def room : Nat := s.capacity - s.depth

/-- The live values, the bottom one first. -/
def toList : List Value := s.slots.reverse

/-- Puts a value on top. -/
def push (v : Value) : Except Fault OperandStack :=
  if s.capacity ≤ s.depth then .error (.stackOverflow s.capacity)
  else
    .ok { s with
      slots := v :: s.slots
      depth := s.depth + 1
      depth_eq := by rw [s.depth_eq, List.length_cons] }

/-- Takes the top value. -/
def pop : Except Fault (Value × OperandStack) :=
  match h : s.slots with
  | [] => .error .stackUnderflow
  | v :: rest =>
    .ok (v, { s with
      slots := rest
      depth := s.depth - 1
      depth_eq := by rw [s.depth_eq, h, List.length_cons, Nat.add_sub_cancel] })

/-- The value `n` below the top. -/
def peek (n : Nat) : Except Fault Value :=
  match s.slots[n]? with
  | none => .error .stackUnderflow
  | some v => .ok v

/-- Replaces the value `n` below the top. -/
def setTop (n : Nat) (v : Value) : Except Fault OperandStack :=
  if n < s.depth then
    .ok { s with slots := s.slots.set n v, depth_eq := by rw [s.depth_eq, List.length_set] }
  else .error .stackUnderflow

/-- The top `n` values, the lowest first. -/
def peekN (n : Nat) : Except Fault (List Value) :=
  if n ≤ s.depth then .ok (s.slots.take n).reverse else .error .stackUnderflow

/-- The stack without its top `n` values. -/
def without (n : Nat) : OperandStack :=
  { s with
    slots := s.slots.drop n
    depth := s.depth - n
    depth_eq := by rw [s.depth_eq, List.length_drop] }

/-- Removes the top `n` values. -/
def dropN (n : Nat) : Except Fault OperandStack :=
  if n ≤ s.depth then .ok (s.without n) else .error .stackUnderflow

/-- Takes the top `n` values, the lowest first. -/
def popN (n : Nat) : Except Fault (List Value × OperandStack) := do
  let vs ← s.peekN n
  let s ← s.dropN n
  pure (vs, s)

/-- Pushes values one after the other, until one does not fit. -/
def pushAll : OperandStack → List Value → Except Fault Unit × OperandStack
  | s, [] => (.ok (), s)
  | s, v :: vs =>
    match s.push v with
    | .ok s => pushAll s vs
    | .error e => (.error e, s)

/-- Pushes copies of the top `n` values, in the same order. -/
def dupN (n : Nat) : Except Fault Unit × OperandStack :=
  match s.peekN n with
  | .ok vs => s.pushAll vs
  | .error e => (.error e, s)

/-- Pushes values so that the first one ends up on top. -/
def pushReversed (vs : List Value) : Except Fault Unit × OperandStack := s.pushAll vs.reverse

/-- Drops values until the stack is no deeper than `depth`. -/
def truncate (depth : Nat) : OperandStack := s.without (s.depth - depth)

/-- The values of a list without gaps, or the position of its first gap. -/
def filled : List (Option Value) → Nat → Except Fault (List Value)
  | [], _ => .ok []
  | none :: _, index => .error (.missingStackSlot index)
  | some v :: rest, index => (filled rest (index + 1)).map (v :: ·)

/-- Replaces all values by the given ones, the bottom one first. -/
def restore (slots : List (Option Value)) : Except Fault OperandStack :=
  if s.capacity < slots.length then .error (.stackOverflow s.capacity)
  else (filled slots 0).map fun vs => ⟨vs.reverse, s.capacity, vs.reverse.length, rfl⟩

/-- An operation on a stack. -/
inductive Operation where
  | push (v : Value)
  | pop
  | peek (n : Nat)
  | setTop (n : Nat) (v : Value)
  | popN (n : Nat)
  | peekN (n : Nat)
  | dropN (n : Nat)
  | dupN (n : Nat)
  | pushReversed (vs : List Value)
  | truncate (depth : Nat)
  | save
  | restore (slots : List (Option Value))

/-- What an operation on a stack returns. -/
inductive Answer where
  | done
  | value (v : Value)
  | values (vs : List Value)

/-- The outcome of an operation that returns nothing and leaves the stack as it was if it fails. -/
def orKeep (r : Except Fault OperandStack) : Except Fault Answer × OperandStack :=
  match r with
  | .ok s' => (.ok .done, s')
  | .error e => (.error e, s)

/-- Performs an operation. -/
def apply (op : Operation) : Except Fault Answer × OperandStack :=
  match op with
  | .push v => s.orKeep (s.push v)
  | .pop =>
    match s.pop with
    | .ok (v, s') => (.ok (.value v), s')
    | .error e => (.error e, s)
  | .peek n => ((s.peek n).map .value, s)
  | .setTop n v => s.orKeep (s.setTop n v)
  | .popN n =>
    match s.popN n with
    | .ok (vs, s') => (.ok (.values vs), s')
    | .error e => (.error e, s)
  | .peekN n => ((s.peekN n).map .values, s)
  | .dropN n => s.orKeep (s.dropN n)
  | .dupN n => let (r, s') := s.dupN n; (r.map fun _ => .done, s')
  | .pushReversed vs => let (r, s') := s.pushReversed vs; (r.map fun _ => .done, s')
  | .truncate d => (.ok .done, s.truncate d)
  | .save => (.ok (.values s.toList), s)
  | .restore slots => s.orKeep (s.restore slots)

@[simp]
theorem length_toList : s.toList.length = s.depth := by
  rw [toList, List.length_reverse, s.depth_eq]

@[simp]
theorem depth_truncate (d : Nat) : (s.truncate d).depth = min s.depth d := by
  simp only [truncate, without]
  omega

theorem slots_push {s t : OperandStack} {v : Value} (h : s.push v = .ok t) :
    t.slots = v :: s.slots := by
  unfold push at h
  split at h <;> cases h
  rfl

theorem depth_push {s t : OperandStack} {v : Value} (h : s.push v = .ok t) :
    t.depth = s.depth + 1 := by
  unfold push at h
  split at h <;> cases h
  rfl

end OperandStack

end Resumable
