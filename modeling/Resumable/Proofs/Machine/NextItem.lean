import Resumable.Proofs.Machine.Computations

/-!
# Calls for the next item

A loop draws from an iterator by calls for its next item (`Exec.run_forIter`).  `Heap.Supplies` says
what any number of calls give: so many items, and nothing after them.  It is shown from the course
of the iteration, its states after each item (`Iteration.Course.supplies`).
-/

namespace Resumable

namespace Heap

variable {r : Ref .iterator} {h : Heap}

/-- What calls for the next item of an iterator give, one after the other.  Between them anything
may happen to the heap that leaves the iterator alone. -/
inductive Calls (r : Ref .iterator) : Heap → List (Except Nat (Option Value)) → Prop
  | done (h : Heap) : Calls r h []
  | call {h h' : Heap} {xs : List (Except Nat (Option Value))}
      (hs : h.iterators.size ≤ h'.iterators.size) (hi : h'.iteratorAt r = h.iteratorAt r)
      (hc : Calls r (h'.nextItem r).2 xs) : Calls r h ((h'.nextItem r).1 :: xs)

/-- Calls for the next item of an iterator give `n` items, the one at position `k` being an
`Item k`, and nothing after them. -/
def Supplies (r : Ref .iterator) (n : Nat) (Item : Nat → Value → Prop) (h : Heap) : Prop :=
  ∀ xs, h.Calls r xs → ∀ k x, xs[k]? = some x →
    (k < n → ∃ v, x = .ok (some v) ∧ Item k v) ∧ (n ≤ k → x = .ok none)

theorem exists_calls (h : Heap) (r : Ref .iterator) (n : Nat) :
    ∃ xs, xs.length = n ∧ h.Calls r xs := by
  induction n generalizing h with
  | zero => exact ⟨[], rfl, .done h⟩
  | succ n ih =>
    obtain ⟨xs, hlen, hc⟩ := ih (h.nextItem r).2
    exact ⟨_ :: xs, congrArg Nat.succ hlen, .call (Nat.le_refl _) rfl hc⟩

end Heap

/-- The course of an iteration: `At k` are its states after `k` items, of which there are `n`.  They
do not depend on the identities that new strings get. -/
structure Iteration.Course (n : Nat) (Item : Nat → Value → Prop) (At : Nat → Iteration → Prop) :
    Prop where
  item : ∀ {k i}, At k i → k < n → ∀ fresh, ∃ v i',
    i.next? fresh = .ok (some (v, i')) ∧ Item k v ∧ At (k + 1) i'
  stop : ∀ {k i}, At k i → n ≤ k → ∀ fresh, i.next? fresh = .ok none

namespace Iteration.Course

variable {n k : Nat} {Item : Nat → Value → Prop} {At : Nat → Iteration → Prop}
  {r : Ref .iterator} {h : Heap} {xs : List (Except Nat (Option Value))}

theorem calls (hcourse : Course n Item At) (hc : h.Calls r xs) (hk : At k (h.iteratorAt r))
    (hr : r.index < h.iterators.size) {j : Nat} {x : Except Nat (Option Value)}
    (hx : xs[j]? = some x) :
    (k + j < n → ∃ v, x = .ok (some v) ∧ Item (k + j) v) ∧ (n ≤ k + j → x = .ok none) := by
  induction hc generalizing k j with
  | done h => simp at hx
  | @call h h' xs hs hi hc ih =>
    rw [← hi] at hk
    have hr' : r.index < h'.iterators.size := Nat.lt_of_lt_of_le hr hs
    by_cases hkn : k < n
    · obtain ⟨v, i', hn, hv, hat⟩ := hcourse.item hk hkn h'.nextIdentity
      rw [Heap.nextItem_of_some hn] at hx ih
      cases j with
      | zero =>
        cases hx
        exact ⟨fun _ => ⟨v, rfl, hv⟩, fun hle => absurd hle (Nat.not_le.2 hkn)⟩
      | succ j =>
        rw [show k + (j + 1) = k + 1 + j by omega]
        refine ih (k := k + 1) ?_ ?_ hx
        · show At (k + 1) ((h'.setIterator r i').iteratorAt r)
          rwa [Heap.iteratorAt, Heap.setIterator, Store.get_set_self hr']
        · show r.index < (h'.iterators.set r.index i').size
          rwa [Store.size_set]
    · have hn := hcourse.stop hk (Nat.not_lt.1 hkn) h'.nextIdentity
      rw [Heap.nextItem_of_none hn] at hx ih
      cases j with
      | zero =>
        cases hx
        exact ⟨fun hlt => absurd hlt hkn, fun _ => rfl⟩
      | succ j =>
        -- an exhausted iteration stays where it is
        obtain ⟨-, hnone⟩ := ih hk hr' hx
        exact ⟨fun hlt => by omega, fun _ => hnone (by omega)⟩

/-- An iterator at the start of its course supplies its items. -/
theorem supplies (hcourse : Course n Item At) (h₀ : At 0 (h.iteratorAt r))
    (hr : r.index < h.iterators.size) : h.Supplies r n Item := by
  intro xs hc k x hx
  have hcalls := hcourse.calls hc h₀ hr hx
  rwa [Nat.zero_add] at hcalls

theorem supplies_newIterator (hcourse : Course n Item At) {i : Iteration} (h₀ : At 0 i) (h : Heap) :
    (h.newIterator i).2.Supplies (h.newIterator i).1 n Item := by
  refine hcourse.supplies ?_ ?_
  · rw [show (h.newIterator i).2.iteratorAt (h.newIterator i).1 = i from Store.get_add_size _ _]
    exact h₀
  · show h.iterators.size < (h.iterators.add i).size
    rw [Store.size_add]
    exact Nat.lt_succ_self _

end Iteration.Course

/-- A loop draws from the iterator on top of the stack by a call for its next item. -/
theorem Exec.run_forIter {l : Local} {r : Ref .iterator} {below : List Value}
    (hs : l.frame.stack.slots = .iterator r :: below) (target : Nat) :
    (forIter target).run l = match l.heap.nextItem r with
      | (.ok (some v), h) => (do push v; pure .next : Exec Flow).run { l with heap := h }
      | (.ok none, h) => (do discard pop; pure (.jump target) : Exec Flow).run { l with heap := h }
      | (.error n, _) => .error (.fatal (.uncuttable n)) l := by
  have htop : top.run l = .ok (.iterator r) l := by
    rw [run_top, OperandStack.peek, hs]
    rfl
  rw [forIter_eq, run_bind, htop]
  show (transact (draw r) >>= _).run l = _
  rw [run_bind, run_transact, draw]
  obtain ⟨drawn, h⟩ := l.heap.nextItem r
  cases drawn with
  | error n => rfl
  | ok v => cases v <;> rfl

end Resumable
