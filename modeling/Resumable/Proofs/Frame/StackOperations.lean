import Mathlib
import Resumable.Proofs.Frame.Drift
import Resumable.Proofs.Snapshot.Restoring

/-!
# Operations on value stacks

Seen from its bottom, a stack is a list of values that is cut off at a capacity.
`OperandStack.Operation.Yields` says what each operation makes of a list without such a bound, and
an operation on a stack succeeds exactly if it yields a list that fits; it is refused if the values
it asks for are missing, or if what it yields is too long.

A refused operation leaves the stack as it was, with one exception: values that are pushed one after
the other stay as far as they fitted (`OperandStack.Operation.Tears`), and the stack is then full
with the lower part of what the operation would have yielded.

* `OperandStack.apply_outcome` : what an operation does to a stack within its capacity.
* `OperandStack.kept_unless_torn` : a stack stays within its capacity whatever is done to it, and
  what a refused operation leaves, after any other operations.
-/

namespace Resumable

namespace OperandStack

variable {s t : OperandStack} {op : OperandStack.Operation} {n : Nat} {v : Value}
  {vs ws : List Value} {a : Answer}

/-! ### What operations yield -/

/-- What an operation makes of a list of values, the bottom one first, that is not bounded. -/
inductive Operation.Yields : Operation → List Value → Answer → List Value → Prop
  | push (v : Value) (vs : List Value) : Yields (.push v) vs .done (vs ++ [v])
  | pop (v : Value) (vs : List Value) : Yields .pop (vs ++ [v]) (.value v) vs
  | peek {n : Nat} (below : List Value) (v : Value) (above : List Value) (h : above.length = n) :
    Yields (.peek n) (below ++ v :: above) (.value v) (below ++ v :: above)
  | setTop {n : Nat} (below : List Value) (v w : Value) (above : List Value)
      (h : above.length = n) :
    Yields (.setTop n w) (below ++ v :: above) .done (below ++ w :: above)
  | popN {n : Nat} (below top : List Value) (h : top.length = n) :
    Yields (.popN n) (below ++ top) (.values top) below
  | peekN {n : Nat} (below top : List Value) (h : top.length = n) :
    Yields (.peekN n) (below ++ top) (.values top) (below ++ top)
  | dropN {n : Nat} (below top : List Value) (h : top.length = n) :
    Yields (.dropN n) (below ++ top) .done below
  | dupN {n : Nat} (below top : List Value) (h : top.length = n) :
    Yields (.dupN n) (below ++ top) .done (below ++ top ++ top)
  | pushReversed (vs ws : List Value) : Yields (.pushReversed ws) vs .done (vs ++ ws.reverse)
  | truncate (vs : List Value) (depth : Nat) : Yields (.truncate depth) vs .done (vs.take depth)
  | save (vs : List Value) : Yields .save vs (.values vs) vs
  | restore (vs ws : List Value) : Yields (.restore (ws.map some)) vs .done ws

/-- How many values an operation asks for. -/
def Operation.demand : Operation → Nat
  | .pop => 1
  | .peek n | .setTop n _ => n + 1
  | .popN n | .peekN n | .dropN n | .dupN n => n
  | .push _ | .pushReversed _ | .truncate _ | .save | .restore _ => 0

/-- The operation pushes several values one after the other, of which the first fits and the last
does not. -/
def Operation.Tears (s : OperandStack) : Operation → Prop
  | .dupN n => n ≤ s.depth ∧ 0 < s.room ∧ s.room < n
  | .pushReversed vs => 0 < s.room ∧ s.room < vs.length
  | _ => False

/-- The operation yields nothing that fits the stack. -/
def Operation.Unfit (s : OperandStack) (op : Operation) : Prop :=
  ∀ a ws, op.Yields s.toList a ws → s.capacity < ws.length

namespace Operation

/-- An operation finds on the list what it asks for. -/
theorem Yields.demand_le (h : op.Yields vs a ws) : op.demand ≤ vs.length := by
  cases h <;> simp [demand] <;> omega

theorem Yields.length_dupN (h : (Operation.dupN n).Yields vs a ws) : ws.length = vs.length + n := by
  cases h with
  | dupN below top h => rw [List.length_append, h]

theorem Yields.length_pushReversed {us : List Value}
    (h : (Operation.pushReversed us).Yields vs a ws) : ws.length = vs.length + us.length := by
  cases h
  rw [List.length_append, List.length_reverse]

/-- An operation that asks for more than there is yields nothing at all. -/
theorem unfit_of_lt_demand (h : s.depth < op.demand) : op.Unfit s := by
  intro a ws hy
  have := hy.demand_le
  rw [length_toList] at this
  omega

/-- What an operation yields that tears is too long. -/
theorem Tears.unfit (h : op.Tears s) : op.Unfit s := by
  intro a ws hy
  have hlen := s.length_toList
  cases op with
  | dupN n =>
    have := hy.length_dupN
    have := h.2.2
    unfold room at this
    omega
  | pushReversed us =>
    have := hy.length_pushReversed
    have := h.2
    unfold room at this
    omega
  | _ => cases h

theorem Tears.lt_capacity (h : op.Tears s) : s.depth < s.capacity := by
  cases op with
  | dupN n => exact Nat.lt_of_sub_pos h.2.1
  | pushReversed us => exact Nat.lt_of_sub_pos h.1
  | _ => cases h

end Operation

/-! ### The list of a stack -/

/-- The top values of a stack stand behind the others. -/
theorem toList_cut (hn : n ≤ s.depth) :
    s.toList = (s.without n).toList ++ (s.slots.take n).reverse ∧
      (s.slots.take n).reverse.length = n := by
  constructor
  · rw [toList, toList, without, ← List.reverse_append, List.take_append_drop]
  · rw [List.length_reverse, List.length_take, ← s.depth_eq, Nat.min_eq_left hn]

/-- A value of a stack stands between those below and those above it. -/
theorem toList_at (hv : s.slots[n]? = some v) :
    s.toList = (s.without (n + 1)).toList ++ v :: (s.slots.take n).reverse ∧
      (s.slots.take n).reverse.length = n := by
  obtain ⟨hn, hv⟩ := List.getElem?_eq_some_iff.1 hv
  refine ⟨?_, (toList_cut (by rw [s.depth_eq]; omega)).2⟩
  rw [(toList_cut (n := n + 1) (by rw [s.depth_eq]; omega)).1, List.take_add_one,
    List.getElem?_eq_getElem hn, hv]
  simp

/-- A value is replaced where it stands. -/
theorem reverse_set (hn : n < s.slots.length) : (s.slots.set n v).reverse =
    (s.without (n + 1)).toList ++ v :: (s.slots.take n).reverse := by
  rw [List.set_eq_take_append_cons_drop, if_pos hn, List.reverse_append, List.reverse_cons,
    List.append_assoc, List.singleton_append]
  rfl

theorem toList_truncate (s : OperandStack) (d : Nat) : (s.truncate d).toList = s.toList.take d := by
  change (s.slots.drop (s.depth - d)).reverse = s.slots.reverse.take d
  rw [List.take_reverse, ← s.depth_eq]

/-- Values that are pushed stay as far as the capacity goes. -/
theorem toList_pushAll (hs : s.depth ≤ s.capacity) (vs : List Value) :
    (s.pushAll vs).2.toList = (s.toList ++ vs).take s.capacity := by
  have hl := s.length_toList
  rw [List.take_append, List.take_of_length_le (by omega), hl]
  simp [slots_pushAll, toList, room]

theorem pushAll_of_room_eq_zero (h : s.room = 0) (vs : List Value) : (s.pushAll vs).2 = s :=
  ext (by simp [slots_pushAll, h]) (s.capacity_pushAll vs)

/-! ### What operations do to a stack -/

/-- What comes of an operation: it yields a list that fits, it is refused and the stack is kept, or
it is refused with the stack filled up. -/
inductive Outcome (s : OperandStack) (op : Operation) : Except Fault Answer × OperandStack → Prop
  | done {a : Answer} {t : OperandStack} (yields : op.Yields s.toList a t.toList)
      (fits : t.depth ≤ s.capacity) (capacity : t.capacity = s.capacity) : Outcome s op (.ok a, t)
  | kept {e : Fault} (unfit : op.Unfit s) (whole : ¬op.Tears s) : Outcome s op (.error e, s)
  | torn {t : OperandStack} {ws : List Value} (tears : op.Tears s)
      (yields : op.Yields s.toList .done ws) (filled : t.toList = ws.take s.capacity)
      (capacity : t.capacity = s.capacity) :
    Outcome s op (.error (.stackOverflow s.capacity), t)

/-- Nothing happens where values are missing. -/
theorem apply_of_lt_demand (h : s.depth < op.demand) :
    s.apply op = (.error .stackUnderflow, s) := by
  cases op with
  | push | pushReversed | truncate | save | restore => exact absurd h (Nat.not_lt_zero _)
  | pop =>
    have hslots : s.slots = [] := by
      rw [← List.length_eq_zero_iff, ← s.depth_eq]
      exact Nat.lt_one_iff.1 h
    obtain ⟨slots, capacity, depth, hd⟩ := s
    cases hslots
    rfl
  | peek n =>
    have hlen : s.slots.length ≤ n := s.depth_eq ▸ Nat.lt_succ_iff.1 h
    have hnone : s.slots[n]? = none := List.getElem?_eq_none hlen
    simp [apply, peek, hnone, Except.map]
  | setTop n v =>
    have hn : ¬n < s.depth := Nat.not_lt.2 (Nat.lt_succ_iff.1 h)
    simp [apply, setTop, hn, orKeep]
  | popN n | peekN n | dropN n | dupN n =>
    have hn : ¬n ≤ s.depth := Nat.not_le.2 h
    simp [apply, popN, peekN, dropN, dupN, hn, orKeep, Except.map, bind, Except.bind]

/-- Values pushed one after the other. -/
theorem outcome_pushAll (hs : s.depth ≤ s.capacity)
    (hy : op.Yields s.toList .done (s.toList ++ vs))
    (hl : ∀ a ws, op.Yields s.toList a ws → ws.length = s.depth + vs.length)
    (ht : op.Tears s ↔ 0 < s.room ∧ s.room < vs.length) :
    s.Outcome op ((s.pushAll vs).1.map fun _ => .done, (s.pushAll vs).2) := by
  have hlist := toList_pushAll hs vs
  by_cases hfit : vs.length ≤ s.room
  · have hok : (s.pushAll vs).1 = .ok () := pushAll_of_le_room hfit
    rw [hok]
    have hall : (s.toList ++ vs).length ≤ s.capacity := by
      rw [List.length_append, length_toList]
      unfold room at hfit
      omega
    rw [List.take_of_length_le hall] at hlist
    refine .done (hlist ▸ hy) ?_ (s.capacity_pushAll vs)
    rw [← length_toList, hlist]
    exact hall
  · have herr : (s.pushAll vs).1 = .error (.stackOverflow s.capacity) := pushAll_of_not_le_room hfit
    have hunfit : op.Unfit s := by
      intro a ws h
      rw [hl a ws h]
      unfold room at hfit
      omega
    rw [herr]
    -- if not even the first value fits, nothing changes
    by_cases hroom : s.room = 0
    · rw [pushAll_of_room_eq_zero hroom]
      exact .kept hunfit (mt ht.1 (by omega))
    · exact .torn (ht.2 (by omega)) hy hlist (s.capacity_pushAll vs)

theorem outcome_push (s : OperandStack) (v : Value) :
    s.Outcome (.push v) (s.orKeep (s.push v)) := by
  by_cases hc : s.capacity ≤ s.depth
  · simp only [push, if_pos hc, orKeep]
    refine .kept ?_ id
    intro a ws hy
    cases hy
    rw [List.length_append, length_toList]
    exact Nat.lt_succ_of_le hc
  · simp only [push, if_neg hc, orKeep]
    refine .done ?_ (Nat.not_le.1 hc) rfl
    simp only [toList, List.reverse_cons]
    exact .push v _

/-- A stack is replaced by a list without gaps that fits. -/
theorem outcome_restore (s : OperandStack) (slots : List (Option Value)) :
    s.Outcome (.restore slots) (s.orKeep (s.restore slots)) := by
  by_cases hc : s.capacity < slots.length
  · simp only [restore, if_pos hc, orKeep]
    refine .kept ?_ id
    intro a ws hy
    cases hy
    rwa [List.length_map] at hc
  · cases hf : filled slots 0 with
    | error e =>
      simp only [restore, if_neg hc, hf, Except.map, orKeep]
      refine .kept ?_ id
      intro a ws hy
      cases hy
      rw [filled_eq_ok_iff.2 rfl] at hf
      cases hf
    | ok vs =>
      obtain rfl := filled_eq_ok_iff.1 hf
      simp only [restore, if_neg hc, hf, Except.map, orKeep]
      refine .done ?_ ?_ rfl
      · simp only [toList, List.reverse_reverse]
        exact .restore _ vs
      · simpa using hc

/-- **What an operation does to a stack within its capacity.** -/
theorem apply_outcome (hs : s.depth ≤ s.capacity) (op : Operation) :
    s.Outcome op (s.apply op) := by
  by_cases hd : s.depth < op.demand
  · rw [apply_of_lt_demand hd]
    refine .kept (Operation.unfit_of_lt_demand hd) ?_
    intro ht
    cases op with
    | dupN n => exact Nat.not_lt.2 ht.1 hd
    | pushReversed vs => exact Nat.not_lt_zero _ hd
    | _ => exact ht
  -- from here on the operation finds what it asks for, and only room may be missing
  replace hd := Nat.not_lt.1 hd
  -- a stack from which values were taken is still within its capacity
  have hwithout : ∀ n, (s.without n).depth ≤ s.capacity := fun n =>
    Nat.le_trans (Nat.sub_le _ _) hs
  cases op with
  | push v => exact outcome_push s v
  | pop =>
    obtain ⟨slots, capacity, depth, hlen⟩ := s
    cases slots with
    | nil => exact absurd hlen (Nat.ne_of_gt hd)
    | cons v rest =>
      refine .done ?_ (hwithout 1) rfl
      simp only [toList, List.reverse_cons]
      exact .pop v _
  | peek n =>
    have hn : n < s.slots.length := s.depth_eq ▸ hd
    obtain ⟨hat, habove⟩ := toList_at (List.getElem?_eq_getElem hn)
    simp only [apply, peek, List.getElem?_eq_getElem hn, Except.map]
    refine .done ?_ hs rfl
    rw [hat]
    exact .peek _ _ _ habove
  | setTop n w =>
    have hn : n < s.slots.length := s.depth_eq ▸ hd
    obtain ⟨hat, habove⟩ := toList_at (List.getElem?_eq_getElem hn)
    simp only [apply, setTop, if_pos (Nat.lt_of_succ_le hd), orKeep]
    refine .done ?_ hs rfl
    change (Operation.setTop n w).Yields s.toList .done (s.slots.set n w).reverse
    rw [hat, reverse_set hn]
    exact .setTop _ _ w _ habove
  | popN n =>
    obtain ⟨hcut, htop⟩ := toList_cut hd
    simp only [apply, popN, peekN, dropN, if_pos (show n ≤ s.depth from hd)]
    refine .done ?_ (hwithout n) rfl
    rw [hcut]
    exact .popN _ _ htop
  | peekN n =>
    obtain ⟨hcut, htop⟩ := toList_cut hd
    simp only [apply, peekN, if_pos (show n ≤ s.depth from hd), Except.map]
    refine .done ?_ hs rfl
    rw [hcut]
    exact .peekN _ _ htop
  | dropN n =>
    obtain ⟨hcut, htop⟩ := toList_cut hd
    simp only [apply, dropN, if_pos (show n ≤ s.depth from hd), orKeep]
    refine .done ?_ (hwithout n) rfl
    rw [hcut]
    exact .dropN _ _ htop
  | dupN n =>
    have hn : n ≤ s.depth := hd
    obtain ⟨hcut, htop⟩ := toList_cut hn
    simp only [apply, dupN, peekN, if_pos hn]
    refine outcome_pushAll hs ?_ ?_ ?_
    · rw [hcut]
      exact .dupN _ _ htop
    · intro a ws hy
      rw [hy.length_dupN, length_toList, htop]
    · simp only [Operation.Tears, hn, true_and, htop]
  | pushReversed vs =>
    refine outcome_pushAll hs (.pushReversed _ vs) ?_ ?_
    · intro a ws hy
      rw [hy.length_pushReversed, length_toList, List.length_reverse]
    · simp only [Operation.Tears, List.length_reverse]
  | truncate d =>
    refine .done ?_ (hwithout _) rfl
    rw [toList_truncate]
    exact .truncate _ d
  | save => exact .done (.save _) hs rfl
  | restore slots => exact outcome_restore s slots

/-! ### Operations one after the other -/

/-- The stack after operations one after the other, whatever they answer. -/
def after (s : OperandStack) (ops : List Operation) : OperandStack :=
  ops.foldl (fun s op => (s.apply op).2) s

/-- An operation leaves a stack within the capacity it had. -/
theorem Outcome.within {r : Except Fault Answer} (h : s.Outcome op (r, t))
    (hs : s.depth ≤ s.capacity) : t.capacity = s.capacity ∧ t.depth ≤ s.capacity := by
  cases h with
  | done _ hfits hcapacity => exact ⟨hcapacity, hfits⟩
  | kept => exact ⟨rfl, hs⟩
  | torn _ _ hfilled hcapacity =>
    refine ⟨hcapacity, ?_⟩
    rw [← length_toList, hfilled]
    exact List.length_take_le _ _

/-- Operations one after the other leave a stack within the capacity it had. -/
theorem within_after (hs : s.depth ≤ s.capacity) (ops : List Operation) :
    (s.after ops).capacity = s.capacity ∧ (s.after ops).depth ≤ s.capacity := by
  induction ops generalizing s with
  | nil => exact ⟨rfl, hs⟩
  | cons op ops ih =>
    obtain ⟨hc, hd⟩ := (apply_outcome hs op).within hs
    exact hc ▸ ih (hc ▸ hd)

/-- **A stack never gets deeper than its capacity, and a refused operation leaves it as it was**,
unless it tears.  An operation is refused exactly if it yields nothing that fits, and otherwise
leaves what it yields.  One that tears leaves the stack full, with as much of that as fits. -/
theorem kept_unless_torn {capacity : Nat} {before : List Operation} {r : Except Fault Answer}
    (hs : (empty capacity).after before = s) (ht : s.apply op = (r, t)) :
    s.depth ≤ capacity ∧ t.depth ≤ capacity ∧
      (∀ a, r = .ok a → op.Yields s.toList a t.toList) ∧
      ((∃ e, r = .error e) ↔ ∀ a ws, op.Yields s.toList a ws → capacity < ws.length) ∧
      (∀ e, r = .error e → ¬op.Tears s → t = s) ∧
      (op.Tears s → r = .error (.stackOverflow capacity) ∧ s.depth < t.depth ∧
        ∃ ws, op.Yields s.toList .done ws ∧ t.toList = ws.take capacity) := by
  obtain ⟨hc, hd⟩ := within_after (s := empty capacity) (Nat.zero_le _) before
  rw [hs] at hc hd
  obtain rfl : s.capacity = capacity := hc
  have ho := apply_outcome hd op
  rw [ht] at ho
  refine ⟨hd, (ho.within hd).2, ?_⟩
  -- an operation is done, or is refused and leaves the stack whole, or tears it
  cases ho with
  | done hyields hfits =>
    have hmiss : ¬op.Unfit s := fun h =>
      Nat.not_lt.2 hfits (t.length_toList ▸ h _ _ hyields)
    refine ⟨?_, iff_of_false nofun hmiss, nofun, fun h => absurd h.unfit hmiss⟩
    rintro a ⟨⟩
    exact hyields
  | kept hunfit hwhole =>
    exact ⟨nofun, iff_of_true ⟨_, rfl⟩ hunfit, fun _ _ _ => rfl, fun h => absurd h hwhole⟩
  | torn htears hyields hfilled =>
    have hunfit := htears.unfit
    refine ⟨nofun, iff_of_true ⟨_, rfl⟩ hunfit, fun _ _ h => absurd htears h, fun _ => ?_⟩
    refine ⟨rfl, ?_, _, hyields, hfilled⟩
    have hlong := hunfit _ _ hyields
    rw [← t.length_toList, hfilled, List.length_take_of_le (Nat.le_of_lt hlong)]
    exact htears.lt_capacity

/-- Two values on a stack that holds three. -/
def crampedStack : OperandStack := ((empty 3).pushAll [.bool false, .bool true]).2

/-- The stack with a copy of one of the two. -/
def tornStack : OperandStack := ((empty 3).pushAll [.bool false, .bool true, .bool false]).2

/-- The copies of both values do not fit, and one of them stays. -/
theorem crampedStack_torn :
    ((empty 3).after [.push (.bool false), .push (.bool true)] = crampedStack ∧
      crampedStack.apply (.dupN 2) = (.error (.stackOverflow 3), tornStack) ∧
      (Operation.dupN 2).Tears crampedStack) ∧
      crampedStack.depth < tornStack.depth ∧
        ∃ ws, (Operation.dupN 2).Yields crampedStack.toList .done ws ∧
          tornStack.toList = ws.take 3 := by
  have hs : (empty 3).after [.push (.bool false), .push (.bool true)] = crampedStack := rfl
  have ht : crampedStack.apply (.dupN 2) = (.error (.stackOverflow 3), tornStack) := rfl
  have htears : (Operation.dupN 2).Tears crampedStack := by
    change 2 ≤ crampedStack.depth ∧ 0 < crampedStack.room ∧ crampedStack.room < 2
    decide
  obtain ⟨-, -, -, -, -, htorn⟩ := kept_unless_torn hs ht
  exact ⟨⟨hs, ht, htears⟩, (htorn htears).2⟩

end OperandStack

end Resumable
