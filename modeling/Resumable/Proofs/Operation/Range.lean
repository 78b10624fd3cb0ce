import Mathlib.Data.Rat.Floor
import Resumable.Proofs.Machine.NextItem

/-!
# Ranges

The items of a range are the numbers of a progression that lie strictly before its stop, in the
direction of its step (`Iteration.Before`).  The next number may lie beyond the end of the words.
Then the range keeps the end instead, which lies at the stop or beyond it, so that the range is done
there as well (`Iteration.rangeAt_saturate`).

`Builtin.range_supplies` says so of any number of calls for the next item.
-/

namespace Resumable

namespace Iteration

variable {start stop step next : Int64} {k : Nat}

/-- A number lies strictly before the stop of a range, in the direction of the step. -/
def Before (stop step : Int64) (i : Int) : Prop :=
  if 0 < step.toInt then i < stop.toInt else stop.toInt < i

/-- The number of items of a range: the distance from start to stop in steps, rounded up. -/
def rangeLength (start stop step : Int64) : Nat :=
  ⌈((stop.toInt - start.toInt : ℤ) / step.toInt : ℚ)⌉₊

theorem rangeDone_iff : rangeDone next stop step = true ↔ ¬Before stop step next.toInt := by
  have hpos : 0 < step ↔ 0 < step.toInt := by rw [Int64.lt_iff_toInt_lt, Int64.toInt_zero]
  unfold rangeDone Before
  simp only [hpos]
  split <;> simp [Int64.le_iff_toInt_le]

/-- The items of a range are those of the progression that lie before the stop. -/
theorem lt_rangeLength_iff (hstep : step ≠ 0) :
    k < rangeLength start stop step ↔ Before stop step (start.toInt + k * step.toInt) := by
  have hne : step.toInt ≠ 0 := fun he => hstep (Int64.toInt_inj.1 he)
  rw [rangeLength, Nat.lt_ceil, Before]
  rcases lt_or_gt_of_ne hne with hneg | hpos
  · have hq : (step.toInt : ℚ) < 0 := by exact_mod_cast hneg
    rw [if_neg (Int.not_lt.2 hneg.le), lt_div_iff_of_neg hq]
    norm_cast
    omega
  · have hq : (0 : ℚ) < step.toInt := by exact_mod_cast hpos
    rw [if_pos hpos, lt_div_iff₀ hq]
    norm_cast
    omega

/-- The states of a range after `k` items.  At the end of the integers the next item may be missing;
then the range is done. -/
def RangeAt (start stop step : Int64) (k : Nat) (i : Iteration) : Prop :=
  ∃ next, i = range next stop step ∧
    (next.toInt = start.toInt + k * step.toInt ∨
      rangeDone next stop step = true ∧ rangeLength start stop step ≤ k)

/-- The item of a range at a position. -/
def RangeItem (start step : Int64) (k : Nat) (v : Value) : Prop :=
  ∃ i : Int64, v = .int i ∧ i.toInt = start.toInt + k * step.toInt

/-- A step beyond the end of the integers lies beyond the stop, and so does the end where it is
caught. -/
theorem rangeAt_saturate (hstep : step ≠ 0) (hn : next.toInt = start.toInt + k * step.toInt) :
    RangeAt start stop step (k + 1) (range (saturate (next.toInt + step.toInt)) stop step) := by
  have hsucc : next.toInt + step.toInt = start.toInt + (k + 1 : ℕ) * step.toInt := by
    rw [hn]
    push_cast
    ring
  refine ⟨_, rfl, ?_⟩
  -- the stop is a word, and so the end of the words in the direction of the step is not before it
  rw [rangeDone_iff, ← not_lt, lt_rangeLength_iff hstep, ← hsucc, toInt_saturate]
  obtain ⟨hlo, hhi⟩ := fitsWord_toInt next
  obtain ⟨hlo', hhi'⟩ := fitsWord_toInt stop
  unfold Before
  split <;> omega

theorem rangeCourse (hstep : step ≠ 0) :
    Course (rangeLength start stop step) (RangeItem start step) (RangeAt start stop step) where
  item := by
    rintro k i ⟨next, rfl, hn | ⟨-, hle⟩⟩ hk fresh
    · have hmore : ¬rangeDone next stop step = true := by
        rw [rangeDone_iff, hn, not_not]
        exact (lt_rangeLength_iff hstep).1 hk
      refine ⟨.int next, _, ?_, ⟨next, rfl, hn⟩, rangeAt_saturate hstep hn⟩
      rw [next?, if_neg hmore]
    · exact absurd hk (Nat.not_lt.2 hle)
  stop := by
    rintro k i ⟨next, rfl, hn⟩ hk fresh
    have hdone : rangeDone next stop step = true := by
      rcases hn with hn | ⟨hdone, -⟩
      · rw [rangeDone_iff, hn, ← lt_rangeLength_iff hstep]
        exact Nat.not_lt.2 hk
      · exact hdone
    rw [next?, if_pos hdone]

end Iteration

namespace Builtin

open Iteration

variable {args : List Value} {start stop step : Int64}

/-- The integers given to a range, the first and the last of which may be left out. -/
def RangeArguments (args : List Value) (start stop step : Int64) : Prop :=
  args.map Value.asInt? = [some start, some stop, some step] ∨
  args.map Value.asInt? = [some start, some stop] ∧ step = 1 ∨
  args.map Value.asInt? = [some stop] ∧ start = 0 ∧ step = 1

theorem mapM_asArgument {ints : List Int64} (h : args.map Value.asInt? = ints.map some) :
    args.mapM Value.asArgument = .ok ints := by
  induction args generalizing ints with
  | nil =>
    cases ints with
    | nil => rfl
    | cons i ints => cases h
  | cons v args ih =>
    cases ints with
    | nil => cases h
    | cons i ints =>
      simp only [List.map_cons, List.cons.injEq] at h
      simp only [List.mapM_cons, Value.asArgument, h.1, ih h.2]
      rfl

theorem run_range (hargs : RangeArguments args start stop step) (hstep : step ≠ 0) (h : Heap) :
    (Builtin.range.call args).run h =
      .ok (.iterator ⟨h.iterators.size⟩, (h.newIterator (.range start stop step)).2) := by
  obtain ⟨ints, hm, hr⟩ : ∃ ints : List Int64, args.map Value.asInt? = ints.map some ∧
      rangeOf ints = .ok (.range start stop step) := by
    rcases hargs with hm | ⟨hm, rfl⟩ | ⟨hm, rfl, rfl⟩
    · exact ⟨[start, stop, step], hm, if_neg (by simpa using hstep)⟩
    · exact ⟨[start, stop], hm, rfl⟩
    · exact ⟨[stop], hm, rfl⟩
  show (do
    let ints ← liftM (args.mapM Value.asArgument)
    Operation.iterator (← liftM (rangeOf ints)) : Operation Value).run h = _
  rw [mapM_asArgument hm]
  show (do Operation.iterator (← liftM (rangeOf ints)) : Operation Value).run h = _
  rw [hr]
  rfl

/-- **The items of a range** are given one after the other, and after them nothing.  They are the
numbers of the progression that lie before the stop, of which there are finitely many. -/
theorem range_supplies (hargs : RangeArguments args start stop step) (hstep : step ≠ 0)
    (h : Heap) : ∃ r h', (Builtin.range.call args).run h = .ok (.iterator r, h') ∧
      h'.Supplies r (rangeLength start stop step) (RangeItem start step) ∧
      ∀ k, k < rangeLength start stop step ↔ Before stop step (start.toInt + k * step.toInt) :=
  ⟨_, _, run_range hargs hstep h,
    (rangeCourse hstep).supplies_newIterator ⟨start, rfl, .inl (by simp)⟩ h,
    fun _ => lt_rangeLength_iff hstep⟩

/-- A range of one number, the next of which is the first beyond the words. -/
theorem range_ends_at_maxValue :
    ∃ r h', (Builtin.range.call [.int (Int64.maxValue - 2), .int Int64.maxValue, .int 3]).run
        .initial = .ok (.iterator r, h') ∧
      h'.Calls r [.ok (some (.int (Int64.maxValue - 2))), .ok none, .ok none] := by
  have hargs : RangeArguments [.int (Int64.maxValue - 2), .int Int64.maxValue, .int 3]
      (Int64.maxValue - 2) Int64.maxValue 3 := .inl rfl
  have hlength : rangeLength (Int64.maxValue - 2) Int64.maxValue 3 = 1 := by decide +kernel
  obtain ⟨r, h', hrun, hsupplies, -⟩ := range_supplies hargs (by decide) .initial
  rw [hlength] at hsupplies
  obtain ⟨xs, hlen, hc⟩ := h'.exists_calls r 3
  match xs, hlen with
  | [x, y, z], _ =>
    obtain ⟨_, rfl, i, rfl, hi⟩ := (hsupplies _ hc 0 x rfl).1 (by decide)
    obtain rfl := (hsupplies _ hc 1 y rfl).2 (by decide)
    obtain rfl := (hsupplies _ hc 2 z rfl).2 (by decide)
    have hi : i = Int64.maxValue - 2 := Int64.toInt_inj.1 (by simpa using hi)
    exact ⟨r, h', hrun, hi ▸ hc⟩

end Builtin

end Resumable
