import Mathlib.Data.Rat.Floor
import Resumable.Operation.Arithmetic

/-!
# Integer arithmetic

The value of an operator is said on the integers, with the quotient of the rationals rounded down
(`BinaryOperator.value`).  Words are divided towards zero and the result is corrected; the
corrections do not overflow, since a quotient that leaves a remainder is at most half as large as
the dividend, and a remainder is corrected by a divisor of the other sign
(`BinaryOperator.divides_floor`).

`Value.binary_of_asInt?` says that what fits into a word is exact and that nothing else is refused,
apart from division by zero and one remainder: that of the smallest word by `-1`, which is refused
with the quotient.
-/

namespace Resumable

namespace BinaryOperator

variable {a b : Int64}

/-- The value of an operator on integers.  The quotient is that of the rationals, rounded towards
negative infinity, and the remainder is what it leaves. -/
def value : BinaryOperator → Int → Int → Int
  | add, a, b => a + b
  | sub, a, b => a - b
  | mul, a, b => a * b
  | mod, a, b => a - ⌊(a / b : ℚ)⌋ * b
  | floorDiv, a, b => ⌊(a / b : ℚ)⌋

/-- `q` and `r` are a quotient and a remainder of the sign of the divisor. -/
structure Divides (a b q r : Int) : Prop where
  sum : q * b + r = a
  pos : 0 < b → 0 ≤ r ∧ r < b
  neg : b < 0 → b < r ∧ r ≤ 0

/-- The quotient is the rational one, rounded towards negative infinity. -/
theorem Divides.floor {a b q r : Int} (h : Divides a b q r) (hb : b ≠ 0) :
    ⌊(a / b : ℚ)⌋ = q := by
  have hsum : (q : ℚ) * b + r = a := by exact_mod_cast h.sum
  rw [Int.floor_eq_iff]
  rcases lt_or_gt_of_ne hb with hneg | hpos
  · obtain ⟨hr, hr'⟩ := h.neg hneg
    have hb' : (b : ℚ) < 0 := by exact_mod_cast hneg
    have hr : (b : ℚ) < r := by exact_mod_cast hr
    have hr' : (r : ℚ) ≤ 0 := by exact_mod_cast hr'
    rw [le_div_iff_of_neg hb', div_lt_iff_of_neg hb']
    constructor <;> linarith
  · obtain ⟨hr, hr'⟩ := h.pos hpos
    have hb' : (0 : ℚ) < b := by exact_mod_cast hpos
    have hr : (0 : ℚ) ≤ r := by exact_mod_cast hr
    have hr' : (r : ℚ) < b := by exact_mod_cast hr'
    rw [le_div_iff₀ hb', div_lt_iff₀ hb']
    constructor <;> linarith

/-- A word that is computed modulo the number of words has the exact value, if that fits. -/
theorem toInt_of_bmod {x : Int64} {i : Int} (hx : x.toInt = i.bmod (2 ^ 64)) (hi : FitsWord i) :
    x.toInt = i := by
  rw [hx]
  exact Int.bmod_eq_of_le hi.1 hi.2

/-- A word is divided towards zero, except the smallest by `-1`. -/
theorem toInt_div (h : ¬(a = Int64.minValue ∧ b = -1)) : (a / b).toInt = a.toInt.tdiv b.toInt := by
  by_cases ha : a = Int64.minValue
  · exact Int64.toInt_div_of_ne_right a b fun hb => h ⟨ha, hb⟩
  · exact Int64.toInt_div_of_ne_left a b ha

/-- The remainder of the division towards zero is smaller than the divisor and has the sign of the
dividend. -/
theorem tmod_spec (a : Int) {b : Int} (hb : b ≠ 0) :
    (a.tmod b).natAbs < b.natAbs ∧ (0 ≤ a → 0 ≤ a.tmod b) ∧ (a ≤ 0 → a.tmod b ≤ 0) := by
  refine ⟨?_, fun h => Int.tmod_nonneg b h, fun h => ?_⟩
  · rw [Int.natAbs_tmod]
    exact Nat.mod_lt _ (by omega)
  · have := Int.tmod_nonneg b (Int.neg_nonneg_of_nonpos h)
    rw [Int.neg_tmod] at this
    omega

/-- A quotient that leaves a remainder is at most half as large as the dividend. -/
theorem natAbs_tdiv_le {a b : Int} (hb : b ≠ 0) (hr : a.tmod b ≠ 0) :
    (a.tdiv b).natAbs ≤ a.natAbs / 2 := by
  have hb : 2 ≤ b.natAbs := by
    by_contra hlt
    have hb : b = 1 ∨ b = -1 := by omega
    rcases hb with rfl | rfl
    · exact hr (Int.tmod_one a)
    · exact hr (by rw [Int.tmod_neg, Int.tmod_one])
  rw [Int.natAbs_tdiv]
  exact Nat.div_le_div_left hb (by decide)

/-- The test for a correction, on integers. -/
theorem corrected_iff {x y : Int64} (hb : b.toInt ≠ 0) :
    (x != 0 && (decide (y < 0) != decide (b < 0))) = true ↔
      x.toInt ≠ 0 ∧ (y.toInt < 0 ↔ 0 < b.toInt) := by
  have hx : x = 0 ↔ x.toInt = 0 := by rw [← Int64.toInt_inj, Int64.toInt_zero]
  simp only [Bool.and_eq_true, bne_iff_ne, ne_eq, hx, Int64.lt_iff_toInt_lt, Int64.toInt_zero,
    decide_eq_decide]
  refine and_congr_right fun _ => ?_
  omega

theorem toInt_floorQuotient (hb : b.toInt ≠ 0) (h : ¬(a = Int64.minValue ∧ b = -1)) :
    (floorQuotient a b).toInt = a.toInt.tdiv b.toInt -
      if a.toInt.tmod b.toInt ≠ 0 ∧ (a.toInt < 0 ↔ 0 < b.toInt) then 1 else 0 := by
  unfold floorQuotient
  simp only [corrected_iff hb, Int64.toInt_mod]
  by_cases hc : a.toInt.tmod b.toInt ≠ 0 ∧ (a.toInt < 0 ↔ 0 < b.toInt)
  · rw [if_pos hc, if_pos hc]
    have hq : (a / b - 1).toInt = (a.toInt.tdiv b.toInt - 1).bmod (2 ^ 64) := by
      rw [Int64.toInt_sub, toInt_div h, Int64.toInt_one]
    refine toInt_of_bmod hq ?_
    -- the quotient is at most half as large as the dividend, so there is room below it
    have hhalf := natAbs_tdiv_le hb hc.1
    obtain ⟨hlo, hhi⟩ := fitsWord_toInt a
    constructor <;> omega
  · rw [if_neg hc, if_neg hc, toInt_div h, Int.sub_zero]

theorem toInt_floorRemainder (hb : b.toInt ≠ 0) :
    (floorRemainder a b).toInt = a.toInt.tmod b.toInt +
      if a.toInt.tmod b.toInt ≠ 0 ∧ (a.toInt < 0 ↔ 0 < b.toInt) then b.toInt else 0 := by
  obtain ⟨hlt, hpos, hneg⟩ := tmod_spec a.toInt hb
  unfold floorRemainder
  simp only [corrected_iff hb, Int64.toInt_mod]
  -- a remainder that is not zero has the sign of the dividend
  have hsign : a.toInt.tmod b.toInt ≠ 0 ∧ (a.toInt.tmod b.toInt < 0 ↔ 0 < b.toInt) ↔
      a.toInt.tmod b.toInt ≠ 0 ∧ (a.toInt < 0 ↔ 0 < b.toInt) :=
    and_congr_right fun _ => by omega
  simp only [hsign]
  by_cases hc : a.toInt.tmod b.toInt ≠ 0 ∧ (a.toInt < 0 ↔ 0 < b.toInt)
  · rw [if_pos hc, if_pos hc]
    have hr : (a % b + b).toInt = (a.toInt.tmod b.toInt + b.toInt).bmod (2 ^ 64) := by
      rw [Int64.toInt_add, Int64.toInt_mod]
    refine toInt_of_bmod hr ?_
    -- remainder and divisor have different signs
    obtain ⟨hlo, hhi⟩ := fitsWord_toInt b
    constructor <;> omega
  · rw [if_neg hc, if_neg hc, Int64.toInt_mod, Int.add_zero]

/-- **Division of words**: the corrections give quotient and remainder of the division rounded
towards negative infinity, and do not overflow. -/
theorem divides_floor (hb : b ≠ 0) (h : ¬(a = Int64.minValue ∧ b = -1)) :
    Divides a.toInt b.toInt (floorQuotient a b).toInt (floorRemainder a b).toInt := by
  have hb' : b.toInt ≠ 0 := fun he => hb (Int64.toInt_inj.1 he)
  obtain ⟨hlt, hpos, hneg⟩ := tmod_spec a.toInt hb'
  have hsum := Int.mul_tdiv_add_tmod a.toInt b.toInt
  rw [toInt_floorQuotient hb' h, toInt_floorRemainder hb']
  refine ⟨?_, fun hb => ?_, fun hb => ?_⟩
  · split
    · linarith
    · linarith
  · split <;> omega
  · split <;> omega

/-- The smallest word is divided by `-1`.  The quotient does not fit, and the remainder, which is
zero, is refused with it. -/
def RefusesRemainder (op : BinaryOperator) (a b : Int64) : Prop :=
  op = mod ∧ a = Int64.minValue ∧ b = -1

theorem onInts_of_zero {op : BinaryOperator} (hop : op.divides = true) (hb : b = 0) :
    op.onInts a b =
      .error (Raised.new .zeroDivisionError "integer division or modulo by zero") := by
  simp [onInts, hop, hb]

theorem onInts_of_smallest {op : BinaryOperator} (hop : op.divides = true) :
    op.onInts Int64.minValue (-1) = .error Raised.overflow := by
  simp [onInts, hop]

theorem RefusesRemainder.onInts {op : BinaryOperator} (h : op.RefusesRemainder a b) :
    op.onInts a b = .error Raised.overflow := by
  obtain ⟨rfl, rfl, rfl⟩ := h
  exact onInts_of_smallest rfl

/-- Division gives the corrected quotient and the corrected remainder. -/
theorem onInts_of_ne (hb : b ≠ 0) (h : ¬(a = Int64.minValue ∧ b = -1)) :
    floorDiv.onInts a b = .ok (floorQuotient a b) ∧ mod.onInts a b = .ok (floorRemainder a b) := by
  simp only [onInts, divides, Bool.true_and, Bool.and_eq_true, beq_iff_eq, if_neg hb, if_neg h,
    and_self]

/-- The result on integers is the value, if that fits. -/
theorem onInts_eq_narrowed {op : BinaryOperator} (hz : ¬(op.divides = true ∧ b = 0))
    (hr : ¬op.RefusesRemainder a b) : op.onInts a b = narrowed (op.value a.toInt b.toInt) := by
  cases op with
  | add | sub | mul => rfl
  | floorDiv =>
    have hb : b ≠ 0 := fun hb => hz ⟨rfl, hb⟩
    have hb' : b.toInt ≠ 0 := fun he => hb (Int64.toInt_inj.1 he)
    by_cases hs : a = Int64.minValue ∧ b = -1
    · obtain ⟨rfl, rfl⟩ := hs
      -- the quotient is the first integer beyond the words
      have hv : floorDiv.value Int64.minValue.toInt (-1 : Int64).toInt = 0x8000000000000000 := by
        have ha : Int64.minValue.toInt = -0x8000000000000000 := by decide
        have hb : (-1 : Int64).toInt = -1 := by decide
        norm_num [value, ha, hb]
      rw [onInts_of_smallest rfl, hv, eq_comm, narrowed_eq_error_iff]
      exact ⟨by decide, rfl⟩
    · rw [(onInts_of_ne hb hs).1, value, (divides_floor hb hs).floor hb', eq_comm,
        narrowed_eq_ok_iff]
  | mod =>
    have hb : b ≠ 0 := fun hb => hz ⟨rfl, hb⟩
    have hb' : b.toInt ≠ 0 := fun he => hb (Int64.toInt_inj.1 he)
    have hs : ¬(a = Int64.minValue ∧ b = -1) := fun hs => hr ⟨rfl, hs⟩
    have hd := divides_floor hb hs
    rw [(onInts_of_ne hb hs).2, value, hd.floor hb', eq_comm, narrowed_eq_ok_iff, eq_sub_iff_add_eq,
      add_comm]
    exact hd.sum

/-- Nothing but division by zero raises anything but an overflow. -/
theorem overflow_of_onInts {op : BinaryOperator} {e : Raised} (hz : ¬(op.divides = true ∧ b = 0))
    (he : op.onInts a b = .error e) : e = Raised.overflow := by
  by_cases hr : op.RefusesRemainder a b
  · rw [hr.onInts] at he
    exact (Except.error.inj he).symm
  · rw [onInts_eq_narrowed hz hr, narrowed_eq_error_iff] at he
    exact he.2

end BinaryOperator

namespace Value

variable {x y : Value} {a b : Int64}

theorem run_binary {op : BinaryOperator} (hx : x.asInt? = some a) (hy : y.asInt? = some b)
    (h : Heap) : (x.binary op y).run h = (op.onInts a b).map fun i => (.int i, h) := by
  unfold binary
  simp only [hx, hy]
  cases op.onInts a b <;> rfl

/-- On integers an operation raises what the operator on words raises. -/
theorem raises_binary_iff {op : BinaryOperator} {kind : ExceptionKind} (hx : x.asInt? = some a)
    (hy : y.asInt? = some b) (h : Heap) :
    (x.binary op y).Raises kind h ↔ ∃ e, op.onInts a b = .error e ∧ e.exception.kind = kind := by
  rw [Operation.Raises, run_binary hx hy]
  cases op.onInts a b <;> simp [Except.map]

/-- **Integer arithmetic.**  Division by zero is refused, and so is a value that does not fit; the
remainder of the smallest word by `-1` is refused although it fits.  Everything else is exact, and
the remainder has the sign of the divisor. -/
theorem binary_of_asInt? (op : BinaryOperator) (hx : x.asInt? = some a) (hy : y.asInt? = some b)
    (h : Heap) :
    ((x.binary op y).Raises .zeroDivisionError h ↔ op.divides = true ∧ b = 0) ∧
    (¬(op.divides = true ∧ b = 0) →
      ((x.binary op y).Raises .overflowError h ↔
        ¬FitsWord (op.value a.toInt b.toInt) ∨ op.RefusesRemainder a b) ∧
      (FitsWord (op.value a.toInt b.toInt) → ¬op.RefusesRemainder a b →
        ∃ i : Int64, (x.binary op y).run h = .ok (.int i, h) ∧
          i.toInt = op.value a.toInt b.toInt)) ∧
    (∀ q r : Int64, (x.binary .floorDiv y).run h = .ok (.int q, h) →
      (x.binary .mod y).run h = .ok (.int r, h) →
        q.toInt * b.toInt + r.toInt = a.toInt ∧
        (0 < b.toInt → 0 ≤ r.toInt ∧ r.toInt < b.toInt) ∧
        (b.toInt < 0 → b.toInt < r.toInt ∧ r.toInt ≤ 0)) := by
  simp only [raises_binary_iff hx hy, run_binary hx hy]
  refine ⟨⟨fun ⟨e, he, hk⟩ => ?_, fun hz => ?_⟩, fun hz => ⟨?_, fun hf hr => ?_⟩,
    fun q r hq hr => ?_⟩
  · by_contra hz
    rw [BinaryOperator.overflow_of_onInts hz he] at hk
    cases hk
  · exact ⟨_, BinaryOperator.onInts_of_zero hz.1 hz.2, rfl⟩
  · by_cases hr : op.RefusesRemainder a b
    · exact iff_of_true ⟨_, hr.onInts, rfl⟩ (.inr hr)
    · simp only [BinaryOperator.onInts_eq_narrowed hz hr, narrowed_eq_error_iff, hr, or_false]
      exact ⟨fun ⟨_, he, _⟩ => he.1, fun hf => ⟨_, ⟨hf, rfl⟩, rfl⟩⟩
  · refine ⟨Int64.ofInt (op.value a.toInt b.toInt), ?_, toInt_ofInt_of_fitsWord hf⟩
    rw [BinaryOperator.onInts_eq_narrowed hz hr,
      narrowed_eq_ok_iff.2 (toInt_ofInt_of_fitsWord hf)]
    rfl
  · by_cases hb : b = 0
    · rw [BinaryOperator.onInts_of_zero rfl hb] at hq
      cases hq
    -- neither operation has a result there
    by_cases hs : a = Int64.minValue ∧ b = -1
    · obtain ⟨rfl, rfl⟩ := hs
      cases hq
    obtain ⟨hquot, hrem⟩ := BinaryOperator.onInts_of_ne hb hs
    rw [hquot] at hq
    rw [hrem] at hr
    cases hq
    cases hr
    obtain ⟨hsum, hpos, hneg⟩ := BinaryOperator.divides_floor hb hs
    exact ⟨hsum, hpos, hneg⟩

/-- The remainder of the smallest word by `-1` is zero and refused.  The quotient of `-7` by `2` is
`-4`. -/
theorem binary_minValue_and_negative :
    (((int Int64.minValue).binary .mod (int (-1))).Raises .overflowError .initial ∧
      BinaryOperator.mod.value Int64.minValue.toInt (-1 : Int64).toInt = 0) ∧
    ∃ i : Int64, ((int (-7)).binary .floorDiv (int 2)).run .initial = .ok (int i, .initial) ∧
      i.toInt = -4 := by
  have hquotient : BinaryOperator.floorDiv.value (-7 : Int64).toInt (2 : Int64).toInt = -4 := by
    decide +kernel
  obtain ⟨-, hsmallest, -⟩ :=
    binary_of_asInt? (x := int Int64.minValue) (y := int (-1)) .mod rfl rfl .initial
  obtain ⟨-, hnegative, -⟩ :=
    binary_of_asInt? (x := int (-7)) (y := int 2) .floorDiv rfl rfl .initial
  rw [hquotient] at hnegative
  exact ⟨⟨(hsmallest (by decide)).1.2 (.inr ⟨rfl, rfl, rfl⟩), by decide +kernel⟩,
    (hnegative (by decide)).2 (by decide) fun hr => by cases hr.1⟩

end Value

end Resumable
