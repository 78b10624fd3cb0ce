/-!
# Sixty-four bit integers

Integer arithmetic is exact arithmetic on `Int` whose result is then narrowed to a signed
sixty-four bit word, if it fits (`narrow?_eq_some_iff`).
-/

namespace Resumable

/-- The values of a signed sixty-four bit word. -/
def FitsWord (i : Int) : Prop := -0x8000000000000000 ≤ i ∧ i < 0x8000000000000000

instance (i : Int) : Decidable (FitsWord i) := inferInstanceAs (Decidable (_ ∧ _))

/-- The word with a given value. -/
def narrow? (i : Int) : Option Int64 := if FitsWord i then some (Int64.ofInt i) else none

theorem fitsWord_toInt (x : Int64) : FitsWord x.toInt :=
  ⟨x.le_toInt, x.toInt_lt⟩

theorem toInt_ofInt_of_fitsWord {i : Int} (h : FitsWord i) : (Int64.ofInt i).toInt = i :=
  Int64.toInt_ofInt_of_le h.1 h.2

theorem narrow?_eq_some_iff {i : Int} {x : Int64} : narrow? i = some x ↔ x.toInt = i := by
  unfold narrow?
  constructor
  · intro h
    split at h
    · cases h
      exact toInt_ofInt_of_fitsWord ‹_›
    · cases h
  · rintro rfl
    rw [if_pos (fitsWord_toInt x), Int64.ofInt_toInt]

theorem narrow?_eq_none_iff {i : Int} : narrow? i = none ↔ ¬FitsWord i := by
  unfold narrow?
  split <;> simp_all

/-- The word nearest to an integer. -/
def saturate (i : Int) : Int64 :=
  if i < -0x8000000000000000 then Int64.minValue
  else if 0x8000000000000000 ≤ i then Int64.maxValue
  else Int64.ofInt i

theorem toInt_saturate (i : Int) :
    (saturate i).toInt = max (-0x8000000000000000) (min i 0x7fffffffffffffff) := by
  unfold saturate
  split
  · rw [show Int64.minValue.toInt = -0x8000000000000000 by decide]
    omega
  · split
    · rw [show Int64.maxValue.toInt = 0x7fffffffffffffff by decide]
      omega
    · rw [toInt_ofInt_of_fitsWord ⟨by omega, by omega⟩]
      omega

end Resumable
