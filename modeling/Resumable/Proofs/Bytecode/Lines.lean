import Mathlib
import Resumable.Bytecode.LineTable

/-!
# Lines and ranges of a code object

The steps of a line table only lead forward, so lines grow with offsets.  The line starts tell all
about it: a start lies at or before an offset exactly if its line is not beyond that of the offset
(`CodeOf.le_lineForOffset_iff`), and the line of an offset is the first line or that of a start
(`CodeOf.lineForOffset_eq_or`).

Two offsets lie together if all offsets from the one to the other share a line, which makes up the
ranges of a code object (`CodeOf.Together`), and an offset begins its range if it lies together with
none before it (`CodeOf.Begins`).  `LineRange.find` stands by that: the start of the range found for
an offset begins the range of that offset (`CodeOf.lineRange_start`), and its stop lies behind the
offset, with nothing of another range in between (`CodeOf.lineRange_stop`).
-/

namespace Resumable

namespace LineStep

variable {o : Nat} {steps : List LineStep} {address line : Nat} {p : Nat × Nat}

/-- The starts of the steps behind a step, and the one of the step itself. -/
theorem mem_starts_cons {s : LineStep} : p ∈ starts (s :: steps) address line ↔
    (s.line ≠ 0 ∧ p = (address + s.offset, line + s.line)) ∨
      p ∈ starts steps (address + s.offset) (line + s.line) := by
  by_cases hs : s.line = 0
  · simp [starts, hs]
  · simp [starts, hs]

/-- Steps start lines beyond what has been read. -/
theorem lt_of_mem_starts (h : p ∈ starts steps address line) : address ≤ p.1 ∧ line < p.2 := by
  induction steps generalizing address line with
  | nil => cases h
  | cons s steps ih =>
    rcases mem_starts_cons.1 h with ⟨hs, rfl⟩ | h
    · exact ⟨Nat.le_add_right _ _, by dsimp only; omega⟩
    · have := ih h
      omega

/-- The starts are in the order of their offsets and of their lines. -/
theorem starts_sorted (steps : List LineStep) (address line : Nat) :
    (starts steps address line).Pairwise fun p q => p.1 ≤ q.1 ∧ p.2 < q.2 := by
  induction steps generalizing address line with
  | nil => exact .nil
  | cons s steps ih =>
    rw [starts]
    split
    · exact ih _ _
    · exact List.pairwise_cons.2 ⟨fun q hq => lt_of_mem_starts hq, ih _ _⟩

theorem lineAt_cons_of_lt {s : LineStep} (h : o < address + s.offset) :
    lineAt o (s :: steps) address line = line := by
  rw [lineAt, if_pos h]

theorem lineAt_cons_of_le {s : LineStep} (h : address + s.offset ≤ o) :
    lineAt o (s :: steps) address line = lineAt o steps (address + s.offset) (line + s.line) := by
  rw [lineAt, if_neg (Nat.not_lt.2 h)]

/-- The steps lead forward from where they are read. -/
theorem lineAt_of_lt (h : o < address) : lineAt o steps address line = line := by
  cases steps with
  | nil => rfl
  | cons s steps => exact lineAt_cons_of_lt (Nat.lt_of_lt_of_le h (Nat.le_add_right _ _))

theorem le_lineAt (o : Nat) (steps : List LineStep) (address line : Nat) :
    line ≤ lineAt o steps address line := by
  induction steps generalizing address line with
  | nil => exact Nat.le_refl _
  | cons s steps ih =>
    rw [lineAt]
    split
    · exact Nat.le_refl _
    · exact Nat.le_trans (Nat.le_add_right _ _) (ih _ _)

/-- A line has started by an offset if its start lies there or before. -/
theorem le_lineAt_iff (h : p ∈ starts steps address line) :
    p.2 ≤ lineAt o steps address line ↔ p.1 ≤ o := by
  induction steps generalizing address line with
  | nil => cases h
  | cons s steps ih =>
    have hp := lt_of_mem_starts h
    rcases Nat.lt_or_ge o (address + s.offset) with ho | ho
    · rw [lineAt_cons_of_lt ho]
      have hs : address + s.offset ≤ p.1 := by
        rcases mem_starts_cons.1 h with ⟨-, rfl⟩ | h
        · exact Nat.le_refl _
        · exact (lt_of_mem_starts h).1
      omega
    · rw [lineAt_cons_of_le ho]
      rcases mem_starts_cons.1 h with ⟨-, rfl⟩ | h
      · exact iff_of_true (le_lineAt _ _ _ _) ho
      · exact ih h

/-- An offset is on the line read so far, or on one that has started by then. -/
theorem lineAt_eq_or (o : Nat) (steps : List LineStep) (address line : Nat) :
    lineAt o steps address line = line ∨
      ∃ p ∈ starts steps address line, p.1 ≤ o ∧ p.2 = lineAt o steps address line := by
  induction steps generalizing address line with
  | nil => exact .inl rfl
  | cons s steps ih =>
    rcases Nat.lt_or_ge o (address + s.offset) with ho | ho
    · exact .inl (lineAt_cons_of_lt ho)
    · rw [lineAt_cons_of_le ho]
      rcases ih (address + s.offset) (line + s.line) with hl | ⟨p, hp, hpo, hl⟩
      · by_cases hs : s.line = 0
        · exact .inl (by omega)
        · exact .inr ⟨_, mem_starts_cons.2 (.inl ⟨hs, rfl⟩), ho, hl.symm⟩
      · exact .inr ⟨p, mem_starts_cons.2 (.inr hp), hpo, hl⟩

end LineStep

namespace LineRange

open LineStep

variable {o e : Nat} {steps : List LineStep} {address line start : Nat}

/-- The start of the range around an offset is where its line starts. -/
theorem start_around (o : Nat) (steps : List LineStep) (address line start : Nat) :
    ((around o steps address line start).start = start ∧ lineAt o steps address line = line) ∨
      ∃ p ∈ starts steps address line, p.1 = (around o steps address line start).start ∧ p.1 ≤ o ∧
        p.2 = lineAt o steps address line := by
  induction steps generalizing address line start with
  | nil => exact .inl ⟨rfl, rfl⟩
  | cons s steps ih =>
    rcases Nat.lt_or_ge o (address + s.offset) with ho | ho
    · rw [lineAt_cons_of_lt ho, around, if_pos ho]
      exact .inl ⟨rfl, rfl⟩
    · rw [lineAt_cons_of_le ho, around, if_neg (Nat.not_lt.2 ho)]
      rcases ih (address + s.offset) (line + s.line)
        (if s.line = 0 then start else address + s.offset) with ⟨hs, hl⟩ | ⟨p, hp, h⟩
      · by_cases hz : s.line = 0
        · rw [if_pos hz] at hs
          exact .inl ⟨by simpa [hz] using hs, by omega⟩
        · rw [if_neg hz] at hs
          exact .inr ⟨_, mem_starts_cons.2 (.inl ⟨hz, rfl⟩), by simpa [hz] using hs.symm, ho,
            hl.symm⟩
      · exact .inr ⟨p, mem_starts_cons.2 (.inr hp), h⟩

/-- No line starts before the address at which a range stops. -/
theorem lineAt_of_stopAfter (line : Nat) (h : stopAfter o steps address = some e) :
    address ≤ e ∧ ∀ x < e, lineAt x steps address line = line := by
  induction steps generalizing address with
  | nil =>
    rw [stopAfter] at h
    split at h <;> cases h
    exact ⟨Nat.le_refl _, fun _ _ => rfl⟩
  | cons s steps ih =>
    rw [stopAfter] at h
    split at h
    · rename_i hz
      obtain ⟨he, hx⟩ := ih h
      refine ⟨Nat.le_trans (Nat.le_add_right _ _) he, fun x hxe => ?_⟩
      rw [lineAt, hz, Nat.add_zero]
      split
      · rfl
      · exact hx x hxe
    · cases h
      exact ⟨Nat.le_add_right _ _, fun x hx => lineAt_cons_of_lt hx⟩

theorem stopAfter_ne_none (h : o < address) : stopAfter o steps address ≠ none := by
  induction steps generalizing address with
  | nil => simp [stopAfter, h]
  | cons s steps ih =>
    rw [stopAfter]
    split
    · exact ih (Nat.lt_of_lt_of_le h (Nat.le_add_right _ _))
    · exact nofun

/-- The range around an offset stops behind it, and all from the offset to the stop is on its line;
without a stop, all that follows is. -/
theorem stop_around (steps : List LineStep) (line start : Nat) (h : address ≤ o) :
    (∀ e, (around o steps address line start).stop = some e → o < e) ∧
      ∀ x, o ≤ x → (∀ e, (around o steps address line start).stop = some e → x < e) →
        lineAt x steps address line = lineAt o steps address line := by
  induction steps generalizing address line start with
  | nil =>
    refine ⟨fun e he => ?_, fun _ _ _ => rfl⟩
    rw [around, stopAfter, if_neg (Nat.not_lt.2 h)] at he
    cases he
  | cons s steps ih =>
    -- a step behind the offset does not reach it, and the range lasts until the line changes
    rcases Nat.lt_or_ge o (address + s.offset) with ho | ho
    · rw [lineAt_cons_of_lt ho, around, if_pos ho]
      dsimp only
      cases hs : stopAfter o (s :: steps) address with
      | none =>
        rw [stopAfter] at hs
        split at hs
        · exact absurd hs (stopAfter_ne_none ho)
        · cases hs
      | some e =>
        refine ⟨?_, fun x _ hx => (lineAt_of_stopAfter line hs).2 x (hx e rfl)⟩
        rintro _ ⟨⟩
        rw [stopAfter] at hs
        split at hs
        · exact Nat.lt_of_lt_of_le ho (lineAt_of_stopAfter line hs).1
        · cases hs
          exact ho
    · rw [lineAt_cons_of_le ho, around, if_neg (Nat.not_lt.2 ho)]
      obtain ⟨he, hx⟩ := ih _ _ ho
      refine ⟨he, fun x hox hxe => ?_⟩
      rw [lineAt_cons_of_le (Nat.le_trans ho hox)]
      exact hx x hox hxe

end LineRange

namespace CodeOf

variable {κ : Type} {c : CodeOf κ} {a b o : Nat} {p : Nat × Nat}

/-! ### Line starts -/

theorem firstLine_lt_of_mem (h : p ∈ c.lineStarts) : c.firstLine < p.2 :=
  (LineStep.lt_of_mem_starts h).2

theorem lineStarts_sorted (c : CodeOf κ) :
    c.lineStarts.Pairwise fun p q => p.1 ≤ q.1 ∧ p.2 < q.2 :=
  LineStep.starts_sorted _ _ _

theorem firstLine_le (c : CodeOf κ) (o : Nat) : c.firstLine ≤ c.lineForOffset o :=
  LineStep.le_lineAt _ _ _ _

/-- A line has started by an offset if its start lies there or before. -/
theorem le_lineForOffset_iff (h : p ∈ c.lineStarts) : p.2 ≤ c.lineForOffset o ↔ p.1 ≤ o :=
  LineStep.le_lineAt_iff h

/-- An offset is on the first line, or on one that has started by then. -/
theorem lineForOffset_eq_or (c : CodeOf κ) (o : Nat) : c.lineForOffset o = c.firstLine ∨
    ∃ p ∈ c.lineStarts, p.1 ≤ o ∧ p.2 = c.lineForOffset o :=
  LineStep.lineAt_eq_or _ _ _ _

/-- Lines grow with offsets. -/
theorem lineForOffset_mono (h : a ≤ b) : c.lineForOffset a ≤ c.lineForOffset b := by
  rcases c.lineForOffset_eq_or a with ha | ⟨p, hp, hpa, ha⟩
  · rw [ha]
    exact c.firstLine_le b
  · rw [← ha]
    exact (le_lineForOffset_iff hp).2 (Nat.le_trans hpa h)

/-! ### Ranges -/

/-- The offsets lie in one range: all offsets from the one to the other share a line. -/
def Together (c : CodeOf κ) (a b : Nat) : Prop :=
  ∀ o, min a b ≤ o → o ≤ max a b → c.lineForOffset o = c.lineForOffset a

/-- The offset is the first one of its range. -/
def Begins (c : CodeOf κ) (o : Nat) : Prop := ∀ a < o, ¬c.Together a o

/-- Offsets on one line lie together, since lines grow. -/
theorem together_iff : c.Together a b ↔ c.lineForOffset a = c.lineForOffset b := by
  refine ⟨fun h => (h b (Nat.min_le_right _ _) (Nat.le_max_right _ _)).symm, fun h o ha hb => ?_⟩
  have hl := lineForOffset_mono (c := c) ha
  have hu := lineForOffset_mono (c := c) hb
  rcases Nat.le_total a b with hab | hab
  · rw [Nat.min_eq_left hab] at hl
    rw [Nat.max_eq_right hab] at hu
    omega
  · rw [Nat.min_eq_right hab] at hl
    rw [Nat.max_eq_left hab] at hu
    omega

/-- Where a line starts, a range begins. -/
theorem begins_of_mem (h : p ∈ c.lineStarts) : c.Begins p.1 := by
  intro a ha ht
  have hl := (le_lineForOffset_iff (o := p.1) h).2 (Nat.le_refl _)
  rw [← together_iff.1 ht, le_lineForOffset_iff h] at hl
  omega

/-- A range begins at the start of the code or where a line starts. -/
theorem begins_iff : c.Begins o ↔ o = 0 ∨ ∃ line, (o, line) ∈ c.lineStarts := by
  refine ⟨fun h => ?_, ?_⟩
  · refine or_iff_not_imp_left.2 fun hz => ?_
    have hl := lineForOffset_mono (c := c) (Nat.sub_le o 1)
    have hn := mt together_iff.2 (h (o - 1) (by omega))
    rcases c.lineForOffset_eq_or o with ho | ⟨p, hp, hpo, ho⟩
    · have := c.firstLine_le (o - 1)
      omega
    · have hs := (le_lineForOffset_iff (o := o - 1) hp).not.1 (by omega)
      obtain rfl : p.1 = o := by omega
      exact ⟨p.2, hp⟩
  · rintro (rfl | ⟨line, h⟩)
    · exact fun a ha => absurd ha (Nat.not_lt_zero a)
    · exact begins_of_mem h

/-- The first offset of a range lies before the others of the range. -/
theorem Begins.le (h : c.Begins a) (ht : c.Together a b) : a ≤ b := by
  by_contra hb
  exact h b (by omega) (together_iff.2 (together_iff.1 ht).symm)

/-- **The range found for an offset starts where the range of that offset begins.** -/
theorem lineRange_start (c : CodeOf κ) (o : Nat) : (c.lineRange o).start ≤ o ∧
    c.Together (c.lineRange o).start o ∧ c.Begins (c.lineRange o).start := by
  rcases LineRange.start_around o c.lineSteps 0 c.firstLine 0 with ⟨hs, hl⟩ | ⟨p, hp, hs, hpo, hl⟩
  · have hz : (c.lineRange o).start = 0 := hs
    rw [hz]
    refine ⟨Nat.zero_le _, together_iff.2 (Nat.le_antisymm (lineForOffset_mono (Nat.zero_le _)) ?_),
      begins_iff.2 (.inl rfl)⟩
    exact Nat.le_trans (Nat.le_of_eq hl) (c.firstLine_le 0)
  · have hs : p.1 = (c.lineRange o).start := hs
    have hp : p ∈ c.lineStarts := hp
    rw [← hs]
    refine ⟨hpo, together_iff.2 (Nat.le_antisymm (lineForOffset_mono hpo) ?_), begins_of_mem hp⟩
    exact Nat.le_trans (Nat.le_of_eq hl.symm) ((le_lineForOffset_iff hp).2 (Nat.le_refl _))

/-- **The range found for an offset stops behind it**, and lies together up to there. -/
theorem lineRange_stop (c : CodeOf κ) (o : Nat) : (∀ e, (c.lineRange o).stop = some e → o < e) ∧
    ∀ x, o ≤ x → (∀ e, (c.lineRange o).stop = some e → x < e) → c.Together o x := by
  obtain ⟨he, hx⟩ := LineRange.stop_around c.lineSteps c.firstLine 0 (Nat.zero_le o)
  exact ⟨he, fun x hox hxe => together_iff.2 (hx x hox hxe).symm⟩

end CodeOf

end Resumable
