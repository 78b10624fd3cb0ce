import Mathlib
import Resumable.Proofs.Bytecode.Lines

/-!
# The range of an offset

A line table advances the line at its line starts; its other steps are padding, and lead to
addresses at which nothing changes (`CodeOf.paddings`).  The range of an offset reaches from the
last line start at or before it, or the start of the code, up to the first line start behind it.
Behind the last line start, it reaches to the end of the padding if that lies behind the offset, and
else has no end.

`LineRange.Surrounds` collects what is to be said of the range around an offset, whose line is read
on its own (`CodeOf.lineForOffset`).

* `LineRange.stop_around_eq` : where the range found for an offset stops.
* `CodeOf.lineRange_eq_iff` : the range found for an offset is the one around it, and there is only
  one.  Steps may lead nowhere, share an address or end the table, and the code need not be valid.
-/

namespace Resumable

/-- The addresses of the steps that leave the line as it is. -/
def LineStep.paddings : List LineStep → Nat → List Nat
  | [], _ => []
  | s :: rest, address =>
    let later := paddings rest (address + s.offset)
    if s.line = 0 then (address + s.offset) :: later else later

/-- The addresses of the steps of a line table that only pad, in table order. -/
def CodeOf.paddings {κ : Type} (c : CodeOf κ) : List Nat := LineStep.paddings c.lineSteps 0

/-- The range lies around an offset, and goes as far as a line table says. -/
structure LineRange.Surrounds {κ : Type} (r : LineRange) (c : CodeOf κ) (o : Nat) : Prop where
  line : r.line = c.lineForOffset o
  start_le : r.start ≤ o
  lt_stop : ∀ e, r.stop = some e → o < e
  /-- All offsets of the range share its line. -/
  shares : ∀ x, r.start ≤ x → (∀ e, r.stop = some e → x < e) → c.lineForOffset x = r.line
  start : r.start = 0 ∨ ∃ line, (r.start, line) ∈ c.lineStarts
  /-- It ends at the next line start or, if none follows, with the last padding behind the
  offset. -/
  stop : r.stop = ((c.lineStarts.find? fun p => o < p.1).map Prod.fst).or
    (c.paddings.filter (o < ·)).getLast?

attribute [ext] LineRange

namespace LineRange

open LineStep

variable {o : Nat} {steps : List LineStep} {address line start : Nat}

/-- The next line start behind the offset or, if none follows, the last padding behind it, with the
steps read so far ending at `address` and `line`. -/
def nextStop (o : Nat) (steps : List LineStep) (address line : Nat) : Option Nat :=
  (((starts steps address line).find? fun p => o < p.1).map Prod.fst).or
    ((paddings steps address).filter (o < ·)).getLast?

/-- A step beyond the offset is where the range stops, unless it pads and others follow. -/
theorem nextStop_cons_of_lt {s : LineStep} (ho : o < address + s.offset) :
    nextStop o (s :: steps) address line = some (if s.line = 0
      then (nextStop o steps (address + s.offset) line).getD (address + s.offset)
      else address + s.offset) := by
  by_cases hz : s.line = 0
  · simp only [nextStop, starts, paddings, hz, ho, if_true, Nat.add_zero, decide_true,
      List.filter_cons_of_pos, List.getLast?_cons]
    cases (starts steps (address + s.offset) line).find? fun p => o < p.1 <;> simp
  · simp [nextStop, starts, hz, ho]

theorem nextStop_cons_of_le {s : LineStep} (ho : address + s.offset ≤ o) :
    nextStop o (s :: steps) address line =
      nextStop o steps (address + s.offset) (line + s.line) := by
  have hn : ¬o < address + s.offset := Nat.not_lt.2 ho
  by_cases hz : s.line = 0 <;> simp [nextStop, starts, paddings, hz, hn]

/-- Once the steps lead beyond the offset, there is a stop. -/
theorem stopAfter_eq (line : Nat) (ho : o < address) :
    stopAfter o steps address = some ((nextStop o steps address line).getD address) := by
  induction steps generalizing address with
  | nil => simp [stopAfter, nextStop, starts, paddings, ho]
  | cons s steps ih =>
    have hs : o < address + s.offset := Nat.lt_of_lt_of_le ho (Nat.le_add_right _ _)
    rw [stopAfter, nextStop_cons_of_lt hs, Option.getD_some]
    split
    · exact ih hs
    · rfl

/-- **A range stops at the next line start or with the last padding.** -/
theorem stop_around_eq (ha : address ≤ o) :
    (around o steps address line start).stop = nextStop o steps address line := by
  induction steps generalizing address line start with
  | nil => simp [around, stopAfter, nextStop, starts, paddings, Nat.not_lt.2 ha]
  | cons s steps ih =>
    rw [around]
    split
    · rename_i ho
      rw [nextStop_cons_of_lt ho, stopAfter]
      split
      · exact stopAfter_eq line ho
      · rfl
    · rename_i ho
      rw [nextStop_cons_of_le (Nat.not_lt.1 ho)]
      exact ih (Nat.not_lt.1 ho)

end LineRange

namespace CodeOf

variable {κ : Type} {c : CodeOf κ} {o : Nat} {r : LineRange}

theorem lineRange_surrounds (c : CodeOf κ) (o : Nat) : (c.lineRange o).Surrounds c o := by
  obtain ⟨hle, htogether, hbegins⟩ := c.lineRange_start o
  obtain ⟨hlt, hafter⟩ := c.lineRange_stop o
  refine ⟨c.line_lineRange o, hle, hlt, ?_, begins_iff.1 hbegins,
    LineRange.stop_around_eq (Nat.zero_le o)⟩
  intro x hx hstop
  rw [c.line_lineRange]
  -- before the offset, the start vouches for the line; behind it, the stop does
  rcases Nat.le_total x o with hxo | hox
  · refine Nat.le_antisymm (lineForOffset_mono hxo) ?_
    rw [← together_iff.1 htogether]
    exact lineForOffset_mono hx
  · exact (together_iff.1 (hafter x hox hstop)).symm

theorem together_start (h : r.Surrounds c o) : c.Begins r.start ∧ c.Together r.start o := by
  refine ⟨begins_iff.2 h.start, together_iff.2 ?_⟩
  rw [← h.line]
  exact h.shares r.start (Nat.le_refl _) fun e he => Nat.lt_of_le_of_lt h.start_le (h.lt_stop e he)

/-- **The range found for an offset lies around it, and is the only one that does.** -/
theorem lineRange_eq_iff : c.lineRange o = r ↔ r.Surrounds c o := by
  have hfound := c.lineRange_surrounds o
  constructor
  · rintro rfl
    exact hfound
  · intro h
    obtain ⟨hbegins, ho⟩ := together_start h
    obtain ⟨hbegins', ho'⟩ := together_start hfound
    have hl : c.lineForOffset (c.lineRange o).start = c.lineForOffset r.start :=
      (together_iff.1 ho').trans (together_iff.1 ho).symm
    refine LineRange.ext (hfound.line.trans h.line.symm) ?_ (hfound.stop.trans h.stop.symm)
    exact Nat.le_antisymm (hbegins'.le (together_iff.2 hl)) (hbegins.le (together_iff.2 hl.symm))

/-- Two lines start at offset 4, and two steps of padding end the table. -/
example : let c : CodeOf Unit := { firstLine := 1, lineTable := [0, 2, 4, 255, 0, 1, 3, 0, 2, 0] }
    c.lineRange 2 = ⟨3, 0, some 4⟩ ∧ c.lineRange 5 = ⟨259, 4, some 9⟩ ∧
      c.lineRange 9 = ⟨259, 4, none⟩ := by decide

end CodeOf

end Resumable
