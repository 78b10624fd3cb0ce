import Mathlib.Data.String.Basic
import Mathlib.Logic.Relation
import Resumable.Heap.Basic

/-!
# Drawing from iterators

The position of an iterator over a text is in bounds if the text can be cut there
(`Iteration.InBounds`).  An iterator that was made to be drawn from is in bounds and stays so
(`Iteration.Draws.inBounds`), and to draw from one that is out of bounds is a fault, so that it
stays as it is (`Iteration.inBounds_or_eq`).  `Heap.Draws` says of a heap that nothing else was done
to its iterators.
-/

namespace Resumable

open Relation (ReflTransGen)

namespace Iteration

/-- The position in a text lies on a boundary between characters, or at one of the ends. -/
def InBounds : Iteration → Prop
  | chars text i => (⟨i⟩ : String.Pos.Raw).IsValid text
  | _ => True

/-- Nothing has been drawn yet. -/
def Unused : Iteration → Prop
  | items _ i | chars _ i => i = 0
  | range _ _ _ => True

/-- A value is drawn. -/
def Draws (i i' : Iteration) : Prop := ∃ fresh v, i.next? fresh = .ok (some (v, i'))

variable {i i' : Iteration} {text : String} {n : Nat}

/-- A text is cut at a position. -/
theorem inBounds_iff_cut :
    (chars text n).InBounds ↔ ∃ before after, text = before ++ after ∧ n = before.utf8ByteSize := by
  refine String.Pos.Raw.isValid_iff_exists_append.trans ?_
  simp [String.Pos.Raw.ext_iff]

theorem isValid_append (before after : String) :
    (⟨before.utf8ByteSize⟩ : String.Pos.Raw).isValid (before ++ after) = true :=
  String.Pos.Raw.isValid_eq_true_iff.2 (inBounds_iff_cut.2 ⟨before, after, rfl, rfl⟩)

/-- A text is empty or starts with a character. -/
theorem eq_empty_or_singleton_append (text : String) :
    text = "" ∨ ∃ c rest, text = String.singleton c ++ rest := by
  cases ht : text.toList with
  | nil => exact .inl (String.toList_eq_nil_iff.1 ht)
  | cons c rest =>
    refine .inr ⟨c, String.ofList rest, ?_⟩
    rw [← String.ofList_toList (s := text), ht, String.singleton_eq_ofList, ← String.ofList_append,
      List.singleton_append]

theorem head?_toList_singleton_append (c : Char) (rest : String) :
    (String.singleton c ++ rest).toList.head? = some c := by
  simp

/-- The character at a cut is the first one behind it. -/
theorem charAt?_append (before after : String) :
    charAt? (before ++ after) before.utf8ByteSize = after.toList.head? := by
  have h := String.get?_of_valid before.toList after.toList
  rwa [String.ofList_append, String.ofList_toList, String.ofList_toList,
    ← String.utf8ByteSize_ofList, String.ofList_toList] at h

/-- **Drawing from a text** in bounds: what lies behind the position is empty, or starts with the
character that is drawn, and the next position lies behind that. -/
theorem InBounds.cut (h : (chars text n).InBounds) :
    n = text.utf8ByteSize ∧ charAt? text n = none ∨
      ∃ before c after, text = before ++ (String.singleton c ++ after) ∧ n = before.utf8ByteSize ∧
        charAt? text n = some c ∧ (chars text (n + c.utf8Size)).InBounds := by
  obtain ⟨before, after, rfl, rfl⟩ := inBounds_iff_cut.1 h
  have hc := charAt?_append before after
  rcases eq_empty_or_singleton_append after with rfl | ⟨c, rest, rfl⟩
  · exact .inl ⟨by simp, hc⟩
  · rw [head?_toList_singleton_append] at hc
    refine .inr ⟨before, c, rest, rfl, rfl, hc, inBounds_iff_cut.2 ?_⟩
    refine ⟨before ++ String.singleton c, rest, ?_, ?_⟩
    · rw [String.append_assoc]
    · rw [String.utf8ByteSize_append, String.utf8ByteSize_singleton]

/-- **Drawing does not fail** exactly from an iterator in bounds. -/
theorem inBounds_iff_next? : i.InBounds ↔ ∀ fresh, ∃ x, i.next? fresh = .ok x := by
  cases i with
  | items items n => exact iff_of_true trivial fun fresh => ⟨_, rfl⟩
  | chars text n =>
    rw [InBounds, ← String.Pos.Raw.isValid_eq_true_iff]
    constructor
    · intro hv fresh
      exact ⟨_, if_pos hv⟩
    · intro h
      obtain ⟨x, hx⟩ := h default
      by_contra hv
      rw [next?, if_neg hv] at hx
      cases hx
  | range next stop step =>
    refine iff_of_true trivial fun fresh => ?_
    rw [next?]
    split
    · exact ⟨_, rfl⟩
    · exact ⟨_, rfl⟩

/-- Drawing starts in bounds, and ends there. -/
theorem Draws.inBounds (h : i.Draws i') : i.InBounds ∧ i'.InBounds := by
  obtain ⟨fresh, v, hn⟩ := h
  cases i with
  | items items n =>
    obtain ⟨_, -, he⟩ := Option.map_eq_some_iff.1 (Except.ok.inj hn)
    cases he
    exact ⟨trivial, trivial⟩
  | chars text n =>
    rw [next?] at hn
    split at hn
    · rename_i hv
      have hb : (chars text n).InBounds := String.Pos.Raw.isValid_eq_true_iff.1 hv
      obtain ⟨c, hc, he⟩ := Option.map_eq_some_iff.1 (Except.ok.inj hn)
      cases he
      refine ⟨hb, ?_⟩
      -- the text is cut at the index, and the character there is stepped over
      rcases hb.cut with ⟨-, hnone⟩ | ⟨-, d, -, -, -, hsome, hnext⟩
      · rw [hnone] at hc
        cases hc
      · rw [hsome] at hc
        cases hc
        exact hnext
    · cases hn
  | range next stop step =>
    rw [next?] at hn
    split at hn
    · cases hn
    · cases hn
      exact ⟨trivial, trivial⟩

theorem Unused.inBounds (h : i.Unused) : i.InBounds := by
  cases i with
  | items items n => trivial
  | chars text n =>
    cases h
    exact String.Pos.Raw.isValid_zero
  | range next stop step => trivial

theorem unused_placeholder : placeholder.Unused := rfl

/-- What has been drawn from is in bounds, or nothing has been drawn from it. -/
theorem inBounds_or_eq (h : ReflTransGen Draws i i') : i'.InBounds ∨ i' = i := by
  cases h with
  | refl => exact .inr rfl
  | tail _ hd => exact .inl hd.inBounds.2

end Iteration

namespace Heap

variable {h h' h'' : Heap}

/-- The iterators of `h` have been drawn from, and so may others have been that were made since. -/
structure Draws (h h' : Heap) : Prop where
  size : h.iterators.size ≤ h'.iterators.size
  old : ∀ r : Ref .iterator, r.index < h.iterators.size →
    ReflTransGen Iteration.Draws (h.iteratorAt r) (h'.iteratorAt r)
  new : ∀ r : Ref .iterator, h.iterators.size ≤ r.index → r.index < h'.iterators.size →
    ∃ i : Iteration, i.Unused ∧ ReflTransGen Iteration.Draws i (h'.iteratorAt r)

namespace Draws

theorem of_iterators (he : h'.iterators = h.iterators) : h.Draws h' where
  size := Nat.le_of_eq (by rw [he])
  old r _ := by
    rw [iteratorAt, iteratorAt, he]
  new r hl hr := by
    rw [he] at hr
    omega

theorem refl (h : Heap) : h.Draws h := of_iterators rfl

theorem trans (hh : h.Draws h') (hh' : h'.Draws h'') : h.Draws h'' where
  size := Nat.le_trans hh.size hh'.size
  old r hr := (hh.old r hr).trans (hh'.old r (Nat.lt_of_lt_of_le hr hh.size))
  new r hl hr := by
    by_cases hm : r.index < h'.iterators.size
    · obtain ⟨i, hi, hd⟩ := hh.new r hl hm
      exact ⟨i, hi, hd.trans (hh'.old r hm)⟩
    · exact hh'.new r (Nat.not_lt.1 hm) hr

theorem newIterator (h : Heap) {i : Iteration} (hi : i.Unused) : h.Draws (h.newIterator i).2 where
  size := by
    simp [Heap.newIterator]
  old r hr := by
    rw [show (h.newIterator i).2.iteratorAt r = h.iteratorAt r from Store.get_add_lt hr _]
  new r hl hr := by
    have hs : r.index < (h.iterators.add i).size := hr
    rw [Store.size_add] at hs
    have hr : r.index = h.iterators.size := by omega
    have hg : (h.newIterator i).2.iteratorAt r = i := by
      show (h.iterators.add i).get r.index = i
      rw [hr, Store.get_add_size]
    exact ⟨i, hi, by rw [hg]⟩

theorem setIterator {r : Ref .iterator} {i : Iteration} (hd : (h.iteratorAt r).Draws i) :
    h.Draws (h.setIterator r i) where
  size := by simp [Heap.setIterator]
  old r' hr := by
    by_cases he : r'.index = r.index
    · have hi : (h.setIterator r i).iteratorAt r' = i := by
        show (h.iterators.set r.index i).get r'.index = i
        rw [he, Store.get_set_self (he ▸ hr)]
      rw [hi, show h.iteratorAt r' = h.iteratorAt r from congrArg h.iterators.get he]
      exact .single hd
    · rw [show (h.setIterator r i).iteratorAt r' = h.iteratorAt r' from Store.get_set_ne he _]
  new r' hl hr := by
    simp only [Heap.setIterator, Store.size_set] at hr
    omega

/-- An iterator is in bounds afterwards, or it was not before and is as it was. -/
theorem inBounds_or (hd : h.Draws h') {r : Ref .iterator} (hr : r.index < h'.iterators.size) :
    (h'.iteratorAt r).InBounds ∨
      r.index < h.iterators.size ∧ h'.iteratorAt r = h.iteratorAt r := by
  by_cases hl : r.index < h.iterators.size
  · exact (Iteration.inBounds_or_eq (hd.old r hl)).imp_right fun he => ⟨hl, he⟩
  · obtain ⟨i, hi, hdraws⟩ := hd.new r (Nat.not_lt.1 hl) hr
    rcases Iteration.inBounds_or_eq hdraws with hb | he
    · exact .inl hb
    · exact .inl (he ▸ hi.inBounds)

end Draws

/-! ### Calls for the next item -/

variable {r : Ref .iterator}

/-- A call for the next item of an iterator.  One that is exhausted stays as it is, and so does one
from which nothing can be drawn. -/
def nextItem (r : Ref .iterator) (h : Heap) : Except Nat (Option Value) × Heap :=
  match (h.iteratorAt r).next? h.nextIdentity with
  | .ok (some (v, i)) =>
    (.ok (some v), { h.setIterator r i with nextIdentity := h.nextIdentity + 1 })
  | .ok none => (.ok none, h)
  | .error n => (.error n, h)

theorem nextItem_of_some {v : Value} {i : Iteration}
    (hn : (h.iteratorAt r).next? h.nextIdentity = .ok (some (v, i))) : h.nextItem r =
      (.ok (some v), { h.setIterator r i with nextIdentity := h.nextIdentity + 1 }) := by
  simp only [nextItem, hn]

theorem nextItem_of_none (hn : (h.iteratorAt r).next? h.nextIdentity = .ok none) :
    h.nextItem r = (.ok none, h) := by
  simp only [nextItem, hn]

theorem generators_nextItem (h : Heap) (r : Ref .iterator) :
    (h.nextItem r).2.generators = h.generators := by
  unfold nextItem
  split <;> rfl

/-- A call for the next item draws, if it does anything. -/
theorem draws_nextItem (h : Heap) (r : Ref .iterator) : h.Draws (h.nextItem r).2 := by
  unfold nextItem
  match hn : (h.iteratorAt r).next? h.nextIdentity with
  | .ok (some (v, i)) =>
    have hd : h.Draws (h.setIterator r i) := .setIterator ⟨_, v, hn⟩
    exact hd.trans (.of_iterators rfl)
  | .ok none => exact .refl h
  | .error n => exact .refl h

end Heap

end Resumable
