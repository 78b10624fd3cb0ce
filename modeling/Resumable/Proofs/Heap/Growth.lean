import Resumable.Frame.Creation
import Resumable.Machine.Generator
import Resumable.Proofs.Heap.Iteration

/-!
# Heaps that grow

An instruction adds objects to the heap and changes some that are there.  To a generator that is
there it does nothing, and those it adds have not started (`Heap.AddsGenerators`); from an iterator
it draws at most (`Heap.Draws`).  `Heap.Grows` is the two together.  Making a frame and binding its
arguments touches neither.
-/

namespace Resumable

namespace Heap

variable {h h' h'' : Heap}

/-- The heap `h'` has the generators of `h`, and others that have not started and whose frames are
not done. -/
structure AddsGenerators (h h' : Heap) : Prop where
  size : h.generators.size ≤ h'.generators.size
  old : ∀ r : Ref .generator, r.index < h.generators.size → h'.generatorAt r = h.generatorAt r
  new : ∀ r : Ref .generator, h.generators.size ≤ r.index → r.index < h'.generators.size →
    ∃ name f, h'.generatorAt r = ⟨.notStarted, name, some f⟩ ∧ f.finished = false

/-- The heap `h'` is `h` with generators added and iterators drawn from, whatever else it has. -/
structure Grows (h h' : Heap) : Prop where
  adds : h.AddsGenerators h'
  draws : h.Draws h'

namespace AddsGenerators

theorem of_generators (he : h'.generators = h.generators) : h.AddsGenerators h' where
  size := by rw [he]
  old r _ := by rw [generatorAt, generatorAt, he]
  new r hl hr := by
    rw [he] at hr
    omega

theorem refl (h : Heap) : h.AddsGenerators h := of_generators rfl

theorem trans (hh : h.AddsGenerators h') (hh' : h'.AddsGenerators h'') : h.AddsGenerators h'' where
  size := Nat.le_trans hh.size hh'.size
  old r hr := (hh'.old r (Nat.lt_of_lt_of_le hr hh.size)).trans (hh.old r hr)
  new r hl hr := by
    by_cases hm : r.index < h'.generators.size
    · obtain ⟨name, f, hg, hf⟩ := hh.new r hl hm
      exact ⟨name, f, (hh'.old r hm).trans hg, hf⟩
    · exact hh'.new r (Nat.not_lt.1 hm) hr

theorem newGeneratorOf (h : Heap) {f : Frame} (hf : f.finished = false) :
    h.AddsGenerators (h.newGeneratorOf f).2 where
  size := by
    show _ ≤ (h.generators.add _).size
    rw [Store.size_add]
    omega
  old r hr := Store.get_add_lt hr _
  new r hl hr := by
    have hs : r.index < (h.generators.add ⟨.notStarted, f.name, some f⟩).size := hr
    rw [Store.size_add] at hs
    have hi : r.index = h.generators.size := by omega
    refine ⟨f.name, f, ?_, hf⟩
    show (h.generators.add _).get r.index = _
    rw [hi, Store.get_add_size]

end AddsGenerators

namespace Grows

theorem of_stores (hg : h'.generators = h.generators) (hi : h'.iterators = h.iterators) :
    h.Grows h' := ⟨.of_generators hg, .of_iterators hi⟩

theorem refl (h : Heap) : h.Grows h := .of_stores rfl rfl

theorem trans (hh : h.Grows h') (hh' : h'.Grows h'') : h.Grows h'' :=
  ⟨hh.adds.trans hh'.adds, hh.draws.trans hh'.draws⟩

theorem newIterator (h : Heap) {i : Iteration} (hi : i.Unused) : h.Grows (h.newIterator i).2 :=
  ⟨.of_generators rfl, .newIterator h hi⟩

theorem newGeneratorOf (h : Heap) {f : Frame} (hf : f.finished = false) :
    h.Grows (h.newGeneratorOf f).2 := ⟨.newGeneratorOf h hf, .of_iterators rfl⟩

end Grows

theorem grows_newCells (names : List String) (h : Heap) : h.Grows (newCells names h).2 := by
  induction names generalizing h with
  | nil => exact .refl h
  | cons name names ih =>
    have hg : h.Grows (h.newCell none).2 := .of_stores rfl rfl
    exact hg.trans (ih _)

end Heap

namespace Frame

variable {code : CodeObject} {globals builtins : Ref .mapping} {closure : List (Ref .cell)}
  {args : List Value} {f g : Frame} {h h' : Heap}

theorem grows_initialLocals (code : Code) (globals : Ref .mapping) (h : Heap) :
    h.Grows (initialLocals code globals h).2 := by
  unfold initialLocals
  split
  · exact .refl h
  · split
    · exact .of_stores rfl rfl
    · exact .refl h

/-- A frame that is made is not done. -/
theorem grows_create (hc : create code globals builtins closure h = .ok (f, h')) :
    f.finished = false ∧ h.Grows h' := by
  simp only [create] at hc
  split at hc
  · cases hc
  · cases hc
    exact ⟨rfl, (grows_initialLocals _ _ h).trans (Heap.grows_newCells _ _)⟩

theorem grows_fillCells (parameters : List String) (slots : List (Option Value))
    (cells : List (Ref .cell)) (names : List String) (h : Heap) :
    h.Grows (fillCells parameters slots cells names h) := by
  induction cells generalizing names h with
  | nil => exact .refl h
  | cons cell cells ih =>
    cases names with
    | nil => exact .refl h
    | cons name names =>
      unfold fillCells
      dsimp only
      refine Heap.Grows.trans ?_ (ih names _)
      split
      · exact .of_stores rfl rfl
      · exact .refl h

theorem grows_bindArguments (hb : f.bindArguments args h = .ok (g, h')) :
    g.finished = f.finished ∧ h.Grows h' := by
  unfold bindArguments at hb
  split at hb
  · cases hb
  · split at hb
    · cases hb
    · cases hb
      exact ⟨rfl, grows_fillCells _ _ _ _ h⟩

end Frame

end Resumable
