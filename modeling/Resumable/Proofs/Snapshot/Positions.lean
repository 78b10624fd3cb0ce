import Resumable.Proofs.Machine.Iterators
import Resumable.Proofs.Snapshot.Leftovers

/-!
# Positions that were read

The position of an iterator over a text is read as a number, and nothing is asked of this number.
So it may lie outside the text, or inside a character.  Once it has been read it stays where it is,
since whoever draws from there is stopped by a fault; and any other iterator of the heap is in
bounds, from the reading on and in every run that follows.

* `Reader.next_characters` : any position is read;
* `Heap.Reads` : a snapshot or values are read into a heap;
* `Heap.Reads.positions` : the main result.
-/

namespace Resumable

namespace Decoder

theorem iteration_characters (value : Decoder Value) {text : String} {n : Nat}
    (ht : Long text.utf8ByteSize) (hn : Long n) :
    Decodes (iteration value) (Binary.varint 1 ++ (Binary.text text ++ Binary.varint n))
      (.chars text n) :=
  (word32_varint (by decide)).andThen <| (text_decodes ht).andThen <| (word64_varint hn).last rfl

theorem run_value (r : Reader) : value.run r = (nested (r.input.length + 1)).1.run r := rfl

end Decoder

/-- The binary form of an iterator that stands at a position in a text, as the first object of its
session. -/
def charactersBytes (text : String) (n : Nat) : List UInt8 :=
  [11, 0, 1] ++ (Binary.varint 1 ++ (Binary.text text ++ Binary.varint n))

/-- **Any position is read**, wherever it lies in the text or beyond it. -/
theorem Reader.next_characters (h : Heap) {text : String} {n : Nat} (ht : Long text.utf8ByteSize)
    (hn : Long n) : ∃ r, (start h).next (charactersBytes text n) =
      (.ok (.iterator ⟨h.iterators.size⟩), r) ∧ r.heap.iterators.size = h.iterators.size + 1 ∧
        r.heap.iteratorAt ⟨h.iterators.size⟩ = .chars text n := by
  generalize hd : Decoder.nested (charactersBytes text n).length = inner
  -- the object has been made for number 0, and only its contents are left to read
  let made : Reader :=
    { input := Binary.varint 1 ++ (Binary.text text ++ Binary.varint n)
      heap := (h.newIterator Iteration.placeholder).2
      known := [(0, ⟨.iterator, h.iterators.size⟩)] }
  let filled : Reader :=
    { made with input := [], heap := made.heap.setIterator ⟨h.iterators.size⟩ (.chars text n) }
  have hcontents : (Decoder.iteration inner.1 >>= fun s => Decoder.change fun h' =>
      h'.setIterator ⟨h.iterators.size⟩ s).run made = .ok () filled := by
    obtain ⟨i, r, hi, rfl, rfl⟩ := Decoder.iteration_characters inner.1 ht hn made []
    rw [List.append_nil] at hi
    exact Decoder.run_bind_ok hi
  have hiterator : (Decoder.iterator inner.1).run { start h with input := 0 :: 1 :: made.input } =
      .ok ⟨h.iterators.size⟩ filled := by
    have hnumber : Decoder.word32.run { start h with input := 0 :: 1 :: made.input } =
        .ok 0 { start h with input := 1 :: made.input } := rfl
    have hpresent : Decoder.isPresent.run { made with input := 1 :: made.input } =
        .ok true made := rfl
    refine Decoder.run_bind_ok ((Decoder.run_sharedWith_new hnumber rfl).trans ?_)
    exact (Decoder.run_bind_ok hpresent).trans (Decoder.run_bind_ok hcontents)
  have hvalue : Decoder.value.run { start h with input := charactersBytes text n } =
      .ok (.iterator ⟨h.iterators.size⟩) filled := by
    have htag : Decoder.word32.run { start h with input := charactersBytes text n } =
        .ok 11 { start h with input := 0 :: 1 :: made.input } := rfl
    rw [Decoder.run_value, Decoder.nested]
    dsimp only
    rw [hd]
    exact (Decoder.run_bind_ok htag).trans (Decoder.run_bind_ok hiterator)
  have hsize : made.heap.iterators.size = h.iterators.size + 1 := Store.size_add _ _
  refine ⟨filled, ?_, ?_, Store.get_set_self (hsize ▸ Nat.lt_succ_self _) _⟩
  · rw [next, hvalue]
  · exact (Store.size_set _ _ _).trans hsize

/-- A snapshot is read into a heap, or one value after the other. -/
inductive Heap.Reads (h : Heap) : List (List UInt8) → Heap → Prop
  | values {inputs : List (List UInt8)} {values : List (Except CodecError Value)} {r : Reader}
      (hs : (Reader.start h).session inputs = (values, r)) : Reads h inputs r.heap
  | snapshot {bytes : List UInt8} {s : Snapshot} {h' : Heap} (hl : h.load bytes = (.ok s, h')) :
    Reads h [bytes] h'

namespace Heap

variable {h h' : Heap} {inputs : List (List UInt8)}

/-- An object of the heap was there before, or it is new and holds what the inputs carried for its
number, or nothing yet. -/
theorem Reads.contents (hr : h.Reads inputs h') {b : SharedRef} (hb : h'.Has b) :
    h.Has b ∧ h'.contents b = h.contents b ∨
      h'.contents b = .placeholder b.kind ∨
        ∃ bytes ∈ inputs, ∃ table n, Carried table bytes n b (h'.contents b) := by
  cases hr with
  | @values _ values r hs =>
    have hstart : (Reader.start h).Sound := ⟨fun _ he => absurd he List.not_mem_nil, .nil, .nil⟩
    obtain ⟨new, hl⟩ := Reader.leaves_session hstart hs
    rcases (hl.has b).1 hb with hold | hnew
    · exact .inl ⟨hold, hl.kept b hold⟩
    · obtain ⟨e, he, rfl⟩ := List.mem_map.1 hnew
      rcases hl.filled e he with ⟨bytes, hm, hc⟩ | ⟨hp, -⟩
      · exact .inr (.inr ⟨bytes, hm, _, _, hc⟩)
      · exact .inr (.inl hp)
  | @snapshot bytes s _ hl =>
    have hg := Decoder.snapshot_deepens.grown { input := bytes, heap := h }
    unfold load at hl
    split at hl
    · rename_i t r ht
      rw [ht] at hg
      obtain ⟨new, hn⟩ := hg
      obtain ⟨-, rfl⟩ := Prod.mk.inj hl
      rcases (hn.has b).1 hb with hold | hnew
      · exact .inl ⟨hold, hn.kept b hold⟩
      · obtain ⟨e, he, rfl⟩ := List.mem_map.1 hnew
        rcases hn.filled e he with hc | ⟨hf, -⟩
        · exact .inr (.inr ⟨bytes, List.mem_singleton.2 rfl, _, _, hc⟩)
        · exact hf.elim
    · cases hl

theorem Reads.inBounds_or (hr : h.Reads inputs h')
    (hb : ∀ r : Ref .iterator, r.index < h.iterators.size → (h.iteratorAt r).InBounds)
    {r : Ref .iterator} (hlt : r.index < h'.iterators.size) : (h'.iteratorAt r).InBounds ∨
      ∃ bytes ∈ inputs, ∃ table n,
        Carried table bytes n r.shared (.iterator (h'.iteratorAt r)) := by
  have hhas : h'.Has r.shared := hlt
  rcases hr.contents hhas with ⟨hold, he⟩ | hp | hc
  · have he : h'.iteratorAt r = h.iteratorAt r := Contents.iterator.inj he
    exact .inl (he ▸ hb r hold)
  · have he : h'.iteratorAt r = Iteration.placeholder := Contents.iterator.inj hp
    exact .inl (he ▸ Iteration.unused_placeholder.inBounds)
  · exact .inr hc

/-- **Iterators after reading, and in every run that follows**: each is in bounds, or it has stood
ever since where the inputs put it, and they carried that position.  From one in bounds a character
of the text is drawn, and it is in bounds again.  What is carried need not be: any position can be
read. -/
theorem Reads.positions {σ : Type} {host : Host σ} {m : Machine σ} (hr : h.Reads inputs h')
    (hb : ∀ r : Ref .iterator, r.index < h.iterators.size → (h.iteratorAt r).InBounds)
    (hh : host.Draws) (hm : m.heap = h') (fuel : Nat) :
    (∀ r : Ref .iterator, r.index < (m.run host fuel).heap.iterators.size →
      ((m.run host fuel).heap.iteratorAt r).InBounds ∨
        (m.run host fuel).heap.iteratorAt r = h'.iteratorAt r ∧
          ∃ bytes ∈ inputs, ∃ table n,
            Carried table bytes n r.shared (.iterator (h'.iteratorAt r))) ∧
    (∀ (r : Ref .iterator) text n, (m.run host fuel).heap.iteratorAt r = .chars text n →
      (Iteration.chars text n).InBounds →
        n = text.utf8ByteSize ∧ charAt? text n = none ∨
          ∃ before c after, text = before ++ (String.singleton c ++ after) ∧
            n = before.utf8ByteSize ∧ charAt? text n = some c ∧
              (Iteration.chars text (n + c.utf8Size)).InBounds) ∧
    ∀ text n, Long text.utf8ByteSize → Long n →
      ∃ r, (Reader.start h).next (charactersBytes text n) =
        (.ok (.iterator ⟨h.iterators.size⟩), r) ∧
          r.heap.iteratorAt ⟨h.iterators.size⟩ = .chars text n := by
  subst hm
  refine ⟨fun r hlt => ?_, fun _ _ _ _ hin => hin.cut, fun text n ht hn => ?_⟩
  · rcases (Machine.draws_run hh fuel m).inBounds_or hlt with hin | ⟨hold, he⟩
    · exact .inl hin
    · rw [he]
      exact (hr.inBounds_or hb hold).imp_right fun hc => ⟨rfl, hc⟩
  · obtain ⟨r, hv, -, hi⟩ := Reader.next_characters h ht hn
    exact ⟨r, hv, hi⟩

end Heap

/-! ### An iterator beyond its text -/

/-- The code of a loop that draws from an iterator until there is nothing left. -/
def drawingCode : CodeObject where
  identity := 1
  body :=
    { name := "drawing"
      bytecode := [Opcode.loadFast.byte, 0, 0, Opcode.forIter.byte, 4, 0, Opcode.popTop.byte,
        Opcode.jumpAbsolute.byte, 3, 0, Opcode.nop.byte]
      varnames := ["characters"]
      maxStack := 2
      flags := .function
      firstLine := 1 }

/-- A frame of that code, whose local is the first iterator of the heap. -/
def drawingFrame : Frame where
  code := drawingCode
  globals := ⟨0⟩
  builtins := Heap.defaultBuiltins
  locals := .fast [some (.iterator ⟨0⟩)]
  cells := []
  stack := .empty 2
  trace := { line := 1 }

/-- The position 5 in the text "a" is read, and stays where it is when a loop draws from the
iterator. -/
theorem drawingFrame_positions : ∃ h' : Heap,
    Heap.initial.Reads [charactersBytes "a" 5] h' ∧ h'.iteratorAt ⟨0⟩ = .chars "a" 5 ∧
      ∃ m : Machine Unit, m = { Machine.running drawingFrame (.dispatch 0) 0 with heap := h' } ∧
        (((m.run Host.silent 3).heap.iteratorAt ⟨0⟩).InBounds ∨
          (m.run Host.silent 3).heap.iteratorAt ⟨0⟩ = h'.iteratorAt ⟨0⟩ ∧
            ∃ bytes ∈ [charactersBytes "a" 5], ∃ table n,
              Carried table bytes n ⟨.iterator, 0⟩ (.iterator (h'.iteratorAt ⟨0⟩))) := by
  have ht : Long "a".utf8ByteSize := by decide
  have hn : Long 5 := by decide
  obtain ⟨r, hv, hsize, hi⟩ := Reader.next_characters .initial ht hn
  have hs : (Reader.start .initial).session [charactersBytes "a" 5] =
      ([.ok (.iterator ⟨0⟩)], r) := by
    simp only [Reader.session]
    rw [hv]
    rfl
  have hh : Host.silent.Draws := fun _ _ _ h _ => .refl h
  refine ⟨r.heap, .values hs, hi, _, rfl, ?_⟩
  have hempty (r : Ref .iterator) (hlt : r.index < Heap.initial.iterators.size) :
      (Heap.initial.iteratorAt r).InBounds := absurd hlt (Nat.not_lt_zero _)
  refine ((Heap.Reads.values hs).positions hempty hh rfl 3).1 ⟨0⟩ ?_
  have hgrows := (Machine.draws_run hh 3
    { Machine.running drawingFrame (.dispatch 0) 0 with heap := r.heap }).size
  have hone : r.heap.iterators.size = 0 + 1 := hsize
  exact Nat.lt_of_lt_of_le (by rw [hone]; decide) hgrows

end Resumable
