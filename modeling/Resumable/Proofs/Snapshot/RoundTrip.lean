import Resumable.Proofs.Snapshot.ReadBack

/-!
# Snapshots survive being written and read

A snapshot that may be written is read back, into any heap, as an isomorphic one
(`Heap.load_dump`), whatever its objects share and however they refer to each other.  The proof is
by induction on the nesting that the decoder allows for, which is never less than what is written is
long.

`Heap.knot` ties a function, a cell and a generator into circles.
-/

namespace Resumable

variable {h : Heap} {fuel : Nat} {reach : SharedRef → Prop}

theorem length_variant_pos (index : Nat) (name : String) (d : Datum) :
    0 < (Datum.variant index name d).bytes.length := by
  rw [Datum.bytes_variant, List.length_append]
  exact Nat.add_pos_left (Decoder.length_varint_pos index) _

theorem length_value_pos (shared : SharedRef → Encoder Datum) (v : Value) (m : List SharedRef) :
    0 < ((v.datum shared).run m).1.bytes.length := by
  cases v <;> first
    | exact Decoder.length_varint_pos _
    | exact length_variant_pos _ _ _

theorem length_snapshot_pos (shared : SharedRef → Encoder Datum) (s : Snapshot)
    (m : List SharedRef) : 0 < ((s.datumWith shared).run m).1.bytes.length := by
  change 0 < (Datum.record (("version", .natural s.frame.version) :: _)).bytes.length
  rw [Datum.bytes_record, Datum.bytesOfFields, Datum.bytes, List.length_append]
  exact Nat.add_pos_left (Decoder.length_varint_pos _) _

/-- The readers of every nesting read back what nests no deeper. -/
theorem readBack_nested (hc : h.Closed reach) (hs : h.size ≤ 2 ^ 32) (nesting : Nat) :
    ReadBack h reach nesting (Decoder.nested nesting).1 (Decoder.nested nesting).2 := by
  induction nesting with
  | zero =>
    constructor
    · intro fuel opened v _ pairs r b met _ he hl
      have hpos := length_value_pos (h.sharedDatum fuel) v (pairs.map Prod.fst)
      rw [he] at hpos
      exact absurd (Nat.lt_of_lt_of_le hpos hl) (Nat.lt_irrefl 0)
    · intro fuel opened s _ pairs r b met _ he hl
      have hpos := length_snapshot_pos (h.sharedDatum fuel) s (pairs.map Prod.fst)
      rw [he] at hpos
      exact absurd (Nat.lt_of_lt_of_le hpos hl) (Nat.lt_irrefl 0)
  | succ nesting ih =>
    exact ⟨fun _ _ _ hw => ih.valueWith hc hs hw, fun _ _ _ hw => ih.snapshotWith hc hs hw⟩

theorem Pairing.nil (h g : Heap) (input : List UInt8) :
    Pairing h (h.size + 1) [] [] { input, heap := g } where
  fueled := ⟨.nil, nofun, Nat.lt_succ_self _⟩
  known := fun _ => rfl
  distinct := .nil
  made := nofun
  kind := nofun
  filled := nofun

/-- Once nothing is open, the objects made match the objects written. -/
theorem Pairing.matching {pairs : Pairs} {r : Reader} (hp : Pairing h fuel [] pairs r) :
    h.Matching r.heap pairs.Paired where
  held := fun hab => ⟨hp.fueled.held _ (List.mem_map_of_mem hab), hp.made _ hab⟩
  injective := hp.injective
  contents := fun hab => hp.filled _ hab nofun

/-- **A snapshot survives being written and read.**  A snapshot of the current version over a heap,
however its objects are shared and refer to each other, is read back into any heap as an isomorphic
one, which is written as the same bytes again. -/
theorem Heap.load_dump (hc : h.Closed reach) (hs : h.size ≤ 2 ^ 32) {s : Snapshot}
    (hw : ∀ r ∈ s.records, r.Writable reach) (hv : s.frame.version = snapshotVersion) (g : Heap) :
    ∃ t g', g.load (h.dump s) = (.ok t, g') ∧ h.Isomorphic s g' t ∧ g'.dump t = h.dump s := by
  have hr : Decoder.Reads Decoder.snapshot { input := [], heap := g } (h.dump s)
      fun t r => h.Isomorphic s r.heap t := by
    refine .get fun rest => ?_
    have hn := readBack_nested hc hs ((h.dump s ++ rest).length + 1)
    have hl : (h.dump s).length ≤ (h.dump s ++ rest).length + 1 := by
      rw [List.length_append]
      omega
    refine (hn.snapshot _ [] s hw (.nil h g []) rfl hl).mono ?_
    rintro t r ⟨q, hq, -, -, ht⟩
    exact ⟨q.Paired, hq.matching, ht⟩
  obtain ⟨t, r, hrun, hi⟩ := hr []
  rw [List.append_nil] at hrun
  have hversion : t.frame.version = snapshotVersion := by
    obtain ⟨ρ, -, ht⟩ := hi
    cases ht with
    | cons hf _ => exact hf.version.trans hv
  refine ⟨t, r.heap, ?_, hi, hi.dump_eq.symm⟩
  unfold Heap.load
  change Decoder.snapshot.run { input := h.dump s, heap := g } = _ at hrun
  rw [hrun]
  simp only [Snapshot.current?, hversion, if_true]

/-! ### A knot -/

/-- A generator body that yields its own variable. -/
def knotCode : CodeObject where
  identity := 7
  body :=
    { name := "g"
      bytecode := [Opcode.loadFast.byte, 0, 0, Opcode.yieldValue.byte, Opcode.returnValue.byte]
      varnames := ["self"]
      maxStack := 1
      flags := .generatorBody }

/-- The frame of a generator that waits at the yield and is bound to its own variable. -/
def knotFrame : Frame where
  code := knotCode
  globals := ⟨0⟩
  builtins := ⟨0⟩
  locals := .fast [some (.generator ⟨0⟩)]
  cells := []
  stack := .empty 1
  lastOffset := some 3
  trace := { line := 0 }

/-- Globals that bind a function made in them, whose cell holds a generator that is bound to its own
variable. -/
def Heap.knot : Heap where
  namespaces := ⟨#[⟨[("f", .function 3 ⟨knotCode, ⟨0⟩, [], [⟨0⟩]⟩)]⟩]⟩
  cells := ⟨#[some (.generator ⟨0⟩)]⟩
  generators := ⟨#[⟨.suspended, "g", some knotFrame⟩]⟩

theorem knotCode_writable : knotCode.body.Writable where
  self :=
    { valid := by
        change knotCode.body.validate = .ok ()
        decide +kernel
      name := by decide
      bytecode := by decide
      consts := by decide
      names := ⟨by decide, nofun⟩
      varnames := ⟨by decide, by decide⟩
      cellvars := ⟨by decide, nofun⟩
      freevars := ⟨by decide, nofun⟩
      argCount := by decide
      maxStack := by decide
      firstLine := by decide
      lineTable := by decide }
  held := nofun

theorem knotFrame_writable : knotFrame.capture.Writable Heap.knot.Has where
  version := by decide
  code := knotCode_writable
  builtins := by decide
  stack := ⟨by decide, nofun⟩
  blockCount := by decide
  blocks := nofun
  pending := nofun
  globals := by decide
  lastOffset := by decide
  line := by decide
  locals := .fast ⟨by decide, fun slot hs v hv => by
    cases List.mem_singleton.1 hs
    cases hv
    exact .generator (by decide)⟩
  lower := by decide
  upper := by decide
  previous := by decide
  cells := ⟨by decide, nofun⟩

theorem knotFrame_restorable : knotFrame.capture.Restorable where
  version := rfl
  cells := rfl
  offset := .inr (by decide +kernel)
  filled := rfl
  room := by decide
  handlers := nofun
  depths := nofun
  nested := .nil
  locals := ⟨rfl, rfl⟩

theorem Heap.knot_closed : Heap.knot.Closed Heap.knot.Has where
  held := fun _ hr => hr
  contents := by
    rintro ⟨k, i⟩ hi
    cases k with
    | mapping =>
      obtain rfl := Nat.lt_one_iff.1 hi
      refine .mapping ⟨by decide, by decide, by decide, fun e he => ?_⟩
      cases List.mem_singleton.1 he
      exact .function knotCode_writable (by decide) (by decide) nofun ⟨by decide, by decide⟩
    | cell =>
      obtain rfl := Nat.lt_one_iff.1 hi
      refine .cell fun w hw => ?_
      cases hw
      exact .generator (by decide)
    | iterator => exact absurd hi (Nat.not_lt_zero i)
    | generator =>
      obtain rfl := Nat.lt_one_iff.1 hi
      refine .generator ⟨nofun, by decide, ⟨knotFrame, rfl⟩, ?_, ?_, ?_⟩
      · rintro _ ⟨⟩
        rfl
      · rintro _ ⟨⟩
        exact ⟨_, FrameRecord.restore_frame knotFrame_restorable⟩
      · rintro _ ⟨⟩
        exact knotFrame_writable

/-- The knot, read from the generator's frame, is tied again in the initial heap. -/
theorem Heap.load_dump_knot : ∃ t g',
    Heap.initial.load (Heap.knot.dump ⟨knotFrame.capture, []⟩) = (.ok t, g') ∧
      Heap.knot.Isomorphic ⟨knotFrame.capture, []⟩ g' t ∧
      g'.dump t = Heap.knot.dump ⟨knotFrame.capture, []⟩ := by
  refine Heap.load_dump Heap.knot_closed (by decide) ?_ rfl Heap.initial
  intro r hr
  rw [List.mem_singleton.1 hr]
  exact knotFrame_writable

end Resumable
