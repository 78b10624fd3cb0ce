import Resumable.Proofs.Snapshot.Pairing
import Resumable.Proofs.Snapshot.Restoring

/-!
# Reading back values, objects and records

Values, records and objects refer to each other, so they are read back together.  `ReadBack` says
that a reader of values and a reader of records return what is no longer than a given nesting; the
readers made from them then return what is longer by one (`ReadBack.valueWith`,
`ReadBack.snapshotWith`), since the number of a variant takes up a byte.

* `Returned.reference` : a name is returned if what the object holds is;
* `FrameRecord.capture_frame_of_alike` : the frame of a generator, restored from its record, is
  recorded as it was;
* `ReadBack.contents` : what an object holds is returned.
-/

namespace Resumable

namespace Decoder

/-! ### Objects of any kind -/

variable (value : Decoder Value) (snapshot : Decoder Snapshot)

/-- What an object of a kind holds. -/
def contents : ObjectKind → Decoder Contents
  | .mapping => do
    let entries ← sequence do
      let name ← text
      let v ← value
      pure (name, v)
    pure (.mapping (Namespace.ofList entries))
  | .cell => do
    let v ← optional value
    pure (.cell v)
  | .iterator => do
    let s ← iteration value
    pure (.iterator s)
  | .generator => do
    let state ← generatorState
    let name ← text
    let frame ← optional do
      match (← snapshot).restore with
      | .ok f => pure f
      | .error _ => meaningless
    pure (.generator ⟨generatorStateRead state frame, name, frame⟩)

/-- An object of a kind. -/
def reference (k : ObjectKind) : Decoder (Ref k) := do
  let i ← sharedWith k fun i => do
    let c ← contents value snapshot k
    change (Heap.put i c)
  pure ⟨i⟩

theorem reference_mapping : reference value snapshot .mapping = mapping value := by
  simp only [reference, contents, bind_assoc, pure_bind]
  rfl

theorem reference_cell : reference value snapshot .cell = cell value := by
  simp only [reference, contents, bind_assoc, pure_bind]
  rfl

theorem reference_iterator : reference value snapshot .iterator = iterator value := by
  simp only [reference, contents, bind_assoc, pure_bind]
  rfl

theorem reference_generator : reference value snapshot .generator = generator snapshot := by
  simp only [reference, contents, bind_assoc, pure_bind]
  rfl

variable {value snapshot}

theorem sharedWith_known {k : ObjectKind} {fill : Nat → Decoder Unit} {r : Reader} {n : Nat}
    {b : SharedRef} (hn : n < 2 ^ 32) (hk : r.known.lookup n = some b) (hb : b.kind = k) :
    Reads (sharedWith k fill) r (Datum.tuple [.natural n, .absent]).bytes fun i r' =>
      i = b.index ∧ r' = r := by
  refine (word32_varint hn).bind (.get fun rest => ?_)
  simp only [hk]
  refine (isPresent_byte false).bind ?_
  rw [if_neg Bool.false_ne_true, if_pos hb]
  exact .pure ⟨rfl, rfl⟩

theorem sharedWith_new {k : ObjectKind} {fill : Nat → Decoder Unit} {r : Reader} {n : Nat}
    {d : Datum} {Q : Reader → Prop} (hn : n < 2 ^ 32) (hk : r.known.lookup n = none)
    (hf : Reads (fill (newObject k r.heap).1.index)
      { r with heap := (newObject k r.heap).2, known := (n, (newObject k r.heap).1) :: r.known }
      d.bytes fun _ r' => Q r') :
    Reads (sharedWith k fill) r (Datum.tuple [.natural n, .present d]).bytes fun i r' =>
      i = (newObject k r.heap).1.index ∧ Q r' := by
  have hr : Reads (register k n) r [] fun b r' => b = (newObject k r.heap).1 ∧
      r' = { r with
        heap := (newObject k r.heap).2
        known := (n, (newObject k r.heap).1) :: r.known } :=
    fun _ => ⟨_, _, rfl, rfl, rfl⟩
  refine (word32_varint hn).bind (.get fun rest => ?_)
  simp only [hk]
  refine hr.silent ?_
  rintro _ _ ⟨rfl, rfl⟩
  rw [Datum.bytesOfItems, Datum.bytes_present, List.append_assoc]
  refine Decodes.bind (isPresent_byte true) ?_
  rw [if_pos rfl]
  refine hf.bind ?_
  intro _ r' hp
  exact .pure ⟨rfl, hp⟩

end Decoder

theorem Contents.Alike.kind_eq {ρ : Correspondence} {a b : Contents} (h : a.Alike ρ b) :
    b.kind = a.kind := by
  cases h <;> rfl

theorem Heap.kind_contents (h : Heap) (r : SharedRef) : (h.contents r).kind = r.kind := by
  obtain ⟨k, i⟩ := r
  cases k <;> rfl

open Decoder (Reads)

variable {h : Heap} {fuel nesting : Nat} {opened : List SharedRef}

/-- A name is returned if what the object holds is, for every fuel and whatever is open. -/
theorem Returned.reference {value : Decoder Value} {snapshot : Decoder Snapshot} {k : ObjectKind}
    {a : Ref k} (hs : h.size ≤ 2 ^ 32) (ha : h.Has a.shared)
    (hc : ∀ fuel opened, Returned h fuel opened nesting
      ((h.contents a.shared).datum (h.sharedDatum fuel)) Datum.bytes
      (Decoder.contents value snapshot k) fun ρ c => (h.contents a.shared).Alike ρ c) :
    Returned h fuel opened nesting (h.sharedDatum fuel a.shared) Datum.bytes
      (Decoder.reference value snapshot k) fun ρ b => a.Alike ρ b := by
  intro pairs r b met hp he hl
  have hlen := Heap.length_le_size hp.fueled.nodup hp.fueled.held
  rw [List.length_map] at hlen
  cases hi : (pairs.map Prod.fst).idxOf? a.shared with
  -- an object met before is written as its number, which the reader knows
  | some i =>
    rw [Heap.sharedDatum_of_met hi] at he
    obtain ⟨rfl, rfl⟩ := Prod.mk.inj he
    obtain ⟨hlt, hia, -⟩ := List.idxOf?_eq_some_iff.1 hi
    rw [List.getElem_map] at hia
    rw [List.length_map] at hlt
    obtain ⟨p, hpi, hpa⟩ : ∃ p, pairs[i]? = some p ∧ p.1 = a.shared :=
      ⟨pairs[i], List.getElem?_eq_getElem hlt, hia⟩
    have hm := List.mem_of_getElem? hpi
    have hk : p.2.kind = k := by
      rw [hp.kind p hm, hpa]
      rfl
    have hn : r.known.lookup i = some p.2 := by rw [hp.known, hpi, Option.map_some]
    refine (Decoder.sharedWith_known (by omega) hn hk).last ?_
    rintro _ _ ⟨rfl, rfl⟩
    refine .pure ⟨pairs, hp, rfl, List.prefix_rfl, ?_⟩
    have hpe : p = (a.shared, ⟨k, p.2.index⟩) := by rw [← hpa, ← hk]
    exact hpe ▸ hm
  | none =>
    -- the reader makes an empty object for a new one, and fills it behind its contents
    have hn := List.idxOf?_eq_none_iff.1 hi
    obtain ⟨less, rfl, hp₁⟩ := hp.meet ha hn
    have hlen₁ := Heap.length_le_size hp₁.fueled.nodup hp₁.fueled.held
    rw [List.length_map, List.length_append, List.length_singleton] at hlen₁
    rw [Heap.sharedDatum_of_new hi, List.length_map] at he
    obtain ⟨rfl, hmet⟩ := Prod.mk.inj he
    have hnone : r.known.lookup pairs.length = none := by
      rw [hp.known, List.getElem?_eq_none (Nat.le_refl _), Option.map_none]
    have hkind := Heap.kind_newObject k r.heap
    have hself : (⟨k, (Decoder.newObject k r.heap).1.index⟩ : SharedRef) =
        (Decoder.newObject k r.heap).1 :=
      congrArg (SharedRef.mk · (Decoder.newObject k r.heap).1.index) hkind.symm
    generalize hd : ((h.contents a.shared).datum (h.sharedDatum less)).run
      (pairs.map Prod.fst ++ [a.shared]) = run at hmet hl ⊢
    obtain ⟨d, met'⟩ := run
    have hd' : ((h.contents a.shared).datum (h.sharedDatum less)).run
        ((pairs ++ [(a.shared, (Decoder.newObject k r.heap).1)]).map Prod.fst) = (d, met') := by
      rw [List.map_append]
      exact hd
    have hld : d.bytes.length ≤ nesting := by
      simp only [Datum.bytes, Datum.bytesOfItems, List.length_append, List.length_cons] at hl
      omega
    subst hmet
    refine (Decoder.sharedWith_new (by omega) hnone
      (Q := fun r' => ∃ later : Pairs, Pairing h (less + 1) opened later r' ∧
        later.map Prod.fst = met' ∧ pairs <+: later ∧
        later.Paired a.shared (Decoder.newObject k r.heap).1) ?_).last ?_
    · refine (hc less _ hp₁ hd' hld).last ?_
      rintro c r₁ ⟨later, hp₂, hm₂, hpre, hca⟩
      have hpaired : later.Paired a.shared (Decoder.newObject k r.heap).1 :=
        hpre.subset (List.mem_append_right _ List.mem_cons_self)
      have hck : c.kind = (Decoder.newObject k r.heap).1.kind := by
        rw [hca.kind_eq, Heap.kind_contents, hkind]
        rfl
      have hf := hp₂.fill hpaired hck hca
      intro rest
      exact ⟨(), _, rfl, later, hf, hm₂, (List.prefix_append _ _).trans hpre, hpaired⟩
    · rintro _ r₁ ⟨rfl, later, hp₂, hm₂, hpre, hpaired⟩
      refine .pure ⟨later, hp₂, hm₂, hpre, ?_⟩
      exact hself ▸ hpaired

/-! ### Frames of generators -/

theorem exists_values_of_alike {ρ : Correspondence} {as : List Value} {bs : List (Option Value)}
    (h : List.Forall₂ (Option.Rel (Value.Alike ρ)) (as.map some) bs) :
    ∃ ws : List Value, bs = ws.map some := by
  induction as generalizing bs with
  | nil =>
    cases h
    exact ⟨[], rfl⟩
  | cons a as ih =>
    cases h with
    | cons hab h =>
      obtain ⟨ws, rfl⟩ := ih h
      cases hab
      exact ⟨_ :: ws, rfl⟩

namespace FrameRecord

variable {ρ : Correspondence} {a b : FrameRecord}

/-- What is restored is also restored from a record that is the same. -/
theorem Restorable.of_alike (hr : a.Restorable) (h : a.Alike ρ b) : b.Restorable := by
  obtain ⟨he, -⟩ := Code.eq_of_plain h.code
  have hb : b.code.body.isBoundary = a.code.body.isBoundary := by rw [he]; rfl
  have hc : b.code.body.cellCount = a.code.body.cellCount := by rw [he]; rfl
  have hm : b.code.body.maxStack = a.code.body.maxStack := by rw [he]
  have hf : b.code.body.flags = a.code.body.flags := by rw [he]
  have hv : b.code.body.varnames = a.code.body.varnames := by rw [he]
  have hs := h.stack.length_eq
  refine ⟨h.version.trans hr.version, ?_, ?_, ?_, ?_, ?_, ?_, ?_, ?_⟩
  · rw [hc, ← h.cells.length_eq, hr.cells]
  · rw [h.lastOffset, hb]
    exact hr.offset
  · obtain ⟨ws, hw⟩ := exists_values_of_alike (hr.filled ▸ h.stack)
    rw [values_of_stack hw, hw]
  · rw [hm, ← hs]
    exact hr.room
  · rw [h.blocks, hb]
    exact hr.handlers
  · rw [h.blocks, ← hs]
    exact hr.depths
  · rw [h.blocks]
    exact hr.nested
  · have hl := hr.locals
    have hal := h.locals
    unfold LocalsFit at hl ⊢
    rw [hf, hv]
    revert hl hal
    generalize a.locals = l, b.locals = l'
    intro hl hal
    cases hal with
    | fast hs => exact ⟨hl.1, hs.length_eq ▸ hl.2⟩
    | dict _ => exact hl
    | globals => exact hl

/-- The frame restored from a record that is the same as that of a frame without a hook is recorded
as it was. -/
theorem capture_frame_of_alike {f : Frame} (hf : f.trace.hook = none) (h : f.capture.Alike ρ b)
    (hb : b.Restorable)
    (injective : ∀ {x y x' y'}, ρ x y → ρ x' y' → (x = x' ↔ y = y')) : b.frame.capture = b := by
  obtain ⟨he, -⟩ := Code.eq_of_plain h.code
  have ho : b.frame.lastOffset = f.lastOffset := by
    have hl : b.lastOffset = f.capture.lastOffset := h.lastOffset
    unfold frame
    rw [hl]
    unfold Frame.capture
    cases f.lastOffset with
    | none => rfl
    | some o =>
      have hn : ¬((o : Int) = -1) := by omega
      simp only [hn, if_false, Int.toNat_natCast]
  have hl : b.frame.lastLine = f.lastLine := by
    have hc : b.frame.code = b.code := rfl
    unfold Frame.lastLine
    rw [ho, hc, he]
    rfl
  refine capture_frame hb ?_ ?_
  · rw [hl, h.line]
    unfold Frame.capture Frame.currentLine
    rw [hf]
    rfl
  · intro names hn hg
    have hal := h.locals
    rw [hn] at hal
    cases hc : f.capture.locals with
    | dict names' =>
      rw [hc] at hal
      cases hal with
      | dict hr =>
        -- names that were read back as the globals were the globals when written
        have hs : names'.shared = f.globals.shared := (injective hr h.globals).2 (by rw [hg])
        exact Frame.capture_dict_ne hc (Ref.shared_injective hs)
    | _ =>
      rw [hc] at hal
      cases hal

end FrameRecord

/-! ### Variants -/

section

variable {α β : Type} {rel : Correspondence → α → Prop} {rel' : Correspondence → β → Prop}

/-- What is written without regard to the session is returned if it is read back. -/
theorem Returned.plain {x : Datum} {d : Decoder α} {a : α} (hd : Decoder.Decodes d x.bytes a)
    (ha : ∀ ρ, rel ρ a) : Returned h fuel opened nesting (pure x) Datum.bytes d rel := by
  intro pairs r b met hp he _
  obtain ⟨rfl, rfl⟩ := Encoder.run_pure he
  refine (hd r).mono ?_
  rintro _ _ ⟨rfl, rfl⟩
  exact ⟨pairs, hp, rfl, List.prefix_rfl, ha _⟩

/-- A variant is returned if what it carries is. -/
theorem Returned.variant {e : Encoder Datum} {d : Decoder α} {k : Nat → Decoder β} {f : α → β}
    {index : Nat} (name : String) (hd : Returned h fuel opened nesting e Datum.bytes d rel)
    (hi : index < 2 ^ 32) (hk : k index = d >>= fun a => pure (f a))
    (hf : ∀ ρ a, rel ρ a → rel' ρ (f a)) :
    Returned h fuel opened (nesting + 1) (e >>= fun x => pure (.variant index name x)) Datum.bytes
      (Decoder.word32 >>= k) rel' := by
  intro pairs r b met hp he hl
  obtain ⟨x, m₁, hx, he⟩ := Encoder.run_bind he
  obtain ⟨rfl, rfl⟩ := Encoder.run_pure he
  rw [Datum.bytes_variant] at hl ⊢
  rw [List.length_append] at hl
  have hpos := Decoder.length_varint_pos index
  refine Decoder.variant_reads hi ?_
  rw [hk]
  refine (hd hp hx (by omega)).last ?_
  rintro a r₁ ⟨q, hq, hm, hpre, ha⟩
  exact .pure ⟨q, hq, hm, hpre, hf _ a ha⟩

theorem Returned.more {e : Encoder β} {form : β → List UInt8} {d : Decoder α}
    (hd : Returned h fuel opened (nesting + 1) e form d rel) :
    Returned h fuel opened nesting e form d rel :=
  fun _ _ _ _ hp he hl => hd hp he (Nat.le_succ_of_le hl)

end

/-! ### What is inside values and objects -/

variable {reach : SharedRef → Prop} {value : Decoder Value} {snapshot : Decoder Snapshot}

/-- The decoders read back values and snapshots whose forms are no longer than `nesting`. -/
structure ReadBack (h : Heap) (reach : SharedRef → Prop) (nesting : Nat) (value : Decoder Value)
    (snapshot : Decoder Snapshot) : Prop where
  value : ∀ fuel opened (v : Value), v.Writable reach →
    Returned h fuel opened nesting (v.datum (h.sharedDatum fuel)) Datum.bytes value
      fun ρ w => v.Alike ρ w
  snapshot : ∀ fuel opened (s : Snapshot), (∀ r ∈ s.records, r.Writable reach) →
    Returned h fuel opened nesting (s.datumWith (h.sharedDatum fuel)) Datum.bytes snapshot
      fun ρ t => List.Forall₂ (FrameRecord.Alike ρ) s.records t.records

theorem monotone_alike : Returned.Monotone fun (v : Value) ρ w => v.Alike ρ w :=
  fun _ _ _ _ hρ h => h.mono hρ

theorem monotone_optional :
    Returned.Monotone fun (v : Option Value) ρ w => Option.Rel (Value.Alike ρ) v w :=
  fun _ _ _ _ hρ h => optionalAlike_mono hρ h

theorem monotone_ref {k : ObjectKind} :
    Returned.Monotone fun (r : Ref k) ρ s => r.Alike ρ s :=
  fun _ _ _ _ hρ h => h.mono hρ

theorem monotone_binding :
    Returned.Monotone fun (e : String × Value) ρ (e' : String × Value) =>
      e.1 = e'.1 ∧ e.2.Alike ρ e'.2 :=
  fun _ _ _ _ hρ h => ⟨h.1, h.2.mono hρ⟩

/-- A new name is bound after all others. -/
theorem Namespace.bind_of_new {name : String} {v : Value} {es : List (String × Value)}
    (hn : ∀ e ∈ es, e.1 ≠ name) : Namespace.bind name v es = es ++ [(name, v)] := by
  induction es with
  | nil => rfl
  | cons e es ih =>
    obtain ⟨n, w⟩ := e
    rw [Namespace.bind, if_neg (hn _ List.mem_cons_self),
      ih fun e hm => hn e (List.mem_cons_of_mem _ hm), List.cons_append]

/-- Names that differ are bound one after the other. -/
theorem Namespace.foldl_set {es : List (String × Value)} {ns : Namespace}
    (hd : (ns.entries ++ es).Pairwise fun e f => e.1 ≠ f.1) :
    es.foldl (fun ns (n, v) => ns.set n v) ns = ⟨ns.entries ++ es⟩ := by
  induction es generalizing ns with
  | nil =>
    rw [List.append_nil]
    rfl
  | cons e es ih =>
    have hs : ns.set e.1 e.2 = ⟨ns.entries ++ [e]⟩ := by
      have hn := (List.pairwise_append.1 hd).2.2
      exact congrArg Namespace.mk (Namespace.bind_of_new fun f hf => hn f hf e List.mem_cons_self)
    have ha : ns.entries ++ e :: es = (ns.entries ++ [e]) ++ es := by simp
    rw [ha] at hd ⊢
    change es.foldl _ (ns.set e.1 e.2) = _
    rw [hs]
    exact ih hd

theorem Namespace.ofList_of_nodup {es : List (String × Value)} (hd : (es.map Prod.fst).Nodup) :
    Namespace.ofList es = ⟨es⟩ :=
  Namespace.foldl_set (List.pairwise_map.1 hd)

namespace ReadBack

variable (hn : ReadBack h reach nesting value snapshot)

include hn

theorem values {vs : List Value} (hl : Long vs.length) (hv : ∀ v ∈ vs, v.Writable reach) :
    Returned h fuel opened nesting (vs.mapM (Value.datum (h.sharedDatum fuel)))
      (fun ds => (Datum.sequence ds).bytes) (Decoder.sequence value)
      fun ρ ws => List.Forall₂ (Value.Alike ρ) vs ws :=
  .data monotone_alike hl fun v hm => hn.value fuel opened v (hv v hm)

theorem slots {slots : List (Option Value)} (hs : Slots reach slots) :
    Returned h fuel opened nesting (optionalValues (h.sharedDatum fuel) slots) Datum.bytes
      (Decoder.sequence (Decoder.optional value))
      fun ρ ws => List.Forall₂ (Option.Rel (Value.Alike ρ)) slots ws := by
  intro pairs r b met hp he hl
  obtain ⟨ds, m₁, hds, he⟩ := Encoder.run_bind he
  obtain ⟨rfl, rfl⟩ := Encoder.run_pure he
  refine Returned.data monotone_optional hs.length ?_ hp hds hl
  intro slot hm
  exact .optional fun v hv => hn.value fuel opened v (hs.held slot hm v hv)

theorem binding (fuel : Nat) (opened : List SharedRef) {e : String × Value}
    (hk : Long e.1.utf8ByteSize) (hv : e.2.Writable reach) :
    Returned h fuel opened nesting
      (do let d ← Value.datum (h.sharedDatum fuel) e.2; pure (e.1, d))
      (fun b => Binary.text b.1 ++ b.2.bytes)
      (do let name ← Decoder.text; let v ← value; pure (name, v))
      fun ρ e' => e.1 = e'.1 ∧ e.2.Alike ρ e'.2 := by
  intro pairs r b met hp he hl
  obtain ⟨d, m₁, hd, he⟩ := Encoder.run_bind he
  obtain ⟨rfl, rfl⟩ := Encoder.run_pure he
  beta_reduce at hl ⊢
  rw [List.length_append] at hl
  refine (Decoder.text_decodes hk).bind ?_
  refine (hn.value fuel opened e.2 hv hp hd ((Nat.le_add_left _ _).trans hl)).last ?_
  rintro w r₁ ⟨q, hq, hm, hpre, hw⟩
  exact .pure ⟨q, hq, hm, hpre, rfl, hw⟩

theorem mapping {ns : Namespace} (hw : ns.Writable reach) :
    Returned h fuel opened nesting (ns.datum (h.sharedDatum fuel)) Datum.bytes
      (Decoder.contents value snapshot .mapping) fun ρ c => (Contents.mapping ns).Alike ρ c := by
  intro pairs r b met hp he hl
  obtain ⟨es, m₁, hes, he⟩ := Encoder.run_bind he
  obtain ⟨rfl, rfl⟩ := Encoder.run_pure he
  rw [Datum.bytes, bytesOfEntries_eq_flatMap] at hl ⊢
  have hb := fun e hm => hn.binding fuel opened (hw.names e hm) (hw.held e hm)
  refine (Returned.sequence monotone_binding hw.length hb hp hes hl).last ?_
  rintro es' r₁ ⟨q, hq, hm, hpre, hes'⟩
  have hk : List.Forall₂ (· = ·) (ns.entries.map Prod.fst) (es'.map Prod.fst) :=
    List.forall₂_map_left_iff.2 (List.forall₂_map_right_iff.2 (hes'.imp fun _ _ he => he.1))
  rw [List.forall₂_eq_eq_eq] at hk
  rw [Namespace.ofList_of_nodup (hk ▸ hw.distinct)]
  exact .pure ⟨q, hq, hm, hpre, .mapping hes'⟩

theorem iteration {i : Iteration} (hw : i.Writable reach) :
    Returned h fuel opened nesting (i.datum (h.sharedDatum fuel)) Datum.bytes
      (Decoder.iteration value) fun ρ j => i.Alike ρ j := by
  intro pairs r b met hp he hl
  cases hw with
  | @items vs i length held index =>
    rw [Iteration.datum, Value.data_eq_mapM] at he
    obtain ⟨ds, m₁, hds, he⟩ := Encoder.run_bind he
    obtain ⟨rfl, rfl⟩ := Encoder.run_pure he
    simp only [Datum.bytes_variant, Datum.bytes_record, Datum.bytesOfFields,
      List.length_append] at hl ⊢
    have hld : (Datum.sequence ds).bytes.length ≤ nesting := by omega
    refine Decoder.variant_reads (by decide) ?_
    refine (hn.values length held hp hds hld).bind ?_
    rintro ws r₁ ⟨q, hq, hm, hpre, hws⟩
    refine (Decoder.word64_varint index).bind ?_
    exact .pure ⟨q, hq, hm, hpre, .items hws i⟩
  | @chars s i length index =>
    obtain ⟨rfl, rfl⟩ := Encoder.run_pure he
    simp only [Datum.bytes_variant, Datum.bytes_record, Datum.bytesOfFields]
    refine Decoder.variant_reads (by decide) ?_
    refine (Decoder.text_decodes length).bind ?_
    refine (Decoder.word64_varint index).bind ?_
    exact .pure ⟨pairs, hp, rfl, List.prefix_rfl, .chars s i⟩
  | range next stop step =>
    obtain ⟨rfl, rfl⟩ := Encoder.run_pure he
    simp only [Datum.bytes_variant, Datum.bytes_record, Datum.bytesOfFields]
    refine Decoder.variant_reads (by decide) ?_
    refine (Decoder.integer_zigzag (fitsWord_toInt next)).bind ?_
    refine (Decoder.integer_zigzag (fitsWord_toInt stop)).bind ?_
    refine (Decoder.integer_zigzag (fitsWord_toInt step)).bind ?_
    rw [Int64.ofInt_toInt, Int64.ofInt_toInt, Int64.ofInt_toInt]
    exact .pure ⟨pairs, hp, rfl, List.prefix_rfl, .range next stop step⟩

theorem generatorFrame (fuel : Nat) (opened : List SharedRef) {f : Frame} (hf : f.trace.hook = none)
    (hr : ∃ f', f.capture.restore = .ok f') (hw : f.capture.Writable reach) :
    Returned h fuel opened nesting (Snapshot.datumWith (h.sharedDatum fuel) ⟨f.capture, []⟩)
      Datum.bytes
      (do
        match (← snapshot).restore with
        | .ok f => pure f
        | .error _ => Decoder.meaningless)
      fun ρ f' => f.capture.Alike ρ f'.capture := by
  intro pairs r b met hp he hl
  have hs : ∀ r ∈ Snapshot.records ⟨f.capture, []⟩, r.Writable reach := by
    intro r hr
    rw [List.mem_singleton.1 hr]
    exact hw
  refine (hn.snapshot fuel opened ⟨f.capture, []⟩ hs hp he hl).last ?_
  rintro t r₁ ⟨q, hq, hm, hpre, ht⟩
  obtain ⟨b, callers⟩ := t
  cases ht with
  | cons hb hc =>
    obtain ⟨f', hr⟩ := hr
    have hrb := (FrameRecord.restore_eq_ok_iff.1 hr).1.of_alike hb
    have hcap := FrameRecord.capture_frame_of_alike hf hb hrb hq.injective
    have hrs : Snapshot.restore ⟨b, callers⟩ = .ok b.frame := FrameRecord.restore_frame hrb
    rw [hrs]
    refine .pure ⟨q, hq, hm, hpre, ?_⟩
    change f.capture.Alike q.Paired b.frame.capture
    rw [hcap]
    exact hb

theorem generator {g : Generator} (hw : g.Writable reach) :
    Returned h fuel opened nesting (g.datum (h.sharedDatum fuel)) Datum.bytes
      (Decoder.contents value snapshot .generator) fun ρ c => (Contents.generator g).Alike ρ c := by
  intro pairs r b met hp he hl
  obtain ⟨d, m₁, hd, he⟩ := Encoder.run_bind he
  obtain ⟨rfl, rfl⟩ := Encoder.run_pure he
  simp only [Datum.bytes_record, Datum.bytesOfFields, List.length_append] at hl ⊢
  have hf := fun f hf => hn.generatorFrame fuel opened (hw.untraced f hf)
    (hw.restored f hf) (hw.record f hf)
  refine (Decoder.generatorState_decodes g.state).bind ?_
  refine (Decoder.text_decodes hw.name).bind ?_
  refine (Returned.optional (R := fun f ρ f' => f.capture.Alike ρ f'.capture) hf hp hd
    (by omega)).bind ?_
  rintro o r₁ ⟨q, hq, hm, hpre, ho⟩
  obtain ⟨f, hgf⟩ := hw.frame
  have hstate : Decoder.generatorStateRead g.state o = g.state := by
    have hrun := hw.state
    rw [hgf] at ho
    cases ho
    cases hs : g.state <;> first
      | rfl
      | exact absurd hs hrun
  exact .pure ⟨q, hq, hm, hpre, .generator ⟨hstate, rfl, ho⟩⟩

/-- What an object holds is returned. -/
theorem contents {k : ObjectKind} {c : Contents} (hk : c.kind = k) (hw : c.Writable reach) :
    Returned h fuel opened nesting (c.datum (h.sharedDatum fuel)) Datum.bytes
      (Decoder.contents value snapshot k) fun ρ c' => c.Alike ρ c' := by
  subst hk
  cases hw with
  | mapping hw => exact hn.mapping hw
  | cell hw =>
    intro pairs r b met hp he hl
    have hv := fun w hv => hn.value fuel opened w (hw w hv)
    refine (Returned.optional (R := fun v ρ w => v.Alike ρ w) hv hp he hl).last ?_
    rintro w r₁ ⟨q, hq, hm, hpre, hw⟩
    exact .pure ⟨q, hq, hm, hpre, .cell hw⟩
  | iterator hw =>
    intro pairs r b met hp he hl
    refine (hn.iteration hw hp he hl).last ?_
    rintro j r₁ ⟨q, hq, hm, hpre, hj⟩
    exact .pure ⟨q, hq, hm, hpre, .iterator hj⟩
  | generator hw => exact hn.generator hw

variable (hc : h.Closed reach) (hs : h.size ≤ 2 ^ 32)

include hc hs

theorem reference {k : ObjectKind} {a : Ref k} (ha : reach a.shared) :
    Returned h fuel opened nesting (h.sharedDatum fuel a.shared) Datum.bytes
      (Decoder.reference value snapshot k) fun ρ b => a.Alike ρ b :=
  .reference hs (hc.held _ ha) fun _ _ =>
    hn.contents (h.kind_contents a.shared) (hc.contents _ ha)

theorem references {k : ObjectKind} {as : List (Ref k)} (ha : Refs reach as) :
    Returned h fuel opened nesting (Encoder.all (fun a => h.sharedDatum fuel a.shared) as)
      (fun ds => (Datum.sequence ds).bytes)
      (Decoder.sequence (Decoder.reference value snapshot k))
      fun ρ bs => List.Forall₂ (Ref.Alike ρ) as bs :=
  .data monotone_ref ha.length fun a hm => hn.reference hc hs (ha.held a hm)

omit hc hs in
theorem unwinding {u : Unwind Value} (hw : (Value.suspended u).Writable reach) :
    Returned h fuel opened nesting (Value.unwindDatum (h.sharedDatum fuel) u) Datum.bytes
      (Decoder.unwinding value) fun ρ u' => (Value.suspended u).Alike ρ (.suspended u') := by
  cases hw with
  | @returning v hv =>
    refine .more (.variant "Return" (hn.value fuel opened v hv) (by decide) rfl ?_)
    exact fun ρ w hw => .returning hw
  | breaking => exact .plain (Decoder.constant_decodes (by decide) rfl) fun _ => .breaking
  | @continuing t ht =>
    refine .plain (a := .continuing t) ?_ fun _ => .continuing t
    exact Decoder.variant_decodes (by decide) ((Decoder.word64_varint ht).last (by rfl))
  | @raising e he =>
    refine .plain (a := .raising e) ?_ fun _ => .raising e
    exact Decoder.variant_decodes (by decide) ((Decoder.raised_decodes he).last (by rfl))

omit hc hs in
theorem suspended {u : Unwind Value} (hw : (Value.suspended u).Writable reach) :
    Returned h fuel opened (nesting + 1) ((Value.suspended u).datum (h.sharedDatum fuel))
      Datum.bytes (Decoder.valueWith value snapshot) fun ρ w => (Value.suspended u).Alike ρ w :=
  .variant "Unroller" (hn.unwinding hw) (by decide) rfl fun _ _ hu => hu

theorem function {f : Function} {i : Identity} (hw : (Value.function i f).Writable reach) :
    Returned h fuel opened (nesting + 1) ((Value.function i f).datum (h.sharedDatum fuel))
      Datum.bytes (Decoder.valueWith value snapshot) fun ρ w => (Value.function i f).Alike ρ w := by
  cases hw with
  | function code globals length held closure =>
    intro pairs r b met hp he hl
    rw [Value.datum, Value.data_eq_mapM] at he
    obtain ⟨g, m₁, hg, he⟩ := Encoder.run_bind he
    obtain ⟨ds, m₂, hds, he⟩ := Encoder.run_bind he
    obtain ⟨cs, m₃, hcs, he⟩ := Encoder.run_bind he
    obtain ⟨rfl, rfl⟩ := Encoder.run_pure he
    simp only [Datum.bytes_variant, Datum.bytes_record, Datum.bytesOfFields, List.append_nil,
      List.length_append] at hl ⊢
    have hpos := Decoder.length_varint_pos 8
    have hld : (Datum.sequence ds).bytes.length ≤ nesting := by omega
    have hlc : (Datum.sequence cs).bytes.length ≤ nesting := by omega
    refine Decoder.variant_reads (by decide) ?_
    refine Reads.last (Q := Pairing.After h fuel opened pairs m₃ fun ρ g =>
      ∀ j, (Value.function i f).Alike ρ (.function j g)) ?_ ?_
    · refine (Decoder.code_reads code r).bind ?_
      rintro c r₁ ⟨hc', hr₁⟩
      rw [← Decoder.reference_mapping value snapshot, ← Decoder.reference_cell value snapshot]
      refine (hn.reference hc hs globals (hp.later hr₁) hg (by omega)).bind ?_
      rintro g' r₂ ⟨q₂, hq₂, rfl, hpre₂, hg'⟩
      refine (hn.values length held hq₂ hds hld).bind ?_
      rintro ws r₃ ⟨q₃, hq₃, rfl, hpre₃, hws⟩
      refine (hn.references hc hs closure hq₃ hcs hlc).last ?_
      rintro cs' r₄ ⟨q₄, hq₄, hm, hpre₄, hcs'⟩
      have hρ₃ : ∀ a b, q₃.Paired a b → q₄.Paired a b := fun _ _ => Pairs.Paired.mono hpre₄
      have hρ₂ : ∀ a b, q₂.Paired a b → q₄.Paired a b :=
        fun _ _ => Pairs.Paired.mono (hpre₃.trans hpre₄)
      refine .pure ⟨q₄, hq₄, hm, hpre₂.trans (hpre₃.trans hpre₄), fun j => ?_⟩
      exact .function i j hc' (hg'.mono hρ₂) (hws.imp fun _ _ h => h.mono hρ₃) hcs'
    · rintro g r₁ ⟨q, hq, hm, hpre, hg⟩
      refine (Decoder.newIdentity_reads r₁).last ?_
      rintro j r₂ hr₂
      exact .pure ⟨q, hq.later hr₂, hm, hpre, hg j⟩

/-- A value is returned if the nesting allows for one more level than the values inside it. -/
theorem valueWith {v : Value} (hw : v.Writable reach) :
    Returned h fuel opened (nesting + 1) (v.datum (h.sharedDatum fuel)) Datum.bytes
      (Decoder.valueWith value snapshot) fun ρ w => v.Alike ρ w := by
  cases hw with
  | none => exact .plain (Decoder.constant_decodes (by decide) rfl) fun _ => .none
  | bool b =>
    refine .plain (a := .bool b) ?_ fun _ => .bool b
    exact Decoder.variant_decodes (by decide) ((Decoder.bool_byte b).last (by rfl))
  | int i =>
    refine .plain (a := .int i) ?_ fun _ => .int i
    refine Decoder.variant_decodes (by decide) ((Decoder.integer_zigzag (fitsWord_toInt i)).last ?_)
    rw [Int64.ofInt_toInt]
  | float x =>
    refine .plain (a := .float x) ?_ fun _ => .float x
    exact Decoder.variant_decodes (by decide) ((Decoder.float_littleEndian x).last (by rfl))
  | @str i s length =>
    intro pairs r b met hp he hl
    obtain ⟨rfl, rfl⟩ := Encoder.run_pure he
    rw [Datum.bytes_variant]
    refine Decoder.variant_reads (by decide) ((Decoder.text_decodes length r).last ?_)
    rintro _ _ ⟨rfl, rfl⟩
    refine (Decoder.newIdentity_reads _).last ?_
    rintro j r₂ hr₂
    exact .pure ⟨pairs, hp.later hr₂, rfl, List.prefix_rfl, .str i j _⟩
  | @tuple i vs length held =>
    intro pairs r b met hp he hl
    rw [Value.datum, Value.data_eq_mapM] at he
    obtain ⟨ds, m₁, hds, he⟩ := Encoder.run_bind he
    obtain ⟨rfl, rfl⟩ := Encoder.run_pure he
    rw [Datum.bytes_variant] at hl ⊢
    rw [List.length_append] at hl
    have hpos := Decoder.length_varint_pos 5
    have hld : (Datum.sequence ds).bytes.length ≤ nesting := by omega
    refine Decoder.variant_reads (by decide) ((hn.values length held hp hds hld).last ?_)
    rintro ws r₁ ⟨q, hq, hm, hpre, hws⟩
    refine (Decoder.newIdentity_reads r₁).last ?_
    rintro j r₂ hr₂
    exact .pure ⟨q, hq.later hr₂, hm, hpre, .tuple i j hws⟩
  | exceptionKind k =>
    refine .plain (a := .exceptionKind k) ?_ fun _ => .exceptionKind k
    exact Decoder.variant_decodes (by decide) ((Decoder.exceptionKind_decodes k).last (by rfl))
  | @exception e he =>
    refine .plain (a := .exception e) ?_ fun _ => .exception e
    exact Decoder.variant_decodes (by decide) ((Decoder.exception_decodes he).last (by rfl))
  | function code globals length held closure =>
    exact hn.function hc hs (.function code globals length held closure)
  | builtin b =>
    refine .plain (a := .builtin b) ?_ fun _ => .builtin b
    exact Decoder.variant_decodes (by decide) ((Decoder.builtin_decodes b).last (by rfl))
  | generator ha =>
    refine .variant "Generator" (hn.reference hc hs ha) (by decide) (f := .generator) ?_ ?_
    · rw [Decoder.reference_generator]
      rfl
    · exact fun ρ b hb => .generator hb
  | iterator ha =>
    refine .variant "Iterator" (hn.reference hc hs ha) (by decide) (f := .iterator) ?_ ?_
    · rw [Decoder.reference_iterator]
      rfl
    · exact fun ρ b hb => .iterator hb
  | cell ha =>
    refine .variant "Cell" (hn.reference hc hs ha) (by decide) (f := .cell) ?_ ?_
    · rw [Decoder.reference_cell]
      rfl
    · exact fun ρ b hb => .cell hb
  | @code c hcode =>
    intro pairs r b met hp he hl
    obtain ⟨rfl, rfl⟩ := Encoder.run_pure he
    rw [Datum.bytes_variant]
    refine Decoder.variant_reads (by decide) ((Decoder.code_reads hcode r).last ?_)
    rintro c' r₁ ⟨hc', hr₁⟩
    exact .pure ⟨pairs, hp.later hr₁, rfl, List.prefix_rfl, .code hc'⟩
  | returning hv => exact hn.suspended (.returning hv)
  | breaking => exact hn.suspended .breaking
  | continuing ht => exact hn.suspended (.continuing ht)
  | raising he => exact hn.suspended (.raising he)

theorem recordedLocals {l : RecordedLocals} (hw : l.Writable reach) :
    Returned h fuel opened nesting (l.datum (h.sharedDatum fuel)) Datum.bytes
      (Decoder.recordedLocals value) fun ρ l' => l.Alike ρ l' := by
  cases hw with
  | fast hs => exact .more (.variant "Fast" (hn.slots hs) (by decide) rfl fun _ _ h => .fast h)
  | dict ha =>
    refine .more (.variant "Dict" (hn.reference hc hs ha) (by decide) (f := .dict) ?_ ?_)
    · rw [Decoder.reference_mapping]
      rfl
    · exact fun ρ b hb => .dict hb
  | globals => exact .plain (Decoder.constant_decodes (by decide) rfl) fun _ => .globals

omit hc hs in
/-- The records of callers are returned as part of that of the innermost. -/
theorem chain (fuel : Nat) (opened : List SharedRef) {callers : List FrameRecord}
    (hw : ∀ r ∈ callers, r.Writable reach) :
    Returned h fuel opened nesting (FrameRecord.chainDatum (h.sharedDatum fuel) callers) Datum.bytes
      (Decoder.optional snapshot) fun ρ o => List.Forall₂ (FrameRecord.Alike ρ) callers
        (match o with
          | some t => t.records
          | none => []) := by
  cases callers with
  | nil => exact .plain (a := none) Decoder.optional_absent fun _ => .nil
  | cons f callers =>
    have hd : FrameRecord.chainDatum (h.sharedDatum fuel) (f :: callers) =
        Encoder.optional (Snapshot.datumWith (h.sharedDatum fuel)) (some ⟨f, callers⟩) := rfl
    rw [hd]
    intro pairs r b met hp he hl
    have hr := Returned.optional (o := some ⟨f, callers⟩) (d := snapshot)
      (R := fun s ρ t => List.Forall₂ (FrameRecord.Alike ρ) s.records t.records)
      fun s hs => hn.snapshot fuel opened s (by cases hs; exact hw)
    refine (hr hp he hl).mono ?_
    rintro o r₁ ⟨q, hq, hm, hpre, ho⟩
    cases ho with
    | some ht => exact ⟨q, hq, hm, hpre, ht⟩

/-- A record is returned if the nesting allows for one more level than the values inside it. -/
theorem snapshotWith {s : Snapshot} (hw : ∀ r ∈ s.records, r.Writable reach) :
    Returned h fuel opened (nesting + 1) (s.datumWith (h.sharedDatum fuel)) Datum.bytes
      (Decoder.snapshotWith value snapshot)
      fun ρ t => List.Forall₂ (FrameRecord.Alike ρ) s.records t.records := by
  obtain ⟨f, callers⟩ := s
  have hf := hw f List.mem_cons_self
  intro pairs r b met hp he hl
  obtain ⟨back, m₀, hback, he⟩ := Encoder.run_bind he
  obtain ⟨builtins, m₁, hbuiltins, he⟩ := Encoder.run_bind he
  obtain ⟨stack, m₂, hstack, he⟩ := Encoder.run_bind he
  obtain ⟨globals, m₃, hglobals, he⟩ := Encoder.run_bind he
  obtain ⟨locals, m₄, hlocals, he⟩ := Encoder.run_bind he
  obtain ⟨cells, m₅, hcells, he⟩ := Encoder.run_bind he
  obtain ⟨rfl, rfl⟩ := Encoder.run_pure he
  simp only [Datum.bytes_record, Datum.bytesOfFields, List.append_nil, List.length_append] at hl ⊢
  have hpos := Decoder.length_varint_pos f.version
  have hversion : (Datum.natural f.version).bytes = Binary.varint f.version := by rw [Datum.bytes]
  rw [← hversion] at hpos
  have hlc : (Datum.sequence cells).bytes.length ≤ nesting := by omega
  have hls : stack.bytes.length ≤ nesting := by omega
  refine (Decoder.word32_varint hf.version).bind ?_
  refine (Decoder.code_reads hf.code r).bind ?_
  rintro code r₁ ⟨hcode, hr₁⟩
  have hcallers := hn.chain fuel opened fun r hr =>
    hw r (List.mem_cons_of_mem _ hr)
  refine (hcallers (hp.later hr₁) hback (by omega)).bind ?_
  rintro back' r₂ ⟨q₀, hq₀, rfl, hpre₀, hback'⟩
  rw [← Decoder.reference_mapping value snapshot, ← Decoder.reference_cell value snapshot]
  refine (hn.reference hc hs hf.builtins hq₀ hbuiltins (by omega)).bind ?_
  rintro builtins' r₃ ⟨q₁, hq₁, rfl, hpre₁, hbuiltins'⟩
  refine (hn.slots hf.stack hq₁ hstack hls).bind ?_
  rintro stack' r₄ ⟨q₂, hq₂, rfl, hpre₂, hstack'⟩
  refine (Decoder.sequence_decodes hf.blockCount fun b hb =>
    Decoder.block_decodes (hf.blocks b hb)).bind ?_
  refine (Decoder.optional_decodes fun e he => Decoder.raised_decodes (hf.pending e he)).bind ?_
  refine (hn.reference hc hs hf.globals hq₂ hglobals (by omega)).bind ?_
  rintro globals' r₅ ⟨q₃, hq₃, rfl, hpre₃, hglobals'⟩
  refine (Decoder.integer_zigzag hf.lastOffset).bind ?_
  refine (Decoder.bool_byte f.finished).bind ?_
  refine (Decoder.word32_varint hf.line).bind ?_
  refine (hn.recordedLocals hc hs hf.locals hq₃ hlocals (by omega)).bind ?_
  rintro locals' r₆ ⟨q₄, hq₄, rfl, hpre₄, hlocals'⟩
  refine (Decoder.integer_zigzag hf.lower).bind ?_
  refine (Decoder.integer_zigzag hf.upper).bind ?_
  refine (Decoder.integer_zigzag hf.previous).bind ?_
  refine (hn.references hc hs hf.cells hq₄ hcells hlc).last ?_
  rintro cells' r₇ ⟨q₅, hq₅, hm, hpre₅, hcells'⟩
  have hpre₃₅ := hpre₄.trans hpre₅
  have hpre₂₅ := hpre₃.trans hpre₃₅
  have hpre₁₅ := hpre₂.trans hpre₂₅
  have hpre₀₅ := hpre₁.trans hpre₁₅
  have hρ : ∀ {q : Pairs}, q <+: q₅ → ∀ a b, q.Paired a b → q₅.Paired a b :=
    fun hq _ _ => Pairs.Paired.mono hq
  have hframe : f.Alike q₅.Paired
      { version := f.version, code, builtins := builtins', stack := stack', blocks := f.blocks,
        pending := f.pending, globals := globals', lastOffset := f.lastOffset,
        finished := f.finished, line := f.line, locals := locals', lower := f.lower,
        upper := f.upper, previous := f.previous, cells := cells' } :=
    { version := rfl
      code := hcode
      builtins := hbuiltins'.mono (hρ hpre₁₅)
      stack := hstack'.imp fun _ _ => optionalAlike_mono (hρ hpre₂₅)
      blocks := rfl
      pending := rfl
      globals := hglobals'.mono (hρ hpre₃₅)
      lastOffset := rfl
      finished := rfl
      line := rfl
      locals := hlocals'.mono (hρ hpre₅)
      lower := rfl
      upper := rfl
      previous := rfl
      cells := hcells' }
  have hrest := hback'.imp fun _ _ => FrameRecord.Alike.mono (hρ hpre₀₅)
  exact .pure ⟨q₅, hq₅, hm, hpre₀.trans hpre₀₅, .cons hframe hrest⟩

end ReadBack

end Resumable
