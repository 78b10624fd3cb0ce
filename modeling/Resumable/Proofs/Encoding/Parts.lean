import Resumable.Proofs.Encoding.Reading
import Resumable.Snapshot.Encode

/-!
# Reading back what is not shared

Exceptions, blocks and code are written without regard to the session.  What may be written is
bounded by the words that hold lengths, lines and counts (`Writable`); whatever is within these
bounds is read back.

Code objects among the constants get new identities when they are read, so constants and code are
read back up to these: `Const.plain` and `Code.plain` forget them, and nothing that validation
looks at is forgotten (`Code.validate_eq_of_plain`).
-/

namespace Resumable

/-! ### Bounds -/

/-- The number of texts and their lengths fit a word. -/
def Texts (ss : List String) : Prop := Long ss.length ∧ ∀ s ∈ ss, Long s.utf8ByteSize

/-- The message is short enough to be written with its length. -/
def Exception.Writable (e : Exception) : Prop := ∀ m, e.message = some m → Long m.utf8ByteSize

/-- The name and the numbers fit their fields. -/
structure TracebackEntry.Writable (t : TracebackEntry) : Prop where
  code : Long t.code.utf8ByteSize
  line : t.line < 2 ^ 32
  offset : Long t.offset

/-- The exception and each entry of its traceback are writable. -/
structure Raised.Writable (e : Raised) : Prop where
  exception : e.exception.Writable
  length : Long e.traceback.length
  traceback : ∀ t ∈ e.traceback, t.Writable

/-- The handler and the depth fit their fields. -/
structure Block.Writable (b : Block) : Prop where
  handler : Long b.handler
  depth : Long b.depth

/-- Code within its bounds that is valid, whatever its constants are. -/
structure CodeOf.Writable {κ : Type} (c : CodeOf κ) : Prop where
  valid : c.Valid
  name : Long c.name.utf8ByteSize
  bytecode : Long c.bytecode.length
  consts : Long c.consts.length
  names : Texts c.names
  varnames : Texts c.varnames
  cellvars : Texts c.cellvars
  freevars : Texts c.freevars
  argCount : c.argCount < 2 ^ 16
  maxStack : c.maxStack < 2 ^ 16
  firstLine : c.firstLine < 2 ^ 32
  lineTable : Long c.lineTable.length

/-- Constants within their bounds; code among them is valid. -/
inductive Const.Writable : Const → Prop
  | none : Writable .none
  | bool (b : Bool) : Writable (.bool b)
  | int (i : Int64) : Writable (.int i)
  | float (x : Binary64) : Writable (.float x)
  | str {s : String} (length : Long s.utf8ByteSize) : Writable (.str s)
  | tuple {items : List Const} (length : Long items.length) (held : ∀ k ∈ items, Writable k) :
    Writable (.tuple items)
  | code {identity : Identity} {body : CodeOf Const} (self : body.Writable)
    (held : ∀ k ∈ body.consts, Writable k) : Writable (.code identity body)

/-- Code within its bounds, with constants within theirs. -/
structure Code.Writable (c : Code) : Prop where
  self : CodeOf.Writable c
  held : ∀ k ∈ c.consts, k.Writable

/-! ### Code without identities -/

mutual

/-- A constant without the identities of code in it. -/
def Const.plain : Const → Const
  | .tuple items => .tuple (Const.allPlain items)
  | .code _ body => .code 0 { body with consts := Const.allPlain body.consts }
  | k => k

/-- Constants without the identities of code in them. -/
def Const.allPlain : List Const → List Const
  | [] => []
  | k :: rest => Const.plain k :: Const.allPlain rest

end

/-- Code without the identities of code in it. -/
def Code.plain (c : Code) : Code := { c with consts := Const.allPlain c.consts }

theorem Const.allPlain_eq_map (ks : List Const) : Const.allPlain ks = ks.map Const.plain := by
  induction ks with
  | nil => rfl
  | cons k ks ih => rw [Const.allPlain, ih, List.map_cons]

theorem Const.data_eq_map (ks : List Const) : Const.data ks = ks.map Const.datum := by
  induction ks with
  | nil => rfl
  | cons k ks ih => rw [Const.data, ih, List.map_cons]

mutual

theorem Const.datum_plain : ∀ k : Const, k.plain.datum = k.datum
  | .none | .bool _ | .int _ | .float _ | .str _ => rfl
  | .tuple items => by rw [Const.plain, Const.datum, Const.datum, Const.data_allPlain items]
  | .code _ body => by
    rw [Const.plain, Const.datum, Const.datum, Const.data_allPlain body.consts]
    rfl

theorem Const.data_allPlain : ∀ ks : List Const, Const.data (Const.allPlain ks) = Const.data ks
  | [] => rfl
  | k :: ks => by
    rw [Const.allPlain, Const.data, Const.data, Const.datum_plain k, Const.data_allPlain ks]

end

/-- Identities are not written. -/
theorem Code.datum_eq_of_plain {c c' : Code} (h : c'.plain = c.plain) : c'.datum = c.datum := by
  have hp : ∀ c : Code, c.plain.datum = c.datum := by
    intro c
    rw [Code.datum, Code.datum, Code.plain, Const.data_allPlain]
    rfl
  rw [← hp c', h, hp c]

/-- Code that differs in identities differs in its constants only, and has as many of them. -/
theorem Code.eq_of_plain {c c' : Code} (h : c'.plain = c.plain) :
    c' = { c with consts := c'.consts } ∧ c'.consts.length = c.consts.length := by
  simp only [Code.plain, CodeOf.mk.injEq, Const.allPlain_eq_map] at h
  obtain ⟨hn, hb, hk, h⟩ := h
  have hl : c'.consts.length = c.consts.length := by
    have := congrArg List.length hk
    rwa [List.length_map, List.length_map] at this
  refine ⟨?_, hl⟩
  obtain ⟨hns, hv, hcv, hf, ha, hm, hfl, hfi, hlt⟩ := h
  cases c'
  cases c
  simp_all

/-- Validation only counts the constants. -/
theorem CodeOf.validate_consts {κ : Type} (c : CodeOf κ) {ks : List κ}
    (h : ks.length = c.consts.length) :
    CodeOf.validate { c with consts := ks } = c.validate := by
  have ht : CodeOf.tableSize { c with consts := ks } = c.tableSize := by
    funext t
    cases t <;> simp [CodeOf.tableSize, h, CodeOf.cellCount, CodeOf.cellNames]
  have hd : CodeOf.defect? { c with consts := ks } = c.defect? := by
    funext is
    simp only [CodeOf.defect?, CodeOf.lineDefect?]
    congr 2
    funext i
    simp only [CodeOf.instructionDefect?, ht]
    rfl
  simp only [CodeOf.validate, hd]

theorem Code.validate_eq_of_plain {c c' : Code} (h : c'.plain = c.plain) :
    c'.validate = c.validate := by
  obtain ⟨he, hl⟩ := Code.eq_of_plain h
  rw [he]
  exact c.validate_consts hl

/-! ### Reading the parts back -/

namespace Decoder

/-- A variant is its number and what it carries. -/
theorem variant_reads {α : Type} {k : Nat → Decoder α} {n : Nat} (hn : n < 2 ^ 32) {r : Reader}
    {bytes : List UInt8} {post : α → Reader → Prop} (h : Reads (k n) r bytes post) :
    Reads (word32 >>= k) r (Binary.varint n ++ bytes) post :=
  (word32_varint hn).bind h

theorem variant_decodes {α : Type} {k : Nat → Decoder α} {n : Nat} {name : String} {d : Datum}
    {a : α} (hn : n < 2 ^ 32) (h : Decodes (k n) d.bytes a) :
    Decodes (word32 >>= k) (Datum.variant n name d).bytes a := by
  rw [Datum.bytes_variant]
  exact fun r => variant_reads hn (h r)

/-- A variant that carries nothing is its number. -/
theorem constant_decodes {α : Type} {k : Nat → Decoder α} {n : Nat} {a : α} (hn : n < 2 ^ 32)
    (hk : k n = pure a) : Decodes (word32 >>= k) (Binary.varint n) a :=
  (word32_varint hn).last hk

theorem exceptionKind_decodes (k : ExceptionKind) : Decodes exceptionKind k.datum.bytes k := by
  have hn : k.number < 2 ^ 32 := by cases k <;> decide
  refine constant_decodes hn ?_
  rw [ExceptionKind.ofNumber?_number]
  rfl

theorem exception_decodes {e : Exception} (h : e.Writable) : Decodes exception e.datum.bytes e := by
  simp only [Exception.datum, Datum.bytes, Datum.bytesOfFields]
  refine (exceptionKind_decodes e.kind).andThen ?_
  exact (optional_decodes fun m hm => text_decodes (h m hm)).andThen (Decodes.pure e)

theorem tracebackEntry_decodes {t : TracebackEntry} (h : t.Writable) :
    Decodes tracebackEntry t.datum.bytes t := by
  simp only [TracebackEntry.datum, Datum.bytes, Datum.bytesOfFields]
  refine (text_decodes h.code).andThen ?_
  refine (word32_varint h.line).andThen ?_
  exact (word64_varint h.offset).andThen (Decodes.pure t)

theorem raised_decodes {e : Raised} (h : e.Writable) : Decodes raised e.datum.bytes e := by
  rw [Raised.datum, Datum.bytes, Datum.bytesOfFields, Datum.bytesOfFields, Datum.bytesOfFields]
  refine (exception_decodes h.exception).andThen ?_
  refine (sequence_decodes h.length fun t ht => ?_).andThen (Decodes.pure e)
  exact tracebackEntry_decodes (h.traceback t ht)

theorem flags_decodes (f : Flags) : Decodes flags f.datum.bytes f := by
  simp only [Flags.datum, Datum.bytes, Datum.bytesOfFields]
  refine (bool_byte f.optimized).andThen ?_
  refine (bool_byte f.newLocals).andThen ?_
  refine (bool_byte f.generator).andThen ?_
  exact (bool_byte f.acceptsInput).andThen (Decodes.pure f)

theorem builtin_decodes (b : Builtin) : Decodes builtin b.datum.bytes b := by
  cases b <;> exact constant_decodes (by decide) rfl

theorem blockKind_decodes (k : BlockKind) : Decodes blockKind k.datum.bytes k := by
  cases k <;> exact constant_decodes (by decide) rfl

theorem generatorState_decodes (s : GeneratorState) :
    Decodes generatorState s.datum.bytes s := by
  cases s <;> exact constant_decodes (by decide) rfl

theorem block_decodes {b : Block} (h : b.Writable) : Decodes block b.datum.bytes b := by
  rw [Block.datum, Datum.bytes, Datum.bytesOfFields, Datum.bytesOfFields, Datum.bytesOfFields,
    Datum.bytesOfFields, Datum.bytes, Datum.bytes]
  refine (blockKind_decodes b.kind).andThen ?_
  refine (word64_varint h.handler).andThen ?_
  exact (word64_varint h.depth).andThen (Decodes.pure b)

theorem texts_decodes {ss : List String} (h : Texts ss) :
    Decodes (sequence text) (Datum.texts ss).bytes ss :=
  sequence_decodes h.1 fun s hs => text_decodes (h.2 s hs)

theorem byteString_decodes {bs : List UInt8} (h : Long bs.length) :
    Decodes (sequence byte) (Datum.bytesOf bs).bytes bs :=
  sequence_decodes h fun b _ => byte_decodes b

/-! ### Reading code back -/

/-- Constants are read back if each of them is. -/
theorem constants_read {constant : Decoder Const} {ks : List Const} (hl : Long ks.length)
    (h : ∀ k ∈ ks, ∀ r, Reads constant r k.datum.bytes fun k' r' =>
      k'.plain = k.plain ∧ r.Later r') (r : Reader) :
    Reads (sequence constant) r (Datum.sequence (Const.data ks)).bytes fun ks' r' =>
      Const.allPlain ks' = Const.allPlain ks ∧ r.Later r' := by
  rw [Const.data_eq_map]
  refine (sequence_reads (I := r.Later) (R := fun k k' => k'.plain = k.plain) hl ?_ r
    (Reader.Later.refl r)).mono ?_
  · intro k hk r₁ hr₁
    exact (h k hk r₁).mono fun k' r₂ ⟨he, hr₂⟩ => ⟨he, hr₁.trans hr₂⟩
  · rintro ks' r' ⟨hks, hr'⟩
    have he : List.Forall₂ (· = ·) (ks'.map Const.plain) (ks.map Const.plain) :=
      List.forall₂_map_left_iff.2 (List.forall₂_map_right_iff.2 hks.flip)
    rw [List.forall₂_eq_eq_eq] at he
    rw [Const.allPlain_eq_map, Const.allPlain_eq_map]
    exact ⟨he, hr'⟩

/-- Code is read back if its constants are. -/
theorem codeWith_reads {constant : Decoder Const} {c : Code} (hc : CodeOf.Writable c)
    (h : ∀ k ∈ c.consts, ∀ r, Reads constant r k.datum.bytes fun k' r' =>
      k'.plain = k.plain ∧ r.Later r') (r : Reader) :
    Reads (codeWith constant) r c.datum.bytes fun c' r' => c'.plain = c.plain ∧ r.Later r' := by
  simp only [Code.datum, CodeOf.datumWith, Datum.bytes_record, Datum.bytesOfFields]
  refine (text_decodes hc.name).bind ?_
  refine (byteString_decodes hc.bytecode).bind ?_
  refine (constants_read hc.consts h r).bind ?_
  rintro ks r' ⟨hks, hr'⟩
  refine (texts_decodes hc.names).bind ?_
  refine (texts_decodes hc.varnames).bind ?_
  refine (texts_decodes hc.cellvars).bind ?_
  refine (texts_decodes hc.freevars).bind ?_
  refine (word16_varint hc.argCount).bind ?_
  refine (word16_varint hc.maxStack).bind ?_
  refine (flags_decodes c.flags).bind ?_
  refine (word32_varint hc.firstLine).bind ?_
  refine (byteString_decodes hc.lineTable).bind ?_
  have hp : Code.plain { c with consts := ks } = c.plain := by
    simp only [Code.plain, hks]
  have hv : CodeOf.validate { c with consts := ks } = .ok () :=
    (Code.validate_eq_of_plain hp).trans hc.valid
  simp only [hv]
  exact .pure ⟨hp, hr'⟩

theorem newIdentity_reads (r : Reader) : Reads newIdentity r [] fun _ r' => r.Later r' :=
  fun _ => ⟨r.heap.nextIdentity, _, rfl, r.heap.nextIdentity + 1, rfl⟩

theorem length_datum_pos (k : Const) : 0 < k.datum.bytes.length := by
  cases k with
  | none => exact length_varint_pos _
  | _ =>
    rw [Const.datum, Datum.bytes, List.length_append]
    exact Nat.add_pos_left (length_varint_pos _) _

theorem length_le_of_mem_data {k : Const} {ks : List Const} (h : k ∈ ks) :
    k.datum.bytes.length ≤ (Datum.sequence (Const.data ks)).bytes.length := by
  have hk : k.datum ∈ Const.data ks := by
    rw [Const.data_eq_map]
    exact List.mem_map_of_mem h
  rw [Datum.bytes, List.length_append]
  exact (length_le_of_mem hk).trans (Nat.le_add_left _ _)

theorem length_le_of_mem_consts {c : Code} {k : Const} (h : k ∈ c.consts) :
    k.datum.bytes.length ≤ c.datum.bytes.length := by
  have hk := length_le_of_mem_data h
  simp only [Code.datum, CodeOf.datumWith, Datum.bytes_record, Datum.bytesOfFields,
    List.length_append]
  omega

theorem Decodes.plain {d : Decoder Const} {bytes : List UInt8} {k : Const} (h : Decodes d bytes k)
    (r : Reader) : Reads d r bytes fun k' r' => k'.plain = k.plain ∧ r.Later r' := by
  refine (h r).mono ?_
  rintro _ _ ⟨rfl, rfl⟩
  exact ⟨rfl, Reader.Later.refl _⟩

/-- A constant is read back if its form is no longer than the nesting allowed for.  The induction is
on the nesting: the number of a variant takes up a byte, so what it holds is shorter. -/
theorem constant_reads (fuel : Nat) (k : Const) (hk : k.Writable)
    (hl : k.datum.bytes.length ≤ fuel) (r : Reader) :
    Reads (constant fuel) r k.datum.bytes fun k' r' => k'.plain = k.plain ∧ r.Later r' := by
  induction fuel generalizing k r with
  | zero => exact absurd (length_datum_pos k) (by omega)
  | succ fuel ih =>
    change Reads (constantWith (constant fuel)) r _ _
    cases hk with
    | none => exact Decodes.plain (k := .none) (constant_decodes (by decide) rfl) r
    | bool b =>
      refine Decodes.plain (k := .bool b) (variant_decodes (by decide) ?_) r
      exact (bool_byte b).last (by rfl)
    | int i =>
      refine Decodes.plain (k := .int i) (variant_decodes (by decide) ?_) r
      refine (integer_zigzag (fitsWord_toInt i)).last ?_
      rw [Int64.ofInt_toInt]
    | float x =>
      refine Decodes.plain (k := .float x) (variant_decodes (by decide) ?_) r
      exact (float_littleEndian x).last (by rfl)
    | str h =>
      refine Decodes.plain (variant_decodes (by decide) ?_) r
      exact (text_decodes h).last (by rfl)
    | @tuple items hn held =>
      -- the marker takes a byte, so that the fuel left is enough for the items
      rw [Const.datum, Datum.bytes, List.length_append] at hl
      have hp := length_varint_pos 5
      refine variant_reads (by decide) ((constants_read hn ?_ r).last ?_)
      · intro k hk r
        have hs := length_le_of_mem_data hk
        exact ih k (held k hk) (by omega) r
      · rintro ks r' ⟨hks, hr'⟩
        refine .pure ⟨?_, hr'⟩
        rw [Const.plain, Const.plain, hks]
    | @code identity body self held =>
      rw [Const.datum, Datum.bytes, List.length_append] at hl
      change _ + (Code.datum body).bytes.length ≤ _ at hl
      have hp := length_varint_pos 6
      refine variant_reads (by decide) ((codeWith_reads self ?_ r).last ?_)
      · intro k hk r
        have hs := length_le_of_mem_consts hk
        exact ih k (held k hk) (by omega) r
      · rintro c r₁ ⟨hc, hr₁⟩
        refine (newIdentity_reads r₁).last ?_
        intro _ r₂ hr₂
        refine .pure ⟨?_, hr₁.trans hr₂⟩
        rw [Const.plain, Const.plain]
        exact congrArg (Const.code 0) hc

/-- Code is read back up to identities. -/
theorem code_reads {c : CodeObject} (hc : c.body.Writable) (r : Reader) :
    Reads code r c.body.datum.bytes fun c' r' => c'.body.plain = c.body.plain ∧ r.Later r' := by
  refine .get fun rest => (codeWith_reads hc.self ?_ r).last ?_
  · intro k hk r
    have hs := length_le_of_mem_consts hk
    refine constant_reads _ k (hc.held k hk) ?_ r
    rw [List.length_append]
    omega
  · rintro c' r₁ ⟨hc', hr₁⟩
    exact (newIdentity_reads r₁).last fun i r₂ hr₂ => .pure ⟨hc', hr₁.trans hr₂⟩

end Decoder

end Resumable
