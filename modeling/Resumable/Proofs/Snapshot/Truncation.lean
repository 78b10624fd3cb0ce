import Resumable.Proofs.Snapshot.Extension
import Resumable.Proofs.Snapshot.RoundTrip

/-!
# Truncated and prolonged snapshots

The binary form of a snapshot has no mark at its end, and still no proper beginning of it can be
read, while bytes after it change nothing.

What a decoder meets in the form of something, read to its end, settles the matter: it is either
read to exactly that end or refused for what it says (`Decoder.Settles`).  This is so for everything
that is written, within its bounds or not, whatever objects the decoder knows.  A beginning that
could be read would have to be read from the whole form too, with something left over
(`Decoder.Deepens.extends`), which would not be its end.

* `settling_nested` : the forms of values and snapshots settle the matter;
* `Heap.load_dump_prefix` : the main result.
-/

namespace Resumable

namespace Decoder

variable {α β : Type}

/-- Whatever follows the bytes, the decoder either reads exactly them and returns something that
satisfies a postcondition, or refuses them for what they say. -/
def Settles (d : Decoder α) (bytes : List UInt8) (post : α → Prop) : Prop :=
  ∀ (r : Reader) (rest : List UInt8),
    (∃ (a : α) (r' : Reader),
      d.run { r with input := bytes ++ rest } = .ok a { r' with input := rest } ∧ post a) ∨
    ∃ e r', d.run { r with input := bytes ++ rest } = .error e r' ∧ e ≠ .endOfInput

/-- Whatever is returned. -/
abbrev Any (_ : α) : Prop := True

theorem Decodes.settles {d : Decoder α} {bytes : List UInt8} {a : α} (h : Decodes d bytes a) :
    Settles d bytes (· = a) := by
  intro r rest
  obtain ⟨a', r', hd, ha, -⟩ := h r rest
  exact .inl ⟨a', r', hd, ha⟩

namespace Settles

theorem mono {d : Decoder α} {bytes : List UInt8} {post post' : α → Prop}
    (h : Settles d bytes post) (hp : ∀ a, post a → post' a) : Settles d bytes post' := by
  intro r rest
  rcases h r rest with ⟨a, r', hd, ha⟩ | he
  · exact .inl ⟨a, r', hd, hp a ha⟩
  · exact .inr he

theorem any {d : Decoder α} {bytes : List UInt8} {post : α → Prop} (h : Settles d bytes post) :
    Settles d bytes Any :=
  h.mono fun _ _ => trivial

theorem pure {a : α} {post : α → Prop} (h : post a) : Settles (pure a) [] post :=
  fun r _ => .inl ⟨a, r, rfl, h⟩

/-- What is refused is refused before it is read to its end. -/
theorem throw {e : CodecError} (he : e ≠ .endOfInput) (bytes : List UInt8) (post : α → Prop) :
    Settles (throw e : Decoder α) bytes post :=
  fun _ _ => .inr ⟨e, _, rfl, he⟩

theorem meaningless (bytes : List UInt8) (post : α → Prop) : Settles meaningless bytes post :=
  throw (e := .meaningless) nofun bytes post

theorem bind {d : Decoder α} {k : α → Decoder β} {b₁ b₂ : List UInt8} {post : α → Prop}
    {post' : β → Prop} (h : Settles d b₁ post) (hk : ∀ a, post a → Settles (k a) b₂ post') :
    Settles (d >>= k) (b₁ ++ b₂) post' := by
  intro r rest
  rw [List.append_assoc]
  rcases h r (b₂ ++ rest) with ⟨a, r', hd, ha⟩ | ⟨e, r', hd, he⟩
  · rw [run_bind_ok hd]
    exact hk a ha r' rest
  · exact .inr ⟨e, r', run_bind_error hd, he⟩

/-- Nothing is left to read after the last part. -/
theorem last {d : Decoder α} {k : α → Decoder β} {bytes : List UInt8} {post : α → Prop}
    {post' : β → Prop} (h : Settles d bytes post) (hk : ∀ a, post a → Settles (k a) [] post') :
    Settles (d >>= k) bytes post' := by
  rw [← List.append_nil bytes]
  exact h.bind hk

theorem map {d : Decoder α} {bytes : List UInt8} {post : α → Prop} (f : α → β)
    (h : Settles d bytes post) : Settles (d >>= fun a => Pure.pure (f a)) bytes Any :=
  h.last fun _ _ => pure trivial

/-- A decoder may look at what it has not read yet. -/
theorem get {k : Reader → Decoder α} {bytes : List UInt8} {post : α → Prop}
    (h : ∀ r, bytes <+: r.input → Settles (k r) bytes post) :
    Settles (MonadState.get >>= k) bytes post :=
  fun r rest => h { r with input := bytes ++ rest } (List.prefix_append _ _) r rest

theorem modifyGet {f : Reader → α × Reader} {post : α → Prop}
    (h : ∀ r, (f r).2.input = r.input ∧ post (f r).1) :
    Settles (MonadStateOf.modifyGet f) [] post := by
  intro r rest
  obtain ⟨hi, hp⟩ := h { r with input := rest }
  refine .inl ⟨(f { r with input := rest }).1, (f { r with input := rest }).2, ?_, hp⟩
  change EStateM.Result.ok (f { r with input := rest }).1 (f { r with input := rest }).2 = _
  generalize f { r with input := rest } = p at hi
  obtain ⟨a, r'⟩ := p
  cases r'
  cases hi
  rfl

end Settles

/-! ### Parts -/

/-- A number that is too large is refused.  The induction is on the digits still allowed. -/
theorem varintFrom_settles (last digits scale sum n : Nat) :
    Settles (varintFrom last digits scale sum) (Binary.varint n) (· = sum + n * scale) := by
  induction digits generalizing scale sum n with
  | zero => exact .throw (e := .badVarint) nofun _ _
  | succ digits ih =>
    by_cases hn : n < 128
    · have hb : (UInt8.ofNat n).toNat = n := by simp; omega
      rw [Binary.varint, if_pos hn, varintFrom]
      refine (byte_decodes _).settles.last ?_
      rintro _ rfl
      simp only [hb, Nat.mod_eq_of_lt hn]
      rw [if_neg (by omega)]
      split
      · exact .throw (e := .badVarint) nofun _ _
      · exact .pure rfl
    · have hb : (UInt8.ofNat (n % 128 + 128)).toNat = n % 128 + 128 := by simp; omega
      have hm : (n % 128 + 128) % 128 = n % 128 := by omega
      have hs : sum + n % 128 * scale + n / 128 * (scale * 128) = sum + n * scale := by
        calc sum + n % 128 * scale + n / 128 * (scale * 128)
            = sum + (128 * (n / 128) + n % 128) * scale := by ring
          _ = sum + n * scale := by rw [Nat.div_add_mod]
      rw [Binary.varint, if_neg hn, varintFrom, ← List.singleton_append]
      refine (byte_decodes _).settles.bind ?_
      rintro _ rfl
      simp only [hb, hm]
      rw [if_pos (by omega), ← hs]
      exact ih _ _ _

theorem word16_settles (n : Nat) : Settles word16 (Binary.varint n) (· = n) := by
  have hs := varintFrom_settles 3 3 1 0 n
  rwa [Nat.zero_add, Nat.mul_one] at hs

theorem word32_settles (n : Nat) : Settles word32 (Binary.varint n) (· = n) := by
  have hs := varintFrom_settles 15 5 1 0 n
  rwa [Nat.zero_add, Nat.mul_one] at hs

theorem word64_settles (n : Nat) : Settles word64 (Binary.varint n) (· = n) := by
  have hs := varintFrom_settles 1 10 1 0 n
  rwa [Nat.zero_add, Nat.mul_one] at hs

theorem integer_settles (i : Int) : Settles integer (Binary.varint (Binary.zigzag i)) Any :=
  (word64_settles _).map _

theorem text_settles (s : String) : Settles text (Binary.text s) (· = s) := by
  refine (word64_settles _).bind ?_
  rintro _ rfl
  refine (bytes_decodes rfl).settles.last ?_
  rintro _ rfl
  rw [fromUTF8?_toUTF8]
  exact .pure rfl

/-- A variant settles the matter if what it carries does. -/
theorem variant_settles {k : Nat → Decoder α} {n : Nat} {bytes : List UInt8} {post : α → Prop}
    (h : Settles (k n) bytes post) : Settles (word32 >>= k) (Binary.varint n ++ bytes) post :=
  (word32_settles n).bind fun _ hn => hn ▸ h

theorem optional_settles {item : Decoder α} {o : Option Datum}
    (h : ∀ d, o = some d → Settles item d.bytes Any) :
    Settles (optional item) (Datum.optional o).bytes Any := by
  cases o with
  | none => exact optional_absent.settles.any
  | some d =>
    rw [Datum.optional, Datum.bytes_present]
    refine (isPresent_byte true).settles.bind ?_
    rintro _ rfl
    exact (h d rfl).map _

theorem items_settles {item : Decoder α} {form : β → List UInt8} {bs : List β}
    (h : ∀ b ∈ bs, Settles item (form b) Any) :
    Settles (items item bs.length) (bs.flatMap form) Any := by
  induction bs with
  | nil => exact .pure trivial
  | cons b bs ih =>
    refine (h b List.mem_cons_self).bind fun a _ => ?_
    exact (ih fun b hb => h b (List.mem_cons_of_mem _ hb)).map _

theorem sequence_settles {item : Decoder α} {form : β → List UInt8} {bs : List β}
    (h : ∀ b ∈ bs, Settles item (form b) Any) :
    Settles (sequence item) (Binary.varint bs.length ++ bs.flatMap form) Any := by
  refine (word64_settles _).bind ?_
  rintro _ rfl
  exact items_settles h

theorem data_settle {item : Decoder α} {ds : List Datum}
    (h : ∀ d ∈ ds, Settles item d.bytes Any) :
    Settles (sequence item) (Datum.sequence ds).bytes Any := by
  rw [Datum.bytes, bytesOfItems_eq_flatMap]
  exact sequence_settles h

theorem forms_settle {item : Decoder α} {form : β → Datum} {bs : List β}
    (h : ∀ b ∈ bs, Settles item (form b).bytes Any) :
    Settles (sequence item) (Datum.sequence (bs.map form)).bytes Any :=
  data_settle fun _ hd => by
    obtain ⟨b, hb, rfl⟩ := List.mem_map.1 hd
    exact h b hb

theorem texts_settle (ss : List String) : Settles (sequence text) (Datum.texts ss).bytes Any :=
  forms_settle fun s _ => (text_settles s).any

theorem byteString_settles (bs : List UInt8) :
    Settles (sequence byte) (Datum.bytesOf bs).bytes Any :=
  forms_settle fun b _ => (byte_decodes b).settles.any

theorem exception_settles (e : Exception) : Settles exception e.datum.bytes Any := by
  simp only [Exception.datum, Datum.bytes_record, Datum.bytesOfFields, List.append_nil]
  refine (exceptionKind_decodes e.kind).settles.bind fun _ _ => ?_
  refine (optional_settles fun d hd => ?_).map _
  obtain ⟨m, -, rfl⟩ := Option.map_eq_some_iff.1 hd
  exact (text_settles m).any

theorem tracebackEntry_settles (t : TracebackEntry) :
    Settles tracebackEntry t.datum.bytes Any := by
  simp only [TracebackEntry.datum, Datum.bytes, Datum.bytesOfFields, List.append_nil]
  refine (text_settles t.code).bind fun _ _ => ?_
  exact (word32_settles t.line).bind fun _ _ => (word64_settles t.offset).map _

theorem raised_settles (e : Raised) : Settles raised e.datum.bytes Any := by
  simp only [Raised.datum, Datum.bytes_record, Datum.bytesOfFields, List.append_nil]
  refine (exception_settles e.exception).bind fun _ _ => ?_
  exact (forms_settle fun t _ => tracebackEntry_settles t).map _

theorem block_settles (b : Block) : Settles block b.datum.bytes Any := by
  rw [Block.datum, Datum.bytes_record, Datum.bytesOfFields, Datum.bytesOfFields,
    Datum.bytesOfFields, Datum.bytesOfFields, Datum.bytes, Datum.bytes, List.append_nil]
  refine (blockKind_decodes b.kind).settles.bind fun _ _ => ?_
  exact (word64_settles b.handler).bind fun _ _ => (word64_settles b.depth).map _

/-! ### Code -/

theorem codeWith_settles {constant : Decoder Const} {c : Code}
    (h : ∀ k ∈ c.consts, Settles constant k.datum.bytes Any) :
    Settles (codeWith constant) c.datum.bytes Any := by
  have hk : Settles (sequence constant) (Datum.sequence (Const.data c.consts)).bytes Any := by
    rw [Const.data_eq_map]
    exact forms_settle h
  simp only [Code.datum, CodeOf.datumWith, Datum.bytes_record, Datum.bytesOfFields,
    List.append_nil]
  refine (text_settles c.name).bind fun _ _ => ?_
  refine (byteString_settles c.bytecode).bind fun _ _ => hk.bind fun _ _ => ?_
  refine (texts_settle c.names).bind fun _ _ => (texts_settle c.varnames).bind fun _ _ => ?_
  refine (texts_settle c.cellvars).bind fun _ _ => (texts_settle c.freevars).bind fun _ _ => ?_
  refine (word16_settles c.argCount).bind fun _ _ => ?_
  refine (word16_settles c.maxStack).bind fun _ _ => ?_
  refine (flags_decodes c.flags).settles.bind fun _ _ => ?_
  refine (word32_settles c.firstLine).bind fun _ _ => ?_
  refine (byteString_settles c.lineTable).last fun _ _ => ?_
  dsimp only
  split
  · exact .pure trivial
  · exact .meaningless _ _

theorem newIdentity_settles : Settles newIdentity [] Any :=
  .modifyGet fun _ => ⟨rfl, trivial⟩

/-- The form of a constant settles the matter if it is no longer than the nesting allowed for.  The
induction is on the nesting, of which the number of a variant takes up one. -/
theorem constant_settles (nesting : Nat) (k : Const) (hl : k.datum.bytes.length ≤ nesting) :
    Settles (constant nesting) k.datum.bytes Any := by
  induction nesting generalizing k with
  | zero => exact absurd (length_datum_pos k) (by omega)
  | succ nesting ih =>
    change Settles (constantWith (constant nesting)) _ _
    cases k with
    | none =>
      have hd : Decodes (constantWith (constant nesting)) Const.none.datum.bytes .none :=
        constant_decodes (by decide) rfl
      exact hd.settles.any
    | bool b => exact variant_settles ((bool_byte b).settles.map _)
    | int i => exact variant_settles ((integer_settles _).map _)
    | float x => exact variant_settles ((float_littleEndian x).settles.map _)
    | str s => exact variant_settles ((text_settles s).map _)
    | tuple items =>
      rw [Const.datum, Datum.bytes_variant] at hl ⊢
      rw [List.length_append] at hl
      have hp := length_varint_pos 5
      rw [Const.data_eq_map] at hl ⊢
      refine variant_settles ((forms_settle fun k hk => ih k ?_).map _)
      have hs := length_le_of_mem_data hk
      rw [Const.data_eq_map] at hs
      omega
    | code identity body =>
      rw [Const.datum, Datum.bytes_variant] at hl ⊢
      rw [List.length_append] at hl
      have hp := length_varint_pos 6
      refine variant_settles ((codeWith_settles fun k hk => ih k ?_).last fun _ _ =>
        newIdentity_settles.map _)
      have hs := length_le_of_mem_consts (c := body) hk
      change _ + (Code.datum body).bytes.length ≤ _ at hl
      omega

theorem code_settles (c : Code) : Settles code c.datum.bytes Any := by
  refine .get fun r hr => (codeWith_settles fun k hk => constant_settles _ k ?_).last fun _ _ =>
    newIdentity_settles.map _
  have hs := length_le_of_mem_consts hk
  have hl := hr.length_le
  omega

/-! ### Objects -/

theorem register_settles (k : ObjectKind) (n : Nat) : Settles (register k n) [] Any :=
  .modifyGet fun _ => ⟨rfl, trivial⟩

/-- A number alone settles the matter, whether the decoder knows it or not. -/
theorem sharedWith_absent (k : ObjectKind) (fill : Nat → Decoder Unit) (n : Nat) :
    Settles (sharedWith k fill) (Datum.tuple [.natural n, .absent]).bytes Any := by
  simp only [Datum.bytes, Datum.bytesOfItems, List.append_nil]
  refine (word32_settles n).bind fun number _ => .get fun r _ => ?_
  cases r.known.lookup number with
  | some b =>
    refine (isPresent_byte false).settles.last ?_
    rintro _ rfl
    change Settles (if b.kind = k then _ else _) _ _
    split
    · exact .pure trivial
    · exact .meaningless _ _
  | none =>
    refine ((register_settles k number).bind fun b _ => ?_ : Settles _ ([] ++ [0]) _)
    refine (isPresent_byte false).settles.last ?_
    rintro _ rfl
    exact .meaningless _ _

/-- Contents settle the matter after a number, whether the decoder knows it or not. -/
theorem sharedWith_present {k : ObjectKind} {fill : Nat → Decoder Unit} (n : Nat) {d : Datum}
    (h : ∀ i, Settles (fill i) d.bytes Any) :
    Settles (sharedWith k fill) (Datum.tuple [.natural n, .present d]).bytes Any := by
  simp only [Datum.bytes, Datum.bytesOfItems, List.append_nil]
  refine (word32_settles n).bind fun number _ => .get fun r _ => ?_
  cases r.known.lookup number with
  | some b =>
    refine (isPresent_byte true).settles.bind ?_
    rintro _ rfl
    have he : CodecError.unskippable ≠ .endOfInput := by decide
    exact .throw he _ _
  | none =>
    refine ((register_settles k number).bind fun b _ => ?_ : Settles _ ([] ++ ([1] ++ d.bytes)) _)
    refine (isPresent_byte true).settles.bind ?_
    rintro _ rfl
    exact (h _).map _

end Decoder

/-! ### What is written -/

open Decoder (Settles Any)

/-- What the encoder writes, in any session, settles the matter for the decoder unless it is longer
than `nesting`. -/
def Settled {α β : Type} (nesting : Nat) (e : Encoder β) (form : β → List UInt8) (d : Decoder α) :
    Prop :=
  ∀ ⦃m b met⦄, e.run m = (b, met) → (form b).length ≤ nesting → Settles d (form b) Any

namespace Settled

variable {α β γ : Type} {nesting : Nat}

/-- What is written without regard to the session. -/
theorem plain {b : β} {form : β → List UInt8} {d : Decoder α} (h : Settles d (form b) Any) :
    Settled nesting (pure b) form d := by
  intro m b' met he _
  obtain ⟨rfl, -⟩ := Encoder.run_pure he
  exact h

theorem decoded {b : β} {form : β → List UInt8} {d : Decoder α} {a : α}
    (h : Decoder.Decodes d (form b) a) : Settled nesting (pure b) form d :=
  plain h.settles.any

theorem mem_mapM {f : γ → Encoder β} {xs : List γ} {m met : List SharedRef} {bs : List β} {b : β}
    (h : (xs.mapM f).run m = (bs, met)) (hb : b ∈ bs) :
    ∃ x ∈ xs, ∃ m₁ m₂, (f x).run m₁ = (b, m₂) := by
  induction xs generalizing bs m met with
  | nil =>
    obtain ⟨rfl, -⟩ := Encoder.run_pure h
    cases hb
  | cons x xs ih =>
    rw [List.mapM_cons] at h
    obtain ⟨b', m₁, hb', h⟩ := Encoder.run_bind h
    obtain ⟨bs', m₂, hbs, h⟩ := Encoder.run_bind h
    obtain ⟨rfl, -⟩ := Encoder.run_pure h
    rcases List.mem_cons.1 hb with rfl | hb
    · exact ⟨x, List.mem_cons_self, m, m₁, hb'⟩
    · obtain ⟨y, hy, hr⟩ := ih hbs hb
      exact ⟨y, List.mem_cons_of_mem _ hy, hr⟩

theorem length_form_le {form : β → List UInt8} {bs : List β} {b : β} (h : b ∈ bs) :
    (form b).length ≤ (bs.flatMap form).length := by
  rw [List.length_flatMap]
  exact List.le_sum_of_mem (List.mem_map_of_mem h)

/-- A sequence settles the matter if its items do. -/
theorem sequence {f : γ → Encoder β} {form : β → List UInt8} {d : Decoder α} {xs : List γ}
    (h : ∀ x ∈ xs, Settled nesting (f x) form d) :
    Settled nesting (xs.mapM f) (fun bs => Binary.varint bs.length ++ bs.flatMap form)
      (Decoder.sequence d) := by
  intro m bs met he hl
  beta_reduce at hl ⊢
  rw [List.length_append] at hl
  refine Decoder.sequence_settles fun b hb => ?_
  obtain ⟨x, hx, m₁, m₂, hr⟩ := mem_mapM he hb
  have hs : (form b).length ≤ (bs.flatMap form).length := length_form_le hb
  exact h x hx hr (by omega)

theorem data {f : γ → Encoder Datum} {d : Decoder α} {xs : List γ}
    (h : ∀ x ∈ xs, Settled nesting (f x) Datum.bytes d) :
    Settled nesting (xs.mapM f) (fun ds => (Datum.sequence ds).bytes) (Decoder.sequence d) := by
  intro m ds met he hl
  beta_reduce at hl ⊢
  rw [Datum.bytes, bytesOfItems_eq_flatMap] at hl ⊢
  exact sequence h he hl

theorem optional {f : γ → Encoder Datum} {d : Decoder α} {o : Option γ}
    (h : ∀ x, o = some x → Settled nesting (f x) Datum.bytes d) :
    Settled nesting (Encoder.optional f o) Datum.bytes (Decoder.optional d) := by
  intro m b met he hl
  cases o with
  | none =>
    obtain ⟨rfl, -⟩ := Encoder.run_pure he
    exact Decoder.optional_absent.settles.any
  | some x =>
    obtain ⟨b', m₁, hb, he⟩ := Encoder.run_bind he
    obtain ⟨rfl, -⟩ := Encoder.run_pure he
    rw [Datum.bytes, List.length_cons] at hl
    refine Decoder.optional_settles (o := some b') fun d hd => ?_
    cases hd
    exact h x rfl hb (by omega)

/-- A variant settles the matter if what it carries does. -/
theorem variant {e : Encoder Datum} {d : Decoder α} {k : Nat → Decoder β} {f : α → β} {index : Nat}
    (name : String) (h : Settled nesting e Datum.bytes d)
    (hk : k index = d >>= fun a => pure (f a)) :
    Settled (nesting + 1) (e >>= fun x => pure (.variant index name x)) Datum.bytes
      (Decoder.word32 >>= k) := by
  intro m b met he hl
  obtain ⟨x, m₁, hx, he⟩ := Encoder.run_bind he
  obtain ⟨rfl, -⟩ := Encoder.run_pure he
  rw [Datum.bytes_variant] at hl ⊢
  rw [List.length_append] at hl
  have hpos := Decoder.length_varint_pos index
  refine Decoder.variant_settles ?_
  rw [hk]
  exact (h hx (by omega)).map f

theorem less {e : Encoder β} {form : β → List UInt8} {d : Decoder α}
    (h : Settled (nesting + 1) e form d) : Settled nesting e form d :=
  fun _ _ _ he hl => h he (Nat.le_succ_of_le hl)

variable {h : Heap} {fuel : Nat}

/-- Without fuel, only the number of an object is written. -/
theorem sharedDatum_of_unfueled {m : List SharedRef} {r : SharedRef} (hi : m.idxOf? r = none) :
    (h.sharedDatum 0 r).run m = (.tuple [.natural m.length, .absent], m ++ [r]) := by
  unfold Heap.sharedDatum
  simp only [StateT.run, bind, StateT.bind, get, getThe, MonadStateOf.get, StateT.get, pure, hi]
  rfl

/-- An object settles the matter if what it holds does. -/
theorem reference {value : Decoder Value} {snapshot : Decoder Snapshot} {k : ObjectKind}
    (a : Ref k) (hc : ∀ fuel, Settled nesting ((h.contents a.shared).datum (h.sharedDatum fuel))
      Datum.bytes (Decoder.contents value snapshot k)) :
    Settled nesting (h.sharedDatum fuel a.shared) Datum.bytes
      (Decoder.reference value snapshot k) := by
  intro m b met he hl
  cases hi : m.idxOf? a.shared with
  | some i =>
    rw [Heap.sharedDatum_of_met hi] at he
    cases he
    exact (Decoder.sharedWith_absent _ _ _).map _
  | none =>
    cases fuel with
    | zero =>
      rw [sharedDatum_of_unfueled hi] at he
      cases he
      exact (Decoder.sharedWith_absent _ _ _).map _
    | succ fuel =>
      rw [Heap.sharedDatum_of_new hi] at he
      generalize hd : ((h.contents a.shared).datum (h.sharedDatum fuel)).run (m ++ [a.shared]) =
        run at he
      obtain ⟨d, met'⟩ := run
      cases he
      simp only [Datum.bytes, Datum.bytesOfItems, List.length_append, List.length_cons] at hl
      refine (Decoder.sharedWith_present _ fun i => ?_).map _
      refine (hc fuel hd (by omega)).last fun c _ => ?_
      exact .modifyGet fun _ => ⟨rfl, trivial⟩

end Settled

/-! ### Values and snapshots -/

/-- What is written for values and snapshots settles the matter unless it is longer than
`nesting`. -/
structure Settling (h : Heap) (nesting : Nat) (value : Decoder Value)
    (snapshot : Decoder Snapshot) : Prop where
  value : ∀ fuel (v : Value), Settled nesting (v.datum (h.sharedDatum fuel)) Datum.bytes value
  snapshot : ∀ fuel (s : Snapshot),
    Settled nesting (s.datumWith (h.sharedDatum fuel)) Datum.bytes snapshot

namespace Settling

variable {h : Heap} {fuel nesting : Nat} {value : Decoder Value} {snapshot : Decoder Snapshot}
  (hn : Settling h nesting value snapshot)

include hn

theorem values (vs : List Value) :
    Settled nesting (vs.mapM (Value.datum (h.sharedDatum fuel)))
      (fun ds => (Datum.sequence ds).bytes) (Decoder.sequence value) :=
  .data fun v _ => hn.value fuel v

theorem slots (slots : List (Option Value)) :
    Settled nesting (optionalValues (h.sharedDatum fuel) slots) Datum.bytes
      (Decoder.sequence (Decoder.optional value)) := by
  intro m b met he hl
  obtain ⟨ds, m₁, hds, he⟩ := Encoder.run_bind he
  obtain ⟨rfl, -⟩ := Encoder.run_pure he
  exact Settled.data (fun slot _ => .optional fun v _ => hn.value fuel v) hds hl

theorem binding (fuel : Nat) (e : String × Value) :
    Settled nesting (do let d ← Value.datum (h.sharedDatum fuel) e.2; pure (e.1, d))
      (fun b => Binary.text b.1 ++ b.2.bytes)
      (do let name ← Decoder.text; let v ← value; pure (name, v)) := by
  intro m b met he hl
  obtain ⟨d, m₁, hd, he⟩ := Encoder.run_bind he
  obtain ⟨rfl, -⟩ := Encoder.run_pure he
  beta_reduce at hl ⊢
  rw [List.length_append] at hl
  have hld := (Nat.le_add_left _ _).trans hl
  exact (Decoder.text_settles e.1).bind fun _ _ => (hn.value fuel e.2 hd hld).map _

theorem iteration (i : Iteration) :
    Settled nesting (i.datum (h.sharedDatum fuel)) Datum.bytes (Decoder.iteration value) := by
  intro m b met he hl
  cases i with
  | items vs i =>
    rw [Iteration.datum, Value.data_eq_mapM] at he
    obtain ⟨ds, m₁, hds, he⟩ := Encoder.run_bind he
    obtain ⟨rfl, -⟩ := Encoder.run_pure he
    simp only [Datum.bytes_variant, Datum.bytes_record, Datum.bytesOfFields, List.append_nil,
      List.length_append] at hl ⊢
    have hld : (Datum.sequence ds).bytes.length ≤ nesting := by omega
    refine Decoder.variant_settles ((hn.values vs.toList hds hld).bind fun _ _ => ?_)
    exact (Decoder.word64_settles i).map _
  | chars s i =>
    obtain ⟨rfl, -⟩ := Encoder.run_pure he
    simp only [Datum.bytes, Datum.bytesOfFields, List.append_nil]
    refine Decoder.variant_settles ((Decoder.text_settles s).bind fun _ _ => ?_)
    exact (Decoder.word64_settles i).map _
  | range next stop step =>
    obtain ⟨rfl, -⟩ := Encoder.run_pure he
    simp only [Datum.bytes, Datum.bytesOfFields, List.append_nil]
    refine Decoder.variant_settles ((Decoder.integer_settles _).bind fun _ _ => ?_)
    exact (Decoder.integer_settles _).bind fun _ _ => (Decoder.integer_settles _).map _

theorem generator (g : Generator) :
    Settled nesting (g.datum (h.sharedDatum fuel)) Datum.bytes
      (Decoder.contents value snapshot .generator) := by
  intro m b met he hl
  obtain ⟨d, m₁, hd, he⟩ := Encoder.run_bind he
  obtain ⟨rfl, -⟩ := Encoder.run_pure he
  simp only [Datum.bytes_record, Datum.bytesOfFields, List.append_nil,
    List.length_append] at hl ⊢
  refine (Decoder.generatorState_decodes g.state).settles.bind fun _ _ => ?_
  refine (Decoder.text_settles g.name).bind fun _ _ => ?_
  have hlength : d.bytes.length ≤ nesting := by omega
  refine (Settled.optional (fun f _ => ?_) hd hlength).map _
  intro m b met he hl
  refine (hn.snapshot fuel _ he hl).last fun s _ => ?_
  split
  · exact .pure trivial
  · exact .meaningless _ _

/-- What an object holds settles the matter. -/
theorem contents {k : ObjectKind} {c : Contents} (hk : c.kind = k) :
    Settled nesting (c.datum (h.sharedDatum fuel)) Datum.bytes
      (Decoder.contents value snapshot k) := by
  subst hk
  intro m b met he hl
  cases c with
  | mapping ns =>
    obtain ⟨es, m₁, hes, he⟩ := Encoder.run_bind he
    obtain ⟨rfl, -⟩ := Encoder.run_pure he
    rw [Datum.bytes, bytesOfEntries_eq_flatMap] at hl ⊢
    exact (Settled.sequence (fun e _ => hn.binding fuel e) hes hl).map _
  | cell v => exact (Settled.optional (fun w _ => hn.value fuel w) he hl).map _
  | iterator i => exact (hn.iteration i he hl).map _
  | generator g => exact hn.generator g he hl

theorem reference {k : ObjectKind} (a : Ref k) :
    Settled nesting (h.sharedDatum fuel a.shared) Datum.bytes
      (Decoder.reference value snapshot k) :=
  .reference a fun _ => hn.contents (h.kind_contents a.shared)

theorem references {k : ObjectKind} (as : List (Ref k)) :
    Settled nesting (Encoder.all (fun a => h.sharedDatum fuel a.shared) as)
      (fun ds => (Datum.sequence ds).bytes)
      (Decoder.sequence (Decoder.reference value snapshot k)) :=
  .data fun a _ => hn.reference a

theorem unwinding (u : Unwind Value) :
    Settled nesting (Value.unwindDatum (h.sharedDatum fuel) u) Datum.bytes
      (Decoder.unwinding value) := by
  cases u with
  | returning v => exact .less (.variant "Return" (hn.value fuel v) rfl)
  | breaking => exact .decoded (a := .breaking) (Decoder.constant_decodes (by decide) rfl)
  | continuing t =>
    exact .plain (Decoder.variant_settles ((Decoder.word64_settles t).map _))
  | raising e =>
    exact .plain (Decoder.variant_settles ((Decoder.raised_settles e).map _))

theorem function (i : Identity) (f : Function) :
    Settled (nesting + 1) ((Value.function i f).datum (h.sharedDatum fuel)) Datum.bytes
      (Decoder.valueWith value snapshot) := by
  intro m b met he hl
  rw [Value.datum, Value.data_eq_mapM] at he
  obtain ⟨g, m₁, hg, he⟩ := Encoder.run_bind he
  obtain ⟨ds, m₂, hds, he⟩ := Encoder.run_bind he
  obtain ⟨cs, m₃, hcs, he⟩ := Encoder.run_bind he
  obtain ⟨rfl, -⟩ := Encoder.run_pure he
  simp only [Datum.bytes_variant, Datum.bytes_record, Datum.bytesOfFields, List.append_nil,
    List.length_append] at hl ⊢
  have hpos := Decoder.length_varint_pos 8
  have hld : (Datum.sequence ds).bytes.length ≤ nesting := by omega
  have hlc : (Datum.sequence cs).bytes.length ≤ nesting := by omega
  refine Decoder.variant_settles (Settles.last (?_ : Settles _ _ Any) fun _ _ =>
    Decoder.newIdentity_settles.map _)
  refine (Decoder.code_settles f.code.body).bind fun _ _ => ?_
  rw [← Decoder.reference_mapping value snapshot, ← Decoder.reference_cell value snapshot]
  refine (hn.reference f.globals hg (by omega)).bind fun _ _ => ?_
  exact (hn.values f.defaults hds hld).bind fun _ _ => (hn.references f.closure hcs hlc).map _

/-- A value settles the matter if the nesting allows for one more level than the values in it. -/
theorem valueWith (v : Value) :
    Settled (nesting + 1) (v.datum (h.sharedDatum fuel)) Datum.bytes
      (Decoder.valueWith value snapshot) := by
  cases v with
  | none => exact .decoded (a := .none) (Decoder.constant_decodes (by decide) rfl)
  | bool b =>
    exact .plain (Decoder.variant_settles ((Decoder.bool_byte b).settles.map _))
  | int i =>
    exact .plain (Decoder.variant_settles ((Decoder.integer_settles _).map _))
  | float x =>
    exact .plain (Decoder.variant_settles ((Decoder.float_littleEndian x).settles.map _))
  | str i s =>
    refine .plain ?_
    rw [Datum.bytes_variant, Datum.bytes]
    refine Decoder.variant_settles ((Decoder.text_settles s).last fun _ _ => ?_)
    exact Decoder.newIdentity_settles.map _
  | tuple i vs =>
    intro m b met he hl
    rw [Value.datum, Value.data_eq_mapM] at he
    obtain ⟨ds, m₁, hds, he⟩ := Encoder.run_bind he
    obtain ⟨rfl, -⟩ := Encoder.run_pure he
    rw [Datum.bytes_variant] at hl ⊢
    rw [List.length_append] at hl
    have hpos := Decoder.length_varint_pos 5
    have hld : (Datum.sequence ds).bytes.length ≤ nesting := by omega
    refine Decoder.variant_settles ((hn.values vs hds hld).last fun _ _ => ?_)
    exact Decoder.newIdentity_settles.map _
  | exceptionKind k =>
    exact .plain (Decoder.variant_settles ((Decoder.exceptionKind_decodes k).settles.map _))
  | exception e =>
    exact .plain (Decoder.variant_settles ((Decoder.exception_settles e).map _))
  | function i f => exact hn.function i f
  | builtin b =>
    exact .plain (Decoder.variant_settles ((Decoder.builtin_decodes b).settles.map _))
  | generator r =>
    refine .variant "Generator" (hn.reference r) (f := .generator) ?_
    rw [Decoder.reference_generator]
    rfl
  | iterator r =>
    refine .variant "Iterator" (hn.reference r) (f := .iterator) ?_
    rw [Decoder.reference_iterator]
    rfl
  | cell r =>
    refine .variant "Cell" (hn.reference r) (f := .cell) ?_
    rw [Decoder.reference_cell]
    rfl
  | code c =>
    exact .plain (Decoder.variant_settles ((Decoder.code_settles c.body).map _))
  | suspended u => exact .variant "Unroller" (hn.unwinding u) rfl

theorem recordedLocals (l : RecordedLocals) :
    Settled nesting (l.datum (h.sharedDatum fuel)) Datum.bytes (Decoder.recordedLocals value) := by
  cases l with
  | fast slots => exact .less (.variant "Fast" (hn.slots slots) rfl)
  | dict r =>
    refine .less (.variant "Dict" (hn.reference r) (f := .dict) ?_)
    rw [Decoder.reference_mapping]
    rfl
  | globals => exact .decoded (a := .globals) (Decoder.constant_decodes (by decide) rfl)

theorem chain (fuel : Nat) (callers : List FrameRecord) :
    Settled nesting (FrameRecord.chainDatum (h.sharedDatum fuel) callers) Datum.bytes
      (Decoder.optional snapshot) := by
  cases callers with
  | nil => exact .decoded (a := none) Decoder.optional_absent
  | cons f callers =>
    exact Settled.optional (o := some (⟨f, callers⟩ : Snapshot)) fun s _ => hn.snapshot fuel s

/-- A record settles the matter if the nesting allows for one more level than the values in it. -/
theorem snapshotWith (s : Snapshot) :
    Settled (nesting + 1) (s.datumWith (h.sharedDatum fuel)) Datum.bytes
      (Decoder.snapshotWith value snapshot) := by
  obtain ⟨f, callers⟩ := s
  intro m b met he hl
  obtain ⟨back, m₀, hback, he⟩ := Encoder.run_bind he
  obtain ⟨builtins, m₁, hbuiltins, he⟩ := Encoder.run_bind he
  obtain ⟨stack, m₂, hstack, he⟩ := Encoder.run_bind he
  obtain ⟨globals, m₃, hglobals, he⟩ := Encoder.run_bind he
  obtain ⟨locals, m₄, hlocals, he⟩ := Encoder.run_bind he
  obtain ⟨cells, m₅, hcells, he⟩ := Encoder.run_bind he
  obtain ⟨rfl, -⟩ := Encoder.run_pure he
  simp only [Datum.bytes_record, Datum.bytesOfFields, List.append_nil, List.length_append] at hl ⊢
  have hpos : 0 < (Datum.natural f.version).bytes.length := Decoder.length_varint_pos f.version
  have hlc : (Datum.sequence cells).bytes.length ≤ nesting := by omega
  refine (Decoder.word32_settles f.version).bind fun _ _ => ?_
  refine (Decoder.code_settles f.code.body).bind fun _ _ => ?_
  refine (hn.chain fuel callers hback (by omega)).bind fun _ _ => ?_
  rw [← Decoder.reference_mapping value snapshot, ← Decoder.reference_cell value snapshot]
  refine (hn.reference f.builtins hbuiltins (by omega)).bind fun _ _ => ?_
  refine (hn.slots f.stack hstack (by omega)).bind fun _ _ => ?_
  refine (Decoder.forms_settle fun b _ => Decoder.block_settles b).bind fun _ _ => ?_
  refine (Decoder.optional_settles fun d hd => ?_).bind fun _ _ => ?_
  · obtain ⟨e, -, rfl⟩ := Option.map_eq_some_iff.1 hd
    exact Decoder.raised_settles e
  refine (hn.reference f.globals hglobals (by omega)).bind fun _ _ => ?_
  refine (Decoder.integer_settles f.lastOffset).bind fun _ _ => ?_
  refine (Decoder.bool_byte f.finished).settles.bind fun _ _ => ?_
  refine (Decoder.word32_settles f.line).bind fun _ _ => ?_
  refine (hn.recordedLocals f.locals hlocals (by omega)).bind fun _ _ => ?_
  refine (Decoder.integer_settles f.lower).bind fun _ _ => ?_
  refine (Decoder.integer_settles f.upper).bind fun _ _ => ?_
  refine (Decoder.integer_settles f.previous).bind fun _ _ => ?_
  exact (hn.references f.cells hcells hlc).map _

end Settling

/-- Whatever is written settles the matter for the readers of every nesting that is not exceeded. -/
theorem settling_nested (h : Heap) (nesting : Nat) :
    Settling h nesting (Decoder.nested nesting).1 (Decoder.nested nesting).2 := by
  induction nesting with
  | zero =>
    constructor
    · intro fuel v m b met he hl
      have hpos := length_value_pos (h.sharedDatum fuel) v m
      rw [he] at hpos
      exact absurd (Nat.lt_of_lt_of_le hpos hl) (Nat.lt_irrefl 0)
    · intro fuel s m b met he hl
      have hpos := length_snapshot_pos (h.sharedDatum fuel) s m
      rw [he] at hpos
      exact absurd (Nat.lt_of_lt_of_le hpos hl) (Nat.lt_irrefl 0)
  | succ nesting ih => exact ⟨fun _ v => ih.valueWith v, fun _ s => ih.snapshotWith s⟩

theorem dump_settles (h : Heap) (s : Snapshot) : Settles Decoder.snapshot (h.dump s) Any := by
  refine .get fun r hr => ?_
  have hl : (h.dump s).length ≤ r.input.length + 1 := Nat.le_succ_of_le hr.length_le
  exact (settling_nested h _).snapshot _ s rfl hl

/-- **No proper beginning of a snapshot's binary form can be read, and bytes after it change
nothing.**  This is so of every snapshot, whatever it refers to, and in every heap into which it is
read. -/
theorem Heap.load_dump_prefix (h : Heap) (s : Snapshot) (g : Heap) :
    (∀ cut, cut <+: h.dump s → cut ≠ h.dump s → ∃ e, g.load cut = (.error (.codec e), g)) ∧
      ∀ extra, g.load (h.dump s ++ extra) = g.load (h.dump s) := by
  have hx := Decoder.snapshot_deepens.extends
  have hs := dump_settles h s { input := [], heap := g } []
  rw [List.append_nil] at hs
  constructor
  · rintro cut ⟨missing, he⟩ hc
    cases hr : Decoder.snapshot.run { input := cut, heap := g } with
    | error e r =>
      refine ⟨e, ?_⟩
      unfold Heap.load
      rw [hr]
    | ok t r =>
      -- What is missing would be left over from the whole form, which is read to its end.
      have hw := hx.ok hr missing
      simp only [Reader.followedBy, he] at hw
      rcases hs with ⟨t', r', hd, -⟩ | ⟨e, r', hd, -⟩
      · rw [hd] at hw
        injection hw with _ hw
        have hm : [] = r.input ++ missing := congrArg Reader.input hw
        rw [(List.append_eq_nil_iff.1 hm.symm).2, List.append_nil] at he
        exact absurd he hc
      · rw [hd] at hw
        cases hw
  · intro extra
    unfold Heap.load
    rcases hs with ⟨t, r, hd, -⟩ | ⟨e, r, hd, he⟩
    · have hw := hx.ok hd extra
      simp only [Reader.followedBy] at hw
      rw [hd, hw]
    · obtain ⟨r', hw⟩ := hx.error hd he extra
      simp only [Reader.followedBy] at hw
      rw [hd, hw]

theorem Heap.load_knot_prefix :
    (∃ e, Heap.initial.load (Heap.knot.dump ⟨knotFrame.capture, []⟩).dropLast =
        (.error (.codec e), Heap.initial)) ∧
      Heap.initial.load (Heap.knot.dump ⟨knotFrame.capture, []⟩ ++ [0]) =
        Heap.initial.load (Heap.knot.dump ⟨knotFrame.capture, []⟩) := by
  have hp := length_snapshot_pos Heap.knot.refDatum ⟨knotFrame.capture, []⟩ []
  obtain ⟨hcut, hextra⟩ := Heap.load_dump_prefix Heap.knot ⟨knotFrame.capture, []⟩ Heap.initial
  refine ⟨hcut _ (List.dropLast_prefix _) fun he => ?_, hextra [0]⟩
  have hl := congrArg List.length he
  rw [List.length_dropLast] at hl
  change 0 < (Heap.knot.dump ⟨knotFrame.capture, []⟩).length at hp
  omega

end Resumable
