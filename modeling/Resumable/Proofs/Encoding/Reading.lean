import Mathlib
import Resumable.Snapshot.Decode

/-!
# Reading back what was written

A binary form is read by one who knows what is written, and nothing in it tells where it ends.  So
what a decoder does with a form is stated for every continuation of the input:

* `Decoder.Reads` : a decoder reads exactly the given bytes, whatever follows them, and what it
  returns and leaves satisfies a postcondition;
* `Decoder.Decodes` : the same for a decoder that only returns a given value and changes nothing
  else;
* `Decoder.word32_varint` and its kin : numbers, texts, options and sequences are read back from the
  form in which `Datum.bytes` writes them.
-/

namespace Resumable

/-- Lengths and positions fit an unsigned sixty-four bit word. -/
abbrev Long (n : Nat) : Prop := n < 2 ^ 64

/-- The later reader only gave out more identities. -/
def Reader.Later (r r' : Reader) : Prop :=
  ∃ i, r' = { r with heap := { r.heap with nextIdentity := i } }

theorem Reader.Later.refl (r : Reader) : r.Later r := ⟨r.heap.nextIdentity, rfl⟩

theorem Reader.Later.trans {r r' r'' : Reader} (h : r.Later r') (h' : r'.Later r'') :
    r.Later r'' := by
  obtain ⟨i, rfl⟩ := h
  obtain ⟨j, rfl⟩ := h'
  exact ⟨j, rfl⟩

namespace Datum

theorem bytes_record (fields : List (String × Datum)) :
    (record fields).bytes = bytesOfFields fields := by
  rw [bytes]

theorem bytes_variant (index : Nat) (name : String) (d : Datum) :
    (variant index name d).bytes = Binary.varint index ++ d.bytes := by
  rw [bytes]

theorem bytes_present (d : Datum) : (present d).bytes = [1] ++ d.bytes := by
  rw [bytes]
  rfl

end Datum

namespace Decoder

variable {α β : Type}

/-- With the memory of `r`, the decoder reads exactly `bytes`, whatever follows them. -/
def Reads (d : Decoder α) (r : Reader) (bytes : List UInt8) (post : α → Reader → Prop) : Prop :=
  ∀ rest, ∃ a r', d.run { r with input := bytes ++ rest } = .ok a { r' with input := rest } ∧
    post a r'

/-- The decoder reads `a` from `bytes` and changes nothing else. -/
def Decodes (d : Decoder α) (bytes : List UInt8) (a : α) : Prop :=
  ∀ r, Reads d r bytes fun a' r' => a' = a ∧ r' = r

/-! ### Sequencing -/

theorem run_bind_ok {d : Decoder α} {k : α → Decoder β} {r r' : Reader} {a : α}
    (h : d.run r = .ok a r') : (d >>= k).run r = (k a).run r' := by
  change EStateM.bind d k r = _
  unfold EStateM.bind
  change d r = _ at h
  rw [h]
  rfl

theorem Reads.pure {r : Reader} {a : α} {post : α → Reader → Prop} (h : post a r) :
    Reads (pure a) r [] post :=
  fun _ => ⟨a, r, rfl, h⟩

theorem Reads.mono {d : Decoder α} {r : Reader} {bytes : List UInt8}
    {post post' : α → Reader → Prop} (h : Reads d r bytes post)
    (hp : ∀ a r', post a r' → post' a r') : Reads d r bytes post' := by
  intro rest
  obtain ⟨a, r', hd, hq⟩ := h rest
  exact ⟨a, r', hd, hp a r' hq⟩

theorem Reads.bind {d : Decoder α} {k : α → Decoder β} {r : Reader} {b₁ b₂ : List UInt8}
    {post : α → Reader → Prop} {post' : β → Reader → Prop} (h : Reads d r b₁ post)
    (hk : ∀ a r', post a r' → Reads (k a) r' b₂ post') : Reads (d >>= k) r (b₁ ++ b₂) post' := by
  intro rest
  obtain ⟨a, r₁, hd, hq⟩ := h (b₂ ++ rest)
  obtain ⟨b, r₂, he, hq'⟩ := hk a r₁ hq rest
  refine ⟨b, r₂, ?_, hq'⟩
  rw [List.append_assoc, run_bind_ok hd]
  exact he

/-- A first part that reads nothing. -/
theorem Reads.silent {d : Decoder α} {k : α → Decoder β} {r : Reader} {bytes : List UInt8}
    {Q : α → Reader → Prop} {Q' : β → Reader → Prop} (h : Reads d r [] Q)
    (hk : ∀ a r', Q a r' → Reads (k a) r' bytes Q') : Reads (d >>= k) r bytes Q' := by
  rw [← List.nil_append bytes]
  exact h.bind hk

/-- Nothing is left to read after the last part. -/
theorem Reads.last {d : Decoder α} {k : α → Decoder β} {r : Reader} {bytes : List UInt8}
    {Q : α → Reader → Prop} {Q' : β → Reader → Prop} (h : Reads d r bytes Q)
    (hk : ∀ a r', Q a r' → Reads (k a) r' [] Q') : Reads (d >>= k) r bytes Q' := by
  rw [← List.append_nil bytes]
  exact h.bind hk

theorem Decodes.bind {d : Decoder α} {k : α → Decoder β} {r : Reader} {b₁ b₂ : List UInt8} {a : α}
    {post : β → Reader → Prop} (h : Decodes d b₁ a) (hk : Reads (k a) r b₂ post) :
    Reads (d >>= k) r (b₁ ++ b₂) post := by
  refine (h r).bind ?_
  rintro _ _ ⟨rfl, rfl⟩
  exact hk

theorem Decodes.pure (a : α) : Decodes (pure a) [] a :=
  fun _ => .pure ⟨rfl, rfl⟩

theorem Decodes.andThen {d : Decoder α} {k : α → Decoder β} {b₁ b₂ : List UInt8} {a : α} {b : β}
    (h : Decodes d b₁ a) (hk : Decodes (k a) b₂ b) : Decodes (d >>= k) (b₁ ++ b₂) b :=
  fun r => h.bind (hk r)

theorem Decodes.last {d : Decoder α} {k : α → Decoder β} {bytes : List UInt8} {a : α} {b : β}
    (h : Decodes d bytes a) (hk : k a = Pure.pure b) : Decodes (d >>= k) bytes b := by
  rw [← List.append_nil bytes]
  refine h.andThen ?_
  rw [hk]
  exact Decodes.pure b

/-- A decoder may look at what it has not read yet. -/
theorem Reads.get {k : Reader → Decoder α} {r : Reader} {bytes : List UInt8}
    {post : α → Reader → Prop}
    (h : ∀ rest, Reads (k { r with input := bytes ++ rest }) r bytes post) :
    Reads (MonadState.get >>= k) r bytes post := by
  intro rest
  obtain ⟨a, r', hk, hp⟩ := h rest rest
  exact ⟨a, r', hk, hp⟩

/-! ### Numbers -/

theorem byte_decodes (b : UInt8) : Decodes byte [b] b :=
  fun r _ => ⟨b, r, rfl, rfl, rfl⟩

theorem bytes_decodes {bs : List UInt8} {n : Nat} (h : bs.length = n) :
    Decodes (bytes n) bs bs := by
  intro r rest
  refine ⟨bs, r, ?_, rfl, rfl⟩
  subst h
  simp only [bytes, EStateM.run, bind, EStateM.bind, get, getThe, MonadStateOf.get, EStateM.get,
    modify, modifyGet, MonadStateOf.modifyGet, Pure.pure, List.take_left, List.drop_left]
  rw [if_neg (Nat.lt_irrefl _)]
  rfl

/-- The last digit of a number, if it stays within its bound. -/
theorem varintFrom_digit {last digits n : Nat} (scale sum : Nat) (hn : n < 128)
    (hl : digits = 0 → n ≤ last) :
    Decodes (varintFrom last (digits + 1) scale sum) (Binary.varint n) (sum + n * scale) := by
  have hb : (UInt8.ofNat n).toNat = n := by simp; omega
  rw [Binary.varint, if_pos hn, varintFrom]
  refine (byte_decodes _).last ?_
  simp only [hb, Nat.mod_eq_of_lt hn]
  rw [if_neg (by omega), if_neg (by omega)]

/-- A number is read back from its digits.  The induction is on the digits still allowed, each of
which takes one digit off the number. -/
theorem varintFrom_decodes (last : Nat) (hl : last < 128) (digits scale sum n : Nat)
    (h : n < 128 ^ digits * (last + 1)) :
    Decodes (varintFrom last (digits + 1) scale sum) (Binary.varint n) (sum + n * scale) := by
  induction digits generalizing scale sum n with
  | zero => exact varintFrom_digit scale sum (by omega) (by omega)
  | succ digits ih =>
    by_cases hn : n < 128
    · exact varintFrom_digit scale sum hn (by omega)
    · have hb : (UInt8.ofNat (n % 128 + 128)).toNat = n % 128 + 128 := by simp; omega
      have hm : (n % 128 + 128) % 128 = n % 128 := by omega
      have hq : n / 128 < 128 ^ digits * (last + 1) := by
        rw [Nat.div_lt_iff_lt_mul (by decide)]
        calc n < 128 ^ (digits + 1) * (last + 1) := h
          _ = 128 ^ digits * (last + 1) * 128 := by ring
      have hs : sum + n % 128 * scale + n / 128 * (scale * 128) = sum + n * scale := by
        calc sum + n % 128 * scale + n / 128 * (scale * 128)
            = sum + (128 * (n / 128) + n % 128) * scale := by ring
          _ = sum + n * scale := by rw [Nat.div_add_mod]
      rw [Binary.varint, if_neg hn, varintFrom, ← List.singleton_append]
      refine (byte_decodes _).andThen ?_
      simp only [hb, hm]
      rw [if_pos (by omega), ← hs]
      exact ih _ _ _ hq

theorem word16_varint {n : Nat} (h : n < 2 ^ 16) : Decodes word16 (Binary.varint n) n := by
  have hd := varintFrom_decodes 3 (by decide) 2 1 0 n (by omega)
  rwa [Nat.zero_add, Nat.mul_one] at hd

theorem word32_varint {n : Nat} (h : n < 2 ^ 32) : Decodes word32 (Binary.varint n) n := by
  have hd := varintFrom_decodes 15 (by decide) 4 1 0 n (by omega)
  rwa [Nat.zero_add, Nat.mul_one] at hd

theorem word64_varint {n : Nat} (h : Long n) : Decodes word64 (Binary.varint n) n := by
  have hd := varintFrom_decodes 1 (by decide) 9 1 0 n (by omega)
  rwa [Nat.zero_add, Nat.mul_one] at hd

theorem length_varint_pos (n : Nat) : 0 < (Binary.varint n).length := by
  rw [Binary.varint]
  split <;> simp

theorem integer_zigzag {i : Int} (h : FitsWord i) :
    Decodes integer (Binary.varint (Binary.zigzag i)) i := by
  have hz : Long (Binary.zigzag i) := by
    obtain ⟨hl, hu⟩ := h
    unfold Long Binary.zigzag
    split <;> omega
  refine (word64_varint hz).last ?_
  rw [Binary.unzigzag_zigzag]

theorem length_littleEndian (count n : Nat) : (Binary.littleEndian count n).length = count := by
  induction count generalizing n with
  | zero => rfl
  | succ count ih => rw [Binary.littleEndian, List.length_cons, ih]

theorem ofLittleEndian_littleEndian (count n : Nat) (h : n < 256 ^ count) :
    ofLittleEndian (Binary.littleEndian count n) = n := by
  induction count generalizing n with
  | zero =>
    have hn : n = 0 := by simpa using h
    rw [hn]
    rfl
  | succ count ih =>
    have hq : n / 256 < 256 ^ count := by
      rw [Nat.div_lt_iff_lt_mul (by decide), ← Nat.pow_succ]
      exact h
    have hb : (UInt8.ofNat (n % 256)).toNat = n % 256 := by simp
    rw [Binary.littleEndian, ofLittleEndian, ih _ hq, hb, Nat.mod_add_div]

theorem float_littleEndian (x : Binary64) :
    Decodes float (Binary.littleEndian 8 x.bits.toNat) x := by
  refine (bytes_decodes (length_littleEndian 8 _)).last ?_
  rw [ofLittleEndian_littleEndian 8 _ x.bits.toNat_lt, UInt64.ofNat_toNat]

theorem bool_byte (b : Bool) : Decodes bool [if b then 1 else 0] b := by
  refine (byte_decodes _).last ?_
  cases b <;> rfl

/-! ### Texts, options and sequences -/

theorem toList_loop (bs : ByteArray) (i : Nat) (read : List UInt8) :
    ByteArray.toList.loop bs i read = read.reverse ++ bs.data.toList.drop i := by
  fun_induction ByteArray.toList.loop bs i read with
  | case1 i read h ih =>
    have hi : i < bs.data.toList.length := by simpa using h
    have hg : bs.get! i = bs.data.toList[i] := by
      rw [Array.getElem_toList]
      exact getElem!_pos bs.data i h
    rw [ih, hg, List.drop_eq_getElem_cons hi, List.reverse_cons, List.append_assoc]
    rfl
  | case2 i read h =>
    have hi : bs.data.toList.length ≤ i := by simpa using h
    rw [List.drop_eq_nil_of_le hi, List.append_nil]

theorem toList_eq (bs : ByteArray) : bs.toList = bs.data.toList :=
  toList_loop bs 0 []

theorem length_toUTF8 (s : String) : s.toUTF8.toList.length = s.utf8ByteSize := by
  rw [toList_eq, Array.length_toList]
  rfl

theorem fromUTF8?_toUTF8 (s : String) : String.fromUTF8? ⟨s.toUTF8.toList.toArray⟩ = some s := by
  rw [toList_eq, Array.toArray_toList]
  exact dif_pos s.isValidUTF8

theorem text_decodes {s : String} (h : Long s.utf8ByteSize) : Decodes text (Binary.text s) s := by
  rw [← length_toUTF8] at h
  refine (word64_varint h).andThen ?_
  refine (bytes_decodes rfl).last ?_
  rw [fromUTF8?_toUTF8]

theorem isPresent_byte (b : Bool) : Decodes isPresent [if b then 1 else 0] b := by
  refine (byte_decodes _).last ?_
  cases b <;> rfl

theorem optional_absent {item : Decoder α} : Decodes (optional item) Datum.absent.bytes none :=
  (isPresent_byte false).last rfl

theorem optional_present {item : Decoder α} {r : Reader} {bytes : List UInt8}
    {post : α → Reader → Prop} (h : Reads item r bytes post) :
    Reads (optional item) r (1 :: bytes) fun o r' => ∃ a, o = some a ∧ post a r' := by
  refine (isPresent_byte true).bind ?_
  exact h.last fun a r' ha => .pure ⟨a, rfl, ha⟩

theorem optional_decodes {item : Decoder α} {form : α → Datum} {o : Option α}
    (h : ∀ a, o = some a → Decodes item (form a).bytes a) :
    Decodes (optional item) (Datum.optional (o.map form)).bytes o := by
  cases o with
  | none => exact optional_absent
  | some a =>
    intro r
    refine (optional_present (h a rfl r)).mono ?_
    rintro _ _ ⟨_, rfl, rfl, rfl⟩
    exact ⟨rfl, rfl⟩

theorem length_le_of_mem {d : Datum} {ds : List Datum} (h : d ∈ ds) :
    d.bytes.length ≤ (Datum.bytesOfItems ds).length := by
  induction ds with
  | nil => cases h
  | cons d' ds ih =>
    rw [Datum.bytesOfItems, List.length_append]
    rcases List.mem_cons.1 h with rfl | h
    · exact Nat.le_add_right _ _
    · exact (ih h).trans (Nat.le_add_left _ _)

theorem bytesOfItems_map (form : α → Datum) (as : List α) :
    Datum.bytesOfItems (as.map form) = as.flatMap fun a => (form a).bytes := by
  induction as with
  | nil => rw [List.map_nil, Datum.bytesOfItems, List.flatMap_nil]
  | cons a as ih => rw [List.map_cons, Datum.bytesOfItems, ih, List.flatMap_cons]

/-- Items are read back one after the other, if each is read back wherever an invariant holds and
keeps it. -/
theorem items_reads {item : Decoder α} {I : Reader → Prop} {R : β → α → Prop}
    {form : β → List UInt8} {bs : List β}
    (h : ∀ b ∈ bs, ∀ r, I r → Reads item r (form b) fun a r' => R b a ∧ I r') (r : Reader)
    (hr : I r) : Reads (items item bs.length) r (bs.flatMap form) fun as r' =>
      List.Forall₂ R bs as ∧ I r' := by
  induction bs generalizing r with
  | nil => exact .pure ⟨.nil, hr⟩
  | cons b bs ih =>
    refine (h b List.mem_cons_self r hr).bind ?_
    rintro a r₁ ⟨ha, hr₁⟩
    refine (ih (fun b hb => h b (List.mem_cons_of_mem _ hb)) r₁ hr₁).last ?_
    rintro as r₂ ⟨has, hr₂⟩
    exact .pure ⟨.cons ha has, hr₂⟩

theorem sequence_reads {item : Decoder α} {I : Reader → Prop} {R : β → α → Prop}
    {form : β → Datum} {bs : List β} (hl : Long bs.length)
    (h : ∀ b ∈ bs, ∀ r, I r → Reads item r (form b).bytes fun a r' => R b a ∧ I r')
    (r : Reader) (hr : I r) :
    Reads (sequence item) r (Datum.sequence (bs.map form)).bytes fun as r' =>
      List.Forall₂ R bs as ∧ I r' := by
  rw [Datum.bytes, bytesOfItems_map, List.length_map]
  exact (word64_varint hl).bind (items_reads h r hr)

theorem sequence_decodes {item : Decoder α} {form : α → Datum} {as : List α}
    (hl : Long as.length) (h : ∀ a ∈ as, Decodes item (form a).bytes a) :
    Decodes (sequence item) (Datum.sequence (as.map form)).bytes as := by
  intro r
  refine (sequence_reads (I := (· = r)) (R := (· = ·)) hl ?_ r rfl).mono ?_
  · rintro a ha _ rfl
    exact (h a ha _).mono fun a' r' ⟨ha', hr'⟩ => ⟨ha'.symm, hr'⟩
  · rintro as' r' ⟨has, hr'⟩
    exact ⟨(List.forall₂_eq_eq_eq ▸ has : as = as').symm, hr'⟩

end Decoder

end Resumable
