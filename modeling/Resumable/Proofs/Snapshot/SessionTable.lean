import Resumable.Proofs.Snapshot.Extension

/-!
# The table of a session

A reader keeps a table of the numbers met and the objects made for them.  Reading only adds to it.
Whatever is read, and whether or not it is read to its end, an object made for a number holds one of
two things afterwards: what the bytes carried for its number (`Carried`), or what every object of
its kind holds before anything is known about it.  The latter is left when reading stopped.

* `Reader.Grows` : what reading does to the table and to the heap;
* `Decoder.Deepens.grown` : whatever is read, the reader grows.
-/

namespace Resumable

/-- What an object of a kind holds when it is made for a number. -/
def Contents.placeholder : ObjectKind → Contents
  | .mapping => .mapping {}
  | .cell => .cell none
  | .iterator => .iterator Iteration.placeholder
  | .generator => .generator Generator.placeholder

namespace Heap

theorem has_newObject_iff {k : ObjectKind} {h : Heap} {b : SharedRef} :
    (Decoder.newObject k h).2.Has b ↔ h.Has b ∨ b = (Decoder.newObject k h).1 := by
  constructor
  · intro hb
    obtain ⟨k', i⟩ := b
    cases k <;> cases k' <;>
      simp [Decoder.newObject, Has, Ref.shared, count, newNamespace, newCell, newIterator,
        newGenerator] at hb ⊢ <;>
      omega
  · rintro (hb | rfl)
    · exact has_newObject hb
    · exact has_newObject_self k h

theorem contents_newObject_self (k : ObjectKind) (h : Heap) :
    (Decoder.newObject k h).2.contents (Decoder.newObject k h).1 = .placeholder k := by
  cases k with
  | mapping => exact congrArg Contents.mapping (Store.get_add_size _ _)
  | cell => exact congrArg Contents.cell (Store.get_add_size _ _)
  | iterator => exact congrArg Contents.iterator (Store.get_add_size _ _)
  | generator => exact congrArg Contents.generator (Store.get_add_size _ _)

end Heap

/-- The bytes carry contents for a number: the number stands in them, marked as having contents, and
what follows is read as these contents by a reader that has just made the object for the number.
What was known when the contents had been read is still in the table. -/
inductive Carried (table : List (Nat × SharedRef)) (bytes : List UInt8) (n : Nat) (b : SharedRef)
    (c : Contents) : Prop
  | intro {r r₁ r₂ : Reader} {rest : List UInt8} {depth : Nat} (here : r.input <:+ bytes)
    (number : Decoder.word32.run r = .ok n r₁) (marked : r₁.input = 1 :: rest)
    (contents : (Decoder.contents (Decoder.nested depth).1 (Decoder.nested depth).2 b.kind).run
      { input := rest, heap := (Decoder.newObject b.kind r₁.heap).2,
        known := (n, b) :: r₁.known } = .ok c r₂)
    (still : r₂.known <:+ table) : Carried table bytes n b c

theorem Carried.mono {table table' : List (Nat × SharedRef)} {bytes bytes' : List UInt8} {n : Nat}
    {b : SharedRef} {c : Contents} (h : Carried table bytes n b c) (ht : table <:+ table')
    (hb : bytes <:+ bytes') : Carried table' bytes' n b c := by
  obtain ⟨here, number, marked, contents, still⟩ := h
  exact ⟨here.trans hb, number, marked, contents, still.trans ht⟩

namespace Reader

/-- A number has one object and an object one number, and all objects known exist. -/
structure Sound (r : Reader) : Prop where
  held : ∀ e ∈ r.known, r.heap.Has e.2
  numbers : (r.known.map Prod.fst).Nodup
  objects : (r.known.map Prod.snd).Nodup

/-- Reading on, possibly without success, added entries to the table and made the objects of these,
and left all else as it was.  What stands in the bytes for a new object was put into it, unless it
is `opened`. -/
structure Grows (opened : SharedRef → Prop) (new : List (Nat × SharedRef)) (r r' : Reader) :
    Prop where
  input : r'.input <:+ r.input
  known : r'.known = new ++ r.known
  has : ∀ b, r'.heap.Has b ↔ r.heap.Has b ∨ b ∈ new.map Prod.snd
  kept : ∀ b, r.heap.Has b → r'.heap.contents b = r.heap.contents b
  fresh : ∀ b ∈ new.map Prod.snd, ¬r.heap.Has b
  sound : r.Sound → r'.Sound
  filled : ∀ e ∈ new, Carried r'.known r.input e.1 e.2 (r'.heap.contents e.2) ∨
    opened e.2 ∧ r'.heap.contents e.2 = .placeholder e.2.kind

namespace Grows

variable {opened opened' : SharedRef → Prop} {new new' : List (Nat × SharedRef)} {r r₁ r₂ : Reader}

/-- Nothing but what is not shared was read. -/
theorem silent (hi : r₁.input <:+ r.input) (hk : r₁.known = r.known) {i : Identity}
    (hh : r₁.heap = { r.heap with nextIdentity := i }) : Grows opened [] r r₁ where
  input := hi
  known := hk
  has := by
    intro b
    rw [hh]
    exact ⟨.inl, fun hb => hb.resolve_right nofun⟩
  kept := by
    intro b _
    rw [hh]
    rfl
  fresh := nofun
  sound := by
    rintro ⟨held, numbers, objects⟩
    refine ⟨?_, hk ▸ numbers, hk ▸ objects⟩
    rw [hk, hh]
    exact held
  filled := nofun

theorem refl (r : Reader) : Grows opened [] r r :=
  silent (List.suffix_refl _) rfl rfl

theorem trans (h : Grows opened new r r₁) (h' : Grows opened new' r₁ r₂) :
    Grows opened (new' ++ new) r r₂ where
  input := h'.input.trans h.input
  known := by rw [h'.known, h.known, List.append_assoc]
  has := by
    intro b
    rw [h'.has, h.has, List.map_append, List.mem_append]
    tauto
  kept := by
    intro b hb
    rw [h'.kept b ((h.has b).2 (.inl hb)), h.kept b hb]
  fresh := by
    intro b hb
    rw [List.map_append, List.mem_append] at hb
    rcases hb with hb | hb
    · exact fun hr => h'.fresh b hb ((h.has b).2 (.inl hr))
    · exact h.fresh b hb
  sound := fun hs => h'.sound (h.sound hs)
  filled := by
    intro e he
    rcases List.mem_append.1 he with he | he
    · refine (h'.filled e he).imp_left fun hc => hc.mono (List.suffix_refl _) h.input
    · have hb : r₁.heap.Has e.2 := (h.has e.2).2 (.inr (List.mem_map_of_mem he))
      rw [h'.kept e.2 hb]
      refine (h.filled e he).imp_left fun hc => hc.mono ?_ (List.suffix_refl _)
      rw [h'.known]
      exact List.suffix_append _ _

theorem opens (h : Grows opened new r r₁) (ho : ∀ b, opened b → opened' b) :
    Grows opened' new r r₁ :=
  { h with filled := fun e he => (h.filled e he).imp_right (.imp_left (ho e.2)) }

/-- An object is made for a number that is new. -/
theorem register {n : Nat} {b : SharedRef} {k : ObjectKind} (hl : r.known.lookup n = none)
    (hb : (Decoder.newObject k r.heap).1 = b) (ho : opened b) :
    Grows opened [(n, b)] r
      { r with heap := (Decoder.newObject k r.heap).2, known := (n, b) :: r.known } where
  input := List.suffix_refl _
  known := rfl
  has := by
    intro x
    rw [Heap.has_newObject_iff, hb, List.map_singleton, List.mem_singleton]
  kept := fun _ hx => Heap.contents_newObject hx
  fresh := by
    intro x hx
    rw [List.map_singleton, List.mem_singleton] at hx
    rw [hx, ← hb]
    exact Heap.not_has_newObject k r.heap
  sound := by
    rintro ⟨held, numbers, objects⟩
    refine ⟨?_, ?_, ?_⟩
    · intro e he
      rw [Heap.has_newObject_iff, hb]
      rcases List.mem_cons.1 he with rfl | he
      · exact .inr rfl
      · exact .inl (held e he)
    · refine List.nodup_cons.2 ⟨fun hn => ?_, numbers⟩
      obtain ⟨e, he, hen⟩ := List.mem_map.1 hn
      exact absurd (List.lookup_eq_none_iff.1 hl e he) (by simp [hen])
    · refine List.nodup_cons.2 ⟨fun hn => ?_, objects⟩
      obtain ⟨e, he, hen⟩ := List.mem_map.1 hn
      refine Heap.not_has_newObject k r.heap ?_
      rw [hb, ← show e.2 = b from hen]
      exact held e he
  filled := by
    intro e he
    rw [List.mem_singleton.1 he]
    refine .inr ⟨ho, ?_⟩
    rw [← hb, Heap.contents_newObject_self, Heap.kind_newObject]

/-- What the bytes carry for an object is put into it. -/
theorem fill {n : Nat} {b : SharedRef} {c : Contents} (h : Grows (· = b) new r r₁)
    (hb : b ∈ new.map Prod.snd) (hu : ∀ e ∈ new, e.2 = b → e.1 = n) (hk : c.kind = b.kind)
    (hc : Carried r₁.known r.input n b c) :
    Grows opened new r { r₁ with heap := r₁.heap.put b.index c } := by
  have hbe : b = ⟨c.kind, b.index⟩ := by rw [hk]
  have hself : (r₁.heap.put b.index c).contents b = c := by
    have hs := Heap.contents_put_self (c := c) (hbe ▸ (h.has b).2 (.inr hb))
    exact hbe ▸ hs
  have hne : ∀ x, x ≠ b → (r₁.heap.put b.index c).contents x = r₁.heap.contents x :=
    fun x hx => Heap.contents_put_ne (hbe ▸ hx)
  refine ⟨h.input, h.known, fun x => ?_, ?_, h.fresh, fun hs => ?_, ?_⟩
  · rw [Heap.has_put, h.has]
  · intro x hx
    rw [hne x fun he => h.fresh b hb (he ▸ hx), h.kept x hx]
  · obtain ⟨held, numbers, objects⟩ := h.sound hs
    exact ⟨fun e he => Heap.has_put.2 (held e he), numbers, objects⟩
  · intro e he
    refine .inl ?_
    by_cases heb : e.2 = b
    · rw [hu e he heb, heb, hself]
      exact hc
    · rw [hne e.2 heb]
      exact (h.filled e he).resolve_right fun ho => heb ho.1

end Grows

/-- What reading does to the table and to the heap: what it leaves without contents, it leaves only
when it fails. -/
def Grew {α : Type} (r : Reader) : EStateM.Result CodecError Reader α → Prop
  | .ok _ r' => ∃ new, r.Grows (fun _ => False) new r'
  | .error _ r' => ∃ new, r.Grows (fun _ => True) new r'

theorem Grows.grew {α : Type} {new : List (Nat × SharedRef)} {r r₁ : Reader}
    {result : EStateM.Result CodecError Reader α} (h : r.Grows (fun _ => False) new r₁)
    (h' : r₁.Grew result) : r.Grew result := by
  cases result with
  | ok a r' =>
    obtain ⟨new', hn⟩ := h'
    exact ⟨_, h.trans hn⟩
  | error e r' =>
    obtain ⟨new', hn⟩ := h'
    exact ⟨_, (h.opens nofun).trans hn⟩

end Reader

namespace Decoder

variable {α β : Type}

/-- Whatever is left to read and known already. -/
def Grown (d : Decoder α) : Prop := ∀ r : Reader, r.Grew (d.run r)

namespace Grown

theorem pure (a : α) : Grown (pure a) := fun r => ⟨[], .refl r⟩

theorem throw (e : CodecError) : Grown (throw e : Decoder α) := fun r => ⟨[], .refl r⟩

theorem bind {d : Decoder α} {k : α → Decoder β} (h : Grown d) (hk : ∀ a, Grown (k a)) :
    Grown (d >>= k) := by
  intro r
  have hr := h r
  cases hd : d.run r with
  | ok a r₁ =>
    rw [hd] at hr
    obtain ⟨new, hn⟩ := hr
    rw [run_bind_ok hd]
    exact hn.grew (hk a r₁)
  | error e r₁ =>
    rw [hd] at hr
    rw [run_bind_error hd]
    exact hr

theorem get {k : Reader → Decoder α} (h : ∀ r, Grown (k r)) : Grown (MonadState.get >>= k) :=
  fun r => h r r

theorem newIdentity : Grown newIdentity :=
  fun _ => ⟨[], .silent (List.suffix_refl _) rfl rfl⟩

theorem byte : Grown byte := by
  rintro ⟨_ | ⟨b, rest⟩, heap, known⟩
  · exact ⟨[], .refl _⟩
  · exact ⟨[], .silent (List.suffix_cons _ _) rfl rfl⟩

theorem bytes (count : Nat) : Grown (bytes count) := by
  intro r
  rw [Extends.run_bytes]
  split
  · exact ⟨[], .silent (List.drop_suffix _ _) rfl rfl⟩
  · exact ⟨[], .refl _⟩

theorem varintFrom (last digits scale sum : Nat) : Grown (varintFrom last digits scale sum) := by
  induction digits generalizing scale sum with
  | zero => exact throw _
  | succ digits ih =>
    refine byte.bind fun b => ?_
    dsimp only
    split
    · exact ih _ _
    · split
      · exact throw _
      · exact pure _

theorem word32 : Grown word32 := varintFrom _ _ _ _

theorem isPresent : Grown isPresent := by
  refine byte.bind fun b => ?_
  split
  · exact pure _
  · exact pure _
  · exact throw _

theorem run_isPresent {r r' : Reader} {p : Bool} (h : Decoder.isPresent.run r = .ok p r') :
    ∃ rest, r.input = (if p then 1 else 0) :: rest ∧ r' = { r with input := rest } := by
  obtain ⟨_ | ⟨b, rest⟩, heap, known⟩ := r
  · cases h
  · obtain ⟨a, s, hb, hs⟩ := run_bind_eq_ok h
    cases hb
    split at hs
    · rename_i hz
      have hb : b = 0 := UInt8.toNat_inj.1 hz
      cases hs
      exact ⟨rest, congrArg (· :: rest) hb, rfl⟩
    · rename_i ho
      have hb : b = 1 := UInt8.toNat_inj.1 ho
      cases hs
      exact ⟨rest, congrArg (· :: rest) hb, rfl⟩
    · cases hs

end Grown

/-- What is read for an object of a kind is of that kind. -/
theorem kind_of_contents {value : Decoder Value} {snapshot : Decoder Snapshot} {k : ObjectKind}
    {r r' : Reader} {c : Contents} (h : (contents value snapshot k).run r = .ok c r') :
    c.kind = k := by
  cases k with
  | mapping =>
    obtain ⟨_, _, -, h⟩ := run_bind_eq_ok h
    cases h
    rfl
  | cell =>
    obtain ⟨_, _, -, h⟩ := run_bind_eq_ok h
    cases h
    rfl
  | iterator =>
    obtain ⟨_, _, -, h⟩ := run_bind_eq_ok h
    cases h
    rfl
  | generator =>
    obtain ⟨_, _, -, h⟩ := run_bind_eq_ok h
    obtain ⟨_, _, -, h⟩ := run_bind_eq_ok h
    obtain ⟨_, _, -, h⟩ := run_bind_eq_ok h
    cases h
    rfl

/-- A number that is known names the object known, if it is of the kind. -/
theorem run_sharedWith_known {k : ObjectKind} {fill : Nat → Decoder Unit} {r r₁ : Reader} {n : Nat}
    {b : SharedRef} (hn : word32.run r = .ok n r₁) (hl : r₁.known.lookup n = some b) :
    (sharedWith k fill).run r = (isPresent >>= fun present =>
      if present then throw .unskippable
      else if b.kind = k then pure b.index else meaningless).run r₁ := by
  have hget : EStateM.run (MonadState.get : Decoder Reader) r₁ = .ok r₁ r₁ := rfl
  unfold sharedWith
  rw [run_bind_ok hn, run_bind_ok hget]
  dsimp only
  rw [hl]
  dsimp only
  congr 2

/-- For a number that is not known an object is made, even if there are no contents. -/
theorem run_sharedWith_new {k : ObjectKind} {fill : Nat → Decoder Unit} {r r₁ : Reader} {n : Nat}
    (hn : word32.run r = .ok n r₁) (hl : r₁.known.lookup n = none) :
    (sharedWith k fill).run r = (isPresent >>= fun present =>
      if present then fill (newObject k r₁.heap).1.index >>= fun _ =>
        pure (newObject k r₁.heap).1.index
      else meaningless).run { r₁ with
        heap := (newObject k r₁.heap).2, known := (n, (newObject k r₁.heap).1) :: r₁.known } := by
  have hget : EStateM.run (MonadState.get : Decoder Reader) r₁ = .ok r₁ r₁ := rfl
  unfold sharedWith
  rw [run_bind_ok hn, run_bind_ok hget]
  dsimp only
  rw [hl]
  rfl

namespace Grown

/-- The contents that follow are put into an object that was made for a number, if they can be
read. -/
theorem fill_new {depth : Nat} {k : ObjectKind} {r r₁ : Reader} {n : Nat} {b : SharedRef}
    {new : List (Nat × SharedRef)} (hc : Grown (contents (nested depth).1 (nested depth).2 k))
    (hk : b.kind = k) (h : r.Grows (· = b) new r₁) (hb : b ∈ new.map Prod.snd)
    (hu : ∀ e ∈ new, e.2 = b → e.1 = n)
    (hcarries : ∀ c r₂, (contents (nested depth).1 (nested depth).2 k).run r₁ = .ok c r₂ →
      Carried r₂.known r.input n b c) :
    r.Grew (((do
      let c ← contents (nested depth).1 (nested depth).2 k
      change (Heap.put b.index c)) >>= fun _ => (Pure.pure b.index : Decoder Nat)).run r₁) := by
  have hcon := hc r₁
  cases hcr : (contents (nested depth).1 (nested depth).2 k).run r₁ with
  | error e r₂ =>
    rw [hcr] at hcon
    obtain ⟨new₂, h₂⟩ := hcon
    rw [run_bind_error (run_bind_error hcr)]
    exact ⟨_, (h.opens fun _ _ => trivial).trans h₂⟩
  | ok c r₂ =>
    rw [hcr] at hcon
    obtain ⟨new₂, h₂⟩ := hcon
    have hall : r.Grows (· = b) (new₂ ++ new) r₂ := h.trans (h₂.opens nofun)
    have hmem : b ∈ (new₂ ++ new).map Prod.snd := by
      rw [List.map_append]
      exact List.mem_append_right _ hb
    have hone : ∀ e ∈ new₂ ++ new, e.2 = b → e.1 = n := by
      intro e he heb
      rcases List.mem_append.1 he with he | he
      · have hold : r₁.heap.Has b := (h.has b).2 (.inr hb)
        exact absurd hold (heb ▸ h₂.fresh e.2 (List.mem_map_of_mem he))
      · exact hu e he heb
    have hfill : (do
        let c ← contents (nested depth).1 (nested depth).2 k
        change (Heap.put b.index c)).run r₁ =
          .ok () { r₂ with heap := r₂.heap.put b.index c } := run_bind_ok hcr
    rw [run_bind_ok hfill]
    exact ⟨_, hall.fill hmem hone ((kind_of_contents hcr).trans hk.symm) (hcarries c r₂ hcr)⟩

/-- An object that is new gets what the bytes carry for it, if this can be read. -/
theorem sharedWith_new {depth : Nat} {k : ObjectKind} {r r₁ : Reader} {n : Nat}
    (hc : Grown (contents (nested depth).1 (nested depth).2 k))
    (hn : Decoder.word32.run r = .ok n r₁) (hl : r₁.known.lookup n = none) :
    r.Grew ((sharedWith k fun i => do
      let c ← contents (nested depth).1 (nested depth).2 k
      change (Heap.put i c)).run r) := by
  rw [run_sharedWith_new hn hl]
  generalize hb : (newObject k r₁.heap).1 = b
  have hk : b.kind = k := hb ▸ Heap.kind_newObject k r₁.heap
  have hw := word32 r
  rw [hn] at hw
  obtain ⟨new₁, h₁⟩ := hw
  -- the object is registered empty before its contents are read
  have hmade : r.Grows (· = b) ([(n, b)] ++ new₁) _ :=
    (h₁.opens nofun).trans (.register hl hb rfl)
  generalize hr₂ : ({ r₁ with heap := (newObject k r₁.heap).2, known := (n, b) :: r₁.known } :
    Reader) = r₂ at hmade ⊢
  have hp := isPresent r₂
  cases hpr : Decoder.isPresent.run r₂ with
  | error e r₃ =>
    rw [hpr] at hp
    obtain ⟨new₃, h₃⟩ := hp
    rw [run_bind_error hpr]
    exact ⟨_, (hmade.opens fun _ _ => trivial).trans h₃⟩
  | ok present r₃ =>
    obtain ⟨rest, hi, rfl⟩ := run_isPresent hpr
    have hmark : r₂.Grows (· = b) [] { r₂ with input := rest } :=
      .silent (hi ▸ List.suffix_cons _ _) rfl rfl
    have hmarked : r.Grows (· = b) ([(n, b)] ++ new₁) { r₂ with input := rest } :=
      hmade.trans hmark
    rw [run_bind_ok hpr]
    cases present with
    | false => exact ⟨_, hmarked.opens fun _ _ => trivial⟩
    | true =>
      rw [if_pos rfl]
      -- only the number just read is registered for the new object
      refine fill_new (n := n) hc hk hmarked (by simp) (fun e he heb => ?_) fun c r₄ hcr => ?_
      · rcases List.mem_append.1 he with he | he
        · rw [List.mem_singleton.1 he]
        · have hold : r₁.heap.Has b := (h₁.has b).2 (.inr (heb ▸ List.mem_map_of_mem he))
          exact absurd hold (hb ▸ Heap.not_has_newObject k r₁.heap)
      · subst hr₂ hk
        exact ⟨List.suffix_refl _, hn, hi, hcr, List.suffix_refl _⟩

/-- An object is made if it is new, and gets what the bytes carry for it if this can be read. -/
theorem reference {depth : Nat} {k : ObjectKind}
    (hc : Grown (contents (nested depth).1 (nested depth).2 k)) :
    Grown (reference (nested depth).1 (nested depth).2 k) := by
  refine bind (fun r => ?_) fun i => pure _
  have hw := word32 r
  cases hn : Decoder.word32.run r with
  | error e r₁ =>
    rw [hn] at hw
    rw [show (sharedWith k _).run r = .error e r₁ from run_bind_error hn]
    exact hw
  | ok n r₁ =>
    rw [hn] at hw
    obtain ⟨new, h₁⟩ := hw
    cases hl : r₁.known.lookup n with
    | none => exact sharedWith_new hc hn hl
    | some b =>
      rw [run_sharedWith_known hn hl]
      refine h₁.grew ((isPresent.bind fun present => ?_) r₁)
      split
      · exact throw _
      · split
        · exact pure _
        · exact throw _

end Grown

theorem Deepens.grown {d d' : Decoder α} (h : Deepens d d') : Grown d := by
  induction h with
  | pure a => exact .pure a
  | throw e => exact .throw e
  | spent d => exact .throw _
  | byte => exact .byte
  | bytes count => exact .bytes count
  | varint last digits scale sum => exact .varintFrom last digits scale sum
  | newIdentity => exact .newIdentity
  | bind _ _ first next => exact first.bind next
  | nesting _ ih => exact .get fun r => ih _ _ (Nat.le_refl _)
  | reference k _ ih => exact .reference ih

end Decoder

end Resumable
