import Resumable.Proofs.Snapshot.Confinement

/-!
# What a failed reading leaves in its session

Values are read one after the other in one session, some of them without success.  An object that
can be reached from a value that was read holds what the bytes of the session carried for its
number, with one exception: reading stopped, at this input or an earlier one, in the contents of the
object or before them.  Such an object stays in the table as it was made.  A number that stands
alone is resolved by the table, so it is refused when it is met for the first time, and from then on
names an object that nothing was ever read for.

* `Reader.session` : reading one value after the other;
* `Reader.Abandons` : a number that was first met in an input that could not be read;
* `Reader.session_contents` : the main result.
-/

namespace Resumable

namespace Reader

/-- A reader that knows nothing yet. -/
def start (h : Heap) : Reader := { input := [], heap := h }

/-- Reads one value after the other, going on after those that cannot be read. -/
def session (r : Reader) : List (List UInt8) → List (Except CodecError Value) × Reader
  | [] => ([], r)
  | bytes :: later =>
    let (v, r₁) := r.next bytes
    let (vs, r₂) := r₁.session later
    (v :: vs, r₂)

/-- The number is met for the first time in an input that cannot be read. -/
def Abandons (r : Reader) (inputs : List (List UInt8)) (n : Nat) : Prop :=
  ∃ done bytes later, inputs = done ++ bytes :: later ∧
    (r.session done).2.known.lookup n = none ∧
      ∃ e r', (r.session done).2.next bytes = (.error e, r') ∧ (r'.known.lookup n).isSome

theorem lookup_eq_some_of_mem {known : List (Nat × SharedRef)} (hn : (known.map Prod.fst).Nodup)
    {n : Nat} {b : SharedRef} (h : (n, b) ∈ known) : known.lookup n = some b := by
  induction known with
  | nil => cases h
  | cons e known ih =>
    obtain ⟨hne, hn⟩ := List.nodup_cons.1 hn
    rcases List.mem_cons.1 h with rfl | h
    · exact List.lookup_cons_self
    · have he : (n == e.1) = false := by
        refine beq_false_of_ne ?_
        rintro rfl
        exact hne (List.mem_map.2 ⟨_, h, rfl⟩)
      rw [List.lookup_cons, he]
      exact ih hn h

section Abandoned

variable {r r₁ : Reader} {bytes : List UInt8} {later : List (List UInt8)} {n : Nat}

theorem Abandons.after {v : Except CodecError Value} (hv : r.next bytes = (v, r₁))
    (h : r₁.Abandons later n) : r.Abandons (bytes :: later) n := by
  obtain ⟨done, bs, later', rfl, hl, e, r', hn, hk⟩ := h
  refine ⟨bytes :: done, bs, later', rfl, ?_⟩
  simp only [session, hv]
  exact ⟨hl, e, r', hn, hk⟩

/-- A number that an input adds to the table without being read is abandoned. -/
theorem abandons_of_error {new : List (Nat × SharedRef)} {e : CodecError} {b : SharedRef}
    (hs : r₁.Sound) (hk : r₁.known = new ++ r.known) (hv : r.next bytes = (.error e, r₁))
    (hb : (n, b) ∈ new) : r.Abandons (bytes :: later) n := by
  have hnum := hs.numbers
  rw [hk, List.map_append] at hnum
  refine ⟨[], bytes, later, rfl, List.lookup_eq_none_iff.2 fun f hf => ?_, e, r₁, hv, ?_⟩
  · have hd := List.disjoint_of_nodup_append hnum (List.mem_map_of_mem hb)
    have hf : f.1 ∈ r.known.map Prod.fst := List.mem_map_of_mem hf
    simp only [bne_iff_ne, ne_eq]
    exact fun hfe => hd (hfe ▸ hf)
  · have hm : (n, b) ∈ r₁.known := hk ▸ List.mem_append_left _ hb
    rw [lookup_eq_some_of_mem hs.numbers hm]
    rfl

end Abandoned

theorem grew_next {r r₁ : Reader} {bytes : List UInt8} {v : Except CodecError Value}
    (h : r.next bytes = (v, r₁)) : ∃ new,
      Grows (fun _ => ∃ e, v = .error e) new { r with input := bytes } r₁ := by
  have hg := Decoder.value_deepens.grown { r with input := bytes }
  unfold next at h
  split at h
  · rename_i a r' hr
    rw [hr] at hg
    obtain ⟨new, hn⟩ := hg
    cases h
    exact ⟨new, hn.opens nofun⟩
  · rename_i e r' hr
    rw [hr] at hg
    obtain ⟨new, hn⟩ := hg
    cases h
    exact ⟨new, hn.opens fun _ _ => ⟨e, rfl⟩⟩

theorem confined_next {r r₁ : Reader} {bytes : List UInt8} {v : Value}
    (h : r.next bytes = (.ok v, r₁)) : v.Confined r₁.Knows := by
  unfold next at h
  split at h
  · rename_i a r' hr
    cases h
    change (Decoder.nested (bytes.length + 1)).1.run _ = _ at hr
    exact ((Decoder.naming_nested _).value _ hr).1
  · cases h

/-- What a session adds to the table. -/
structure Leaves (r : Reader) (inputs : List (List UInt8)) (values : List (Except CodecError Value))
    (new : List (Nat × SharedRef)) (r' : Reader) : Prop where
  known : r'.known = new ++ r.known
  sound : r'.Sound
  has : ∀ b, r'.heap.Has b ↔ r.heap.Has b ∨ b ∈ new.map Prod.snd
  kept : ∀ b, r.heap.Has b → r'.heap.contents b = r.heap.contents b
  filled : ∀ e ∈ new, (∃ bytes ∈ inputs, Carried r'.known bytes e.1 e.2 (r'.heap.contents e.2)) ∨
    r'.heap.contents e.2 = .placeholder e.2.kind ∧ r.Abandons inputs e.1
  values : ∀ v, .ok v ∈ values → v.Confined r'.Knows

theorem leaves_session {r r' : Reader} (hr : r.Sound) {inputs : List (List UInt8)}
    {values : List (Except CodecError Value)} (h : r.session inputs = (values, r')) :
    ∃ new, r.Leaves inputs values new r' := by
  induction inputs generalizing r values with
  | nil =>
    cases h
    exact ⟨[], rfl, hr, fun _ => by simp, fun _ _ => rfl, nofun, nofun⟩
  | cons bytes later ih =>
    generalize hv : r.next bytes = first
    obtain ⟨v, r₁⟩ := first
    obtain ⟨new₁, h₁⟩ := grew_next hv
    have hs₁ := h₁.sound ⟨hr.held, hr.numbers, hr.objects⟩
    generalize hvs : r₁.session later = rest at *
    obtain ⟨vs, r₂⟩ := rest
    simp only [session, hv, hvs] at h
    cases h
    obtain ⟨new₂, h₂⟩ := ih hs₁ hvs
    -- what is left of the first input stays, and the later ones register in front of it
    have hknown : r'.known = (new₂ ++ new₁) ++ r.known := by
      rw [h₂.known, h₁.known, List.append_assoc]
    refine ⟨new₂ ++ new₁, hknown, h₂.sound, ?_, ?_, ?_, ?_⟩
    · intro b
      rw [h₂.has, h₁.has, List.map_append, List.mem_append]
      tauto
    · intro b hb
      rw [h₂.kept b ((h₁.has b).2 (.inl hb)), h₁.kept b hb]
    · intro e he
      rcases List.mem_append.1 he with he | he
      · refine (h₂.filled e he).imp ?_ (.imp_right (.after hv))
        rintro ⟨bs, hbs, hc⟩
        exact ⟨bs, List.mem_cons_of_mem _ hbs, hc⟩
      · -- later inputs do not touch the objects of the first one, complete or not
        have hb : r₁.heap.Has e.2 := (h₁.has e.2).2 (.inr (List.mem_map_of_mem he))
        rw [h₂.kept e.2 hb]
        refine (h₁.filled e he).imp ?_ ?_
        · intro hc
          refine ⟨bytes, List.mem_cons_self, hc.mono ?_ (List.suffix_refl _)⟩
          rw [h₂.known]
          exact List.suffix_append _ _
        · rintro ⟨⟨e', rfl⟩, hp⟩
          exact ⟨hp, abandons_of_error hs₁ h₁.known hv he⟩
    · intro w hw
      rcases List.mem_cons.1 hw with hw | hw
      · refine (confined_next (hw ▸ hv)).mono fun b hb => ?_
        unfold Knows
        rw [h₂.known, List.map_append]
        exact List.mem_append_right _ hb
      · exact h₂.values w hw

theorem confined_of_carried {r : Reader} {bytes : List UInt8} {n : Nat} {b : SharedRef}
    {c : Contents} (h : Carried r.known bytes n b c) : c.Confined r.Knows := by
  obtain ⟨-, -, -, hc, still⟩ := h
  refine ((Decoder.naming_nested _).contents _ hc).1.mono fun x hx => ?_
  obtain ⟨new, hn⟩ := still
  unfold Knows
  rw [← hn, List.map_append]
  exact List.mem_append_right _ hx

/-- A number that is known stands for the object known, if this is of the right kind. -/
theorem run_absent_of_known {r : Reader} {n : Nat} (hn : n < 2 ^ 32) {k : ObjectKind}
    (fill : Nat → Decoder Unit) (rest : List UInt8) {b : SharedRef}
    (hl : r.known.lookup n = some b) :
    (Decoder.sharedWith k fill).run { r with input := Binary.varint n ++ 0 :: rest } =
      if b.kind = k then .ok b.index { r with input := rest }
      else .error .meaningless { r with input := rest } := by
  obtain ⟨n', r', hw, rfl, rfl⟩ := Decoder.word32_varint hn r (0 :: rest)
  have hp : Decoder.isPresent.run { r' with input := 0 :: rest } =
      .ok false { r' with input := rest } := rfl
  rw [Decoder.run_sharedWith_known hw hl, Decoder.run_bind_ok hp, if_neg Bool.false_ne_true]
  split <;> rfl

theorem run_absent_of_new {r : Reader} {n : Nat} (hn : n < 2 ^ 32) {k : ObjectKind}
    (fill : Nat → Decoder Unit) (rest : List UInt8) (hl : r.known.lookup n = none) :
    ∃ r', (Decoder.sharedWith k fill).run { r with input := Binary.varint n ++ 0 :: rest } =
      .error .meaningless r' := by
  obtain ⟨n', r', hw, rfl, rfl⟩ := Decoder.word32_varint hn r (0 :: rest)
  exact ⟨_, (Decoder.run_sharedWith_new hw hl).trans (Decoder.run_bind_ok rfl)⟩

/-- A number alone is resolved by the table, whatever was read for the object. -/
theorem reference_absent_iff {r : Reader} {depth n : Nat} (hn : n < 2 ^ 32) {k : ObjectKind}
    {a : Ref k} (rest : List UInt8) :
    (∃ r', (Decoder.reference (Decoder.nested depth).1 (Decoder.nested depth).2 k).run
        { r with input := Binary.varint n ++ 0 :: rest } = .ok a r') ↔
      r.known.lookup n = some a.shared := by
  unfold Decoder.reference
  cases hl : r.known.lookup n with
  | some b =>
    have hs := fun fill => run_absent_of_known hn (k := k) fill rest hl
    -- a reference to an object of another kind is refused
    by_cases hk : b.kind = k
    · simp only [if_pos hk] at hs
      rw [Decoder.run_bind_ok (hs _)]
      subst hk
      constructor
      · rintro ⟨_, ⟨⟩⟩
        rfl
      · intro ha
        have hi : b.index = a.index := congrArg SharedRef.index (Option.some.inj ha)
        have hb : (⟨b.index⟩ : Ref b.kind) = a := congrArg Ref.mk hi
        exact ⟨_, by rw [hb]; rfl⟩
    · simp only [if_neg hk] at hs
      rw [Decoder.run_bind_error (hs _)]
      refine ⟨nofun, fun ha => absurd ?_ hk⟩
      cases ha
      rfl
  | none =>
    obtain ⟨r', hs⟩ := run_absent_of_new hn (k := k) (fun i => do
      let c ← Decoder.contents (Decoder.nested depth).1 (Decoder.nested depth).2 k
      Decoder.change (Heap.put i c)) rest hl
    rw [Decoder.run_bind_error hs]
    exact ⟨nofun, nofun⟩

/-- **What can be reached from a value that was read** holds what the bytes of the session carried
for its number, or was left as it was made by an input that could not be read.  A number alone does
not tell these apart: it is resolved to whatever object the table has for it, of the right kind. -/
theorem session_contents {h : Heap} {inputs : List (List UInt8)}
    {values : List (Except CodecError Value)} {r : Reader}
    (hs : (start h).session inputs = (values, r)) :
    (∀ v, .ok v ∈ values → ∀ b, r.heap.Reachable v b → ∃ n, r.known.lookup n = some b ∧
      ((∃ bytes ∈ inputs, Carried r.known bytes n b (r.heap.contents b)) ∨
        r.heap.contents b = .placeholder b.kind ∧ (start h).Abandons inputs n)) ∧
      ∀ (depth n : Nat) (k : ObjectKind) (a : Ref k) (rest : List UInt8), n < 2 ^ 32 →
        ((∃ r', (Decoder.reference (Decoder.nested depth).1 (Decoder.nested depth).2 k).run
            { r with input := Binary.varint n ++ 0 :: rest } = .ok a r') ↔
          r.known.lookup n = some a.shared) := by
  have hstart : (start h).Sound := ⟨fun _ he => absurd he List.not_mem_nil, .nil, .nil⟩
  obtain ⟨new, hl⟩ := leaves_session hstart hs
  have hk : r.known = new := by rw [hl.known]; exact List.append_nil new
  refine ⟨fun v hv b hb => ?_, fun depth n k a rest hn => reference_absent_iff hn rest⟩
  have hclosed : ∀ x, r.Knows x → (r.heap.contents x).Confined r.Knows := by
    intro x hx
    obtain ⟨e, he, rfl⟩ := List.mem_map.1 hx
    rcases hl.filled e (hk ▸ he) with ⟨bytes, -, hc⟩ | ⟨hp, -⟩
    · exact confined_of_carried hc
    · rw [hp]
      exact Contents.confined_placeholder _
  obtain ⟨e, he, rfl⟩ := List.mem_map.1 (hb r.Knows (hl.values v hv) hclosed)
  exact ⟨e.1, lookup_eq_some_of_mem hl.sound.numbers he, hl.filled e (hk ▸ he)⟩

/-- A cell without contents cannot be read, and can be read the second time. -/
theorem session_cell_twice : ∃ r,
    (start .initial).session [[12, 0, 0], [12, 0, 0]] =
        ([.error .meaningless, .ok (.cell ⟨0⟩)], r) ∧
      r.heap.Reachable (.cell ⟨0⟩) ⟨.cell, 0⟩ ∧
      ∃ n, r.known.lookup n = some ⟨.cell, 0⟩ ∧
        ((∃ bytes ∈ [[12, 0, 0], [12, 0, 0]],
            Carried r.known bytes n ⟨.cell, 0⟩ (r.heap.contents ⟨.cell, 0⟩)) ∨
          r.heap.contents ⟨.cell, 0⟩ = .placeholder .cell ∧
            (start .initial).Abandons [[12, 0, 0], [12, 0, 0]] n) := by
  have hs : (start .initial).session [[12, 0, 0], [12, 0, 0]] =
      ([.error .meaningless, .ok (.cell ⟨0⟩)], _) := rfl
  have hr : ∀ h : Heap, h.Reachable (.cell ⟨0⟩) ⟨.cell, 0⟩ := by
    intro h K hv _
    cases hv with
    | cell hc => exact hc.2
  exact ⟨_, hs, hr _, (session_contents hs).1 _ (by simp) _ (hr _)⟩

end Reader

end Resumable
