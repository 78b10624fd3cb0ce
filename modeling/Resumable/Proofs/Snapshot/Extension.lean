import Resumable.Proofs.Snapshot.ReadBack

/-!
# Reading what is longer

What was read from an input is read from every longer input too, and leaves what was added.  This
is so although the nesting allowed for depends on the length of the input: `Decoder.Deepens` relates
decoders that are built alike, the second with more nesting than the first, and a decoder that
deepens another one extends it.

* `Decoder.nested_deepens` : readers of values and snapshots deepen those that allow for less;
* `Decoder.Deepens.extends` : what the first of two such decoders reads, the second reads from a
  longer input, and what the first refuses, the second refuses, unless the first met the end.
-/

namespace Resumable

/-- The same reader with more left to read. -/
def Reader.followedBy (r : Reader) (extra : List UInt8) : Reader :=
  { r with input := r.input ++ extra }

namespace Decoder

variable {α β : Type}

/-! ### Decoders that allow for more nesting -/

/-- Decoders built alike from those that read single parts.  Where the first gives up for want of
nesting, the second may go on. -/
inductive Deepens : {α : Type} → Decoder α → Decoder α → Prop
  | pure {α : Type} (a : α) : Deepens (pure a) (pure a)
  | throw {α : Type} (e : CodecError) : Deepens (throw e : Decoder α) (throw e)
  /-- No nesting is left. -/
  | spent {α : Type} (d : Decoder α) : Deepens (throw .endOfInput) d
  | byte : Deepens byte byte
  | bytes (count : Nat) : Deepens (bytes count) (bytes count)
  | varint (last digits scale sum : Nat) :
    Deepens (varintFrom last digits scale sum) (varintFrom last digits scale sum)
  | newIdentity : Deepens newIdentity newIdentity
  | bind {α β : Type} {d d' : Decoder α} {k k' : α → Decoder β} (first : Deepens d d')
    (next : ∀ a, Deepens (k a) (k' a)) : Deepens (d >>= k) (d' >>= k')
  /-- As much nesting as there is to read. -/
  | nesting {α : Type} {d : Nat → Decoder α} (deeper : ∀ n m, n ≤ m → Deepens (d n) (d m)) :
    Deepens (get >>= fun r => d (r.input.length + 1)) (get >>= fun r => d (r.input.length + 1))
  | reference {n m : Nat} (k : ObjectKind)
    (contents : Deepens (contents (nested n).1 (nested n).2 k)
      (contents (nested m).1 (nested m).2 k)) :
    Deepens (reference (nested n).1 (nested n).2 k) (reference (nested m).1 (nested m).2 k)

namespace Deepens

theorem word16 : Deepens word16 word16 := varint _ _ _ _

theorem word32 : Deepens word32 word32 := varint _ _ _ _

theorem word64 : Deepens word64 word64 := varint _ _ _ _

theorem map {d d' : Decoder α} (f : α → β) (h : Deepens d d') :
    Deepens (d >>= fun a => Pure.pure (f a)) (d' >>= fun a => Pure.pure (f a)) :=
  h.bind fun a => pure (f a)

theorem integer : Deepens integer integer := word64.map _

theorem float : Deepens float float := (bytes 8).map _

theorem bool : Deepens bool bool := by
  refine byte.bind fun b => ?_
  split
  · exact pure _
  · exact pure _
  · exact throw _

theorem isPresent : Deepens isPresent isPresent := by
  refine byte.bind fun b => ?_
  split
  · exact pure _
  · exact pure _
  · exact throw _

theorem optional {d d' : Decoder α} (h : Deepens d d') : Deepens (optional d) (optional d') := by
  refine isPresent.bind fun b => ?_
  split
  · exact h.map _
  · exact pure _

theorem text : Deepens text text := by
  refine word64.bind fun n => (bytes n).bind fun bs => ?_
  split
  · exact pure _
  · exact throw _

theorem items {d d' : Decoder α} (h : Deepens d d') (n : Nat) :
    Deepens (items d n) (items d' n) := by
  induction n with
  | zero => exact pure _
  | succ n ih => exact h.bind fun a => ih.map _

theorem sequence {d d' : Decoder α} (h : Deepens d d') : Deepens (sequence d) (sequence d') :=
  word64.bind fun n => h.items n

theorem known (o : Option α) : Deepens (known o) (known o) := by
  cases o with
  | none => exact throw _
  | some a => exact pure a

theorem exceptionKind : Deepens exceptionKind exceptionKind := word32.bind fun _ => known _

theorem exception : Deepens exception exception :=
  exceptionKind.bind fun _ => text.optional.map _

theorem tracebackEntry : Deepens tracebackEntry tracebackEntry :=
  text.bind fun _ => word32.bind fun _ => word64.map _

theorem raised : Deepens raised raised := exception.bind fun _ => tracebackEntry.sequence.map _

theorem flags : Deepens flags flags :=
  bool.bind fun _ => bool.bind fun _ => bool.bind fun _ => bool.map _

theorem builtin : Deepens builtin builtin := by
  refine word32.bind fun n => ?_
  split
  · exact pure _
  · exact pure _
  · exact throw _

theorem blockKind : Deepens blockKind blockKind := by
  refine word32.bind fun n => ?_
  split
  · exact pure _
  · exact pure _
  · exact pure _
  · exact throw _

theorem block : Deepens block block := blockKind.bind fun _ => word64.bind fun _ => word64.map _

theorem generatorState : Deepens generatorState generatorState := by
  refine word32.bind fun n => ?_
  split
  case h_6 => exact throw _
  all_goals exact pure _

/-! ### Code -/

theorem codeWith {d d' : Decoder Const} (h : Deepens d d') :
    Deepens (codeWith d) (codeWith d') := by
  refine text.bind fun _ => byte.sequence.bind fun _ => h.sequence.bind fun _ => ?_
  refine text.sequence.bind fun _ => text.sequence.bind fun _ => text.sequence.bind fun _ => ?_
  refine text.sequence.bind fun _ => word16.bind fun _ => word16.bind fun _ => ?_
  refine flags.bind fun _ => word32.bind fun _ => byte.sequence.bind fun _ => ?_
  dsimp only
  split
  · exact pure _
  · exact throw _

theorem constantWith {d d' : Decoder Const} (h : Deepens d d') :
    Deepens (constantWith d) (constantWith d') := by
  refine word32.bind fun n => ?_
  split
  · exact pure _
  · exact bool.map _
  · exact integer.map _
  · exact float.map _
  · exact text.map _
  · exact h.sequence.map _
  · exact h.codeWith.bind fun _ => newIdentity.map _
  · exact throw _

theorem constant (n m : Nat) (h : n ≤ m) : Deepens (constant n) (constant m) := by
  induction n generalizing m with
  | zero => exact spent _
  | succ n ih =>
    obtain ⟨m, rfl⟩ := Nat.exists_eq_add_of_le' (Nat.le_trans (Nat.succ_le_succ n.zero_le) h)
    exact (ih m (Nat.le_of_succ_le_succ h)).constantWith

theorem code : Deepens code code :=
  nesting fun n m h => (constant n m h).codeWith.bind fun _ => newIdentity.map _

/-! ### Values and snapshots -/

section

variable {n m : Nat} (hv : Deepens (nested n).1 (nested m).1)
  (hs : Deepens (nested n).2 (nested m).2)

include hv

theorem iteration : Deepens (iteration (nested n).1) (iteration (nested m).1) := by
  refine word32.bind fun _ => ?_
  split
  · exact hv.sequence.bind fun _ => word64.map _
  · exact text.bind fun _ => word64.map _
  · exact integer.bind fun _ => integer.bind fun _ => integer.map _
  · exact throw _

theorem unwinding : Deepens (unwinding (nested n).1) (unwinding (nested m).1) := by
  refine word32.bind fun _ => ?_
  split
  · exact hv.map _
  · exact pure _
  · exact word64.map _
  · exact raised.map _
  · exact throw _

include hs

theorem contents (k : ObjectKind) : Deepens (contents (nested n).1 (nested n).2 k)
    (Decoder.contents (nested m).1 (nested m).2 k) := by
  cases k with
  | mapping => exact (sequence (text.bind fun _ => hv.map _)).map _
  | cell => exact hv.optional.map _
  | iterator => exact (iteration hv).map _
  | generator =>
    refine generatorState.bind fun _ => text.bind fun _ => (optional (hs.bind fun s => ?_)).map _
    split
    · exact pure _
    · exact throw _

theorem mapping : Deepens (mapping (nested n).1) (mapping (nested m).1) := by
  rw [← reference_mapping _ (nested n).2, ← reference_mapping _ (nested m).2]
  exact reference _ (contents hv hs _)

theorem cell : Deepens (cell (nested n).1) (cell (nested m).1) := by
  rw [← reference_cell _ (nested n).2, ← reference_cell _ (nested m).2]
  exact reference _ (contents hv hs _)

theorem iterator : Deepens (iterator (nested n).1) (iterator (nested m).1) := by
  rw [← reference_iterator _ (nested n).2, ← reference_iterator _ (nested m).2]
  exact reference _ (contents hv hs _)

theorem generator : Deepens (generator (nested n).2) (generator (nested m).2) := by
  rw [← reference_generator (nested n).1, ← reference_generator (nested m).1]
  exact reference _ (contents hv hs _)

theorem recordedLocals :
    Deepens (recordedLocals (nested n).1) (recordedLocals (nested m).1) := by
  refine word32.bind fun _ => ?_
  split
  · exact hv.optional.sequence.map _
  · exact (mapping hv hs).map _
  · exact pure _
  · exact throw _

theorem function : Deepens (function (nested n).1) (function (nested m).1) := by
  refine code.bind fun _ => (mapping hv hs).bind fun _ => ?_
  exact hv.sequence.bind fun _ => (cell hv hs).sequence.map _

theorem valueWith : Deepens (valueWith (nested n).1 (nested n).2)
    (valueWith (nested m).1 (nested m).2) := by
  refine word32.bind fun _ => ?_
  split
  · exact pure _
  · exact bool.map _
  · exact integer.map _
  · exact float.map _
  · exact text.bind fun _ => newIdentity.map _
  · exact hv.sequence.bind fun _ => newIdentity.map _
  · exact exceptionKind.map _
  · exact exception.map _
  · exact (function hv hs).bind fun _ => newIdentity.map _
  · exact builtin.map _
  · exact (generator hv hs).map _
  · exact (iterator hv hs).map _
  · exact (cell hv hs).map _
  · exact code.map _
  · exact (unwinding hv).map _
  · exact throw _

theorem snapshotWith : Deepens (snapshotWith (nested n).1 (nested n).2)
    (snapshotWith (nested m).1 (nested m).2) := by
  refine word32.bind fun _ => code.bind fun _ => hs.optional.bind fun _ => ?_
  refine (mapping hv hs).bind fun _ => hv.optional.sequence.bind fun _ => ?_
  refine block.sequence.bind fun _ => raised.optional.bind fun _ => ?_
  refine (mapping hv hs).bind fun _ => integer.bind fun _ => bool.bind fun _ => ?_
  refine word32.bind fun _ => (recordedLocals hv hs).bind fun _ => ?_
  refine integer.bind fun _ => integer.bind fun _ => integer.bind fun _ => ?_
  exact (cell hv hs).sequence.map _

end

end Deepens

/-- Values and snapshots that may nest deeper are read alike. -/
theorem nested_deepens {n m : Nat} (h : n ≤ m) :
    Deepens (nested n).1 (nested m).1 ∧ Deepens (nested n).2 (nested m).2 := by
  induction n generalizing m with
  | zero => exact ⟨.spent _, .spent _⟩
  | succ n ih =>
    obtain ⟨m, rfl⟩ := Nat.exists_eq_add_of_le' (Nat.le_trans (Nat.succ_le_succ n.zero_le) h)
    obtain ⟨hv, hs⟩ := ih (Nat.le_of_succ_le_succ h)
    exact ⟨.valueWith hv hs, .snapshotWith hv hs⟩

theorem value_deepens : Deepens value value := .nesting fun _ _ h => (nested_deepens h).1

theorem snapshot_deepens : Deepens snapshot snapshot :=
  .nesting fun _ _ h => (nested_deepens h).2

/-! ### Longer inputs -/

theorem run_bind_eq_ok {d : Decoder α} {k : α → Decoder β} {r r' : Reader} {b : β}
    (h : (d >>= k).run r = .ok b r') : ∃ a s, d.run r = .ok a s ∧ (k a).run s = .ok b r' := by
  change EStateM.bind d k r = _ at h
  unfold EStateM.bind at h
  cases hd : d r with
  | ok a s =>
    rw [hd] at h
    exact ⟨a, s, hd, h⟩
  | error e s =>
    rw [hd] at h
    cases h

theorem run_bind_error {d : Decoder α} {k : α → Decoder β} {r r' : Reader} {e : CodecError}
    (h : d.run r = .error e r') : (d >>= k).run r = .error e r' := by
  change EStateM.bind d k r = _
  unfold EStateM.bind
  change d r = _ at h
  rw [h]

theorem run_bind_eq_error {d : Decoder α} {k : α → Decoder β} {r r' : Reader} {e : CodecError}
    (h : (d >>= k).run r = .error e r') :
    d.run r = .error e r' ∨ ∃ a s, d.run r = .ok a s ∧ (k a).run s = .error e r' := by
  cases hd : d.run r with
  | ok a s => exact .inr ⟨a, s, rfl, by rw [← h, run_bind_ok hd]⟩
  | error e' s =>
    rw [run_bind_error hd] at h
    cases h
    exact .inl rfl

/-- What the first decoder reads from an input, the second reads from every longer one, where it
leaves what was added.  What the first refuses, the second refuses there, unless the first met the
end. -/
structure Extends (d d' : Decoder α) : Prop where
  ok : ∀ {r a r'}, d.run r = .ok a r' → ∀ extra,
    d'.run (r.followedBy extra) = .ok a (r'.followedBy extra)
  error : ∀ {r e r'}, d.run r = .error e r' → e ≠ .endOfInput → ∀ extra,
    ∃ r', d'.run (r.followedBy extra) = .error e r'

namespace Extends

theorem pure (a : α) : Extends (pure a) (pure a) where
  ok := by
    rintro r _ _ ⟨⟩ extra
    rfl
  error := nofun

theorem throw (e : CodecError) : Extends (throw e : Decoder α) (throw e) where
  ok := nofun
  error := by
    rintro r _ _ ⟨⟩ - extra
    exact ⟨_, rfl⟩

theorem bind {d d' : Decoder α} {k k' : α → Decoder β} (h : Extends d d')
    (hk : ∀ a, Extends (k a) (k' a)) : Extends (d >>= k) (d' >>= k') where
  ok := by
    intro r b r' hr extra
    obtain ⟨a, s, hd, hs⟩ := run_bind_eq_ok hr
    rw [run_bind_ok (h.ok hd extra)]
    exact (hk a).ok hs extra
  error := by
    intro r e r' hr he extra
    rcases run_bind_eq_error hr with hd | ⟨a, s, hd, hs⟩
    · obtain ⟨s, hs⟩ := h.error hd he extra
      exact ⟨s, run_bind_error hs⟩
    · rw [run_bind_ok (h.ok hd extra)]
      exact (hk a).error hs he extra

/-- What a decoder looks at without reading it. -/
theorem get {k k' : Reader → Decoder α}
    (h : ∀ r extra, Extends (k r) (k' (r.followedBy extra))) :
    Extends (MonadState.get >>= k) (MonadState.get >>= k') where
  ok := fun {r} _ _ hr extra => (h r extra).ok hr extra
  error := fun {r} _ _ hr he extra => (h r extra).error hr he extra

theorem modifyGet {f : Reader → α × Reader}
    (h : ∀ r extra, f (r.followedBy extra) = ((f r).1, (f r).2.followedBy extra)) :
    Extends (MonadStateOf.modifyGet f) (MonadStateOf.modifyGet f) where
  ok := by
    rintro r _ _ ⟨⟩ extra
    change (match f (r.followedBy extra) with | (a, s) => EStateM.Result.ok a s) = _
    rw [h r extra]
  error := nofun

theorem byte : Extends byte byte where
  ok := by
    rintro ⟨_ | ⟨b, rest⟩, heap, known⟩ a r' hr extra
    · cases hr
    · cases hr
      rfl
  error := by
    rintro ⟨_ | ⟨b, rest⟩, heap, known⟩ e r' hr he
    · cases hr
      exact absurd rfl he
    · cases hr

theorem run_bytes (count : Nat) (r : Reader) : (Decoder.bytes count).run r =
    if count ≤ r.input.length then .ok (r.input.take count) { r with input := r.input.drop count }
    else .error .endOfInput r := by
  by_cases h : count ≤ r.input.length
  · have ht : ¬(r.input.take count).length < count := by
      rw [List.length_take]
      omega
    rw [if_pos h]
    change EStateM.run (if (r.input.take count).length < count then _ else _) r = _
    rw [if_neg ht]
    rfl
  · have ht : (r.input.take count).length < count := by
      rw [List.length_take]
      omega
    rw [if_neg h]
    change EStateM.run (if (r.input.take count).length < count then _ else _) r = _
    rw [if_pos ht]
    rfl

theorem bytes (count : Nat) : Extends (bytes count) (bytes count) where
  ok := by
    intro r a r' hr extra
    rw [run_bytes] at hr ⊢
    split at hr
    · rename_i h
      cases hr
      have he : count ≤ (r.followedBy extra).input.length := by
        change count ≤ (r.input ++ extra).length
        rw [List.length_append]
        omega
      rw [if_pos he]
      simp only [Reader.followedBy, List.take_append_of_le_length h,
        List.drop_append_of_le_length h]
    · cases hr
  error := by
    intro r e r' hr he extra
    rw [run_bytes] at hr
    split at hr
    · cases hr
    · cases hr
      exact absurd rfl he

theorem varintFrom (last digits scale sum : Nat) :
    Extends (varintFrom last digits scale sum) (varintFrom last digits scale sum) := by
  induction digits generalizing scale sum with
  | zero => exact throw _
  | succ digits ih =>
    refine byte.bind fun b => ?_
    dsimp only
    split
    · exact ih _ _
    · split
      · exact throw _
      · exact pure _

theorem isPresent : Extends isPresent isPresent := by
  refine byte.bind fun b => ?_
  split
  · exact pure _
  · exact pure _
  · exact throw _

/-- Objects are looked up and made alike whatever is left to read. -/
theorem sharedWith {fill fill' : Nat → Decoder Unit} (k : ObjectKind)
    (h : ∀ i, Extends (fill i) (fill' i)) : Extends (sharedWith k fill) (sharedWith k fill') := by
  refine (varintFrom _ _ _ _).bind fun n => get fun r extra => ?_
  have hknown : (r.followedBy extra).known = r.known := rfl
  rw [hknown]
  cases r.known.lookup n with
  | some b =>
    refine isPresent.bind fun present => ?_
    cases present with
    | true => exact throw .unskippable
    | false =>
      change Extends (if b.kind = k then _ else _) (if b.kind = k then _ else _)
      split
      · exact pure _
      · exact throw _
  | none =>
    refine (modifyGet fun _ _ => rfl).bind fun b => isPresent.bind fun present => ?_
    split
    · exact (h _).bind fun _ => pure _
    · exact throw _

end Extends

theorem Deepens.extends {d d' : Decoder α} (h : Deepens d d') : Extends d d' := by
  induction h with
  | pure a => exact .pure a
  | throw e => exact .throw e
  | spent d =>
    refine ⟨nofun, ?_⟩
    rintro r _ _ ⟨⟩ he
    exact absurd rfl he
  | byte => exact .byte
  | bytes count => exact .bytes count
  | varint last digits scale sum => exact .varintFrom last digits scale sum
  | newIdentity => exact .modifyGet fun _ _ => rfl
  | bind _ _ first next => exact first.bind next
  | nesting _ ih =>
    refine .get fun r extra => ih _ _ ?_
    change r.input.length + 1 ≤ (r.input ++ extra).length + 1
    rw [List.length_append]
    omega
  | reference k _ ih =>
    refine (Extends.sharedWith k fun i => ih.bind fun c => ?_).bind fun i => .pure _
    exact .modifyGet fun _ _ => rfl

end Decoder

end Resumable
