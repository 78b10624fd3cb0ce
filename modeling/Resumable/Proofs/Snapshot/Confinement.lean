import Resumable.Proofs.Snapshot.SessionTable

/-!
# What is read names known objects only

Values, records and contents are confined to a set of objects if every object they name belongs to
it.  What a decoder returns is confined to the objects that the reader then knows, so the objects
that can be reached from a value that was read are all in the table of its session.

* `Value.Confined`, `FrameRecord.Confined`, `Contents.Confined` : the objects named all belong to a
  set;
* `Heap.Reachable` : what can be reached from a value through the contents of objects;
* `Decoder.naming_nested` : values and snapshots that are read are confined to what is known.
-/

namespace Resumable

/-- Every object of a set corresponds to itself alone. -/
def Itself (K : SharedRef → Prop) : Correspondence := fun a b => a = b ∧ K a

/-- All objects that the value names belong to the set. -/
def Value.Confined (K : SharedRef → Prop) (v : Value) : Prop := v.Alike (Itself K) v

/-- Recorded locals name no object outside `K`. -/
def RecordedLocals.Confined (K : SharedRef → Prop) (l : RecordedLocals) : Prop :=
  l.Alike (Itself K) l

/-- A record names no object outside `K`. -/
def FrameRecord.Confined (K : SharedRef → Prop) (r : FrameRecord) : Prop := r.Alike (Itself K) r

/-- The contents of an object name no object outside `K`. -/
def Contents.Confined (K : SharedRef → Prop) (c : Contents) : Prop := c.Alike (Itself K) c

/-- An object that belongs to every set to which the value is confined and which holds, with an
object, those that its contents name. -/
def Heap.Reachable (h : Heap) (v : Value) (b : SharedRef) : Prop :=
  ∀ K : SharedRef → Prop, v.Confined K → (∀ a, K a → (h.contents a).Confined K) → K b

section

variable {K K' : SharedRef → Prop} (hK : ∀ b, K b → K' b)

include hK

theorem Itself.mono {a b : SharedRef} (h : Itself K a b) : Itself K' a b := ⟨h.1, hK a h.2⟩

theorem Value.Confined.mono {v : Value} (h : v.Confined K) : v.Confined K' :=
  Alike.mono (fun _ _ => Itself.mono hK) h

theorem RecordedLocals.Confined.mono {l : RecordedLocals} (h : l.Confined K) : l.Confined K' :=
  Alike.mono (fun _ _ => Itself.mono hK) h

theorem FrameRecord.Confined.mono {r : FrameRecord} (h : r.Confined K) : r.Confined K' :=
  Alike.mono (fun _ _ => Itself.mono hK) h

theorem Contents.Confined.mono {c : Contents} (h : c.Confined K) : c.Confined K' :=
  Alike.mono (fun _ _ => Itself.mono hK) h

end

section

variable {K : SharedRef → Prop}

theorem forall₂_confined {vs : List Value} :
    List.Forall₂ (Value.Alike (Itself K)) vs vs ↔ ∀ v ∈ vs, v.Confined K :=
  List.forall₂_same

/-- All values that are there are confined. -/
def ConfinedSlot (K : SharedRef → Prop) (o : Option Value) : Prop := ∀ v, o = some v → v.Confined K

theorem rel_confined {o : Option Value} (h : ConfinedSlot K o) :
    Option.Rel (Value.Alike (Itself K)) o o := by
  cases o with
  | none => exact .none
  | some v => exact .some (h v rfl)

theorem forall₂_confinedSlots {slots : List (Option Value)} (h : ∀ o ∈ slots, ConfinedSlot K o) :
    List.Forall₂ (Option.Rel (Value.Alike (Itself K))) slots slots :=
  List.forall₂_same.2 fun o ho => rel_confined (h o ho)

theorem forall₂_refs {k : ObjectKind} {rs : List (Ref k)} (h : ∀ r ∈ rs, K r.shared) :
    List.Forall₂ (Ref.Alike (Itself K)) rs rs :=
  List.forall₂_same.2 fun r hr => ⟨rfl, h r hr⟩

theorem Contents.confined_placeholder (k : ObjectKind) : (Contents.placeholder k).Confined K := by
  cases k with
  | mapping => exact .mapping .nil
  | cell => exact .cell .none
  | iterator => exact .iterator (.items .nil 0)
  | generator => exact .generator ⟨rfl, rfl, .none⟩

/-- Binding a name adds the value bound and nothing else. -/
theorem Namespace.mem_bind {name : String} {v : Value} {fs : List (String × Value)}
    {e : String × Value} (he : e ∈ Namespace.bind name v fs) : e.2 = v ∨ e ∈ fs := by
  induction fs with
  | nil => exact .inl (by rw [List.mem_singleton.1 he])
  | cons f fs ih =>
    obtain ⟨n, w⟩ := f
    rw [Namespace.bind] at he
    split at he
    · rcases List.mem_cons.1 he with rfl | he
      · exact .inl rfl
      · exact .inr (List.mem_cons_of_mem _ he)
    · rcases List.mem_cons.1 he with rfl | he
      · exact .inr List.mem_cons_self
      · exact (ih he).imp_right (List.mem_cons_of_mem _)

theorem Namespace.mem_foldl_set {fs : List (String × Value)} {ns : Namespace} {e : String × Value}
    (he : e ∈ (fs.foldl (fun ns f => ns.set f.1 f.2) ns).entries) :
    e ∈ ns.entries ∨ ∃ f ∈ fs, f.2 = e.2 := by
  induction fs generalizing ns with
  | nil => exact .inl he
  | cons f fs ih =>
    rcases ih he with he | ⟨g, hg, hge⟩
    · rcases Namespace.mem_bind he with hv | he
      · exact .inr ⟨f, List.mem_cons_self, hv.symm⟩
      · exact .inl he
    · exact .inr ⟨g, List.mem_cons_of_mem _ hg, hge⟩

/-- Names are bound to values that were given for them. -/
theorem Namespace.mem_ofList {es : List (String × Value)} {e : String × Value}
    (h : e ∈ (Namespace.ofList es).entries) : ∃ f ∈ es, f.2 = e.2 :=
  (Namespace.mem_foldl_set h).resolve_left List.not_mem_nil

/-- A frame restored from a record names what the record names. -/
theorem FrameRecord.Confined.restored {r : FrameRecord} (h : r.Confined K) {f : Frame}
    (hf : r.restore = .ok f) : f.capture.Confined K := by
  obtain ⟨hr, rfl⟩ := FrameRecord.restore_eq_ok_iff.1 hf
  have hs : r.frame.capture.stack = r.stack := by
    change r.values.reverse.reverse.map some = r.stack
    rw [List.reverse_reverse, ← hr.filled]
  have hl : r.frame.capture.locals.Confined K := by
    have hl := h.locals
    unfold Frame.capture frame liveLocals
    revert hl
    cases r.locals with
    | fast slots => exact id
    | dict names =>
      intro hl
      dsimp only
      split
      · exact .globals
      · exact hl
    | globals =>
      intro _
      simp only [if_true]
      exact .globals
  exact
    { version := rfl
      code := rfl
      builtins := h.builtins
      stack := hs ▸ h.stack
      blocks := rfl
      pending := rfl
      globals := h.globals
      lastOffset := rfl
      finished := rfl
      line := rfl
      locals := hl
      lower := rfl
      upper := rfl
      previous := rfl
      cells := h.cells }

end

/-! ### Decoders -/

/-- The object is in the table. -/
def Reader.Knows (r : Reader) (b : SharedRef) : Prop := b ∈ r.known.map Prod.snd

theorem Reader.knows_of_lookup {r : Reader} {n : Nat} {b : SharedRef}
    (h : r.known.lookup n = some b) : r.Knows b := by
  obtain ⟨before, later, he, -⟩ := List.lookup_eq_some_iff.1 h
  unfold Knows
  rw [he]
  simp

namespace Decoder

variable {α β : Type} {r : Reader}

/-- What the decoder returns is in the given relation to what is known by then, and nothing that was
known is forgotten. -/
def Names (d : Decoder α) (r : Reader) (P : (SharedRef → Prop) → α → Prop) : Prop :=
  ∀ ⦃a r'⦄, d.run r = .ok a r' → P r'.Knows a ∧ ∀ b, r.Knows b → r'.Knows b

/-- What holds of a set of objects holds of every larger one. -/
def Expands (P : (SharedRef → Prop) → α → Prop) : Prop :=
  ∀ a (K K' : SharedRef → Prop), (∀ b, K b → K' b) → P K a → P K' a

theorem Grown.knows {d : Decoder α} (h : Grown d) {r r' : Reader} {a : α}
    (hd : d.run r = .ok a r') : ∀ b, r.Knows b → r'.Knows b := by
  intro b hb
  have hr := h r
  rw [hd] at hr
  obtain ⟨new, hn⟩ := hr
  unfold Reader.Knows
  rw [hn.known, List.map_append]
  exact List.mem_append_right _ hb

namespace Names

variable {P : (SharedRef → Prop) → α → Prop} {Q : (SharedRef → Prop) → β → Prop}

theorem pure {a : α} (h : P r.Knows a) : Names (pure a) r P := by
  rintro _ _ ⟨⟩
  exact ⟨h, fun _ => id⟩

theorem throw (e : CodecError) : Names (throw e : Decoder α) r P := nofun

/-- What names no objects at all. -/
theorem plain {d d' : Decoder α} (h : Deepens d d') (hp : ∀ K a, P K a) : Names d r P :=
  fun _ _ hd => ⟨hp _ _, h.grown.knows hd⟩

theorem bind {d : Decoder α} {k : α → Decoder β} (h : Names d r P)
    (hk : ∀ a r₁, (∀ b, r.Knows b → r₁.Knows b) → P r₁.Knows a → Names (k a) r₁ Q) :
    Names (d >>= k) r Q := by
  intro b r' hr
  obtain ⟨a, r₁, hd, hs⟩ := run_bind_eq_ok hr
  obtain ⟨ha, h₁⟩ := h hd
  obtain ⟨hb, h₂⟩ := hk a r₁ h₁ ha hs
  exact ⟨hb, fun x hx => h₂ x (h₁ x hx)⟩

theorem map {d : Decoder α} {f : α → β} (h : Names d r P) (hf : ∀ K a, P K a → Q K (f a)) :
    Names (d >>= fun a => Pure.pure (f a)) r Q :=
  h.bind fun a _ _ ha => pure (hf _ a ha)

/-- A first part that names nothing. -/
theorem after {d d' : Decoder α} {k : α → Decoder β} (h : Deepens d d')
    (hk : ∀ a r₁, (∀ b, r.Knows b → r₁.Knows b) → Names (k a) r₁ Q) : Names (d >>= k) r Q :=
  (plain (P := fun _ _ => True) h fun _ _ => trivial).bind fun a r₁ h₁ _ => hk a r₁ h₁

theorem optional {d : Decoder α} (h : ∀ r, Names d r P) :
    Names (Decoder.optional d) r fun K o => ∀ a, o = some a → P K a := by
  refine after Deepens.isPresent fun present r₁ _ => ?_
  split
  · exact (h r₁).map fun K a ha => by
      rintro _ ⟨⟩
      exact ha
  · exact pure nofun

theorem items {d : Decoder α} (he : Expands P) (h : ∀ r, Names d r P) (n : Nat) (r : Reader) :
    Names (Decoder.items d n) r fun K as => ∀ a ∈ as, P K a := by
  induction n generalizing r with
  | zero => exact pure nofun
  | succ n ih =>
    refine (h r).bind fun a r₁ _ ha => (ih r₁).bind fun as r₂ h₂ has => pure fun b hb => ?_
    rcases List.mem_cons.1 hb with rfl | hb
    · exact he _ _ _ h₂ ha
    · exact has b hb

theorem sequence {d : Decoder α} (he : Expands P) (h : ∀ r, Names d r P) :
    Names (Decoder.sequence d) r fun K as => ∀ a ∈ as, P K a :=
  after Deepens.word64 fun n r₁ _ => items he h n r₁

/-- The object is in the table, whether it was known or is new. -/
theorem reference {n : Nat} {k : ObjectKind}
    (hc : Grown (contents (nested n).1 (nested n).2 k)) :
    Names (reference (nested n).1 (nested n).2 k) r fun K a => K a.shared := by
  intro a r' hr
  refine ⟨?_, (Grown.reference hc).knows hr⟩
  obtain ⟨i, s, hs, hp⟩ := run_bind_eq_ok hr
  cases hp
  obtain ⟨number, r₁, hn, -⟩ := run_bind_eq_ok hs
  cases hl : r₁.known.lookup number with
  | some b =>
    rw [run_sharedWith_known hn hl] at hs
    obtain ⟨present, r₂, hpr, hs⟩ := run_bind_eq_ok hs
    have hb₂ := Grown.isPresent.knows hpr b (Reader.knows_of_lookup hl)
    split at hs
    · cases hs
    · split at hs
      · rename_i hk
        cases hs
        subst hk
        exact hb₂
      · cases hs
  | none =>
    rw [run_sharedWith_new hn hl] at hs
    obtain ⟨present, r₂, hpr, hs⟩ := run_bind_eq_ok hs
    have hb₂ := Grown.isPresent.knows hpr (newObject k r₁.heap).1 List.mem_cons_self
    split at hs
    · obtain ⟨_, r₃, hf, hs⟩ := run_bind_eq_ok hs
      obtain ⟨c, r₄, hcr, hch⟩ := run_bind_eq_ok hf
      have hb₄ := hc.knows hcr _ hb₂
      cases hs
      cases hch
      have hself : (⟨k, (newObject k r₁.heap).1.index⟩ : SharedRef) = (newObject k r₁.heap).1 :=
        congrArg (SharedRef.mk · (newObject k r₁.heap).1.index) (Heap.kind_newObject k r₁.heap).symm
      exact hself ▸ hb₄
    · cases hs

end Names

/-! ### Values and snapshots -/

/-- Decoders of values and snapshots that name only what is known. -/
structure Naming (n : Nat) : Prop where
  value : ∀ r, Names (nested n).1 r fun K v => v.Confined K
  snapshot : ∀ r, Names (nested n).2 r fun K s => s.frame.Confined K ∧ ∀ c ∈ s.callers, c.Confined K

theorem expands_value : Expands fun K (v : Value) => v.Confined K :=
  fun _ _ _ hK h => h.mono hK

theorem expands_slot : Expands fun K (o : Option Value) => ConfinedSlot K o :=
  fun _ _ _ hK h v hv => (h v hv).mono hK

theorem expands_ref {k : ObjectKind} : Expands fun K (a : Ref k) => K a.shared :=
  fun _ _ _ hK h => hK _ h

theorem expands_binding : Expands fun K (e : String × Value) => e.2.Confined K :=
  fun _ _ _ hK h => h.mono hK

namespace Naming

variable {n : Nat} (hn : Naming n)

include hn

theorem iteration : Names (iteration (nested n).1) r fun K i => i.Alike (Itself K) i := by
  refine .after .word32 fun tag r₁ _ => ?_
  split
  · refine (Names.sequence expands_value hn.value).bind fun vs r₂ _ hvs => ?_
    refine .after .word64 fun i r₃ h₃ => .pure (.items ?_ i)
    exact forall₂_confined.2 fun v hv => (hvs v hv).mono h₃
  · exact .after .text fun s r₂ _ => .after .word64 fun i r₃ _ => .pure (.chars s i)
  · refine .after .integer fun _ r₂ _ => .after .integer fun _ r₃ _ => ?_
    exact .after .integer fun _ r₄ _ => .pure (.range _ _ _)
  · exact .throw _

/-- The frame of a generator names what its record names. -/
theorem restored : Names (do
      match (← (nested n).2).restore with
      | .ok f => pure f
      | .error _ => meaningless) r fun K f => f.capture.Confined K := by
  refine (hn.snapshot r).bind fun s r₁ _ hs => ?_
  split
  · rename_i f hf
    exact .pure (hs.1.restored hf)
  · exact .throw _

theorem contents (k : ObjectKind) :
    Names (contents (nested n).1 (nested n).2 k) r fun K c => c.Confined K := by
  cases k with
  | mapping =>
    refine Names.map (P := fun K es => ∀ e ∈ es, e.2.Confined K)
      (Names.sequence expands_binding fun r => ?_) fun K es hes => ?_
    · exact .after .text fun name r₁ _ => (hn.value r₁).map fun K v hv => hv
    · refine .mapping (List.forall₂_same.2 fun e he => ⟨rfl, ?_⟩)
      obtain ⟨f, hf, hfe⟩ := Namespace.mem_ofList he
      exact hfe ▸ hes f hf
  | cell => exact (Names.optional hn.value).map fun K o ho => .cell (rel_confined ho)
  | iterator => exact hn.iteration.map fun K i hi => .iterator hi
  | generator =>
    refine .after .generatorState fun state r₁ _ => .after .text fun name r₂ _ => ?_
    refine (Names.optional fun r => hn.restored).map fun K o ho => .generator ⟨rfl, rfl, ?_⟩
    cases o with
    | none => exact .none
    | some f => exact .some (ho f rfl)

omit hn in
theorem ref (k : ObjectKind) :
    Names (reference (nested n).1 (nested n).2 k) r fun K a => K a.shared := by
  obtain ⟨hv, hs⟩ := nested_deepens (Nat.le_refl n)
  exact .reference (Deepens.contents hv hs k).grown

omit hn in
theorem refs (k : ObjectKind) :
    Names (sequence (reference (nested n).1 (nested n).2 k)) r fun K as => ∀ a ∈ as, K a.shared :=
  .sequence expands_ref fun _ => ref k

theorem unwinding : Names (unwinding (nested n).1) r fun K u =>
    (Value.suspended u).Confined K := by
  refine .after .word32 fun tag r₁ _ => ?_
  split
  · exact (hn.value r₁).map fun K v hv => .returning hv
  · exact .pure .breaking
  · exact .after .word64 fun t r₂ _ => .pure (.continuing t)
  · exact .after .raised fun e r₂ _ => .pure (.raising e)
  · exact .throw _

theorem recordedLocals : Names (recordedLocals (nested n).1) r fun K l => l.Confined K := by
  refine .after .word32 fun tag r₁ _ => ?_
  split
  · exact (Names.sequence expands_slot fun r => .optional hn.value).map fun K slots hs =>
      .fast (forall₂_confinedSlots hs)
  · rw [← reference_mapping _ (nested n).2]
    exact (ref .mapping).map fun K a ha => .dict ⟨rfl, ha⟩
  · exact .pure .globals
  · exact .throw _

theorem function : Names (function (nested n).1) r fun K f =>
    ∀ i, (Value.function i f).Confined K := by
  refine .after .code fun c r₁ _ => ?_
  rw [← reference_mapping _ (nested n).2, ← reference_cell _ (nested n).2]
  refine (ref .mapping).bind fun g r₂ _ hg => ?_
  refine (Names.sequence expands_value hn.value).bind fun vs r₃ h₃ hvs => ?_
  refine (refs .cell).bind fun cs r₄ h₄ hcs => .pure fun i => ?_
  exact .function i i rfl ⟨rfl, h₄ _ (h₃ _ hg)⟩
    (forall₂_confined.2 fun v hv => (hvs v hv).mono h₄) (forall₂_refs hcs)

theorem valueWith : Names (valueWith (nested n).1 (nested n).2) r fun K v => v.Confined K := by
  refine .after .word32 fun tag r₁ _ => ?_
  split
  · exact .pure .none
  · exact .after .bool fun b r₂ _ => .pure (.bool b)
  · exact .after .integer fun i r₂ _ => .pure (.int _)
  · exact .after .float fun x r₂ _ => .pure (.float x)
  · exact .after .text fun s r₂ _ => .after .newIdentity fun i r₃ _ => .pure (.str i i s)
  · refine (Names.sequence expands_value hn.value).bind fun vs r₂ _ hvs => ?_
    refine .after .newIdentity fun i r₃ h₃ => .pure (.tuple i i ?_)
    exact forall₂_confined.2 fun v hv => (hvs v hv).mono h₃
  · exact .after .exceptionKind fun k r₂ _ => .pure (.exceptionKind k)
  · exact .after .exception fun e r₂ _ => .pure (.exception e)
  · exact hn.function.bind fun f r₂ _ hf => .after .newIdentity fun i r₃ h₃ =>
      .pure ((hf i).mono h₃)
  · exact .after .builtin fun b r₂ _ => .pure (.builtin b)
  · rw [← reference_generator (nested n).1]
    exact (ref .generator).map fun K a ha => .generator ⟨rfl, ha⟩
  · rw [← reference_iterator _ (nested n).2]
    exact (ref .iterator).map fun K a ha => .iterator ⟨rfl, ha⟩
  · rw [← reference_cell _ (nested n).2]
    exact (ref .cell).map fun K a ha => .cell ⟨rfl, ha⟩
  · exact .after .code fun c r₂ _ => .pure (.code rfl)
  · exact hn.unwinding.map fun K u hu => hu
  · exact .throw _

theorem snapshotWith : Names (snapshotWith (nested n).1 (nested n).2) r fun K s =>
    s.frame.Confined K ∧ ∀ c ∈ s.callers, c.Confined K := by
  refine .after .word32 fun version r₁ _ => .after .code fun code r₂ _ => ?_
  refine (Names.optional hn.snapshot).bind fun back r₃ _ hback => ?_
  rw [← reference_mapping _ (nested n).2, ← reference_cell _ (nested n).2]
  refine (ref .mapping).bind fun builtins r₄ h₄ hbuiltins => ?_
  refine (Names.sequence expands_slot fun r => .optional hn.value).bind
    fun stack r₅ h₅ hstack => ?_
  refine .after Deepens.block.sequence fun blocks r₆ h₆ => ?_
  refine .after Deepens.raised.optional fun pending r₇ h₇ => ?_
  refine (ref .mapping).bind fun globals r₈ h₈ hglobals => ?_
  refine .after .integer fun offset r₉ h₉ => .after .bool fun finished r₁₀ h₁₀ => ?_
  refine .after .word32 fun line r₁₁ h₁₁ => ?_
  refine hn.recordedLocals.bind fun locals r₁₂ h₁₂ hlocals => ?_
  refine .after .integer fun lower r₁₃ h₁₃ => .after .integer fun upper r₁₄ h₁₄ => ?_
  refine .after .integer fun previous r₁₅ h₁₅ => (refs .cell).bind fun cells r₁₆ h₁₆ hcells => ?_
  have h₁₂₆ : ∀ b, r₁₂.Knows b → r₁₆.Knows b :=
    fun b hb => h₁₆ b (h₁₅ b (h₁₄ b (h₁₃ b hb)))
  have h₈₆ : ∀ b, r₈.Knows b → r₁₆.Knows b :=
    fun b hb => h₁₂₆ b (h₁₂ b (h₁₁ b (h₁₀ b (h₉ b hb))))
  have h₅₆ : ∀ b, r₅.Knows b → r₁₆.Knows b :=
    fun b hb => h₈₆ b (h₈ b (h₇ b (h₆ b hb)))
  have h₃₆ : ∀ b, r₃.Knows b → r₁₆.Knows b := fun b hb => h₅₆ b (h₅ b (h₄ b hb))
  have hframe : FrameRecord.Confined r₁₆.Knows
      { version, code, builtins, stack, blocks, pending, globals, lastOffset := offset, finished,
        line, locals, lower, upper, previous, cells } :=
    { version := rfl
      code := rfl
      builtins := ⟨rfl, h₅₆ _ (h₅ _ hbuiltins)⟩
      stack := forall₂_confinedSlots fun o ho v hv => (hstack o ho v hv).mono h₅₆
      blocks := rfl
      pending := rfl
      globals := ⟨rfl, h₈₆ _ hglobals⟩
      lastOffset := rfl
      finished := rfl
      line := rfl
      locals := hlocals.mono h₁₂₆
      lower := rfl
      upper := rfl
      previous := rfl
      cells := forall₂_refs hcells }
  cases back with
  | none => exact .pure ⟨hframe, fun c hm => absurd hm List.not_mem_nil⟩
  | some s =>
    obtain ⟨hf, hc⟩ := hback s rfl
    refine .pure ⟨hframe, fun c hm => ?_⟩
    rcases List.mem_cons.1 hm with rfl | hm
    · exact hf.mono h₃₆
    · exact (hc c hm).mono h₃₆

end Naming

theorem naming_nested (n : Nat) : Naming n := by
  induction n with
  | zero => exact ⟨fun _ => .throw _, fun _ => .throw _⟩
  | succ n ih => exact ⟨fun _ => ih.valueWith, fun _ => ih.snapshotWith⟩

end Decoder

end Resumable
