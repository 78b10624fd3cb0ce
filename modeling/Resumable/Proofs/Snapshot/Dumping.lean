import Resumable.Proofs.Snapshot.Isomorphism

/-!
# Isomorphic snapshots are written alike

Writing numbers objects in the order in which they are met and never writes their names, so what is
written depends on a snapshot up to isomorphism only (`Heap.Isomorphic.dump_eq`).

Two encoders are compared by `Encoder.Agree`: run in related sessions they make the same data and
leave related sessions.  The relation, `Heap.Abreast`, says that the objects met on both sides
correspond and that on both sides there is fuel left for all others.
-/

namespace Resumable

namespace Encoder

/-- From related sessions both encoders return the same and leave related sessions. -/
def Agree {α : Type} (rel : List SharedRef → List SharedRef → Prop) (e e' : Encoder α) : Prop :=
  ∀ m m', rel m m' → (e.run m).1 = (e'.run m').1 ∧ rel (e.run m).2 (e'.run m').2

variable {α β γ : Type} {rel : List SharedRef → List SharedRef → Prop}

theorem Agree.pure (a : α) : Agree rel (pure a) (pure a) :=
  fun _ _ hm => ⟨rfl, hm⟩

theorem Agree.bind {e e' : Encoder α} {k k' : α → Encoder β} (h : Agree rel e e')
    (hk : ∀ a, Agree rel (k a) (k' a)) : Agree rel (e >>= k) (e' >>= k') := by
  intro m m' hm
  obtain ⟨ha, hr⟩ := h m m' hm
  change ((k (e.run m).1).run (e.run m).2).1 = ((k' (e'.run m').1).run (e'.run m').2).1 ∧
    rel ((k (e.run m).1).run (e.run m).2).2 ((k' (e'.run m').1).run (e'.run m').2).2
  rw [← ha]
  exact hk _ _ _ hr

theorem Agree.map {e e' : Encoder α} {f : α → β} (h : Agree rel e e') :
    Agree rel (e >>= fun a => Pure.pure (f a)) (e' >>= fun a => Pure.pure (f a)) :=
  h.bind fun _ => .pure _

theorem Agree.mapM {R : α → γ → Prop} {f : α → Encoder β} {f' : γ → Encoder β} {as : List α}
    {cs : List γ} (h : List.Forall₂ R as cs) (hf : ∀ a ∈ as, ∀ c, R a c → Agree rel (f a) (f' c)) :
    Agree rel (as.mapM f) (cs.mapM f') := by
  induction h with
  | nil => exact .pure _
  | cons hac _ ih =>
    rw [List.mapM_cons, List.mapM_cons]
    refine (hf _ List.mem_cons_self _ hac).bind fun b => ?_
    exact (ih fun a ha => hf a (List.mem_cons_of_mem _ ha)).map

theorem Agree.optional {R : α → γ → Prop} {f : α → Encoder Datum} {f' : γ → Encoder Datum}
    {a : Option α} {c : Option γ} (h : Option.Rel R a c)
    (hf : ∀ a c, R a c → Agree rel (f a) (f' c)) :
    Agree rel (Encoder.optional f a) (Encoder.optional f' c) := by
  cases h with
  | some h => exact (hf _ _ h).map
  | none => exact .pure _

end Encoder

open Encoder (Agree)

section

variable {ρ : Correspondence} {rel : List SharedRef → List SharedRef → Prop}
  {shared shared' : SharedRef → Encoder Datum}

theorem Value.data_eq_mapM (vs : List Value) :
    Value.data shared vs = vs.mapM (Value.datum shared) := by
  induction vs with
  | nil => rfl
  | cons v vs ih => rw [Value.data, ih, List.mapM_cons]

variable (hs : ∀ a b, ρ a b → Agree rel (shared a) (shared' b))

include hs

theorem agree_refs {k : ObjectKind} {rs ss : List (Ref k)} (h : List.Forall₂ (Ref.Alike ρ) rs ss) :
    Agree rel (Encoder.all (fun r => shared r.shared) rs)
      (Encoder.all (fun r => shared' r.shared) ss) :=
  .mapM h fun _ _ _ hr => hs _ _ hr

theorem Value.Alike.agree {v w : Value} (h : v.Alike ρ w) :
    Agree rel (v.datum shared) (w.datum shared') := by
  induction v using Value.induction generalizing w with
  | step v ih =>
    cases h with
    | tuple i j items =>
      rw [Value.datum, Value.datum, Value.data_eq_mapM, Value.data_eq_mapM]
      exact (Agree.mapM items fun a ha b => ih a ha).map
    | function i j code globals defaults closure =>
      rw [Value.datum, Value.datum, Value.data_eq_mapM, Value.data_eq_mapM,
        Code.datum_eq_of_plain code]
      refine (hs _ _ globals).bind fun _ => ?_
      refine (Agree.mapM defaults fun a ha b => ih a ha).bind fun _ => ?_
      exact (agree_refs hs closure).map
    | generator h => exact (hs _ _ h).map
    | iterator h => exact (hs _ _ h).map
    | cell h => exact (hs _ _ h).map
    | returning h => exact (ih _ List.mem_cons_self h).map.map
    | code h =>
      rw [Value.datum, Value.datum, Code.datum_eq_of_plain h]
      exact .pure _
    | breaking => exact (Agree.pure _).map
    | continuing t => exact (Agree.pure _).map
    | raising e => exact (Agree.pure _).map
    | _ => exact .pure _

theorem agree_optionals {as bs : List (Option Value)}
    (h : List.Forall₂ (Option.Rel (Value.Alike ρ)) as bs) :
    Agree rel (optionalValues shared as) (optionalValues shared' bs) :=
  (Agree.mapM h fun _ _ _ ho => .optional ho fun _ _ => Value.Alike.agree hs).map

theorem Namespace.Alike.agree {a b : Namespace} (h : a.Alike ρ b) :
    Agree rel (a.datum shared) (b.datum shared') := by
  refine (Agree.mapM h ?_).map
  rintro ⟨name, v⟩ - ⟨_, w⟩ ⟨rfl, hv⟩
  exact (hv.agree hs).map

theorem Iteration.Alike.agree {i j : Iteration} (h : i.Alike ρ j) :
    Agree rel (i.datum shared) (j.datum shared') := by
  cases h with
  | items h n =>
    rw [Iteration.datum, Iteration.datum, Value.data_eq_mapM, Value.data_eq_mapM]
    exact (Agree.mapM h fun _ _ _ => Value.Alike.agree hs).map
  | chars s n => exact .pure _
  | range next stop step => exact .pure _

theorem RecordedLocals.Alike.agree {a b : RecordedLocals} (h : a.Alike ρ b) :
    Agree rel (a.datum shared) (b.datum shared') := by
  cases h with
  | fast h => exact (agree_optionals hs h).map
  | dict h => exact (hs _ _ h).map
  | globals => exact .pure _

theorem FrameRecord.Alike.agree {a b : FrameRecord} (h : a.Alike ρ b) (back : Datum) :
    Agree rel (a.datum shared back) (b.datum shared' back) := by
  unfold FrameRecord.datum
  rw [h.version, Code.datum_eq_of_plain h.code, h.blocks, h.pending, h.lastOffset, h.finished,
    h.line, h.lower, h.upper, h.previous]
  refine (hs _ _ h.builtins).bind fun _ => ?_
  refine (agree_optionals hs h.stack).bind fun _ => ?_
  refine (hs _ _ h.globals).bind fun _ => ?_
  refine (h.locals.agree hs).bind fun _ => ?_
  exact (agree_refs hs h.cells).map

theorem agree_chain {as bs : List FrameRecord} (h : List.Forall₂ (FrameRecord.Alike ρ) as bs) :
    Agree rel (FrameRecord.chainDatum shared as) (FrameRecord.chainDatum shared' bs) := by
  induction h with
  | nil => exact .pure _
  | cons h _ ih => exact ih.bind fun back => (h.agree hs back).map

theorem agree_snapshot {s t : Snapshot}
    (h : List.Forall₂ (FrameRecord.Alike ρ) s.records t.records) :
    Agree rel (s.datumWith shared) (t.datumWith shared') := by
  obtain ⟨f, callers⟩ := s
  obtain ⟨f', callers'⟩ := t
  cases h with
  | cons hf hc => exact (agree_chain hs hc).bind (hf.agree hs)

theorem Contents.Alike.agree {a b : Contents} (h : a.Alike ρ b) :
    Agree rel (a.datum shared) (b.datum shared') := by
  cases h with
  | mapping h => exact h.agree hs
  | cell h => exact .optional h fun _ _ => Value.Alike.agree hs
  | iterator h => exact h.agree hs
  | generator h =>
    simp only [Contents.datum, Generator.datum, h.state, h.name]
    refine (Agree.optional h.frame fun f g hf => ?_).map
    exact agree_snapshot hs (.cons hf .nil)

end

namespace Heap

variable {h g : Heap} {ρ : Correspondence} {m m' : List SharedRef}

/-! ### What is written for an object -/

/-- An object met before is written as its number. -/
theorem sharedDatum_of_met {fuel i : Nat} {r : SharedRef} (hi : m.idxOf? r = some i) :
    (h.sharedDatum fuel r).run m = (.tuple [.natural i, .absent], m) := by
  unfold sharedDatum
  simp only [StateT.run, bind, StateT.bind, get, getThe, MonadStateOf.get, StateT.get, pure, hi]
  rfl

/-- An object met for the first time is written with its contents. -/
theorem sharedDatum_of_new {fuel : Nat} {r : SharedRef} (hi : m.idxOf? r = none) :
    (h.sharedDatum (fuel + 1) r).run m =
      (.tuple [.natural m.length,
          .present (((h.contents r).datum (h.sharedDatum fuel)).run (m ++ [r])).1],
        (((h.contents r).datum (h.sharedDatum fuel)).run (m ++ [r])).2) := by
  rw [← contentsDatum_eq]
  unfold sharedDatum
  simp only [StateT.run, bind, StateT.bind, get, getThe, MonadStateOf.get, StateT.get, pure, hi]
  rfl

theorem idxOf?_eq_of_forall₂ (M : h.Matching g ρ) {r r' : SharedRef} (hr : ρ r r')
    (hm : List.Forall₂ ρ m m') : m.idxOf? r = m'.idxOf? r' := by
  induction hm with
  | nil => rfl
  | @cons a b _ _ hab _ ih =>
    have he : (a == r) = (b == r') := by
      rw [Bool.eq_iff_iff, beq_iff_eq, beq_iff_eq]
      exact M.injective hab hr
    rw [List.idxOf?_cons, List.idxOf?_cons, he, ih]

/-- A session has met different objects of the heap, and has fuel for all others. -/
structure Fueled (h : Heap) (fuel : Nat) (met : List SharedRef) : Prop where
  nodup : met.Nodup
  held : ∀ r ∈ met, h.Has r
  fuel : h.size < fuel + met.length

/-- An object of the heap that was not met yet leaves fuel for the others. -/
theorem Fueled.meet {fuel : Nat} (hm : h.Fueled fuel m) {r : SharedRef} (hr : h.Has r)
    (hn : r ∉ m) : ∃ less, fuel = less + 1 ∧ h.Fueled less (m ++ [r]) := by
  have hd : (m ++ [r]).Nodup :=
    List.nodup_append.2 ⟨hm.nodup, List.pairwise_singleton _ r, by
      rintro a ha b hb rfl
      exact hn (List.mem_singleton.1 hb ▸ ha)⟩
  have hh : ∀ a ∈ m ++ [r], h.Has a := by
    intro a ha
    rcases List.mem_append.1 ha with ha | ha
    · exact hm.held a ha
    · exact List.mem_singleton.1 ha ▸ hr
  have hl := length_le_size hd hh
  have hf := hm.fuel
  rw [List.length_append, List.length_singleton] at hl
  cases fuel with
  | zero => omega
  | succ less => exact ⟨less, rfl, hd, hh, by rw [List.length_append, List.length_singleton]; omega⟩

theorem Fueled.more {fuel : Nat} (hm : h.Fueled fuel m) : h.Fueled (fuel + 1) m where
  nodup := hm.nodup
  held := hm.held
  fuel := by
    have hf := hm.fuel
    omega

/-- The objects met on both sides correspond, and both sides have fuel for all others. -/
structure Abreast (h g : Heap) (ρ : Correspondence) (fuel fuel' : Nat) (m m' : List SharedRef) :
    Prop where
  met : List.Forall₂ ρ m m'
  left : h.Fueled fuel m
  right : g.Fueled fuel' m'

/-- Corresponding objects are written alike.  The induction is on the fuel, of which a new object
takes one. -/
theorem agree_shared (M : h.Matching g ρ) (fuel fuel' : Nat) {r r' : SharedRef} (hr : ρ r r') :
    Agree (h.Abreast g ρ fuel fuel') (h.sharedDatum fuel r) (g.sharedDatum fuel' r') := by
  induction fuel using Nat.strong_induction_on generalizing fuel' r r' with
  | _ fuel ih =>
    intro m m' hm
    have hi := idxOf?_eq_of_forall₂ M hr hm.met
    cases hn : m.idxOf? r with
    | some i =>
      rw [sharedDatum_of_met hn, sharedDatum_of_met (hi ▸ hn)]
      exact ⟨rfl, hm⟩
    | none =>
      have hn' : m'.idxOf? r' = none := hi ▸ hn
      obtain ⟨less, rfl, hl⟩ := hm.left.meet (M.held hr).1 (List.idxOf?_eq_none_iff.1 hn)
      obtain ⟨less', rfl, hl'⟩ := hm.right.meet (M.held hr).2 (List.idxOf?_eq_none_iff.1 hn')
      have hm₁ : h.Abreast g ρ less less' (m ++ [r]) (m' ++ [r']) :=
        ⟨List.rel_append hm.met (.cons hr .nil), hl, hl'⟩
      have hc := (M.contents hr).agree fun a b hab => ih less (Nat.lt_succ_self _) less' hab
      obtain ⟨hd, hm₂⟩ := hc _ _ hm₁
      rw [sharedDatum_of_new hn, sharedDatum_of_new hn']
      refine ⟨?_, hm₂.met, hm₂.left.more, hm₂.right.more⟩
      simp only [hm.met.length_eq, hd]

/-- **Isomorphic snapshots are written alike**, each from its own heap. -/
theorem Isomorphic.dump_eq {s t : Snapshot} (hi : h.Isomorphic s g t) : h.dump s = g.dump t := by
  obtain ⟨ρ, M, hr⟩ := hi
  have hf : ∀ h : Heap, h.Fueled (h.size + 1) [] := fun h => ⟨.nil, nofun, Nat.lt_succ_self _⟩
  have hs := agree_snapshot (fun a b hab => agree_shared M (h.size + 1) (g.size + 1) hab) hr
  have hd := (hs [] [] ⟨.nil, hf h, hf g⟩).1
  exact congrArg Datum.bytes hd

end Heap

end Resumable
