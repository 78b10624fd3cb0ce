import Mathlib.Data.List.Nodup
import Resumable.Proofs.Snapshot.Dumping

/-!
# Sessions of writing and of reading

The encoder numbers objects as it meets them, the decoder makes an object for each new number.  In
the middle of a snapshot the two have gone through the same list of objects, some of whose contents
are still being read.

* `Value.Writable`, `FrameRecord.Writable`, `Contents.Writable` : what may be written, namely data
  within its bounds that names objects in reach only;
* `Heap.Closed` : the objects in reach exist and hold what may be written;
* `Pairing` : the objects written so far and the objects made for them, with the contents of those
  that are not open;
* `Returned` : what an encoder writes in a session, a decoder reads back in the paired session.
-/

namespace Resumable

/-! ### What may be written -/

section

variable (reach : SharedRef → Prop)

/-- Names of objects in reach, not too many. -/
structure Refs {k : ObjectKind} (rs : List (Ref k)) : Prop where
  length : Long rs.length
  held : ∀ r ∈ rs, reach r.shared

/-- Values within their bounds that name objects in reach. -/
inductive Value.Writable : Value → Prop
  | none : Writable .none
  | bool (b : Bool) : Writable (.bool b)
  | int (i : Int64) : Writable (.int i)
  | float (x : Binary64) : Writable (.float x)
  | str {i : Identity} {s : String} (length : Long s.utf8ByteSize) : Writable (.str i s)
  | tuple {i : Identity} {vs : List Value} (length : Long vs.length)
    (held : ∀ v ∈ vs, Writable v) : Writable (.tuple i vs)
  | exceptionKind (k : ExceptionKind) : Writable (.exceptionKind k)
  | exception {e : Exception} (h : e.Writable) : Writable (.exception e)
  | function {i : Identity} {f : Function} (code : f.code.body.Writable)
    (globals : reach f.globals.shared) (length : Long f.defaults.length)
    (held : ∀ v ∈ f.defaults, Writable v) (closure : Refs reach f.closure) :
    Writable (.function i f)
  | builtin (b : Builtin) : Writable (.builtin b)
  | generator {r : Ref .generator} (h : reach r.shared) : Writable (.generator r)
  | iterator {r : Ref .iterator} (h : reach r.shared) : Writable (.iterator r)
  | cell {r : Ref .cell} (h : reach r.shared) : Writable (.cell r)
  | code {c : CodeObject} (h : c.body.Writable) : Writable (.code c)
  | returning {v : Value} (h : Writable v) : Writable (.suspended (.returning v))
  | breaking : Writable (.suspended .breaking)
  | continuing {t : Nat} (h : Long t) : Writable (.suspended (.continuing t))
  | raising {e : Raised} (h : e.Writable) : Writable (.suspended (.raising e))

/-- Values that may be missing. -/
structure Slots (slots : List (Option Value)) : Prop where
  length : Long slots.length
  held : ∀ slot ∈ slots, ∀ v, slot = some v → v.Writable reach

/-- Locals whose number and values can be written. -/
inductive RecordedLocals.Writable : RecordedLocals → Prop
  | fast {slots : List (Option Value)} (h : Slots reach slots) : Writable (.fast slots)
  | dict {r : Ref .mapping} (h : reach r.shared) : Writable (.dict r)
  | globals : Writable .globals

/-- Records within their bounds that name objects in reach. -/
structure FrameRecord.Writable (r : FrameRecord) : Prop where
  version : r.version < 2 ^ 32
  code : r.code.body.Writable
  builtins : reach r.builtins.shared
  stack : Slots reach r.stack
  blockCount : Long r.blocks.length
  blocks : ∀ b ∈ r.blocks, b.Writable
  pending : ∀ e, r.pending = some e → e.Writable
  globals : reach r.globals.shared
  lastOffset : FitsWord r.lastOffset
  line : r.line < 2 ^ 32
  locals : r.locals.Writable reach
  lower : FitsWord r.lower
  upper : FitsWord r.upper
  previous : FitsWord r.previous
  cells : Refs reach r.cells

/-- Bindings of different names. -/
structure Namespace.Writable (ns : Namespace) : Prop where
  length : Long ns.entries.length
  distinct : ns.keys.Nodup
  names : ∀ e ∈ ns.entries, Long e.1.utf8ByteSize
  held : ∀ e ∈ ns.entries, e.2.Writable reach

/-- An iterator whose values and numbers can be written. -/
inductive Iteration.Writable : Iteration → Prop
  | items {vs : Array Value} {i : Nat} (length : Long vs.toList.length)
    (held : ∀ v ∈ vs.toList, v.Writable reach) (index : Long i) : Writable (.items vs i)
  | chars {s : String} {i : Nat} (length : Long s.utf8ByteSize) (index : Long i) :
    Writable (.chars s i)
  | range (next stop step : Int64) : Writable (.range next stop step)

/-- A generator that is not running and has a frame without a hook, whose record is restored. -/
structure Generator.Writable (g : Generator) : Prop where
  state : g.state ≠ .running
  name : Long g.name.utf8ByteSize
  frame : ∃ f, g.frame = some f
  untraced : ∀ f, g.frame = some f → f.trace.hook = none
  restored : ∀ f, g.frame = some f → ∃ f', f.capture.restore = .ok f'
  record : ∀ f, g.frame = some f → f.capture.Writable reach

/-- An object whose contents can be written. -/
inductive Contents.Writable : Contents → Prop
  | mapping {ns : Namespace} (h : ns.Writable reach) : Writable (.mapping ns)
  | cell {v : Option Value} (h : ∀ w, v = some w → w.Writable reach) : Writable (.cell v)
  | iterator {i : Iteration} (h : i.Writable reach) : Writable (.iterator i)
  | generator {g : Generator} (h : g.Writable reach) : Writable (.generator g)

/-- The objects in reach exist and hold what may be written. -/
structure Heap.Closed (h : Heap) : Prop where
  held : ∀ r, reach r → h.Has r
  contents : ∀ r, reach r → (h.contents r).Writable reach

end

/-! ### Making and filling objects -/

/-- The kind of object that holds such contents. -/
def Contents.kind : Contents → ObjectKind
  | .mapping _ => .mapping
  | .cell _ => .cell
  | .iterator _ => .iterator
  | .generator _ => .generator

namespace Heap

/-- Replaces what an object holds. -/
def put (i : Nat) (c : Contents) (h : Heap) : Heap :=
  match c with
  | .mapping ns => h.setNamespace ⟨i⟩ ns
  | .cell v => h.setCell ⟨i⟩ v
  | .iterator s => h.setIterator ⟨i⟩ s
  | .generator g => h.setGenerator ⟨i⟩ g

variable {h : Heap} {i : Nat} {c : Contents}

theorem has_put {r : SharedRef} : (h.put i c).Has r ↔ h.Has r := by
  have hc : (h.put i c).count = h.count := by
    funext k
    cases c <;> cases k <;> simp [put, count, setNamespace, setCell, setIterator, setGenerator]
  rw [Has, Has, hc]

theorem contents_put_self (hi : h.Has ⟨c.kind, i⟩) :
    (h.put i c).contents ⟨c.kind, i⟩ = c := by
  cases c with
  | mapping ns => exact congrArg Contents.mapping (Store.get_set_self hi ns)
  | cell v => exact congrArg Contents.cell (Store.get_set_self hi v)
  | iterator s => exact congrArg Contents.iterator (Store.get_set_self hi s)
  | generator g => exact congrArg Contents.generator (Store.get_set_self hi g)

theorem contents_put_ne {r : SharedRef} (hr : r ≠ ⟨c.kind, i⟩) :
    (h.put i c).contents r = h.contents r := by
  obtain ⟨k, j⟩ := r
  have hj : k = c.kind → j ≠ i := fun hk hj => hr (by rw [hk, hj])
  cases c with
  | mapping ns =>
    cases k with
    | mapping => exact congrArg Contents.mapping (Store.get_set_ne (hj rfl) ns)
    | _ => rfl
  | cell v =>
    cases k with
    | cell => exact congrArg Contents.cell (Store.get_set_ne (hj rfl) v)
    | _ => rfl
  | iterator s =>
    cases k with
    | iterator => exact congrArg Contents.iterator (Store.get_set_ne (hj rfl) s)
    | _ => rfl
  | generator g =>
    cases k with
    | generator => exact congrArg Contents.generator (Store.get_set_ne (hj rfl) g)
    | _ => rfl

/-- A new object has a new name. -/
theorem not_has_newObject (k : ObjectKind) (h : Heap) : ¬h.Has (Decoder.newObject k h).1 := by
  cases k <;> exact Nat.lt_irrefl _

theorem has_newObject_self (k : ObjectKind) (h : Heap) :
    (Decoder.newObject k h).2.Has (Decoder.newObject k h).1 := by
  cases k <;> simp [Decoder.newObject, Has, Ref.shared, count, newNamespace, newCell, newIterator,
    newGenerator]

theorem kind_newObject (k : ObjectKind) (h : Heap) : (Decoder.newObject k h).1.kind = k := by
  cases k <;> rfl

theorem has_newObject {k : ObjectKind} {r : SharedRef} (hr : h.Has r) :
    (Decoder.newObject k h).2.Has r := by
  obtain ⟨k', j⟩ := r
  cases k <;> cases k' <;>
    simp only [Decoder.newObject, Has, count, newNamespace, newCell, newIterator, newGenerator,
      Store.size_add] at hr ⊢ <;>
    omega

theorem contents_newObject {k : ObjectKind} {r : SharedRef} (hr : h.Has r) :
    (Decoder.newObject k h).2.contents r = h.contents r := by
  obtain ⟨k', j⟩ := r
  cases k with
  | mapping =>
    cases k' with
    | mapping => exact congrArg Contents.mapping (Store.get_add_lt hr _)
    | _ => rfl
  | cell =>
    cases k' with
    | cell => exact congrArg Contents.cell (Store.get_add_lt hr _)
    | _ => rfl
  | iterator =>
    cases k' with
    | iterator => exact congrArg Contents.iterator (Store.get_add_lt hr _)
    | _ => rfl
  | generator =>
    cases k' with
    | generator => exact congrArg Contents.generator (Store.get_add_lt hr _)
    | _ => rfl

end Heap

/-! ### Paired sessions -/

/-- Objects written and the objects made for them, in the order of their numbers. -/
abbrev Pairs := List (SharedRef × SharedRef)

/-- An object corresponds to the one made for it. -/
def Pairs.Paired (pairs : Pairs) : Correspondence := fun a b => (a, b) ∈ pairs

theorem Pairs.Paired.mono {p q : Pairs} (h : p <+: q) {a b : SharedRef} (hp : p.Paired a b) :
    q.Paired a b :=
  h.subset hp

/-- A session of writing objects of `h` and the session of reading them stand at the same point:
they know the same numbers, and what an object holds was read unless it is `opened`. -/
structure Pairing (h : Heap) (fuel : Nat) (opened : List SharedRef) (pairs : Pairs) (r : Reader) :
    Prop where
  fueled : h.Fueled fuel (pairs.map Prod.fst)
  known : ∀ n : Nat, r.known.lookup n = (pairs[n]?).map Prod.snd
  distinct : (pairs.map Prod.snd).Nodup
  made : ∀ p ∈ pairs, r.heap.Has p.2
  kind : ∀ p ∈ pairs, p.2.kind = p.1.kind
  filled : ∀ p ∈ pairs, p.2 ∉ opened → (h.contents p.1).Alike pairs.Paired (r.heap.contents p.2)

namespace Pairing

variable {h : Heap} {fuel : Nat} {opened : List SharedRef} {pairs : Pairs} {r : Reader}

theorem later (hp : Pairing h fuel opened pairs r) {r' : Reader} (hr : r.Later r') :
    Pairing h fuel opened pairs r' := by
  obtain ⟨i, rfl⟩ := hr
  exact ⟨hp.fueled, hp.known, hp.distinct, hp.made, hp.kind, hp.filled⟩

/-- The objects made correspond one to one to the objects written. -/
theorem injective (hp : Pairing h fuel opened pairs r) {a b a' b' : SharedRef}
    (hab : pairs.Paired a b) (hab' : pairs.Paired a' b') : a = a' ↔ b = b' := by
  constructor
  · rintro rfl
    have he := List.inj_on_of_nodup_map hp.fueled.nodup hab hab' rfl
    exact congrArg Prod.snd he
  · rintro rfl
    have he := List.inj_on_of_nodup_map hp.distinct hab hab' rfl
    exact congrArg Prod.fst he

/-- An object met for the first time is made, and is open until its contents are read. -/
theorem meet (hp : Pairing h fuel opened pairs r) {a : SharedRef} (ha : h.Has a)
    (hn : a ∉ pairs.map Prod.fst) : ∃ less, fuel = less + 1 ∧
      Pairing h less ((Decoder.newObject a.kind r.heap).1 :: opened)
        (pairs ++ [(a, (Decoder.newObject a.kind r.heap).1)])
        { r with
          heap := (Decoder.newObject a.kind r.heap).2
          known := (pairs.length, (Decoder.newObject a.kind r.heap).1) :: r.known } := by
  have hb := Heap.not_has_newObject a.kind r.heap
  generalize hbe : (Decoder.newObject a.kind r.heap).1 = b at hb ⊢
  obtain ⟨less, hf, hl⟩ := hp.fueled.meet ha hn
  refine ⟨less, hf, ?_, ?_, ?_, ?_, ?_, ?_⟩
  · rw [List.map_append]
    exact hl
  · intro n
    rw [List.lookup_cons]
    by_cases hn : n = pairs.length
    · simp [hn]
    · rw [beq_false_of_ne hn, hp.known n]
      by_cases hlt : n < pairs.length
      · rw [List.getElem?_append_left hlt]
      · rw [List.getElem?_eq_none (by omega), List.getElem?_eq_none (by simp; omega)]
  · -- the new object is paired with nothing yet
    rw [List.map_append]
    refine List.nodup_append.2 ⟨hp.distinct, List.pairwise_singleton _ _, ?_⟩
    rintro x hx y hy rfl
    obtain ⟨p, hm, rfl⟩ := List.mem_map.1 hx
    rw [List.map_singleton, List.mem_singleton] at hy
    exact hb ((show p.2 = b from hy) ▸ hp.made p hm)
  · intro p hm
    rcases List.mem_append.1 hm with hm | hm
    · exact Heap.has_newObject (hp.made p hm)
    · rw [List.mem_singleton.1 hm, ← hbe]
      exact Heap.has_newObject_self a.kind r.heap
  · intro p hm
    rcases List.mem_append.1 hm with hm | hm
    · exact hp.kind p hm
    · rw [List.mem_singleton.1 hm, ← hbe]
      exact Heap.kind_newObject a.kind r.heap
  · intro p hm ho
    rcases List.mem_append.1 hm with hm | hm
    · have hc := hp.filled p hm fun hm => ho (List.mem_cons_of_mem _ hm)
      rw [Heap.contents_newObject (hp.made p hm)]
      exact hc.mono fun x y hxy => List.mem_append_left _ hxy
    · rw [List.mem_singleton.1 hm] at ho
      exact absurd List.mem_cons_self ho

/-- An object whose contents were read is open no longer. -/
theorem fill {b : SharedRef} (hp : Pairing h fuel (b :: opened) pairs r) {a : SharedRef}
    (hab : pairs.Paired a b) {c : Contents} (hk : c.kind = b.kind)
    (hc : (h.contents a).Alike pairs.Paired c) :
    Pairing h (fuel + 1) opened pairs { r with heap := r.heap.put b.index c } := by
  refine ⟨hp.fueled.more, hp.known, hp.distinct, ?_, hp.kind, ?_⟩
  · intro p hm
    exact Heap.has_put.2 (hp.made p hm)
  · intro p hm ho
    have hb : b = ⟨c.kind, b.index⟩ := by rw [hk]
    by_cases he : p.2 = b
    · have ha : p.1 = a := (hp.injective (show pairs.Paired p.1 p.2 from hm) hab).2 he
      have hs := Heap.contents_put_self (c := c) (hb ▸ hp.made _ hab)
      rw [he, ha]
      exact (congrArg (Contents.Alike pairs.Paired (h.contents a)) (hb ▸ hs)).mpr hc
    · have hn : p.2 ∉ b :: opened := by
        intro hm
        rcases List.mem_cons.1 hm with hm | hm
        · exact he hm
        · exact ho hm
      have hs := Heap.contents_put_ne (h := r.heap) (c := c) (i := b.index) (hb ▸ he)
      rw [hs]
      exact hp.filled p hm hn

end Pairing

/-! ### Returned data -/

/-- Where sessions stand after reading something that is `rel` to what was written. -/
def Pairing.After {α : Type} (h : Heap) (fuel : Nat) (opened : List SharedRef) (pairs : Pairs)
    (met : List SharedRef) (rel : Correspondence → α → Prop) (a : α) (r : Reader) : Prop :=
  ∃ later : Pairs, Pairing h fuel opened later r ∧ later.map Prod.fst = met ∧ pairs <+: later ∧
    rel later.Paired a

/-- What the encoder writes in a session, unless it is longer than `nesting`, the decoder reads back
in the paired session. -/
def Returned {α β : Type} (h : Heap) (fuel : Nat) (opened : List SharedRef) (nesting : Nat)
    (e : Encoder β) (form : β → List UInt8) (d : Decoder α) (rel : Correspondence → α → Prop) :
    Prop :=
  ∀ ⦃pairs r b met⦄, Pairing h fuel opened pairs r → e.run (pairs.map Prod.fst) = (b, met) →
    (form b).length ≤ nesting →
      Decoder.Reads d r (form b) (Pairing.After h fuel opened pairs met rel)

namespace Encoder

variable {α β : Type} {m met : List SharedRef}

/-- The two parts of a run. -/
theorem run_bind {e : Encoder α} {k : α → Encoder β} {b : β} (h : (e >>= k).run m = (b, met)) :
    ∃ a m₁, e.run m = (a, m₁) ∧ (k a).run m₁ = (b, met) :=
  ⟨_, _, rfl, h⟩

theorem run_pure {a b : α} (h : (pure a : Encoder α).run m = (b, met)) : a = b ∧ m = met :=
  Prod.mk.inj h

theorem length_mapM {f : α → Encoder β} {as : List α} {bs : List β}
    (h : (as.mapM f).run m = (bs, met)) : bs.length = as.length := by
  induction as generalizing bs m met with
  | nil =>
    obtain ⟨rfl, -⟩ := run_pure h
    rfl
  | cons a as ih =>
    rw [List.mapM_cons] at h
    obtain ⟨b, m₁, -, h⟩ := run_bind h
    obtain ⟨bs', m₂, hbs, h⟩ := run_bind h
    obtain ⟨rfl, -⟩ := run_pure h
    rw [List.length_cons, List.length_cons, ih hbs]

end Encoder

theorem bytesOfItems_eq_flatMap (ds : List Datum) :
    Datum.bytesOfItems ds = ds.flatMap Datum.bytes := by
  induction ds with
  | nil => rfl
  | cons d ds ih => rw [Datum.bytesOfItems, ih, List.flatMap_cons]

theorem bytesOfEntries_eq_flatMap (es : List (String × Datum)) :
    Datum.bytesOfEntries es = es.flatMap fun e => Binary.text e.1 ++ e.2.bytes := by
  induction es with
  | nil => rfl
  | cons e es ih => rw [Datum.bytesOfEntries, ih, List.flatMap_cons]

namespace Returned

open Decoder (Reads)

variable {α β γ : Type} {h : Heap} {fuel : Nat} {opened : List SharedRef} {nesting : Nat}

/-- Sameness up to a correspondence does not get lost when more objects correspond. -/
def Monotone (rel : γ → Correspondence → α → Prop) : Prop :=
  ∀ x ρ σ a, (∀ a b, ρ a b → σ a b) → rel x ρ a → rel x σ a

variable {f : γ → Encoder β} {form : β → List UInt8} {d : Decoder α}
  {rel : γ → Correspondence → α → Prop}

/-- Items are returned one after the other. -/
theorem items {xs : List γ} (mono : Monotone rel)
    (hx : ∀ x ∈ xs, Returned h fuel opened nesting (f x) form d (rel x)) :
    Returned h fuel opened nesting (xs.mapM f) (fun bs => bs.flatMap form)
      (Decoder.items d xs.length) fun ρ as => List.Forall₂ (fun x a => rel x ρ a) xs as := by
  induction xs with
  | nil =>
    intro pairs r b met hp he _
    obtain ⟨rfl, rfl⟩ := Encoder.run_pure he
    exact .pure ⟨pairs, hp, rfl, List.prefix_rfl, .nil⟩
  | cons x xs ih =>
    intro pairs r bs met hp he hl
    rw [List.mapM_cons] at he
    obtain ⟨b, m₁, hb, he⟩ := Encoder.run_bind he
    obtain ⟨bs', m₂, hbs, he⟩ := Encoder.run_bind he
    obtain ⟨rfl, rfl⟩ := Encoder.run_pure he
    beta_reduce at hl ⊢
    rw [List.flatMap_cons, List.length_append] at hl
    rw [List.flatMap_cons]
    refine (hx x List.mem_cons_self hp hb (by omega)).bind ?_
    rintro a r₁ ⟨q, hq, rfl, hpq, ha⟩
    have hl' : (bs'.flatMap form).length ≤ nesting := by omega
    refine (ih (fun x hm => hx x (List.mem_cons_of_mem _ hm)) hq hbs hl').last ?_
    rintro as r₂ ⟨q', hq', rfl, hqq, has⟩
    refine .pure ⟨q', hq', rfl, hpq.trans hqq, .cons ?_ has⟩
    exact mono _ _ _ _ (fun _ _ => Pairs.Paired.mono hqq) ha

/-- A sequence is returned after its length. -/
theorem sequence {xs : List γ} (mono : Monotone rel) (hn : Long xs.length)
    (hx : ∀ x ∈ xs, Returned h fuel opened nesting (f x) form d (rel x)) :
    Returned h fuel opened nesting (xs.mapM f)
      (fun bs => Binary.varint bs.length ++ bs.flatMap form)
      (Decoder.sequence d) fun ρ as => List.Forall₂ (fun x a => rel x ρ a) xs as := by
  intro pairs r bs met hp he hl
  beta_reduce at hl ⊢
  rw [List.length_append] at hl
  have hl' : (bs.flatMap form).length ≤ nesting := by omega
  rw [Encoder.length_mapM he]
  exact (Decoder.word64_varint hn).bind (items mono hx hp he hl')

theorem data {xs : List γ} {f : γ → Encoder Datum} (mono : Monotone rel) (hn : Long xs.length)
    (hx : ∀ x ∈ xs, Returned h fuel opened nesting (f x) Datum.bytes d (rel x)) :
    Returned h fuel opened nesting (xs.mapM f) (fun ds => (Datum.sequence ds).bytes)
      (Decoder.sequence d) fun ρ as => List.Forall₂ (fun x a => rel x ρ a) xs as := by
  have hs := sequence mono hn hx
  intro pairs r ds met hp he hl
  beta_reduce at hl ⊢
  rw [Datum.bytes, bytesOfItems_eq_flatMap] at hl ⊢
  exact hs hp he hl

/-- What may be missing is returned if it is there. -/
theorem optional {R : γ → Correspondence → α → Prop} {o : Option γ} {f : γ → Encoder Datum}
    (hx : ∀ x, o = some x → Returned h fuel opened nesting (f x) Datum.bytes d (R x)) :
    Returned h fuel opened nesting (Encoder.optional f o) Datum.bytes (Decoder.optional d)
      fun ρ o' => Option.Rel (fun x a => R x ρ a) o o' := by
  intro pairs r b met hp he hl
  cases o with
  | none =>
    obtain ⟨rfl, rfl⟩ := Encoder.run_pure he
    refine (Decoder.optional_absent r).mono ?_
    rintro _ _ ⟨rfl, rfl⟩
    exact ⟨pairs, hp, rfl, List.prefix_rfl, .none⟩
  | some x =>
    obtain ⟨b', m₁, hb, he⟩ := Encoder.run_bind he
    obtain ⟨rfl, rfl⟩ := Encoder.run_pure he
    rw [Datum.bytes, List.length_cons] at hl
    refine (Decoder.optional_present (hx x rfl hp hb (by omega))).mono ?_
    rintro _ r₁ ⟨a, rfl, q, hq, hm, hpq, ha⟩
    exact ⟨q, hq, hm, hpq, .some ha⟩

end Returned

end Resumable
