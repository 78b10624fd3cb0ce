import Mathlib.Data.List.Forall2
import Mathlib.Data.List.Perm.Basic
import Resumable.Proofs.Encoding.Parts

/-!
# Isomorphic snapshots

Two snapshots over two heaps are isomorphic if their mutable objects correspond one to one, and the
plain data around and inside them is the same.  Identities of immutable data are left out of
account, and generators are compared as they are recorded.

* `Value.Alike`, `FrameRecord.Alike`, `Contents.Alike` : sameness up to a correspondence of objects;
* `Heap.Matching` : a correspondence between existing objects that is one to one and relates objects
  with the same contents;
* `Heap.Isomorphic` : snapshots that are the same up to a matching.
-/

theorem List.Forall₂.of_mem {α β : Type} {R S : α → β → Prop} {as : List α} {bs : List β}
    (h : List.Forall₂ R as bs) (hs : ∀ a ∈ as, ∀ b, R a b → S a b) : List.Forall₂ S as bs := by
  induction h with
  | nil => exact .nil
  | cons hab _ ih =>
    refine .cons (hs _ List.mem_cons_self _ hab) (ih fun a ha => hs a (List.mem_cons_of_mem _ ha))

theorem Option.Rel.imp {α β : Type} {R S : α → β → Prop} {a : Option α} {b : Option β}
    (h : Option.Rel R a b) (hs : ∀ a b, R a b → S a b) : Option.Rel S a b := by
  cases h with
  | some h => exact .some (hs _ _ h)
  | none => exact .none

namespace Resumable

/-- Which objects of one heap stand for which objects of another. -/
abbrev Correspondence := SharedRef → SharedRef → Prop

/-- Names of the same kind whose objects correspond. -/
def Ref.Alike (ρ : Correspondence) {k : ObjectKind} (r s : Ref k) : Prop := ρ r.shared s.shared

theorem Ref.shared_injective {k : ObjectKind} {r s : Ref k} (h : r.shared = s.shared) : r = s := by
  cases r
  cases s
  cases h
  rfl

/-! ### Sameness up to a correspondence -/

/-- Values that are the same up to a correspondence of objects. -/
inductive Value.Alike (ρ : Correspondence) : Value → Value → Prop
  | none : Alike ρ .none .none
  | bool (b : Bool) : Alike ρ (.bool b) (.bool b)
  | int (i : Int64) : Alike ρ (.int i) (.int i)
  | float (x : Binary64) : Alike ρ (.float x) (.float x)
  | str (i j : Identity) (s : String) : Alike ρ (.str i s) (.str j s)
  | tuple (i j : Identity) {vs ws : List Value} (items : List.Forall₂ (Alike ρ) vs ws) :
    Alike ρ (.tuple i vs) (.tuple j ws)
  | exceptionKind (k : ExceptionKind) : Alike ρ (.exceptionKind k) (.exceptionKind k)
  | exception (e : Exception) : Alike ρ (.exception e) (.exception e)
  | function (i j : Identity) {f g : Function} (code : g.code.body.plain = f.code.body.plain)
    (globals : f.globals.Alike ρ g.globals)
    (defaults : List.Forall₂ (Alike ρ) f.defaults g.defaults)
    (closure : List.Forall₂ (Ref.Alike ρ) f.closure g.closure) :
    Alike ρ (.function i f) (.function j g)
  | builtin (b : Builtin) : Alike ρ (.builtin b) (.builtin b)
  | generator {r s : Ref .generator} (h : r.Alike ρ s) : Alike ρ (.generator r) (.generator s)
  | iterator {r s : Ref .iterator} (h : r.Alike ρ s) : Alike ρ (.iterator r) (.iterator s)
  | cell {r s : Ref .cell} (h : r.Alike ρ s) : Alike ρ (.cell r) (.cell s)
  | code {c d : CodeObject} (h : d.body.plain = c.body.plain) : Alike ρ (.code c) (.code d)
  | returning {v w : Value} (h : Alike ρ v w) :
    Alike ρ (.suspended (.returning v)) (.suspended (.returning w))
  | breaking : Alike ρ (.suspended .breaking) (.suspended .breaking)
  | continuing (t : Nat) : Alike ρ (.suspended (.continuing t)) (.suspended (.continuing t))
  | raising (e : Raised) : Alike ρ (.suspended (.raising e)) (.suspended (.raising e))

/-- Namespaces that bind the same names, in the same order, to values that are the same. -/
def Namespace.Alike (ρ : Correspondence) (a b : Namespace) : Prop :=
  List.Forall₂ (fun e f => e.1 = f.1 ∧ e.2.Alike ρ f.2) a.entries b.entries

/-- Iterators that have come equally far in corresponding values. -/
inductive Iteration.Alike (ρ : Correspondence) : Iteration → Iteration → Prop
  | items {vs ws : Array Value} (h : List.Forall₂ (Value.Alike ρ) vs.toList ws.toList) (i : Nat) :
    Alike ρ (.items vs i) (.items ws i)
  | chars (s : String) (i : Nat) : Alike ρ (.chars s i) (.chars s i)
  | range (next stop step : Int64) : Alike ρ (.range next stop step) (.range next stop step)

/-- Locals of one form that hold corresponding values. -/
inductive RecordedLocals.Alike (ρ : Correspondence) : RecordedLocals → RecordedLocals → Prop
  | fast {as bs : List (Option Value)} (h : List.Forall₂ (Option.Rel (Value.Alike ρ)) as bs) :
    Alike ρ (.fast as) (.fast bs)
  | dict {r s : Ref .mapping} (h : r.Alike ρ s) : Alike ρ (.dict r) (.dict s)
  | globals : Alike ρ .globals .globals

/-- Records that are the same in every field. -/
structure FrameRecord.Alike (ρ : Correspondence) (a b : FrameRecord) : Prop where
  version : b.version = a.version
  code : b.code.body.plain = a.code.body.plain
  builtins : a.builtins.Alike ρ b.builtins
  stack : List.Forall₂ (Option.Rel (Value.Alike ρ)) a.stack b.stack
  blocks : b.blocks = a.blocks
  pending : b.pending = a.pending
  globals : a.globals.Alike ρ b.globals
  lastOffset : b.lastOffset = a.lastOffset
  finished : b.finished = a.finished
  line : b.line = a.line
  locals : a.locals.Alike ρ b.locals
  lower : b.lower = a.lower
  upper : b.upper = a.upper
  previous : b.previous = a.previous
  cells : List.Forall₂ (Ref.Alike ρ) a.cells b.cells

/-- Generators whose frames are recorded alike. -/
structure Generator.Alike (ρ : Correspondence) (a b : Generator) : Prop where
  state : b.state = a.state
  name : b.name = a.name
  frame : Option.Rel (fun f g => f.capture.Alike ρ g.capture) a.frame b.frame

/-! ### Objects and what they hold -/

/-- What a mutable object holds. -/
inductive Contents where
  | mapping (ns : Namespace)
  | cell (v : Option Value)
  | iterator (i : Iteration)
  | generator (g : Generator)

/-- Objects of one kind whose contents correspond. -/
inductive Contents.Alike (ρ : Correspondence) : Contents → Contents → Prop
  | mapping {a b : Namespace} (h : a.Alike ρ b) : Alike ρ (.mapping a) (.mapping b)
  | cell {v w : Option Value} (h : Option.Rel (Value.Alike ρ) v w) : Alike ρ (.cell v) (.cell w)
  | iterator {i j : Iteration} (h : i.Alike ρ j) : Alike ρ (.iterator i) (.iterator j)
  | generator {g k : Generator} (h : g.Alike ρ k) : Alike ρ (.generator g) (.generator k)

/-- The data of what an object holds. -/
def Contents.datum (shared : SharedRef → Encoder Datum) : Contents → Encoder Datum
  | .mapping ns => ns.datum shared
  | .cell v => Encoder.optional (Value.datum shared) v
  | .iterator i => i.datum shared
  | .generator g => g.datum shared

namespace Heap

/-- What an object holds. -/
def contents (h : Heap) (r : SharedRef) : Contents :=
  match r.kind with
  | .mapping => .mapping (h.namespaceAt ⟨r.index⟩)
  | .cell => .cell (h.cellAt ⟨r.index⟩)
  | .iterator => .iterator (h.iteratorAt ⟨r.index⟩)
  | .generator => .generator (h.generatorAt ⟨r.index⟩)

/-- How many objects of a kind there are. -/
def count (h : Heap) : ObjectKind → Nat
  | .mapping => h.namespaces.size
  | .cell => h.cells.size
  | .iterator => h.iterators.size
  | .generator => h.generators.size

/-- There is an object of that name. -/
def Has (h : Heap) (r : SharedRef) : Prop := r.index < h.count r.kind

instance (h : Heap) (r : SharedRef) : Decidable (h.Has r) := inferInstanceAs (Decidable (_ < _))

theorem contentsDatum_eq (h : Heap) (shared : SharedRef → Encoder Datum) (r : SharedRef) :
    h.contentsDatum shared r = (h.contents r).datum shared := by
  unfold contentsDatum contents
  cases r.kind <;> rfl

/-- Every name of an object, kind by kind. -/
def names (h : Heap) : List SharedRef :=
  [ObjectKind.mapping, .cell, .iterator, .generator].flatMap fun k =>
    (List.range (h.count k)).map fun i => ⟨k, i⟩

theorem length_names (h : Heap) : h.names.length = h.size := by
  simp [names, size, count, Nat.add_assoc]

theorem mem_names {h : Heap} {r : SharedRef} : r ∈ h.names ↔ h.Has r := by
  obtain ⟨k, i⟩ := r
  simp only [names, List.mem_flatMap, List.mem_map, List.mem_range, Has]
  constructor
  · rintro ⟨k', -, i', hi, he⟩
    cases he
    exact hi
  · intro hi
    exact ⟨k, by cases k <;> simp, i, hi, rfl⟩

/-- Different objects are no more than there are. -/
theorem length_le_size {h : Heap} {rs : List SharedRef} (hn : rs.Nodup)
    (hr : ∀ r ∈ rs, h.Has r) : rs.length ≤ h.size := by
  rw [← length_names]
  exact (List.subperm_of_subset hn fun r hm => mem_names.2 (hr r hm)).length_le

/-- A correspondence between objects of two heaps that is one to one and relates objects with the
same contents. -/
structure Matching (h g : Heap) (ρ : Correspondence) : Prop where
  held : ∀ {a b}, ρ a b → h.Has a ∧ g.Has b
  injective : ∀ {a b a' b'}, ρ a b → ρ a' b' → (a = a' ↔ b = b')
  contents : ∀ {a b}, ρ a b → (h.contents a).Alike ρ (g.contents b)

/-- Snapshots, each over a heap of its own, that are the same up to a matching of their objects. -/
def Isomorphic (h : Heap) (s : Snapshot) (g : Heap) (t : Snapshot) : Prop :=
  ∃ ρ, h.Matching g ρ ∧ List.Forall₂ (FrameRecord.Alike ρ) s.records t.records

end Heap

/-! ### Induction on values -/

/-- The values directly inside a value. -/
def Value.parts : Value → List Value
  | .tuple _ vs => vs
  | .function _ f => f.defaults
  | .suspended (.returning v) => [v]
  | _ => []

theorem Value.sizeOf_lt_of_mem_parts {v w : Value} (h : w ∈ v.parts) : sizeOf w < sizeOf v := by
  unfold Value.parts at h
  split at h
  · have hs := List.sizeOf_lt_of_mem h
    simp only [Value.tuple.sizeOf_spec]
    omega
  · rename_i f
    obtain ⟨c, g, ds, cl⟩ := f
    have hs : sizeOf w < sizeOf ds := List.sizeOf_lt_of_mem h
    simp only [Value.function.sizeOf_spec, FunctionOf.mk.sizeOf_spec]
    omega
  · rw [List.mem_singleton.1 h]
    simp only [Value.suspended.sizeOf_spec, Unwind.returning.sizeOf_spec]
    omega
  · cases h

/-- What holds of a value if it holds of the values directly inside it holds of all values. -/
theorem Value.induction {motive : Value → Prop}
    (step : ∀ v, (∀ w ∈ v.parts, motive w) → motive v) (v : Value) : motive v :=
  step v fun w _ => Value.induction step w
  termination_by sizeOf v
  decreasing_by exact Value.sizeOf_lt_of_mem_parts ‹w ∈ v.parts›

/-! ### Larger correspondences -/

section

variable {ρ σ : Correspondence} (hρ : ∀ a b, ρ a b → σ a b)

include hρ

theorem Ref.Alike.mono {k : ObjectKind} {r s : Ref k} (h : r.Alike ρ s) : r.Alike σ s :=
  hρ _ _ h

theorem Value.Alike.mono {v w : Value} (h : v.Alike ρ w) : v.Alike σ w := by
  induction v using Value.induction generalizing w with
  | step v ih =>
    cases h with
    | tuple i j items => exact .tuple i j (items.of_mem fun a ha b => ih a ha)
    | function i j code globals defaults closure =>
      refine .function i j code (globals.mono hρ) (defaults.of_mem fun a ha b => ih a ha) ?_
      exact closure.imp fun _ _ => Ref.Alike.mono hρ
    | generator h => exact .generator (h.mono hρ)
    | iterator h => exact .iterator (h.mono hρ)
    | cell h => exact .cell (h.mono hρ)
    | returning h => exact .returning (ih _ List.mem_cons_self h)
    | none => exact .none
    | bool b => exact .bool b
    | int i => exact .int i
    | float x => exact .float x
    | str i j s => exact .str i j s
    | exceptionKind k => exact .exceptionKind k
    | exception e => exact .exception e
    | builtin b => exact .builtin b
    | code h => exact .code h
    | breaking => exact .breaking
    | continuing t => exact .continuing t
    | raising e => exact .raising e

theorem optionalAlike_mono {a b : Option Value} (h : Option.Rel (Value.Alike ρ) a b) :
    Option.Rel (Value.Alike σ) a b :=
  h.imp fun _ _ => Value.Alike.mono hρ

theorem RecordedLocals.Alike.mono {a b : RecordedLocals} (h : a.Alike ρ b) : a.Alike σ b := by
  cases h with
  | fast h => exact .fast (h.imp fun _ _ => optionalAlike_mono hρ)
  | dict h => exact .dict (h.mono hρ)
  | globals => exact .globals

theorem FrameRecord.Alike.mono {a b : FrameRecord} (h : a.Alike ρ b) : a.Alike σ b where
  __ := h
  builtins := h.builtins.mono hρ
  stack := h.stack.imp fun _ _ => optionalAlike_mono hρ
  globals := h.globals.mono hρ
  locals := h.locals.mono hρ
  cells := h.cells.imp fun _ _ => Ref.Alike.mono hρ

theorem Contents.Alike.mono {a b : Contents} (h : a.Alike ρ b) : a.Alike σ b := by
  cases h with
  | mapping h => exact .mapping (h.imp fun _ _ hv => ⟨hv.1, hv.2.mono hρ⟩)
  | cell h => exact .cell (optionalAlike_mono hρ h)
  | iterator h =>
    cases h with
    | items h i => exact .iterator (.items (h.imp fun _ _ => Value.Alike.mono hρ) i)
    | chars s i => exact .iterator (.chars s i)
    | range next stop step => exact .iterator (.range next stop step)
  | generator h =>
    exact .generator ⟨h.state, h.name, h.frame.imp fun _ _ => FrameRecord.Alike.mono hρ⟩

end

end Resumable
