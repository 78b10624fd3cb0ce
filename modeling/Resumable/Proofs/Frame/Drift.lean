import Mathlib
import Resumable.Frame.Unwinding

/-!
# What running changes in a frame

Whatever an instruction does, the frame runs the same code among the same objects, its stack keeps
its capacity, and its locals keep their shape (`Frame.Akin`).  Most instructions change the stack by
a fixed number of values and touch neither the blocks nor the current exception (`Frame.Drift`).

The lemmas about the stack say what an operation that succeeds leaves, and when one fails for want
of room.
-/

namespace Resumable

namespace OperandStack

variable {s t : OperandStack}

theorem ext (hs : s.slots = t.slots) (hc : s.capacity = t.capacity) : s = t := by
  obtain ⟨slots, capacity, depth, hd⟩ := s
  obtain ⟨slots', capacity', depth', hd'⟩ := t
  cases hs
  cases hc
  rw [← hd'] at hd
  cases hd
  rfl

theorem capacity_push {v : Value} (h : s.push v = .ok t) : t.capacity = s.capacity := by
  unfold push at h
  split at h <;> cases h
  rfl

theorem lt_capacity_of_push {v : Value} (h : s.push v = .ok t) : s.depth < s.capacity := by
  unfold push at h
  split at h
  · cases h
  · omega

theorem push_eq_error_iff {v : Value} {e : Fault} :
    s.push v = .error e ↔ s.capacity ≤ s.depth ∧ e = .stackOverflow s.capacity := by
  unfold push
  split
  · rename_i hc
    exact ⟨fun h => ⟨hc, (Except.error.inj h).symm⟩, fun h => by rw [h.2]⟩
  · rename_i hc
    constructor
    · intro h
      cases h
    · intro h
      exact absurd h.1 hc

theorem pop_eq_ok {v : Value} (h : s.pop = .ok (v, t)) :
    s.slots = v :: t.slots ∧ t.capacity = s.capacity ∧ t.depth + 1 = s.depth := by
  unfold pop at h
  split at h
  · cases h
  · rename_i w rest hs
    cases h
    have hd := s.depth_eq
    rw [hs, List.length_cons] at hd
    exact ⟨hs, rfl, by simp only [hd, Nat.add_sub_cancel]⟩

theorem pop_eq_error {e : Fault} (h : s.pop = .error e) : e = .stackUnderflow := by
  unfold pop at h
  split at h <;> cases h
  rfl

theorem popN_eq_ok {n : Nat} {vs : List Value} (h : s.popN n = .ok (vs, t)) :
    vs = (s.slots.take n).reverse ∧ vs.length = n ∧ t.capacity = s.capacity ∧
      t.depth + n = s.depth := by
  unfold popN peekN dropN at h
  by_cases hn : n ≤ s.depth
  · rw [if_pos hn, if_pos hn] at h
    cases h
    have hl : n ≤ s.slots.length := by rw [← s.depth_eq]; exact hn
    refine ⟨rfl, ?_, rfl, ?_⟩
    · rw [List.length_reverse, List.length_take, Nat.min_eq_left hl]
    · simp only [without]
      omega
  · rw [if_neg hn] at h
    cases h

theorem popN_eq_error {n : Nat} {e : Fault} (h : s.popN n = .error e) : e = .stackUnderflow := by
  unfold popN peekN dropN at h
  by_cases hn : n ≤ s.depth
  · rw [if_pos hn, if_pos hn] at h
    cases h
  · rw [if_neg hn] at h
    cases h
    rfl

theorem peek_eq_error {n : Nat} {e : Fault} (h : s.peek n = .error e) : e = .stackUnderflow := by
  unfold peek at h
  split at h <;> cases h
  rfl

theorem peekN_eq_error {n : Nat} {e : Fault} (h : s.peekN n = .error e) : e = .stackUnderflow := by
  unfold peekN at h
  split at h <;> cases h
  rfl

theorem length_peekN {n : Nat} {vs : List Value} (h : s.peekN n = .ok vs) : vs.length = n := by
  unfold peekN at h
  split at h
  · rename_i hn
    cases h
    rw [List.length_reverse, List.length_take, Nat.min_eq_left (by rw [← s.depth_eq]; exact hn)]
  · cases h

/-- Of values pushed one after the other those stay for which there is room. -/
theorem pushAll_spec (s : OperandStack) (vs : List Value) :
    (s.pushAll vs).1 = (if vs.length ≤ s.room then .ok () else .error (.stackOverflow s.capacity)) ∧
      (s.pushAll vs).2.slots = (vs.take s.room).reverse ++ s.slots ∧
      (s.pushAll vs).2.capacity = s.capacity := by
  induction vs generalizing s with
  | nil => exact ⟨rfl, by rw [List.take_nil]; rfl, rfl⟩
  | cons v vs ih =>
    unfold pushAll
    cases hp : s.push v with
    | error e =>
      obtain ⟨hfull, rfl⟩ := push_eq_error_iff.1 hp
      have hr : s.room = 0 := Nat.sub_eq_zero_of_le hfull
      rw [hr]
      exact ⟨rfl, rfl, rfl⟩
    | ok t =>
      have hr : s.room = t.room + 1 := by
        have hl := lt_capacity_of_push hp
        rw [room, room, capacity_push hp, depth_push hp]
        omega
      obtain ⟨hf, hs, hc⟩ := ih t
      dsimp only
      rw [hf, hs, hc, hr, capacity_push hp, slots_push hp, List.length_cons, List.take_succ_cons,
        List.reverse_cons, List.append_assoc]
      refine ⟨?_, rfl, rfl⟩
      simp only [Nat.add_le_add_iff_right]

theorem pushAll_of_le_room {vs : List Value} (h : vs.length ≤ s.room) :
    (s.pushAll vs).1 = .ok () :=
  (s.pushAll_spec vs).1.trans (if_pos h)

theorem pushAll_of_not_le_room {vs : List Value} (h : ¬vs.length ≤ s.room) :
    (s.pushAll vs).1 = .error (.stackOverflow s.capacity) :=
  (s.pushAll_spec vs).1.trans (if_neg h)

theorem slots_pushAll (s : OperandStack) (vs : List Value) :
    (s.pushAll vs).2.slots = (vs.take s.room).reverse ++ s.slots := (s.pushAll_spec vs).2.1

@[simp]
theorem capacity_pushAll (s : OperandStack) (vs : List Value) :
    (s.pushAll vs).2.capacity = s.capacity := (s.pushAll_spec vs).2.2

theorem depth_pushAll (s : OperandStack) (vs : List Value) :
    (s.pushAll vs).2.depth = s.depth + min s.room vs.length := by
  rw [depth_eq, slots_pushAll, List.length_append, List.length_reverse, List.length_take,
    ← s.depth_eq, Nat.add_comm]

/-- A stack only grows as far as its capacity, unless it was deeper before. -/
theorem depth_pushAll_le (vs : List Value) : (s.pushAll vs).2.depth ≤ max s.depth s.capacity := by
  rw [depth_pushAll, room]
  omega

theorem pushAll_eq_ok {vs : List Value} (h : (s.pushAll vs).1 = .ok ()) :
    (s.pushAll vs).2.depth = s.depth + vs.length := by
  by_cases hr : vs.length ≤ s.room
  · rw [depth_pushAll, Nat.min_eq_right hr]
  · rw [pushAll_of_not_le_room hr] at h
    cases h

theorem pushAll_eq_error {vs : List Value} {e : Fault} (h : (s.pushAll vs).1 = .error e) :
    e = .stackOverflow s.capacity ∧ s.capacity < s.depth + vs.length := by
  by_cases hr : vs.length ≤ s.room
  · rw [pushAll_of_le_room hr] at h
    cases h
  · rw [pushAll_of_not_le_room hr] at h
    unfold room at hr
    exact ⟨(Except.error.inj h).symm, by omega⟩

@[simp]
theorem capacity_truncate (d : Nat) : (s.truncate d).capacity = s.capacity := rfl

end OperandStack

/-- Locals of the same shape: as many slots, or the same mapping. -/
def Locals.SameShape : Locals → Locals → Prop
  | .fast a, .fast b => b.length = a.length
  | .dict r, .dict s => s = r
  | _, _ => False

theorem Locals.SameShape.refl (l : Locals) : l.SameShape l := by
  cases l <;> rfl

theorem Locals.SameShape.trans {a b c : Locals} (hab : a.SameShape b) (hbc : b.SameShape c) :
    a.SameShape c := by
  cases a <;> cases b <;> cases c <;> simp_all [SameShape]

namespace Frame

/-- What no instruction changes in a frame: `g` is `f` with other values on its stack and in its
slots, and with other blocks. -/
structure Akin (f g : Frame) : Prop where
  code : g.code = f.code
  globals : g.globals = f.globals
  builtins : g.builtins = f.builtins
  cells : g.cells = f.cells
  locals : f.locals.SameShape g.locals
  trace : g.trace = f.trace
  lastOffset : g.lastOffset = f.lastOffset
  capacity : g.stack.capacity = f.stack.capacity
  fits : f.stack.depth ≤ f.stack.capacity → g.stack.depth ≤ g.stack.capacity

/-- `g` is `f` with `n` more values on its stack, the blocks and the current exception being the
same. -/
structure Drift (f : Frame) (n : Int) (g : Frame) : Prop extends Akin f g where
  blocks : g.blocks = f.blocks
  pending : g.pending = f.pending
  depth : (g.stack.depth : Int) = f.stack.depth + n

variable {f g h : Frame}

theorem Akin.refl (f : Frame) : f.Akin f :=
  ⟨rfl, rfl, rfl, rfl, .refl _, rfl, rfl, rfl, fun hf => hf⟩

theorem Akin.trans (hg : f.Akin g) (hh : g.Akin h) : f.Akin h where
  code := hh.code.trans hg.code
  globals := hh.globals.trans hg.globals
  builtins := hh.builtins.trans hg.builtins
  cells := hh.cells.trans hg.cells
  locals := hg.locals.trans hh.locals
  trace := hh.trace.trans hg.trace
  lastOffset := hh.lastOffset.trans hg.lastOffset
  capacity := hh.capacity.trans hg.capacity
  fits hf := hh.fits (hg.fits hf)

theorem Drift.refl (f : Frame) : f.Drift 0 f := ⟨.refl f, rfl, rfl, by omega⟩

theorem Drift.trans {m n : Int} (hg : f.Drift m g) (hh : g.Drift n h) : f.Drift (m + n) h :=
  ⟨hg.toAkin.trans hh.toAkin, hh.blocks.trans hg.blocks, hh.pending.trans hg.pending, by
    rw [hh.depth, hg.depth, Int.add_assoc]⟩

/-- Another stack of the same capacity. -/
theorem Akin.withStack {s : OperandStack} (hc : s.capacity = f.stack.capacity)
    (hf : f.stack.depth ≤ f.stack.capacity → s.depth ≤ s.capacity) :
    f.Akin { f with stack := s } :=
  { Akin.refl f with capacity := hc, fits := hf }

theorem Drift.withStack {s : OperandStack} {n : Int} (hc : s.capacity = f.stack.capacity)
    (hf : f.stack.depth ≤ f.stack.capacity → s.depth ≤ s.capacity)
    (hd : (s.depth : Int) = f.stack.depth + n) : f.Drift n { f with stack := s } :=
  ⟨.withStack hc hf, rfl, rfl, hd⟩

theorem Drift.pop {v : Value} {s : OperandStack} (h : f.stack.pop = .ok (v, s)) :
    f.Drift (-1) { f with stack := s } := by
  obtain ⟨-, hc, hd⟩ := OperandStack.pop_eq_ok h
  exact .withStack hc (by omega) (by omega)

theorem Drift.popN {n : Nat} {vs : List Value} {s : OperandStack}
    (h : f.stack.popN n = .ok (vs, s)) : f.Drift (-n) { f with stack := s } := by
  obtain ⟨-, -, hc, hd⟩ := OperandStack.popN_eq_ok h
  exact .withStack hc (by omega) (by omega)

theorem Drift.push {v : Value} {s : OperandStack} (h : f.stack.push v = .ok s) :
    f.Drift 1 { f with stack := s } := by
  have hc := OperandStack.capacity_push h
  have hd := OperandStack.depth_push h
  have hl := OperandStack.lt_capacity_of_push h
  exact .withStack hc (by omega) (by omega)

/-- Pushing several values drifts by their number, or stops where the stack is full. -/
theorem akin_pushAll (f : Frame) (vs : List Value) :
    f.Akin { f with stack := (f.stack.pushAll vs).2 } := by
  have hd := f.stack.depth_pushAll_le vs
  have hc := f.stack.capacity_pushAll vs
  exact .withStack hc fun hf => by omega

theorem Drift.pushAll {vs : List Value} (h : (f.stack.pushAll vs).1 = .ok ()) :
    f.Drift vs.length { f with stack := (f.stack.pushAll vs).2 } := by
  have hd := OperandStack.pushAll_eq_ok h
  exact ⟨akin_pushAll f vs, rfl, rfl, by simp only [hd]; omega⟩

theorem akin_cutTo (f : Frame) (b : Block) : f.Akin (f.cutTo b) := by
  refine .withStack rfl fun hf => ?_
  rw [OperandStack.depth_truncate, OperandStack.capacity_truncate]
  omega

theorem Akin.withBlocks (f : Frame) (bs : List Block) : f.Akin { f with blocks := bs } :=
  ⟨rfl, rfl, rfl, rfl, .refl _, rfl, rfl, rfl, fun hf => hf⟩

theorem Akin.withPending (f : Frame) (p : Option Raised) : f.Akin { f with pending := p } :=
  ⟨rfl, rfl, rfl, rfl, .refl _, rfl, rfl, rfl, fun hf => hf⟩

/-! ### Unwinding -/

/-- Where an unwinding that block `b` stopped goes on, with `outer` the blocks around it: a
continued loop stays live, a loop that is left is cut away, and a handler finds three values. -/
inductive Lands (reason : Unwind Value) (b : Block) (outer : List Block) (g : Frame) : Nat → Prop
  | continued {target : Nat} (hr : reason = .continuing target) (hg : g.blocks = b :: outer) :
    Lands reason b outer g target
  | left (hk : b.kind = .loop) (hg : g.blocks = outer) (hd : g.stack.depth ≤ b.depth) :
    Lands reason b outer g b.handler
  | entered (hk : b.kind ≠ .loop) (hg : g.blocks = outer) (hd : g.stack.depth ≤ b.depth + 3) :
    Lands reason b outer g b.handler

/-- How an unwinding through the blocks `bs` can end. -/
def Unwinding (reason : Unwind Value) (bs : List Block) (f g : Frame) : Unwound → Prop
  | .handled target => ∃ b outer, b :: outer <:+ bs ∧ Lands reason b outer g target
  | .unhandled => g.blocks = []
  | .faulted e => e = .stackOverflow f.stack.capacity ∧
      ∃ b ∈ bs, b.kind ≠ .loop ∧ f.stack.capacity < b.depth + 3

theorem length_handlerValues (reason : Unwind Value) : (handlerValues reason).length = 3 := by
  cases reason <;> rfl

theorem startHandler_spec (f : Frame) (b : Block) (reason : Unwind Value) (hk : b.kind ≠ .loop) :
    f.Akin (f.startHandler b reason).1 ∧
      Unwinding reason (b :: f.blocks) f (f.startHandler b reason).1
        (f.startHandler b reason).2 := by
  have hl := length_handlerValues reason
  refine ⟨((akin_cutTo f b).trans (akin_pushAll _ (handlerValues reason))).trans
    (.withPending _ _), ?_⟩
  cases hp : ((f.cutTo b).stack.pushAll (handlerValues reason)).1 with
  | ok u =>
    have hd := OperandStack.pushAll_eq_ok hp
    have hu : (f.startHandler b reason).2 = .handled b.handler := by
      simp only [startHandler, hp]
    rw [hu]
    refine ⟨b, f.blocks, List.suffix_rfl, .entered hk rfl ?_⟩
    have hs : (f.startHandler b reason).1.stack =
      ((f.cutTo b).stack.pushAll (handlerValues reason)).2 := rfl
    rw [hs, hd, hl]
    simp only [cutTo, OperandStack.depth_truncate]
    omega
  | error e =>
    have hd := OperandStack.pushAll_eq_error hp
    have hu : (f.startHandler b reason).2 = .faulted e := by
      simp only [startHandler, hp]
    rw [hu]
    refine ⟨hd.1, b, List.mem_cons_self, hk, ?_⟩
    have hc := hd.2
    simp only [cutTo, OperandStack.depth_truncate, OperandStack.capacity_truncate, hl] at hc
    omega

theorem handle_spec (f : Frame) (b : Block) (reason : Unwind Value) :
    f.Akin (f.handle b reason).1 ∧
      Unwinding reason (b :: f.blocks) f (f.handle b reason).1 (f.handle b reason).2 := by
  by_cases hk : b.kind = .loop
  · have hd : (f.cutTo b).stack.depth ≤ b.depth := by
      simp only [cutTo, OperandStack.depth_truncate]
      omega
    unfold handle
    rw [hk]
    cases reason with
    | continuing target =>
      exact ⟨.withBlocks f _, b, f.blocks, List.suffix_rfl, .continued rfl rfl⟩
    | breaking => exact ⟨akin_cutTo f b, b, f.blocks, List.suffix_rfl, .left hk rfl hd⟩
    | raising e => exact ⟨akin_cutTo f b, b, f.blocks, List.suffix_rfl, .left hk rfl hd⟩
    | returning v => exact ⟨akin_cutTo f b, b, f.blocks, List.suffix_rfl, .left hk rfl hd⟩
  · have he : f.handle b reason = f.startHandler b reason := by
      unfold handle
      split <;> simp_all
    rw [he]
    exact startHandler_spec f b reason hk

theorem Unwinding.cons {reason : Unwind Value} {b : Block} {bs : List Block} {f g h : Frame}
    {u : Unwound} (hc : g.stack.capacity = f.stack.capacity) (hu : Unwinding reason bs g h u) :
    Unwinding reason (b :: bs) f h u := by
  cases u with
  | handled target =>
    obtain ⟨c, outer, hs, hl⟩ := hu
    exact ⟨c, outer, hs.trans (List.suffix_cons b bs), hl⟩
  | unhandled => exact hu
  | faulted e =>
    obtain ⟨he, c, hm, hk, hd⟩ := hu
    exact ⟨by rw [he, hc], c, List.mem_cons_of_mem _ hm, hk, by rw [← hc]; exact hd⟩

/-- Unwinding passes the innermost blocks until one stops it. -/
theorem unwindThrough_spec (reason : Unwind Value) (bs : List Block) (f : Frame) :
    f.Akin (unwindThrough reason bs f).1 ∧
      Unwinding reason bs f (unwindThrough reason bs f).1 (unwindThrough reason bs f).2 := by
  induction bs generalizing f with
  | nil => exact ⟨.withBlocks f [], rfl⟩
  | cons b outer ih =>
    unfold unwindThrough
    have ho := Akin.withBlocks f outer
    split
    · obtain ⟨ha, hu⟩ := handle_spec { f with blocks := outer } b reason
      refine ⟨ho.trans ha, ?_⟩
      -- the frame handled has only `outer` left, so its own blocks are those below `b`
      cases hh : (handle { f with blocks := outer } b reason).2 <;> rw [hh] at hu <;> exact hu
    · obtain ⟨ha, hu⟩ := ih (cutTo { f with blocks := outer } b)
      have hc := ho.trans (akin_cutTo { f with blocks := outer } b)
      exact ⟨hc.trans ha, hu.cons hc.capacity⟩

theorem unwind_spec {reason : Unwind Value} {f g : Frame} {u : Unwound}
    (h : f.unwind reason = (g, u)) : f.Akin g ∧ Unwinding reason f.blocks f g u := by
  have hs := unwindThrough_spec reason f.blocks f
  unfold unwind at h
  rw [h] at hs
  exact hs

/-- What leaving a block does: a `finally` block leaves three values for its handler. -/
theorem leaveBlock_spec (f : Frame) (b : Block) :
    f.Akin (f.leaveBlock b).2 ∧ (f.leaveBlock b).2.blocks = f.blocks ∧
      match (f.leaveBlock b).1 with
      | .ok () =>
        (f.leaveBlock b).2.stack.depth ≤ b.depth + if b.kind = .cleanup then 3 else 0
      | .error e => e = .stackOverflow f.stack.capacity ∧ b.kind = .cleanup ∧
          f.stack.capacity < b.depth + 3 := by
  have ha := akin_cutTo f b
  have hd : (f.cutTo b).stack.depth ≤ b.depth := by
    simp only [cutTo, OperandStack.depth_truncate]
    omega
  unfold leaveBlock
  by_cases hk : b.kind = .cleanup
  · simp only [hk, if_true]
    refine ⟨ha.trans (akin_pushAll _ _), rfl, ?_⟩
    cases hp : ((f.cutTo b).stack.pushAll [.none, .none, .none]).1 with
    | ok u =>
      have hs := OperandStack.pushAll_eq_ok hp
      rw [List.length_cons, List.length_cons, List.length_singleton] at hs
      change (OperandStack.pushAll _ _).2.depth ≤ _
      omega
    | error e =>
      have hs := OperandStack.pushAll_eq_error hp
      refine ⟨hs.1, trivial, ?_⟩
      have hc := hs.2
      rw [List.length_cons, List.length_cons, List.length_singleton] at hc
      simp only [cutTo, OperandStack.capacity_truncate] at hc hd
      omega
  · simp only [hk, if_false]
    exact ⟨ha, rfl, hd⟩

end Frame

end Resumable
