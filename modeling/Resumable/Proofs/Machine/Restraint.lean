import Resumable.Proofs.Machine.Instructions

/-!
# What instructions leave alone

An instruction changes the frame and the heap only so far (`Local.Steady`): it does not finish the
frame, it adds generators that have not started and touches no others, and from iterators it draws
at most.  If its argument lies within the table it indexes, as it does in valid code, then it does
not miss its operand.

`Exec.Steady V c x` says so of a computation `x` on a frame of code `c`, with `V` for the condition
on the argument; `Exec.steady_execute` says it of every instruction.
-/

namespace Resumable

/-- The argument of the instruction lies within the table it indexes, if it indexes one. -/
def Instruction.Indexes (i : Instruction) (c : Code) : Prop :=
  ∀ t, i.opcode.table? = some t → i.arg.toNat < c.tableSize t

/-- The frame runs code `c`, and has as many cells and slots as it. -/
structure Frame.Shaped (c : CodeObject) (f : Frame) : Prop where
  code : f.code = c
  cells : f.cells.length = c.body.cellCount
  slots : ∀ slots, f.locals = .fast slots → slots.length = c.body.varnames.length

/-- What no step of an instruction changes. -/
structure Local.Steady (l l' : Local) : Prop where
  code : l'.frame.code = l.frame.code
  cells : l'.frame.cells = l.frame.cells
  locals : l.frame.locals.SameShape l'.frame.locals
  finished : l'.frame.finished = l.frame.finished
  heap : l.heap.Grows l'.heap

/-- A frame of the same code, with the same cells and locals of the same shape. -/
theorem Frame.Shaped.of_same {c : CodeObject} {f g : Frame} (hf : f.Shaped c)
    (hcode : g.code = f.code) (hcells : g.cells = f.cells)
    (hlocals : f.locals.SameShape g.locals) : g.Shaped c where
  code := hcode.trans hf.code
  cells := by rw [hcells, hf.cells]
  slots slots hg := by
    rw [hg] at hlocals
    cases hl : f.locals with
    | fast slots' =>
      rw [hl] at hlocals
      exact Eq.trans hlocals (hf.slots slots' hl)
    | dict r =>
      rw [hl] at hlocals
      cases hlocals

namespace Frame

theorem handle_finished (f : Frame) (b : Block) (reason : Unwind Value) :
    (f.handle b reason).1.finished = f.finished := by
  unfold handle
  split <;> rfl

theorem unwindThrough_finished (reason : Unwind Value) (bs : List Block) (f : Frame) :
    (unwindThrough reason bs f).1.finished = f.finished := by
  induction bs generalizing f with
  | nil => rfl
  | cons b outer ih =>
    unfold unwindThrough
    split
    · exact handle_finished _ b reason
    · exact ih _

/-- Unwinding does not finish a frame. -/
theorem unwind_finished (f : Frame) (reason : Unwind Value) :
    (f.unwind reason).1.finished = f.finished :=
  unwindThrough_finished reason f.blocks f

theorem leaveBlock_finished (f : Frame) (b : Block) :
    (f.leaveBlock b).2.finished = f.finished := by
  unfold leaveBlock
  dsimp only
  split <;> rfl

end Frame

namespace Local.Steady

variable {c : CodeObject} {l l' l'' : Local}

theorem refl (l : Local) : l.Steady l := ⟨rfl, rfl, .refl _, rfl, .refl _⟩

theorem trans (hl : l.Steady l') (hl' : l'.Steady l'') : l.Steady l'' where
  code := hl'.code.trans hl.code
  cells := hl'.cells.trans hl.cells
  locals := hl.locals.trans hl'.locals
  finished := hl'.finished.trans hl.finished
  heap := hl.heap.trans hl'.heap

theorem shaped (hl : l.Steady l') (hs : l.frame.Shaped c) : l'.frame.Shaped c :=
  hs.of_same hl.code hl.cells hl.locals

theorem ofHeap {h : Heap} (hh : l.heap.Grows h) : l.Steady { l with heap := h } :=
  { refl l with heap := hh }

theorem ofStack (s : OperandStack) : l.Steady { l with frame := { l.frame with stack := s } } :=
  { refl l with }

end Local.Steady

namespace Exec

variable {α β : Type} {V : Prop} {c : CodeObject} {i : Instruction}

/-- The computation keeps what no step of an instruction changes.  If it fails although `V` holds
and the frame has the shape of code `c`, then the frame has not left its code. -/
def Steady (V : Prop) (c : CodeObject) (x : Exec α) : Prop := ∀ l,
  match x.run l with
  | .ok _ l' => l.Steady l'
  | .error e l' => l.Steady l' ∧ (V → l.frame.Shaped c → e.isStray = false)

/-- The rule for steps of any kind, told what the first one returns. -/
theorem Steady.bind_of {W : α → Prop} {x : Exec α} {k : α → Exec β} (hx : Steady V c x)
    (hw : ∀ l a l', x.run l = .ok a l' → W a) (hk : ∀ a, W a → Steady V c (k a)) :
    Steady V c (x >>= k) := by
  intro l
  have h := hx l
  rw [run_bind]
  cases hr : x.run l with
  | error e l' =>
    rw [hr] at h
    exact h
  | ok a l' =>
    rw [hr] at h
    have hk := hk a (hw l a l' hr) l'
    dsimp only
    cases hr' : (k a).run l' with
    | error e l'' =>
      rw [hr'] at hk
      exact ⟨h.trans hk.1, fun hV hs => hk.2 hV (h.shaped hs)⟩
    | ok b l'' =>
      rw [hr'] at hk
      exact h.trans hk

theorem Steady.bind {x : Exec α} {k : α → Exec β} (hx : Steady V c x)
    (hk : ∀ a, Steady V c (k a)) : Steady V c (x >>= k) :=
  hx.bind_of (W := fun _ => True) (fun _ _ _ _ => trivial) fun a _ => hk a

/-! ### Instructions without blocks -/

/-- A computation that moves the stack at most, and fails for its room or its values. -/
theorem steady_stack {x : Exec α}
    (hx : ∀ l, ∃ s, (∃ a, x.run l = .ok a { l with frame := { l.frame with stack := s } }) ∨
      ∃ e : Fault, e.isStray = false ∧
        x.run l = .error (.fatal e) { l with frame := { l.frame with stack := s } }) :
    Steady V c x := by
  intro l
  obtain ⟨s, ⟨a, hr⟩ | ⟨e, he, hr⟩⟩ := hx l
  · rw [hr]
    exact .ofStack s
  · rw [hr]
    exact ⟨.ofStack s, fun _ _ => he⟩

theorem steady_push (v : Value) : Steady V c (push v) := by
  refine steady_stack fun l => ?_
  rw [run_push]
  cases hp : l.frame.stack.push v with
  | ok s => exact ⟨s, .inl ⟨_, rfl⟩⟩
  | error e =>
    obtain ⟨-, rfl⟩ := OperandStack.push_eq_error_iff.1 hp
    exact ⟨l.frame.stack, .inr ⟨_, rfl, rfl⟩⟩

theorem steady_pop : Steady V c pop := by
  refine steady_stack fun l => ?_
  rw [run_pop]
  cases hp : l.frame.stack.pop with
  | ok r => exact ⟨r.2, .inl ⟨_, rfl⟩⟩
  | error e =>
    rw [OperandStack.pop_eq_error hp]
    exact ⟨l.frame.stack, .inr ⟨_, rfl, rfl⟩⟩

theorem steady_popN (n : Nat) : Steady V c (popN n) := by
  refine steady_stack fun l => ?_
  rw [run_popN]
  cases hp : l.frame.stack.popN n with
  | ok r => exact ⟨r.2, .inl ⟨_, rfl⟩⟩
  | error e =>
    rw [OperandStack.popN_eq_error hp]
    exact ⟨l.frame.stack, .inr ⟨_, rfl, rfl⟩⟩

theorem steady_top : Steady V c top := by
  refine steady_stack fun l => ⟨l.frame.stack, ?_⟩
  rw [run_top]
  cases hp : l.frame.stack.peek 0 with
  | ok v => exact .inl ⟨v, rfl⟩
  | error e =>
    rw [OperandStack.peek_eq_error hp]
    exact .inr ⟨_, rfl, rfl⟩

theorem steady_stackwise {op : OperandStack → Except Fault Unit × OperandStack}
    (hop : ∀ s e, (op s).1 = .error e → e.isStray = false) : Steady V c (stackwise op) := by
  refine steady_stack fun l => ⟨(op l.frame.stack).2, ?_⟩
  rw [run_stackwise]
  cases hr : (op l.frame.stack).1 with
  | ok u => exact .inl ⟨(), rfl⟩
  | error e => exact .inr ⟨e, hop _ e hr, rfl⟩

theorem pushAll_not_stray {s : OperandStack} {vs : List Value} {e : Fault}
    (he : (s.pushAll vs).1 = .error e) : e.isStray = false := by
  rw [(OperandStack.pushAll_eq_error he).1]
  rfl

theorem dupN_not_stray {s : OperandStack} {n : Nat} {e : Fault} (he : (s.dupN n).1 = .error e) :
    e.isStray = false := by
  unfold OperandStack.dupN at he
  split at he
  · exact pushAll_not_stray he
  · rename_i hp
    cases he
    rw [OperandStack.peekN_eq_error hp]
    rfl

/-- A computation that reads, and misses nothing if `V` holds and the frame fits the code. -/
theorem steady_reads {x : Exec α} (hx : ∀ l, (∃ a, x.run l = .ok a l) ∨
    ∃ e, x.run l = .error (.fatal e) l ∧ (V → l.frame.Shaped c → e.isStray = false)) :
    Steady V c x := by
  intro l
  rcases hx l with ⟨a, hr⟩ | ⟨e, hr, he⟩
  · rw [hr]
    exact .refl l
  · rw [hr]
    exact ⟨.refl l, he⟩

theorem steady_localMapping : Steady V c localMapping := by
  refine steady_reads fun l => ?_
  rw [run_localMapping]
  cases l.frame.locals with
  | dict r => exact .inl ⟨r, rfl⟩
  | fast slots => exact .inr ⟨_, rfl, fun _ _ => rfl⟩

theorem steady_constantAt {index : Nat} (hi : V → index < c.body.consts.length) :
    Steady V c (constantAt index) := by
  refine steady_reads fun l => ?_
  rw [run_constantAt]
  cases hn : l.frame.code.body.consts[index]? with
  | some k => exact .inl ⟨k, rfl⟩
  | none =>
    refine .inr ⟨_, rfl, fun hV hs => ?_⟩
    rw [hs.code, List.getElem?_eq_none_iff] at hn
    exact absurd (hi hV) (Nat.not_lt.2 hn)

theorem steady_nameAt {index : Nat} (hi : V → index < c.body.names.length) :
    Steady V c (nameAt index) := by
  refine steady_reads fun l => ?_
  rw [run_nameAt]
  cases hn : l.frame.code.body.names[index]? with
  | some n => exact .inl ⟨n, rfl⟩
  | none =>
    refine .inr ⟨_, rfl, fun hV hs => ?_⟩
    rw [hs.code, List.getElem?_eq_none_iff] at hn
    exact absurd (hi hV) (Nat.not_lt.2 hn)

theorem steady_cellAt {index : Nat} (hi : V → index < c.body.cellCount) :
    Steady V c (cellAt index) := by
  refine steady_reads fun l => ?_
  rw [run_cellAt]
  cases hn : l.frame.cells[index]? with
  | some r => exact .inl ⟨r, rfl⟩
  | none =>
    refine .inr ⟨_, rfl, fun hV hs => ?_⟩
    rw [List.getElem?_eq_none_iff, hs.cells] at hn
    exact absurd (hi hV) (Nat.not_lt.2 hn)

theorem steady_slotsWith {index : Nat} (hi : V → index < c.body.varnames.length) :
    Steady V c (slotsWith index) := by
  refine steady_reads fun l => ?_
  rw [run_slotsWith]
  cases hl : l.frame.locals with
  | dict r => exact .inr ⟨_, rfl, fun _ _ => rfl⟩
  | fast slots =>
    dsimp only
    by_cases hs : index < slots.length
    · rw [if_pos hs]
      exact .inl ⟨slots, rfl⟩
    · rw [if_neg hs]
      refine .inr ⟨_, rfl, fun hV hf => ?_⟩
      rw [hf.slots slots hl] at hs
      exact absurd (hi hV) hs

theorem steady_setSlot {index : Nat} (hi : V → index < c.body.varnames.length) (v : Option Value) :
    Steady V c (setSlot index v) := by
  intro l
  have hr := steady_slotsWith hi l
  rw [run_setSlot]
  rw [run_slotsWith] at hr ⊢
  cases hl : l.frame.locals with
  | dict r =>
    rw [hl] at hr
    exact hr
  | fast slots =>
    rw [hl] at hr
    dsimp only at hr ⊢
    by_cases hs : index < slots.length
    · rw [if_pos hs]
      refine { Local.Steady.refl l with locals := ?_ }
      rw [hl]
      exact List.length_set
    · rw [if_neg hs] at hr ⊢
      exact hr

/-- The triples about what steps keep, from wherever they start. -/
def steadyLogic (current : Option Raised) (i : Instruction) (f : Frame) (c : CodeObject)
    (rise : Int) (needs takes : Nat) : Logic current i f rise needs takes where
  Triple _ _ x _ := Steady (i.Indexes c.body) c x
  pure _ := fun l => .refl l
  bind _ hx hk := hx.bind hk
  fault he := fun l => ⟨.refl l, fun _ _ => he.2.1⟩
  raise _ := fun l => ⟨.refl l, fun _ _ => rfl⟩
  frame _ hk := fun l => hk l.frame l
  transact := by
    intro _ _ m W F k Q hF hk
    refine Steady.bind_of (W := W) (fun l => ?_) (fun _ _ _ => hF.of_run) hk
    have h := hF l.heap
    rw [run_transact]
    cases hr : F l.heap with
    | ok r =>
      rw [hr] at h
      exact .ofHeap h.2
    | error e =>
      rw [hr] at h
      cases e with
      | fatal e => exact ⟨.refl l, fun _ _ => h.2.1⟩
      | raised e => exact ⟨.refl l, fun _ _ => rfl⟩
      | uncatchable e => exact h.elim
  push _ hk := (steady_push _).bind fun _ => hk
  pushReversed _ hk := (steady_stackwise fun _ _ he => pushAll_not_stray he).bind fun _ => hk
  dupTop _ _ hk := (steady_stackwise fun _ _ he => dupN_not_stray he).bind fun _ => hk
  pop _ hk := steady_pop.bind hk
  popN _ hk := (steady_popN _).bind_of (fun _ _ _ => length_of_run_popN) hk
  top _ hk := steady_top.bind hk
  localMapping hk := steady_localMapping.bind hk
  constantAt ht hk := (steady_constantAt fun hV => hV _ ht).bind hk
  nameAt ht hk := (steady_nameAt fun hV => hV _ ht).bind hk
  cellAt ht hk := (steady_cellAt fun hV => hV _ ht).bind hk
  slotsWith ht hk := (steady_slotsWith fun hV => hV _ ht).bind hk
  setSlot ht hk := (steady_setSlot (fun hV => hV _ ht) _).bind fun _ => hk

/-! ### Instructions that use blocks -/

/-- The computation works on the frame alone, does not finish it, and fails with a fault at most. -/
def KeepsHeap (x : Exec α) : Prop := ∀ l,
  match x.run l with
  | .ok _ l' => l'.heap = l.heap ∧ l'.frame.finished = l.frame.finished
  | .error e l' => l'.heap = l.heap ∧ l'.frame.finished = l.frame.finished ∧
      ∃ fault, e = .fatal fault ∧ fault.isStray = false

theorem KeepsHeap.bind {x : Exec α} {k : α → Exec β} (hx : KeepsHeap x)
    (hk : ∀ a, KeepsHeap (k a)) : KeepsHeap (x >>= k) := by
  intro l
  have h := hx l
  rw [run_bind]
  cases hr : x.run l with
  | error e l' =>
    rw [hr] at h
    exact h
  | ok a l' =>
    rw [hr] at h
    have hk := hk a l'
    dsimp only
    cases hr' : (k a).run l' with
    | error e l'' =>
      rw [hr'] at hk
      exact ⟨hk.1.trans h.1, hk.2.1.trans h.2, hk.2.2⟩
    | ok b l'' =>
      rw [hr'] at hk
      exact ⟨hk.1.trans h.1, hk.2.trans h.2⟩

theorem keepsHeap_fault {e : Fault} (he : e.isStray = false) : KeepsHeap (fault e : Exec α) :=
  fun _ => ⟨rfl, rfl, e, rfl, he⟩

theorem keepsHeap_pop : KeepsHeap pop := by
  intro l
  rw [run_pop]
  cases hp : l.frame.stack.pop with
  | ok r => exact ⟨rfl, rfl⟩
  | error e =>
    rw [OperandStack.pop_eq_error hp]
    exact ⟨rfl, rfl, _, rfl, rfl⟩

theorem keepsHeap_popN (n : Nat) : KeepsHeap (popN n) := by
  intro l
  rw [run_popN]
  cases hp : l.frame.stack.popN n with
  | ok r => exact ⟨rfl, rfl⟩
  | error e =>
    rw [OperandStack.popN_eq_error hp]
    exact ⟨rfl, rfl, _, rfl, rfl⟩

theorem keepsHeap_unwind (reason : Unwind Value) : KeepsHeap (unwind reason) := by
  intro l
  rw [run_unwind]
  have hf := l.frame.unwind_finished reason
  cases hu : l.frame.unwind reason with
  | mk g u =>
    obtain ⟨-, hs⟩ := Frame.unwind_spec hu
    rw [hu] at hf
    cases u with
    | handled target => exact ⟨rfl, hf⟩
    | faulted e =>
      obtain ⟨rfl, -⟩ := hs
      exact ⟨rfl, hf, _, rfl, rfl⟩
    | unhandled =>
      cases reason with
      | returning v => exact ⟨rfl, hf⟩
      | raising e => exact ⟨rfl, hf⟩
      | breaking => exact ⟨rfl, hf, _, rfl, rfl⟩
      | continuing target => exact ⟨rfl, hf, _, rfl, rfl⟩

theorem keepsHeap_popBlock (current : Option Raised) (o : Nat) (arg : UInt16) :
    KeepsHeap (execute current ⟨o, .popBlock, arg⟩) := by
  rintro ⟨f, h⟩
  rw [run_popBlock]
  unfold Frame.popBlock
  cases f.blocks with
  | nil => exact ⟨rfl, rfl, _, rfl, rfl⟩
  | cons b outer =>
    have hf := Frame.leaveBlock_finished { f with blocks := outer } b
    obtain ⟨-, -, hl⟩ := Frame.leaveBlock_spec { f with blocks := outer } b
    dsimp only
    cases hq : (Frame.leaveBlock { f with blocks := outer } b).1 with
    | ok u => exact ⟨rfl, hf⟩
    | error e =>
      rw [hq] at hl
      obtain ⟨rfl, -⟩ := hl
      exact ⟨rfl, hf, _, rfl, rfl⟩

theorem keepsHeap_endFinally : KeepsHeap endFinally := by
  refine (keepsHeap_popN 3).bind fun vs => ?_
  split
  · exact fun _ => ⟨rfl, rfl⟩
  · exact keepsHeap_unwind _
  · exact fun _ => ⟨rfl, rfl, _, rfl, rfl⟩
  · exact keepsHeap_fault rfl

theorem keepsHeap_execute (current : Option Raised) (hop : i.opcode.usesBlocks = true) :
    KeepsHeap (execute current i) := by
  obtain ⟨o, op, arg⟩ := i
  cases op <;> first | cases hop; done | skip
  case setupLoop | setupExcept | setupFinally => exact fun _ => ⟨rfl, rfl⟩
  case popBlock => exact keepsHeap_popBlock current o arg
  case endFinally => exact keepsHeap_endFinally
  case breakLoop => exact keepsHeap_unwind _
  case continueLoop => exact keepsHeap_unwind _
  case returnValue => exact keepsHeap_pop.bind fun v => keepsHeap_unwind _

/-! ### All instructions -/

/-- **What instructions leave alone.** -/
theorem steady_execute (current : Option Raised) (i : Instruction) :
    Steady (i.Indexes c.body) c (execute current i) := by
  rintro ⟨f, h⟩
  cases hop : i.opcode.usesBlocks with
  | false =>
    exact (steadyLogic current i f c i.rise i.needs i.takes).execute hop rfl rfl rfl ⟨f, h⟩
  | true =>
    have hk := keepsHeap_execute current hop ⟨f, h⟩
    have kept {l : Local} (ha : f.Akin l.frame) (hh : l.heap = h)
        (hf : l.frame.finished = f.finished) : Local.Steady ⟨f, h⟩ l :=
      ⟨ha.code, ha.cells, ha.locals, hf, by rw [hh]; exact .refl h⟩
    cases hr : (execute current i).run ⟨f, h⟩ with
    | ok flow l =>
      rw [hr] at hk
      exact kept (effect_of_execute hr).akin hk.1 hk.2
    | error e l =>
      rw [hr] at hk
      obtain ⟨hh, hf, fault, rfl, hs⟩ := hk
      exact ⟨kept (damage_of_execute hr).toAkin hh hf, fun _ _ => hs⟩

end Exec

end Resumable
