import Resumable.Bytecode.Validation
import Resumable.Proofs.Machine.Effect

/-!
# A logic of instructions

What is to be shown of every instruction can be shown by walking through all of them once.
`Exec.Logic` is a notion of triple for computations on a frame, with a rule for each of the steps
that instructions consist of, and `Exec.Logic.execute` is the walk: the triple of such a logic that
says what an instruction does.  Instructions that open, close or unwind blocks are left out, since
there is little to walk through in them.

The precondition of a triple is a distance: how many values the stack has more than the frame `f`
that the instruction was given.  The rules for the stack bound how far it rises and falls.
-/

namespace Resumable

/-- The frame without its hook, the line it was last told of, and its caller, which hooks read and
instructions do not. -/
def Frame.bare (f : Frame) : Frame :=
  { f with
    back := none
    trace := { f.trace with hook := none, line := 0 } }

namespace Exec

/-- Whatever the heap: it grows and the result is one of which `V` holds, or the failure is an
ordinary one. -/
def Orderly {α : Type} (V : α → Prop) (F : Heap → Except Failure (α × Heap)) : Prop :=
  ∀ h, match F h with
    | .ok (a, h') => V a ∧ h.Grows h'
    | .error e => e.IsOrdinary

theorem Orderly.of_run {α : Type} {V : α → Prop} {F : Heap → Except Failure (α × Heap)}
    (hF : Orderly V F) {l l' : Local} {a : α} (hr : (transact F).run l = .ok a l') : V a := by
  have h := hF l.heap
  rw [run_transact] at hr
  cases hf : F l.heap with
  | ok r =>
    rw [hf] at h hr
    cases hr
    exact h.1
  | error e =>
    rw [hf] at hr
    cases hr

/-- The instruction raises the exception being handled once more. -/
def Reraises (current : Option Raised) (i : Instruction) (e : Raised) : Prop :=
  i.opcode = .raiseVarargs ∧ i.arg.toNat = 0 ∧ current = some e

/-- A notion of triple for the steps of instruction `i` on frame `f`.  The stack rises by `rise` at
most, values are looked at down to `needs` below the top that it had, and taken down to `takes`. -/
structure Logic (current : Option Raised) (i : Instruction) (f : Frame) (rise : Int)
    (needs takes : Nat) where
  /-- From a frame that has drifted by the given distance, the computation ends as it should. -/
  Triple : Int → {α : Type} → Exec α → (α → Frame → Prop) → Prop
  pure : ∀ {α : Type} {m : Int} {a : α} {Q : α → Frame → Prop},
    (∀ g, f.Drift m g → Q a g) → Triple m (pure a) Q
  bind : ∀ {α β : Type} {m n : Int} {x : Exec α} {k : α → Exec β} {Q : β → Frame → Prop},
    -(takes : Int) ≤ n → Triple m x (fun _ g => f.Drift n g) → (∀ a, Triple n (k a) Q) →
      Triple m (x >>= k) Q
  fault : ∀ {α : Type} {m : Int} {e : Fault} {Q : α → Frame → Prop},
    (Failure.fatal e).IsOrdinary → Triple m (fault e) Q
  raise : ∀ {α : Type} {m : Int} {e : Raised} {Q : α → Frame → Prop},
    e.IsNew ∨ Reraises current i e → Triple m (raise e) Q
  /-- What the frame tells hooks is not used. -/
  frame : ∀ {β : Type} {m : Int} {k : Frame → Exec β} {Q : β → Frame → Prop},
    (∀ g, k g.bare = k g) → (∀ g, Triple m (k g) Q) → Triple m (frame >>= k) Q
  transact : ∀ {α β : Type} {m : Int} {V : α → Prop} {F : Heap → Except Failure (α × Heap)}
    {k : α → Exec β} {Q : β → Frame → Prop},
    Orderly V F → (∀ a, V a → Triple m (k a) Q) → Triple m (transact F >>= k) Q
  push : ∀ {β : Type} {m : Int} {v : Value} {k : Unit → Exec β} {Q : β → Frame → Prop},
    m + 1 ≤ rise → Triple (m + 1) (k ()) Q → Triple m (push v >>= k) Q
  pushReversed : ∀ {β : Type} {m : Int} {vs : List Value} {k : Unit → Exec β}
    {Q : β → Frame → Prop},
    m + vs.length ≤ rise → Triple (m + vs.length) (k ()) Q →
      Triple m (stackwise (fun s => s.pushReversed vs) >>= k) Q
  dupTop : ∀ {β : Type} {m : Int} {k : Unit → Exec β} {Q : β → Frame → Prop},
    -(needs : Int) ≤ m - 1 → m + 1 ≤ rise → Triple (m + 1) (k ()) Q →
      Triple m (stackwise (fun s => s.dupN 1) >>= k) Q
  pop : ∀ {β : Type} {m : Int} {k : Value → Exec β} {Q : β → Frame → Prop},
    -(takes : Int) ≤ m - 1 → (∀ v, Triple (m - 1) (k v) Q) → Triple m (pop >>= k) Q
  popN : ∀ {β : Type} {m : Int} {n : Nat} {k : List Value → Exec β} {Q : β → Frame → Prop},
    -(takes : Int) ≤ m - n → (∀ vs, vs.length = n → Triple (m - n) (k vs) Q) →
      Triple m (popN n >>= k) Q
  top : ∀ {β : Type} {m : Int} {k : Value → Exec β} {Q : β → Frame → Prop},
    -(needs : Int) ≤ m - 1 → (∀ v, Triple m (k v) Q) → Triple m (top >>= k) Q
  localMapping : ∀ {β : Type} {m : Int} {k : Ref .mapping → Exec β} {Q : β → Frame → Prop},
    (∀ r, Triple m (k r) Q) → Triple m (localMapping >>= k) Q
  constantAt : ∀ {β : Type} {m : Int} {k : Const → Exec β} {Q : β → Frame → Prop},
    i.opcode.table? = some .constant → (∀ c, Triple m (k c) Q) →
      Triple m (constantAt i.arg.toNat >>= k) Q
  nameAt : ∀ {β : Type} {m : Int} {k : String → Exec β} {Q : β → Frame → Prop},
    i.opcode.table? = some .name → (∀ s, Triple m (k s) Q) → Triple m (nameAt i.arg.toNat >>= k) Q
  cellAt : ∀ {β : Type} {m : Int} {k : Ref .cell → Exec β} {Q : β → Frame → Prop},
    i.opcode.table? = some .cell → (∀ r, Triple m (k r) Q) → Triple m (cellAt i.arg.toNat >>= k) Q
  slotsWith : ∀ {β : Type} {m : Int} {k : List (Option Value) → Exec β} {Q : β → Frame → Prop},
    i.opcode.table? = some .slot → (∀ slots, Triple m (k slots) Q) →
      Triple m (slotsWith i.arg.toNat >>= k) Q
  setSlot : ∀ {β : Type} {m : Int} {v : Option Value} {k : Unit → Exec β} {Q : β → Frame → Prop},
    i.opcode.table? = some .slot → Triple m (k ()) Q → Triple m (setSlot i.arg.toNat v >>= k) Q

theorem mapM_eq_error {F : Value → Except CodeDefect (Ref .cell)} {d : CodeDefect}
    (hF : ∀ v d', F v = .error d' → d' = d) {vs : List Value} {d' : CodeDefect}
    (h : vs.mapM F = .error d') : d' = d := by
  induction vs with
  | nil => cases h
  | cons v vs ih =>
    rw [List.mapM_cons] at h
    cases hv : F v with
    | error e =>
      rw [hv] at h
      cases h
      exact hF v _ hv
    | ok r =>
      rw [hv] at h
      cases hvs : vs.mapM F with
      | error e =>
        rw [hvs] at h
        cases h
        exact ih hvs
      | ok rs =>
        rw [hvs] at h
        cases h

theorem closureCells_eq_error {v : Value} {d : CodeDefect} (h : closureCells v = .error d) :
    d = .closureNotCells := by
  unfold closureCells at h
  split at h
  · refine mapM_eq_error (fun v d' hv => ?_) h
    split at hv
    · cases hv
    · exact (Except.error.inj hv).symm
  · exact (Except.error.inj h).symm

namespace Logic

variable {α β : Type} {current : Option Raised} {i : Instruction} {f : Frame} {rise m : Int}
  {needs takes : Nat} {Q : β → Frame → Prop}

section Rules

variable (L : Logic current i f rise needs takes)

theorem defect {d : CodeDefect} (hd : (Fault.invalidCode d).isStray = false) :
    L.Triple m (defect d) Q := L.fault (Failure.isOrdinary_defect hd)

theorem code {k : Code → Exec β} (hk : ∀ c, L.Triple m (k c) Q) : L.Triple m (code >>= k) Q :=
  L.frame (k := fun g => k g.code.body) (fun _ => rfl) fun g => hk g.code.body

theorem heap {k : Heap → Exec β} (hk : ∀ h, L.Triple m (k h) Q) : L.Triple m (heap >>= k) Q :=
  L.transact (V := fun _ => True) (F := fun h => .ok (h, h)) (fun h => ⟨trivial, .refl h⟩)
    fun h _ => hk h

/-- A new object, or a change to an old one. -/
theorem update {F : Heap → α × Heap} {k : α → Exec β} (hF : ∀ h : Heap, h.Grows (F h).2)
    (hk : ∀ a, L.Triple m (k a) Q) :
    L.Triple m (Exec.heap >>= fun h => setHeap (F h).2 >>= fun _ => k (F h).1) Q := by
  rw [update_eq]
  exact L.transact (V := fun _ => True) (fun h => ⟨trivial, hF h⟩) fun a _ => hk a

theorem ofFault {x : Except Fault α} {k : α → Exec β}
    (hx : ∀ e, x = .error e → (Failure.fatal e).IsOrdinary) (hk : ∀ a, L.Triple m (k a) Q) :
    L.Triple m (ofFault x >>= k) Q := by
  cases x with
  | ok a => exact hk a
  | error e => exact L.fault (hx e rfl)

theorem ofRaised {x : Except Raised α} {k : α → Exec β} (hx : RaisesNew x)
    (hk : ∀ a, L.Triple m (k a) Q) : L.Triple m (ofRaised x >>= k) Q := by
  cases x with
  | ok a => exact hk a
  | error e => exact L.raise (.inl (hx e rfl))

/-- An operation on values, told what it returns. -/
theorem operate_of {V : α → Prop} {x : Operation α} {k : α → Exec β} (hx : x.Orderly)
    (hv : ∀ h a h', x.run h = .ok (a, h') → V a) (hk : ∀ a, V a → L.Triple m (k a) Q) :
    L.Triple m (operate x >>= k) Q := by
  rw [operate_eq]
  refine L.transact (V := V) (fun h => ?_) hk
  have hxh := hx h
  cases hr : x.run h with
  | ok r =>
    rw [hr] at hxh
    exact ⟨hv h r.1 r.2 hr, hxh⟩
  | error e =>
    rw [hr] at hxh
    exact hxh

theorem operate {x : Operation α} {k : α → Exec β} (hx : x.Orderly)
    (hk : ∀ a, L.Triple m (k a) Q) : L.Triple m (operate x >>= k) Q :=
  L.operate_of (V := fun _ => True) hx (fun _ _ _ _ => trivial) fun a _ => hk a

theorem drop {k : Unit → Exec β} (ht : -(takes : Int) ≤ m - 1) (hk : L.Triple (m - 1) (k ()) Q) :
    L.Triple m (discard Exec.pop >>= k) Q := by
  rw [discard_bind]
  exact L.pop ht fun _ => hk

theorem slot {k : Value → Exec β} (ht : i.opcode.table? = some .slot)
    (hk : ∀ v, L.Triple m (k v) Q) : L.Triple m (slot i.arg.toNat >>= k) Q := by
  rw [Exec.slot, bind_assoc]
  refine L.slotsWith ht fun slots => ?_
  cases (slots[i.arg.toNat]?).join with
  | some v => exact hk v
  | none =>
    rw [bind_assoc]
    exact L.code fun c => L.raise (.inl rfl)

theorem lookup {k : Value → Exec β} (scopes : List (Ref .mapping)) (name : String)
    (hk : ∀ v, L.Triple m (k v) Q) : L.Triple m (lookup scopes name >>= k) Q := by
  rw [Exec.lookup, bind_assoc]
  refine L.heap fun h => ?_
  cases scopes.findSome? fun r => h.lookup? r name with
  | some v => exact hk v
  | none => exact L.raise (.inl rfl)

theorem cellValue {k : Value → Exec β} (ht : i.opcode.table? = some .cell)
    (hk : ∀ v, L.Triple m (k v) Q) : L.Triple m (cellValue i.arg.toNat >>= k) Q := by
  rw [Exec.cellValue, bind_assoc]
  refine L.cellAt ht fun r => ?_
  rw [bind_assoc]
  refine L.heap fun h => ?_
  cases h.cellAt r with
  | some v => exact hk v
  | none =>
    rw [bind_assoc]
    refine L.code fun c => L.raise (.inl ?_)
    split <;> rfl

/-- The frame of a call is not done. -/
theorem frameOfCall {k : Frame → Exec β} (fn : Function) (args : List Value)
    (hk : ∀ g : Frame, g.finished = false → L.Triple m (k g) Q) :
    L.Triple m (frameOfCall fn args >>= k) Q := by
  rw [frameOfCall_eq, bind_assoc]
  refine L.ofRaised (raisesNew_completeArguments fn args) fun args => ?_
  rw [bind_assoc]
  refine L.frame (fun _ => rfl) fun g => ?_
  rw [bind_assoc]
  refine L.transact (V := fun g => g.finished = false) (fun h => ?_) fun callee hc =>
    L.transact (V := fun g => g.finished = false) (fun h => ?_) hk
  · cases he : Frame.create fn.code fn.globals g.builtins fn.closure h with
    | ok r => exact Frame.grows_create he
    | error e =>
      obtain ⟨n, m, rfl⟩ := Frame.create_eq_error he
      exact Failure.isOrdinary_defect rfl
  · cases he : callee.bindArguments args h with
    | ok r =>
      obtain ⟨hf, hg⟩ := Frame.grows_bindArguments he
      exact ⟨hf.trans hc, hg⟩
    | error e =>
      rcases Frame.bindArguments_eq_error he with rfl | ⟨n, m, rfl⟩
      · exact Failure.isOrdinary_defect rfl
      · exact ⟨rfl, rfl, fun h => by cases h⟩

/-- What making a function comes to once the cells of its closure are known. -/
theorem newFunction {n : Nat} (ht : -(takes : Int) ≤ m - n) (hr : m - n + 1 ≤ rise)
    (body : CodeObject) (closure : List (Ref .cell)) :
    L.Triple m (do
      let defaults ← Exec.popN n
      let h ← Exec.heap
      setHeap h.newIdentity.2
      Exec.push (.function h.newIdentity.1 ⟨body, (← Exec.frame).globals, defaults, closure⟩))
      fun _ g => f.Drift (m - n + 1) g := by
  refine L.popN ht fun defaults _ => L.update (F := Heap.newIdentity) (k := fun i => do
    Exec.push (.function i ⟨body, (← Exec.frame).globals, defaults, closure⟩))
    (fun h => .of_stores rfl rfl) fun i => L.frame (fun _ => rfl) fun g => ?_
  rw [← bind_pure (Exec.push _)]
  exact L.push hr <| L.pure fun _ hd => hd

theorem makeFunction {n : Nat} {withClosure : Bool} {k : Unit → Exec β}
    (ht : -(takes : Int) ≤ m - 1 - (if withClosure then 1 else 0) - n)
    (hr : m - 1 - (if withClosure then 1 else 0) - n + 1 ≤ rise)
    (hk : L.Triple (m - 1 - (if withClosure then 1 else 0) - n + 1) (k ()) Q) :
    L.Triple m (makeFunction withClosure n >>= k) Q := by
  refine L.bind (by omega) ?_ fun _ => hk
  cases withClosure with
  | false =>
    simp only [Bool.false_eq_true, if_false, Int.sub_zero] at ht hr ⊢
    refine L.pop (by omega) fun v => ?_
    cases v with
    | code body => exact L.newFunction ht hr body []
    | _ => exact L.defect rfl
  | true =>
    simp only [if_true] at ht hr ⊢
    refine L.pop (by omega) fun v => ?_
    cases v with
    | code body =>
      refine L.pop (by omega) fun v => L.ofFault (fun e he => ?_) fun cells => ?_
      · cases hc : closureCells v with
        | ok cells =>
          rw [hc] at he
          cases he
        | error d =>
          have hd := closureCells_eq_error hc
          rw [hc] at he
          cases he
          rw [hd]
          exact Failure.isOrdinary_defect rfl
      · split
        · exact L.defect rfl
        · exact L.newFunction ht hr body cells
    | _ => exact L.defect rfl

/-! ### Whole instructions -/

theorem next (hop : i.opcode.isPlain = true) (hr : rise = i.opcode.stackEffect i.arg.toNat)
    (hm : m = rise) : L.Triple m (Pure.pure .next) (Effect i f) :=
  L.pure fun _ hd => .plain hop (hr ▸ hm ▸ hd)

theorem pushed (hop : i.opcode.isPlain = true) (hr : rise = i.opcode.stackEffect i.arg.toNat)
    (v : Value) (hm : m + 1 = rise) :
    L.Triple m (Exec.push v >>= fun _ => Pure.pure .next) (Effect i f) :=
  L.push (by omega) <| L.next hop hr hm

/-- The value of a call is pushed at once, or left to the machine. -/
theorem call (hop : i.opcode = .callFunction) (hr : rise = i.opcode.stackEffect i.arg.toNat)
    (hm : m + 1 = rise) (callee : Value) (args : List Value) :
    L.Triple m (call callee args) (Effect i f) := by
  have pushed (v : Value) : L.Triple m (Exec.push v >>= fun _ => Pure.pure .next) (Effect i f) :=
    L.pushed (by rw [hop]; rfl) hr v hm
  cases callee with
  | function _ fn =>
    refine L.frameOfCall fn args fun g hg => ?_
    split
    · exact L.update (fun h => .newGeneratorOf h hg) fun r => pushed _
    · have hm : m = i.opcode.stackEffect i.arg.toNat - 1 := by omega
      exact L.pure fun _ hd => .invoke hop (hm ▸ hd)
  | builtin b => exact L.operate (Operation.orderly_call b args) fun _ => pushed _
  | exceptionKind k => exact L.operate (Operation.orderly_instantiate k args) fun _ => pushed _
  | _ => exact L.raise (.inl rfl)

/-- A loop draws from an iterator, or leaves its generator to the machine. -/
theorem forIter (hop : i.opcode = .forIter) (hr : rise = 1) (hn : needs = 1) (ht : takes = 1) :
    L.Triple 0 (forIter i.target) (Effect i f) := by
  rw [forIter_eq]
  refine L.top (by omega) fun v => ?_
  cases v with
  | iterator r =>
    refine L.transact (V := fun _ => True) (fun h => ?_) fun x _ => ?_
    · have hd := h.draws_nextItem r
      have hg := h.generators_nextItem r
      unfold draw
      generalize h.nextItem r = drawn at hd hg
      obtain ⟨x, h'⟩ := drawn
      cases x with
      | ok x => exact ⟨trivial, .of_generators hg, hd⟩
      | error n => exact ⟨rfl, rfl, fun h => by cases h⟩
    · cases x with
      | some v => exact L.push (by omega) <| L.pure fun _ hd => .draw hop hd
      | none => exact L.drop (by omega) <| L.pure fun _ hd => .drained hop hd
  | generator r => exact L.pure fun _ hd => .advance hop hd
  | _ => exact L.raise (.inl rfl)

/-- Raising a value, which makes a new exception. -/
theorem raiseValue (v : Value) (arg : Option Value) :
    L.Triple m (Exec.operate (v.toRaised arg) >>= fun e => (Exec.raise e : Exec β)) Q :=
  L.operate_of (Operation.orderly_toRaised v arg) (fun _ _ _ => Operation.new_of_toRaised)
    fun _ he => L.raise (.inl he)

theorem raised (hop : i.opcode = .raiseVarargs)
    (ht : takes = if i.arg.toNat ≤ 2 then i.arg.toNat else 0) :
    L.Triple 0 (Exec.raised current i.arg.toNat >>= fun e => (Exec.raise e : Exec β)) Q := by
  unfold Exec.raised
  split
  · rename_i hc
    cases current with
    | none => exact L.raise (.inl rfl)
    | some e => exact L.raise (.inr ⟨hop, hc, rfl⟩)
  · rename_i hc
    rw [hc, if_pos (by decide)] at ht
    rw [bind_assoc]
    exact L.pop (by omega) fun v => L.raiseValue v none
  · rename_i hc
    rw [hc, if_pos (by decide)] at ht
    rw [bind_assoc]
    refine L.pop (by omega) fun arg => ?_
    rw [bind_assoc]
    exact L.pop (by omega) fun kind => L.raiseValue kind (some arg)
  · -- with so many arguments it never comes to raising
    exact L.fault ⟨rfl, rfl, fun h => by cases h⟩

/-- **The walk through all instructions** that use no blocks. -/
theorem execute (hop : i.opcode.usesBlocks = false) (hr : rise = i.rise) (hn : needs = i.needs)
    (ht : takes = i.takes) : L.Triple 0 (execute current i) (Effect i f) := by
  obtain ⟨o, op, arg⟩ := i
  have next {m : Int} (hp : op.isPlain = true) (hr : rise = op.stackEffect arg.toNat)
      (hm : m = rise) : L.Triple m (Pure.pure .next) (Effect ⟨o, op, arg⟩ f) := L.next hp hr hm
  have pushed {m : Int} (hp : op.isPlain = true) (hr : rise = op.stackEffect arg.toNat) (v : Value)
      (hm : m + 1 = rise) :
      L.Triple m (Exec.push v >>= fun _ => Pure.pure .next) (Effect ⟨o, op, arg⟩ f) :=
    L.pushed hp hr v hm
  cases op <;> simp only [Instruction.rise, Opcode.stackEffect] at hr next pushed <;>
    simp only [Instruction.needs, Instruction.takes] at hn ht
  case setupLoop | setupExcept | setupFinally | popBlock | endFinally | breakLoop | continueLoop
      | returnValue => cases hop
  case nop => exact next rfl hr (by omega)
  case popTop => exact L.drop (by omega) <| next rfl hr (by omega)
  case rotTwo =>
    exact L.pop (by omega) fun _ => L.pop (by omega) fun _ => L.push (by omega) <|
      pushed rfl hr _ (by omega)
  case rotThree =>
    exact L.pop (by omega) fun _ => L.pop (by omega) fun _ => L.pop (by omega) fun _ =>
      L.push (by omega) <| L.push (by omega) <| pushed rfl hr _ (by omega)
  case dupTop => exact L.dupTop (by omega) (by omega) <| next rfl hr (by omega)
  case unaryPositive =>
    exact L.pop (by omega) fun v => L.ofRaised (raisesNew_positive v) fun _ =>
      pushed rfl hr _ (by omega)
  case unaryNegative =>
    exact L.pop (by omega) fun v => L.ofRaised (raisesNew_negative v) fun _ =>
      pushed rfl hr _ (by omega)
  case unaryNot => exact L.pop (by omega) fun _ => pushed rfl hr _ (by omega)
  case binaryMultiply | binaryModulo | binaryAdd | binarySubtract | binaryFloorDivide =>
    exact L.pop (by omega) fun b => L.pop (by omega) fun a =>
      L.operate (Operation.orderly_binary _ a b) fun _ => pushed rfl hr _ (by omega)
  case binarySubscr =>
    exact L.pop (by omega) fun index => L.pop (by omega) fun container =>
      L.operate (Operation.orderly_subscript container index) fun _ => pushed rfl hr _ (by omega)
  case compareOp =>
    unfold Exec.execute
    cases Comparison.ofArgument? arg with
    | none => exact L.defect rfl
    | some op =>
      exact L.pop (by omega) fun b => L.pop (by omega) fun a =>
        L.ofRaised (raisesNew_compare op a b) fun _ => pushed rfl hr _ (by omega)
  case getIter =>
    exact L.pop (by omega) fun v => L.operate (Operation.orderly_iter v) fun _ =>
      pushed rfl hr _ (by omega)
  case forIter => exact L.forIter rfl hr hn ht
  case unpackSequence =>
    refine L.pop (by omega) fun v => L.operate_of (Operation.orderly_unpack v _)
      (fun _ _ _ => Operation.length_unpack) fun items hi => ?_
    have hi : items.length = arg.toNat := hi
    exact L.pushReversed (by omega) <| next rfl hr (by omega)
  case buildTuple =>
    exact L.popN (n := arg.toNat) (by omega) fun vs _ =>
      L.operate (Operation.orderly_tuple vs) fun _ => pushed rfl hr _ (by omega)
  case jumpForward => exact L.pure fun _ hd => .jump rfl hd
  case jumpAbsolute => exact L.pure fun _ hd => .jump rfl hd
  case jumpIfFalse =>
    refine L.top (by omega) fun v => L.pure fun _ hd => ?_
    split
    · exact .stay (.inl rfl) hd
    · exact .jump rfl hd
  case jumpIfTrue =>
    refine L.top (by omega) fun v => L.pure fun _ hd => ?_
    split
    · exact .jump rfl hd
    · exact .stay (.inr rfl) hd
  case yieldValue => exact L.pop (by omega) fun v => L.pure fun _ hd => .yields rfl hd
  case loadConst =>
    exact L.constantAt rfl fun c => L.operate (Operation.orderly_constantValue c) fun _ =>
      pushed rfl hr _ (by omega)
  case loadName =>
    exact L.nameAt rfl fun name => L.frame (fun _ => rfl) fun g => L.localMapping fun r =>
      L.lookup _ name fun _ => pushed rfl hr _ (by omega)
  case storeName =>
    exact L.pop (by omega) fun v => L.localMapping fun r => L.nameAt rfl fun name =>
      L.update (F := fun h => ((), h.bindName r name v)) (fun _ => .of_stores rfl rfl) fun _ =>
        next rfl hr (by omega)
  case deleteName =>
    refine L.nameAt rfl fun name => L.localMapping fun r => ?_
    rw [deleteName_eq]
    refine L.transact (V := fun _ => True) (fun h => ?_) fun _ _ => next rfl hr (by omega)
    by_cases hc : (h.namespaceAt r).contains name = true
    · simp only [if_pos hc]
      exact ⟨trivial, .of_stores rfl rfl⟩
    · simp only [if_neg hc]
      exact rfl
  case loadGlobal =>
    exact L.nameAt rfl fun name => L.frame (fun _ => rfl) fun g => L.lookup _ name fun _ =>
      pushed rfl hr _ (by omega)
  case storeGlobal =>
    exact L.pop (by omega) fun v => L.nameAt rfl fun name =>
      L.frame (fun _ => rfl) fun g =>
        L.update (F := fun h => ((), h.bindName g.globals name v)) (fun _ => .of_stores rfl rfl)
          fun _ => next rfl hr (by omega)
  case loadFast => exact L.slot rfl fun _ => pushed rfl hr _ (by omega)
  case storeFast => exact L.pop (by omega) fun _ => L.setSlot rfl <| next rfl hr (by omega)
  case deleteFast =>
    show L.Triple 0 (discard (Exec.slot arg.toNat) >>= fun _ =>
      Exec.setSlot arg.toNat none >>= fun _ => Pure.pure Flow.next) _
    rw [discard_bind]
    exact L.slot rfl fun _ => L.setSlot rfl <| next rfl hr (by omega)
  case loadClosure => exact L.cellAt rfl fun _ => pushed rfl hr _ (by omega)
  case loadDeref => exact L.cellValue rfl fun _ => pushed rfl hr _ (by omega)
  case storeDeref =>
    exact L.pop (by omega) fun v => L.cellAt rfl fun r =>
      L.update (F := fun h => ((), h.setCell r (some v))) (fun _ => .of_stores rfl rfl) fun _ =>
        next rfl hr (by omega)
  case raiseVarargs => exact L.raised rfl ht
  case callFunction =>
    exact L.popN (n := arg.toNat) (by omega) fun args _ => L.pop (by omega) fun callee =>
      L.call rfl hr (by omega) callee args
  case makeFunction =>
    exact L.makeFunction (by simp; omega) (by simp; omega) <| next rfl hr (by simp; omega)
  case makeClosure =>
    exact L.makeFunction (by simp; omega) (by simp; omega) <| next rfl hr (by simp; omega)

end Rules

end Logic

end Exec

end Resumable
