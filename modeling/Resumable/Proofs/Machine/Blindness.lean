import Resumable.Proofs.Machine.Logic

/-!
# Instructions do not see hooks

What a frame's hook is, which line it was last told of, and which frame called it, is read by hooks
only.  `Frame.bare` is the frame without them.  An instruction is blind to what is missing there: it
does the same to a frame and to the bare one (`Exec.blind_execute`).
-/

namespace Resumable

namespace Frame

variable {f g : Frame}

/-- Unwinding a bare frame leaves a bare frame. -/
theorem unwind_bare (f : Frame) (reason : Unwind Value) :
    f.bare.unwind reason = ((f.unwind reason).1.bare, (f.unwind reason).2) := by
  have handler (f : Frame) (b : Block) :
      f.bare.startHandler b reason = ((f.startHandler b reason).1.bare, (f.startHandler b reason).2)
      := by
    cases reason <;> rfl
  have handle (f : Frame) (b : Block) :
      f.bare.handle b reason = ((f.handle b reason).1.bare, (f.handle b reason).2) := by
    unfold Frame.handle
    cases b.kind with
    | loop => cases reason <;> rfl
    | except => exact handler f b
    | cleanup => exact handler f b
  have through (bs : List Block) (f : Frame) :
      unwindThrough reason bs f.bare =
        ((unwindThrough reason bs f).1.bare, (unwindThrough reason bs f).2) := by
    induction bs generalizing f with
    | nil => rfl
    | cons b outer ih =>
      unfold unwindThrough
      by_cases hb : b.handles reason = true
      · rw [if_pos hb, if_pos hb]
        exact handle { f with blocks := outer } b
      · rw [if_neg hb, if_neg hb]
        exact ih ({ f with blocks := outer }.cutTo b)
  exact through f.blocks f

theorem leaveBlock_bare (f : Frame) (b : Block) :
    f.bare.leaveBlock b = ((f.leaveBlock b).1, (f.leaveBlock b).2.bare) := by
  unfold leaveBlock
  dsimp only
  split <;> rfl

end Frame

/-- What an instruction works on, with a bare frame. -/
def Local.bare (l : Local) : Local := { l with frame := l.frame.bare }

namespace Exec

variable {α β : Type}

/-- An outcome with a bare frame. -/
def bareOutcome : EStateM.Result Failure Local α → EStateM.Result Failure Local α
  | .ok a l => .ok a l.bare
  | .error e l => .error e l.bare

/-- The computation does the same to a frame and to the bare one. -/
def Blind (x : Exec α) : Prop := ∀ l, bareOutcome (x.run l.bare) = bareOutcome (x.run l)

/-- The rule for steps of any kind, told what the first one returns. -/
theorem Blind.bind_of {W : α → Prop} {x : Exec α} {k : α → Exec β} (hx : Blind x)
    (hw : ∀ l a l', x.run l = .ok a l' → W a) (hk : ∀ a, W a → Blind (k a)) : Blind (x >>= k) := by
  intro l
  have h := hx l
  rw [run_bind, run_bind]
  cases h₁ : x.run l.bare with
  | ok a l₁ =>
    cases h₂ : x.run l with
    | ok b l₂ =>
      rw [h₁, h₂] at h
      obtain ⟨rfl, hl⟩ := EStateM.Result.ok.inj h
      have hk := hk a (hw l a l₂ h₂)
      show bareOutcome ((k a).run l₁) = bareOutcome ((k a).run l₂)
      rw [← hk l₁, hl, hk l₂]
    | error e l₂ =>
      rw [h₁, h₂] at h
      cases h
  | error e l₁ =>
    cases h₂ : x.run l with
    | ok b l₂ =>
      rw [h₁, h₂] at h
      cases h
    | error e' l₂ =>
      rw [h₁, h₂] at h
      obtain ⟨rfl, hl⟩ := EStateM.Result.error.inj h
      exact congrArg (EStateM.Result.error e) hl

theorem Blind.bind {x : Exec α} {k : α → Exec β} (hx : Blind x) (hk : ∀ a, Blind (k a)) :
    Blind (x >>= k) := hx.bind_of (W := fun _ => True) (fun _ _ _ _ => trivial) fun a _ => hk a

/-! ### Instructions without blocks -/

theorem blind_pure (a : α) : Blind (pure a : Exec α) := fun _ => rfl

theorem blind_fault (e : Fault) : Blind (fault e : Exec α) := fun _ => rfl

/-- What goes on with the frame must not read what a bare frame lacks. -/
theorem blind_frame {k : Frame → Exec β} (hb : ∀ f, k f.bare = k f) (hk : ∀ f, Blind (k f)) :
    Blind (frame >>= k) := by
  intro l
  have h : (frame >>= k).run l.bare = (k l.frame.bare).run l.bare := rfl
  rw [h, hb]
  exact hk l.frame l

theorem blind_ofFault (x : Except Fault α) : Blind (ofFault x) := by
  cases x with
  | ok a => exact blind_pure a
  | error e => exact blind_fault e

theorem blind_setStack (s : OperandStack) : Blind (setStack s) := fun _ => rfl

theorem blind_push (v : Value) : Blind (push v) :=
  blind_frame (fun _ => rfl) fun _ => (blind_ofFault _).bind blind_setStack

theorem blind_pop : Blind pop :=
  blind_frame (fun _ => rfl) fun _ => (blind_ofFault _).bind fun _ => (blind_setStack _).bind
    fun _ => blind_pure _

theorem blind_popN (n : Nat) : Blind (popN n) :=
  blind_frame (fun _ => rfl) fun _ => (blind_ofFault _).bind fun _ => (blind_setStack _).bind
    fun _ => blind_pure _

theorem blind_top : Blind top := blind_frame (fun _ => rfl) fun _ => blind_ofFault _

theorem blind_stackwise (op : OperandStack → Except Fault Unit × OperandStack) :
    Blind (stackwise op) :=
  blind_frame (fun _ => rfl) fun _ => (blind_setStack _).bind fun _ => blind_ofFault _

theorem blind_transact (F : Heap → Except Failure (α × Heap)) : Blind (transact F) := by
  intro l
  have hh : l.bare.heap = l.heap := rfl
  rw [run_transact, run_transact, hh]
  cases F l.heap <;> rfl

theorem blind_localMapping : Blind localMapping := by
  intro l
  have hl : l.bare.frame.locals = l.frame.locals := rfl
  rw [run_localMapping, run_localMapping, hl]
  cases l.frame.locals <;> rfl

theorem blind_constantAt (index : Nat) : Blind (constantAt index) := by
  intro l
  have hc : l.bare.frame.code = l.frame.code := rfl
  rw [run_constantAt, run_constantAt, hc]
  cases l.frame.code.body.consts[index]? <;> rfl

theorem blind_nameAt (index : Nat) : Blind (nameAt index) := by
  intro l
  have hc : l.bare.frame.code = l.frame.code := rfl
  rw [run_nameAt, run_nameAt, hc]
  cases l.frame.code.body.names[index]? <;> rfl

theorem blind_cellAt (index : Nat) : Blind (cellAt index) := by
  intro l
  have hc : l.bare.frame.cells = l.frame.cells := rfl
  rw [run_cellAt, run_cellAt, hc]
  cases l.frame.cells[index]? <;> rfl

theorem blind_slotsWith (index : Nat) : Blind (slotsWith index) := by
  refine blind_frame (fun _ => rfl) fun f => ?_
  cases f.locals with
  | dict r => exact blind_fault _
  | fast slots =>
    show Blind (if index < slots.length then pure slots else defect (.slotOutOfRange index))
    split
    · exact blind_pure slots
    · exact blind_fault _

theorem blind_setSlot (index : Nat) (v : Option Value) : Blind (setSlot index v) :=
  (blind_slotsWith index).bind fun _ _ => rfl

/-- The triples about frames and bare ones, from wherever a computation starts. -/
def blindLogic (current : Option Raised) (i : Instruction) (f : Frame) (rise : Int)
    (needs takes : Nat) : Logic current i f rise needs takes where
  Triple _ _ x _ := Blind x
  pure _ := blind_pure _
  bind _ hx hk := hx.bind hk
  fault _ := blind_fault _
  raise _ := fun _ => rfl
  frame hb hk := blind_frame hb hk
  transact hF hk := (blind_transact _).bind_of (fun _ _ _ => hF.of_run) hk
  push _ hk := (blind_push _).bind fun _ => hk
  pushReversed _ hk := (blind_stackwise _).bind fun _ => hk
  dupTop _ _ hk := (blind_stackwise _).bind fun _ => hk
  pop _ hk := blind_pop.bind hk
  popN _ hk := (blind_popN _).bind_of (fun _ _ _ => length_of_run_popN) hk
  top _ hk := blind_top.bind hk
  localMapping hk := blind_localMapping.bind hk
  constantAt _ hk := (blind_constantAt _).bind hk
  nameAt _ hk := (blind_nameAt _).bind hk
  cellAt _ hk := (blind_cellAt _).bind hk
  slotsWith _ hk := (blind_slotsWith _).bind hk
  setSlot _ hk := (blind_setSlot _ _).bind fun _ => hk

/-! ### Instructions that use blocks -/

theorem blind_unwind (reason : Unwind Value) : Blind (unwind reason) := by
  intro l
  have hu : l.bare.frame.unwind reason =
    ((l.frame.unwind reason).1.bare, (l.frame.unwind reason).2) := l.frame.unwind_bare reason
  rw [run_unwind, run_unwind, hu]
  dsimp only
  cases (l.frame.unwind reason).2 with
  | handled target => rfl
  | faulted e => rfl
  | unhandled => cases reason <;> rfl

theorem blind_popBlock (current : Option Raised) (o : Nat) (arg : UInt16) :
    Blind (execute current ⟨o, .popBlock, arg⟩) := by
  rintro ⟨f, h⟩
  show bareOutcome ((execute current ⟨o, .popBlock, arg⟩).run ⟨f.bare, h⟩) = _
  rw [run_popBlock, run_popBlock]
  have hb : f.bare.blocks = f.blocks := rfl
  unfold Frame.popBlock
  rw [hb]
  cases f.blocks with
  | nil => rfl
  | cons b outer =>
    have hl : Frame.leaveBlock { f.bare with blocks := outer } b =
      ((Frame.leaveBlock { f with blocks := outer } b).1,
        (Frame.leaveBlock { f with blocks := outer } b).2.bare) :=
      Frame.leaveBlock_bare { f with blocks := outer } b
    dsimp only
    rw [hl]
    dsimp only
    cases (Frame.leaveBlock { f with blocks := outer } b).1 <;> rfl

theorem blind_endFinally : Blind endFinally := by
  refine (blind_popN 3).bind fun vs => ?_
  split
  · exact blind_pure _
  · exact blind_unwind _
  · exact fun _ => rfl
  · exact blind_fault _

/-! ### All instructions -/

/-- **Instructions are blind**: they do the same to a frame and to the bare one. -/
theorem blind_execute (current : Option Raised) (i : Instruction) : Blind (execute current i) := by
  cases hop : i.opcode.usesBlocks with
  | false =>
    exact (blindLogic current i default i.rise i.needs i.takes).execute hop rfl rfl rfl
  | true =>
    obtain ⟨o, op, arg⟩ := i
    cases op <;> first | cases hop; done | skip
    case setupLoop | setupExcept | setupFinally => exact fun _ => rfl
    case popBlock => exact blind_popBlock current o arg
    case endFinally => exact blind_endFinally
    case breakLoop => exact blind_unwind _
    case continueLoop => exact blind_unwind _
    case returnValue => exact blind_pop.bind fun _ => blind_unwind _

end Exec

end Resumable
