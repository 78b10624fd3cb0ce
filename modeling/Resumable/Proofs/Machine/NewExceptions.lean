import Resumable.Proofs.Machine.Restraint

/-!
# New exceptions

An exception that an instruction raises by itself is new: it has passed through no frame, so its
traceback is empty.  The one exception to this is a raise without arguments, which raises the
exception being handled once more, with the traceback it has (`Exec.new_of_execute`).
-/

namespace Resumable

namespace Exec

variable {α β : Type} {current : Option Raised} {i : Instruction}

/-- Whatever the frame and the heap, the computation raises no exception but new ones, or once more
the one being handled. -/
def RaisesNew (current : Option Raised) (i : Instruction) (x : Exec α) : Prop :=
  ∀ l e l', x.run l = .error (.raised e) l' → e.IsNew ∨ Reraises current i e

theorem raisesNew_of_fatal {x : Exec α}
    (h : ∀ l e l', x.run l = .error e l' → ∃ fault, e = .fatal fault) : RaisesNew current i x := by
  intro l e l' hr
  obtain ⟨fault, he⟩ := h l _ l' hr
  cases he

/-- The rule for steps of any kind, told what the first one returns. -/
theorem RaisesNew.bind_of {W : α → Prop} {x : Exec α} {k : α → Exec β}
    (hx : RaisesNew current i x) (hw : ∀ l a l', x.run l = .ok a l' → W a)
    (hk : ∀ a, W a → RaisesNew current i (k a)) : RaisesNew current i (x >>= k) := by
  intro l e l' h
  rw [run_bind] at h
  cases hr : x.run l with
  | ok a l₁ =>
    rw [hr] at h
    exact hk a (hw l a l₁ hr) l₁ e l' h
  | error e' l₁ =>
    rw [hr] at h
    cases h
    exact hx l e _ hr

theorem RaisesNew.bind {x : Exec α} {k : α → Exec β} (hx : RaisesNew current i x)
    (hk : ∀ a, RaisesNew current i (k a)) : RaisesNew current i (x >>= k) :=
  hx.bind_of (W := fun _ => True) (fun _ _ _ _ => trivial) fun a _ => hk a

theorem raisesNew_pure (a : α) : RaisesNew current i (pure a : Exec α) := by
  intro l e l' hr
  have hr : (.ok a l : EStateM.Result Failure Local α) = .error (.raised e) l' := hr
  cases hr

theorem raisesNew_fault (f : Fault) : RaisesNew current i (fault f : Exec α) := by
  intro l e l' hr
  have hr : (.error (.fatal f) l : EStateM.Result Failure Local α) = .error (.raised e) l' := hr
  cases hr

theorem raisesNew_raise {e : Raised} (he : e.IsNew ∨ Reraises current i e) :
    RaisesNew current i (raise e : Exec α) := by
  intro l e' l' hr
  have hr : (.error (.raised e) l : EStateM.Result Failure Local α) = .error (.raised e') l' := hr
  cases hr
  exact he

theorem raisesNew_push (v : Value) : RaisesNew current i (push v) :=
  raisesNew_of_fatal fun l e l' hr => by
    rw [run_push] at hr
    cases hp : l.frame.stack.push v <;> rw [hp] at hr <;> cases hr
    exact ⟨_, rfl⟩

theorem raisesNew_stackwise (op : OperandStack → Except Fault Unit × OperandStack) :
    RaisesNew current i (stackwise op) :=
  raisesNew_of_fatal fun l e l' hr => by
    rw [run_stackwise] at hr
    cases hp : (op l.frame.stack).1 <;> rw [hp] at hr <;> cases hr
    exact ⟨_, rfl⟩

theorem raisesNew_pop : RaisesNew current i pop :=
  raisesNew_of_fatal fun l e l' hr => by
    rw [run_pop] at hr
    cases hp : l.frame.stack.pop <;> rw [hp] at hr <;> cases hr
    exact ⟨_, rfl⟩

theorem raisesNew_popN (n : Nat) : RaisesNew current i (popN n) :=
  raisesNew_of_fatal fun l e l' hr => by
    rw [run_popN] at hr
    cases hp : l.frame.stack.popN n <;> rw [hp] at hr <;> cases hr
    exact ⟨_, rfl⟩

theorem raisesNew_top : RaisesNew current i top :=
  raisesNew_of_fatal fun l e l' hr => by
    rw [run_top] at hr
    cases hp : l.frame.stack.peek 0 <;> rw [hp] at hr <;> cases hr
    exact ⟨_, rfl⟩

theorem Reads.raisesNew {x : Exec α} (hx : Reads x) : RaisesNew current i x :=
  raisesNew_of_fatal fun l e l' hr => by
    rcases hx l with ⟨a, h⟩ | ⟨d, h⟩ <;> rw [h] at hr <;> cases hr
    exact ⟨_, rfl⟩

theorem raisesNew_setSlot (index : Nat) (v : Option Value) :
    RaisesNew current i (setSlot index v) :=
  raisesNew_of_fatal fun l e l' hr => by
    rw [run_setSlot] at hr
    rcases reads_slotsWith index l with ⟨slots, h⟩ | ⟨d, h⟩ <;> rw [h] at hr <;> cases hr
    exact ⟨_, rfl⟩

/-- The triples about the exceptions that are raised, from wherever a computation starts. -/
def raisesNewLogic (current : Option Raised) (i : Instruction) (f : Frame) (rise : Int)
    (needs takes : Nat) : Logic current i f rise needs takes where
  Triple _ _ x _ := RaisesNew current i x
  pure _ := raisesNew_pure _
  bind _ hx hk := hx.bind hk
  fault _ := raisesNew_fault _
  raise he := raisesNew_raise he
  frame _ hk := fun l => hk l.frame l
  transact := by
    intro _ _ m W F k Q hF hk
    refine RaisesNew.bind_of (W := W) (fun l e l' hr => ?_) (fun _ _ _ => hF.of_run) hk
    have h := hF l.heap
    rw [run_transact] at hr
    cases hf : F l.heap with
    | ok r =>
      rw [hf] at hr
      cases hr
    | error e =>
      rw [hf] at h hr
      cases hr
      exact .inl h
  push _ hk := (raisesNew_push _).bind fun _ => hk
  pushReversed _ hk := (raisesNew_stackwise _).bind fun _ => hk
  dupTop _ _ hk := (raisesNew_stackwise _).bind fun _ => hk
  pop _ hk := raisesNew_pop.bind hk
  popN _ hk := (raisesNew_popN _).bind_of (fun _ _ _ => length_of_run_popN) hk
  top _ hk := raisesNew_top.bind hk
  localMapping hk := reads_localMapping.raisesNew.bind hk
  constantAt _ hk := (reads_constantAt _).raisesNew.bind hk
  nameAt _ hk := (reads_nameAt _).raisesNew.bind hk
  cellAt _ hk := (reads_cellAt _).raisesNew.bind hk
  slotsWith _ hk := (reads_slotsWith _).raisesNew.bind hk
  setSlot _ hk := (raisesNew_setSlot _ _).bind fun _ => hk

/-- The exception that an instruction raises is new, unless it is the exception being handled,
raised once more. -/
theorem new_of_execute {l l' : Local} {e : Raised}
    (h : (execute current i).run l = .error (.raised e) l') :
    e.IsNew ∨ i.opcode = .raiseVarargs ∧ i.arg.toNat = 0 ∧ current = some e := by
  cases hop : i.opcode.usesBlocks with
  | false =>
    exact (raisesNewLogic current i l.frame i.rise i.needs i.takes).execute hop rfl rfl rfl l e l' h
  | true =>
    -- unwinding hands an exception on by the flow, and does not raise it
    have hk := keepsHeap_execute current hop l
    rw [h] at hk
    obtain ⟨-, -, fault, he, -⟩ := hk
    cases he

end Exec

end Resumable
