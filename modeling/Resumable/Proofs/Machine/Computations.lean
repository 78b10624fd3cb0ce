import Resumable.Machine.Instruction
import Resumable.Proofs.Frame.Drift
import Resumable.Proofs.Heap.Iteration

/-!
# Computations on a frame

`Exec.Ends x l Q E` says of every outcome of a computation `x` what it returns, or how it fails, and
which frame it leaves.  The equations below run the operations that change the frame.

A computation that works on the heap alone is a function of it (`Exec.transact`), and most of what
instructions do with the heap is of this kind.
-/

namespace Resumable

namespace Exec

variable {α β : Type}

/-! ### Outcomes -/

/-- Every outcome of a computation: `Q` holds of what it returns and the frame it leaves, and `E` of
the failure. -/
def Ends (x : Exec α) (l : Local) (Q : α → Frame → Prop) (E : Failure → Frame → Prop) : Prop :=
  match x.run l with
  | .ok a l' => Q a l'.frame
  | .error e l' => E e l'.frame

theorem run_bind (x : Exec α) (k : α → Exec β) (l : Local) :
    (x >>= k).run l =
      match x.run l with
      | .ok a l' => (k a).run l'
      | .error e l' => .error e l' := by
  show EStateM.bind x k l = _
  unfold EStateM.bind EStateM.run
  cases x l <;> rfl

/-- What succeeds in two steps. -/
theorem run_bind_eq_ok {x : Exec α} {k : α → Exec β} {l l' : Local} {b : β}
    (h : (x >>= k).run l = .ok b l') : ∃ a l₁, x.run l = .ok a l₁ ∧ (k a).run l₁ = .ok b l' := by
  rw [run_bind] at h
  cases hx : x.run l with
  | ok a l₁ =>
    rw [hx] at h
    exact ⟨a, l₁, rfl, h⟩
  | error e l₁ =>
    rw [hx] at h
    cases h

theorem run_discard (x : Exec α) (l : Local) :
    (discard x : Exec Unit).run l =
      match x.run l with
      | .ok _ l' => .ok () l'
      | .error e l' => .error e l' := by
  show EStateM.map _ x l = _
  unfold EStateM.map EStateM.run
  cases x l <;> rfl

/-- What goes on with the frame as it is. -/
theorem run_frame_bind (k : Frame → Exec β) (l : Local) :
    (frame >>= k).run l = (k l.frame).run l := rfl

/-- What goes on with the heap as it is. -/
theorem run_heap_bind (k : Heap → Exec β) (l : Local) :
    (heap >>= k).run l = (k l.heap).run l := rfl

/-- What goes on with the code of the frame. -/
theorem run_code_bind (k : Code → Exec β) (l : Local) :
    (code >>= k).run l = (k l.frame.code.body).run l := rfl

theorem Ends.bind {x : Exec α} {k : α → Exec β} {l : Local} {Q : β → Frame → Prop}
    {E : Failure → Frame → Prop}
    (h : match x.run l with
      | .ok a l' => Ends (k a) l' Q E
      | .error e l' => E e l'.frame) : Ends (x >>= k) l Q E := by
  unfold Ends
  rw [run_bind]
  cases hx : x.run l with
  | ok a l' =>
    rw [hx] at h
    exact h
  | error e l' =>
    rw [hx] at h
    exact h

/-! ### The operations that change the frame -/

theorem run_pop (l : Local) :
    pop.run l =
      match l.frame.stack.pop with
      | .ok (v, s) => .ok v { l with frame := { l.frame with stack := s } }
      | .error e => .error (.fatal e) l := by
  rw [pop, run_frame_bind, run_bind]
  cases l.frame.stack.pop <;> rfl

theorem run_popN (n : Nat) (l : Local) :
    (popN n).run l =
      match l.frame.stack.popN n with
      | .ok (vs, s) => .ok vs { l with frame := { l.frame with stack := s } }
      | .error e => .error (.fatal e) l := by
  rw [popN, run_frame_bind, run_bind]
  cases l.frame.stack.popN n <;> rfl

theorem length_of_run_popN {n : Nat} {vs : List Value} {l l' : Local}
    (h : (popN n).run l = .ok vs l') : vs.length = n := by
  rw [run_popN] at h
  cases hp : l.frame.stack.popN n with
  | error e =>
    rw [hp] at h
    cases h
  | ok r =>
    rw [hp] at h
    cases h
    exact (OperandStack.popN_eq_ok hp).2.1

theorem run_push (v : Value) (l : Local) :
    (push v).run l =
      match l.frame.stack.push v with
      | .ok s => .ok () { l with frame := { l.frame with stack := s } }
      | .error e => .error (.fatal e) l := by
  rw [push, run_frame_bind, run_bind]
  cases l.frame.stack.push v <;> rfl

theorem run_stackwise (op : OperandStack → Except Fault Unit × OperandStack) (l : Local) :
    (stackwise op).run l =
      match (op l.frame.stack).1 with
      | .ok () => .ok () { l with frame := { l.frame with stack := (op l.frame.stack).2 } }
      | .error e =>
        .error (.fatal e) { l with frame := { l.frame with stack := (op l.frame.stack).2 } } := by
  rw [stackwise, run_frame_bind]
  dsimp only
  rw [run_bind]
  show (ofFault (op l.frame.stack).1).run _ = _
  cases (op l.frame.stack).1 <;> rfl

theorem run_top (l : Local) :
    top.run l =
      match l.frame.stack.peek 0 with
      | .ok v => .ok v l
      | .error e => .error (.fatal e) l := by
  rw [top, run_frame_bind]
  cases l.frame.stack.peek 0 <;> rfl

theorem run_top_eq_ok {v : Value} {l l' : Local} (h : top.run l = .ok v l') : l' = l := by
  rw [run_top] at h
  cases hp : l.frame.stack.peek 0 <;> rw [hp] at h <;> cases h
  rfl

theorem peek_of_run_top {v : Value} {l l' : Local} (h : top.run l = .ok v l') :
    l.frame.stack.peek 0 = .ok v := by
  rw [run_top] at h
  cases hp : l.frame.stack.peek 0 <;> rw [hp] at h <;> cases h
  rfl

/-! ### Computations that read -/

/-- The computation reads something, or fails for a defect of the code. -/
def Reads (x : Exec α) : Prop :=
  ∀ l, (∃ a, x.run l = .ok a l) ∨ ∃ d, x.run l = .error (.fatal (.invalidCode d)) l

theorem run_localMapping (l : Local) :
    localMapping.run l =
      match l.frame.locals with
      | .dict r => .ok r l
      | .fast _ => .error (.fatal (.invalidCode (.namesWithoutMapping l.frame.name))) l := by
  rw [localMapping, run_frame_bind]
  cases l.frame.locals <;> rfl

theorem run_constantAt (index : Nat) (l : Local) :
    (constantAt index).run l =
      match l.frame.code.body.consts[index]? with
      | some c => .ok c l
      | none => .error (.fatal (.invalidCode (.operandOutOfRange .constant index))) l := by
  rw [constantAt, run_code_bind]
  cases l.frame.code.body.consts[index]? <;> rfl

theorem run_nameAt (index : Nat) (l : Local) :
    (nameAt index).run l =
      match l.frame.code.body.names[index]? with
      | some n => .ok n l
      | none => .error (.fatal (.invalidCode (.operandOutOfRange .name index))) l := by
  rw [nameAt, run_code_bind]
  cases l.frame.code.body.names[index]? <;> rfl

theorem run_cellAt (index : Nat) (l : Local) :
    (cellAt index).run l =
      match l.frame.cells[index]? with
      | some r => .ok r l
      | none => .error (.fatal (.invalidCode (.operandOutOfRange .cell index))) l := by
  rw [cellAt, run_frame_bind]
  cases l.frame.cells[index]? <;> rfl

theorem run_slotsWith (index : Nat) (l : Local) :
    (slotsWith index).run l =
      match l.frame.locals with
      | .dict _ => .error (.fatal (.invalidCode .slotsWithoutArray)) l
      | .fast slots =>
        if index < slots.length then .ok slots l
        else .error (.fatal (.invalidCode (.slotOutOfRange index))) l := by
  rw [slotsWith, run_frame_bind]
  cases l.frame.locals with
  | dict r => rfl
  | fast slots => by_cases hi : index < slots.length <;> simp only [hi, if_true, if_false] <;> rfl

theorem reads_localMapping : Reads localMapping := by
  intro l
  rw [run_localMapping]
  cases l.frame.locals with
  | dict r => exact .inl ⟨r, rfl⟩
  | fast slots => exact .inr ⟨_, rfl⟩

theorem reads_constantAt (index : Nat) : Reads (constantAt index) := by
  intro l
  rw [run_constantAt]
  cases l.frame.code.body.consts[index]? with
  | some c => exact .inl ⟨c, rfl⟩
  | none => exact .inr ⟨_, rfl⟩

theorem reads_nameAt (index : Nat) : Reads (nameAt index) := by
  intro l
  rw [run_nameAt]
  cases l.frame.code.body.names[index]? with
  | some n => exact .inl ⟨n, rfl⟩
  | none => exact .inr ⟨_, rfl⟩

theorem reads_cellAt (index : Nat) : Reads (cellAt index) := by
  intro l
  rw [run_cellAt]
  cases l.frame.cells[index]? with
  | some r => exact .inl ⟨r, rfl⟩
  | none => exact .inr ⟨_, rfl⟩

theorem reads_slotsWith (index : Nat) : Reads (slotsWith index) := by
  intro l
  rw [run_slotsWith]
  cases l.frame.locals with
  | dict r => exact .inr ⟨_, rfl⟩
  | fast slots =>
    dsimp only
    split
    · exact .inl ⟨slots, rfl⟩
    · exact .inr ⟨_, rfl⟩

/-! ### Slots and blocks -/

theorem run_setSlot (index : Nat) (v : Option Value) (l : Local) :
    (setSlot index v).run l =
      match (slotsWith index).run l with
      | .ok slots l =>
        .ok () { l with frame := { l.frame with locals := .fast (slots.set index v) } }
      | .error e l => .error e l := by
  unfold setSlot
  rw [run_bind]
  cases (slotsWith index).run l <;> rfl

theorem run_unwind (reason : Unwind Value) (l : Local) :
    (unwind reason).run l =
      let g := (l.frame.unwind reason).1
      match (l.frame.unwind reason).2 with
      | .handled target => .ok (.jump target) { l with frame := g }
      | .faulted e => .error (.fatal e) { l with frame := g }
      | .unhandled =>
        match reason with
        | .returning v => .ok (.exit (.returned v)) { l with frame := g }
        | .raising e => .ok (.reraise e) { l with frame := { g with pending := some e } }
        | other =>
          .error (.fatal (.malformedBlocks (.outsideLoop g.name other.word)))
            { l with frame := g } := by
  rw [unwind, run_frame_bind]
  dsimp only
  rw [run_bind]
  cases (l.frame.unwind reason).2 with
  | handled target => rfl
  | faulted e => rfl
  | unhandled => cases reason <;> rfl

theorem run_popBlock (current : Option Raised) (o : Nat) (arg : UInt16) (f : Frame) (h : Heap) :
    (execute current ⟨o, .popBlock, arg⟩).run ⟨f, h⟩ =
      match f.popBlock with
      | .error e => .error (.fatal e) ⟨f, h⟩
      | .ok (b, g) =>
        match (g.leaveBlock b).1 with
        | .ok () => .ok .next ⟨(g.leaveBlock b).2, h⟩
        | .error e => .error (.fatal e) ⟨(g.leaveBlock b).2, h⟩ := by
  have hr : (execute current ⟨o, .popBlock, arg⟩).run ⟨f, h⟩ =
    (ofFault f.popBlock >>= fun r => setFrame (r.2.leaveBlock r.1).2 >>= fun _ =>
      ofFault (r.2.leaveBlock r.1).1 >>= fun _ => pure Flow.next).run ⟨f, h⟩ := rfl
  rw [hr, run_bind]
  cases f.popBlock with
  | error e => rfl
  | ok r =>
    obtain ⟨b, g⟩ := r
    show (ofFault (g.leaveBlock b).1 >>= fun _ => pure Flow.next).run
      ⟨(g.leaveBlock b).2, h⟩ = _
    rw [run_bind]
    dsimp only
    cases (g.leaveBlock b).1 <;> rfl

theorem discard_bind (x : Exec α) (k : Unit → Exec β) :
    (discard x >>= k) = x >>= fun _ => k () := by
  funext l
  show (discard x >>= k).run l = (x >>= fun _ => k ()).run l
  rw [run_bind, run_bind, run_discard]
  cases x.run l <;> rfl

/-! ### Computations on the heap alone -/

/-- Works on the heap; a failure leaves it as it is. -/
def transact (F : Heap → Except Failure (α × Heap)) : Exec α := fun l =>
  match F l.heap with
  | .ok (a, h) => .ok a { l with heap := h }
  | .error e => .error e l

variable {β : Type}

theorem run_transact (F : Heap → Except Failure (α × Heap)) (l : Local) :
    (transact F).run l =
      match F l.heap with
      | .ok (a, h) => .ok a { l with heap := h }
      | .error e => .error e l := rfl

theorem operate_eq (x : Operation α) :
    operate x = transact fun h => (x.run h).mapError .raised := by
  funext l
  show (operate x).run l = (transact _).run l
  rw [operate, run_heap_bind, run_transact]
  cases x.run l.heap <;> rfl

/-- What goes on with a new heap. -/
theorem update_eq (F : Heap → α × Heap) (k : α → Exec β) :
    (heap >>= fun h => setHeap (F h).2 >>= fun _ => k (F h).1) =
      transact (fun h => .ok (F h)) >>= k := rfl

/-- Drawing from an iterator; there may be no value left. -/
def draw (r : Ref .iterator) (h : Heap) : Except Failure (Option Value × Heap) :=
  match h.nextItem r with
  | (.ok v, h) => .ok (v, h)
  | (.error n, _) => .error (.fatal (.uncuttable n))

theorem forIter_eq (target : Nat) :
    forIter target = top >>= fun
      | .iterator r => transact (draw r) >>= fun
        | some v => push v >>= fun _ => pure .next
        | none => discard pop >>= fun _ => pure (.jump target)
      | .generator r => pure (.advance r)
      | v => raise (Raised.typeError s!"'{v.typeName}' object is not an iterator") := by
  unfold forIter
  congr 1
  funext v
  cases v with
  | iterator r =>
    funext l
    show EStateM.run (heap >>= _) l = EStateM.run (transact (draw r) >>= _) l
    rw [run_heap_bind, run_bind, run_transact, draw, Heap.nextItem]
    cases (l.heap.iteratorAt r).next? l.heap.nextIdentity with
    | error n => rfl
    | ok drawn => cases drawn <;> rfl
  | _ => rfl

theorem deleteName_eq (r : Ref .mapping) (name : String) :
    (do
      let ns := (← heap).namespaceAt r
      if ns.contains name then
        setHeap ((← heap).setNamespace r (ns.erase name))
        pure .next
      else raise (Raised.nameError name) : Exec Flow) =
    transact (fun h =>
      if (h.namespaceAt r).contains name then
        .ok ((), h.setNamespace r ((h.namespaceAt r).erase name))
      else .error (.raised (Raised.nameError name))) >>= fun _ => pure .next := by
  funext l
  show EStateM.run (heap >>= _) l = EStateM.run (transact _ >>= _) l
  rw [run_heap_bind, run_bind, run_transact]
  by_cases hc : (l.heap.namespaceAt r).contains name = true
  · rw [if_pos hc, if_pos hc]
    rfl
  · rw [if_neg hc, if_neg hc]
    rfl

/-- Making a frame and binding its arguments are two computations on the heap. -/
theorem frameOfCall_eq (f : Function) (args : List Value) :
    frameOfCall f args = ofRaised (completeArguments f args) >>= fun args => frame >>= fun g =>
      transact (fun h => (Frame.create f.code f.globals g.builtins f.closure h).mapError .fatal)
        >>= fun callee => transact fun h => (callee.bindArguments args h).mapError .fatal := by
  unfold frameOfCall
  congr 1
  funext args l
  show EStateM.run (frame >>= _) l = EStateM.run (transact _ >>= _) l
  rw [run_frame_bind, run_heap_bind, run_bind, run_bind, run_transact]
  cases Frame.create f.code f.globals l.frame.builtins f.closure l.heap with
  | error e => rfl
  | ok p =>
    obtain ⟨callee, h⟩ := p
    show EStateM.run (ofFault (callee.bindArguments args h) >>= _) { l with heap := h } =
      EStateM.run (transact _) { l with heap := h }
    rw [run_bind, run_transact]
    cases callee.bindArguments args h <;> rfl

end Exec

end Resumable
