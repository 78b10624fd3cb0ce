import Resumable.Proofs.Machine.Logic

/-!
# What an instruction does

Whatever an instruction does, it goes on as `Exec.Effect` says, or leaves `Exec.Damage`
(`Exec.execute_spec`).  For the instructions that use no blocks this is a logic in which a triple
is about all frames that have drifted by a distance (`Exec.damageLogic`).
-/

namespace Resumable

namespace OperandStack

variable {s : OperandStack} {e : Fault}

theorem depth_of_pop_eq_error (h : s.pop = .error e) : s.depth = 0 := by
  unfold pop at h
  split at h
  · rename_i hs
    rw [s.depth_eq, hs]
    rfl
  · cases h

theorem depth_of_popN_eq_error {n : Nat} (h : s.popN n = .error e) : s.depth < n := by
  by_contra hn
  unfold popN peekN dropN at h
  rw [if_pos (Nat.not_lt.1 hn), if_pos (Nat.not_lt.1 hn)] at h
  cases h

theorem depth_of_peekN_eq_error {n : Nat} (h : s.peekN n = .error e) : s.depth < n := by
  by_contra hn
  unfold peekN at h
  rw [if_pos (Nat.not_lt.1 hn)] at h
  cases h

theorem depth_of_peek_eq_error (h : s.peek 0 = .error e) : s.depth = 0 := by
  unfold peek at h
  split at h
  · rename_i hs
    rw [s.depth_eq]
    exact Nat.le_zero.1 (List.getElem?_eq_none_iff.1 hs)
  · cases h

end OperandStack

namespace Exec

variable {α β : Type} {i : Instruction} {f g : Frame} {m : Int}

/-! ### Damage -/

theorem Damage.of_fatal {e : Fault} (ha : f.Akin g) (hm : e.isMisfit = true → Strains i f)
    (hu : e = .stackUnderflow → f.stack.depth < i.needs) : Damage i f (.fatal e) g :=
  { ha with
    blocks := nofun
    depth := nofun
    catchable := nofun
    misfit := hm
    underflow := fun h => hu (Failure.fatal.inj h) }

/-- A fault that has nothing to do with the stack or the blocks. -/
theorem Damage.of_ordinary {e : Failure} (hd : f.Drift m g) (ht : -(i.takes : Int) ≤ m)
    (he : e.isMisfit = false) (hu : e ≠ .fatal .stackUnderflow) (hc : ∀ r, e ≠ .uncatchable r) :
    Damage i f e g :=
  { hd with
    blocks := fun _ _ => hd.blocks
    depth := fun _ _ => by
      have hg := hd.depth
      omega
    catchable := hc
    misfit := fun h => by
      rw [he] at h
      cases h
    underflow := fun h => absurd h hu }

theorem Damage.of_underflow (ha : f.Akin g) (hn : f.stack.depth < i.needs) :
    Damage i f (.fatal .stackUnderflow) g := .of_fatal ha nofun fun _ => hn

/-! ### Instructions without blocks -/

variable {k : Unit → Exec β} {l : Local} {Q : β → Frame → Prop}

/-- Pushing several values, which may stop half way. -/
theorem ends_pushAll {op : OperandStack → Except Fault Unit × OperandStack} {vs : List Value}
    (hop : i.opcode.usesBlocks = false) (ho : op l.frame.stack = l.frame.stack.pushAll vs)
    (hl : f.Drift m l.frame) (hr : m + vs.length ≤ i.rise)
    (hk : ∀ l', f.Drift (m + vs.length) l'.frame → Ends (k ()) l' Q (Damage i f)) :
    Ends (stackwise op >>= k) l Q (Damage i f) := by
  refine .bind ?_
  rw [run_stackwise, ho]
  cases hp : (l.frame.stack.pushAll vs).1 with
  | ok u => exact hk _ (hl.trans (.pushAll hp))
  | error e =>
    obtain ⟨rfl, hc⟩ := OperandStack.pushAll_eq_error hp
    refine .of_fatal (hl.toAkin.trans (Frame.akin_pushAll l.frame vs))
      (fun _ => (strains_iff hop).2 ?_) nofun
    have hd := hl.depth
    have hs := hl.capacity
    omega

theorem ends_reads {x : Exec α} {k : α → Exec β} (hx : Reads x) (hl : f.Drift m l.frame)
    (ht : -(i.takes : Int) ≤ m) (hk : ∀ a, Ends (k a) l Q (Damage i f)) :
    Ends (x >>= k) l Q (Damage i f) := by
  refine .bind ?_
  rcases hx l with ⟨a, hr⟩ | ⟨d, hr⟩
  · rw [hr]
    exact hk a
  · rw [hr]
    exact .of_ordinary hl ht rfl nofun nofun

/-- The triples about all frames that have drifted from `f` by a distance, no further down than the
instruction takes values. -/
def damageLogic (current : Option Raised) (i : Instruction) (f : Frame)
    (hop : i.opcode.usesBlocks = false) : Logic current i f i.rise i.needs i.takes where
  Triple m _ x Q :=
    -(i.takes : Int) ≤ m → ∀ l, f.Drift m l.frame → Ends x l Q (Damage i f)
  pure h := fun _ l hl => h l.frame hl
  bind hn hx hk := by
    intro hm l hl
    have h := hx hm l hl
    refine .bind ?_
    unfold Ends at h
    cases hr : EStateM.run _ l with
    | ok a l' =>
      rw [hr] at h
      exact hk a hn l' h
    | error e l' =>
      rw [hr] at h
      exact h
  fault he := fun hm l hl => .of_ordinary hl hm he.1 (fun h => he.2.2 (Failure.fatal.inj h)) nofun
  raise _ := fun hm l hl => .of_ordinary hl hm rfl nofun nofun
  frame _ hk := fun hm l hl => hk l.frame hm l hl
  transact := by
    intro _ _ m V F k Q hF hk hm l hl
    refine .bind ?_
    have h := hF l.heap
    rw [run_transact]
    cases hr : F l.heap with
    | ok r =>
      rw [hr] at h
      exact hk r.1 h.1 hm _ hl
    | error e =>
      rw [hr] at h
      cases e with
      | fatal e =>
        exact .of_ordinary hl hm h.1 (fun he => h.2.2 (Failure.fatal.inj he)) nofun
      | raised e => exact .of_ordinary hl hm rfl nofun nofun
      | uncatchable e => exact h.elim
  push := by
    intro _ m v k Q hrise hk hm l hl
    refine .bind ?_
    rw [run_push]
    cases hp : l.frame.stack.push v with
    | ok s => exact hk (by omega) _ (hl.trans (.push hp))
    | error e =>
      obtain ⟨hc, rfl⟩ := OperandStack.push_eq_error_iff.1 hp
      refine .of_fatal hl.toAkin (fun _ => (strains_iff hop).2 ?_) nofun
      have hd := hl.depth
      have ha := hl.capacity
      omega
  pushReversed := by
    intro _ m vs k Q hr hk hm l hl
    have hlen : vs.reverse.length = vs.length := List.length_reverse
    refine ends_pushAll hop rfl hl (by rw [hlen]; exact hr) fun l' hl' => hk (by omega) l' ?_
    rw [hlen] at hl'
    exact hl'
  dupTop hn hr hk := by
    intro hm l hl
    cases hp : l.frame.stack.peekN 1 with
    | ok vs =>
      have ho : l.frame.stack.dupN 1 = l.frame.stack.pushAll vs := by
        unfold OperandStack.dupN
        rw [hp]
      have hlen := OperandStack.length_peekN hp
      refine ends_pushAll hop ho hl (by rw [hlen]; exact hr) fun l' hl' => hk (by omega) l' ?_
      rw [hlen] at hl'
      exact hl'
    | error e =>
      have ho : l.frame.stack.dupN 1 = (.error e, l.frame.stack) := by
        unfold OperandStack.dupN
        rw [hp]
      refine .bind ?_
      rw [run_stackwise, ho, OperandStack.peekN_eq_error hp]
      have hd := OperandStack.depth_of_peekN_eq_error hp
      have hg := hl.depth
      exact .of_underflow hl.toAkin (by omega)
  pop := by
    intro _ m k Q ht hk hm l hl
    refine .bind ?_
    rw [run_pop]
    cases hp : l.frame.stack.pop with
    | ok r => exact hk r.1 ht _ (hl.trans (.pop hp))
    | error e =>
      rw [OperandStack.pop_eq_error hp]
      have hd := OperandStack.depth_of_pop_eq_error hp
      have hg := hl.depth
      have hle := i.takes_le_needs
      exact .of_underflow hl.toAkin (by omega)
  popN := by
    intro _ m n k Q ht hk hm l hl
    refine .bind ?_
    rw [run_popN]
    cases hp : l.frame.stack.popN n with
    | ok r => exact hk r.1 (OperandStack.popN_eq_ok hp).2.1 ht _ (hl.trans (.popN hp))
    | error e =>
      rw [OperandStack.popN_eq_error hp]
      have hd := OperandStack.depth_of_popN_eq_error hp
      have hg := hl.depth
      have hle := i.takes_le_needs
      exact .of_underflow hl.toAkin (by omega)
  top := by
    intro _ m k Q hn hk hm l hl
    refine .bind ?_
    rw [run_top]
    cases hp : l.frame.stack.peek 0 with
    | ok v => exact hk v hm l hl
    | error e =>
      rw [OperandStack.peek_eq_error hp]
      have hd := OperandStack.depth_of_peek_eq_error hp
      have hg := hl.depth
      exact .of_underflow hl.toAkin (by omega)
  localMapping hk := fun hm l hl => ends_reads reads_localMapping hl hm fun r => hk r hm l hl
  constantAt _ hk := fun hm l hl => ends_reads (reads_constantAt _) hl hm fun c => hk c hm l hl
  nameAt _ hk := fun hm l hl => ends_reads (reads_nameAt _) hl hm fun n => hk n hm l hl
  cellAt _ hk := fun hm l hl => ends_reads (reads_cellAt _) hl hm fun r => hk r hm l hl
  slotsWith _ hk := fun hm l hl => ends_reads (reads_slotsWith _) hl hm fun s => hk s hm l hl
  setSlot := by
    intro _ m v k Q _ hk hm l hl
    refine .bind ?_
    rw [run_setSlot, run_slotsWith]
    cases hs : l.frame.locals with
    | dict r => exact .of_ordinary hl hm rfl nofun nofun
    | fast slots =>
      by_cases hi : i.arg.toNat < slots.length
      · simp only [hi, if_true]
        refine hk hm _ ?_
        have hg : l.frame.Drift 0
            { l.frame with locals := .fast (slots.set i.arg.toNat v) } := by
          refine { Frame.Drift.refl l.frame with locals := ?_ }
          rw [hs]
          exact List.length_set
        have hd := hl.trans hg
        rwa [Int.add_zero] at hd
      · simp only [hi, if_false]
        exact .of_ordinary hl hm rfl nofun nofun

/-! ### Instructions that use blocks -/

theorem unwind_ends {reason : Unwind Value} (h : Heap) (hr : i.Unwinds f reason g) :
    Ends (unwind reason) ⟨g, h⟩ (Effect i f) (Damage i f) := by
  unfold Ends
  rw [run_unwind]
  cases hu : g.unwind reason with
  | mk g' u =>
    obtain ⟨ha, hs⟩ := Frame.unwind_spec hu
    have ha := hr.akin.trans ha
    cases u with
    | handled target => exact .unwound hr hu
    | faulted e =>
      obtain ⟨rfl, hb⟩ := hs
      exact .of_fatal ha (fun _ => hr.strains hb) nofun
    | unhandled =>
      cases reason with
      | returning v => exact .returns hr hu
      | raising e => exact .reraises hr hu
      | breaking => exact .of_fatal ha nofun nofun
      | continuing target => exact .of_fatal ha nofun nofun

theorem returnValue_ends (h : Heap) (hop : i.opcode = .returnValue) :
    Ends (pop >>= fun v => unwind (.returning v)) ⟨f, h⟩ (Effect i f) (Damage i f) := by
  refine .bind ?_
  rw [run_pop]
  cases hp : f.stack.pop with
  | ok r => exact unwind_ends h (.returnValue hop (.pop hp))
  | error e =>
    have hd := OperandStack.depth_of_pop_eq_error hp
    have hn : i.needs = 1 := by rw [i.needs_of_opcode hop]; rfl
    rw [OperandStack.pop_eq_error hp]
    exact .of_underflow (.refl f) (by omega)

theorem endFinally_ends (h : Heap) (hop : i.opcode = .endFinally) :
    Ends endFinally ⟨f, h⟩ (Effect i f) (Damage i f) := by
  refine .bind ?_
  rw [run_popN]
  cases hp : f.stack.popN 3 with
  | error e =>
    have hd := OperandStack.depth_of_popN_eq_error hp
    have hn : i.needs = 3 := by rw [i.needs_of_opcode hop]; rfl
    rw [OperandStack.popN_eq_error hp]
    exact .of_underflow (.refl f) (by omega)
  | ok r =>
    obtain ⟨vs, s⟩ := r
    have hd : f.Drift (-3) { f with stack := s } := .popN hp
    obtain ⟨hv, hl, -, -⟩ := OperandStack.popN_eq_ok hp
    match vs, hl with
    | [v, _, _], _ =>
      cases v with
      | none => exact .endFinally hop hd
      | suspended reason =>
        -- the reason is the lowest of the three values taken
        have ht := congrArg List.reverse hv
        rw [List.reverse_reverse] at ht
        have hr : (f.stack.slots.take 3)[2]? = some (.suspended reason) := by
          rw [← ht]
          rfl
        rw [List.getElem?_take_of_lt (by decide)] at hr
        exact unwind_ends h (.endFinally hop hr hd)
      | _ => exact .of_fatal hd.toAkin nofun nofun

theorem popBlock_ends (current : Option Raised) (o : Nat) (arg : UInt16) (f : Frame) (h : Heap) :
    Ends (execute current ⟨o, .popBlock, arg⟩) ⟨f, h⟩ (Effect ⟨o, .popBlock, arg⟩ f)
      (Damage ⟨o, .popBlock, arg⟩ f) := by
  unfold Ends
  rw [run_popBlock]
  cases hb : f.blocks with
  | nil =>
    have hp : f.popBlock = .error (.malformedBlocks (.noBlock f.name)) := by
      simp only [Frame.popBlock, hb]
    rw [hp]
    exact .of_fatal (.refl f) (fun _ => .inl hb) nofun
  | cons b outer =>
    have hp : f.popBlock = .ok (b, { f with blocks := outer }) := by
      simp only [Frame.popBlock, hb]
    obtain ⟨ha, hg, hl⟩ := Frame.leaveBlock_spec { f with blocks := outer } b
    have ha := (Frame.Akin.withBlocks f outer).trans ha
    rw [hp]
    dsimp only
    cases hq : (Frame.leaveBlock { f with blocks := outer } b).1 with
    | ok u =>
      rw [hq] at hl
      exact .leaveBlock rfl hb ha hg hl
    | error e =>
      rw [hq] at hl
      obtain ⟨rfl, hk, hd⟩ := hl
      exact .of_fatal ha (fun _ => .inr ⟨b, outer, hb, hk, hd⟩) nofun

/-! ### All instructions -/

/-- **What an instruction does.** -/
theorem execute_spec (current : Option Raised) (i : Instruction) (f : Frame) (h : Heap) :
    Ends (execute current i) ⟨f, h⟩ (Effect i f) (Damage i f) := by
  cases hop : i.opcode.usesBlocks with
  | false =>
    exact (damageLogic current i f hop).execute hop rfl rfl rfl (by omega) ⟨f, h⟩ (.refl f)
  | true =>
    obtain ⟨o, op, arg⟩ := i
    cases op <;> first | cases hop; done | skip
    case setupLoop | setupExcept | setupFinally => exact .setup rfl
    case popBlock => exact popBlock_ends current o arg f h
    case endFinally => exact endFinally_ends h rfl
    case breakLoop => exact unwind_ends h (.breakLoop rfl)
    case continueLoop => exact unwind_ends h (.continueLoop rfl)
    case returnValue => exact returnValue_ends h rfl

/-- What is known of an instruction that leads on. -/
theorem effect_of_execute {current : Option Raised} {h : Heap} {flow : Flow} {l : Local}
    (hx : (execute current i).run ⟨f, h⟩ = .ok flow l) : Effect i f flow l.frame := by
  have he := execute_spec current i f h
  unfold Ends at he
  rw [hx] at he
  exact he

/-- What is known of an instruction that fails. -/
theorem damage_of_execute {current : Option Raised} {h : Heap} {e : Failure} {l : Local}
    (hx : (execute current i).run ⟨f, h⟩ = .error e l) : Damage i f e l.frame := by
  have he := execute_spec current i f h
  unfold Ends at he
  rw [hx] at he
  exact he

end Exec

end Resumable
