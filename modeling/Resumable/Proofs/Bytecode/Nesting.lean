import Resumable.Frame.Line
import Resumable.Proofs.Bytecode.Targets

/-!
# Nested blocks

Valid code can be scanned for its blocks from start to end, so it is known at every offset which of
them are open (`CodeOf.openedBefore`).  An instruction changes that in one of five ways
(`StaticBlock.Changes`), and what each of them keeps holds from one offset to any later one
(`CodeOf.Valid.follow`).

The handler of a `finally` block runs behind the `POP_BLOCK` that begins it, up to and including the
`END_FINALLY` that ends it (`CodeOf.Valid.runs_iff`), and the innermost handler that runs tells
which others do (`CodeOf.Valid.runs_iff_of_innermost`).

Where blocks pair up, those that have not got to their handlers behave as brackets do: between two
offsets, some of them are closed, others are opened, and the rest is open throughout.  The balance
of the instructions in between counts both (`CodeOf.Paired.crosses_left`).
-/

namespace Resumable

/-! ### Stretches of instructions -/

namespace Instruction

theorem le_of_mem_sweepFrom {bytes : List UInt8} {o : Nat} {i : Instruction}
    (h : i ∈ (sweepFrom o bytes).1) : o ≤ i.offset := by
  fun_induction sweepFrom o bytes with
  | case1 => cases h
  | case2 => cases h
  | case3 o b rest j hj is e hs ih =>
    have ho := offset_of_decodeHead hj
    rcases List.mem_cons.1 h with rfl | h
    · exact Nat.le_of_eq ho.symm
    · have hi := ih (by rw [hs]; exact h)
      unfold next at hi
      omega

/-- The sweep reads instructions in the order of their offsets. -/
theorem sweepFrom_sorted (bytes : List UInt8) (o : Nat) :
    (sweepFrom o bytes).1.Pairwise fun i j => i.offset < j.offset := by
  fun_induction sweepFrom o bytes with
  | case1 => exact .nil
  | case2 => exact .nil
  | case3 o b rest j hj is e hs ih =>
    rw [hs] at ih
    refine List.pairwise_cons.2 ⟨fun i hi => ?_, ih⟩
    have hn : j.next ≤ i.offset := le_of_mem_sweepFrom (by rw [hs]; exact hi)
    have hw := j.opcode.width_pos
    unfold next at hn
    omega

end Instruction

namespace CodeOf

variable {κ : Type} {c : CodeOf κ} {lo hi o : Nat} {i : Instruction}

theorem instructions_sorted (c : CodeOf κ) :
    c.instructions.Pairwise fun i j => i.offset < j.offset :=
  Instruction.sweepFrom_sorted c.bytecode 0

/-- The instructions from one offset up to, not including, another. -/
def stretch (c : CodeOf κ) (lo hi : Nat) : List Instruction :=
  c.instructions.filter fun i => decide (lo ≤ i.offset) && decide (i.offset < hi)

theorem stretch_self (c : CodeOf κ) (o : Nat) : c.stretch o o = [] := by
  refine List.filter_eq_nil_iff.2 fun i _ => ?_
  rw [Bool.and_eq_true, decide_eq_true_eq, decide_eq_true_eq]
  omega

/-- The instructions before and behind an instruction. -/
theorem instructions_split (hi : i ∈ c.instructions) : ∃ before behind,
    c.instructions = before ++ i :: behind ∧ (∀ j ∈ before, j.offset < i.offset) ∧
      ∀ j ∈ behind, i.offset < j.offset := by
  obtain ⟨before, behind, heq⟩ := List.append_of_mem hi
  have hs := c.instructions_sorted
  rw [heq, List.pairwise_append, List.pairwise_cons] at hs
  exact ⟨before, behind, heq, fun j hj => hs.2.2 j hj i List.mem_cons_self, hs.2.1.1⟩

theorem stretch_zero {before behind : List Instruction}
    (heq : c.instructions = before ++ i :: behind) (hb : ∀ j ∈ before, j.offset < i.offset)
    (ha : ∀ j ∈ behind, i.offset < j.offset) : c.stretch 0 i.offset = before := by
  have hnil : (i :: behind).filter (fun j =>
      decide (0 ≤ j.offset) && decide (j.offset < i.offset)) = [] := by
    refine List.filter_eq_nil_iff.2 (List.forall_mem_cons.2 ⟨by simp, fun j hj => ?_⟩)
    have := ha j hj
    rw [Bool.and_eq_true, decide_eq_true_eq, decide_eq_true_eq]
    omega
  unfold stretch
  rw [heq, List.filter_append, hnil, List.append_nil]
  exact List.filter_eq_self.2 fun j hj => by simpa using hb j hj

theorem stretch_succ (hi : i ∈ c.instructions) (hl : lo ≤ i.offset) :
    c.stretch lo (i.offset + 1) = c.stretch lo i.offset ++ [i] := by
  obtain ⟨before, behind, heq, hb, ha⟩ := instructions_split hi
  unfold stretch
  rw [heq, List.filter_append, List.filter_append, List.filter_cons_of_pos (by simpa using hl),
    List.filter_cons_of_neg (by simp), List.append_assoc]
  have behind_nil (n : Nat) (hn : n ≤ i.offset + 1) : (behind.filter fun j =>
      decide (lo ≤ j.offset) && decide (j.offset < n)) = [] := by
    refine List.filter_eq_nil_iff.2 fun j hj => ?_
    rw [Bool.and_eq_true, decide_eq_true_eq, decide_eq_true_eq]
    have := ha j hj
    omega
  rw [behind_nil _ (Nat.le_refl _), behind_nil _ (Nat.le_succ _), List.nil_append]
  refine congrArg (· ++ [i]) (List.filter_congr fun j hj => ?_)
  have := hb j hj
  rw [decide_eq_true (show j.offset < i.offset + 1 by omega), decide_eq_true this]

theorem stretch_succ_of_not (h : ¬c.isBoundary o = true) :
    c.stretch lo (o + 1) = c.stretch lo o := by
  refine List.filter_congr fun j hj => ?_
  have hne : j.offset ≠ o := fun ho => h (isBoundary_iff.2 ⟨j, hj, ho⟩)
  have hiff : j.offset < o + 1 ↔ j.offset < o := by omega
  rw [decide_eq_decide.2 hiff]

/-- What holds at an offset and is kept by every instruction holds at all later offsets. -/
theorem le_induct {P : Nat → Prop} (hl : lo ≤ hi) (h : P lo)
    (hstep : ∀ i ∈ c.instructions, lo ≤ i.offset → P i.offset → P (i.offset + 1))
    (hskip : ∀ o, lo ≤ o → ¬c.isBoundary o = true → P o → P (o + 1)) : P hi := by
  induction hi, hl using Nat.le_induction with
  | base => exact h
  | succ o ho ih =>
    by_cases hb : c.isBoundary o = true
    · obtain ⟨i, hi, rfl⟩ := isBoundary_iff.1 hb
      exact hstep i hi ho ih
    · exact hskip o ho hb ih

end CodeOf

/-! ### Open blocks -/

namespace StaticBlock

/-- What an instruction makes of the open blocks. -/
inductive Changes (i : Instruction) : List StaticBlock → List StaticBlock → Prop
  | opens {opened : List StaticBlock} (hop : i.opcode.isBlockSetup = true) :
    Changes i opened (⟨i.offset, i.opcode == .setupFinally, false⟩ :: opened)
  /-- The body of a `finally` block ends, and its handler begins. -/
  | turns {b : StaticBlock} {outer : List StaticBlock} (hop : i.opcode = .popBlock)
      (hb : b.isFinally = true) : Changes i (b :: outer) ({ b with inHandler := true } :: outer)
  | pops {b : StaticBlock} {outer : List StaticBlock} (hop : i.opcode = .popBlock)
      (hb : b.isFinally = false) : Changes i (b :: outer) outer
  | ends {b : StaticBlock} {outer : List StaticBlock} (hop : i.opcode = .endFinally)
      (hb : b.isFinally = true) : Changes i (b :: outer) outer
  | keeps {opened : List StaticBlock} (hs : i.opcode.isBlockSetup = false)
      (hop : i.opcode ≠ .popBlock) : Changes i opened opened

variable {name : String} {i : Instruction} {opened opened' : List StaticBlock}

theorem changes_of_step (h : step name opened i = .ok opened') : Changes i opened opened' := by
  obtain ⟨o, op, arg⟩ := i
  cases op
  case setupLoop | setupExcept | setupFinally =>
    cases h
    exact .opens rfl
  case popBlock =>
    cases opened with
    | nil => cases h
    | cons b outer =>
      obtain rfl := Except.ok.inj h
      by_cases hb : b.isFinally = true
      · rw [if_pos hb]
        exact .turns rfl hb
      · rw [if_neg hb]
        exact .pops rfl (Bool.eq_false_iff.2 hb)
  case endFinally =>
    cases opened with
    | nil =>
      cases h
      exact .keeps rfl nofun
    | cons b outer =>
      obtain rfl := Except.ok.inj h
      by_cases hb : b.isFinally = true
      · rw [if_pos hb]
        exact .ends rfl hb
      · rw [if_neg hb]
        exact .keeps rfl nofun
  all_goals
    cases h
    exact .keeps rfl nofun

/-- Instructions that can be scanned can be scanned up to any of them. -/
theorem scan_append_cons {before behind : List Instruction}
    (h : scan name (before ++ i :: behind) = .ok opened) : ∃ now next,
      scan name before = .ok now ∧ step name now i = .ok next ∧
        scan name (before ++ [i]) = .ok next := by
  unfold scan at h ⊢
  rw [List.foldlM_append] at h
  rw [List.foldlM_append]
  cases hbefore : before.foldlM (step name) [] with
  | error e =>
    rw [hbefore] at h
    cases h
  | ok now =>
    rw [hbefore] at h
    replace h : (i :: behind).foldlM (step name) now = .ok opened := h
    rw [List.foldlM_cons] at h
    cases hstep : step name now i with
    | error e =>
      rw [hstep] at h
      cases h
    | ok next =>
      refine ⟨now, next, rfl, hstep, ?_⟩
      show [i].foldlM (step name) now = .ok next
      rw [List.foldlM_cons, hstep]
      rfl

/-- The handler that runs right after an instruction is the innermost one of the blocks that are
open then. -/
theorem lookup_handlers {before behind : List Instruction}
    (h : (before ++ [i]).foldlM (step name) opened = .ok opened')
    (hb : ∀ j ∈ before, j.offset < i.offset) :
    (handlers name (before ++ i :: behind) opened).lookup i.offset =
      some (innermostHandler? opened') := by
  induction before generalizing opened with
  | nil =>
    rw [List.nil_append, List.foldlM_cons] at h
    rw [List.nil_append, handlers]
    cases hs : step name opened i with
    | error e =>
      rw [hs] at h
      cases h
    | ok next =>
      rw [hs] at h
      cases h
      exact List.lookup_cons_self
  | cons j before ih =>
    rw [List.cons_append, List.foldlM_cons] at h
    rw [List.cons_append, handlers]
    cases hs : step name opened j with
    | error e =>
      rw [hs] at h
      cases h
    | ok next =>
      rw [hs] at h
      -- the instructions before lie at other offsets, and are passed over
      have hne : (i.offset == j.offset) = false := by
        have := hb j List.mem_cons_self
        simp only [beq_eq_false_iff_ne, ne_eq]
        omega
      show List.lookup i.offset ((j.offset, _) :: _) = _
      rw [List.lookup_cons, hne]
      exact ih h fun k hk => hb k (List.mem_cons_of_mem j hk)

end StaticBlock

namespace CodeOf

open StaticBlock

variable {κ : Type} {c : CodeOf κ} {lo hi o s p e : Nat} {i : Instruction} {b : StaticBlock}

/-- The blocks that the instructions before an offset leave open, innermost first. -/
def openedBefore (c : CodeOf κ) (o : Nat) : List StaticBlock :=
  ((scan c.name (c.stretch 0 o)).toOption).getD []

theorem openedBefore_zero (c : CodeOf κ) : c.openedBefore 0 = [] := by
  unfold openedBefore
  rw [stretch_self]
  rfl

theorem openedBefore_succ_of_not (h : ¬c.isBoundary o = true) :
    c.openedBefore (o + 1) = c.openedBefore o := by
  unfold openedBefore
  rw [stretch_succ_of_not h]

namespace Valid

/-- Valid code can be scanned up to any of its instructions. -/
theorem scanned (h : c.Valid) (hi : i ∈ c.instructions) : ∃ before behind,
    c.instructions = before ++ i :: behind ∧ (∀ j ∈ before, j.offset < i.offset) ∧
      step c.name (c.openedBefore i.offset) i = .ok (c.openedBefore (i.offset + 1)) ∧
      scan c.name (before ++ [i]) = .ok (c.openedBefore (i.offset + 1)) := by
  obtain ⟨before, behind, heq, hb, ha⟩ := instructions_split hi
  obtain ⟨-, -, opened, hscan⟩ := h.spec
  rw [heq] at hscan
  obtain ⟨now, next, hnow, hstep, hnext⟩ := scan_append_cons hscan
  have hbefore : c.openedBefore i.offset = now := by
    unfold openedBefore
    rw [stretch_zero heq hb ha, hnow]
    rfl
  have hafter : c.openedBefore (i.offset + 1) = next := by
    unfold openedBefore
    rw [stretch_succ hi (Nat.zero_le _), stretch_zero heq hb ha, hnext]
    rfl
  rw [hbefore, hafter]
  exact ⟨before, behind, heq, hb, hstep, hnext⟩

theorem changes (h : c.Valid) (hi : i ∈ c.instructions) :
    Changes i (c.openedBefore i.offset) (c.openedBefore (i.offset + 1)) := by
  obtain ⟨-, -, -, -, hs, -⟩ := h.scanned hi
  exact changes_of_step hs

/-- The handler that runs right after an instruction. -/
theorem handlerAt? (h : c.Valid) (hi : i ∈ c.instructions) :
    c.handlerAt? i.offset = innermostHandler? (c.openedBefore (i.offset + 1)) := by
  obtain ⟨before, behind, heq, hb, -, hs⟩ := h.scanned hi
  unfold CodeOf.handlerAt?
  rw [heq, lookup_handlers hs hb]
  rfl

/-- What holds of the open blocks at an offset and is kept by every change holds of those at any
later offset. -/
theorem follow {P : Nat → List StaticBlock → Prop} (h : c.Valid) (hl : lo ≤ hi)
    (h0 : P lo (c.openedBefore lo))
    (hstep : ∀ i opened opened', lo ≤ i.offset → opened = c.openedBefore i.offset →
      Changes i opened opened' → P i.offset opened → P (i.offset + 1) opened')
    (hskip : ∀ o opened, P o opened → P (o + 1) opened) : P hi (c.openedBefore hi) := by
  refine le_induct (c := c) (P := fun o => P o (c.openedBefore o)) hl h0
    (fun i hi hlo hp => ?_) fun o _ ho hp => ?_
  · exact hstep i _ _ hlo rfl (h.changes hi) hp
  · rw [openedBefore_succ_of_not ho]
    exact hskip o _ hp

/-- Blocks were opened before, and only `finally` blocks have handlers. -/
theorem mem_openedBefore (h : c.Valid) (hb : b ∈ c.openedBefore o) :
    b.setup < o ∧ (b.inHandler = true → b.isFinally = true) := by
  refine h.follow
    (P := fun o opened => ∀ b ∈ opened, b.setup < o ∧ (b.inHandler = true → b.isFinally = true))
    (Nat.zero_le o) ?_ ?_ ?_ b hb
  · rw [openedBefore_zero]
    exact fun b hb => absurd hb List.not_mem_nil
  · intro i opened opened' _ _ hch ih b hb
    cases hch with
    | opens _ =>
      rcases List.mem_cons.1 hb with rfl | hb
      · exact ⟨Nat.lt_succ_self _, nofun⟩
      · exact (ih b hb).imp_left Nat.lt_succ_of_lt
    | turns _ hf =>
      rcases List.mem_cons.1 hb with rfl | hb
      · exact ⟨Nat.lt_succ_of_lt (ih _ List.mem_cons_self).1, fun _ => hf⟩
      · exact (ih b (List.mem_cons_of_mem _ hb)).imp_left Nat.lt_succ_of_lt
    | pops _ _ | ends _ _ => exact (ih b (List.mem_cons_of_mem _ hb)).imp_left Nat.lt_succ_of_lt
    | keeps _ _ => exact (ih b hb).imp_left Nat.lt_succ_of_lt
  · exact fun o opened ih b hb => (ih b hb).imp_left Nat.lt_succ_of_lt

/-- While a block is open, nothing changes around it. -/
theorem outer_eq (h : c.Valid) {inner outer : List StaticBlock}
    (ho : c.openedBefore o = inner ++ b :: outer) : outer = c.openedBefore b.setup := by
  refine h.follow
    (P := fun _ opened => ∀ inner b outer, opened = inner ++ b :: outer →
      outer = c.openedBefore b.setup)
    (Nat.zero_le o) ?_ ?_ ?_ inner b outer ho
  · rw [openedBefore_zero]
    exact fun inner b outer heq => absurd heq.symm (List.append_ne_nil_of_right_ne_nil _ nofun)
  · intro i opened opened' _ hnow hch ih inner b outer heq
    cases hch with
    | opens _ =>
      rcases List.cons_eq_append_iff.1 heq with ⟨-, hb⟩ | ⟨inner', -, hb⟩
      · cases hb
        exact hnow
      · exact ih inner' b outer hb
    | @turns b' =>
      rcases List.cons_eq_append_iff.1 heq with ⟨-, hb⟩ | ⟨inner', -, hb⟩
      · cases hb
        exact ih [] b' _ rfl
      · exact ih (b' :: inner') b outer (congrArg (b' :: ·) hb)
    | @pops b' | @ends b' => exact ih (b' :: inner) b outer (congrArg (b' :: ·) heq)
    | keeps _ _ => exact ih inner b outer heq
  · exact fun o opened ih => ih

/-- What the blocks open at an offset are, and stay when their handlers begin, those that are open
later and were opened before are. -/
theorem lasts {Q : StaticBlock → Prop} (h : c.Valid) (hl : lo ≤ hi)
    (hQ : ∀ b, Q b → Q { b with inHandler := true }) (h0 : ∀ b ∈ c.openedBefore lo, Q b) :
    ∀ b ∈ c.openedBefore hi, b.setup < lo → Q b := by
  refine h.follow (P := fun _ opened => ∀ b ∈ opened, b.setup < lo → Q b) hl
    (fun b hb _ => h0 b hb) ?_ fun _ _ ih => ih
  intro i opened opened' hlo _ hch ih b hb hs
  cases hch with
  | opens _ =>
    rcases List.mem_cons.1 hb with rfl | hb
    · exact absurd hs (Nat.not_lt.2 hlo)
    · exact ih b hb hs
  | turns _ _ =>
    rcases List.mem_cons.1 hb with rfl | hb
    · exact hQ _ (ih _ List.mem_cons_self hs)
    · exact ih b (List.mem_cons_of_mem _ hb) hs
  | pops _ _ | ends _ _ => exact ih b (List.mem_cons_of_mem _ hb) hs
  | keeps _ _ => exact ih b hb hs

end Valid

/-! ### Handlers -/

/-- The handler of the `finally` block opened at `s` runs at the offset: it has begun before and has
not ended before. -/
def Runs (c : CodeOf κ) (s o : Nat) : Prop := ⟨s, true, true⟩ ∈ c.openedBefore o

/-- The `POP_BLOCK` at `p` begins the handler of the `finally` block opened at `s`. -/
def BeginsHandler (c : CodeOf κ) (s p : Nat) : Prop :=
  ∃ i ∈ c.instructions, i.offset = p ∧ i.opcode = .popBlock ∧
    (c.openedBefore p).head? = some ⟨s, true, false⟩

/-- The `END_FINALLY` at `e` ends the handler of the `finally` block opened at `s`. -/
def EndsHandler (c : CodeOf κ) (s e : Nat) : Prop :=
  ∃ i ∈ c.instructions, i.offset = e ∧ i.opcode = .endFinally ∧
    (c.openedBefore e).head? = some ⟨s, true, true⟩

theorem EndsHandler.runs (h : c.EndsHandler s e) : c.Runs s e := by
  obtain ⟨i, -, -, -, hh⟩ := h
  exact List.mem_of_head? hh

/-- An instruction that finds a block finds those around it too. -/
theorem Valid.step_of_head? (hv : c.Valid) (hi : i ∈ c.instructions)
    (hh : (c.openedBefore i.offset).head? = some b) : ∃ outer,
      c.openedBefore i.offset = b :: outer ∧
        step c.name (b :: outer) i = .ok (c.openedBefore (i.offset + 1)) := by
  obtain ⟨outer, ho⟩ := List.head?_eq_some_iff.1 hh
  obtain ⟨-, -, -, -, hs, -⟩ := hv.scanned hi
  rw [ho] at hs
  exact ⟨outer, ho, hs⟩

theorem BeginsHandler.openedBefore (h : c.BeginsHandler s p) (hv : c.Valid) : ∃ outer,
    c.openedBefore p = ⟨s, true, false⟩ :: outer ∧
      c.openedBefore (p + 1) = ⟨s, true, true⟩ :: outer := by
  obtain ⟨i, hi, rfl, hop, hh⟩ := h
  obtain ⟨outer, ho, hs⟩ := hv.step_of_head? hi hh
  unfold step at hs
  rw [hop] at hs
  exact ⟨outer, ho, (Except.ok.inj hs).symm⟩

theorem EndsHandler.openedBefore (h : c.EndsHandler s e) (hv : c.Valid) : ∃ outer,
    c.openedBefore e = ⟨s, true, true⟩ :: outer ∧ c.openedBefore (e + 1) = outer := by
  obtain ⟨i, hi, rfl, hop, hh⟩ := h
  obtain ⟨outer, ho, hs⟩ := hv.step_of_head? hi hh
  unfold step at hs
  rw [hop] at hs
  exact ⟨outer, ho, (Except.ok.inj hs).symm⟩

/-- Where nothing opened at `s` is open any more, nothing ever will be. -/
theorem Valid.gone (hv : c.Valid) (hl : lo ≤ hi) (hs : s < lo)
    (h : ∀ b ∈ c.openedBefore lo, b.setup ≠ s) : ∀ b ∈ c.openedBefore hi, b.setup ≠ s :=
  fun b hb hbs => hv.lasts (Q := fun b => b.setup ≠ s) hl (fun _ h => h) h b hb (hbs ▸ hs) hbs

/-- A block whose handler has begun never is in its body again. -/
theorem Valid.begun (hv : c.Valid) (hl : lo ≤ hi) (hs : s < lo)
    (h : ∀ b ∈ c.openedBefore lo, b.setup = s → b = ⟨s, true, true⟩) :
    ∀ b ∈ c.openedBefore hi, b.setup = s → b = ⟨s, true, true⟩ := by
  refine fun b hb hbs => hv.lasts (Q := fun b => b.setup = s → b = ⟨s, true, true⟩) hl ?_ h b hb
    (hbs ▸ hs) hbs
  intro b hb hs
  rw [hb hs]

/-- The blocks around a block were opened before it. -/
theorem Valid.outer_lt (hv : c.Valid) {inner outer : List StaticBlock}
    (ho : c.openedBefore o = inner ++ b :: outer) : ∀ b' ∈ outer, b'.setup < b.setup := by
  intro b' hb
  rw [hv.outer_eq ho] at hb
  exact (hv.mem_openedBefore hb).1

/-- No block is open twice. -/
theorem Valid.setups_nodup (hv : c.Valid) (o : Nat) :
    ((c.openedBefore o).map StaticBlock.setup).Nodup := by
  have from_outside (outer inner : List StaticBlock) (ho : c.openedBefore o = inner ++ outer) :
      (outer.map StaticBlock.setup).Nodup := by
    induction outer generalizing inner with
    | nil => exact .nil
    | cons b outer ih =>
      have hin : c.openedBefore o = (inner ++ [b]) ++ outer := by
        rw [ho, List.append_assoc]
        rfl
      refine List.nodup_cons.2 ⟨fun hb => ?_, ih (inner ++ [b]) hin⟩
      obtain ⟨b', hb', hs⟩ := List.mem_map.1 hb
      have := hv.outer_lt ho b' hb'
      omega
  exact from_outside _ [] rfl

theorem Valid.eq_of_setup (hv : c.Valid) {b b' : StaticBlock} (hb : b ∈ c.openedBefore o)
    (hb' : b' ∈ c.openedBefore o) (hs : b.setup = b'.setup) : b = b' :=
  List.inj_on_of_nodup_map (hv.setups_nodup o) hb hb' hs

/-- **Where a handler runs**: behind the `POP_BLOCK` that begins it, and up to the `END_FINALLY`
that ends it, which is still executed with what the handler has found. -/
theorem Valid.runs_iff (hv : c.Valid) (hp : c.BeginsHandler s p) (he : c.EndsHandler s e) :
    c.Runs s o ↔ p < o ∧ o ≤ e := by
  obtain ⟨inside, hp, hp'⟩ := hp.openedBefore hv
  obtain ⟨outer, he, he'⟩ := he.openedBefore hv
  have hsp : s < p := (hv.mem_openedBefore (hp ▸ List.mem_cons_self)).1
  have hse : s < e := (hv.mem_openedBefore (he ▸ List.mem_cons_self)).1
  have only {o : Nat} (h : c.Runs s o) :
      ∀ b ∈ c.openedBefore o, b.setup = s → b = ⟨s, true, true⟩ :=
    fun b hb hbs => hv.eq_of_setup hb h hbs
  constructor
  · intro h
    have hso : s < o := (hv.mem_openedBefore h).1
    constructor <;> by_contra hn
    -- the block would be in its body again at `p`, or open again behind `e`
    · have hb := hv.begun (Nat.not_lt.1 hn) hso (only h) _ (hp ▸ List.mem_cons_self) rfl
      cases hb
    · have hout : ∀ b ∈ c.openedBefore (e + 1), b.setup ≠ s := by
        intro b hb hbs
        have hsplit : c.openedBefore e = [] ++ ⟨s, true, true⟩ :: outer := he
        have hlt := hv.outer_lt hsplit b (he' ▸ hb)
        exact absurd hbs (Nat.ne_of_lt hlt)
      exact hv.gone (Nat.not_le.1 hn) (Nat.lt_succ_of_lt hse) hout _ h rfl
  · rintro ⟨hpo, hoe⟩
    have hat := hv.begun (Nat.succ_le_of_lt hpo) (Nat.lt_succ_of_lt hsp)
      (only (by unfold Runs; exact hp' ▸ List.mem_cons_self))
    by_contra hn
    have hnone : ∀ b ∈ c.openedBefore o, b.setup ≠ s := by
      intro b hb hbs
      rw [hat b hb hbs] at hb
      exact hn hb
    exact hv.gone hoe (Nat.lt_trans hsp hpo) hnone _ (he ▸ List.mem_cons_self) rfl

/-- Inside the innermost handler that runs, no other runs, and around it those that run where its
block was opened. -/
theorem Valid.runs_iff_of_innermost (hv : c.Valid) :
    c.Runs s o ↔ match innermostHandler? (c.openedBefore o) with
      | none => False
      | some t => s = t ∨ c.Runs s t := by
  unfold Runs innermostHandler?
  cases hf : (c.openedBefore o).find? inHandler with
  | none =>
    rw [List.find?_eq_none] at hf
    exact iff_of_false (fun h => hf _ h rfl) id
  | some b =>
    obtain ⟨hb, inner, outer, ho, hin⟩ := List.find?_eq_some_iff_append.1 hf
    have hfin := (hv.mem_openedBefore (List.mem_of_find?_eq_some hf)).2 hb
    obtain ⟨t, isF, inH⟩ := b
    dsimp only at hb hfin
    subst hb hfin
    simp only [Option.map_some]
    rw [← hv.outer_eq ho, ho, List.mem_append, List.mem_cons, StaticBlock.mk.injEq]
    simp only [and_true]
    refine or_iff_right fun hs => ?_
    have := hin _ hs
    cases this

/-- If the same innermost handler runs, the same handlers run. -/
theorem Valid.runs_congr (hv : c.Valid) {o' : Nat}
    (h : innermostHandler? (c.openedBefore o) = innermostHandler? (c.openedBefore o')) :
    c.Runs s o ↔ c.Runs s o' := by
  rw [hv.runs_iff_of_innermost, h, ← hv.runs_iff_of_innermost]

/-! ### Blocks in pairs -/

/-- The blocks that are open at an offset and have not got to their handlers, innermost first. -/
def openAt (c : CodeOf κ) (o : Nat) : List StaticBlock :=
  (c.openedBefore o).filter fun b => !b.inHandler

/-- Blocks pair up: a `POP_BLOCK` finds the innermost block in its body, and an `END_FINALLY` closes
no `finally` block that has not got to its handler. -/
def Paired (c : CodeOf κ) : Prop :=
  ∀ i ∈ c.instructions, ∀ b ∈ (c.openedBefore i.offset).head?,
    (i.opcode = .popBlock → b.inHandler = false) ∧
      (i.opcode = .endFinally → b.isFinally = true → b.inHandler = true)

/-- The blocks that are open at `a` and not at `b`: those that are left on the way from `a` to `b`,
and entered on the way back. -/
def left (c : CodeOf κ) (a b : Nat) : List StaticBlock :=
  (c.openAt a).filter fun s => decide (s ∉ c.openAt b)

theorem Valid.lt_of_mem_openAt (hv : c.Valid) (hb : b ∈ c.openAt o) : b.setup < o :=
  (hv.mem_openedBefore (List.mem_of_mem_filter hb)).1

theorem Valid.openAt_nodup (hv : c.Valid) (o : Nat) : (c.openAt o).Nodup :=
  (List.Nodup.of_map _ (hv.setups_nodup o)).filter _

theorem openAt_succ_of_not (h : ¬c.isBoundary o = true) : c.openAt (o + 1) = c.openAt o :=
  congrArg (List.filter _) (openedBefore_succ_of_not h)

/-- Where blocks pair up, they are opened and closed as brackets are. -/
theorem Paired.openAt_succ (hp : c.Paired) (hv : c.Valid) (hi : i ∈ c.instructions) :
    (i.opcode.isBlockSetup = true ∧
      ∃ b, b.setup = i.offset ∧ c.openAt (i.offset + 1) = b :: c.openAt i.offset) ∨
    (i.opcode = .popBlock ∧ ∃ b, c.openAt i.offset = b :: c.openAt (i.offset + 1)) ∨
    (i.opcode.isBlockSetup = false ∧ i.opcode ≠ .popBlock ∧
      c.openAt (i.offset + 1) = c.openAt i.offset) := by
  have hpi := hp i hi
  have hch := hv.changes hi
  unfold openAt
  generalize c.openedBefore i.offset = opened at hpi hch
  generalize c.openedBefore (i.offset + 1) = opened' at hch
  cases hch with
  | opens hop => exact .inl ⟨hop, _, rfl, List.filter_cons_of_pos rfl⟩
  | @turns b outer hop hf =>
    have hin := (hpi _ rfl).1 hop
    refine .inr (.inl ⟨hop, b, ?_⟩)
    rw [List.filter_cons_of_pos (by rw [hin]; rfl), List.filter_cons_of_neg Bool.false_ne_true]
  | pops hop hf =>
    have hin := (hpi _ rfl).1 hop
    exact .inr (.inl ⟨hop, _, List.filter_cons_of_pos (by rw [hin]; rfl)⟩)
  | ends hop hf =>
    have hin := (hpi _ rfl).2 hop hf
    refine .inr (.inr ⟨by rw [hop]; rfl, by rw [hop]; exact nofun, ?_⟩)
    rw [List.filter_cons_of_neg (by rw [hin]; exact nofun)]
  | keeps hs hop => exact .inr (.inr ⟨hs, hop, rfl⟩)

theorem blockBalance_concat (is : List Instruction) (i : Instruction) :
    blockBalance (is ++ [i]) =
      if i.opcode.isBlockSetup then ((blockBalance is).1 + 1, (blockBalance is).2)
      else if i.opcode = .popBlock then
        ((blockBalance is).1 - 1, min (blockBalance is).2 ((blockBalance is).1 - 1))
      else blockBalance is := by
  unfold blockBalance
  rw [List.foldl_append]
  rfl

/-- What becomes of the open blocks on the way from `lo` to `hi`: some are closed, others are
opened, and the rest is open throughout.  The balance of the instructions counts the former two. -/
structure Crosses (c : CodeOf κ) (lo hi : Nat) (closed opened common : List StaticBlock) :
    Prop where
  start : c.openAt lo = closed ++ common
  stop : c.openAt hi = opened ++ common
  new : ∀ b ∈ opened, lo ≤ b.setup
  balance : blockBalance (c.stretch lo hi) =
    ((opened.length : Int) - closed.length, -(closed.length : Int))

theorem Paired.crosses (hp : c.Paired) (hv : c.Valid) (hl : lo ≤ hi) :
    ∃ closed opened common, c.Crosses lo hi closed opened common := by
  refine le_induct (c := c) (P := fun hi => ∃ closed opened common,
    c.Crosses lo hi closed opened common) hl ?_ ?_ ?_
  · refine ⟨[], [], c.openAt lo, rfl, rfl, nofun, ?_⟩
    rw [stretch_self]
    rfl
  · rintro i hi hlo ⟨closed, opened, common, hfrom, hto, hnew, hbal⟩
    have hconcat := blockBalance_concat (c.stretch lo i.offset) i
    rw [← stretch_succ hi hlo, hbal] at hconcat
    rcases hp.openAt_succ hv hi with ⟨hop, b, hb, ho⟩ | ⟨hop, b, ho⟩ | ⟨hs, hop, ho⟩
    · rw [if_pos hop] at hconcat
      refine ⟨closed, b :: opened, common, hfrom, by rw [ho, hto]; rfl,
        List.forall_mem_cons.2 ⟨hlo.trans_eq hb.symm, hnew⟩, hconcat.trans ?_⟩
      rw [List.length_cons, Prod.mk.injEq]
      omega
    · rw [if_neg (by rw [hop]; exact nofun), if_pos hop] at hconcat
      rw [hto] at ho
      cases opened with
      | nil =>
        -- what is closed was open at the start
        refine ⟨closed ++ [b], [], c.openAt (i.offset + 1), ?_, rfl, nofun, hconcat.trans ?_⟩
        · rw [hfrom, List.append_assoc]
          exact congrArg (closed ++ ·) ho
        · rw [List.length_append, List.length_singleton, List.length_nil, Prod.mk.injEq]
          omega
      | cons b' opened =>
        refine ⟨closed, opened, common, hfrom, (List.cons.inj ho).2.symm,
          fun b hb => hnew b (List.mem_cons_of_mem _ hb), hconcat.trans ?_⟩
        rw [List.length_cons, Prod.mk.injEq]
        omega
    · rw [if_neg (by rw [hs]; exact nofun), if_neg hop] at hconcat
      exact ⟨closed, opened, common, hfrom, ho.trans hto, hnew, hconcat⟩
  · rintro o ho hb ⟨closed, opened, common, hfrom, hto, hnew, hbal⟩
    exact ⟨closed, opened, common, hfrom, (openAt_succ_of_not hb).trans hto, hnew,
      (congrArg blockBalance (stretch_succ_of_not hb)).trans hbal⟩

/-- The blocks closed on the way are those left by it, and the blocks opened are those left on the
way back. -/
theorem Paired.crosses_left (hp : c.Paired) (hv : c.Valid) (hl : lo ≤ hi) :
    ∃ common, c.Crosses lo hi (c.left lo hi) (c.left hi lo) common := by
  obtain ⟨closed, opened, common, h⟩ := hp.crosses hv hl
  -- a block that is open at the lower offset was set up before it
  have old : ∀ b ∈ c.openAt lo, b ∉ opened := by
    intro b hb ho
    have := hv.lt_of_mem_openAt hb
    have := h.new b ho
    omega
  have hclosed : c.left lo hi = closed := by
    have hn := hv.openAt_nodup lo
    rw [h.start, List.nodup_append] at hn
    unfold left
    rw [h.start, List.filter_append, List.filter_eq_self.2, List.filter_eq_nil_iff.2,
      List.append_nil]
    · intro b hb
      rw [h.stop]
      simp [hb]
    · intro b hb
      rw [h.stop, decide_eq_true_eq, List.mem_append, not_or]
      exact ⟨old b (h.start ▸ List.mem_append_left _ hb), fun hc => hn.2.2 b hb b hc rfl⟩
  have hopened : c.left hi lo = opened := by
    unfold left
    rw [h.stop, List.filter_append, List.filter_eq_self.2, List.filter_eq_nil_iff.2,
      List.append_nil]
    · intro b hb
      rw [h.start]
      simp [hb]
    · exact fun b hb => decide_eq_true fun h => old b h hb
  rw [hclosed, hopened]
  exact ⟨common, h⟩

end CodeOf

end Resumable
