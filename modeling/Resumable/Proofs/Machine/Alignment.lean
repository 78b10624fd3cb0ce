import Resumable.Proofs.Bytecode.Coverage
import Resumable.Proofs.Machine.Life

/-!
# A frame stays on the instructions of its code

A frame whose handlers start in a set of offsets goes on in this set, whatever is raised in it or
handed to it (`Frame.Arrives`), and wherever an instruction leads it, if the offset after the
instruction and its target belong to the set (`Frame.follows_departs`).

Valid code only leads from instruction to instruction, or to its end (`Valid.next`, `Valid.target`).
A frame is `Frame.Aligned` at a standing if it goes on at such a target, and the handlers of its
live blocks start at one; every move keeps it so (`Frame.Aligned.moves`).  What could lead it astray
is a value that continues a loop, when it comes from other code.

So a frame that is handed back has executed an instruction last, and its handlers start at
instructions or at the end (`Frame.History.anchored`).
-/

namespace Resumable

/-- The values that may get on the stack of a frame of code `c`: if one continues a loop, then at an
instruction of the code or at its end. -/
def CodeOf.Guides {κ : Type} (c : CodeOf κ) (v : Value) : Prop :=
  ∀ t, v = .suspended (.continuing t) → c.Target t

namespace Opcode

variable {op : Opcode}

theorem fallsThrough_of_isPlain (h : op.isPlain = true) : op.fallsThrough = true := by
  cases op <;> first
    | rfl
    | cases h

theorem addressing?_of_isJump (h : op.isJump = true) : op.addressing?.isSome = true := by
  cases op <;> first
    | rfl
    | cases h

/-- A block is entered by going on, and its handler starts at the target. -/
theorem spec_of_isBlockSetup (h : op.isBlockSetup = true) :
    op.fallsThrough = true ∧ op.addressing?.isSome = true := by
  cases op <;> first
    | exact ⟨rfl, rfl⟩
    | cases h

end Opcode

namespace Frame

/-- What the frame is about to do from a standing concerns instructions of code `c`. -/
def Faces (c : Code) (f : Frame) : Standing → Prop
  | .starting _ => ∀ o, f.resumeOffset = .ok o → c.Target o
  | .before o => c.Target o
  | .leaving (.ok (.yielded _)) => ∀ o, f.lastOffset = some o → c.isBoundary o = true
  | .leaving _ => True
  | .calling site => site ∈ c.instructions
  | .looping site => site ∈ c.instructions ∧ c.Target site.target

/-- The frame goes on at a target, and so do the handlers of its live blocks. -/
structure Aligned (c : Code) (f : Frame) (s : Standing) : Prop where
  handlers : ∀ b ∈ f.blocks, c.Target b.handler
  faces : f.Faces c s

variable {c : CodeObject} {f g : Frame} {i : Instruction} {o : Nat}

/-! ### What a hook leaves -/

/-- A courteous hook leaves the frame fewer blocks and values, and at the same offset or where a
line starts. -/
theorem Adjusts.spec (ha : f.Adjusts g) :
    g.code = f.code ∧ g.blocks <:+ f.blocks ∧ g.stack.slots <:+ f.stack.slots ∧
      (g.lastOffset = f.lastOffset ∨ ∃ target line, g.lastOffset = some target ∧
        (target, line) ∈ f.code.body.lineStarts ∧ target < f.code.body.bytecode.length) := by
  induction ha with
  | refl => exact ⟨rfl, List.suffix_rfl, List.suffix_rfl, .inl rfl⟩
  | @jump g _ _ _ hj ih =>
    obtain ⟨hc, hb, hs, -⟩ := ih
    obtain ⟨keep, target, line, hm, hl, rfl⟩ := jump_spec hj
    obtain ⟨hb', hs', -, -⟩ := dropBlocks_spec keep g.blocks g.stack
    rw [hc] at hm hl
    exact ⟨hc, hb'.trans hb, hs'.trans hs, .inr ⟨target, line, rfl, hm, hl⟩⟩
  | bind _ hs ih =>
    unfold setFastLocal at hs
    split at hs
    · cases hs
    · split at hs <;> cases hs
      exact ih
  | @popBlock g _ _ _ hb ih =>
    unfold Frame.popBlock at hb
    split at hb
    · cases hb
    · rename_i b outer hg
      cases hb
      rw [hg] at ih
      exact ⟨ih.1, (List.suffix_cons _ outer).trans ih.2.1, ih.2.2⟩
  | setTrace _ hook ih => exact ih

/-- A target lies where a frame can record it, if the code is not too long. -/
theorem recordedOffset_of_target (hc : f.code = c) (ht : c.body.Target o)
    (hlen : c.body.bytecode.length ≤ farthestOffset) : f.recordedOffset o = o := by
  refine if_pos ?_
  rcases ht with rfl | hb
  · exact .inl hlen
  · obtain ⟨j, -, hj⟩ := CodeOf.decode_of_isBoundary hb
    rw [hc]
    exact .inr (Instruction.next_le_of_decode hj).1

/-- Where a frame executes after its line has been followed: a hook can only move it to a target. -/
theorem Aligned.reaches {σ : Type} {host : Host σ} {hooks : Prop} {o' : Nat} (hv : c.body.Valid)
    (hcode : f.code = c) (hhook : f.trace.hook.isSome = true → hooks)
    (hh : hooks → host.Courteous) (hlen : hooks → c.body.bytecode.length ≤ farthestOffset)
    (ha : f.Aligned c.body (.before o)) (ht : Traced host f o g o') :
    g.code = c ∧ c.body.Target o' ∧ g.lastOffset = some (g.recordedOffset o') ∧
      (∀ b ∈ g.blocks, c.body.Target b.handler) ∧ g.stack.slots <:+ f.stack.slots := by
  obtain ⟨trace, -, hr⟩ := f.reported_spec o
  rcases ht.hooked_or with ⟨rfl, rfl⟩ | ⟨hs, hadj, rfl⟩
  · rw [hr]
    exact ⟨hcode, ha.faces, rfl, ha.handlers, List.suffix_rfl⟩
  · have hhooks := hhook hs
    have hlen := hlen hhooks
    obtain ⟨hc, hb, hst, hlast⟩ := (hadj (hh hhooks)).spec
    rw [hr] at hc hb hst hlast
    have hc : g.code = c := hc.trans hcode
    obtain ⟨t, hg, htarget⟩ : ∃ t, g.lastOffset = some t ∧ c.body.Target t := by
      rcases hlast with hl | ⟨target, line, hl, hm, -⟩
      · rw [recordedOffset_of_target hcode ha.faces hlen] at hl
        exact ⟨o, hl, ha.faces⟩
      · exact ⟨target, hl, hv.lineStart (by rw [← hcode]; exact hm)⟩
    rw [hg, Option.getD_some, recordedOffset_of_target hc htarget hlen]
    exact ⟨hc, htarget, rfl, fun b hm => ha.handlers b (hb.subset hm), hst⟩

/-- What a frame executes after its line has been followed. -/
theorem Aligned.traced {σ : Type} {host : Host σ} {hooks : Prop} {o' : Nat} (hv : c.body.Valid)
    (hcode : f.code = c) (hhook : f.trace.hook.isSome = true → hooks)
    (hh : hooks → host.Courteous) (hlen : hooks → c.body.bytecode.length ≤ farthestOffset)
    (ha : f.Aligned c.body (.before o)) (ht : Traced host f o g o')
    (hd : Instruction.decode g.code.body.bytecode o' = .ok i) :
    i ∈ c.body.instructions ∧ g.lastOffset = some i.offset ∧ c.body.isBoundary i.offset = true ∧
      (∀ b ∈ g.blocks, c.body.Target b.handler) ∧ g.stack.slots <:+ f.stack.slots := by
  obtain ⟨hc, htarget, hlast, hb, hst⟩ := ha.reaches hv hcode hhook hh hlen ht
  have hl := (Instruction.next_le_of_decode hd).1
  have hi := Instruction.offset_of_decode hd
  rw [recordedOffset_of_lt hl, ← hi] at hlast
  rw [hc] at hd
  obtain ⟨hbound, hmem⟩ := htarget.isBoundary hd
  rw [← hi] at hbound
  exact ⟨hmem, hlast, hbound, hb, hst⟩

/-! ### Moves -/

/-- A frame that has come to a target goes on at one. -/
theorem target_of_resumeOffset (hv : c.body.Valid) (hc : f.code = c)
    (hlast : ∀ o, f.lastOffset = some o → c.body.Target o) (ho : f.resumeOffset = .ok o) :
    c.body.Target o := by
  cases hl : f.lastOffset with
  | none =>
    unfold resumeOffset at ho
    rw [hl] at ho
    cases ho
    exact hv.zero
  | some last =>
    rcases hlast last hl with rfl | hb
    · unfold resumeOffset at ho
      rw [hl, hc] at ho
      dsimp only at ho
      rw [CodeOf.opcodeAt?_length] at ho
      cases ho
    · obtain ⟨i, hi, hd⟩ := CodeOf.decode_of_isBoundary hb
      rw [resumeOffset_of_decode hl (hc ▸ hd)] at ho
      cases ho
      exact hv.next hi

/-- If it does not go on, it has run off the end. -/
theorem resumeOffset_eq_error (hc : f.code = c)
    (hlast : ∀ o, f.lastOffset = some o → c.body.Target o) {e : Fault}
    (he : f.resumeOffset = .error e) : ∃ b, e = .invalidOpcode c.body.bytecode.length b := by
  cases hl : f.lastOffset with
  | none =>
    unfold resumeOffset at he
    rw [hl] at he
    cases he
  | some last =>
    rcases hlast last hl with rfl | hb
    · unfold resumeOffset at he
      rw [hl, hc] at he
      dsimp only at he
      rw [CodeOf.opcodeAt?_length] at he
      exact ⟨_, (Except.error.inj he).symm⟩
    · obtain ⟨i, hi, hd⟩ := CodeOf.decode_of_isBoundary hb
      rw [resumeOffset_of_decode hl (hc ▸ hd)] at he
      cases he

section Arriving

variable {S : Nat → Prop}

/-- Where a frame is led by what is raised, or by what it has waited for: its handlers start in `S`,
and it goes on in `S`, unless it fails. -/
structure Arrives (S : Nat → Prop) (p : Frame × Standing) : Prop where
  handlers : ∀ b ∈ p.1.blocks, S b.handler
  goes : (∃ o, p.2 = .before o ∧ S o) ∨ ∃ e, p.2 = .leaving (.error e)

/-- Where a frame that waits may go on. -/
def Returns (S : Nat → Prop) : Standing → Prop
  | .calling site => S site.next
  | .looping site => S site.next ∧ S site.target
  | _ => True

theorem arrives_before {o : Nat} (hb : ∀ b ∈ f.blocks, S b.handler) (ho : S o) :
    Arrives S (f, .before o) := ⟨hb, .inl ⟨o, rfl, ho⟩⟩

theorem arrives_finish (f : Frame) (e : Failure) : Arrives S (f.finish, .leaving (.error e)) :=
  ⟨nofun, .inr ⟨e, rfl⟩⟩

/-- A frame that arrives at targets is aligned. -/
theorem Arrives.aligned {p : Frame × Standing} (h : Arrives c.body.Target p) :
    p.1.Aligned c.body p.2 := by
  obtain ⟨g, s⟩ := p
  obtain ⟨hb, ⟨o, rfl, ho⟩ | ⟨e, rfl⟩⟩ := h
  · exact ⟨hb, ho⟩
  · exact ⟨hb, trivial⟩

/-- An unwinding leads to a handler, or where a continued loop goes on. -/
theorem unwind_arrives (hb : ∀ b ∈ f.blocks, S b.handler) {reason : Unwind Value}
    (hr : ∀ t, reason = .continuing t → S t) {u : Unwound} (hu : f.unwind reason = (g, u)) :
    match u with
    | .handled target => Arrives S (g, .before target)
    | .unhandled => g.blocks = []
    | .faulted _ => True := by
  obtain ⟨-, hs⟩ := unwind_spec hu
  cases u with
  | unhandled => exact hs
  | faulted e => trivial
  | handled target =>
    obtain ⟨b, outer, hsuf, hl⟩ := hs
    have inner : S b.handler := hb b (hsuf.subset List.mem_cons_self)
    have around : ∀ b' ∈ outer, S b'.handler :=
      fun b' hm => hb b' (hsuf.subset (List.mem_cons_of_mem _ hm))
    cases hl with
    | continued he hg =>
      refine arrives_before ?_ (hr _ he)
      rw [hg]
      exact List.forall_mem_cons.2 ⟨inner, around⟩
    | left _ hg _ => exact arrives_before (by rw [hg]; exact around) inner
    | entered _ hg _ => exact arrives_before (by rw [hg]; exact around) inner

theorem raising_arrives (hb : ∀ b ∈ f.blocks, S b.handler) (e : Raised) (offset : Nat) :
    Arrives S (f.raising e offset) := by
  unfold raising
  dsimp only
  cases hu : f.unwind (.raising (e.through ⟨f.code.body.name, f.code.body.lineForOffset offset,
    offset⟩)) with
  | mk g u =>
    have hw := unwind_arrives hb (fun _ h => by cases h) hu
    cases u with
    | handled target => exact hw
    | faulted fault => exact arrives_finish _ _
    | unhandled => exact arrives_finish _ _

theorem failingAt_arrives (hb : ∀ b ∈ f.blocks, S b.handler) (offset : Nat) (e : Failure) :
    Arrives S (f.failingAt offset e) := by
  cases e with
  | raised e => exact raising_arrives hb e offset
  | fatal e => exact arrives_finish _ _
  | uncatchable e => exact arrives_finish _ _

theorem resumed_arrives (hb : ∀ b ∈ f.blocks, S b.handler) (hi : S i.next) (v : Value) :
    Arrives S (f.resumed v i) := by
  unfold resumed
  split
  · exact arrives_before hb hi
  · exact arrives_finish _ _

theorem exhausted_arrives (hb : ∀ b ∈ f.blocks, S b.handler) (ht : S i.target) :
    Arrives S (f.exhausted i) := by
  unfold exhausted
  split
  · exact arrives_before hb ht
  · exact arrives_finish _ _

theorem failingLoop_arrives (hb : ∀ b ∈ f.blocks, S b.handler) (ht : S i.target) (e : Failure) :
    Arrives S (f.failingLoop i e) := by
  unfold failingLoop
  split
  · exact exhausted_arrives hb ht
  · exact failingAt_arrives hb i.offset e

theorem answered_arrives (hb : ∀ b ∈ f.blocks, S b.handler) {s : Standing} (hf : Returns S s)
    (hs : s.control? = none) (result : Except Failure FrameExit) :
    Arrives S (f.answered s result) := by
  cases s with
  | starting _ => cases hs
  | before _ => cases hs
  | leaving _ => cases hs
  | calling site =>
    match result with
    | .ok (.returned v) => exact resumed_arrives hb hf v
    | .ok (.yielded _) =>
      exact failingAt_arrives hb site.offset (.fatal (.invalidCode .yieldOutsideGenerator))
    | .error e => exact failingAt_arrives hb site.offset e
  | looping site =>
    match result with
    | .ok (.returned v) => exact exhausted_arrives hb hf.2
    | .ok (.yielded v) => exact resumed_arrives hb hf.1 v
    | .error e => exact failingLoop_arrives hb hf.2 e

/-- A frame whose instruction fails goes on at a handler, if at all. -/
theorem damaged_arrives (hb : ∀ b ∈ f.blocks, S b.handler) {e : Failure}
    (hd : Exec.Damage i f e g) : Arrives S (g.failingAt i.offset e) := by
  cases e with
  | raised r => exact raising_arrives (by rw [hd.blocks r rfl]; exact hb) r i.offset
  | fatal e => exact arrives_finish _ _
  | uncatchable e => exact arrives_finish _ _

/-- Where an instruction leads a frame: on or to its target, into a handler, or out of the frame. -/
inductive Departs (S : Nat → Prop) (i : Instruction) (g : Frame) : Frame × Standing → Prop
  | arrives {p : Frame × Standing} (h : Arrives S p) : Departs S i g p
  | calls (hb : ∀ b ∈ g.blocks, S b.handler) (hn : S i.next) : Departs S i g (g, .calling i)
  | loops (hb : ∀ b ∈ g.blocks, S b.handler) (hn : S i.next) (ht : S i.target) :
    Departs S i g (g, .looping i)
  | yields {v : Value} (hb : ∀ b ∈ g.blocks, S b.handler) (hop : i.opcode = .yieldValue) :
    Departs S i g (g, .leaving (.ok (.yielded v)))
  | returns {v : Value} : Departs S i g (g.finish, .leaving (.ok (.returned v)))

/-- Where an instruction leads, when what follows it, its target, and the loop that may have been
suspended in a handler go on in `S`. -/
theorem follows_departs (hb : ∀ b ∈ f.blocks, S b.handler)
    (hn : i.opcode.fallsThrough = true → S i.next)
    (ht : i.opcode.addressing?.isSome = true → S i.target)
    (hs : i.opcode = .endFinally → ∀ t, f.stack.slots[2]? = some (.suspended (.continuing t)) → S t)
    {flow : Flow} (he : Exec.Effect i f flow g) {heap : Heap} {given : Option Failure}
    {q : Frame × Standing} (hf : Follows heap i g flow given q) : Departs S i g q := by
  have drift {n : Int} (hd : f.Drift n g) : ∀ b ∈ g.blocks, S b.handler := by
    rw [hd.blocks]
    exact hb
  have next {n : Int} (hd : f.Drift n g) (hop : i.opcode.fallsThrough = true) :
      Departs S i g (g, .before i.next) := .arrives (arrives_before (drift hd) (hn hop))
  cases he with
  | plain hop hd => cases hf; exact next hd (Opcode.fallsThrough_of_isPlain hop)
  | invoke hop hd =>
    cases hf with
    | invoke => exact .calls (drift hd) (hn (by rw [hop]; rfl))
    | refused => exact .arrives (failingAt_arrives (drift hd) i.offset _)
  | draw hop hd => cases hf; exact next hd (by rw [hop]; rfl)
  | drained hop hd => cases hf; exact .arrives (arrives_before (drift hd) (ht (by rw [hop]; rfl)))
  | advance hop hd =>
    have exhausted : S i.target := ht (by rw [hop]; rfl)
    cases hf with
    | advance => exact .loops (drift hd) (hn (by rw [hop]; rfl)) exhausted
    | spent _ => exact .arrives (failingLoop_arrives (drift hd) exhausted _)
  | jump hop hd =>
    cases hf
    exact .arrives (arrives_before (drift hd) (ht (Opcode.addressing?_of_isJump hop)))
  | stay hop hd =>
    cases hf
    refine next hd ?_
    rcases hop with hop | hop <;> rw [hop] <;> rfl
  | setup hop =>
    cases hf
    obtain ⟨hnext, htarget⟩ := Opcode.spec_of_isBlockSetup hop
    exact .arrives (arrives_before (List.forall_mem_cons.2 ⟨ht htarget, hb⟩) (hn hnext))
  | leaveBlock hop hbs _ hg _ =>
    cases hf
    refine .arrives (arrives_before (fun b hm => hb b ?_) (hn (by rw [hop]; rfl)))
    rw [hg] at hm
    rw [hbs]
    exact List.mem_cons_of_mem _ hm
  | endFinally hop hd => cases hf; exact next hd (by rw [hop]; rfl)
  | unwound hr hu =>
    cases hf
    refine .arrives (unwind_arrives (by rw [hr.blocks]; exact hb) (fun t htc => ?_) hu)
    -- a loop is continued at the target of this instruction, or at one taken from the stack
    subst htc
    cases hr with
    | endFinally hop hslot _ => exact hs hop t hslot
    | continueLoop hop => exact ht (by rw [hop]; rfl)
  | returns _ _ => cases hf; exact .returns
  | reraises _ _ => cases hf; exact .arrives (arrives_finish _ _)
  | yields hop hd => cases hf; exact .yields (drift hd) hop

end Arriving

theorem Aligned.returns (hv : c.body.Valid) {s : Standing} (ha : f.Aligned c.body s) :
    Returns c.body.Target s := by
  have hf := ha.faces
  cases s with
  | calling site => exact hv.next hf
  | looping site => exact ⟨hv.next hf.1, hf.2⟩
  | _ => trivial

/-- Where an instruction leads. -/
theorem follows_aligned (hv : c.body.Valid) (hi : i ∈ c.body.instructions)
    (hlast : f.lastOffset = some i.offset) (hbound : c.body.isBoundary i.offset = true)
    (hb : ∀ b ∈ f.blocks, c.body.Target b.handler)
    (hs : i.opcode = .endFinally → ∀ t, f.stack.slots[2]? = some (.suspended (.continuing t)) →
      c.body.Target t)
    {flow : Flow} (he : Exec.Effect i f flow g) {heap : Heap} {given : Option Failure}
    {q : Frame × Standing} (hf : Follows heap i g flow given q) : q.1.Aligned c.body q.2 := by
  have target (hop : i.opcode.addressing?.isSome = true) : c.body.Target i.target :=
    hv.target hi (Instruction.target?_eq_some hop)
  cases follows_departs hb (fun _ => hv.next hi) target hs he hf with
  | arrives h => exact h.aligned
  | calls hb _ => exact ⟨hb, hi⟩
  | loops hb _ ht => exact ⟨hb, hi, ht⟩
  | yields hb _ =>
    refine ⟨hb, fun o ho => ?_⟩
    rw [he.akin.lastOffset, hlast] at ho
    cases ho
    exact hbound
  | returns => exact ⟨nofun, trivial⟩

/-- **Every move keeps the frame aligned.** -/
theorem Aligned.moves {σ : Type} {host : Host σ} {hooks : Prop} {given : Option Failure}
    {s : Standing} {p : Frame × Standing} (hv : c.body.Valid) (hfit : f.Fits hooks c)
    (hh : hooks → host.Courteous) (hlen : hooks → c.body.bytecode.length ≤ farthestOffset)
    (hs : f.Allows c.body.Guides) (ha : f.Aligned c.body s) (hm : Moves host f given s p) :
    p.1.Aligned c.body p.2 := by
  cases hm with
  | start ho => exact ⟨ha.handlers, ha.faces _ ho⟩
  | raise _ => exact (raising_arrives ha.handlers _ _).aligned
  | lost _ => exact ⟨ha.handlers, trivial⟩
  | refused => exact (arrives_finish _ _).aligned
  | undecoded _ _ => exact (arrives_finish _ _).aligned
  | fails ht hd hx =>
    obtain ⟨-, -, -, hb, -⟩ := ha.traced hv hfit.code hfit.hook hh hlen ht hd
    exact (damaged_arrives hb (Exec.damage_of_execute hx)).aligned
  | follows ht hd hx hf =>
    obtain ⟨hi, hlast, hbound, hb, hst⟩ := ha.traced hv hfit.code hfit.hook hh hlen ht hd
    refine follows_aligned hv hi hlast hbound hb (fun _ t ht => ?_) (Exec.effect_of_execute hx) hf
    exact hs _ (hst.subset (List.mem_of_getElem? ht)) t rfl
  | waits _ => exact ha
  | answered hc => exact (answered_arrives ha.handlers (ha.returns hv) hc _).aligned

/-! ### A life on instructions -/

/-- The frame has executed an instruction last, and its handlers start at targets. -/
structure Anchored (c : Code) (f : Frame) : Prop where
  last : ∀ o, f.lastOffset = some o → c.isBoundary o = true
  handlers : ∀ b ∈ f.blocks, c.Target b.handler

theorem Fresh.anchored {globals : Ref .mapping} (hf : Fresh c globals f) :
    f.Anchored c.body :=
  ⟨by rw [hf.lastOffset]; nofun, by rw [hf.blocks]; nofun⟩

/-- Whenever it is handed back, the frame is anchored. -/
theorem History.anchored {allowed : Value → Prop} {hooks : Prop} (hv : c.body.Valid)
    (hlen : hooks → c.body.bytecode.length ≤ farthestOffset)
    (hal : ∀ v, allowed v → c.body.Guides v) (hf : History allowed hooks c f) :
    f.Anchored c.body := by
  induction hf with
  | created hg hc => exact (create_spec hg hc).anchored
  | called hg hc hb => exact (bindArguments_spec (create_spec hg hc) hb).anchored
  | traced _ _ hook ih => exact ⟨ih.last, ih.handlers⟩
  | @resumed σ host m m' w f g input raising v hh hf hi hc ih =>
    have hrun : g.Fits hooks c ∧ g.Aligned c.body (.leaving (.ok (.yielded v))) := by
      refine hc.induct (I := fun g s => g.Fits hooks c ∧ g.Aligned c.body s) (fun g s h => ?_)
        fun _ _ _ _ hi hs hmv => ⟨hi.1.moves hh hmv,
          hi.2.moves hv hi.1 hh hlen (fun v hm => hal v (hs v hm)) hmv⟩
      obtain ⟨stack, back, ha, rfl, rfl⟩ := Machine.enter_holds h
      exact ⟨hf.fits.entered ha, ih.handlers, fun o ho =>
        target_of_resumeOffset hv hf.fits.code (fun o ho => .inr (ih.last o ho)) ho⟩
    unfold released
    dsimp only
    split <;> exact ⟨hrun.2.faces, hrun.2.handlers⟩

end Frame

end Resumable
