import Resumable.Proofs.Bytecode.StackDepth

/-!
# What the walk covers

The walk of `StackDepth` goes on from an instruction at its `Instruction.successors`, and it visits
what they reach from the start of the code, neither less nor more (`CodeOf.surveyed_iff`).  What it
visits has passed its checks (`CodeOf.Surveyed.checked`).

Control takes one more edge: a loop is continued at the target of the `continueLoop`, where the walk
ends.  `CodeOf.Flows` has that edge too.  So what control reaches and the walk does not visit lies
behind a `continueLoop` that the walk does visit, with a target that it does not
(`CodeOf.Reachable.surveyed_or`).
-/

namespace Resumable

open Relation (ReflTransGen)

/-- Control may go on with the next instruction. -/
def Opcode.fallsThrough : Opcode → Bool
  | jumpForward | jumpAbsolute | returnValue | raiseVarargs | breakLoop | continueLoop => false
  | _ => true

namespace Instruction

/-- The offsets at which the walk goes on after an instruction. -/
def successors (i : Instruction) : List Nat :=
  match i.opcode with
  | .setupLoop | .setupExcept | .setupFinally | .forIter | .jumpIfFalse | .jumpIfTrue =>
    [i.next, i.target]
  | .jumpForward | .jumpAbsolute => [i.target]
  | .returnValue | .raiseVarargs | .breakLoop | .continueLoop => []
  | _ => [i.next]

variable {i : Instruction}

theorem next_mem_successors (h : i.opcode.fallsThrough = true) : i.next ∈ i.successors := by
  obtain ⟨o, op, arg⟩ := i
  cases op <;> first
    | exact List.mem_cons_self
    | cases h

theorem target?_eq_some (h : i.opcode.addressing?.isSome = true) : i.target? = some i.target := by
  have hs : i.target?.isSome = true := by
    rw [target?, Option.isSome_map]
    exact h
  obtain ⟨t, ht⟩ := Option.isSome_iff_exists.1 hs
  rw [target, ht, Option.getD_some]

/-- The walk goes on at every target but that of a `continueLoop`. -/
theorem target_mem_successors (h : i.opcode.addressing?.isSome = true)
    (hop : i.opcode ≠ .continueLoop) : i.target ∈ i.successors := by
  obtain ⟨o, op, arg⟩ := i
  cases op <;> first
    | exact List.mem_cons_self
    | exact List.mem_cons_of_mem _ List.mem_cons_self
    | exact absurd rfl hop
    | cases h

/-- The walk goes on nowhere else. -/
theorem next_or_target_of_mem_successors {o : Nat} (h : o ∈ i.successors) :
    o = i.next ∨ i.target? = some o := by
  obtain ⟨offset, op, arg⟩ := i
  cases op
  case breakLoop | returnValue | continueLoop | raiseVarargs => cases h
  case jumpForward | jumpAbsolute => exact .inr (List.mem_singleton.1 h ▸ rfl)
  case setupLoop | setupExcept | setupFinally | forIter | jumpIfFalse | jumpIfTrue =>
    rcases List.mem_cons.1 h with h | h
    · exact .inl h
    · exact .inr (List.mem_singleton.1 h ▸ rfl)
  all_goals exact .inl (List.mem_singleton.1 h)

/-- The paths that lead on from an instruction arrive at its successors. -/
theorem offsets_advance {input : Bool} {p : Path} {ps : List Path}
    (h : p.advance input i = .ok ps) : ps.map (·.offset) = i.successors := by
  obtain ⟨o, op, arg⟩ := i
  cases op
  case breakLoop | returnValue | continueLoop | raiseVarargs =>
    unfold Path.advance at h
    dsimp only at h
    split at h <;> cases h
    rfl
  case popBlock =>
    obtain ⟨po, pd, pb⟩ := p
    cases pb with
    | nil => cases h
    | cons b outer =>
      rw [StackDepth.eq_of_onward h]
      rfl
  case jumpForward | jumpAbsolute =>
    cases h
    rfl
  all_goals
    rw [StackDepth.eq_of_onward h]
    rfl

theorem mem_successors_of_advance {input : Bool} {p q : Path} {ps : List Path}
    (h : p.advance input i = .ok ps) (hq : q ∈ ps) : q.offset ∈ i.successors := by
  rw [← offsets_advance h]
  exact List.mem_map_of_mem hq

end Instruction

namespace CodeOf

variable {κ : Type} (c : CodeOf κ)

/-- The walk goes on at `o'` after the instruction at `o`. -/
def Leads (o o' : Nat) : Prop :=
  ∃ i, Instruction.decode c.bytecode o = .ok i ∧ o' ∈ i.successors

/-- The instruction at `o` continues a loop at `t`. -/
def Continues (o t : Nat) : Prop :=
  ∃ i, Instruction.decode c.bytecode o = .ok i ∧ i.opcode = .continueLoop ∧ i.target = t

/-- Control may go on at `o'` after the instruction at `o`, at once or through handlers. -/
def Flows (o o' : Nat) : Prop := c.Leads o o' ∨ c.Continues o o'

/-- Control may come to the offset. -/
def Reachable (o : Nat) : Prop := ReflTransGen c.Flows 0 o

/-- The walk through the code visits the offset. -/
def Surveyed (o : Nat) : Prop :=
  ∃ visited deepest, StackDepth.survey c.flags.acceptsInput c.bytecode = .ok (visited, deepest) ∧
    visited.getD o false = true

/-- The instruction at the offset passes the checks of the walk: a path arrives there within the
declared stack size, and can go on, so that it neither takes values below the bottom nor closes a
block where none is open. -/
def Checked (o : Nat) : Prop :=
  ∃ p i ps, StackDepth.Walked c.flags.acceptsInput c.bytecode p ∧ p.offset = o ∧
    p.depth ≤ c.maxStack ∧ Instruction.decode c.bytecode o = .ok i ∧
    p.advance c.flags.acceptsInput i = .ok ps

variable {c} {o o' : Nat}

theorem Leads.lt_length (h : c.Leads o o') : o < c.bytecode.length := by
  obtain ⟨i, hd, -⟩ := h
  exact (Instruction.next_le_of_decode hd).1

theorem Flows.lt_length (h : c.Flows o o') : o < c.bytecode.length := by
  rcases h with h | ⟨i, hd, -⟩
  · exact h.lt_length
  · exact (Instruction.next_le_of_decode hd).1

/-- A path follows the edges of the walk. -/
theorem reaches_of_walked {input : Bool} {p : Path}
    (hp : StackDepth.Walked input c.bytecode p) : ReflTransGen c.Leads 0 p.offset := by
  induction hp with
  | start => exact .refl
  | onward _ hd ha hq ih => exact ih.tail ⟨_, hd, Instruction.mem_successors_of_advance ha hq⟩

theorem getD_false_eq_true {visited : Array Bool} :
    visited.getD o false = true ↔ o < visited.size ∧ visited.getD o true = true := by
  simp only [Array.getD_eq_getD_getElem?]
  by_cases h : o < visited.size <;> simp [h]

section Walk

variable (hs : StackDepth.required c.flags.acceptsInput c.bytecode = .ok c.maxStack)
include hs

/-- What holds of the walk through code that declares the size the walk has found. -/
theorem surveyed_spec : ∃ visited deepest,
    StackDepth.Closed c.flags.acceptsInput c.bytecode visited deepest [] ∧
      deepest ≤ c.maxStack ∧
      ∀ o, c.Surveyed o ↔ o < c.bytecode.length ∧ visited.getD o true = true := by
  obtain ⟨d, hd, hm⟩ := StackDepth.deepest_of_required hs
  obtain ⟨visited, hsurvey⟩ := StackDepth.survey_of_deepest hd
  have hc := StackDepth.survey_closed hsurvey
  refine ⟨visited, d, hc, by omega, fun o => ?_⟩
  rw [← hc.size, ← getD_false_eq_true]
  constructor
  · rintro ⟨visited', d', hsurvey', hv⟩
    rw [hsurvey] at hsurvey'
    cases hsurvey'
    exact hv
  · exact fun hv => ⟨visited, d, hsurvey, hv⟩

/-- **What the walk visits has passed its checks.** -/
theorem Surveyed.checked (h : c.Surveyed o) : c.Checked o := by
  obtain ⟨visited, d, hc, hm, hv⟩ := surveyed_spec hs
  obtain ⟨hl, ho⟩ := (hv o).1 h
  obtain ⟨p, i, ps, hp, hd, hpo, hi, ha, -⟩ := hc.visited o hl ho
  exact ⟨p, i, ps, hp, hpo, by omega, hi, ha⟩

theorem surveyed_zero (hl : 0 < c.bytecode.length) : c.Surveyed 0 := by
  obtain ⟨visited, d, hc, -, hv⟩ := surveyed_spec hs
  exact (hv 0).2 ⟨hl, (hc.start.resolve_left List.not_mem_nil).2 hl⟩

/-- The walk visits where an instruction it visits leads. -/
theorem Surveyed.leads (h : c.Surveyed o) (ho : c.Leads o o') (hl : o' < c.bytecode.length) :
    c.Surveyed o' := by
  obtain ⟨visited, d, hc, -, hv⟩ := surveyed_spec hs
  obtain ⟨hol, hov⟩ := (hv o).1 h
  obtain ⟨p, i, ps, -, -, -, hi, ha, hn⟩ := hc.visited o hol hov
  obtain ⟨j, hj, hm⟩ := ho
  rw [hi] at hj
  cases hj
  rw [← Instruction.offsets_advance ha] at hm
  obtain ⟨q, hq, rfl⟩ := List.mem_map.1 hm
  exact (hv _).2 ⟨hl, ((hn q hq).resolve_left List.not_mem_nil).2 hl⟩

/-- **The walk visits what its edges reach.** -/
theorem surveyed_iff : c.Surveyed o ↔ o < c.bytecode.length ∧ ReflTransGen c.Leads 0 o := by
  constructor
  · intro h
    obtain ⟨p, i, -, hp, rfl, -, hi, -⟩ := h.checked hs
    exact ⟨(Instruction.next_le_of_decode hi).1, reaches_of_walked hp⟩
  · rintro ⟨hl, hr⟩
    induction hr with
    | refl => exact surveyed_zero hs hl
    | tail _ hlast ih => exact (ih hlast.lt_length).leads hs hlast hl

/-- **What control reaches is visited by the walk, or lies behind a loop that is continued where
the walk does not come.** -/
theorem Reachable.surveyed_or (h : c.Reachable o) (hl : o < c.bytecode.length) :
    c.Surveyed o ∨ ∃ o₁ t, c.Surveyed o₁ ∧ c.Continues o₁ t ∧ ¬c.Surveyed t ∧
      ReflTransGen c.Flows t o := by
  unfold Reachable at h
  induction h with
  | refl => exact .inl (surveyed_zero hs hl)
  | @tail o o' _ hlast ih =>
    rcases ih hlast.lt_length with ho | ⟨o₁, t, h₁, hc, ht, hr⟩
    · rcases hlast with hlead | hcont
      · exact .inl (ho.leads hs hlead hl)
      · by_cases h' : c.Surveyed o'
        · exact .inl h'
        · exact .inr ⟨o, o', ho, hcont, h', .refl⟩
    · exact .inr ⟨o₁, t, h₁, hc, ht, hr.tail hlast⟩

end Walk

end CodeOf

end Resumable
