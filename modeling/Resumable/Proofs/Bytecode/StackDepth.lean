import Resumable.Bytecode.StackDepth
import Resumable.Proofs.Bytecode.Targets

/-!
# The walk finds the greatest depth

`StackDepth.Walked` are the paths of the walk when it does not remember which offsets it has
visited, and code is `StackDepth.Consistent` if all of them arrive at an offset in the same state.
Then the walk, which follows only the first path to each offset, has seen the state of every path
(`StackDepth.Consistent.depth_le`).

The walk itself returns the greatest depth only; `StackDepth.survey` is the same walk together with
the offsets it has visited, and `StackDepth.survey_closed` says what holds of these once it has
ended.
-/

namespace Resumable

namespace StackDepth

variable {input : Bool} {bytecode : List UInt8}

/-- The paths of a walk that visits offsets again. -/
inductive Walked (input : Bool) (bytecode : List UInt8) : Path → Prop
  | start : Walked input bytecode ⟨0, 0, []⟩
  | onward {p q : Path} {i : Instruction} {ps : List Path} (hp : Walked input bytecode p)
      (hd : Instruction.decode bytecode p.offset = .ok i) (ha : p.advance input i = .ok ps)
      (hq : q ∈ ps) : Walked input bytecode q

/-- All paths arrive at an offset with the same depth and the same open blocks, and none closes a
block where none is open. -/
structure Consistent (input : Bool) (bytecode : List UInt8) : Prop where
  agree : ∀ p q, Walked input bytecode p → Walked input bytecode q → p.offset = q.offset →
    p.offset < bytecode.length → p.depth = q.depth ∧ p.blocks = q.blocks
  closes : ∀ p i, Walked input bytecode p → Instruction.decode bytecode p.offset = .ok i →
    i.opcode = .popBlock → p.blocks ≠ []

/-- All paths arrive at an offset with the same depth and the same open blocks. -/
def Agrees (input : Bool) (bytecode : List UInt8) : Prop :=
  ∀ p q, Walked input bytecode p → Walked input bytecode q → p.offset = q.offset →
    p.offset < bytecode.length → p.depth = q.depth ∧ p.blocks = q.blocks

/-- Where two paths arrive together they are the same. -/
theorem Agrees.eq_of_offset_eq {p q : Path} (hc : Agrees input bytecode)
    (hp : Walked input bytecode p) (hq : Walked input bytecode q) (ho : p.offset = q.offset)
    (hl : p.offset < bytecode.length) : p = q := by
  obtain ⟨hd, hb⟩ := hc p q hp hq ho hl
  cases p
  cases q
  simp_all

/-- The paths that lead on from a path. -/
def following (input : Bool) (bytecode : List UInt8) (p : Path) : List Path :=
  match Instruction.decode bytecode p.offset >>= p.advance input with
  | .ok ps => ps
  | .error _ => []

/-- A collection of paths that leads nowhere else has them all. -/
theorem Walked.mem_of_closed {ps : List Path} {p : Path} (h0 : ⟨0, 0, []⟩ ∈ ps)
    (hc : ∀ p ∈ ps, ∀ q ∈ following input bytecode p, q ∈ ps)
    (hp : Walked input bytecode p) : p ∈ ps := by
  induction hp with
  | start => exact h0
  | onward hp hd ha hq ih =>
    refine hc _ ih _ ?_
    unfold following
    rw [hd]
    dsimp only [bind, Except.bind]
    rw [ha]
    exact hq

/-- Consistency can be checked on the paths. -/
theorem Consistent.of_paths (ps : List Path) (h0 : ⟨0, 0, []⟩ ∈ ps)
    (hc : ∀ p ∈ ps, ∀ q ∈ following input bytecode p, q ∈ ps)
    (ha : ∀ p ∈ ps, ∀ q ∈ ps, p.offset = q.offset → p.depth = q.depth ∧ p.blocks = q.blocks)
    (hb : ∀ p ∈ ps, p.blocks = [] →
      ((Instruction.decode bytecode p.offset).toOption.map (·.opcode)) ≠ some .popBlock) :
    Consistent input bytecode where
  agree p q hp hq ho _ := ha p (hp.mem_of_closed h0 hc) q (hq.mem_of_closed h0 hc) ho
  closes p i hp hd hop hn := hb p (hp.mem_of_closed h0 hc) hn (by
    rw [hd]
    exact congrArg some hop)

/-- A path the walk has seen: it is pending, or it has been taken up. -/
def Seen (bytecode : List UInt8) (visited : Array Bool) (deepest : Int) (pending : List Path)
    (p : Path) : Prop :=
  p ∈ pending ∨
    p.depth ≤ deepest ∧ (p.offset < bytecode.length → visited.getD p.offset true = true)

/-- What holds at each turn of the walk: it has visited offsets along paths, and has seen all that
leads on from there. -/
structure Closed (input : Bool) (bytecode : List UInt8) (visited : Array Bool) (deepest : Int)
    (pending : List Path) : Prop where
  size : visited.size = bytecode.length
  walked : ∀ p ∈ pending, Walked input bytecode p
  start : Seen bytecode visited deepest pending ⟨0, 0, []⟩
  visited : ∀ o < bytecode.length, visited.getD o true = true →
    ∃ p i ps, Walked input bytecode p ∧ p.depth ≤ deepest ∧ p.offset = o ∧
      Instruction.decode bytecode o = .ok i ∧ p.advance input i = .ok ps ∧
        ∀ q ∈ ps, Seen bytecode visited deepest pending q

theorem eq_of_onward {i : Instruction} {p : Path} {later ps : List Path}
    (h : p.onward i later = .ok ps) : ps = p :: later := by
  unfold Path.onward at h
  split at h <;> cases h
  rfl

/-- An instruction leads on to at most two paths. -/
theorem length_advance_le {i : Instruction} {p : Path} {ps : List Path}
    (h : p.advance input i = .ok ps) : ps.length ≤ 2 := by
  have two {q : Path} {later : List Path} (hl : later.length ≤ 1)
      (h : q.onward i later = .ok ps) : ps.length ≤ 2 := by
    rw [eq_of_onward h, List.length_cons]
    omega
  unfold Path.advance at h
  dsimp only at h
  split at h
  case h_4 =>
    split at h
    · cases h
    · exact two (by simp) h
  case h_9 | h_10 =>
    cases h
    exact Nat.le_succ 1
  case h_11 | h_12 | h_13 | h_14 =>
    split at h <;> cases h
    exact Nat.zero_le 2
  all_goals exact two (by simp) h

variable {visited : Array Bool} {deepest : Int} {pending : List Path} {p : Path}

theorem visited_set {o o' : Nat} (ho : o < visited.size) :
    (visited.set! o true).getD o' true = true ↔ o' = o ∨ visited.getD o' true = true := by
  simp only [Array.getD_eq_getD_getElem?, Array.set!_eq_setIfInBounds,
    Array.getElem?_setIfInBounds]
  by_cases h : o = o'
  · subst h
    simp [ho]
  · simp [h, Ne.symm h]

/-- Taking up a path whose offset was visited before. -/
theorem Closed.skip (h : Closed input bytecode visited deepest (p :: pending))
    (hv : visited.getD p.offset true = true) :
    Closed input bytecode visited (max deepest p.depth) pending := by
  have later {q : Path} (hs : Seen bytecode visited deepest (p :: pending) q) :
      Seen bytecode visited (max deepest p.depth) pending q := by
    rcases hs with hq | ⟨hd, ho⟩
    · rcases List.mem_cons.1 hq with rfl | hq
      · exact .inr ⟨by omega, fun _ => hv⟩
      · exact .inl hq
    · exact .inr ⟨by omega, ho⟩
  refine ⟨h.size, fun q hq => h.walked q (List.mem_cons_of_mem _ hq), later h.start,
    fun o ho hvo => ?_⟩
  obtain ⟨q, i, ps, hw, hl, hqo, hd, ha, hs⟩ := h.visited o ho hvo
  exact ⟨q, i, ps, hw, by omega, hqo, hd, ha, fun r hr => later (hs r hr)⟩

/-- Taking up a path to an offset not visited before. -/
theorem Closed.visit {i : Instruction} {ps : List Path}
    (h : Closed input bytecode visited deepest (p :: pending))
    (hv : visited.getD p.offset true ≠ true)
    (hd : Instruction.decode bytecode p.offset = .ok i) (ha : p.advance input i = .ok ps) :
    Closed input bytecode (visited.set! p.offset true) (max deepest p.depth) (ps ++ pending) := by
  have hp : p.offset < visited.size := by
    rw [h.size]
    exact (Instruction.next_le_of_decode hd).1
  have hw : Walked input bytecode p := h.walked p List.mem_cons_self
  have later {q : Path} (hs : Seen bytecode visited deepest (p :: pending) q) :
      Seen bytecode (visited.set! p.offset true) (max deepest p.depth) (ps ++ pending) q := by
    rcases hs with hq | ⟨hd, ho⟩
    · rcases List.mem_cons.1 hq with rfl | hq
      · exact .inr ⟨by omega, fun _ => (visited_set hp).2 (.inl rfl)⟩
      · exact .inl (List.mem_append_right _ hq)
    · exact .inr ⟨by omega, fun hl => (visited_set hp).2 (.inr (ho hl))⟩
  refine ⟨?_, fun q hq => ?_, later h.start, fun o ho hvo => ?_⟩
  · rw [Array.set!_eq_setIfInBounds, Array.size_setIfInBounds, h.size]
  · rcases List.mem_append.1 hq with hq | hq
    · exact .onward hw hd ha hq
    · exact h.walked q (List.mem_cons_of_mem _ hq)
  · rcases (visited_set hp).1 hvo with rfl | hvo
    · exact ⟨p, i, ps, hw, by omega, rfl, hd, ha, fun q hq => .inl (List.mem_append_left _ hq)⟩
    · obtain ⟨q, j, qs, hw, hl, hqo, hd, ha, hs⟩ := h.visited o ho hvo
      exact ⟨q, j, qs, hw, by omega, hqo, hd, ha, fun r hr => later (hs r hr)⟩

theorem count_visit {o : Nat} (ho : o < visited.size) (hv : visited.getD o true ≠ true) :
    (visited.set! o true).count false + 1 = visited.count false := by
  have hf : visited[o] = false := by
    rw [Array.getD_eq_getD_getElem?, Array.getElem?_eq_getElem ho, Option.getD_some] at hv
    simpa using hv
  have hpos : 0 < visited.count false := Array.count_pos_iff.2 (hf ▸ Array.getElem_mem ho)
  rw [Array.set!_eq_setIfInBounds, Array.setIfInBounds, dif_pos ho, Array.count_set ho, hf]
  simp
  omega

/-- The walk, with the offsets that it has visited. -/
def surveyFrom (input : Bool) (bytecode : List UInt8) :
    Nat → Array Bool → Int → List Path → Except Fault (Array Bool × Int)
  | 0, visited, deepest, _ => .ok (visited, deepest)
  | _ + 1, visited, deepest, [] => .ok (visited, deepest)
  | fuel + 1, visited, deepest, p :: pending =>
    let deepest := max deepest p.depth
    if visited.getD p.offset true then surveyFrom input bytecode fuel visited deepest pending
    else do
      let i ← Instruction.decode bytecode p.offset
      let onward ← p.advance input i
      surveyFrom input bytecode fuel (visited.set! p.offset true) deepest (onward ++ pending)

theorem walk_eq_surveyFrom (fuel : Nat) (visited : Array Bool) (deepest : Int)
    (pending : List Path) : walk input bytecode fuel visited deepest pending =
      (surveyFrom input bytecode fuel visited deepest pending).map Prod.snd := by
  induction fuel generalizing visited deepest pending with
  | zero => rfl
  | succ fuel ih =>
    cases pending with
    | nil => rfl
    | cons p pending =>
      unfold walk surveyFrom
      split
      · exact ih _ _ _
      · cases Instruction.decode bytecode p.offset with
        | error e => rfl
        | ok i =>
          dsimp only [bind, Except.bind]
          cases p.advance input i with
          | error e => rfl
          | ok ps => exact ih _ _ _

/-- The walk ends with nothing pending: each turn uses up a path, and only a visit adds new ones. -/
theorem surveyFrom_closed {fuel : Nat} {r : Array Bool × Int}
    (hf : 2 * visited.count false + pending.length ≤ fuel)
    (h : Closed input bytecode visited deepest pending)
    (hw : surveyFrom input bytecode fuel visited deepest pending = .ok r) :
    Closed input bytecode r.1 r.2 [] := by
  induction fuel generalizing visited deepest pending with
  | zero =>
    cases hw
    have hn : pending = [] := List.length_eq_zero_iff.1 (by omega)
    exact hn ▸ h
  | succ fuel ih =>
    cases pending with
    | nil =>
      cases hw
      exact h
    | cons p pending =>
      rw [List.length_cons] at hf
      unfold surveyFrom at hw
      -- an offset not visited counts twice in the fuel, since a visit adds two paths at most
      by_cases hv : visited.getD p.offset true = true
      · rw [if_pos hv] at hw
        exact ih (by omega) (h.skip hv) hw
      · rw [if_neg hv] at hw
        cases hd : Instruction.decode bytecode p.offset with
        | error e =>
          rw [hd] at hw
          cases hw
        | ok i =>
          rw [hd] at hw
          cases ha : p.advance input i with
          | error e =>
            dsimp only [bind, Except.bind] at hw
            rw [ha] at hw
            cases hw
          | ok ps =>
            dsimp only [bind, Except.bind] at hw
            rw [ha] at hw
            have hp : p.offset < visited.size := by
              rw [h.size]
              exact (Instruction.next_le_of_decode hd).1
            have hc := count_visit hp hv
            have hl := length_advance_le ha
            refine ih ?_ (h.visit hv hd ha) hw
            rw [List.length_append]
            omega

/-- The offsets visited by the whole walk, and the greatest depth it reached. -/
def survey (input : Bool) (bytecode : List UInt8) : Except Fault (Array Bool × Int) :=
  surveyFrom input bytecode (2 * bytecode.length + 2) (Array.replicate bytecode.length false) 0
    [⟨0, 0, []⟩]

theorem deepest_eq_survey (input : Bool) (bytecode : List UInt8) :
    StackDepth.deepest input bytecode = (survey input bytecode).map Prod.snd :=
  walk_eq_surveyFrom _ _ _ _

/-- Once the walk has ended, what it has visited is closed. -/
theorem survey_closed {r : Array Bool × Int} (h : survey input bytecode = .ok r) :
    Closed input bytecode r.1 r.2 [] := by
  refine surveyFrom_closed ?_ ⟨Array.size_replicate, ?_, .inl List.mem_cons_self, ?_⟩ h
  · rw [Array.count_replicate_self, List.length_singleton]
    omega
  · intro p hp
    rw [List.mem_singleton.1 hp]
    exact .start
  · intro o ho hv
    rw [Array.getD_eq_getD_getElem?, Array.getElem?_replicate, if_pos ho] at hv
    cases hv

/-- A walk that ends is a survey. -/
theorem survey_of_deepest {d : Int} (h : StackDepth.deepest input bytecode = .ok d) :
    ∃ visited, survey input bytecode = .ok (visited, d) := by
  rw [deepest_eq_survey] at h
  cases hs : survey input bytecode with
  | error e =>
    rw [hs] at h
    cases h
  | ok r =>
    rw [hs] at h
    cases h
    exact ⟨r.1, rfl⟩

/-- The declared stack size is the greatest depth, if that fits. -/
theorem deepest_of_required {n : Nat} (h : required input bytecode = .ok n) :
    ∃ d, StackDepth.deepest input bytecode = .ok d ∧ d.toNat = n := by
  unfold required at h
  cases hd : StackDepth.deepest input bytecode with
  | error e =>
    rw [hd] at h
    cases h
  | ok d =>
    rw [hd] at h
    dsimp only [bind, Except.bind] at h
    split at h
    · exact ⟨d, rfl, Except.ok.inj h⟩
    · cases h

/-- What is known of every path once the walk has ended. -/
theorem Agrees.seen {d : Int} (hc : Agrees input bytecode)
    (hd : StackDepth.deepest input bytecode = .ok d) (hp : Walked input bytecode p) :
    p.depth ≤ d ∧ (p.offset < bytecode.length → ∃ i ps,
      Instruction.decode bytecode p.offset = .ok i ∧ p.advance input i = .ok ps) := by
  obtain ⟨visited, hs⟩ := survey_of_deepest hd
  have h := survey_closed hs
  -- nothing is pending any more, so every path has been taken up
  have seen : p.depth ≤ d ∧ (p.offset < bytecode.length → visited.getD p.offset true = true) := by
    induction hp with
    | start => exact h.start.resolve_left List.not_mem_nil
    | onward hp hdec ha hq ih =>
      rename_i p q i ps
      have ho := (Instruction.next_le_of_decode hdec).1
      obtain ⟨p', i', ps', hp', -, ho', hdec', ha', hs⟩ := h.visited p.offset ho (ih.2 ho)
      obtain rfl := hc.eq_of_offset_eq hp' hp ho' (ho'.symm ▸ ho)
      rw [hdec] at hdec'
      cases hdec'
      rw [ha] at ha'
      cases ha'
      exact (hs q hq).resolve_left List.not_mem_nil
  refine ⟨seen.1, fun ho => ?_⟩
  obtain ⟨p', i, ps, hp', -, ho', hdec, ha, -⟩ := h.visited p.offset ho (seen.2 ho)
  obtain rfl := hc.eq_of_offset_eq hp' hp ho' (ho'.symm ▸ ho)
  exact ⟨i, ps, hdec, ha⟩

/-- **The declared stack size is enough for every path**, and every path can go on. -/
theorem Consistent.depth_le {n : Nat} (hc : Consistent input bytecode)
    (hn : required input bytecode = .ok n) (hp : Walked input bytecode p) :
    p.depth ≤ n ∧ (p.offset < bytecode.length → ∃ i ps,
      Instruction.decode bytecode p.offset = .ok i ∧ p.advance input i = .ok ps) := by
  obtain ⟨d, hd, rfl⟩ := deepest_of_required hn
  obtain ⟨hl, hs⟩ := Agrees.seen hc.agree hd hp
  exact ⟨by omega, hs⟩

/-- The walk refuses to close a block where none is open, so code it accepts is consistent if all
paths agree. -/
theorem Agrees.consistent {n : Nat} (hc : Agrees input bytecode)
    (hn : required input bytecode = .ok n) : Consistent input bytecode where
  agree := hc
  closes p i hp hd hop hb := by
    obtain ⟨d, hw, -⟩ := deepest_of_required hn
    obtain ⟨j, ps, hj, ha⟩ := (hc.seen hw hp).2 (Instruction.next_le_of_decode hd).1
    rw [hd] at hj
    cases hj
    unfold Path.advance at ha
    rw [hop] at ha
    dsimp only at ha
    rw [hb] at ha
    cases ha

end StackDepth

end Resumable
