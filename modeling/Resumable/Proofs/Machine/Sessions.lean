import Resumable.Proofs.Machine.Life

/-!
# Sessions run frames through their lives

A machine that runs a frame with nothing below it either still carries the frame or has halted with
the frame as it left (`Machine.Carries.run`).  So a frame that a session runs until it yields has a
history again (`Session.runFrame_history`), and so have the frames that are put back into generators
that were sent a value or had an exception thrown into them (`Session.send_history`,
`Session.throwInto_history`).
-/

namespace Resumable

variable {σ : Type} {host : Host σ}

namespace Machine

variable {below : List Activation} {w : Entry} {allowed : Value → Prop} {m₀ m : Machine σ}
  {f : Frame} {s : Standing} {input : Option Value} {raising : Option Raised}

/-- Whatever the frame above `below` does in a run from the machine, only allowed values get on its
stack. -/
def Confines (host : Host σ) (below : List Activation) (w : Entry) (allowed : Value → Prop)
    (m₀ : Machine σ) : Prop :=
  ∀ m f s, Carries host below w (fun _ => True) m₀ m f s → f.Allows allowed

theorem Carries.confined (hc : m₀.Confines host below w allowed)
    (h : Carries host below w (fun _ => True) m₀ m f s) :
    Carries host below w allowed m₀ m f s := by
  induction h with
  | entered hh ha => exact .entered hh (hc _ _ _ (.entered hh ha))
  | step hr hh ha ih => exact .step ih hh (hc _ _ _ (.step hr hh ha))

/-- The machine has halted with the frame and the result. -/
theorem outcome?_of_leaving {result : Except Failure FrameExit}
    (h : m.Stands below w (f, .leaving result)) (hw : w.waiting = .outside) :
    (m.step host).outcome? = some (f.released result, result) := by
  rw [h.step_leaving host]
  unfold leave
  rw [h.chain]
  dsimp only
  rw [Activation.waiting_mk, hw]
  rfl

theorem outcome?_of_not_halted (h : m.isHalted = false) : m.outcome? = none := by
  unfold isHalted at h
  unfold outcome?
  cases hc : m.control with
  | halted f result =>
    rw [hc] at h
    cases h
  | _ => rfl

theorem isHalted_of_outcome? {r : Frame × Except Failure FrameExit} (h : m.outcome? = some r) :
    m.isHalted = true := by
  cases hm : m.isHalted with
  | true => rfl
  | false =>
    rw [outcome?_of_not_halted hm] at h
    cases h

theorem run_of_halted (h : m.isHalted = true) (fuel : Nat) : run host fuel m = m := by
  cases fuel with
  | zero => rfl
  | succ fuel =>
    unfold run
    rw [if_pos h]

theorem step_of_halted (h : m.isHalted = true) : m.step host = m := by
  unfold isHalted at h
  unfold step
  split <;> simp_all

/-- A run that may take one more move makes it last. -/
theorem run_succ (fuel : Nat) (m : Machine σ) :
    run host (fuel + 1) m = (run host fuel m).step host := by
  induction fuel generalizing m with
  | zero =>
    show (if m.isHalted then m else m.step host) = m.step host
    split
    · rename_i h
      exact (step_of_halted h).symm
    · rfl
  | succ fuel ih =>
    by_cases h : m.isHalted = true
    · rw [run_of_halted h, run_of_halted h, step_of_halted h]
    · rw [run, if_neg h, ih, run, if_neg h]

/-- **A run of a frame with nothing below it.**  After any number of steps, the machine either still
holds the frame, or has halted with it as it left. -/
theorem Carries.run (hw : w.waiting = .outside)
    (h : Carries host [] w (fun _ => True) m₀ m f s) (fuel : Nat) :
    (∃ g t, Carries host [] w (fun _ => True) m₀ (Machine.run host fuel m) g t) ∨
      ∃ n g result, Carries host [] w (fun _ => True) m₀ n g (.leaving result) ∧
        (Machine.run host fuel m).outcome? = some (g.released result, result) := by
  induction fuel generalizing m f s with
  | zero => exact .inl ⟨f, s, h⟩
  | succ fuel ih =>
    have hh := h.held.1
    have hr : Machine.run host (fuel + 1) m = Machine.run host fuel (m.step host) := by
      rw [Machine.run, hh.not_halted]
      rfl
    rw [hr]
    rcases hh.step host with ⟨result, rfl⟩ | ⟨given, p, -, hp, -⟩
    · -- the frame leaves, which halts the machine
      have ho : (m.step host).outcome? = _ := outcome?_of_leaving (hh.stands rfl) hw
      rw [run_of_halted (isHalted_of_outcome? ho)]
      exact .inr ⟨m, f, result, h, ho⟩
    · exact ih (.step h hp fun _ _ => trivial)

end Machine

/-! ### Sessions -/

namespace Session

variable {fuel : Nat} {c c' : Context σ} {f g : Frame} {input : Option Value}
  {raising : Option Raised} {result : Except Failure FrameExit}

/-- **Running a frame** hands it back as it was, if it is refused, or as it left at the end of its
run. -/
theorem runFrame_lives (h : runFrame host fuel f input raising c = some ((g, result), c')) :
    (g = f ∧ ∃ e, result = .error e) ∨
      ∃ n k, Machine.Carries host [] (f.entry .outside) (fun _ => True)
        (machine host c f input raising) n k (.leaving result) ∧ g = k.released result := by
  unfold runFrame at h
  obtain ⟨r, ho, hr⟩ := Option.map_eq_some_iff.1 h
  obtain ⟨rfl, -⟩ := Prod.mk.inj hr
  rcases Machine.enter_cases host ({ c with chain := [], control := .start none } : Machine σ) f
    input raising .outside with ⟨stack, back, -, hs⟩ | ⟨e, he, -⟩
  · have hc : Machine.Carries host [] (f.entry .outside) (fun _ => True)
        (machine host c f input raising) _ _ _ := .entered (.innermost hs) fun _ _ => trivial
    rcases hc.run rfl fuel with ⟨k, t, hk⟩ | ⟨n, k, result', hk, hl⟩
    · rw [Machine.outcome?_of_not_halted hk.held.1.not_halted] at ho
      cases ho
    · obtain ⟨rfl, rfl⟩ := Prod.mk.inj (Option.some.inj (hl.symm.trans ho))
      exact .inr ⟨n, k, hk, rfl⟩
  · have hm : machine host c f input raising =
      { c with chain := [], control := .halted f (.error e) } := he
    rw [hm, Machine.run_of_halted rfl] at ho
    obtain ⟨rfl, rfl⟩ := Prod.mk.inj (Option.some.inj ho)
    exact .inl ⟨rfl, e, rfl⟩

variable {allowed : Value → Prop} {hooks : Prop} {code : CodeObject} {v sent : Value}

/-- A frame that is run until it yields goes on with its life. -/
theorem runFrame_history (hh : hooks → host.Courteous) (hf : Frame.History allowed hooks code f)
    (hi : input = none ∨ ∃ sent, input = f.input sent)
    (hc : (machine host c f input raising).Confines host [] (f.entry .outside) allowed)
    (h : runFrame host fuel f input raising c = some ((g, .ok (.yielded v)), c')) :
    Frame.History allowed hooks code g := by
  rcases runFrame_lives h with ⟨-, e, he⟩ | ⟨n, k, hk, rfl⟩
  · cases he
  · exact .resumed (m := { c with chain := [], control := .start none }) hh hf hi (hk.confined hc)

/-- Runs the frame of a generator and puts it back. -/
def runSettled (host : Host σ) (fuel : Nat) (r : Ref .generator) (f : Frame) (input : Option Value)
    (raising : Option Raised) : Session σ (Except Failure FrameExit) := do
  let (f, result) ← runFrame host fuel f input raising
  settle r f result

/-- A frame that yields is put back with its history. -/
theorem runSettled_history {r : Ref .generator} (hh : hooks → host.Courteous)
    (hf : Frame.History allowed hooks code f) (hi : input = none ∨ ∃ sent, input = f.input sent)
    (hc : (machine host c f input raising).Confines host [] (f.entry .outside) allowed)
    (h : runSettled host fuel r f input raising c = some (.ok (.yielded v), c')) :
    ∃ g heap, Frame.History allowed hooks code g ∧
      c'.heap = Heap.settle heap r g (.ok (.yielded v)) := by
  obtain ⟨⟨⟨g, result⟩, c₁⟩, hr, hs⟩ := Option.bind_eq_some_iff.1 h
  obtain ⟨rfl, rfl⟩ := Prod.mk.inj (Option.some.inj hs)
  exact ⟨g, c₁.heap, runFrame_history hh hf hi hc hr, rfl⟩

variable {r : Ref .generator} {heap : Heap}

theorem run_getHeap (c : Context σ) : (getHeap : Session σ Heap).run c = some (c.heap, c) := rfl

/-- Sending a value runs the frame with the value as input. -/
theorem send_eq (ht : c.heap.takeFrame r (!sent.isNone) = .ok (f, heap)) :
    send host fuel r sent c =
      runSettled host fuel r f (f.input (some sent)) none { c with heap } := by
  show StateT.run (send host fuel r sent) c = _
  rw [send, StateT.run_bind, run_getHeap, Option.bind_eq_bind, Option.bind_some]
  dsimp only
  rw [ht]
  rfl

/-- Throwing into a suspended generator runs its frame with the exception to raise. -/
theorem throwInto_eq {e : Raised} (hs : (c.heap.generatorAt r).state = .suspended)
    (ht : c.heap.takeFrame r false = .ok (f, heap)) :
    throwInto host fuel r e c = runSettled host fuel r f none (some e) { c with heap } := by
  show StateT.run (throwInto host fuel r e) c = _
  rw [throwInto, StateT.run_bind, run_getHeap, Option.bind_eq_bind, Option.bind_some]
  dsimp only
  rw [hs]
  dsimp only
  rw [ht]
  rfl

/-- **A generator that is sent a value and yields** has its frame put back with its history. -/
theorem send_history (hh : hooks → host.Courteous) (hf : Frame.History allowed hooks code f)
    (ht : c.heap.takeFrame r (!sent.isNone) = .ok (f, heap))
    (hc : (machine host { c with heap } f (f.input (some sent)) none).Confines host []
      (f.entry .outside) allowed)
    (h : send host fuel r sent c = some (.ok (.yielded v), c')) :
    ∃ g heap', Frame.History allowed hooks code g ∧
      c'.heap = Heap.settle heap' r g (.ok (.yielded v)) := by
  rw [send_eq ht] at h
  exact runSettled_history hh hf (.inr ⟨some sent, rfl⟩) hc h

/-- **A generator that is thrown an exception and yields** has its frame put back with its
history. -/
theorem throwInto_history {e : Raised} (hh : hooks → host.Courteous)
    (hf : Frame.History allowed hooks code f)
    (hs : (c.heap.generatorAt r).state = .suspended)
    (ht : c.heap.takeFrame r false = .ok (f, heap))
    (hc : (machine host { c with heap } f none (some e)).Confines host [] (f.entry .outside)
      allowed)
    (h : throwInto host fuel r e c = some (.ok (.yielded v), c')) :
    ∃ g heap', Frame.History allowed hooks code g ∧
      c'.heap = Heap.settle heap' r g (.ok (.yielded v)) := by
  rw [throwInto_eq hs ht] at h
  exact runSettled_history hh hf (.inl rfl) hc h

end Session

end Resumable
