import Resumable.Proofs.Machine.Generators

/-!
# What becomes of iterators

An iterator is made before its first value and then drawn from, and nothing else is ever done to it:
not by an instruction (`Exec.steady_execute`), not by a step of the machine (`Machine.draws_step`),
and so not by a run (`Machine.draws_run`).
-/

namespace Resumable

/-- What becomes of the heap in the hands of the host's hooks. -/
def Host.Draws {σ : Type} (host : Host σ) : Prop :=
  ∀ hook line f h s, Heap.Draws h (host.onLine hook line f h s).2.1

theorem Heap.draws_takeFrame {h h' : Heap} {r : Ref .generator} {sending : Bool} {f : Frame}
    (ht : h.takeFrame r sending = .ok (f, h')) : h.Draws h' := by
  obtain ⟨-, rfl⟩ := takeFrame_eq_ok ht
  exact .of_iterators rfl

namespace Machine

variable {σ : Type} {host : Host σ} {m m' : Machine σ} {f : Frame} {w : Entry}

theorem Ongoing.draws (ho : m.Ongoing host m') : m.heap.Draws m'.heap := by
  rw [ho.heap]
  exact .refl m.heap

theorem draws_deliver (m : Machine σ) (v : Waiting) (g : Frame)
    (result : Except Failure FrameExit) : m.heap.Draws (m.deliver host v g result).heap := by
  have settled : m.heap.Draws (v.settled m.heap g result) := by
    cases v with
    | outside => exact .refl _
    | call site => exact .refl _
    | loop r site => exact .of_iterators rfl
  by_cases hv : v = .outside
  · subst hv
    exact .refl _
  · exact settled.trans (ongoing_deliver m hv g result).draws

theorem draws_enter (m : Machine σ) (f : Frame) (input : Option Value) (raising : Option Raised)
    (v : Waiting) : m.heap.Draws (m.enter host f input raising v).heap := by
  rcases enter_eq host m f input raising v with ⟨stack, -, -, he⟩ | ⟨e, he, -⟩
  · rw [he]
    exact .refl m.heap
  · rw [he]
    exact draws_deliver m v f _

theorem draws_follow {rest : List Activation} (hc : m.chain = ⟨f, w⟩ :: rest) (i : Instruction)
    (flow : Flow) : m.heap.Draws (m.follow host i flow).heap := by
  rcases follow_cases host m i flow hc with
    ho | ⟨v, -, he⟩ | ⟨callee, -, he⟩ | ⟨r, g, heap, -, ht, he⟩
  · exact ho.draws
  · rw [he]
    exact .refl m.heap
  · rw [he]
    exact draws_enter m callee _ _ _
  · rw [he]
    have hd : m.heap.Draws heap := Heap.draws_takeFrame ht
    exact hd.trans (draws_enter { m with heap } g _ _ _)

theorem draws_perform {rest : List Activation} (hc : m.chain = ⟨f, w⟩ :: rest) (i : Instruction) :
    m.heap.Draws (m.perform host ⟨f, w⟩ i).heap := by
  have hx := Exec.steady_execute (c := f.code) m.currentException i ⟨f, m.heap⟩
  have executed (l : Local) : ((m.announced host f i).executed l).heap = l.heap :=
    heap_setFrame _ _
  rcases perform_cases host m f w i with ⟨e, l, hr, ho⟩ | ⟨flow, l, hr, hp⟩
  · rw [hr] at hx
    have hd := ho.draws
    rw [executed] at hd
    exact Heap.Draws.trans hx.1.heap.draws hd
  · rw [hr] at hx
    have hd : Heap.Draws _ (follow host _ i flow).heap :=
      draws_follow (chain_executed host hc i l) i flow
    rw [executed] at hd
    rw [hp]
    exact Heap.Draws.trans hx.heap.draws hd

theorem Lined.draws {h h' : Heap} {s s' : σ} {g : Frame} {o o' : Nat} (hh : host.Draws)
    (hl : Lined host h s f o h' s' g o') : h.Draws h' := by
  cases hl with
  | silent => exact .refl h
  | told line => exact .refl h
  | hooked hook line _ hr =>
    subst hr
    exact hh _ _ _ _ _

theorem draws_dispatch (hh : host.Draws) (m : Machine σ) (o : Nat) :
    m.heap.Draws (m.dispatch host o).heap := by
  cases hc : m.chain with
  | nil =>
    unfold dispatch
    rw [hc]
    exact .refl m.heap
  | cons a rest =>
    obtain ⟨budget, -, ⟨e, hd⟩ | ⟨heap, state, g, o', hl, hd⟩⟩ := dispatch_lined host m o hc
    · rw [hd, heap_fail]
      exact .refl m.heap
    · rcases hd with ⟨e, hd⟩ | ⟨i, -, hd⟩
      · rw [hd, heap_fail]
        exact hl.draws hh
      · let m₁ : Machine σ := { m with heap, budget, state, chain := ⟨g, a.entry⟩ :: rest }
        have hc₁ : m₁.chain = ⟨g, a.entry⟩ :: rest := rfl
        have hp : heap.Draws (m₁.perform host ⟨g, a.entry⟩ i).heap := draws_perform hc₁ i
        rw [hd]
        exact (hl.draws hh).trans hp

/-- **What a step does to iterators.** -/
theorem draws_step (hh : host.Draws) (m : Machine σ) : m.heap.Draws (m.step host).heap := by
  unfold step
  split
  · exact (ongoing_start m _).draws
  · exact draws_dispatch hh m _
  · cases hc : m.chain with
    | nil =>
      unfold leave
      rw [hc]
      exact .refl m.heap
    | cons a rest =>
      rw [leave_eq m hc]
      exact draws_deliver (m.popped host a.entry rest _) a.waiting _ _
  · exact .refl m.heap

/-- **What a run does to iterators.** -/
theorem draws_run (hh : host.Draws) (fuel : Nat) (m : Machine σ) :
    m.heap.Draws (run host fuel m).heap := by
  induction fuel generalizing m with
  | zero => exact .refl m.heap
  | succ fuel ih =>
    unfold run
    split
    · exact .refl m.heap
    · exact (draws_step hh m).trans (ih _)

end Machine

end Resumable
