import Mathlib.Logic.Relation
import Resumable.Machine.Generator
import Resumable.Proofs.Machine.Ongoing

/-!
# What becomes of generators

A generator is at rest, or its frame is out and executing (`Generator.Rests`), and
`Generator.Changes` are the changes it goes through; none leads away from one that is done.  They
are told which ways to end a generator that has not started are used: throwing an exception into it
leaves it errored, closing it leaves it completed.
`Heap.Keeps` says of a heap which of its generators execute.  Taking a frame out of a generator adds
it to them (`Heap.Keeps.takeFrame`), putting the frame back takes it away again
(`Heap.Keeps.putBack`), and whatever else happens to a heap leaves them alone
(`Heap.LeavesRunning`).
-/

namespace Resumable

open Relation (ReflTransGen)

namespace Generator

/-- A generator that does not execute.  Its frame is not done unless the generator is, and it has
yielded if the generator is suspended. -/
inductive Rests : Generator → Prop
  | notStarted {name : String} {f : Frame} (hf : f.finished = false) :
    Rests ⟨.notStarted, name, some f⟩
  | suspended {name : String} {f : Frame} (hf : f.AtYield) : Rests ⟨.suspended, name, some f⟩
  | done {state : GeneratorState} {name : String} {f : Frame} (hs : state.isTerminal = true) :
    Rests ⟨state, name, some f⟩

/-- A way to end a generator that has not started. -/
inductive Ending where
  /-- An exception is thrown into it. -/
  | throw
  /-- It is closed. -/
  | close

/-- The changes of a generator: its frame is taken out to be executed and put back when it stops, or
it ends before it has started, in one of the ways `ends`. -/
inductive Changes (ends : Ending → Prop) : Generator → Generator → Prop
  | starts {name : String} {f : Frame} :
    Changes ends ⟨.notStarted, name, some f⟩ ⟨.running, name, none⟩
  | resumes {name : String} {f : Frame} :
    Changes ends ⟨.suspended, name, some f⟩ ⟨.running, name, none⟩
  | yields {name : String} {f : Frame} (hf : f.AtYield) :
    Changes ends ⟨.running, name, none⟩ ⟨.suspended, name, some f⟩
  | returns {name : String} {f : Frame} :
    Changes ends ⟨.running, name, none⟩ ⟨.completed, name, some f⟩
  | fails {name : String} {f : Frame} :
    Changes ends ⟨.running, name, none⟩ ⟨.errored, name, some f⟩
  | thrown {name : String} {f : Frame} (he : ends .throw) :
    Changes ends ⟨.notStarted, name, some f⟩ ⟨.errored, name, some f.finish⟩
  | closed {name : String} {f : Frame} (he : ends .close) :
    Changes ends ⟨.notStarted, name, some f⟩ ⟨.completed, name, some f.finish⟩

/-- The state in which it leaves a generator that has not started. -/
def Ending.state : Ending → GeneratorState
  | throw => .errored
  | close => .completed

variable {ends : Ending → Prop} {g g' : Generator}

theorem Changes.ended {e : Ending} {name : String} {f : Frame} (he : ends e) :
    Changes ends ⟨.notStarted, name, some f⟩ ⟨e.state, name, some f.finish⟩ := by
  cases e with
  | throw => exact .thrown he
  | close => exact .closed he

theorem Ending.isTerminal_state (e : Ending) : e.state.isTerminal = true := by
  cases e <;> rfl

theorem Rests.not_running (h : g.Rests) : g.state ≠ .running := by
  cases h with
  | done hs =>
    intro hn
    have hn : _ = GeneratorState.running := hn
    subst hn
    cases hs
  | _ => exact fun hn => by cases hn

theorem Rests.frame (h : g.Rests) : ∃ f, g.frame = some f := by
  cases h <;> exact ⟨_, rfl⟩

theorem Rests.atYield (h : g.Rests) (hs : g.state = .suspended) :
    ∃ f, g.frame = some f ∧ f.AtYield := by
  cases h with
  | suspended hf => exact ⟨_, rfl, hf⟩
  | done ht =>
    have hs : _ = GeneratorState.suspended := hs
    subst hs
    cases ht
  | notStarted _ => cases hs

/-- A generator that is done does not change. -/
theorem Changes.not_of_terminal (hs : g.state.isTerminal = true) : ¬Changes ends g g' := by
  intro h
  cases h <;> cases hs

theorem eq_of_terminal (hs : g.state.isTerminal = true) (h : ReflTransGen (Changes ends) g g') :
    g' = g := by
  induction h with
  | refl => rfl
  | tail _ hc ih =>
    subst ih
    exact absurd hc (Changes.not_of_terminal hs)

end Generator

namespace Heap

variable {h h' h'' : Heap} {r : Ref .generator} {R : List (Ref .generator)} {f : Frame}
  {ends : Generator.Ending → Prop}

@[simp]
theorem size_setGenerator (h : Heap) (r : Ref .generator) (g : Generator) :
    (h.setGenerator r g).generators.size = h.generators.size :=
  Store.size_set _ _ _

theorem generatorAt_setGenerator_self (hr : r.index < h.generators.size) (g : Generator) :
    (h.setGenerator r g).generatorAt r = g :=
  Store.get_set_self hr g

theorem generatorAt_setGenerator_ne {r' : Ref .generator} (hr : r' ≠ r) (g : Generator) :
    (h.setGenerator r g).generatorAt r' = h.generatorAt r' :=
  Store.get_set_ne (fun hn => hr (by cases r; cases r'; exact congrArg Ref.mk hn)) g

/-- A generator that is not done is one of the heap. -/
theorem lt_of_not_terminal (hs : (h.generatorAt r).state.isTerminal = false) :
    r.index < h.generators.size := by
  by_contra hn
  have hd : h.generatorAt r = default := by
    unfold Store.size at hn
    simp [generatorAt, Store.get, Array.getD, hn]
  rw [hd] at hs
  cases hs

/-- The generators of `h` have changed, if at all, as generators do. -/
structure Evolves (ends : Generator.Ending → Prop) (h h' : Heap) : Prop where
  size : h.generators.size ≤ h'.generators.size
  changes : ∀ r : Ref .generator, r.index < h.generators.size →
    ReflTransGen (Generator.Changes ends) (h.generatorAt r) (h'.generatorAt r)

theorem Evolves.refl (h : Heap) : h.Evolves ends h := ⟨Nat.le_refl _, fun _ _ => .refl⟩

theorem Evolves.trans (hh : h.Evolves ends h') (hh' : h'.Evolves ends h'') :
    h.Evolves ends h'' :=
  ⟨Nat.le_trans hh.size hh'.size, fun r hr =>
    (hh.changes r hr).trans (hh'.changes r (Nat.lt_of_lt_of_le hr hh.size))⟩

/-- Changing one generator is a change of the heap. -/
theorem Evolves.setGenerator {g : Generator} (hg : Generator.Changes ends (h.generatorAt r) g) :
    h.Evolves ends (h.setGenerator r g) where
  size := by rw [size_setGenerator]
  changes r' hr := by
    by_cases he : r' = r
    · subst he
      rw [generatorAt_setGenerator_self hr]
      exact .single hg
    · rw [generatorAt_setGenerator_ne he]

/-- The generators of `h` have changed, if at all, as generators do, but none that executes has, and
all others are at rest again. -/
structure LeavesRunning (ends : Generator.Ending → Prop) (h h' : Heap) : Prop
    extends h.Evolves ends h' where
  running : ∀ r : Ref .generator, r.index < h.generators.size →
    (h.generatorAt r).state = .running → h'.generatorAt r = h.generatorAt r
  resting : ∀ r : Ref .generator, r.index < h.generators.size → (h.generatorAt r).Rests →
    (h'.generatorAt r).Rests
  new : ∀ r : Ref .generator, h.generators.size ≤ r.index → r.index < h'.generators.size →
    (h'.generatorAt r).Rests

/-- Instructions change no generator, and those they make have not started. -/
theorem AddsGenerators.leavesRunning (hb : h.AddsGenerators h') :
    h.LeavesRunning ends h' where
  size := hb.size
  changes r hr := by rw [hb.old r hr]
  running r hr _ := hb.old r hr
  resting r hr hg := (hb.old r hr).symm ▸ hg
  new r hl hr := by
    obtain ⟨name, f, hg, hf⟩ := hb.new r hl hr
    rw [hg]
    exact .notStarted hf

/-- The frames of the generators `R` are out, and all other generators are at rest. -/
structure Keeps (h : Heap) (R : List (Ref .generator)) : Prop where
  nodup : R.Nodup
  executing : ∀ r ∈ R, r.index < h.generators.size ∧
    ∃ name, h.generatorAt r = ⟨.running, name, none⟩
  resting : ∀ r : Ref .generator, r.index < h.generators.size → r ∉ R → (h.generatorAt r).Rests

theorem Keeps.leavesRunning (hk : h.Keeps R) (ht : h.LeavesRunning ends h') : h'.Keeps R where
  nodup := hk.nodup
  executing r hr := by
    obtain ⟨hl, name, hg⟩ := hk.executing r hr
    exact ⟨Nat.lt_of_lt_of_le hl ht.size, name, (ht.running r hl (by rw [hg])).trans hg⟩
  resting r hr hn := by
    by_cases hl : r.index < h.generators.size
    · exact ht.resting r hl (hk.resting r hl hn)
    · exact ht.new r (Nat.not_lt.1 hl) hr

theorem Keeps.addsGenerators (hk : h.Keeps R) (hb : h.AddsGenerators h') : h'.Keeps R :=
  have hr : h.LeavesRunning (fun _ => False) h' := hb.leavesRunning
  hk.leavesRunning hr

/-- The generators that execute are those that say so. -/
theorem Keeps.running_iff (hk : h.Keeps R) (hr : r.index < h.generators.size) :
    (h.generatorAt r).state = .running ↔ r ∈ R := by
  refine ⟨fun hs => ?_, fun hm => ?_⟩
  · by_contra hn
    exact (hk.resting r hr hn).not_running hs
  · obtain ⟨-, name, hg⟩ := hk.executing r hm
    rw [hg]

/-- A generator's frame is out while it executes. -/
theorem Keeps.frame_iff (hk : h.Keeps R) (hr : r.index < h.generators.size) :
    (h.generatorAt r).frame = none ↔ r ∈ R := by
  refine ⟨fun hs => ?_, fun hm => ?_⟩
  · by_contra hn
    obtain ⟨f, hf⟩ := (hk.resting r hr hn).frame
    rw [hf] at hs
    cases hs
  · obtain ⟨-, name, hg⟩ := hk.executing r hm
    rw [hg]

/-! ### Taking frames out and putting them back -/

/-- A generator that executes gives out no frame. -/
theorem takeFrame_running (hs : (h.generatorAt r).state = .running) (sending : Bool) :
    h.takeFrame r sending = .error (.fatal .generatorRunning) := by
  unfold takeFrame
  dsimp only
  rw [hs]

/-- Which generators give out a frame. -/
theorem takeFrame_eq_ok {sending : Bool} (ht : h.takeFrame r sending = .ok (f, h')) :
    (∃ name, h.generatorAt r = ⟨.notStarted, name, some f⟩ ∨
      h.generatorAt r = ⟨.suspended, name, some f⟩) ∧
    h' = h.setGenerator r ⟨.running, (h.generatorAt r).name, none⟩ := by
  unfold takeFrame at ht
  dsimp only at ht
  cases hg : h.generatorAt r with
  | mk state name frame =>
    rw [hg] at ht
    cases state <;> cases frame <;> cases sending <;> cases ht
    · exact ⟨⟨_, .inl rfl⟩, rfl⟩
    · exact ⟨⟨_, .inr rfl⟩, rfl⟩
    · exact ⟨⟨_, .inr rfl⟩, rfl⟩

/-- Where frames are taken out, nothing else changes. -/
theorem Keeps.setRunning {name : String} (hk : h.Keeps R) (hr : r.index < h.generators.size)
    (hn : r ∉ R) : (h.setGenerator r ⟨.running, name, none⟩).Keeps (r :: R) where
  nodup := List.nodup_cons.2 ⟨hn, hk.nodup⟩
  executing r' hr' := by
    rw [size_setGenerator]
    by_cases he : r' = r
    · subst he
      exact ⟨hr, _, generatorAt_setGenerator_self hr _⟩
    · rw [generatorAt_setGenerator_ne he]
      exact hk.executing r' ((List.mem_cons.1 hr').resolve_left he)
  resting r' hr' hn' := by
    rw [size_setGenerator] at hr'
    rw [generatorAt_setGenerator_ne (List.ne_of_not_mem_cons hn')]
    exact hk.resting r' hr' (List.not_mem_of_not_mem_cons hn')

/-- **A frame is taken out** of a generator at rest, and is not done. -/
theorem Keeps.takeFrame (hk : h.Keeps R) {sending : Bool}
    (ht : h.takeFrame r sending = .ok (f, h')) :
    f.finished = false ∧ h'.Keeps (r :: R) ∧ h.Evolves ends h' := by
  obtain ⟨⟨name, hg⟩, rfl⟩ := takeFrame_eq_ok ht
  have hs : (h.generatorAt r).state.isTerminal = false ∧ (h.generatorAt r).state ≠ .running := by
    rcases hg with hg | hg <;> rw [hg] <;> exact ⟨rfl, fun hn => by cases hn⟩
  have hr := lt_of_not_terminal hs.1
  have hn : r ∉ R := fun hm => hs.2 ((hk.running_iff hr).2 hm)
  have hrests := hk.resting r hr hn
  refine ⟨?_, hk.setRunning hr hn, .setGenerator ?_⟩
  · rcases hg with hg | hg <;> rw [hg] at hrests
    · cases hrests with
      | notStarted hf => exact hf
      | done ht => cases ht
    · cases hrests with
      | suspended hf => exact hf.unfinished
      | done ht => cases ht
  · rcases hg with hg | hg <;> rw [hg]
    · exact .starts
    · exact .resumes

/-- Putting a frame at rest into a generator ends its execution. -/
theorem Keeps.setResting {g : Generator} (hk : h.Keeps (r :: R)) (hg : g.Rests) :
    (h.setGenerator r g).Keeps R where
  nodup := (List.nodup_cons.1 hk.nodup).2
  executing r' hr' := by
    have he : r' ≠ r := by
      rintro rfl
      exact (List.nodup_cons.1 hk.nodup).1 hr'
    rw [size_setGenerator, generatorAt_setGenerator_ne he]
    exact hk.executing r' (List.mem_cons_of_mem _ hr')
  resting r' hr' hn := by
    rw [size_setGenerator] at hr'
    by_cases he : r' = r
    · subst he
      rw [generatorAt_setGenerator_self hr']
      exact hg
    · rw [generatorAt_setGenerator_ne he]
      exact hk.resting r' hr' (List.not_mem_cons_of_ne_of_not_mem he hn)

/-- The heap once the frame that stopped is back in the generator it was taken from, if it was taken
from one. -/
def returned (owner : Option (Ref .generator)) (h : Heap) (f : Frame)
    (result : Except Failure FrameExit) : Heap :=
  match owner with
  | some r => h.settle r f result
  | none => h

/-- **A frame is put back** into the generator it was taken from. -/
theorem Keeps.putBack {owner : Option (Ref .generator)} {result : Except Failure FrameExit}
    (hk : h.Keeps (owner.toList ++ R))
    (hf : owner.isSome = true → f.Paced (.leaving result)) :
    (h.returned owner f result).Keeps R ∧ h.Evolves ends (h.returned owner f result) := by
  cases owner with
  | none => exact ⟨hk, .refl h⟩
  | some r =>
    have hf := hf rfl
    obtain ⟨-, name, hg⟩ := hk.executing r List.mem_cons_self
    have he : h.returned (some r) f result =
        h.setGenerator r ⟨GeneratorState.after result, name, some f⟩ := by
      unfold Heap.returned settle
      dsimp only
      rw [hg]
    rw [he]
    have hchange :
        Generator.Changes ends (h.generatorAt r) ⟨GeneratorState.after result, name, some f⟩ ∧
          Generator.Rests ⟨GeneratorState.after result, name, some f⟩ := by
      rw [hg]
      match result with
      | .ok (.yielded v) => exact ⟨.yields hf, .suspended hf⟩
      | .ok (.returned v) => exact ⟨.returns, .done rfl⟩
      | .error e => exact ⟨.fails, .done rfl⟩
    exact ⟨hk.setResting hchange.2, .setGenerator hchange.1⟩

/-- A generator that has not started has a frame, with which it ends. -/
theorem endUnstarted_spec (hs : (h.generatorAt r).state = .notStarted)
    (hg : (h.generatorAt r).Rests) : ∃ name f, h.generatorAt r = ⟨.notStarted, name, some f⟩ ∧
      ∀ state, h.endUnstarted r state = h.setGenerator r ⟨state, name, some f.finish⟩ := by
  cases hg' : h.generatorAt r with
  | mk s name frame =>
    rw [hg'] at hs hg
    cases hs
    obtain ⟨f, hf⟩ := hg.frame
    cases hf
    refine ⟨name, f, rfl, fun state => ?_⟩
    unfold Heap.endUnstarted
    rw [hg']
    rfl

/-- Ending a generator that has not started. -/
theorem LeavesRunning.endUnstarted {e : Generator.Ending}
    (hs : (h.generatorAt r).state = .notStarted) (hg : (h.generatorAt r).Rests) (he : ends e) :
    h.LeavesRunning ends (h.endUnstarted r e.state) := by
  have hr : r.index < h.generators.size := lt_of_not_terminal (by rw [hs]; rfl)
  obtain ⟨name, f, hg', hend⟩ := endUnstarted_spec hs hg
  rw [hend]
  have hev : h.Evolves ends (h.setGenerator r ⟨e.state, name, some f.finish⟩) :=
    .setGenerator (hg' ▸ .ended he)
  refine ⟨hev, fun r' hr' hs' => ?_, fun r' hr' hg => ?_, fun r' hl hr' => ?_⟩
  · refine generatorAt_setGenerator_ne ?_ _
    rintro rfl
    rw [hs] at hs'
    cases hs'
  · by_cases he : r' = r
    · subst he
      rw [generatorAt_setGenerator_self hr]
      exact .done e.isTerminal_state
    · rw [generatorAt_setGenerator_ne he]
      exact hg
  · rw [size_setGenerator] at hr'
    exact absurd hr' (Nat.not_lt.2 hl)

end Heap

end Resumable
