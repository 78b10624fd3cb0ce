import Resumable.Frame.Creation
import Resumable.Proofs.Frame.Drift

/-!
# New frames

A new frame has an empty stack of the size its code declares, as many cells as the code has, and
locals of the kind the flags ask for (`Frame.create_spec`); binding arguments only fills slots
(`Frame.bindArguments_spec`).
-/

namespace Resumable

/-- The locals are of the kind, and as many, as the code has; a mapping of their own is not that of
the globals. -/
def Locals.Fit (code : Code) (globals : Ref .mapping) : Locals → Prop
  | .fast slots => code.flags.optimized = true ∧ slots.length = code.varnames.length
  | .dict names => code.flags.optimized = false ∧
      (code.flags.newLocals = true ∧ names ≠ globals ∨
        code.flags.newLocals = false ∧ names = globals)

theorem Locals.Fit.of_sameShape {code : Code} {globals : Ref .mapping} {a b : Locals}
    (ha : a.Fit code globals) (h : a.SameShape b) : b.Fit code globals := by
  cases a <;> cases b <;> simp_all [Fit, SameShape]

namespace Frame

variable {code : CodeObject} {globals builtins : Ref .mapping} {closure : List (Ref .cell)}
  {args : List Value} {f g : Frame} {h h' : Heap}

theorem length_newCells (names : List String) (h : Heap) :
    (Heap.newCells names h).1.length = names.length := by
  induction names generalizing h with
  | nil => rfl
  | cons name names ih =>
    simp only [Heap.newCells, List.length_cons, ih]

theorem fit_initialLocals (code : Code) {globals : Ref .mapping} {h : Heap}
    (hg : globals.index < h.namespaces.size) :
    (initialLocals code globals h).1.Fit code globals := by
  unfold initialLocals
  by_cases ho : code.flags.optimized = true
  · rw [if_pos ho]
    exact ⟨ho, List.length_replicate⟩
  · rw [if_neg ho]
    rw [Bool.not_eq_true] at ho
    by_cases hn : code.flags.newLocals = true
    · rw [if_pos hn]
      refine ⟨ho, .inl ⟨hn, fun he => ?_⟩⟩
      -- the new mapping is numbered behind all those there are, so it is not the globals
      rw [← he] at hg
      exact Nat.lt_irrefl _ hg
    · rw [if_neg hn]
      rw [Bool.not_eq_true] at hn
      exact ⟨ho, .inr ⟨hn, rfl⟩⟩

/-- A new frame, before its first instruction. -/
structure Fresh (c : CodeObject) (names : Ref .mapping) (f : Frame) : Prop where
  code : f.code = c
  globals : f.globals = names
  cells : f.cells.length = c.body.cellCount
  locals : f.locals.Fit c.body names
  stack : f.stack = .empty c.body.maxStack
  blocks : f.blocks = []
  lastOffset : f.lastOffset = none
  hook : f.trace.hook = none
  pending : f.pending = none
  finished : f.finished = false

theorem create_spec (hg : globals.index < h.namespaces.size)
    (hc : create code globals builtins closure h = .ok (f, h')) : Fresh code globals f := by
  simp only [create] at hc
  by_cases hl : closure.length ≠ code.body.freevars.length
  · rw [if_pos hl] at hc
    cases hc
  · rw [if_neg hl] at hc
    rw [Decidable.not_not] at hl
    cases hc
    refine ⟨rfl, rfl, ?_, fit_initialLocals code.body hg, rfl, rfl, rfl, rfl, rfl, rfl⟩
    rw [List.length_append, length_newCells, hl, CodeOf.cellCount, CodeOf.cellNames,
      List.length_append]

theorem create_eq_error {e : Fault} (hc : create code globals builtins closure h = .error e) :
    ∃ n m, e = .invalidCode (.closureMismatch code.body.name n m) := by
  simp only [create] at hc
  by_cases hl : closure.length ≠ code.body.freevars.length
  · rw [if_pos hl] at hc
    exact ⟨_, _, (Except.error.inj hc).symm⟩
  · rw [if_neg hl] at hc
    cases hc

theorem length_bindSlots (args : List Value) (slots : List (Option Value)) :
    (bindSlots args slots).length = slots.length := by
  fun_induction bindSlots args slots <;> simp_all

theorem bindArguments_spec (hf : Fresh code globals f)
    (hb : f.bindArguments args h = .ok (g, h')) : Fresh code globals g := by
  unfold bindArguments at hb
  split at hb
  · cases hb
  · rename_i slots hs
    split at hb <;> cases hb
    have hl := hf.locals
    rw [hs] at hl
    exact { hf with locals := ⟨hl.1, by rw [length_bindSlots, hl.2]⟩ }

theorem bindArguments_eq_error {e : Fault} (hb : f.bindArguments args h = .error e) :
    e = .invalidCode (.scopeWithoutSlots f.name) ∨ ∃ n m, e = .scopeTooLong n m := by
  unfold bindArguments at hb
  split at hb
  · exact .inl (Except.error.inj hb).symm
  · split at hb
    · exact .inr ⟨_, _, (Except.error.inj hb).symm⟩
    · cases hb

end Frame

end Resumable
