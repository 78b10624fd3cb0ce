import Mathlib
import Resumable.Bytecode.Validation
import Resumable.Proofs.Frame.Creation

/-!
# Frames of calls

A function called with positional arguments gets them followed by the last of its defaults, one for
each parameter that is left (`FunctionOf.given`).  The frame of the call holds these values in its
leading slots, those of parameters that are cell variables also in cells of their own, and all its
other variables are unbound, but for those of the closure (`Frame.Binds`).  Making the frame and
binding the arguments comes to just that (`Frame.exists_binds`).
-/

namespace Resumable

namespace FunctionOf

variable {ν : Type} (fn : FunctionOf ν)

/-- No call with so many arguments is possible: there is no parameter for one of them, or a
parameter is left that has no default. -/
def Refuses (n : Nat) : Prop :=
  fn.code.body.argCount < n ∨ n < fn.code.body.argCount - fn.defaults.length

instance (n : Nat) : Decidable (fn.Refuses n) := inferInstanceAs (Decidable (_ ∨ _))

/-- The values of the parameters: the arguments, and the last defaults for those that are left. -/
def given (args : List ν) : List ν :=
  args ++ fn.defaults.rtake (fn.code.body.argCount - args.length)

/-- The slots of a call: the parameters hold their values, and the other variables nothing. -/
def slots (args : List ν) : List (Option ν) :=
  (fn.given args).map some ++
    List.replicate (fn.code.body.varnames.length - fn.code.body.argCount) none

/-- The value of the first parameter of a name, if one is called so. -/
def valueOf? (args : List ν) (name : String) :
    Option ν :=
  (fn.code.body.parameters.idxOf? name).bind fun j => (fn.given args)[j]?

/-- A possible call gives every parameter a value. -/
theorem length_given {args : List ν} (h : ¬ fn.Refuses args.length) :
    (fn.given args).length = fn.code.body.argCount := by
  unfold Refuses at h
  rw [given, List.length_append, List.rtake, List.length_drop]
  omega

end FunctionOf

/-- A valid code object has a slot for every parameter. -/
theorem CodeOf.Valid.argCount_le {c : Code} (h : c.Valid) : c.argCount ≤ c.varnames.length := by
  unfold Valid validate at h
  by_contra hlt
  rw [if_pos (Nat.not_le.1 hlt)] at h
  cases h

/-! ### Cells -/

/-- A number not in use names the default object. -/
theorem Store.get_of_le {α : Type} [Inhabited α] {s : Store α} {i : Nat} (h : s.size ≤ i) :
    s.get i = default := by
  unfold size at h
  rw [get, Array.getD, dif_neg (Nat.not_lt.2 h)]

namespace Heap

variable (names : List String) (h : Heap)

/-- New cells are numbered behind those there are. -/
theorem newCells_fst :
    (newCells names h).1 = (List.range' h.cells.size names.length).map Ref.mk := by
  induction names generalizing h with
  | nil => rfl
  | cons name names ih =>
    have hsize : (h.newCell none).2.cells.size = h.cells.size + 1 := Store.size_add ..
    rw [newCells, List.length_cons, List.range'_succ, List.map_cons]
    dsimp only
    rw [ih, hsize]
    rfl

theorem size_cells_newCells :
    (newCells names h).2.cells.size = h.cells.size + names.length := by
  induction names generalizing h with
  | nil => rfl
  | cons name names ih =>
    have hsize : (h.newCell none).2.cells.size = h.cells.size + 1 := Store.size_add ..
    rw [newCells]
    dsimp only
    rw [ih, hsize, List.length_cons]
    omega

/-- New cells are empty, as is any cell that is not there. -/
theorem cellAt_newCells (r : Ref .cell) : (newCells names h).2.cellAt r = h.cellAt r := by
  induction names generalizing h with
  | nil => rfl
  | cons name names ih =>
    rw [newCells]
    dsimp only
    rw [ih]
    show (h.cells.add none).get r.index = h.cells.get r.index
    rcases Nat.lt_trichotomy r.index h.cells.size with hr | hr | hr
    · exact Store.get_add_lt hr none
    · rw [hr, Store.get_add_size]
      exact (Store.get_of_le (Nat.le_refl _)).symm
    · rw [Store.get_of_le (Nat.le_of_lt hr), Store.get_of_le]
      rw [Store.size_add]
      exact hr

theorem cellAt_setCell_self {r : Ref .cell} (hr : r.index < h.cells.size) (v : Option Value) :
    (h.setCell r v).cellAt r = v :=
  Store.get_set_self hr v

theorem cellAt_setCell_ne {r cell : Ref .cell} (hne : r ≠ cell) (v : Option Value) :
    (h.setCell cell v).cellAt r = h.cellAt r :=
  Store.get_set_ne (fun he => hne (congrArg Ref.mk he)) v

/-- New cells change nothing but the cells. -/
theorem newCells_eq : (newCells names h).2 = { h with cells := (newCells names h).2.cells } := by
  induction names generalizing h with
  | nil => rfl
  | cons name names ih => exact ih _

end Heap

namespace Frame

variable {parameters : List String} {slots : List (Option Value)} {args : List Value}
  {cells own closure : List (Ref .cell)} {names : List String} {h : Heap} {r : Ref .cell}

/-- Only the cells of the cell variables are filled. -/
theorem fillCells_append (hl : own.length = names.length) :
    fillCells parameters slots (own ++ closure) names h =
      fillCells parameters slots own names h := by
  induction own generalizing names h with
  | nil =>
    rw [List.length_nil, eq_comm, List.length_eq_zero_iff] at hl
    rw [hl, List.nil_append]
    cases closure <;> rfl
  | cons cell own ih =>
    cases names with
    | nil => cases hl
    | cons name names => exact ih (Nat.succ.inj hl)

theorem fillCells_eq (parameters : List String) (slots : List (Option Value))
    (cells : List (Ref .cell)) (names : List String) (h : Heap) :
    fillCells parameters slots cells names h =
      { h with cells := (fillCells parameters slots cells names h).cells } := by
  induction cells generalizing names h with
  | nil => rfl
  | cons cell cells ih =>
    cases names with
    | nil => rfl
    | cons name names =>
      rw [fillCells]
      refine (ih names _).trans ?_
      cases parameters.idxOf? name <;> rfl

theorem size_cells_fillCells :
    (fillCells parameters slots cells names h).cells.size = h.cells.size := by
  induction cells generalizing names h with
  | nil => rfl
  | cons cell cells ih =>
    cases names with
    | nil => rfl
    | cons name names =>
      rw [fillCells, ih]
      cases parameters.idxOf? name with
      | none => rfl
      | some i => exact Store.size_set ..

/-- Other cells are left as they are. -/
theorem cellAt_fillCells_of_notMem (hr : r ∉ cells) :
    (fillCells parameters slots cells names h).cellAt r = h.cellAt r := by
  induction cells generalizing names h with
  | nil => rfl
  | cons cell cells ih =>
    rw [List.mem_cons, not_or] at hr
    cases names with
    | nil => rfl
    | cons name names =>
      rw [fillCells]
      rw [ih hr.2]
      cases parameters.idxOf? name with
      | none => rfl
      | some i => exact Heap.cellAt_setCell_ne h hr.1 _

/-- A cell is filled with the value of the first parameter of its name. -/
theorem cellAt_fillCells (hd : cells.Nodup) (hh : ∀ r ∈ cells, r.index < h.cells.size) {k : Nat}
    {name : String} (hn : names[k]? = some name) (hr : cells[k]? = some r) :
    (fillCells parameters slots cells names h).cellAt r =
      match parameters.idxOf? name with
      | some i => (slots[i]?).join
      | none => h.cellAt r := by
  induction cells generalizing names h k with
  | nil => cases hr
  | cons cell cells ih =>
    cases names with
    | nil => cases hn
    | cons first names =>
      rw [List.nodup_cons] at hd
      rw [fillCells]
      cases k with
      | zero =>
        cases hn
        cases hr
        -- no later cell is this one, so that it keeps what it was given
        rw [cellAt_fillCells_of_notMem hd.1]
        cases parameters.idxOf? name with
        | none => rfl
        | some i => exact Heap.cellAt_setCell_self h (hh r List.mem_cons_self) _
      | succ k =>
        rw [List.getElem?_cons_succ] at hn hr
        have hmem := List.mem_of_getElem? hr
        -- filling the first cell touches no other
        have hne : r ≠ cell := fun he => hd.1 (he ▸ hmem)
        rw [ih hd.2 ?_ hn hr]
        · cases parameters.idxOf? name with
          | some i => rfl
          | none =>
            cases parameters.idxOf? first with
            | none => rfl
            | some i => exact Heap.cellAt_setCell_ne h hne _
        · intro r hr
          have hlt := hh r (List.mem_cons_of_mem _ hr)
          cases parameters.idxOf? first with
          | none => exact hlt
          | some i => exact (Store.size_set ..).symm ▸ hlt

/-! ### The frame of a call -/

/-- Slots behind the arguments stay unbound. -/
theorem bindSlots_replicate {vs : List Value} {n : Nat} (h : vs.length ≤ n) :
    bindSlots vs (List.replicate n none) =
      vs.map some ++ List.replicate (n - vs.length) none := by
  induction vs generalizing n with
  | nil =>
    rw [bindSlots]
    rfl
  | cons v vs ih =>
    cases n with
    | zero => cases h
    | succ n =>
      rw [List.replicate_succ, bindSlots, ih (Nat.le_of_succ_le_succ h), List.length_cons,
        Nat.add_sub_add_right]
      rfl

/-- The frame `f` of a call of the function with the arguments, and the heap `h'` that the call
makes out of `h`. -/
structure Binds (fn : Function) (builtins : Ref .mapping) (args : List Value) (h : Heap) (f : Frame)
    (h' : Heap) : Prop where
  /-- The frame stands before its first instruction, and its globals are those of the function. -/
  fresh : f.Fresh fn.code fn.globals
  builtins_eq : f.builtins = builtins
  locals_eq : f.locals = .fast (fn.slots args)
  /-- The cells of the free variables are those of the function. -/
  closure : f.cells.drop fn.code.body.cellvars.length = fn.closure
  /-- Each cell variable has a cell of its own. -/
  distinct : (f.cells.take fn.code.body.cellvars.length).Nodup
  /-- These cells were not there before. -/
  unused : ∀ r ∈ f.cells.take fn.code.body.cellvars.length,
    h.cells.size ≤ r.index ∧ r.index < h'.cells.size
  /-- The cell of a parameter holds its value, and that of any other variable nothing. -/
  contents : ∀ (k : Nat) name r, fn.code.body.cellvars[k]? = some name → f.cells[k]? = some r →
    h'.cellAt r = fn.valueOf? args name
  /-- All that was there is left as it was. -/
  kept : ∀ r : Ref .cell, r.index < h.cells.size → h'.cellAt r = h.cellAt r
  others : h' = { h with cells := h'.cells }

/-- A frame of the function that stands before its first instruction. -/
def atStart (fn : Function) (builtins : Ref .mapping) (slots : List (Option Value))
    (cells : List (Ref .cell)) : Frame where
  code := fn.code
  globals := fn.globals
  builtins
  locals := .fast slots
  cells
  stack := .empty fn.code.body.maxStack
  trace := { line := fn.code.body.firstLine }

section Call

variable {fn : Function} {builtins : Ref .mapping} {h₀ : Heap}

theorem create_of_optimized (ho : fn.code.body.flags.optimized = true)
    (hc : fn.closure.length = fn.code.body.freevars.length) :
    create fn.code fn.globals builtins fn.closure h =
      .ok (atStart fn builtins (List.replicate fn.code.body.varnames.length none)
        ((Heap.newCells fn.code.body.cellvars h).1 ++ fn.closure),
        (Heap.newCells fn.code.body.cellvars h).2) := by
  have hinit : initialLocals fn.code.body fn.globals h =
      (.fast (List.replicate fn.code.body.varnames.length none), h) := if_pos ho
  rw [create]
  dsimp only
  rw [if_neg (not_not.2 hc), hinit]
  rfl

theorem bindArguments_atStart (hv : fn.code.body.Valid) (hn : ¬ fn.Refuses args.length)
    (hl : own.length = fn.code.body.cellvars.length) :
    (atStart fn builtins (List.replicate fn.code.body.varnames.length none)
        (own ++ fn.closure)).bindArguments (fn.given args) h =
      .ok (atStart fn builtins (fn.slots args) (own ++ fn.closure),
        fillCells fn.code.body.parameters (fn.slots args) own fn.code.body.cellvars h) := by
  have hfit := (fn.length_given hn).trans_le hv.argCount_le
  rw [bindArguments]
  dsimp only [atStart]
  rw [List.length_replicate, if_neg (Nat.not_lt.2 hfit), bindSlots_replicate hfit,
    fn.length_given hn, fillCells_append hl]
  rfl

/-- The slot of a parameter is found by its name. -/
theorem slots_idxOf? (hn : ¬ fn.Refuses args.length) {name : String} {j : Nat}
    (hj : fn.code.body.parameters.idxOf? name = some j) :
    ((fn.slots args)[j]?).join = fn.valueOf? args name := by
  have hlt : j < (fn.given args).length := by
    have hlt := (List.findIdx?_eq_some_iff_getElem.1 hj).1
    rw [CodeOf.parameters, List.length_take] at hlt
    rw [fn.length_given hn]
    omega
  rw [FunctionOf.valueOf?, hj, FunctionOf.slots,
    List.getElem?_append_left (by rwa [List.length_map]), List.getElem?_map,
    List.getElem?_eq_getElem hlt]
  exact (List.getElem?_eq_getElem hlt).symm

/-- Cells that are new and empty are filled as the call asks for. -/
theorem binds_atStart (hv : fn.code.body.Valid) (ho : fn.code.body.flags.optimized = true)
    (hc : fn.closure.length = fn.code.body.freevars.length) (hn : ¬ fn.Refuses args.length)
    (hl : own.length = fn.code.body.cellvars.length) (hd : own.Nodup)
    (hnew : ∀ r ∈ own, h.cells.size ≤ r.index ∧ r.index < h₀.cells.size)
    (hkept : ∀ r, h₀.cellAt r = h.cellAt r) (hothers : h₀ = { h with cells := h₀.cells }) :
    Binds fn builtins args h (atStart fn builtins (fn.slots args) (own ++ fn.closure))
      (fillCells fn.code.body.parameters (fn.slots args) own fn.code.body.cellvars h₀) := by
  have htake : (own ++ fn.closure).take fn.code.body.cellvars.length = own := by
    rw [← hl, List.take_left]
  refine {
    fresh := ⟨rfl, rfl, ?_, ⟨ho, ?_⟩, rfl, rfl, rfl, rfl, rfl, rfl⟩
    builtins_eq := rfl
    locals_eq := rfl
    closure := ?_
    distinct := htake.symm ▸ hd
    unused := ?_
    contents := ?_
    kept := ?_
    others := ?_ }
  · rw [atStart, List.length_append, hl, hc, CodeOf.cellCount, CodeOf.cellNames, List.length_append]
  · have hfit := hv.argCount_le
    rw [FunctionOf.slots, List.length_append, List.length_map, fn.length_given hn,
      List.length_replicate]
    omega
  · rw [atStart, ← hl, List.drop_left]
  · rw [atStart, htake, size_cells_fillCells]
    exact hnew
  · intro k name r hk hr
    have hlt := (List.getElem?_eq_some_iff.1 hk).1
    rw [atStart, List.getElem?_append_left (hl ▸ hlt)] at hr
    rw [cellAt_fillCells hd (fun r hr => (hnew r hr).2) hk hr]
    -- a cell of a parameter was filled from its slot, and any other one is still new
    cases hi : fn.code.body.parameters.idxOf? name with
    | some j => exact slots_idxOf? hn hi
    | none =>
      rw [FunctionOf.valueOf?, hi]
      exact (hkept r).trans (Store.get_of_le (hnew r (List.mem_of_getElem? hr)).1)
  · intro r hr
    rw [cellAt_fillCells_of_notMem fun hm => absurd (hnew r hm).1 (Nat.not_le.2 hr), hkept]
  · rw [fillCells_eq, hothers]

/-- **Making a frame and binding the arguments** of a possible call gives the frame of the call. -/
theorem exists_binds (hv : fn.code.body.Valid) (ho : fn.code.body.flags.optimized = true)
    (hc : fn.closure.length = fn.code.body.freevars.length) (hn : ¬ fn.Refuses args.length)
    (builtins : Ref .mapping) (h : Heap) :
    ∃ f₀ h₀ f h', create fn.code fn.globals builtins fn.closure h = .ok (f₀, h₀) ∧
      f₀.bindArguments (fn.given args) h₀ = .ok (f, h') ∧ Binds fn builtins args h f h' := by
  have hl := length_newCells fn.code.body.cellvars h
  refine ⟨_, _, _, _, create_of_optimized ho hc, bindArguments_atStart hv hn hl,
    binds_atStart hv ho hc hn hl ?_ ?_ (Heap.cellAt_newCells _ h) (Heap.newCells_eq _ h)⟩
  · rw [Heap.newCells_fst]
    exact List.Nodup.map (fun i j he => congrArg Ref.index he) List.nodup_range'
  · intro r hr
    rw [Heap.newCells_fst, List.mem_map] at hr
    obtain ⟨i, hi, rfl⟩ := hr
    rw [Heap.size_cells_newCells]
    exact List.mem_range'_1.1 hi

end Call

end Frame

end Resumable
