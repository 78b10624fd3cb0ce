import Resumable.Machine.Instruction
import Resumable.Proofs.Heap.Growth

/-!
# What operations on values come to

An exception that an operation on values raises is new: it has passed through no frame, so its
traceback is empty.  An operation that succeeds lets the heap grow.  `Operation.Orderly` says both,
and here it is said of every operation that an instruction performs.
-/

namespace Resumable

/-- The exception has passed through no frame. -/
def Raised.IsNew (e : Raised) : Prop := e.traceback = []

/-- A result is no exception, or a new one. -/
def RaisesNew {α : Type} (x : Except Raised α) : Prop := ∀ e, x = .error e → e.IsNew

/-- Whatever the heap, the operation lets it grow, or raises a new exception. -/
def Operation.Orderly {α : Type} (x : Operation α) : Prop :=
  ∀ h, match x.run h with
    | .ok (_, h') => h.Grows h'
    | .error e => e.IsNew

/-! ### Results -/

section Results

variable {α β : Type}

theorem raisesNew_ok (a : α) : RaisesNew (.ok a) := nofun

theorem raisesNew_error {e : Raised} (h : e.IsNew) : RaisesNew (.error e : Except Raised α) := by
  rintro _ ⟨⟩
  exact h

theorem RaisesNew.map {x : Except Raised α} (h : RaisesNew x) (f : α → β) :
    RaisesNew (x.map f) := by
  cases x with
  | ok a => exact raisesNew_ok _
  | error e => exact raisesNew_error (h e rfl)

theorem raisesNew_narrowed (i : Int) : RaisesNew (narrowed i) := by
  unfold narrowed
  split
  · exact raisesNew_ok _
  · exact raisesNew_error rfl

theorem raisesNew_onInts (op : BinaryOperator) (a b : Int64) : RaisesNew (op.onInts a b) := by
  unfold BinaryOperator.onInts
  split
  · exact raisesNew_error rfl
  · split
    · exact raisesNew_error rfl
    · cases op with
      | add | sub | mul => exact raisesNew_narrowed _
      | mod | floorDiv => exact raisesNew_ok _

theorem raisesNew_onFloats (op : BinaryOperator) (a b : Binary64) :
    RaisesNew (op.onFloats a b) := by
  unfold BinaryOperator.onFloats
  cases op with
  | mod | floorDiv =>
    dsimp only
    split
    · exact raisesNew_error rfl
    · exact raisesNew_ok _
  | _ => exact raisesNew_ok _

theorem raisesNew_repeatCount (length : Nat) (times : Int64) :
    RaisesNew (repeatCount length times) := by
  unfold repeatCount
  dsimp only
  split
  · exact raisesNew_ok _
  · split
    · exact raisesNew_ok _
    · exact raisesNew_error rfl

theorem raisesNew_positive (v : Value) : RaisesNew v.positive := by
  unfold Value.positive
  split
  · exact raisesNew_ok _
  · split
    · exact raisesNew_ok _
    · exact raisesNew_error rfl

theorem raisesNew_negative (v : Value) : RaisesNew v.negative := by
  unfold Value.negative
  split
  · exact raisesNew_ok _
  · split
    · split
      · exact raisesNew_ok _
      · exact raisesNew_error rfl
    · exact raisesNew_error rfl

theorem raisesNew_asArgument (v : Value) : RaisesNew v.asArgument := by
  unfold Value.asArgument
  split
  · exact raisesNew_ok _
  · exact raisesNew_error rfl

theorem raisesNew_callLen (args : List Value) : RaisesNew (Builtin.callLen args) := by
  unfold Builtin.callLen
  split
  · exact (raisesNew_narrowed _).map _
  · exact (raisesNew_narrowed _).map _
  · exact raisesNew_error rfl
  · exact raisesNew_error rfl

theorem raisesNew_rangeOf (args : List Int64) : RaisesNew (Builtin.rangeOf args) := by
  have checked (start stop step : Int64) : RaisesNew
      (if step == 0 then .error (Raised.new .valueError "range() arg 3 must not be zero")
        else .ok (.range start stop step) : Except Raised Iteration) := by
    split
    · exact raisesNew_error rfl
    · exact raisesNew_ok _
  unfold Builtin.rangeOf
  dsimp only
  split
  · exact checked _ _ _
  · exact checked _ _ _
  · exact checked _ _ _
  · exact raisesNew_error rfl

theorem raisesNew_contains (container item : Value) : RaisesNew (container.contains item) := by
  unfold Value.contains
  split
  · exact raisesNew_ok _
  · split
    · exact raisesNew_ok _
    · exact raisesNew_error rfl
  · exact raisesNew_error rfl

mutual

theorem raisesNew_catches (raised : ExceptionKind) (v : Value) :
    RaisesNew (Value.catches raised v) := by
  unfold Value.catches
  split
  · exact raisesNew_ok _
  · -- a tuple of classes, which may hold anything, also further tuples
    exact raisesNew_anyCatches raised _
  · exact raisesNew_error rfl

theorem raisesNew_anyCatches (raised : ExceptionKind) (vs : List Value) :
    RaisesNew (Value.anyCatches raised vs) := by
  cases vs with
  | nil =>
    unfold Value.anyCatches
    exact raisesNew_ok _
  | cons v rest =>
    unfold Value.anyCatches
    split
    · exact raisesNew_anyCatches raised rest
    · exact raisesNew_catches raised v

end

theorem raisesNew_ordered (op : Comparison) (a b : Value) : RaisesNew (Value.ordered op a b) := by
  unfold Value.ordered
  split
  · exact raisesNew_ok _
  · exact raisesNew_error rfl

theorem raisesNew_compare (op : Comparison) (a b : Value) : RaisesNew (Value.compare op a b) := by
  unfold Value.compare Value.exceptionMatch
  cases op with
  | eq | ne | same | notSame => exact raisesNew_ok _
  | mem => exact raisesNew_contains b a
  | notMem => exact (raisesNew_contains b a).map _
  | exceptionMatch =>
    dsimp only
    split
    · exact raisesNew_catches _ b
    · exact raisesNew_ok _
  | _ => exact (raisesNew_ordered _ a b).map _

theorem raisesNew_asArguments (args : List Value) : RaisesNew (args.mapM Value.asArgument) := by
  induction args with
  | nil => exact raisesNew_ok _
  | cons v args ih =>
    rw [List.mapM_cons]
    cases hv : v.asArgument with
    | error e => exact raisesNew_error (raisesNew_asArgument v e hv)
    | ok i =>
      cases hr : args.mapM Value.asArgument with
      | error e => exact raisesNew_error (ih e hr)
      | ok is => exact raisesNew_ok _

theorem raisesNew_completeArguments (f : Function) (args : List Value) :
    RaisesNew (Exec.completeArguments f args) := by
  unfold Exec.completeArguments
  dsimp only
  split
  · exact raisesNew_error rfl
  · split
    · exact raisesNew_error rfl
    · exact raisesNew_ok _

end Results

/-! ### Operations -/

namespace Operation

variable {α β : Type}

theorem orderly_pure (a : α) : Orderly (pure a) := fun h => .refl h

theorem orderly_raise {e : Raised} (he : e.IsNew) : Orderly (raise e : Operation α) := fun _ => he

theorem orderly_liftM {x : Except Raised α} (hx : RaisesNew x) :
    Orderly (liftM x : Operation α) := by
  intro h
  cases x with
  | ok a => exact Heap.Grows.refl h
  | error e => exact hx e rfl

theorem Orderly.bind {x : Operation α} {k : α → Operation β} (hx : x.Orderly)
    (hk : ∀ a, (k a).Orderly) : (x >>= k).Orderly := by
  intro h
  have hx := hx h
  rw [StateT.run_bind]
  cases hr : x.run h with
  | error e =>
    rw [hr] at hx
    exact hx
  | ok r =>
    obtain ⟨a, h₁⟩ := r
    rw [hr] at hx
    have hk := hk a h₁
    show match (k a).run h₁ with
      | .ok (_, h') => h.Grows h'
      | .error e => e.IsNew
    cases hr' : (k a).run h₁ with
    | error e =>
      rw [hr'] at hk
      exact hk
    | ok r' =>
      rw [hr'] at hk
      exact hx.trans hk

theorem orderly_str (text : String) : (str text).Orderly := fun _ => .of_stores rfl rfl

theorem orderly_tuple (items : List Value) : (tuple items).Orderly := fun _ => .of_stores rfl rfl

/-- An iterator is made before its first value. -/
theorem orderly_iterator {i : Iteration} (hi : i.Unused) : (iterator i).Orderly :=
  fun h => .newIterator h hi

theorem orderly_text (v : Value) : (text v).Orderly := fun h => .refl h

theorem orderly_characters (cs : List Char) : (characters cs).Orderly := by
  unfold characters
  induction cs with
  | nil => exact orderly_pure []
  | cons c cs ih =>
    rw [List.mapM_cons]
    exact (orderly_str _).bind fun _ => ih.bind fun _ => orderly_pure _

theorem orderly_repeatSequence (v : Value) (times : Int64) : (v.repeatSequence times).Orderly := by
  unfold Value.repeatSequence
  split
  · exact (orderly_liftM (raisesNew_repeatCount _ _)).bind fun _ => orderly_str _
  · exact (orderly_liftM (raisesNew_repeatCount _ _)).bind fun _ => orderly_tuple _
  · exact orderly_pure _

theorem orderly_onSequences (op : BinaryOperator) (a b : Value) :
    (Value.onSequences op a b).Orderly := by
  unfold Value.onSequences
  split
  · exact orderly_str _
  · exact orderly_tuple _
  · split
    · exact orderly_repeatSequence _ _
    · exact orderly_repeatSequence _ _
    · exact orderly_raise rfl
  · exact orderly_raise rfl

theorem orderly_binary (op : BinaryOperator) (a b : Value) : (a.binary op b).Orderly := by
  unfold Value.binary
  split
  · exact (orderly_liftM (raisesNew_onInts _ _ _)).bind fun _ => orderly_pure _
  · split
    · exact (orderly_liftM (raisesNew_onFloats _ _ _)).bind fun _ => orderly_pure _
    · exact orderly_onSequences op a b

theorem orderly_iter (v : Value) : v.iter.Orderly := by
  unfold Value.iter
  split
  · exact orderly_iterator rfl
  · exact orderly_iterator rfl
  · exact orderly_pure _
  · exact orderly_pure _
  · exact orderly_raise rfl

theorem orderly_elements (v : Value) : v.elements.Orderly := by
  unfold Value.elements
  split
  · exact orderly_pure _
  · exact orderly_characters _
  · exact orderly_raise rfl

theorem orderly_unpack (v : Value) (count : Nat) : (v.unpack count).Orderly := by
  refine (orderly_elements v).bind fun items => ?_
  split
  · exact orderly_raise rfl
  · split
    · exact orderly_raise rfl
    · exact orderly_pure _

theorem orderly_subscript (container index : Value) : (container.subscript index).Orderly := by
  unfold Value.subscript
  split
  · exact orderly_raise rfl
  · split
    · split
      · exact orderly_pure _
      · exact orderly_raise rfl
    · split
      · exact orderly_str _
      · exact orderly_raise rfl
    · exact orderly_raise rfl

/-- A sequence is unpacked if it has as many items as were asked for. -/
theorem run_unpack {v : Value} {vs : List Value} {h h' : Heap}
    (hrun : v.elements.run h = .ok (vs, h')) (n : Nat) :
    (v.unpack n).run h =
      if vs.length < n then .error (Raised.new .valueError
        s!"not enough values to unpack (expected {n}, got {vs.length})")
      else if n < vs.length then
        .error (Raised.new .valueError s!"too many values to unpack (expected {n})")
      else .ok (vs, h') := by
  unfold Value.unpack
  rw [StateT.run_bind, hrun]
  show (if vs.length < n then _ else _ : Operation (List Value)).run h' = _
  split
  · rfl
  · split
    · rfl
    · rfl

theorem length_unpack {v : Value} {n : Nat} {h h' : Heap} {items : List Value}
    (hr : (v.unpack n).run h = .ok (items, h')) : items.length = n := by
  cases he : v.elements.run h with
  | error e =>
    unfold Value.unpack at hr
    rw [StateT.run_bind, he] at hr
    cases hr
  | ok r =>
    rw [run_unpack he] at hr
    split at hr
    · cases hr
    · split at hr
      · cases hr
      · cases hr
        omega

/-- Native functions make iterators over ranges only, which have no position. -/
theorem unused_of_rangeOf {args : List Int64} {i : Iteration} (h : Builtin.rangeOf args = .ok i) :
    i.Unused := by
  unfold Builtin.rangeOf at h
  grind [Iteration.Unused]

theorem orderly_call (b : Builtin) (args : List Value) : (b.call args).Orderly := by
  unfold Builtin.call
  split
  · exact orderly_liftM (raisesNew_callLen args)
  · refine (orderly_liftM (raisesNew_asArguments args)).bind fun ints => ?_
    cases hr : Builtin.rangeOf ints with
    | error e => exact orderly_raise (raisesNew_rangeOf ints e hr)
    | ok i => exact orderly_iterator (unused_of_rangeOf hr)

theorem orderly_instantiate (kind : ExceptionKind) (args : List Value) :
    (kind.instantiate args).Orderly := by
  unfold ExceptionKind.instantiate
  split
  · exact orderly_pure _
  · exact orderly_pure _
  · exact (orderly_text _).bind fun _ => orderly_pure _

theorem orderly_toRaised (v : Value) (arg : Option Value) : (v.toRaised arg).Orderly := by
  unfold Value.toRaised
  split
  · exact orderly_pure _
  · exact orderly_pure _
  · exact orderly_instantiate _ _
  · exact orderly_raise rfl

/-- What a value is made into, to be raised, is new. -/
theorem new_of_toRaised {v : Value} {arg : Option Value} {h h' : Heap} {e : Raised}
    (hr : (v.toRaised arg).run h = .ok (e, h')) : e.IsNew := by
  have instantiated {k : ExceptionKind} {args : List Value}
      (hr : (k.instantiate args).run h = .ok (e, h')) : e.IsNew := by
    unfold ExceptionKind.instantiate at hr
    split at hr <;> cases hr <;> rfl
  unfold Value.toRaised at hr
  split at hr
  · cases hr
    rfl
  · cases hr
    rfl
  · exact instantiated hr
  · cases hr

mutual

theorem orderly_constantValue : ∀ c : Const, (Exec.constantValue c).Orderly
  | .none => orderly_pure _
  | .bool _ => orderly_pure _
  | .int _ => orderly_pure _
  | .float _ => orderly_pure _
  | .str _ => orderly_str _
  | .tuple items => (orderly_constantValues items).bind fun _ => orderly_tuple _
  | .code _ _ => orderly_pure _

theorem orderly_constantValues : ∀ cs : List Const, (Exec.constantValues cs).Orderly
  | [] => orderly_pure _
  | c :: rest =>
    (orderly_constantValue c).bind fun _ => (orderly_constantValues rest).bind fun _ =>
      orderly_pure _

end

end Operation

end Resumable
