import Resumable.Proofs.Heap.Iteration
import Resumable.Proofs.Machine.NextItem
import Resumable.Proofs.Operation.Outcomes

/-!
# Reading sequences

A tuple or a string is read in four ways: it is counted, its items are drawn from an iterator, it is
unpacked, and it is indexed.  `Value.HasItem` says which item stands at which position, and each way
is shown to give that item; those of a string are new strings each time, equal but for their
identities.  An iterator over a string counts bytes, and the course of the iteration cuts the string
where it stands (`Value.CharsAt`).

`Value.sequence_readAlike` puts the four together.
-/

namespace Resumable

namespace Value

variable {v x y : Value} {k : Nat} {i : Identity} {items : List Value} {text : String}

/-- The number of items of a sequence. -/
def itemCount : Value → Nat
  | tuple _ items => items.length
  | str _ text => text.length
  | _ => 0

/-- The item of a sequence at a position.  That of a string is a string of one character, whatever
its identity. -/
def HasItem : Value → Nat → Value → Prop
  | tuple _ items, k, x => items[k]? = some x
  | str _ text, k, x => ∃ i c, text.toList[k]? = some c ∧ x = str i (String.singleton c)
  | _, _, _ => False

/-! ### Iteration -/

/-- An iterator over a tuple counts its items. -/
theorem tupleCourse (i : Identity) (items : List Value) :
    Iteration.Course items.length (tuple i items).HasItem
      (fun k j => j = .items items.toArray k) where
  item := by
    rintro k _ rfl hk fresh
    refine ⟨items[k], _, ?_, List.getElem?_eq_getElem hk, rfl⟩
    simp [Iteration.next?, hk]
  stop := by
    rintro k _ rfl hk fresh
    simp [Iteration.next?, hk]

/-- An iterator over a string counts the bytes of the characters it has drawn. -/
def CharsAt (text : String) (k : Nat) (j : Iteration) : Prop :=
  ∃ before after : String, text = before ++ after ∧ before.length = k ∧
    j = .chars text before.utf8ByteSize

theorem strCourse (i : Identity) (text : String) :
    Iteration.Course text.length (str i text).HasItem (CharsAt text) where
  item := by
    rintro k _ ⟨before, after, rfl, rfl, rfl⟩ hk fresh
    have hv := Iteration.isValid_append before after
    have hc := Iteration.charAt?_append before after
    rcases Iteration.eq_empty_or_singleton_append after with rfl | ⟨c, rest, rfl⟩
    · simp at hk
    · -- the first character behind the cut is drawn, and the cut moves behind it
      rw [Iteration.head?_toList_singleton_append] at hc
      refine ⟨_, _, by rw [Iteration.next?, if_pos hv, hc]; rfl, ⟨fresh, c, ?_, rfl⟩, ?_⟩
      · rw [String.toList_append, ← String.length_toList, List.getElem?_append_right le_rfl,
          Nat.sub_self, ← List.head?_eq_getElem?, Iteration.head?_toList_singleton_append]
      · refine ⟨before ++ String.singleton c, rest, ?_, ?_, ?_⟩
        · rw [String.append_assoc]
        · simp
        · rw [String.utf8ByteSize_append, String.utf8ByteSize_singleton]
  stop := by
    rintro k _ ⟨before, after, rfl, rfl, rfl⟩ hk fresh
    have ha : after = "" := by
      rw [String.length_append] at hk
      rw [← String.length_eq_zero_iff]
      omega
    subst ha
    rw [Iteration.next?, if_pos (Iteration.isValid_append before ""), Iteration.charAt?_append]
    rfl

theorem iter_supplies (hv : v.isSequence = true) (h : Heap) :
    ∃ r h', v.iter.run h = .ok (.iterator r, h') ∧ h'.Supplies r v.itemCount v.HasItem := by
  cases v with
  | tuple i items => exact ⟨_, _, rfl, (tupleCourse i items).supplies_newIterator rfl h⟩
  | str i text =>
    exact ⟨_, _, rfl,
      (strCourse i text).supplies_newIterator ⟨"", text, String.empty_append.symm, rfl, rfl⟩ h⟩
  | _ => cases hv

/-! ### Unpacking -/

/-- Every character makes a new string. -/
theorem run_characters (cs : List Char) (h : Heap) :
    ∃ (vs : List Value) (h' : Heap), (Operation.characters cs).run h = .ok (vs, h') ∧
      vs.length = cs.length ∧
      ∀ (k : Nat) (x : Value), vs[k]? = some x →
        ∃ i c, cs[k]? = some c ∧ x = str i (String.singleton c) := by
  induction cs generalizing h with
  | nil => exact ⟨[], h, rfl, rfl, fun k x hx => by simp at hx⟩
  | cons c cs ih =>
    obtain ⟨vs, h', hrun, hlen, hitems⟩ := ih h.newIdentity.2
    refine ⟨str h.newIdentity.1 (String.singleton c) :: vs, h', ?_, by simp [hlen], ?_⟩
    · unfold Operation.characters at hrun ⊢
      rw [List.mapM_cons, StateT.run_bind]
      show (do
        let vs ← List.mapM (fun c => Operation.str c.toString) cs
        pure (str h.newIdentity.1 (String.singleton c) :: vs) : Operation (List Value)).run
          h.newIdentity.2 = _
      rw [StateT.run_bind, hrun]
      rfl
    · rintro (_ | k) x hx
      · cases hx
        exact ⟨_, c, rfl, rfl⟩
      · exact hitems k x hx

theorem run_elements (hv : v.isSequence = true) (h : Heap) :
    ∃ (vs : List Value) (h' : Heap), v.elements.run h = .ok (vs, h') ∧ vs.length = v.itemCount ∧
      ∀ (k : Nat) (x : Value), vs[k]? = some x → v.HasItem k x := by
  cases v with
  | tuple i items => exact ⟨items, h, rfl, rfl, fun k x hx => hx⟩
  | str i text =>
    obtain ⟨vs, h', hrun, hlen, hitems⟩ := run_characters text.toList h
    exact ⟨vs, h', hrun, hlen.trans String.length_toList, hitems⟩
  | _ => cases hv

/-! ### Indices -/

variable {α : Type} {l : List α} {n : Int}

theorem itemAt?_of_nonneg (hn : 0 ≤ n) : itemAt? l n = l[n.toNat]? := if_pos hn

/-- A negative index counts from the end. -/
theorem itemAt?_sub_length (hn : 0 ≤ n) (hl : n < l.length) :
    itemAt? l (n - l.length) = itemAt? l n := by
  unfold itemAt?
  rw [if_neg (by omega), if_pos (by omega), if_pos hn, Int.sub_add_cancel]

theorem itemAt?_eq_none_iff :
    itemAt? l n = Option.none ↔ ¬(-(l.length : Int) ≤ n ∧ n < l.length) := by
  unfold itemAt?
  split
  · rw [List.getElem?_eq_none_iff]
    omega
  · split
    · rw [List.getElem?_eq_none_iff]
      omega
    · simp
      omega

theorem run_subscript_tuple (i : Identity) (items : List Value) (j : Int64) (h : Heap) :
    ((tuple i items).subscript (.int j)).run h =
      match itemAt? items j.toInt with
      | some x => .ok (x, h)
      | Option.none => .error (Raised.new .indexError "tuple index out of range") := by
  show (match itemAt? items j.toInt with
    | some x => pure x
    | Option.none => Operation.raise (Raised.new .indexError "tuple index out of range") :
      Operation Value).run h = _
  cases itemAt? items j.toInt <;> rfl

theorem run_subscript_str (i : Identity) (text : String) (j : Int64) (h : Heap) :
    ((str i text).subscript (.int j)).run h =
      match itemAt? text.toList j.toInt with
      | some c => .ok (str h.newIdentity.1 (String.singleton c), h.newIdentity.2)
      | Option.none => .error (Raised.new .indexError "string index out of range") := by
  show (match itemAt? text.toList j.toInt with
    | some c => Operation.str c.toString
    | Option.none => Operation.raise (Raised.new .indexError "string index out of range") :
      Operation Value).run h = _
  cases itemAt? text.toList j.toInt <;> rfl

/-- Whether there is an item at an index depends on the number of items. -/
theorem subscript_spec (hv : v.isSequence = true) (j : Int64) (h : Heap) :
    ((v.subscript (.int j)).Raises .indexError h ↔
      ¬(-(v.itemCount : Int) ≤ j.toInt ∧ j.toInt < v.itemCount)) ∧
    (0 ≤ j.toInt → j.toInt < v.itemCount →
      ∃ x h', (v.subscript (.int j)).run h = .ok (x, h') ∧ v.HasItem j.toInt.toNat x) := by
  cases v with
  | tuple i items =>
    rw [Operation.Raises, run_subscript_tuple, itemCount, ← itemAt?_eq_none_iff]
    refine ⟨?_, fun hj hlt => ?_⟩
    · cases itemAt? items j.toInt <;> simp [Raised.new]
    · have hk : j.toInt.toNat < items.length := by omega
      rw [itemAt?_of_nonneg hj, List.getElem?_eq_getElem hk]
      exact ⟨_, h, rfl, List.getElem?_eq_getElem hk⟩
  | str i text =>
    rw [Operation.Raises, run_subscript_str, itemCount, ← String.length_toList,
      ← itemAt?_eq_none_iff]
    refine ⟨?_, fun hj hlt => ?_⟩
    · cases itemAt? text.toList j.toInt <;> simp [Raised.new]
    · have hk : j.toInt.toNat < text.toList.length := by omega
      rw [itemAt?_of_nonneg hj, List.getElem?_eq_getElem hk]
      exact ⟨_, _, rfl, _, _, List.getElem?_eq_getElem hk, rfl⟩
  | _ => cases hv

/-- An index counted from the end names the same item. -/
theorem subscript_sub_itemCount (hv : v.isSequence = true) {j k : Int64} (hk : 0 ≤ k.toInt)
    (hlt : k.toInt < v.itemCount) (hj : j.toInt = k.toInt - v.itemCount) (h : Heap) :
    (v.subscript (.int j)).run h = (v.subscript (.int k)).run h := by
  cases v with
  | tuple i items =>
    rw [run_subscript_tuple, run_subscript_tuple, hj, itemCount, itemAt?_sub_length hk hlt]
  | str i text =>
    rw [itemCount, ← String.length_toList] at hlt hj
    rw [run_subscript_str, run_subscript_str, hj, itemAt?_sub_length hk hlt]
  | _ => cases hv

/-! ### The ways to read a sequence -/

theorem run_len (hv : v.isSequence = true) (n : Int64) (h : Heap) :
    (Builtin.len.call [v]).run h = .ok (.int n, h) ↔ n.toInt = v.itemCount := by
  have hrun : (Builtin.len.call [v]).run h = (narrowed v.itemCount).map fun w => (.int w, h) := by
    cases v with
    | tuple i items =>
      show (liftM ((narrowed items.length).map Value.int) : Operation Value).run h = _
      rw [itemCount]
      cases narrowed items.length <;> rfl
    | str i text =>
      show (liftM ((narrowed text.length).map Value.int) : Operation Value).run h = _
      rw [itemCount]
      cases narrowed text.length <;> rfl
    | _ => cases hv
  rw [hrun, ← narrowed_eq_ok_iff]
  cases narrowed v.itemCount <;> simp [Except.map]

theorem unpack_spec (hv : v.isSequence = true) (h : Heap) :
    (∃ (vs : List Value) (h' : Heap), (v.unpack v.itemCount).run h = .ok (vs, h') ∧
      vs.length = v.itemCount ∧ ∀ (k : Nat) (x : Value), vs[k]? = some x → v.HasItem k x) ∧
    ∀ m, (v.unpack m).Raises .valueError h ↔ m ≠ v.itemCount := by
  obtain ⟨vs, h', hrun, hlen, hitems⟩ := run_elements hv h
  refine ⟨⟨vs, h', ?_, hlen, hitems⟩, fun m => ?_⟩
  · rw [Operation.run_unpack hrun, hlen, if_neg (Nat.lt_irrefl _), if_neg (Nat.lt_irrefl _)]
  · rw [Operation.Raises, Operation.run_unpack hrun, hlen]
    split
    · exact iff_of_true ⟨_, rfl, rfl⟩ (by omega)
    · split
      · exact iff_of_true ⟨_, rfl, rfl⟩ (by omega)
      · exact iff_of_false (by simp) (by omega)

/-- There is one item at each position, but for the identity of a new string. -/
theorem exists_hasItem (hv : v.isSequence = true) (hk : k < v.itemCount) :
    ∃ x, v.HasItem k x ∧ ∀ y, v.HasItem k y → y = x ∨ ∃ i j s, x = str i s ∧ y = str j s := by
  cases v with
  | tuple i items =>
    have hk : k < items.length := hk
    refine ⟨items[k], List.getElem?_eq_getElem hk, fun y hy => .inl ?_⟩
    exact Option.some.inj (hy.symm.trans (List.getElem?_eq_getElem hk))
  | str i text =>
    have hk : k < text.toList.length := by rwa [String.length_toList]
    refine ⟨str 0 (String.singleton text.toList[k]), ⟨0, _, List.getElem?_eq_getElem hk, rfl⟩, ?_⟩
    rintro _ ⟨j, c, hc, rfl⟩
    rw [List.getElem?_eq_getElem hk] at hc
    cases hc
    exact .inr ⟨0, j, _, rfl, rfl⟩
  | _ => cases hv

/-- The ways to read a sequence give the same items in the same order. -/
structure ReadAlike (v : Value) (h : Heap) : Prop where
  /-- At each position there is one item, but for the identity of a new string. -/
  item : ∀ k, k < v.itemCount → ∃ x, v.HasItem k x ∧
    ∀ y, v.HasItem k y → y = x ∨ ∃ i j s, x = str i s ∧ y = str j s
  /-- The length is the number of items. -/
  len : ∀ n : Int64, (Builtin.len.call [v]).run h = .ok (.int n, h) ↔ n.toInt = v.itemCount
  /-- An iterator supplies the items, and nothing after them. -/
  iter : ∃ r h', v.iter.run h = .ok (.iterator r, h') ∧ h'.Supplies r v.itemCount v.HasItem
  /-- Unpacking lists the items. -/
  unpack : ∃ (vs : List Value) (h' : Heap), (v.unpack v.itemCount).run h = .ok (vs, h') ∧
    vs.length = v.itemCount ∧ ∀ (k : Nat) (x : Value), vs[k]? = some x → v.HasItem k x
  /-- It is refused for any other number of items. -/
  unpack_refuses : ∀ m, (v.unpack m).Raises .valueError h ↔ m ≠ v.itemCount
  /-- An index gives the item at its position. -/
  subscript : ∀ j : Int64, 0 ≤ j.toInt → j.toInt < v.itemCount →
    ∃ x h', (v.subscript (.int j)).run h = .ok (x, h') ∧ v.HasItem j.toInt.toNat x
  /-- An index less the length does the same. -/
  subscript_sub : ∀ j k : Int64, 0 ≤ k.toInt → k.toInt < v.itemCount →
    j.toInt = k.toInt - v.itemCount →
    (v.subscript (.int j)).run h = (v.subscript (.int k)).run h
  /-- Any other index is refused. -/
  subscript_refuses : ∀ j : Int64, (v.subscript (.int j)).Raises .indexError h ↔
    ¬(-(v.itemCount : Int) ≤ j.toInt ∧ j.toInt < v.itemCount)

/-- **The ways to read a sequence** agree. -/
theorem sequence_readAlike (hv : v.isSequence = true) (h : Heap) : v.ReadAlike h where
  item _ hk := exists_hasItem hv hk
  len n := run_len hv n h
  iter := iter_supplies hv h
  unpack := (unpack_spec hv h).1
  unpack_refuses := (unpack_spec hv h).2
  subscript j := (subscript_spec hv j h).2
  subscript_sub _ _ hk hlt hj := subscript_sub_itemCount hv hk hlt hj h
  subscript_refuses j := (subscript_spec hv j h).1

/-- A string of three characters and seven bytes. -/
theorem sequence_of_bytes :
    (str 0 "aé😀").ReadAlike .initial ∧ (str 0 "aé😀").itemCount = 3 ∧
      ((str 0 "aé😀").subscript (.int (-1))).run .initial =
        ((str 0 "aé😀").subscript (.int 2)).run .initial ∧
      ((str 0 "aé😀").subscript (.int Int64.minValue)).Raises .indexError .initial ∧
      ((str 0 "aé😀").unpack 7).Raises .valueError .initial := by
  have hread := sequence_readAlike (v := str 0 "aé😀") rfl .initial
  have hcount : (str 0 "aé😀").itemCount = 3 := by decide
  exact ⟨hread, hcount,
    hread.subscript_sub (-1) 2 (by decide) (by rw [hcount]; decide) (by rw [hcount]; decide),
    (hread.subscript_refuses _).2 (by rw [hcount]; decide),
    (hread.unpack_refuses 7).2 (by rw [hcount]; decide)⟩

end Value

end Resumable
