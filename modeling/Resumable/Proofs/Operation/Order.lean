import Mathlib.Data.String.Basic
import Resumable.Operation.Comparison

/-!
# Order and equality of plain values

Order takes a boolean for the integer it counts as, and equality keeps the two apart.  Beside each
other they come out equal in order without being equal, and two tuples that first differ there do
so whatever follows (`Value.conflated`).

But for that, the order of plain values, those without floats, agrees with equality
(`Value.Plain.order?_eq`) and goes on from one value to the next (`Value.Plain.between`).  Both are
shown by induction on a value together with its items.  Two tuples are ordered by the first items
that differ, so that at each item a value that equals another must behave like it
(`Value.Plain.replaceable`).  `Value.Plain.compare_spec` says what follows for the operators.
-/

namespace Resumable

namespace Value

/-- Data without floats: `None`, booleans, integers, strings, and tuples of these. -/
inductive Plain : Value → Prop
  | none : Plain .none
  | bool (b : Bool) : Plain (.bool b)
  | int (i : Int64) : Plain (.int i)
  | str (i : Identity) (s : String) : Plain (.str i s)
  | tuple (i : Identity) {items : List Value} (h : ∀ v ∈ items, Plain v) : Plain (.tuple i items)

mutual

/-- Two values differ, but at the first difference a boolean stands beside the integer it counts
as. -/
def conflated : Value → Value → Bool
  | bool b, int i | int i, bool b => i == if b then 1 else 0
  | tuple _ as, tuple _ bs => conflatedItems as bs
  | _, _ => false

/-- Two lists of items differ, and their first items that do are conflated. -/
def conflatedItems : List Value → List Value → Bool
  | a :: as, b :: bs => if a.eq b then conflatedItems as bs else conflated a b
  | _, _ => false

end

variable {x y z : Value} {as bs cs : List Value} {o o' : Ordering}

/-! ### The sorts of values that are ordered -/

/-- Numbers are ordered as the integers they count as. -/
theorem order?_of_asInt? {m n : Int64} (hx : x.asInt? = some m) (hy : y.asInt? = some n) :
    x.order? y = some (compareOfLessAndEq m.toInt n.toInt) := by
  cases x <;> cases hx <;> cases y <;> cases hy <;> simp only [order?, asInt?]

/-- Two plain values that are ordered are numbers, strings or tuples. -/
theorem Plain.order_cases (hx : x.Plain) (hy : y.Plain) (h : x.order? y = some o) :
    (∃ m n, x.asInt? = some m ∧ y.asInt? = some n ∧ o = compareOfLessAndEq m.toInt n.toInt) ∨
    (∃ i s j t, x = .str i s ∧ y = .str j t ∧ o = compareOfLessAndEq s t) ∨
    (∃ i as j bs, x = .tuple i as ∧ y = .tuple j bs ∧ orderItems? as bs = some o) := by
  cases hx <;> cases hy <;> simp [order?, asInt?, asFloat?] at h ⊢ <;> simp [h]

/-! ### Equality of plain values -/

/-- Equal plain values are the same, but for the identities of strings and tuples. -/
theorem Plain.eq_cases (hx : x.Plain) (hy : y.Plain) (h : x.eq y = true) :
    x = y ∨ (∃ i j s, x = .str i s ∧ y = .str j s) ∨
      ∃ i as j bs, x = .tuple i as ∧ y = .tuple j bs ∧ eqList as bs = true := by
  cases hx <;> cases hy <;> simp [Value.eq] at h ⊢
  all_goals first | exact h | exact Or.inr h

/-- `x` may be replaced by what equals it, when it is compared with `z`. -/
def Replaceable (x : Value) : Prop :=
  ∀ y z : Value, y.Plain → z.Plain → x.eq y = true → x.eq z = y.eq z ∧ x.order? z = y.order? z

theorem items_congr (ha : ∀ a ∈ as, a.Replaceable) (hb : ∀ b ∈ bs, b.Plain)
    (hc : ∀ c ∈ cs, c.Plain) (h : eqList as bs = true) :
    eqList as cs = eqList bs cs ∧ orderItems? as cs = orderItems? bs cs := by
  induction as generalizing bs cs with
  | nil =>
    cases bs with
    | nil => exact ⟨rfl, rfl⟩
    | cons b bs => cases h
  | cons a as ih =>
    cases bs with
    | nil => cases h
    | cons b bs =>
      cases cs with
      | nil => exact ⟨rfl, rfl⟩
      | cons c cs =>
        simp only [List.forall_mem_cons] at ha hb hc
        simp only [eqList, Bool.and_eq_true] at h
        obtain ⟨heq, hord⟩ := ha.1 b c hb.1 hc.1 h.1
        obtain ⟨heqs, hords⟩ := ih ha.2 hb.2 hc.2 h.2
        simp only [eqList, orderItems?, heq, hord, heqs, hords, and_self]

/-- A plain value may be replaced by what equals it. -/
theorem Plain.replaceable (hx : x.Plain) : x.Replaceable := by
  intro y z hy hz h
  induction hx generalizing y z with
  | tuple i ha ih =>
    rcases (Plain.tuple i ha).eq_cases hy h with rfl | ⟨_, _, _, hs, _⟩ | ⟨_, _, j, bs, hs, rfl, he⟩
    · exact ⟨rfl, rfl⟩
    · cases hs
    · cases hs
      cases hy with
      | tuple j hb =>
        cases hz with
        | tuple k hc =>
          simp only [Value.eq, order?]
          exact items_congr (fun a hm y z => ih a hm y z) hb hc he
        | _ => exact ⟨rfl, rfl⟩
  | str i s =>
    rcases (Plain.str i s).eq_cases hy h with rfl | ⟨_, j, _, hs, rfl⟩ | ⟨_, _, _, _, hs, _⟩
    · exact ⟨rfl, rfl⟩
    · cases hs
      cases hz <;> exact ⟨rfl, rfl⟩
    · cases hs
  | _ =>
    rcases Plain.eq_cases (by constructor) hy h with rfl | ⟨_, _, _, hs, _⟩ | ⟨_, _, _, _, hs, _⟩
    · exact ⟨rfl, rfl⟩
    · cases hs
    · cases hs

/-- A list equals itself if its items do. -/
theorem eqList_refl (h : ∀ a ∈ as, a.eq a = true) : eqList as as = true := by
  induction as with
  | nil => rfl
  | cons a as ih =>
    simp only [List.forall_mem_cons] at h
    rw [eqList, h.1, ih h.2, Bool.and_self]

theorem Plain.eq_refl (hx : x.Plain) : x.eq x = true := by
  induction hx with
  | tuple i _ ih => exact eqList_refl ih
  | none => rfl
  | _ => exact beq_self_eq_true _

theorem eqList_comm (h : ∀ a ∈ as, ∀ b, b.Plain → a.eq b = b.eq a) (hb : ∀ b ∈ bs, b.Plain) :
    eqList as bs = eqList bs as := by
  induction as generalizing bs with
  | nil => cases bs <;> rfl
  | cons a as ih =>
    cases bs with
    | nil => rfl
    | cons b bs =>
      simp only [List.forall_mem_cons] at h hb
      simp only [eqList, h.1 b hb.1, ih h.2 hb.2]

theorem Plain.eq_comm (hx : x.Plain) (hy : y.Plain) : x.eq y = y.eq x := by
  induction hx generalizing y with
  | tuple i ha ih =>
    cases hy with
    | tuple j hb =>
      simp only [Value.eq]
      exact eqList_comm (fun a hm y => ih a hm) hb
    | _ => rfl
  | _ => cases hy <;> simp [Value.eq, Bool.beq_comm]

/-! ### Order -/

theorem orderItems?_swap
    (h : ∀ a ∈ as, ∀ b, ∀ o, b.Plain → a.order? b = some o → b.order? a = some o.swap)
    (ha : ∀ a ∈ as, a.Plain) (hb : ∀ b ∈ bs, b.Plain)
    (ho : orderItems? as bs = some o) : orderItems? bs as = some o.swap := by
  induction as generalizing bs with
  | nil => cases bs <;> cases ho <;> rfl
  | cons a as ih =>
    cases bs with
    | nil => cases ho; rfl
    | cons b bs =>
      simp only [List.forall_mem_cons] at h ha hb
      simp only [orderItems?] at ho ⊢
      rw [← ha.1.eq_comm hb.1]
      split at ho
      · rw [if_pos ‹_›]
        exact ih h.2 ha.2 hb.2 ho
      · rw [if_neg ‹_›]
        exact h.1 b o hb.1 ho

/-- The order of two values the other way round. -/
theorem Plain.order?_swap (hx : x.Plain) (hy : y.Plain) (h : x.order? y = some o) :
    y.order? x = some o.swap := by
  induction hx generalizing y o with
  | tuple i ha ih =>
    rcases (Plain.tuple i ha).order_cases hy h with ⟨_, _, hm, -⟩ | ⟨_, _, _, _, hs, -⟩ |
      ⟨_, as, j, bs, hs, rfl, ho⟩
    · cases hm
    · cases hs
    · cases hs
      cases hy with
      | tuple j hb => exact orderItems?_swap (fun a hm b o => ih a hm) ha hb ho
  | _ =>
    rcases Plain.order_cases (by constructor) hy h with ⟨m, n, hm, hn, rfl⟩ |
      ⟨i, s, j, t, hs, rfl, rfl⟩ | ⟨_, _, _, _, hs, -⟩
    · rw [order?_of_asInt? hn hm,
        ← compareOfLessAndEq_eq_swap Int.le_antisymm Int.le_total Int.not_le]
    · cases hs <;> rw [order?, ← compareOfLessAndEq_eq_swap le_antisymm le_total not_le]
    · cases hs

/-- Numbers are equal or conflated if they are the same as integers. -/
theorem eq_or_conflated_of_asInt? {m n : Int64} (hx : x.asInt? = some m) (hy : y.asInt? = some n) :
    (x.eq y = true ∨ x.conflated y = true) ↔ m = n := by
  cases x <;> cases hx <;> cases y <;> cases hy <;> simp only [Value.eq, conflated, beq_iff_eq]
  case bool.refl.bool.refl b c => cases b <;> cases c <;> decide
  case bool.refl.int.refl => grind
  case int.refl.bool.refl => grind
  case int.refl.int.refl => grind

theorem orderItems?_eq
    (h : ∀ a ∈ as, ∀ b, ∀ o, b.Plain → a.order? b = some o →
      (o = .eq ↔ a.eq b = true ∨ a.conflated b = true))
    (hb : ∀ b ∈ bs, b.Plain)
    (ho : orderItems? as bs = some o) :
    o = .eq ↔ eqList as bs = true ∨ conflatedItems as bs = true := by
  induction as generalizing bs with
  | nil => cases bs <;> cases ho <;> simp [eqList, conflatedItems]
  | cons a as ih =>
    cases bs with
    | nil => cases ho; simp [eqList, conflatedItems]
    | cons b bs =>
      simp only [List.forall_mem_cons] at h hb
      simp only [orderItems?] at ho
      simp only [eqList, conflatedItems]
      by_cases he : a.eq b = true
      · simp only [he, if_true, Bool.true_and] at ho ⊢
        exact ih h.2 hb.2 ho
      · simp only [if_neg he] at ho ⊢
        rw [h.1 b o hb.1 ho]
        simp [he]

/-- Two values that are ordered come out equal exactly if they are equal or conflated. -/
theorem Plain.order?_eq (hx : x.Plain) (hy : y.Plain) (h : x.order? y = some o) :
    o = .eq ↔ x.eq y = true ∨ x.conflated y = true := by
  induction hx generalizing y o with
  | tuple i ha ih =>
    rcases (Plain.tuple i ha).order_cases hy h with ⟨_, _, hm, -⟩ | ⟨_, _, _, _, hs, -⟩ |
      ⟨_, as, j, bs, hs, rfl, ho⟩
    · cases hm
    · cases hs
    · cases hs
      cases hy with
      | tuple j hb =>
        simp only [Value.eq, conflated]
        exact orderItems?_eq (fun a hm b o => ih a hm) hb ho
  | _ =>
    rcases Plain.order_cases (by constructor) hy h with ⟨m, n, hm, hn, rfl⟩ |
      ⟨i, s, j, t, hs, rfl, rfl⟩ | ⟨_, _, _, _, hs, -⟩
    · rw [eq_or_conflated_of_asInt? hm hn, compareOfLessAndEq_eq_eq Int.le_refl Int.not_le,
        Int64.toInt_inj]
    · cases hs <;> simp [compareOfLessAndEq_eq_eq le_refl not_le, Value.eq, conflated]
    · cases hs

theorem conflatedItems_spec
    (h : ∀ a ∈ as, ∀ b, b.Plain → a.conflated b = true → a.eq b = false ∧ a.order? b = some .eq)
    (hb : ∀ b ∈ bs, b.Plain)
    (hc : conflatedItems as bs = true) :
    eqList as bs = false ∧ orderItems? as bs = some .eq := by
  induction as generalizing bs with
  | nil => cases hc
  | cons a as ih =>
    cases bs with
    | nil => cases hc
    | cons b bs =>
      simp only [List.forall_mem_cons] at h hb
      simp only [conflatedItems] at hc
      simp only [eqList, orderItems?]
      by_cases he : a.eq b = true
      · simp only [he, if_true, Bool.true_and] at hc ⊢
        exact ih h.2 hb.2 hc
      · simp only [if_neg he] at hc ⊢
        obtain ⟨hne, ho⟩ := h.1 b hb.1 hc
        exact ⟨by rw [hne, Bool.false_and], ho⟩

/-- Conflated values differ, and come out equal in order. -/
theorem Plain.conflated_spec (hx : x.Plain) (hy : y.Plain) (h : x.conflated y = true) :
    x.eq y = false ∧ x.order? y = some .eq := by
  induction hx generalizing y with
  | tuple i ha ih =>
    cases hy with
    | tuple j hb =>
      simp only [Value.eq, conflated, order?] at h ⊢
      exact conflatedItems_spec (fun a hm b => ih a hm) hb h
    | _ => cases h
  | _ =>
    cases hy <;> simp [conflated] at h
    all_goals subst h; cases ‹Bool› <;> exact ⟨rfl, rfl⟩

/-- Replacing the second of two values by what equals it. -/
theorem Plain.congr_right (hx : x.Plain) (hy : y.Plain) (hz : z.Plain) (h : y.eq z = true) :
    x.eq y = x.eq z ∧ (x.order? y = some o → x.order? z = some o) := by
  obtain ⟨heq, hord⟩ := hy.replaceable z x hz hx h
  refine ⟨by rw [hx.eq_comm hy, heq, hz.eq_comm hx], fun ho => ?_⟩
  have hswap := hx.order?_swap hy ho
  rw [hord] at hswap
  rw [hz.order?_swap hx hswap, Ordering.swap_swap]

/-- A value that lies between equal ones, and equals neither, is conflated with both. -/
theorem Plain.conflated_of_between (hx : x.Plain) (hy : y.Plain) (hz : z.Plain)
    (ho : x.order? y = some o) (hle : o.isLE = true) (ho' : y.order? z = some o')
    (hle' : o'.isLE = true) (hxz : x.eq z = true) (hxy : ¬ x.eq y = true)
    (hyz : ¬ y.eq z = true) : x.conflated y = true ∧ y.conflated z = true := by
  -- `z` behaves like `x`, so that the second step is the first one backwards
  have hback : y.order? z = some o.swap := by
    have hzy := (hx.replaceable z y hz hy hxz).2
    exact hz.order?_swap hy (hzy ▸ ho)
  rw [hback] at ho'
  cases ho'
  have heq : o = .eq := by cases o <;> simp_all
  subst heq
  exact ⟨((hx.order?_eq hy ho).1 rfl).resolve_left hxy,
    ((hy.order?_eq hz hback).1 rfl).resolve_left hyz⟩

/-- From what is at most `y` to what `y` is at most the order goes on, unless `y` is conflated with
both. -/
def Between (y : Value) : Prop :=
  ∀ x z : Value, ∀ o o', x.Plain → z.Plain → x.order? y = some o → o.isLE = true →
    y.order? z = some o' → o'.isLE = true →
    (∃ o'', x.order? z = some o'' ∧ o''.isLE = true) ∨ x.conflated y = true ∧ y.conflated z = true

theorem orderItems?_trans (h : ∀ b ∈ bs, b.Between) (ha : ∀ a ∈ as, a.Plain)
    (hb : ∀ b ∈ bs, b.Plain) (hc : ∀ c ∈ cs, c.Plain) (ho : orderItems? as bs = some o)
    (hle : o.isLE = true) (ho' : orderItems? bs cs = some o') (hle' : o'.isLE = true) :
    (∃ o'', orderItems? as cs = some o'' ∧ o''.isLE = true) ∨
      conflatedItems as bs = true ∧ conflatedItems bs cs = true := by
  induction bs generalizing as cs with
  | nil =>
    cases as with
    | nil => exact .inl ⟨o', ho', hle'⟩
    | cons a as => cases ho; cases hle
  | cons b bs ih =>
    cases as with
    | nil =>
      cases cs with
      | nil => cases ho'; cases hle'
      | cons c cs => exact .inl ⟨.lt, rfl, rfl⟩
    | cons a as =>
      cases cs with
      | nil => cases ho'; cases hle'
      | cons c cs =>
        simp only [List.forall_mem_cons] at h ha hb hc
        simp only [orderItems?, conflatedItems] at ho ho' ⊢
        by_cases hab : a.eq b = true
        · -- `a` behaves like `b`, and the items behind them decide
          obtain ⟨heq, hord⟩ := ha.1.replaceable b c hb.1 hc.1 hab
          simp only [if_pos hab, heq, hord] at ho ⊢
          by_cases hbc : b.eq c = true
          · simp only [if_pos hbc] at ho' ⊢
            exact ih h.2 ha.2 hb.2 hc.2 ho ho'
          · simp only [if_neg hbc] at ho' ⊢
            exact .inl ⟨o', ho', hle'⟩
        · simp only [if_neg hab] at ho ⊢
          by_cases hbc : b.eq c = true
          · -- `c` behaves like `b`, so that `a` and `c` are the first that differ
            obtain ⟨heq, hord⟩ := ha.1.congr_right hb.1 hc.1 hbc
            rw [← heq, if_neg hab]
            exact .inl ⟨o, hord ho, hle⟩
          · simp only [if_neg hbc] at ho' ⊢
            rcases h.1 a c o o' ha.1 hc.1 ho hle ho' hle' with ⟨o'', hac, hle''⟩ | hconf
            · by_cases hac' : a.eq c = true
              · -- `b` is neither smaller nor larger than `a` and differs from it
                exact .inr (ha.1.conflated_of_between hb.1 hc.1 ho hle ho' hle' hac' hab hbc)
              · rw [if_neg hac']
                exact .inl ⟨o'', hac, hle''⟩
            · exact .inr hconf

/-- Any plain value can be left out between two others in this way. -/
theorem Plain.between (hy : y.Plain) : y.Between := by
  induction hy with
  -- each kind is only ordered with values of its own kind
  | tuple j hb ih =>
    intro x z o o' hx hz ho hle ho' hle'
    rcases hx.order_cases (.tuple j hb) ho with ⟨_, _, -, hn, -⟩ | ⟨_, _, _, _, -, hs, -⟩ |
      ⟨i, as, _, bs, rfl, hs, hoab⟩
    · cases hn
    · cases hs
    cases hs
    rcases (Plain.tuple j hb).order_cases hz ho' with ⟨_, _, hm, -⟩ | ⟨_, _, _, _, hs, -⟩ |
      ⟨_, bs, k, cs, hs, rfl, hobc⟩
    · cases hm
    · cases hs
    cases hs
    cases hx with
    | tuple i ha =>
      cases hz with
      | tuple k hc =>
        simp only [order?, conflated]
        exact orderItems?_trans ih ha hb hc hoab hle hobc hle'
  | str j t =>
    intro x z o o' hx hz ho hle ho' hle'
    rcases hx.order_cases (.str j t) ho with ⟨_, _, -, hn, -⟩ | ⟨i, s, _, _, rfl, hs, rfl⟩ |
      ⟨_, _, _, _, -, hs, -⟩
    · cases hn
    · cases hs
      rcases (Plain.str j t).order_cases hz ho' with ⟨_, _, hm, -⟩ | ⟨_, _, k, u, hs, rfl, rfl⟩ |
        ⟨_, _, _, _, hs, -⟩
      · cases hm
      · cases hs
        rw [isLE_compareOfLessAndEq le_antisymm not_le le_total] at hle hle'
        refine .inl ⟨compareOfLessAndEq s u, by rw [order?], ?_⟩
        rw [isLE_compareOfLessAndEq le_antisymm not_le le_total]
        exact hle.trans hle'
      · cases hs
    · cases hs
  -- what stands for an integer is ordered as the integer
  | none | bool | int =>
    intro x z o o' hx hz ho hle ho' hle'
    rcases hx.order_cases (by constructor) ho with ⟨m, n, hm, hn, rfl⟩ | ⟨_, _, _, _, -, hs, -⟩ |
      ⟨_, _, _, _, -, hs, -⟩
    · rcases Plain.order_cases (by constructor) hz ho' with ⟨n', p, hn', hp, rfl⟩ |
        ⟨_, _, _, _, hs, -⟩ | ⟨_, _, _, _, hs, -⟩
      · rw [Option.some.inj (hn'.symm.trans hn)] at hle'
        rw [isLE_compareOfLessAndEq Int.le_antisymm Int.not_le Int.le_total] at hle hle'
        refine .inl ⟨_, order?_of_asInt? hm hp, ?_⟩
        rw [isLE_compareOfLessAndEq Int.le_antisymm Int.not_le Int.le_total]
        exact hle.trans hle'
      · cases hs
      · cases hs
    · cases hs
    · cases hs

/-! ### The operators -/

/-- The operator answers `True`. -/
def Holds (op : Comparison) (x y : Value) : Prop := compare op x y = .ok true

instance (op : Comparison) (x y : Value) : Decidable (Holds op x y) :=
  inferInstanceAs (Decidable (_ = _))

/-- The operator gives an answer. -/
def Answers (op : Comparison) (x y : Value) : Prop := ∃ b, compare op x y = .ok b

theorem map_ordered_eq_ok_iff {op : Comparison} {f : Ordering → Bool} {b : Bool} :
    (ordered op x y).map f = .ok b ↔ ∃ o, x.order? y = some o ∧ f o = b := by
  unfold ordered
  cases x.order? y <;> simp [Except.map]

theorem holds_eq_iff : Holds .eq x y ↔ x.eq y = true := by
  simp [Holds, compare]

theorem holds_lt_iff : Holds .lt x y ↔ x.order? y = some .lt := by
  simp [Holds, compare, map_ordered_eq_ok_iff]

theorem holds_gt_iff : Holds .gt x y ↔ x.order? y = some .gt := by
  simp [Holds, compare, map_ordered_eq_ok_iff]

theorem holds_le_iff : Holds .le x y ↔ ∃ o, x.order? y = some o ∧ o.isLE = true := by
  simp only [Holds, compare, map_ordered_eq_ok_iff]
  refine exists_congr fun o => and_congr_right fun _ => ?_
  cases o <;> decide

theorem holds_ge_iff : Holds .ge x y ↔ ∃ o, x.order? y = some o ∧ o.isGE = true := by
  simp only [Holds, compare, map_ordered_eq_ok_iff]
  refine exists_congr fun o => and_congr_right fun _ => ?_
  cases o <;> decide

theorem order?_of_answers (h : Answers .lt x y) : ∃ o, x.order? y = some o := by
  obtain ⟨b, hb⟩ := h
  obtain ⟨o, ho, -⟩ := map_ordered_eq_ok_iff.1 hb
  exact ⟨o, ho⟩

/-- Exactly one of three statements holds. -/
def ExactlyOne (p q r : Prop) : Prop := p ∧ ¬q ∧ ¬r ∨ ¬p ∧ q ∧ ¬r ∨ ¬p ∧ ¬q ∧ r

/-- **Order and equality of plain values.**  Of two values that are ordered, exactly one is the
smaller or both are equal, unless they are conflated: then none of this holds, and each is at most
and at least the other.  "At most" goes on from one value to the next, unless both steps are
between conflated values. -/
theorem Plain.compare_spec (hx : x.Plain) (hy : y.Plain) (hz : z.Plain) :
    Holds .eq x x ∧
    (Answers .lt x y →
      (x.conflated y = false → ExactlyOne (Holds .lt x y) (Holds .eq x y) (Holds .lt y x)) ∧
      (x.conflated y = true → ¬Holds .lt x y ∧ ¬Holds .eq x y ∧ ¬Holds .lt y x) ∧
      (Holds .gt x y ↔ Holds .lt y x) ∧
      (Holds .le x y ↔ Holds .lt x y ∨ Holds .eq x y ∨ x.conflated y = true) ∧
      (Holds .ge x y ↔ Holds .gt x y ∨ Holds .eq x y ∨ x.conflated y = true)) ∧
    (Holds .le x y → Holds .le y z →
      Holds .le x z ∨ x.conflated y = true ∧ y.conflated z = true) := by
  refine ⟨holds_eq_iff.2 hx.eq_refl, fun ha => ?_, fun hxy hyz => ?_⟩
  · obtain ⟨o, ho⟩ := order?_of_answers ha
    have hswap := hx.order?_swap hy ho
    have heq := hx.order?_eq hy ho
    have hconf : x.conflated y = true → x.eq y = false := fun h => (hx.conflated_spec hy h).1
    simp only [holds_lt_iff, holds_gt_iff, holds_le_iff, holds_ge_iff, holds_eq_iff, ho, hswap,
      Option.some.injEq, exists_eq_left', ExactlyOne]
    cases hc : x.conflated y <;> cases o <;> simp_all
  · obtain ⟨o, ho, hle⟩ := holds_le_iff.1 hxy
    obtain ⟨o', ho', hle'⟩ := holds_le_iff.1 hyz
    rw [holds_le_iff]
    exact hy.between x z o o' hx hz ho hle ho' hle'

/-- The pair of `True` and an integer. -/
def truePair (i : Int64) : Value := tuple 0 [bool true, int i]

/-- The pair of `1` and an integer. -/
def onePair (i : Int64) : Value := tuple 1 [int 1, int i]

/-- Neither of `(True, 5)` and `(1, 3)` is smaller, and they are not equal.  So `(True, 5)` is at
most `(1, 3)`, which is at most `(True, 4)`, although this is smaller than `(True, 5)`. -/
theorem truePair_onePair_compared :
    (¬Holds .lt (truePair 5) (onePair 3) ∧ ¬Holds .eq (truePair 5) (onePair 3) ∧
      ¬Holds .lt (onePair 3) (truePair 5)) ∧
    Holds .le (truePair 5) (onePair 3) ∧ Holds .le (onePair 3) (truePair 4) ∧
      ¬Holds .le (truePair 5) (truePair 4) ∧
    ExactlyOne (Holds .lt (truePair 5) (truePair 4)) (Holds .eq (truePair 5) (truePair 4))
      (Holds .lt (truePair 4) (truePair 5)) := by
  have htrue : ∀ i, (truePair i).Plain := fun i => .tuple 0 (by simp [Plain.bool, Plain.int])
  have hone : ∀ i, (onePair i).Plain := fun i => .tuple 1 (by simp [Plain.int])
  obtain ⟨-, hmixed, -⟩ := Plain.compare_spec (htrue 5) (hone 3) (htrue 4)
  obtain ⟨-, hnone, -, hle, -⟩ := hmixed ⟨false, by decide⟩
  obtain ⟨-, halike, -⟩ := Plain.compare_spec (htrue 5) (htrue 4) (hone 3)
  obtain ⟨hexactly, -⟩ := halike ⟨false, by decide⟩
  exact ⟨hnone (by decide), hle.2 (.inr (.inr (by decide))), by decide, by decide,
    hexactly (by decide)⟩

end Value

end Resumable
