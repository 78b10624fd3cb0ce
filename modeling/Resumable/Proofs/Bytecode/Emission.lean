import Resumable.Proofs.Bytecode.LineWriting

/-!
# Built code holds what was emitted

A `Directive` is a call on an assembler.  Those that emit an instruction, name the place where the
next one starts or say on which line it is leave an item with the assembler, and the others change
its tables alone (`Assembler.laid_assemble`).

Building lays the items out one after the other.  The bytes are read back as the instructions that
were emitted, each at the offset where those before it end (`Assembler.sweep_bytesFrom`), and a jump
names the offset at which its label was bound, whether it counts from the next instruction or from
the start (`Assembler.target?_of_resolve`).  `Assembler.emitted_of_build` is the main statement.
-/

namespace Resumable

/-- A call on an assembler.  An instruction is emitted with an argument exactly if its opcode has
one, and only jumps and block setups lead to a label. -/
inductive Directive where
  | setFlags (flags : Flags)
  | setArgCount (argCount : Nat)
  | constant (value : Const)
  | name (s : String)
  | slot (s : String)
  | cell (s : String)
  | free (s : String)
  | line (number : Nat)
  | bind (label : String)
  | emit (op : Opcode) (bare : op.hasArgument = false)
  | emitWith (op : Opcode) (arg : UInt16) (carries : op.hasArgument = true)
  | load (value : Const)
  | jump (op : Opcode) (label : String) (leads : op.addressing?.isSome = true)

namespace Directive

/-- Performs the call. -/
def perform : Directive → Assembly Unit
  | setFlags flags => Assembly.setFlags flags
  | setArgCount n => Assembly.setArgCount n
  | constant v => do let _ ← Assembly.constant v
  | name s => do let _ ← Assembly.name s
  | slot s => do let _ ← Assembly.slot s
  | cell s => do let _ ← Assembly.cell s
  | free s => do let _ ← Assembly.free s
  | line n => Assembly.line n
  | bind l => Assembly.bind l
  | emit op _ => Assembly.emit op
  | emitWith op arg _ => Assembly.emitWith op arg
  | load v => Assembly.load v
  | jump op l _ => Assembly.jump op l

/-- The opcode of the instruction that is emitted, if one is. -/
def opcode? : Directive → Option Opcode
  | emit op _ | emitWith op _ _ | jump op _ _ => some op
  | load _ => some .loadConst
  | _ => none

/-- The label that is bound, if one is. -/
def label? : Directive → Option String
  | bind l => some l
  | _ => none

/-- The constants that are added. -/
def pool : Directive → List Const
  | constant v | load v => [v]
  | _ => []

/-- The bytes of the instruction that is emitted. -/
def width (d : Directive) : Nat := (d.opcode?.map Opcode.width).getD 0

/-- What is left with an assembler that has `index` constants. -/
def laid (index : Nat) : Directive → List Item
  | line n => [.line n]
  | bind l => [.label l]
  | emit op _ => [.instruction op .absent]
  | emitWith op arg _ => [.instruction op (.literal arg)]
  | load _ => [.instruction .loadConst (.literal (UInt16.ofNat index))]
  | jump op l _ => [.instruction op (.label l)]
  | _ => []

/-- What several directives leave with the assembler. -/
def items (index : Nat) : List Directive → List Item
  | [] => []
  | d :: ds => d.laid index ++ items (index + d.pool.length) ds

end Directive

/-- Performs one directive after the other. -/
def Assembly.assemble (ds : List Directive) : Assembly Unit := ds.forM Directive.perform

/-- The offset of an instruction that is emitted after the directives: the widths of all those
before it. -/
def Assembly.offsetAfter (ds : List Directive) : Nat := (ds.map Directive.width).sum

/-- The opcodes of the instructions emitted, in order. -/
def Assembly.emitted (ds : List Directive) : List Opcode := ds.filterMap Directive.opcode?

namespace Directive

/-! ### Items of directives -/

theorem items_append (ds es : List Directive) (index : Nat) :
    items index (ds ++ es) = items index ds ++ items (index + (ds.flatMap pool).length) es := by
  induction ds generalizing index with
  | nil => rfl
  | cons d ds ih =>
    rw [List.cons_append, items, items, ih, List.flatMap_cons, List.length_append, Nat.add_assoc,
      List.append_assoc]

@[simp]
theorem opcodes_laid (d : Directive) (index : Nat) :
    (d.laid index).filterMap Item.opcode? = d.opcode?.toList := by
  cases d <;> rfl

@[simp]
theorem sizes_laid (d : Directive) (index : Nat) :
    ((d.laid index).map Item.size).sum = d.width := by
  cases d <;> rfl

/-- A directive that emits an instruction leaves it with the assembler. -/
theorem laid_of_opcode? (d : Directive) (index : Nat) {op : Opcode} (h : d.opcode? = some op) :
    ∃ operand, d.laid index = [.instruction op operand] := by
  cases d <;> cases h <;> exact ⟨_, rfl⟩

theorem opcodes_items (ds : List Directive) (index : Nat) :
    (items index ds).filterMap Item.opcode? = Assembly.emitted ds := by
  unfold Assembly.emitted
  induction ds generalizing index with
  | nil => rfl
  | cons d ds ih =>
    rw [items, List.filterMap_append, opcodes_laid, ih, List.filterMap_cons]
    cases d.opcode? <;> rfl

theorem sizes_items (ds : List Directive) (index : Nat) :
    ((items index ds).map Item.size).sum = Assembly.offsetAfter ds := by
  unfold Assembly.offsetAfter
  induction ds generalizing index with
  | nil => rfl
  | cons d ds ih => rw [items, List.map_append, List.sum_append, sizes_laid, ih, List.map_cons,
      List.sum_cons]

/-- A label is left exactly if one of the directives binds it. -/
theorem mem_items_label (index : Nat) {ds : List Directive} {l : String} :
    .label l ∈ items index ds ↔ bind l ∈ ds := by
  induction ds generalizing index with
  | nil => exact iff_of_false List.not_mem_nil List.not_mem_nil
  | cons d ds ih =>
    rw [items, List.mem_append, List.mem_cons, ih]
    refine or_congr_left ?_
    cases d <;> simp [laid]

/-- Jumps that are emitted have room for an argument. -/
theorem roomy_items (ds : List Directive) (index : Nat) : ∀ i ∈ items index ds, i.Roomy := by
  induction ds generalizing index with
  | nil => exact fun i hi => absurd hi List.not_mem_nil
  | cons d ds ih =>
    intro i hi
    rcases List.mem_append.1 hi with hi | hi
    · cases d with
      | jump op l leads =>
        obtain ⟨addressing, ha⟩ := Option.isSome_iff_exists.1 leads
        obtain rfl := List.mem_singleton.1 hi
        exact Opcode.hasArgument_of_addressing? ha
      | emit | emitWith | load | line | bind =>
        obtain rfl := List.mem_singleton.1 hi
        trivial
      | setFlags | setArgCount | constant | name | slot | cell | free => cases hi
    · exact ih _ i hi

end Directive

/-! ### What an assembler holds -/

namespace Assembler

/-- Nothing was emitted yet. -/
structure Fresh (a : Assembler) : Prop where
  bytecode : a.bytecode = #[]
  lineTable : a.lineTable = #[]
  writer : a.writer = { line := a.firstLine }
  labels : a.labels = []
  fixups : a.fixups = #[]

/-- The assembler `a'` holds what `a` does, and behind it the items. -/
structure Laid (a : Assembler) (items : List Item) (a' : Assembler) : Prop where
  firstLine : a'.firstLine = a.firstLine
  bytecode : a'.bytecode.toList = a.bytecode.toList ++ unpatched items
  lineTable : a'.lineTable.toList =
    a.lineTable.toList ++ (a.writer.write a.bytecode.size items).flatMap LineStep.bytes
  labels : a'.labels = (labelsFrom a.bytecode.size items).reverse ++ a.labels
  fixups : a'.fixups.toList = a.fixups.toList ++ fixupsFrom a.bytecode.size items

variable {a a₁ a' : Assembler} {items : List Item} {d : Directive} {ds : List Directive}

theorem Laid.refl (a : Assembler) : a.Laid [] a where
  firstLine := rfl
  bytecode := (List.append_nil _).symm
  lineTable := (List.append_nil _).symm
  labels := rfl
  fixups := (List.append_nil _).symm

/-- A label is bound before the items. -/
theorem Laid.label {l : String}
    (h : { a with labels := (l, a.bytecode.size) :: a.labels }.Laid items a') :
    a.Laid (.label l :: items) a' where
  firstLine := h.firstLine
  bytecode := h.bytecode
  lineTable := h.lineTable
  labels := by
    rw [h.labels, labelsFrom, List.reverse_cons, List.append_assoc]
    rfl
  fixups := h.fixups

/-- An instruction is emitted before the items; if it is a jump, then it is to be patched. -/
theorem Laid.instruction {op : Opcode} {operand : Operand} (fixups : Array (Nat × String))
    (hf : fixups.toList = a.fixups.toList ++ match operand with
      | .label l => [(a.bytecode.size, l)]
      | _ => [])
    (hr : (Assembly.instruction (encode op operand.given)).run { a with fixups } = some ((), a₁))
    (h : a₁.Laid items a') : a.Laid (.instruction op operand :: items) a' := by
  obtain ⟨htable, hwriter⟩ := a.writer.atInstruction_eq a.lineTable a.bytecode.size
  have hbytes : a₁.bytecode.toList = a.bytecode.toList ++ encode op operand.given := by
    cases hr
    exact Array.toList_appendList
  have hsize : a₁.bytecode.size = a.bytecode.size + op.width := by
    rw [← Array.length_toList, hbytes, List.length_append, length_encode, Array.length_toList]
  have hlines : a₁.lineTable.toList =
        a.lineTable.toList ++ (a.writer.stepsAt a.bytecode.size).flatMap LineStep.bytes ∧
      a₁.writer = (a.writer.atInstruction #[] a.bytecode.size).2 := by
    cases hr
    exact ⟨htable, hwriter⟩
  have hkept : a₁.firstLine = a.firstLine ∧ a₁.labels = a.labels ∧ a₁.fixups = fixups := by
    cases hr
    exact ⟨rfl, rfl, rfl⟩
  refine ⟨h.firstLine.trans hkept.1, ?_, ?_, ?_, ?_⟩
  · rw [h.bytecode, hbytes, List.append_assoc]
    rfl
  · rw [h.lineTable, hlines.1, hlines.2, hsize, LineWriter.write, List.flatMap_append,
      List.append_assoc]
  · rw [h.labels, hkept.2.1, hsize]
    rfl
  · rw [h.fixups, hkept.2.2, hf, hsize, List.append_assoc]
    cases operand <;> rfl

/-- Only the tables of an assembler have changed. -/
structure SameCode (a a' : Assembler) : Prop where
  firstLine : a'.firstLine = a.firstLine
  bytecode : a'.bytecode = a.bytecode
  lineTable : a'.lineTable = a.lineTable
  writer : a'.writer = a.writer
  labels : a'.labels = a.labels
  fixups : a'.fixups = a.fixups

theorem Laid.sameCode (hs : a.SameCode a₁) (h : a₁.Laid items a') : a.Laid items a' := by
  obtain ⟨hf, hb, ht, hw, hl, hx⟩ := hs
  refine ⟨h.firstLine.trans hf, ?_, ?_, ?_, ?_⟩
  · rw [h.bytecode, hb]
  · rw [h.lineTable, ht, hw, hb]
  · rw [h.labels, hl, hb]
  · rw [h.fixups, hx, hb]

end Assembler

namespace Assembly

variable {a a' : Assembler} {ds : List Directive} {items : List Item}

/-- The parts of a computation that does not give up. -/
theorem run_bind {α β : Type} {x : Assembly α} {f : α → Assembly β} {r : β}
    (h : (x >>= f).run a = some (r, a')) :
    ∃ b a₁, x.run a = some (b, a₁) ∧ (f b).run a₁ = some (r, a') := by
  rw [StateT.run_bind] at h
  obtain ⟨⟨b, a₁⟩, hx, hf⟩ := Option.bind_eq_some_iff.1 h
  exact ⟨b, a₁, hx, hf⟩

theorem run_index {n : Nat} {i : UInt16} (h : (index n).run a = some (i, a')) :
    n < 65536 ∧ i = UInt16.ofNat n ∧ a' = a := by
  unfold index at h
  split at h
  · cases h
    exact ⟨‹_›, rfl, rfl⟩
  · cases h

/-- A constant is added if it has an index. -/
theorem run_constant {v : Const} {i : UInt16} (h : (constant v).run a = some (i, a')) :
    a.consts.length < 65536 ∧ i = UInt16.ofNat a.consts.length ∧
      a' = { a with consts := a.consts ++ [v] } := by
  obtain ⟨_, _, hget, h⟩ := run_bind h
  cases hget
  obtain ⟨_, _, hi, h⟩ := run_bind h
  obtain ⟨hn, rfl, rfl⟩ := run_index hi
  cases h
  exact ⟨hn, rfl, rfl⟩

/-- The place of a name is found, or made in the table. -/
theorem run_place {table : Assembler → List String}
    {replace : Assembler → List String → Assembler} {s : String} {i : Nat}
    (h : (place table replace s).run a = some (i, a')) :
    a' = replace a (intern (table a) s).2 := by
  cases h
  rfl

theorem run_interned {table : Assembler → List String}
    {replace : Assembler → List String → Assembler} {s : String} {i : UInt16}
    (h : (do index (← place table replace s) : Assembly UInt16).run a = some (i, a')) :
    a' = replace a (intern (table a) s).2 := by
  obtain ⟨_, _, hplace, h⟩ := run_bind h
  obtain ⟨-, -, rfl⟩ := run_index h
  exact run_place hplace

theorem run_free {s : String} {i : UInt16} (h : (free s).run a = some (i, a')) :
    a' = { a with freevars := (intern a.freevars s).2 } := by
  obtain ⟨_, _, hplace, h⟩ := run_bind h
  obtain ⟨_, _, hget, h⟩ := run_bind h
  cases hget
  obtain ⟨-, -, rfl⟩ := run_index h
  exact run_place hplace

theorem consts_instruction {bytes : List UInt8}
    (h : (instruction bytes).run a = some ((), a')) : a'.consts = a.consts := by
  cases h
  rfl

/-- **What a directive leaves**: its items, and its constants. -/
theorem laid_perform {d : Directive} {a₁ : Assembler} (h : d.perform.run a = some ((), a₁)) :
    a₁.consts = a.consts ++ d.pool ∧
      ∀ {items a'}, a₁.Laid items a' → a.Laid (d.laid a.consts.length ++ items) a' := by
  cases d with
  | setFlags | setArgCount =>
    cases h
    exact ⟨(List.append_nil _).symm, Assembler.Laid.sameCode ⟨rfl, rfl, rfl, rfl, rfl, rfl⟩⟩
  | constant v =>
    obtain ⟨_, _, h, hpure⟩ := run_bind h
    cases hpure
    obtain ⟨-, -, rfl⟩ := run_constant h
    exact ⟨rfl, Assembler.Laid.sameCode ⟨rfl, rfl, rfl, rfl, rfl, rfl⟩⟩
  | name s | slot s | cell s =>
    obtain ⟨_, _, h, hpure⟩ := run_bind h
    cases hpure
    obtain rfl := run_interned h
    exact ⟨(List.append_nil _).symm, Assembler.Laid.sameCode ⟨rfl, rfl, rfl, rfl, rfl, rfl⟩⟩
  | free s =>
    obtain ⟨_, _, h, hpure⟩ := run_bind h
    cases hpure
    obtain rfl := run_free h
    exact ⟨(List.append_nil _).symm, Assembler.Laid.sameCode ⟨rfl, rfl, rfl, rfl, rfl, rfl⟩⟩
  | line n =>
    cases h
    exact ⟨(List.append_nil _).symm, fun h => ⟨h.firstLine, h.bytecode, h.lineTable, h.labels,
      h.fixups⟩⟩
  | bind l =>
    cases h
    exact ⟨(List.append_nil _).symm, Assembler.Laid.label⟩
  | emit op bare =>
    have hr : (instruction (Assembler.encode op 0)).run a = some ((), a₁) := by
      rw [Assembler.encode, bare]
      exact h
    exact ⟨(consts_instruction hr).trans (List.append_nil _).symm,
      .instruction a.fixups (List.append_nil _).symm hr⟩
  | emitWith op arg carries =>
    have hr : (instruction (Assembler.encode op arg)).run a = some ((), a₁) := by
      rw [Assembler.encode, carries]
      exact h
    exact ⟨(consts_instruction hr).trans (List.append_nil _).symm,
      .instruction a.fixups (List.append_nil _).symm hr⟩
  | load v =>
    obtain ⟨_, _, hc, h⟩ := run_bind h
    obtain ⟨-, rfl, rfl⟩ := run_constant hc
    refine ⟨consts_instruction h, fun {items a'} hl => ?_⟩
    have hinstr : { a with consts := a.consts ++ [v] }.Laid (.instruction .loadConst
        (.literal (UInt16.ofNat a.consts.length)) :: items) a' :=
      .instruction a.fixups (List.append_nil _).symm h hl
    refine .sameCode ?_ hinstr
    exact ⟨rfl, rfl, rfl, rfl, rfl, rfl⟩
  | jump op l leads =>
    -- the fixup is recorded first, at the offset where the jump is then emitted
    obtain ⟨_, _, hf, h⟩ := run_bind h
    cases hf
    obtain ⟨addressing, hadr⟩ := Option.isSome_iff_exists.1 leads
    have hr : (instruction (Assembler.encode op 0)).run
        { a with fixups := a.fixups.push (a.bytecode.size, l) } = some ((), a₁) := by
      rw [Assembler.encode, Opcode.hasArgument_of_addressing? hadr]
      exact h
    exact ⟨(consts_instruction hr).trans (List.append_nil _).symm,
      .instruction _ Array.toList_push hr⟩

theorem run_assemble_cons {d : Directive} (h : (assemble (d :: ds)).run a = some ((), a')) :
    ∃ a₁, d.perform.run a = some ((), a₁) ∧ (assemble ds).run a₁ = some ((), a') := by
  obtain ⟨_, a₁, hd, hds⟩ := run_bind h
  exact ⟨a₁, hd, hds⟩

theorem run_assemble_append {es : List Directive}
    (h : (assemble (ds ++ es)).run a = some ((), a')) :
    ∃ a₁, (assemble ds).run a = some ((), a₁) ∧ (assemble es).run a₁ = some ((), a') := by
  induction ds generalizing a with
  | nil => exact ⟨a, rfl, h⟩
  | cons d ds ih =>
    obtain ⟨a₂, hd, hds⟩ := run_assemble_cons h
    obtain ⟨a₁, hds, hes⟩ := ih hds
    refine ⟨a₁, ?_, hes⟩
    have hrun : (assemble (d :: ds)).run a =
        (d.perform.run a).bind fun p => (assemble ds).run p.2 := rfl
    rw [hrun, hd]
    exact hds

/-- **What directives leave**: their items, and their constants. -/
theorem laid_assemble (h : (assemble ds).run a = some ((), a')) :
    a'.consts = a.consts ++ ds.flatMap Directive.pool ∧
      a.Laid (Directive.items a.consts.length ds) a' := by
  induction ds generalizing a with
  | nil =>
    cases h
    exact ⟨(List.append_nil _).symm, .refl _⟩
  | cons d ds ih =>
    obtain ⟨a₁, hd, hds⟩ := run_assemble_cons h
    obtain ⟨hc, hl⟩ := laid_perform hd
    obtain ⟨hcs, hls⟩ := ih hds
    refine ⟨?_, ?_⟩
    · rw [hcs, hc, List.flatMap_cons, List.append_assoc]
    · rw [hc, List.length_append] at hls
      exact hl hls

end Assembly

/-! ### Reading what is laid out -/

namespace Assembler

variable {labels : List (String × Nat)} {o : Nat} {items : List Item} {bytes : List UInt8}

/-- The sweep reads an encoded instruction and goes on behind it. -/
theorem sweepFrom_encode (o : Nat) (op : Opcode) (arg : UInt16) (rest : List UInt8) :
    Instruction.sweepFrom o (encode op arg ++ rest) =
      (⟨o, op, if op.hasArgument then arg else 0⟩ ::
        (Instruction.sweepFrom (o + op.width) rest).1,
        (Instruction.sweepFrom (o + op.width) rest).2) := by
  have hd := decodeHead_encode o op arg rest
  have hl := length_encode op arg
  have hb : encode op arg = op.byte :: (encode op arg).tail := rfl
  rw [hb, List.length_cons] at hl
  rw [hb, List.cons_append] at hd ⊢
  have hrest : ((encode op arg).tail ++ rest).drop (op.width - 1) = rest := by
    rw [← hl, Nat.add_sub_cancel, List.drop_left]
  rw [Instruction.sweepFrom, hd]
  dsimp only
  rw [hrest]
  rfl

/-- **The bytes of items are read back** as the instructions among them, each where those before it
end, with the argument it was resolved to. -/
theorem sweep_bytesFrom (h : bytesFrom labels o items = .ok bytes) :
    ∃ is, Instruction.sweepFrom o bytes = (is, none) ∧
      is.map Instruction.opcode = items.filterMap Item.opcode? ∧
      ∀ before op operand after, items = before ++ .instruction op operand :: after →
        ∃ i arg, is[(before.filterMap Item.opcode?).length]? = some i ∧
          i = ⟨o + (before.map Item.size).sum, op, if op.hasArgument then arg else 0⟩ ∧
          resolve labels i.offset op operand = .ok arg := by
  induction items generalizing o bytes with
  | nil =>
    cases h
    refine ⟨[], by rw [Instruction.sweepFrom], rfl, fun before op operand after he => ?_⟩
    exact absurd he.symm (List.append_ne_nil_of_right_ne_nil _ (List.cons_ne_nil _ _))
  | cons item items ih =>
    -- what takes up no bytes only comes before the other items
    have silent (hn : item.opcode? = none) (hz : item.size = 0)
        (h : bytesFrom labels o items = .ok bytes) :
        ∃ is, Instruction.sweepFrom o bytes = (is, none) ∧
          is.map Instruction.opcode = (item :: items).filterMap Item.opcode? ∧
          ∀ before op operand after, item :: items = before ++ .instruction op operand :: after →
            ∃ i arg, is[(before.filterMap Item.opcode?).length]? = some i ∧
              i = ⟨o + (before.map Item.size).sum, op, if op.hasArgument then arg else 0⟩ ∧
              resolve labels i.offset op operand = .ok arg := by
      obtain ⟨is, hs, hops, hsplit⟩ := ih h
      refine ⟨is, hs, by rw [hops, List.filterMap_cons_none hn],
        fun before op operand after he => ?_⟩
      cases before with
      | nil =>
        cases he
        cases hn
      | cons _ before =>
        cases he
        rw [List.filterMap_cons_none hn, List.map_cons, List.sum_cons, hz, Nat.zero_add]
        exact hsplit before op operand after rfl
    cases item with
    | line n => exact silent rfl rfl h
    | label l => exact silent rfl rfl h
    | instruction op operand =>
      rw [bytesFrom] at h
      cases hr : resolve labels o op operand with
      | error e =>
        rw [hr] at h
        cases h
      | ok arg =>
        cases hl : bytesFrom labels (o + op.width) items with
        | error e =>
          rw [hr, hl] at h
          cases h
        | ok later =>
          rw [hr, hl] at h
          cases h
          obtain ⟨is, hs, hops, hsplit⟩ := ih hl
          refine ⟨⟨o, op, if op.hasArgument then arg else 0⟩ :: is, ?_, ?_, ?_⟩
          · rw [sweepFrom_encode, hs]
          · rw [List.map_cons, hops]
            rfl
          · intro before op' operand' after he
            cases before with
            | nil =>
              cases he
              exact ⟨_, arg, rfl, rfl, hr⟩
            | cons _ before =>
              cases he
              obtain ⟨i, arg', hi, hio, hir⟩ := hsplit before op' operand' after rfl
              refine ⟨i, arg', hi, hio.trans ?_, hir⟩
              rw [List.map_cons, List.sum_cons, ← Nat.add_assoc]
              rfl

/-! ### Labels -/

/-- A label that is looked up is bound somewhere. -/
theorem mem_of_lookup {l : String} {t : Nat} (h : (labelsFrom o items).reverse.lookup l = some t) :
    .label l ∈ items := by
  induction items generalizing o t with
  | nil => cases h
  | cons item items ih =>
    cases item with
    | line n => exact List.mem_cons_of_mem _ (ih h)
    | instruction op operand => exact List.mem_cons_of_mem _ (ih h)
    | label l' =>
      rw [labelsFrom, List.reverse_cons, List.lookup_append] at h
      cases hl : (labelsFrom o items).reverse.lookup l with
      | some t' => exact List.mem_cons_of_mem _ (ih hl)
      | none =>
        rw [hl, Option.none_or, List.lookup_cons] at h
        split at h
        · rename_i he
          rw [beq_iff_eq.1 he]
          exact List.mem_cons_self
        · cases h

/-- The offsets of labels behind others. -/
theorem labelsFrom_append (o : Nat) (items later : List Item) :
    labelsFrom o (items ++ later) =
      labelsFrom o items ++ labelsFrom (o + (items.map Item.size).sum) later := by
  induction items generalizing o with
  | nil => rfl
  | cons item items ih =>
    rw [List.map_cons, List.sum_cons, ← Nat.add_assoc]
    cases item with
    | label l => exact congrArg ((l, o) :: ·) (ih o)
    | line n => exact ih o
    | instruction op operand => exact ih (o + op.width)

/-- A label that is not bound later is found where it is bound. -/
theorem lookup_labelsFrom {before after : List Item} {l : String} (o : Nat)
    (hl : .label l ∉ after) :
    (labelsFrom o (before ++ .label l :: after)).reverse.lookup l =
      some (o + (before.map Item.size).sum) := by
  have hnone : (labelsFrom (o + (before.map Item.size).sum) after).reverse.lookup l = none := by
    cases h : (labelsFrom (o + (before.map Item.size).sum) after).reverse.lookup l with
    | none => rfl
    | some t => exact absurd (mem_of_lookup h) hl
  rw [labelsFrom_append, labelsFrom, List.reverse_append, List.reverse_cons, List.append_assoc,
    List.lookup_append, hnone, Option.none_or]
  exact List.lookup_cons_self

/-- A jump that could be resolved names the offset of its label. -/
theorem target?_of_resolve {op : Opcode} {l : String} {arg : UInt16} {i : Instruction}
    (hop : op.addressing?.isSome = true) (ho : i.opcode = op) (ha : i.arg = arg)
    (h : resolve labels i.offset op (.label l) = .ok arg) :
    i.target? = labels.lookup l ∧ (labels.lookup l).isSome = true := by
  -- an argument is what was asked for, since it fits two bytes
  have narrow {n : Nat} (h : (if n < 65536 then .ok (UInt16.ofNat n)
      else .error (.invalidCode .farJump) : Except Fault UInt16) = .ok arg) :
      i.arg.toNat = n := by
    split at h
    · cases h
      rw [ha, UInt16.toNat_ofNat']
      omega
    · cases h
  unfold resolve at h
  dsimp only at h
  cases hl : labels.lookup l with
  | none =>
    rw [hl] at h
    cases h
  | some target =>
    rw [hl] at h
    refine ⟨?_, rfl⟩
    unfold Instruction.target? Instruction.next
    rw [ho]
    cases hadr : op.addressing? with
    | none =>
      rw [hadr] at hop
      cases hop
    | some addressing =>
      rw [hadr] at h
      cases addressing with
      | relative =>
        dsimp only at h
        split at h
        · cases h
        · -- the jump adds its own end to the argument again
          have hn := narrow h
          simp only [Option.map_some, Option.some.injEq]
          omega
      | absolute =>
        have hn := narrow h
        simp only [Option.map_some, hn]

end Assembler

/-! ### Built code -/

/-- The argument of an instruction `i` of code `c`, as the directive asked for it that emitted the
instruction.  It was performed behind the directives `before`, among the directives `ds` on an
assembler that had `index` constants. -/
def Directive.Argues (index : Nat) (ds before : List Directive) (c : Code) (i : Instruction) :
    Directive → Prop
  | emit _ _ => i.arg = 0
  | emitWith _ arg _ => i.arg = arg
  | load v =>
    let added := index + (before.flatMap pool).length
    i.arg.toNat = added ∧ c.consts[added]? = some v
  | jump _ l _ => bind l ∈ ds ∧
      ∀ pre post, ds = pre ++ bind l :: post → i.target? = some (Assembly.offsetAfter pre)
  | _ => False

namespace Assembler

variable {a a' : Assembler} {c : Code} {ds : List Directive} {items : List Item}

/-- The bytes of built code are those of the instructions, patched. -/
theorem patched?_of_build (h : a.build = .ok c) : a.patched? = .ok c.bytecode := by
  unfold build at h
  cases hb : a.patched? with
  | error e =>
    rw [hb] at h
    cases h
  | ok bytecode =>
    rw [hb] at h
    dsimp only [bind, Except.bind] at h
    split at h
    · cases h
    · split at h <;> cases h
      rfl

/-- The bytes of built code are those of its items, with their labels where they are bound. -/
theorem Laid.bytesFrom_of_build (ha : a.Fresh) (hl : a.Laid items a')
    (hr : ∀ i ∈ items, i.Roomy) (hb : a'.build = .ok c) :
    bytesFrom (labelsFrom 0 items).reverse 0 items = .ok c.bytecode := by
  have hsize : a.bytecode.size = 0 := by
    rw [ha.bytecode]
    rfl
  have hbytes : a'.bytecode.toList = [] ++ unpatched items := by
    rw [hl.bytecode, ha.bytecode]
  have hlabels : a'.labels = (labelsFrom 0 items).reverse := by
    rw [hl.labels, ha.labels, List.append_nil, hsize]
  have hfixups : a'.fixups.toList = fixupsFrom 0 items := by
    rw [hl.fixups, ha.fixups, hsize]
    rfl
  have hpatched := patched?_of_build hb
  rw [patched?, hfixups, hlabels] at hpatched
  have hlaid := (foldlM_fixUp hr [] _ hbytes).symm.trans hpatched
  cases h : bytesFrom (labelsFrom 0 items).reverse 0 items with
  | error e =>
    rw [List.length_nil, h] at hlaid
    cases hlaid
  | ok bytes =>
    rw [List.length_nil, h] at hlaid
    exact hlaid

/-- A constant that is loaded was given an index, so there was room for it. -/
theorem lt_of_run_load {before after : List Directive} {v : Const}
    (h : (Assembly.assemble (before ++ .load v :: after)).run a = some ((), a')) :
    a.consts.length + (before.flatMap Directive.pool).length < 65536 := by
  obtain ⟨a₁, hbefore, hload⟩ := Assembly.run_assemble_append h
  obtain ⟨_, hload, -⟩ := Assembly.run_assemble_cons hload
  obtain ⟨_, _, hconstant, -⟩ := Assembly.run_bind hload
  have hroom := (Assembly.run_constant hconstant).1
  rw [(Assembly.laid_assemble hbefore).1, List.length_append] at hroom
  exact hroom

/-- A label that is bound once is found where it is bound. -/
theorem lookup_of_bind {pre post : List Directive} {l : String} (index : Nat)
    (hl : ((pre ++ .bind l :: post).filterMap Directive.label?).Nodup) :
    (labelsFrom 0 (Directive.items index (pre ++ .bind l :: post))).reverse.lookup l =
      some (Assembly.offsetAfter pre) := by
  rw [Directive.items_append, Directive.items]
  refine (lookup_labelsFrom 0 fun hm => ?_).trans ?_
  · have hlabels : (Directive.bind l :: post).filterMap Directive.label? =
      l :: post.filterMap Directive.label? := rfl
    rw [List.filterMap_append, hlabels] at hl
    have hmem : .bind l ∈ post := (Directive.mem_items_label _).1 hm
    exact (List.nodup_cons.1 (List.nodup_append.1 hl).2.1).1
      (List.mem_filterMap.2 ⟨_, hmem, rfl⟩)
  · rw [Nat.zero_add, Directive.sizes_items]

/-- **Built code is decoded as it was emitted.**  Whatever directives were performed, in whatever
order labels are bound and used, the code is read to its end as the instructions emitted, in order;
each starts where those before it end, every jump leads to where its label was bound, and every
other argument is the one asked for. -/
theorem emitted_of_build (ha : a.Fresh) (hl : (ds.filterMap Directive.label?).Nodup)
    (hr : (Assembly.assemble ds).run a = some ((), a')) (hb : a'.build = .ok c) :
    Instruction.sweep c.bytecode = (c.instructions, none) ∧
      c.instructions.map Instruction.opcode = Assembly.emitted ds ∧
      ∀ before d after op, ds = before ++ d :: after → d.opcode? = some op →
        ∃ i, c.instructions[(Assembly.emitted before).length]? = some i ∧ i.opcode = op ∧
          i.offset = Assembly.offsetAfter before ∧
          d.Argues a.consts.length ds before c i := by
  obtain ⟨hconsts, hlaid⟩ := Assembly.laid_assemble hr
  have hbytes := hlaid.bytesFrom_of_build ha (Directive.roomy_items _ _) hb
  obtain ⟨is, hs, hops, hsplit⟩ := sweep_bytesFrom hbytes
  have his : c.instructions = is := congrArg Prod.fst hs
  rw [his]
  refine ⟨hs, hops.trans (Directive.opcodes_items _ _), fun before d after op he hd => ?_⟩
  -- the listing of items is cut where the one of the directive stands
  have hcut := congrArg (Directive.items a.consts.length) he
  rw [Directive.items_append, Directive.items] at hcut
  obtain ⟨operand, hop⟩ :=
    d.laid_of_opcode? (a.consts.length + (before.flatMap Directive.pool).length) hd
  rw [hop] at hcut
  obtain ⟨i, arg, hi, hio, harg⟩ := hsplit _ _ _ _ hcut
  rw [Directive.opcodes_items] at hi
  rw [Directive.sizes_items, Nat.zero_add] at hio
  refine ⟨i, hi, by rw [hio], by rw [hio], ?_⟩
  have hiop : i.opcode = op := by rw [hio]
  have hiarg : i.arg = if op.hasArgument then arg else 0 := by rw [hio]
  cases d with
  | emit op bare =>
    cases hd
    exact hiarg.trans (by rw [bare]; rfl)
  | emitWith op arg carries =>
    cases hd
    cases hop
    cases harg
    exact hiarg.trans (by rw [carries]; rfl)
  | load v =>
    cases hd
    cases hop
    cases harg
    refine ⟨?_, ?_⟩
    · rw [hiarg.trans (if_pos rfl), UInt16.toNat_ofNat']
      exact Nat.mod_eq_of_lt (lt_of_run_load (he ▸ hr))
    · rw [(build_inv hb).2.2, hconsts, he, List.flatMap_append, List.flatMap_cons,
        List.getElem?_append_right (by omega), Nat.add_sub_cancel_left,
        List.getElem?_append_right (Nat.le_refl _), Nat.sub_self]
      rfl
  | jump op l leads =>
    cases hd
    cases hop
    obtain ⟨addressing, hadr⟩ := Option.isSome_iff_exists.1 leads
    rw [Opcode.hasArgument_of_addressing? hadr, if_pos rfl] at hiarg
    -- the label is bound, or else the code would not have been built
    obtain ⟨htarget, hbound⟩ := target?_of_resolve leads hiop hiarg harg
    obtain ⟨t, ht⟩ := Option.isSome_iff_exists.1 hbound
    refine ⟨(Directive.mem_items_label a.consts.length).1 (mem_of_lookup ht),
      fun pre post hpre => ?_⟩
    rw [htarget, hpre]
    exact lookup_of_bind _ (hpre ▸ hl)
  | setFlags | setArgCount | constant | name | slot | cell | free | line | bind => cases hd

end Assembler

/-! ### A loop around a jump -/

/-- The value on top of the stack is returned. -/
def Directive.returning : Directive := .emit .returnValue rfl

/-- Nothing is done. -/
def Directive.idle : Directive := .emit .nop rfl

/-- A loop over a constant, left with a jump forward and closed with a jump back. -/
def waitingLoop : List Directive :=
  [.bind "again",
    .load .none,
    .jump .jumpIfFalse "end" rfl,
    .emit .popTop rfl,
    .jump .jumpAbsolute "again" rfl,
    .bind "end",
    .returning]

/-- An assembler that was given nothing yet. -/
def waitingAssembler : Assembler where
  name := "waiting"
  firstLine := 1

theorem waitingAssembler_fresh : waitingAssembler.Fresh := ⟨rfl, rfl, rfl, rfl, rfl⟩

/-- What the loop leaves, with two jumps to be patched. -/
def waitingAssembled : Assembler :=
  { waitingAssembler with
    bytecode := #[Opcode.loadConst.byte, 0, 0, Opcode.jumpIfFalse.byte, 0, 0, Opcode.popTop.byte,
      Opcode.jumpAbsolute.byte, 0, 0, Opcode.returnValue.byte]
    consts := [.none]
    labels := [("end", 10), ("again", 0)]
    fixups := #[(3, "end"), (7, "again")] }

/-- The code that is built. -/
def waitingCode : Code where
  name := "waiting"
  bytecode := [Opcode.loadConst.byte, 0, 0, Opcode.jumpIfFalse.byte, 4, 0, Opcode.popTop.byte,
    Opcode.jumpAbsolute.byte, 0, 0, Opcode.returnValue.byte]
  consts := [.none]
  maxStack := 1
  flags := .function
  firstLine := 1

theorem waitingLoop_run :
    (Assembly.assemble waitingLoop).run waitingAssembler = some ((), waitingAssembled) := rfl

theorem waitingAssembled_build : waitingAssembled.build = .ok waitingCode := by
  refine Assembler.build_eq_ok rfl rfl rfl ?_
  change waitingCode.validate = .ok ()
  cbv

/-- The jump forward leads to the last instruction, and the jump back to the first one. -/
theorem waitingCode_emitted :
    waitingCode.instructions.map Instruction.opcode =
        [.loadConst, .jumpIfFalse, .popTop, .jumpAbsolute, .returnValue] ∧
      (∃ i, waitingCode.instructions[1]? = some i ∧ i.offset = 3 ∧ i.target? = some 10) ∧
      ∃ i, waitingCode.instructions[3]? = some i ∧ i.offset = 7 ∧ i.target? = some 0 := by
  obtain ⟨-, hops, hat⟩ := Assembler.emitted_of_build waitingAssembler_fresh (by decide)
    waitingLoop_run waitingAssembled_build
  obtain ⟨i, hi, -, hio, -, ht⟩ := hat (waitingLoop.take 2) (.jump .jumpIfFalse "end" rfl)
    (waitingLoop.drop 3) .jumpIfFalse rfl rfl
  obtain ⟨j, hj, -, hjo, -, hu⟩ := hat (waitingLoop.take 4) (.jump .jumpAbsolute "again" rfl)
    (waitingLoop.drop 5) .jumpAbsolute rfl rfl
  exact ⟨hops, ⟨i, hi, hio, ht (waitingLoop.take 5) _ rfl⟩, ⟨j, hj, hjo, hu [] _ rfl⟩⟩

end Resumable
