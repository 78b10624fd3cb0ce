import Resumable.Proofs.Machine.Life
import Resumable.Proofs.Machine.Restraint

/-!
# Leading the innermost frame on

Most operations of the machine only lead its innermost frame on: the frames below, the heap and the
budget stay as they are, and at most exceptions of the frame are reported (`Machine.Ongoing`).  The
others come down to that: delivering a result first puts a generator's frame back
(`Waiting.settled`), entering pushes a frame or delivers a failure (`Machine.enter_eq`), leaving
pops one and delivers its result (`Machine.leave_eq`), and dispatching follows a line, reports the
instruction and executes it (`Machine.dispatch_lined`, `Machine.perform_cases`).
-/

namespace Resumable

variable {σ : Type} (host : Host σ)

/-- The state of the host once it has observed the events. -/
def Host.told (h : Heap) (es : List Event) (s : σ) : σ := es.foldl (fun s e => host.observe h e s) s

/-- The heap once the frame that stopped is back in the generator it belongs to, if it belongs to
one. -/
def Waiting.settled (v : Waiting) (h : Heap) (f : Frame) (result : Except Failure FrameExit) :
    Heap :=
  match v with
  | .loop r _ => h.settle r f result
  | _ => h

/-- What every move keeps of the code of a frame. -/
theorem Frame.Turns.code {f g : Frame} (ht : f.Turns g) : g.code = f.code := by
  rcases ht with ha | ⟨g', ha, rfl⟩
  · exact ha.code
  · exact ha.code

/-! ### A frame that is led on -/

namespace Frame

variable (f : Frame)

/-- The frame has executed `YIELD_VALUE` last, and is not done. -/
structure AtYield : Prop where
  unfinished : f.finished = false
  last : ∃ o i, f.lastOffset = some o ∧
    Instruction.decode f.code.body.bytecode o = .ok i ∧ i.opcode = .yieldValue

/-- The frame is not done, unless it leaves; and if it leaves with a yielded value, then from where
it yields one. -/
def Paced : Standing → Prop
  | .leaving (.ok (.yielded _)) => f.AtYield
  | .leaving _ => True
  | _ => f.finished = false

/-- What becomes of a frame that is led on. -/
structure Led (p : Frame × Standing) : Prop where
  turns : f.Turns p.1
  paced : f.finished = false → p.1.Paced p.2

theorem led_failing (e : Failure) : f.Led (f.failing e) := ⟨turns_failing f e, fun _ => trivial⟩

theorem led_raising (e : Raised) (offset : Nat) : f.Led (f.raising e offset) := by
  refine ⟨turns_raising f e offset, fun hf => ?_⟩
  unfold raising
  dsimp only
  cases hu : f.unwind (.raising (e.through ⟨f.code.body.name, f.code.body.lineForOffset offset,
    offset⟩)) with
  | mk g u =>
    have hg : g.finished = false := by
      have hg := f.unwind_finished (.raising
        (e.through ⟨f.code.body.name, f.code.body.lineForOffset offset, offset⟩))
      rw [hu] at hg
      exact hg.trans hf
    cases u with
    | handled target => exact hg
    | faulted fault => trivial
    | unhandled => trivial

theorem led_resumed (v : Value) (site : Instruction) : f.Led (f.resumed v site) := by
  refine ⟨turns_resumed f v site, fun hf => ?_⟩
  unfold resumed
  cases f.stack.push v with
  | ok s => exact hf
  | error e => trivial

theorem led_exhausted (site : Instruction) : f.Led (f.exhausted site) := by
  refine ⟨turns_exhausted f site, fun hf => ?_⟩
  unfold exhausted
  cases f.stack.pop with
  | ok r => exact hf
  | error e => trivial

end Frame

/-! ### Operations that lead the innermost frame on -/

namespace Machine

/-- `m'` is `m` with its innermost frame led on by `P`, and the events `es` of it reported. -/
structure Leads (m m' : Machine σ) (P : Frame → Frame × Standing) (es : Frame → List Event) :
    Prop where
  heap : m'.heap = m.heap
  budget : m'.budget = m.budget
  state : ∀ f w rest, m.chain = ⟨f, w⟩ :: rest → m'.state = host.told m.heap (es f) m.state
  stands : ∀ f w rest, m.chain = ⟨f, w⟩ :: rest → m'.Stands rest w (P f)

/-- `m'` is `m` with its innermost frame led on, and exceptions of it reported. -/
structure Ongoing (m m' : Machine σ) : Prop where
  heap : m'.heap = m.heap
  budget : m'.budget = m.budget
  told : ∀ f w rest, m.chain = ⟨f, w⟩ :: rest → ∃ es, m'.state = host.told m.heap es m.state ∧
    ∀ e ∈ es, ∃ r, e = .exception f.name r
  led : ∀ f w rest, m.chain = ⟨f, w⟩ :: rest → ∃ p, m'.Stands rest w p ∧ f.Led p

variable {host} {m m' : Machine σ} {f : Frame} {w : Entry} {v : Waiting} {rest : List Activation}
  {P : Frame → Frame × Standing} {es : Frame → List Event}

theorem Leads.ongoing (h : m.Leads host m' P es) (hp : ∀ f : Frame, f.Led (P f))
    (he : ∀ f : Frame, ∀ e ∈ es f, ∃ r, e = .exception f.name r) : m.Ongoing host m' :=
  ⟨h.heap, h.budget, fun f w rest hc => ⟨es f, h.state f w rest hc, he f⟩,
    fun f w rest hc => ⟨P f, h.stands f w rest hc, hp f⟩⟩

/-- An operation that reports nothing. -/
theorem Leads.silent (h : m.Leads host m' P fun _ => []) (hp : ∀ f : Frame, f.Led (P f)) :
    m.Ongoing host m' :=
  h.ongoing hp fun _ _ he => absurd he List.not_mem_nil

/-! #### Failing and going on -/

theorem heap_fail (m : Machine σ) (e : Failure) : (m.fail e).heap = m.heap := by
  unfold fail
  split
  · rfl
  · exact heap_setFrame m _

theorem budget_setFrame (m : Machine σ) (f : Frame) : (m.setFrame f).budget = m.budget := by
  unfold setFrame
  split <;> rfl

theorem state_setFrame (m : Machine σ) (f : Frame) : (m.setFrame f).state = m.state := by
  unfold setFrame
  split <;> rfl

theorem budget_fail (m : Machine σ) (e : Failure) : (m.fail e).budget = m.budget := by
  unfold fail
  split
  · rfl
  · exact budget_setFrame m _

theorem state_fail (m : Machine σ) (e : Failure) : (m.fail e).state = m.state := by
  unfold fail
  split
  · rfl
  · exact state_setFrame m _

theorem leads_fail (m : Machine σ) (e : Failure) :
    m.Leads host (m.fail e) (·.failing e) fun _ => [] where
  heap := heap_fail m e
  budget := budget_fail m e
  state _ _ _ _ := state_fail m e
  stands _ _ _ hc := fail_stands hc e

theorem leads_goTo (m : Machine σ) (o : Nat) :
    m.Leads host (m.goTo o) (·, .before o) fun _ => [] :=
  ⟨rfl, rfl, fun _ _ _ _ => rfl, fun _ _ _ hc => ⟨hc, rfl⟩⟩

/-- A frame that does not find out where it goes on. -/
theorem leads_lost (m : Machine σ) (e : Failure) :
    m.Leads host { m with control := .leave (.error e) } (·, .leaving (.error e)) fun _ => [] :=
  ⟨rfl, rfl, fun _ _ _ _ => rfl, fun _ _ _ hc => ⟨hc, rfl⟩⟩

/-- A frame that returns is led to its end. -/
theorem leads_finish (m : Machine σ) (v : Value) (hc : m.chain = ⟨f, w⟩ :: rest) :
    m.Leads host { m.setFrame f.finish with control := .leave (.ok (.returned v)) }
      (fun f => (f.finish, .leaving (.ok (.returned v)))) fun _ => [] where
  heap := heap_setFrame m _
  budget := budget_setFrame m _
  state _ _ _ _ := state_setFrame m _
  stands g v rest' hg := by
    obtain ⟨ha, -⟩ := List.cons.inj (hc.symm.trans hg)
    cases ha
    exact ⟨setFrame_chain hg _, rfl⟩

theorem leads_raise (m : Machine σ) (e : Raised) (offset : Nat) :
    m.Leads host (m.raise host e offset) (·.raising e offset) fun f =>
      [.exception f.name (e.through ⟨f.name, f.code.body.lineForOffset offset, offset⟩)] := by
  have parts : (m.raise host e offset).heap = m.heap ∧
      (m.raise host e offset).budget = m.budget ∧ ∀ f w rest, m.chain = ⟨f, w⟩ :: rest →
        (m.raise host e offset).state = (m.report host (.exception f.name
          (e.through ⟨f.name, f.code.body.lineForOffset offset, offset⟩))).state := by
    unfold raise
    cases hc : m.chain with
    | nil => exact ⟨rfl, rfl, fun f w rest hn => by cases hn⟩
    | cons a rest =>
      let m₁ := m.report host (.exception a.frame.name
        (e.through ⟨a.frame.name, a.frame.code.body.lineForOffset offset, offset⟩))
      have same (m₂ : Machine σ) (hh : m₂.heap = m₁.heap) (hb : m₂.budget = m₁.budget)
          (hs : m₂.state = m₁.state) : m₂.heap = m.heap ∧ m₂.budget = m.budget ∧
          ∀ f w rest', a :: rest = ⟨f, w⟩ :: rest' → m₂.state = (m.report host (.exception f.name
            (e.through ⟨f.name, f.code.body.lineForOffset offset, offset⟩))).state := by
        refine ⟨hh, hb, fun f w rest' ha => ?_⟩
        cases ha
        exact hs
      dsimp only
      split
      · exact same _ (heap_setFrame m₁ _) (budget_setFrame m₁ _) (state_setFrame m₁ _)
      · exact same _ ((heap_fail _ _).trans (heap_setFrame m₁ _))
          ((budget_fail _ _).trans (budget_setFrame m₁ _))
          ((state_fail _ _).trans (state_setFrame m₁ _))
      · exact same _ ((heap_fail _ _).trans (heap_setFrame m₁ _))
          ((budget_fail _ _).trans (budget_setFrame m₁ _))
          ((state_fail _ _).trans (state_setFrame m₁ _))
  exact ⟨parts.1, parts.2.1, parts.2.2, fun f w rest hc => raise_stands host hc e offset⟩

theorem leads_resumeWith (m : Machine σ) (v : Value) (site : Instruction) :
    m.Leads host (m.resumeWith v site) (·.resumed v site) fun _ => [] := by
  suffices h : (m.resumeWith v site).heap = m.heap ∧ (m.resumeWith v site).budget = m.budget ∧
      (m.resumeWith v site).state = m.state from
    ⟨h.1, h.2.1, fun _ _ _ _ => h.2.2, fun _ _ _ hc => resumeWith_stands hc v site⟩
  unfold resumeWith
  split
  · exact ⟨rfl, rfl, rfl⟩
  · split
    · exact ⟨heap_setFrame m _, budget_setFrame m _, state_setFrame m _⟩
    · exact ⟨heap_fail m _, budget_fail m _, state_fail m _⟩

theorem leads_exhaust (m : Machine σ) (site : Instruction) :
    m.Leads host (m.exhaust site) (·.exhausted site) fun _ => [] := by
  suffices h : (m.exhaust site).heap = m.heap ∧ (m.exhaust site).budget = m.budget ∧
      (m.exhaust site).state = m.state from
    ⟨h.1, h.2.1, fun _ _ _ _ => h.2.2, fun _ _ _ hc => exhaust_stands hc site⟩
  unfold exhaust
  split
  · exact ⟨rfl, rfl, rfl⟩
  · split
    · exact ⟨heap_setFrame m _, budget_setFrame m _, state_setFrame m _⟩
    · exact ⟨heap_fail m _, budget_fail m _, state_fail m _⟩

/-! #### All of these lead on -/

theorem ongoing_fail (m : Machine σ) (e : Failure) : m.Ongoing host (m.fail e) :=
  (leads_fail m e).silent fun f => f.led_failing e

theorem ongoing_goTo (m : Machine σ) (o : Nat) : m.Ongoing host (m.goTo o) :=
  (leads_goTo m o).silent fun f => ⟨.refl f, id⟩

theorem ongoing_lost (m : Machine σ) (e : Failure) :
    m.Ongoing host { m with control := .leave (.error e) } :=
  (leads_lost m e).silent fun f => ⟨.refl f, fun _ => trivial⟩

theorem ongoing_finish (m : Machine σ) (v : Value) (hc : m.chain = ⟨f, w⟩ :: rest) :
    m.Ongoing host { m.setFrame f.finish with control := .leave (.ok (.returned v)) } :=
  (leads_finish m v hc).silent fun f => ⟨.inr ⟨f, .refl f, rfl⟩, fun _ => trivial⟩

theorem ongoing_raise (m : Machine σ) (e : Raised) (offset : Nat) :
    m.Ongoing host (m.raise host e offset) :=
  (leads_raise m e offset).ongoing (fun f => f.led_raising e offset) fun _ _ he =>
    ⟨_, List.mem_singleton.1 he⟩

theorem ongoing_failAt (m : Machine σ) (offset : Nat) (e : Failure) :
    m.Ongoing host (m.failAt host offset e) := by
  cases e with
  | raised e => exact ongoing_raise m e offset
  | fatal e => exact ongoing_fail m _
  | uncatchable e => exact ongoing_fail m _

theorem ongoing_resumeWith (m : Machine σ) (v : Value) (site : Instruction) :
    m.Ongoing host (m.resumeWith v site) :=
  (leads_resumeWith m v site).silent fun f => f.led_resumed v site

theorem ongoing_exhaust (m : Machine σ) (site : Instruction) :
    m.Ongoing host (m.exhaust site) :=
  (leads_exhaust m site).silent fun f => f.led_exhausted site

theorem ongoing_failLoop (m : Machine σ) (site : Instruction) (e : Failure) :
    m.Ongoing host (m.failLoop host site e) := by
  unfold failLoop
  split
  · exact ongoing_exhaust m site
  · exact ongoing_failAt m site.offset e

/-- Starting a frame finds out where it goes on, and raises what is to be raised there. -/
theorem ongoing_start (m : Machine σ) (raising : Option Raised) :
    m.Ongoing host (m.start host raising) := by
  unfold start
  split
  · -- on an empty chain there is nothing to lead on
    rename_i hn
    refine ⟨rfl, rfl, fun f w rest hc => ?_, fun f w rest hc => ?_⟩ <;>
      · rw [hn] at hc
        cases hc
  · split
    · exact ongoing_lost m _
    · split
      · exact ongoing_goTo m _
      · exact ongoing_raise m _ _

/-! ### Delivering, entering and leaving -/

/-- Whoever waits is led on, once the generator it waits for has its frame back. -/
theorem ongoing_deliver (m : Machine σ) (hv : v ≠ .outside) (g : Frame)
    (result : Except Failure FrameExit) :
    Ongoing host { m with heap := v.settled m.heap g result } (m.deliver host v g result) := by
  cases v with
  | outside => exact absurd rfl hv
  | call site =>
    match result with
    | .ok (.returned v) => exact ongoing_resumeWith m v site
    | .ok (.yielded _) =>
      exact ongoing_failAt m site.offset (.fatal (.invalidCode .yieldOutsideGenerator))
    | .error e => exact ongoing_failAt m site.offset e
  | loop r site =>
    match result with
    | .ok (.returned _) => exact ongoing_exhaust _ site
    | .ok (.yielded v) => exact ongoing_resumeWith _ v site
    | .error e => exact ongoing_failLoop _ site e

/-- The machine with the frame put on the chain, and that reported. -/
def pushed (host : Host σ) (m : Machine σ) (f : Frame) (stack : OperandStack)
    (raising : Option Raised) (w : Waiting) : Machine σ :=
  { m with
    chain :=
      ⟨{ f with stack, back := if m.depth = 0 then none else some (m.depth - 1) }, f.entry w⟩ ::
        m.chain
    state := host.told m.heap [.enter f.name (m.depth + 1), .call f.name (m.depth + 1)] m.state
    control := .start raising }

/-- A frame is put on the chain if there is room for it and for what it is resumed with; if not,
then a failure is delivered and nothing else happens. -/
theorem enter_eq (host : Host σ) (m : Machine σ) (f : Frame) (input : Option Value)
    (raising : Option Raised) (v : Waiting) :
    (∃ stack, m.budget.checkDepth m.depth = .ok () ∧ f.Admits input stack ∧
      m.enter host f input raising v = m.pushed host f stack raising v) ∨
    ∃ e, m.enter host f input raising v = m.deliver host v f (.error e) ∧
      ((∃ l : LimitError, m.budget.checkDepth m.depth = .error l ∧ e = l.toFailure) ∨
        ∃ x fault, input = some x ∧ f.stack.push x = .error fault ∧ e = .fatal fault) := by
  unfold enter
  cases m.budget.checkDepth m.depth with
  | error l => exact .inr ⟨l.toFailure, rfl, .inl ⟨l, rfl, rfl⟩⟩
  | ok _ =>
    cases input with
    | none => exact .inl ⟨f.stack, rfl, rfl, rfl⟩
    | some x =>
      dsimp only
      cases hp : f.stack.push x with
      | ok s => exact .inl ⟨s, rfl, hp, rfl⟩
      | error fault => exact .inr ⟨.fatal fault, rfl, .inr ⟨x, fault, rfl, hp, rfl⟩⟩

/-- The value that a frame reports when it stops. -/
def stopped (result : Except Failure FrameExit) : Option Value :=
  match result with
  | .ok exit => some exit.value
  | .error _ => none

/-- The machine with its innermost frame taken off the chain, and that reported. -/
def popped (host : Host σ) (m : Machine σ) (w : Entry) (rest : List Activation)
    (result : Except Failure FrameExit) : Machine σ :=
  { m with
    chain := rest
    state := host.told m.heap
      [.stop w.name (stopped result) m.depth, .leave w.name (rest.length + 1)] m.state }

/-- Leaving takes the frame off the chain and delivers its result. -/
theorem leave_eq (m : Machine σ) (hc : m.chain = ⟨f, w⟩ :: rest)
    (result : Except Failure FrameExit) :
    m.leave host result =
      (m.popped host w rest result).deliver host w.waiting (f.released result) result := by
  unfold leave
  rw [hc]
  rfl

/-! ### Following and executing -/

/-- Following an instruction leads the frame on, lets it leave with a yielded value, or enters a
frame: that of a call, or one taken out of a generator. -/
theorem follow_cases (host : Host σ) (m : Machine σ) (i : Instruction) (flow : Flow)
    (hc : m.chain = ⟨f, w⟩ :: rest) :
    m.Ongoing host (m.follow host i flow) ∨
      (∃ v, flow = .exit (.yielded v) ∧
        m.follow host i flow = { m with control := .leave (.ok (.yielded v)) }) ∨
      (∃ callee, flow = .invoke callee ∧
        m.follow host i flow = m.enter host callee none none (.call i)) ∨
      ∃ r g heap, flow = .advance r ∧ m.heap.takeFrame r false = .ok (g, heap) ∧
        m.follow host i flow = enter host { m with heap } g (g.input none) none (.loop r i) := by
  cases flow with
  | next => exact .inl (ongoing_goTo m i.next)
  | jump target => exact .inl (ongoing_goTo m target)
  | exit result =>
    cases result with
    | returned v =>
      unfold follow
      dsimp only
      rw [hc]
      exact .inl (ongoing_finish m v hc)
    | yielded v => exact .inr (.inl ⟨v, rfl, rfl⟩)
  | reraise e => exact .inl (ongoing_fail m _)
  | invoke callee => exact .inr (.inr (.inl ⟨callee, rfl, rfl⟩))
  | advance r =>
    unfold follow
    dsimp only
    cases ht : m.heap.takeFrame r false with
    | error e => exact .inl (ongoing_failLoop m i e)
    | ok t => exact .inr (.inr (.inr ⟨r, t.1, t.2, rfl, ht, rfl⟩))

/-- The machine with an instruction of its innermost frame reported. -/
def announced (host : Host σ) (m : Machine σ) (f : Frame) (i : Instruction) : Machine σ :=
  m.report host (.instruction i.offset i.opcode f.stack.depth m.depth)

/-- The machine with the frame and the heap that an instruction leaves. -/
def executed (m : Machine σ) (l : Local) : Machine σ := { m with heap := l.heap }.setFrame l.frame

theorem chain_executed (host : Host σ) {m : Machine σ} (hc : m.chain = ⟨f, w⟩ :: rest)
    (i : Instruction) (l : Local) :
    ((m.announced host f i).executed l).chain = ⟨l.frame, w⟩ :: rest :=
  setFrame_chain (m := { m.announced host f i with heap := l.heap }) hc l.frame

/-- An instruction that is executed is reported and followed. -/
theorem perform_of_ok (m : Machine σ) (w : Entry) {i : Instruction} {flow : Flow} {l : Local}
    (hx : (Exec.execute m.currentException i).run ⟨f, m.heap⟩ = .ok flow l) :
    m.perform host ⟨f, w⟩ i = ((m.announced host f i).executed l).follow host i flow := by
  have hr : (Exec.execute (m.announced host f i).currentException i).run
      ⟨f, (m.announced host f i).heap⟩ = .ok flow l := hx
  unfold announced at hr
  unfold perform
  dsimp only
  rw [hr]
  rfl

/-- An instruction that fails is reported, and its failure met in the frame. -/
theorem perform_of_error (m : Machine σ) (w : Entry) {i : Instruction} {e : Failure} {l : Local}
    (hx : (Exec.execute m.currentException i).run ⟨f, m.heap⟩ = .error e l) :
    m.perform host ⟨f, w⟩ i = ((m.announced host f i).executed l).failAt host i.offset e := by
  have hr : (Exec.execute (m.announced host f i).currentException i).run
      ⟨f, (m.announced host f i).heap⟩ = .error e l := hx
  unfold announced at hr
  unfold perform
  dsimp only
  rw [hr]
  rfl

/-- Executing an instruction reports it, and then fails or is followed. -/
theorem perform_cases (host : Host σ) (m : Machine σ) (f : Frame) (w : Entry) (i : Instruction) :
    (∃ e l, (Exec.execute m.currentException i).run ⟨f, m.heap⟩ = .error e l ∧
      ((m.announced host f i).executed l).Ongoing host (m.perform host ⟨f, w⟩ i)) ∨
    ∃ flow l, (Exec.execute m.currentException i).run ⟨f, m.heap⟩ = .ok flow l ∧
      m.perform host ⟨f, w⟩ i = ((m.announced host f i).executed l).follow host i flow := by
  cases hx : (Exec.execute m.currentException i).run ⟨f, m.heap⟩ with
  | ok flow l => exact .inr ⟨flow, l, rfl, perform_of_ok m w hx⟩
  | error e l =>
    refine .inl ⟨e, l, rfl, ?_⟩
    rw [perform_of_error m w hx]
    exact ongoing_failAt _ i.offset e

/-! ### Dispatching -/

/-- What following the line of a frame `f` about to execute the instruction at `o` makes of the
heap, the host and the frame, and the offset that it then executes. -/
inductive Lined (host : Host σ) (h : Heap) (s : σ) (f : Frame) (o : Nat) :
    Heap → σ → Frame → Nat → Prop
  | silent : Lined host h s f o h s (f.reported o) o
  | told (line : Nat) :
    Lined host h s f o h (host.observe h (.line f.name line) s) (f.reported o) o
  | hooked (hook line : Nat) {r : Frame × Heap × σ} (hf : f.trace.hook = some hook)
      (hr : host.onLine hook line (f.reported o) h (host.observe h (.line f.name line) s) = r) :
    Lined host h s f o r.2.1 r.2.2 r.1 (r.1.lastOffset.getD 0)

/-- Following a line changes nothing else. -/
theorem traceLine_lined (host : Host σ) (m : Machine σ) (a : Activation) (o : Nat) :
    ∃ heap state g o', Lined host m.heap m.state a.frame o heap state g o' ∧
      m.traceLine host a o = ({ m with heap, state }, g, o') := by
  obtain ⟨trace, hk, hr⟩ := a.frame.reported_spec o
  have hk : (a.frame.reported o).trace.hook = a.frame.trace.hook := by
    rw [hr]
    exact hk
  rw [traceLine_eq]
  dsimp only
  cases a.frame.lineAt? o with
  | none => exact ⟨_, _, _, _, .silent, rfl⟩
  | some line =>
    dsimp only
    cases hh : (a.frame.reported o).trace.hook with
    | none => exact ⟨_, _, _, _, .told line, rfl⟩
    | some hook =>
      rw [hk] at hh
      exact ⟨_, _, _, _, .hooked hook line hh rfl, rfl⟩

/-- Dispatching uses up the budget, follows the line, and then fails or executes the instruction at
the offset. -/
theorem dispatch_lined (host : Host σ) (m : Machine σ) (o : Nat) (hc : m.chain = ⟨f, w⟩ :: rest) :
    ∃ budget, budget = m.budget.dispatch.2 ∧
      ((∃ e, m.dispatch host o = fail { m with budget } e) ∨
        ∃ heap state g o', Lined host m.heap m.state f o heap state g o' ∧
          ((∃ e, m.dispatch host o =
              fail { m with heap, budget, state, chain := ⟨g, w⟩ :: rest } e) ∨
            ∃ i, Instruction.decode g.code.body.bytecode o' = .ok i ∧ m.dispatch host o =
              perform host { m with heap, budget, state, chain := ⟨g, w⟩ :: rest } ⟨g, w⟩ i)) := by
  obtain ⟨⟨heap, budget, state⟩, chain, control⟩ := m
  subst hc
  unfold dispatch
  dsimp only
  cases hb : budget.dispatch with
  | mk admitted budget' =>
    refine ⟨budget', rfl, ?_⟩
    cases admitted with
    | error e => exact .inl ⟨_, rfl⟩
    | ok u =>
      obtain ⟨heap', state', g, o', hl, ht⟩ := traceLine_lined host
        ⟨⟨heap, budget', state⟩, ⟨f, w⟩ :: rest, control⟩ ⟨f, w⟩ o
      refine .inr ⟨heap', state', g, o', hl, ?_⟩
      dsimp only
      rw [ht]
      dsimp only
      cases hd : Instruction.decode g.code.body.bytecode o' with
      | error e => exact .inl ⟨_, rfl⟩
      | ok i => exact .inr ⟨i, rfl, rfl⟩

end Machine

end Resumable
