import Resumable.Proofs.Machine.Standing

/-!
# What a step tells of lines

A machine tells its host of lines by reporting them and by calling the hooks of frames.  The host
`Host.noting` keeps a note of all it is told and otherwise acts as the host it is made from; the
notes of one step that are of lines are `Machine.toldOfLines`.

Only following a line leaves such a note.  So a step in which nothing is decoded tells of no line
(`Machine.toldOfLines_of_not_decodes`), and one in which an instruction of a frame is decoded tells
what the frame has to tell at that offset (`Machine.toldOfLines_of_decodes`): nothing, or a line,
and then its hook is called if it has one.
-/

namespace Resumable

/-- Something a host is told: an event, or by being called with a hook, a line and a frame. -/
inductive Notice where
  | event (e : Event)
  | called (hook line : Nat) (f : Frame)

/-- The notice is of a line. -/
def Notice.ofLine : Notice → Bool
  | .event (.line _ _) | .called _ _ _ => true
  | .event _ => false

/-- The host that acts as `host` and keeps a note of all it is told. -/
def Host.noting {σ : Type} (host : Host σ) : Host (σ × List Notice) where
  observe h e s := (host.observe h e s.1, s.2 ++ [.event e])
  onLine hook line f h s :=
    let r := host.onLine hook line f h s.1
    (r.1, r.2.1, r.2.2, s.2 ++ [.called hook line f])

/-- What is told of a line that begins in the frame: the line is reported, and then the hook of the
frame is called with it, if there is one. -/
def Frame.tells (f : Frame) (line : Nat) : List Notice :=
  .event (.line f.name line) :: f.trace.hook.toList.map (.called · line f)

/-- What the frame has to tell of lines when it is about to execute the instruction at an offset. -/
def Frame.tellsAt (f : Frame) (o : Nat) : List Notice :=
  match f.lineAt? o with
  | none => []
  | some line => (f.reported o).tells line

namespace Machine

variable {σ : Type}

/-- The machine with no notes taken yet. -/
def noting (m : Machine σ) : Machine (σ × List Notice) where
  heap := m.heap
  budget := m.budget
  state := (m.state, [])
  chain := m.chain
  control := m.control

/-- The notes of lines. -/
def linesTold (m : Machine (σ × List Notice)) : List Notice := m.state.2.filter Notice.ofLine

/-- What the next step tells of lines. -/
def toldOfLines (host : Host σ) (m : Machine σ) : List Notice :=
  (m.noting.step host.noting).linesTold

/-! ### What leaves no note of a line -/

section

variable (host : Host σ) (m : Machine (σ × List Notice))

theorem linesTold_report (e : Event) : (m.report host.noting e).linesTold =
    m.linesTold ++ [Notice.event e].filter Notice.ofLine :=
  List.filter_append _ _

theorem linesTold_setFrame (f : Frame) : (m.setFrame f).linesTold = m.linesTold := by
  unfold setFrame
  split <;> rfl

theorem linesTold_fail (e : Failure) : (m.fail e).linesTold = m.linesTold := by
  unfold fail
  split
  · rfl
  · exact linesTold_setFrame m _

theorem linesTold_raise (e : Raised) (o : Nat) :
    (m.raise host.noting e o).linesTold = m.linesTold := by
  have told (a : Activation) (e : Raised) :
      (m.report host.noting (.exception a.frame.code.body.name e)).linesTold = m.linesTold :=
    (linesTold_report host m _).trans (List.append_nil _)
  unfold raise
  split
  · rfl
  · dsimp only
    split
    · exact (linesTold_setFrame _ _).trans (told _ _)
    · exact (linesTold_fail _ _).trans ((linesTold_setFrame _ _).trans (told _ _))
    · exact (linesTold_fail _ _).trans ((linesTold_setFrame _ _).trans (told _ _))

theorem linesTold_failAt (o : Nat) (e : Failure) :
    (m.failAt host.noting o e).linesTold = m.linesTold := by
  cases e with
  | raised e => exact linesTold_raise host m e o
  | fatal e => exact linesTold_fail m _
  | uncatchable e => exact linesTold_fail m _

theorem linesTold_resumeWith (v : Value) (site : Instruction) :
    (m.resumeWith v site).linesTold = m.linesTold := by
  unfold resumeWith
  split
  · rfl
  · split
    · exact linesTold_setFrame m _
    · exact linesTold_fail m _

theorem linesTold_exhaust (site : Instruction) :
    (m.exhaust site).linesTold = m.linesTold := by
  unfold exhaust
  split
  · rfl
  · split
    · exact linesTold_setFrame m _
    · exact linesTold_fail m _

theorem linesTold_failLoop (site : Instruction) (e : Failure) :
    (m.failLoop host.noting site e).linesTold = m.linesTold := by
  unfold failLoop
  split
  · exact linesTold_exhaust m site
  · exact linesTold_failAt host m site.offset e

theorem linesTold_deliver (v : Waiting) (f : Frame) (result : Except Failure FrameExit) :
    (m.deliver host.noting v f result).linesTold = m.linesTold := by
  cases v with
  | outside => rfl
  | call site =>
    match result with
    | .ok (.returned v) => exact linesTold_resumeWith m v site
    | .ok (.yielded _) => exact linesTold_failAt host m site.offset _
    | .error e => exact linesTold_failAt host m site.offset e
  | loop r site =>
    match result with
    | .ok (.returned _) => exact linesTold_exhaust _ site
    | .ok (.yielded v) => exact linesTold_resumeWith _ v site
    | .error e => exact linesTold_failLoop host _ site e

theorem linesTold_enter (f : Frame) (input : Option Value) (raising : Option Raised)
    (v : Waiting) : (m.enter host.noting f input raising v).linesTold = m.linesTold := by
  unfold enter
  dsimp only
  split
  · exact linesTold_deliver host m v f _
  · rw [linesTold_report, linesTold_report]
    exact (List.append_nil _).trans (List.append_nil _)

theorem linesTold_start (raising : Option Raised) :
    (m.start host.noting raising).linesTold = m.linesTold := by
  unfold start
  split
  · rfl
  · split
    · rfl
    · cases raising with
      | none => rfl
      | some e => exact linesTold_raise host m e _

theorem linesTold_leave (result : Except Failure FrameExit) :
    (m.leave host.noting result).linesTold = m.linesTold := by
  unfold leave
  split
  · rfl
  · dsimp only
    rw [linesTold_deliver, linesTold_report]
    exact (List.append_nil _).trans ((linesTold_report host m _).trans (List.append_nil _))

theorem linesTold_follow (i : Instruction) (flow : Flow) :
    (m.follow host.noting i flow).linesTold = m.linesTold := by
  cases flow with
  | next => rfl
  | jump target => rfl
  | exit result =>
    cases result with
    | returned v =>
      unfold follow
      dsimp only
      split
      · rfl
      · exact linesTold_setFrame m _
    | yielded v => rfl
  | reraise e => exact linesTold_fail m _
  | invoke callee => exact linesTold_enter host m callee none none _
  | advance r =>
    unfold follow
    dsimp only
    split
    · exact linesTold_failLoop host m i _
    · exact linesTold_enter host _ _ _ none _

/-- Executing an instruction reports it, but tells of no line. -/
theorem linesTold_perform (a : Activation) (i : Instruction) :
    (m.perform host.noting a i).linesTold = m.linesTold := by
  have announced (l : Local) : (setFrame { m.report host.noting (.instruction i.offset i.opcode
      a.frame.stack.depth m.depth) with heap := l.heap } l.frame).linesTold = m.linesTold :=
    (linesTold_setFrame _ _).trans ((linesTold_report host m _).trans (List.append_nil _))
  unfold perform
  dsimp only
  split
  · exact (linesTold_follow host _ i _).trans (announced _)
  · exact (linesTold_failAt host _ _ _).trans (announced _)

/-! ### What following a line tells -/

/-- Following the line of an instruction tells what the frame has to tell there. -/
theorem linesTold_traceLine (a : Activation) (o : Nat) :
    (m.traceLine host.noting a o).1.linesTold = m.linesTold ++ a.frame.tellsAt o := by
  rw [traceLine_eq]
  unfold Frame.tellsAt
  dsimp only
  cases a.frame.lineAt? o with
  | none => exact (List.append_nil _).symm
  | some line =>
    have reported := linesTold_report host m (.line (a.frame.reported o).name line)
    unfold Frame.tells
    cases (a.frame.reported o).trace.hook with
    | none => exact reported
    | some hook =>
      -- the note of the call comes behind that of the line
      have called : ((m.report host.noting (.line (a.frame.reported o).name line)).state.2 ++
          [Notice.called hook line (a.frame.reported o)]).filter Notice.ofLine =
          m.linesTold ++ [.event (.line (a.frame.reported o).name line)] ++
            [.called hook line (a.frame.reported o)] :=
        (List.filter_append _ _).trans (congrArg (· ++ _) reported)
      exact called.trans (List.append_assoc _ _ _)

end

variable {host : Host σ} {m : Machine σ} {below : List Activation} {f : Frame} {w : Entry} {o : Nat}

/-- A step in which nothing is decoded tells of no line. -/
theorem toldOfLines_of_not_decodes (hd : m.decodes? host = none) : m.toldOfLines host = [] := by
  obtain ⟨⟨heap, budget, state⟩, chain, control⟩ := m
  unfold toldOfLines
  cases control with
  | start raising => exact linesTold_start host _ raising
  | leave result => exact linesTold_leave host _ result
  | halted f result => rfl
  | dispatch o =>
    cases chain with
    | nil => rfl
    | cons a rest =>
      unfold decodes? lined? at hd
      unfold step noting dispatch
      dsimp only at hd ⊢
      cases hb : budget.dispatch with
      | mk admitted budget' =>
        rw [hb] at hd
        cases admitted with
        | ok u => cases hd
        | error e => exact linesTold_fail _ _

/-- A step in which an instruction is decoded tells what the frame has to tell there. -/
theorem toldOfLines_of_decodes (h : m.Stands below w (f, .before o))
    (hd : (m.decodes? host).isSome) : m.toldOfLines host = f.tellsAt o := by
  obtain ⟨⟨heap, budget, state⟩, chain, control⟩ := m
  have hc := h.chain
  have hk := h.control
  subst hc
  cases hk
  unfold decodes? lined? at hd
  unfold toldOfLines step noting dispatch
  dsimp only at hd ⊢
  cases hb : budget.dispatch with
  | mk admitted budget' =>
    rw [hb] at hd
    cases admitted with
    | error e => cases hd
    | ok u =>
      dsimp only
      split
      · rw [linesTold_fail, linesTold_setFrame, linesTold_traceLine]
        rfl
      · rw [linesTold_perform, linesTold_setFrame, linesTold_traceLine]
        rfl

end Machine

namespace Frame

variable {f : Frame} {o line : Nat}

theorem tellsAt_of_none (h : f.lineAt? o = none) : f.tellsAt o = [] := by
  unfold tellsAt
  rw [h]

theorem tellsAt_of_some (h : f.lineAt? o = some line) :
    f.tellsAt o = (f.reported o).tells line := by
  unfold tellsAt
  rw [h]

/-- A hook is called with the frame as it is once the line is known. -/
theorem eq_of_called_mem_tellsAt {hook : Nat} {k : Frame}
    (h : .called hook line k ∈ f.tellsAt o) : k = f.reported o := by
  unfold tellsAt at h
  split at h
  · cases h
  · rcases List.mem_cons.1 h with h | h
    · cases h
    · obtain ⟨hook, -, h⟩ := List.mem_map.1 h
      cases h
      rfl

end Frame

end Resumable
