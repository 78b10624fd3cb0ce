import Resumable.Proofs.Machine.Visits

/-!
# Line events after a hook has moved the frame

While its hook is called, a frame may be moved to the first instruction of another line.  That one
is then executed in place of the one visited, and nothing is told of its line (`Passage`).

What the frame keeps of lines is what it has kept of the visit, and no part of that is changed by
the move.  So whether a line is due at the next visit is decided by the offset that the frame was
moved *from* (`Frame.HasPassed.detour_events`), and not by the one it has executed.  In most cases
both say the same.  `CodeOf.Misled` lists the others: a move within the line, a target that is
executed twice in a row, and a way back behind the place moved from, report a line without reason,
and a way right back to the place moved from reports none.
-/

namespace Resumable

/-- A visit, and the offset of the instruction that was executed at it: the one visited, unless the
hook has moved the frame. -/
structure Passage extends Visit where
  executed : Nat

/-- A hook was called at the visit. -/
def Visit.CallsHook (v : Visit) : Prop := ∃ hook line f, .called hook line f ∈ v.told

/-- Something is told at a visit exactly if a line is due. -/
theorem Visit.Reports.told_iff {c : Code} {last : Option Nat} {v : Visit} (h : v.Reports c last) :
    v.told ≠ [] ↔ c.LineDue last v.offset := by
  refine ⟨fun hne => by_contra fun hdue => hne (h.quiet hdue), fun hdue => ?_⟩
  obtain ⟨f, -, -, -, ht⟩ := h.due hdue
  rw [ht]
  exact List.cons_ne_nil _ _

/-! ### Where the two rules differ -/

namespace CodeOf

variable {κ : Type} {c : CodeOf κ} {a t o : Nat}

/-- Where a frame is misled that has been moved from `a` to `t`, and then gets to `o`. -/
inductive Misled (c : CodeOf κ) (a t o : Nat) : Prop
  /-- A move within the line: going on before the place moved from looks like going back. -/
  | within (ht : c.Together a t) (ho : c.Together a o) (hlt : o < a)
  /-- The first instruction of another line, executed once more, looks like coming to that line. -/
  | onto (ht : ¬c.Together a t) (ho : o = t)
  /-- Coming into the middle of the line moved from, before that place, looks like going back. -/
  | behind (ht : ¬c.Together a t) (ho : c.Together a o) (hlt : o < a) (hb : ¬c.Begins o)
  /-- Coming right back to the beginning of the line moved from looks like going on in it. -/
  | back (ht : ¬c.Together a t) (ho : o = a) (hb : c.Begins o)

theorem together_comm : c.Together a o ↔ c.Together o a := by
  rw [together_iff, together_iff, eq_comm]

/-- After a move within the line, a frame is misled wherever it stays behind. -/
theorem misled_within (hat : c.Together a t) : c.Misled a t o ↔ c.Together a o ∧ o < a := by
  refine ⟨fun h => ?_, fun h => .within hat h.1 h.2⟩
  cases h with
  | within _ ho hlt => exact ⟨ho, hlt⟩
  | onto h => exact absurd hat h
  | behind h => exact absurd hat h
  | back h => exact absurd hat h

/-- After a move out of the line, a frame that comes back there is misled unless it comes to the
beginning of the line and that lies behind, or it comes into the middle of the line and that does
not. -/
theorem misled_away (hat : ¬c.Together a t) (hao : c.Together a o) :
    c.Misled a t o ↔ (o < a ∧ ¬c.Begins o) ∨ (o = a ∧ c.Begins o) := by
  refine ⟨fun h => ?_, ?_⟩
  · cases h with
    | within h => exact absurd h hat
    | onto _ ho => exact absurd (ho ▸ hao) hat
    | behind _ _ hlt hb => exact .inl ⟨hlt, hb⟩
    | back _ ho hb => exact .inr ⟨ho, hb⟩
  · rintro (⟨hlt, hb⟩ | ⟨ho, hb⟩)
    · exact .behind hat hao hlt hb
    · exact .back hat ho hb

/-- After a move out of the line, a frame that does not come back there is misled at the target. -/
theorem misled_onto (ht : c.Begins t) (hat : ¬c.Together a t) (hao : ¬c.Together a o) :
    c.Misled a t o ↔ c.Together t o ∧ c.Begins o := by
  refine ⟨fun h => ?_, fun ⟨hto, hb⟩ => ?_⟩
  · cases h with
    | within h => exact absurd h hat
    | onto _ ho =>
      rw [ho]
      exact ⟨together_iff.2 rfl, ht⟩
    | behind _ h => exact absurd h hao
    | back _ ho => exact absurd (together_iff.2 (congrArg _ ho.symm)) hao
  · exact .onto hat (Nat.le_antisymm (hb.le (together_comm.1 hto)) (ht.le hto))

/-- **After a move** to the beginning of a line, a line is due by the offset moved from exactly if
it is due by the one executed, but for four cases. -/
theorem lineDue_iff_not_misled (ht : c.Begins t) :
    (c.LineDue (some a) o ↔ c.LineDue (some t) o) ↔ ¬c.Misled a t o := by
  -- nothing of its range lies before the target
  have htarget : c.LineDue (some t) o ↔ ¬c.Together t o ∧ c.Begins o :=
    or_iff_left fun h => Nat.not_lt.2 (ht.le h.1) h.2
  rw [htarget]
  unfold LineDue
  dsimp only
  -- the two lines moved between are the only ones for which the places matter
  by_cases hat : c.Together a t
  · have hto : c.Together t o ↔ c.Together a o := by
      rw [together_iff, together_iff, together_iff.1 hat]
    rw [hto, misled_within hat]
    tauto
  by_cases hao : c.Together a o
  · have hto : ¬c.Together t o := fun h =>
      hat (together_iff.2 ((together_iff.1 hao).trans (together_iff.1 h).symm))
    rw [misled_away hat hao]
    have hle (hb : c.Begins o) : o < a ∨ o = a :=
      Nat.lt_or_eq_of_le (hb.le (together_comm.1 hao))
    have hirr : o < a → o ≠ a := Nat.ne_of_lt
    grind
  · rw [misled_onto ht hat hao]
    grind

end CodeOf

/-! ### Hooks that move the frame -/

namespace Frame

/-- What a hook may make of a frame: it moves it to other lines, and changes it in any way that
moves it nowhere. -/
inductive JumpsOrStays (f : Frame) : Frame → Prop
  | refl : f.JumpsOrStays f
  | stays {g g' : Frame} (hg : f.JumpsOrStays g) (hs : g.Stays g') : f.JumpsOrStays g'
  | jump {g g' : Frame} {line : Nat} (hg : f.JumpsOrStays g) (hj : g.jump line = .ok g') :
    f.JumpsOrStays g'

end Frame

/-- The hooks of the host move frames only as frames let them. -/
def Host.OnlyJumps {σ : Type} (host : Host σ) : Prop :=
  ∀ hook line f h s, Frame.JumpsOrStays f (host.onLine hook line f h s).1

/-! ### Runs with their passages -/

namespace Machine

variable {σ : Type}

/-- What a frame that stands so passes in the next step: an offset that is dispatched, unless the
budget refuses to, and the one that is executed. -/
def passages (host : Host σ) (m : Machine σ) (f : Frame) : Standing → List Passage
  | .before o =>
    match m.decodes? host with
    | some (_, o') => [⟨⟨o, f.trace.hook, m.toldOfLines host⟩, o'⟩]
    | none => []
  | _ => []

/-- The states of a run from `m₀`, in which a frame is held right above the frames `below`: the
machine, the frame, how it stands, and its passages in the run. -/
inductive PassingRun (host : Host σ) (below : List Activation) (w : Entry) (m₀ : Machine σ) :
    Machine σ → Frame → Standing → List Passage → Prop
  | entered {f : Frame} {s : Standing} (hh : m₀.Holds below w f s) :
    PassingRun host below w m₀ m₀ f s []
  | step {m : Machine σ} {f f' : Frame} {s s' : Standing} {ps : List Passage}
      (hd : PassingRun host below w m₀ m f s ps) (hh : (m.step host).Holds below w f' s') :
    PassingRun host below w m₀ (m.step host) f' s' (ps ++ m.passages host f s)

end Machine

namespace Frame

/-- The frames of code `c` at any moment of their lives, with all their passages by then.  Only
their hooks move them; else, whoever has a frame may change it in any way that moves it nowhere,
capture and restore it, and put it on a chain and run it, as often as it likes. -/
inductive HasPassed (c : Code) : Frame → List Passage → Prop
  | created {code : CodeObject} {globals builtins : Ref .mapping} {closure : List (Ref .cell)}
      {f : Frame} {h h' : Heap} (hc : create code globals builtins closure h = .ok (f, h'))
      (hb : code.body = c) : HasPassed c f []
  | changed {f g : Frame} {ps : List Passage} (hf : HasPassed c f ps) (hs : f.Stays g) :
    HasPassed c g ps
  | restored {f g : Frame} {ps : List Passage} (hf : HasPassed c f ps)
      (hr : f.capture.restore = .ok g) : HasPassed c g ps
  | ran {σ : Type} {host : Host σ} {m m' : Machine σ} {w : Waiting} {f g : Frame}
      {input : Option Value} {raising : Option Raised} {s : Standing} {ps ps' : List Passage}
      (hh : host.OnlyJumps) (hf : HasPassed c f ps)
      (hd : Machine.PassingRun host m.chain (f.entry w) (m.enter host f input raising w)
        m' g s ps') :
    HasPassed c g (ps ++ ps')

/-! ### What a frame keeps after a move -/

variable {c : Code} {f g : Frame} {ps : List Passage} {last : Option Nat} {o o' : Nat}

/-- A hook leaves a frame of the same code, which keeps the same of lines, and which is where it was
or where a line starts. -/
theorem JumpsOrStays.spec (h : f.JumpsOrStays g) :
    g.code.body = f.code.body ∧ g.trace.lower = f.trace.lower ∧ g.trace.upper = f.trace.upper ∧
      g.trace.previous = f.trace.previous ∧
      (g.lastOffset = f.lastOffset ∨ ∃ t, g.lastOffset = some t ∧ f.code.body.Begins t ∧
        t < f.code.body.bytecode.length) := by
  induction h with
  | refl => exact ⟨rfl, rfl, rfl, rfl, .inl rfl⟩
  | stays _ hs ih =>
    obtain ⟨hb, hl, hu, hp, ho⟩ := ih
    refine ⟨hs.body.trans hb, hs.lower.trans hl, hs.upper.trans hu, hs.previous.trans hp, ?_⟩
    rw [hs.lastOffset]
    exact ho
  | @jump g g' _ _ hj ih =>
    obtain ⟨hb, hl, hu, hp, -⟩ := ih
    obtain ⟨-, t, line, hm, hlt, rfl⟩ := jump_spec hj
    rw [hb] at hm hlt
    exact ⟨hb, hl, hu, hp, .inr ⟨t, rfl, CodeOf.begins_of_mem hm, hlt⟩⟩

theorem JumpsOrStays.knows (h : f.JumpsOrStays g) (hk : f.Knows c o) : g.Knows c o := by
  obtain ⟨-, hl, hu, hp, -⟩ := h.spec
  refine ⟨hp.trans hk.previous, ?_, ?_, ?_⟩
  · rw [hl]
    exact hk.lower
  · rw [hu]
    exact hk.upper
  · rw [hl, hu]
    exact hk.inside

/-- What a frame keeps fits an offset of its code, the last one visited. -/
def RecallsInside (c : Code) (f : Frame) (last : Option Nat) : Prop :=
  f.Recalls c last ∧ ∀ o, last = some o → o ≤ c.bytecode.length

/-- What a frame has passed, and what was told of it, was as described, and what it keeps fits its
last visit, unless it has left its code. -/
structure Reckons (c : Code) (f : Frame) (ps : List Passage) : Prop where
  body : f.code.body = c
  recalls : f.RecallsInside c (ps.getLast?.map (·.offset)) ∨ f.Lost c
  lawful : Visit.Lawful c (ps.map Passage.toVisit)
  executed : ∀ p ∈ ps, p.executed = p.offset ∨
    p.CallsHook ∧ c.Begins p.executed ∧ p.executed < c.bytecode.length

theorem Reckons.stays (hr : f.Reckons c ps) (hs : f.Stays g) : g.Reckons c ps :=
  ⟨hs.body.trans hr.body,
    hr.recalls.imp (fun h => ⟨hs.recalls h.1, h.2⟩) hs.lost, hr.lawful, hr.executed⟩

end Frame

/-- Unless a hook is called, the frame is as it was visited. -/
theorem Machine.decodes?_uncalled {σ : Type} {host : Host σ} {m : Machine σ}
    {below : List Activation} {w : Entry} {f g : Frame} {o o' : Nat}
    (h : m.Stands below w (f, .before o)) (hd : m.decodes? host = some (g, o'))
    (hn : ¬∃ hook line k, .called hook line k ∈ f.tellsAt o) : g = f.reported o ∧ o' = o := by
  obtain ⟨⟨heap, budget, state⟩, chain, control⟩ := m
  have hc := h.chain
  have hk := h.control
  subst hc
  cases hk
  unfold decodes? lined? at hd
  dsimp only at hd
  cases hb : budget.dispatch with
  | mk admitted budget' =>
    rw [hb] at hd
    cases admitted with
    | error e => cases hd
    | ok u =>
      dsimp only at hd
      rw [traceLine_eq] at hd
      dsimp only at hd
      unfold Frame.tellsAt Frame.tells at hn
      -- only a line that begins, in a frame with a hook, leads to a call
      cases hl : f.lineAt? o with
      | none =>
        rw [hl] at hd
        cases hd
        exact ⟨rfl, rfl⟩
      | some line =>
        rw [hl] at hd hn
        dsimp only at hd hn
        cases hh : (f.reported o).trace.hook with
        | none =>
          rw [hh] at hd
          cases hd
          exact ⟨rfl, rfl⟩
        | some hook =>
          rw [hh] at hn
          exact absurd ⟨hook, line, f.reported o, .tail _ (.head _)⟩ hn

namespace Frame

variable {c : Code} {f g : Frame} {ps : List Passage} {o o' : Nat}

/-- A hook that only moves the frame as it may leaves it at the offset executed next. -/
theorem Traced.jumpsOrStays {σ : Type} {host : Host σ} (hh : host.OnlyJumps)
    (ht : Traced host f o g o') :
    (f.reported o).JumpsOrStays g ∧ (o' = o ∨ g.lastOffset = some o') := by
  cases ht with
  | untold => exact ⟨.refl, .inl rfl⟩
  | @hooked hook line h s g _ hg =>
    have hr := hh hook line (f.reported o) h s
    rw [hg] at hr
    refine ⟨hr, .inr ?_⟩
    obtain ⟨-, -, -, -, ho | ⟨t, ho, -⟩⟩ := hr.spec
    · rw [ho]
      rfl
    · rw [ho]
      rfl

/-- **One passage.** What is told and executed is as described, and what the frame keeps fits
the offset visited, whatever the hook has made of the frame. -/
theorem Reckons.visit {σ : Type} {host : Host σ} {m : Machine σ} {below : List Activation}
    {w : Entry} (hv : c.Valid) (hlen : c.bytecode.length < farthestOffset) (hh : host.OnlyJumps)
    (hr : f.Reckons c ps) (hin : f.RecallsInside c (ps.getLast?.map (·.offset)))
    (h : m.Stands below w (f, .before o)) (hd : m.decodes? host = some (g, o'))
    (ht : Traced host f o g o') :
    g.Reckons c (ps ++ [⟨⟨o, f.trace.hook, f.tellsAt o⟩, o'⟩]) ∧
      (o' < c.bytecode.length → g.RecallsInside c (some o)) := by
  obtain ⟨hrec, hle⟩ := hin
  have htells := hrec.tells hv hlen hr.body hle o
  obtain ⟨hjumps, ho'⟩ := ht.jumpsOrStays hh
  obtain ⟨hbody, -, -, -, hlast⟩ := hjumps.spec
  have hcode : (f.reported o).code.body = c := hr.body
  rw [hcode] at hbody hlast
  have hlaw : Visit.Lawful c
      (List.map Passage.toVisit (ps ++ [⟨⟨o, f.trace.hook, f.tellsAt o⟩, o'⟩])) := by
    rw [List.map_append]
    refine hr.lawful.concat ?_
    rw [List.getLast?_map, Option.map_map]
    exact htells
  have account (hrecalls : g.RecallsInside c (some o) ∨ g.Lost c)
      (hexec : o' = o ∨ (∃ hook line k, .called hook line k ∈ f.tellsAt o) ∧ c.Begins o' ∧
        o' < c.bytecode.length) :
      g.Reckons c (ps ++ [⟨⟨o, f.trace.hook, f.tellsAt o⟩, o'⟩]) := by
    refine ⟨hbody, ?_, hlaw, fun p hp => ?_⟩
    · rw [List.getLast?_append, List.getLast?_singleton]
      exact hrecalls
    · rcases List.mem_append.1 hp with hp | hp
      · exact hr.executed p hp
      · cases List.mem_singleton.1 hp
        exact hexec
  by_cases hcall : ∃ hook line k, .called hook line k ∈ f.tellsAt o
  · -- a line is only due where the frame keeps the offset
    have hol : o ≤ c.bytecode.length := by
      by_contra hgt
      obtain ⟨hook, line, k, hk⟩ := hcall
      have hquiet : f.tellsAt o = [] := htells.quiet (not_due hv hle (Nat.not_le.1 hgt))
      rw [hquiet] at hk
      cases hk
    have inside : g.RecallsInside c (some o) :=
      ⟨hjumps.knows (hrec.knows hr.body (Nat.lt_of_le_of_lt hol hlen)),
        fun y hy => Option.some.inj hy ▸ hol⟩
    refine ⟨account (.inl inside) ?_, fun _ => inside⟩
    rcases ho' with rfl | ho'
    · exact .inl rfl
    rw [ho'] at hlast
    rcases hlast with hlast | ⟨t, ht, hb, hlt⟩
    · refine .inl ((Option.some.inj hlast).trans (if_pos (.inl ?_)))
      exact Nat.le_of_lt (Nat.lt_of_le_of_lt hol hlen)
    · cases ht
      exact .inr ⟨hcall, hb, hlt⟩
  · -- no hook has moved the frame
    obtain ⟨rfl, rfl⟩ := Machine.decodes?_uncalled h hd hcall
    have inside (hlt : o' < c.bytecode.length) : (f.reported o').RecallsInside c (some o') :=
      ⟨hrec.knows hr.body (Nat.lt_trans hlt hlen),
        fun y hy => Option.some.inj hy ▸ Nat.le_of_lt hlt⟩
    refine ⟨account ?_ (.inl rfl), inside⟩
    rcases Nat.lt_or_ge o' c.bytecode.length with hlt | hge
    · exact .inl (inside hlt)
    · exact .inr (lost_of_le (Nat.le_of_lt hlen) hge)

end Frame

namespace Machine

variable {σ : Type} {host : Host σ} {m m' : Machine σ} {w : Entry} {f : Frame} {s : Standing}
  {c : Code} {ps ps' : List Passage}

theorem PassingRun.holds {below : List Activation} {m₀ : Machine σ}
    (h : PassingRun host below w m₀ m f s ps) : m.Holds below w f s := by
  cases h with
  | entered hh => exact hh
  | step _ hh => exact hh

/-- **All along a run, what a frame keeps fits its last visit**, however its hook moves it. -/
theorem PassingRun.reckons (hv : c.Valid) (hlen : c.bytecode.length < Frame.farthestOffset)
    (hh : host.OnlyJumps) {f₀ : Frame} {input : Option Value} {raising : Option Raised}
    {v : Waiting} (hr : f₀.Reckons c ps)
    (hd : PassingRun host m.chain (f₀.entry v) (m.enter host f₀ input raising v) m' f s ps') :
    f.Reckons c (ps ++ ps') ∧
      (s.Idle ∨ f.RecallsInside c ((ps ++ ps').getLast?.map (·.offset))) := by
  induction hd with
  | entered hheld =>
    obtain ⟨stack, back, -, rfl, rfl⟩ := enter_holds hheld
    rw [List.append_nil]
    exact ⟨hr.stays ⟨rfl, rfl, rfl, rfl, rfl⟩, .inl trivial⟩
  | @step n f f' s s' ps' hd hheld ih =>
    obtain ⟨hr, hin⟩ := ih
    rcases hd.holds.turns_or_visits hheld with ⟨hn, hturn, hidle⟩ |
      ⟨o, g, o', rfl, hdec, htr, hturn, he⟩
    · -- without a passage, the frame turns into another one
      have hnone : n.passages host f s = [] := by
        cases s with
        | before o => simp only [passages, hn o rfl]
        | _ => rfl
      rw [hnone, List.append_nil]
      refine ⟨hr.stays hturn.stays, ?_⟩
      have turned (h : f.RecallsInside c ((ps ++ ps').getLast?.map (·.offset))) :
          f'.RecallsInside c ((ps ++ ps').getLast?.map (·.offset)) :=
        ⟨hturn.stays.recalls h.1, h.2⟩
      rcases hidle with hidle | hidle | ⟨o, ho⟩
      · exact .inl hidle
      · exact .inr (turned (hin.resolve_left hidle))
      · -- a frame that is resumed has not left its code
        exact .inr (turned (hr.recalls.resolve_right fun hl => hl.not_resumed hr.body ho))
    · have hpass : n.passages host f (.before o) =
          [⟨⟨o, f.trace.hook, f.tellsAt o⟩, o'⟩] := by
        have hsome : (n.decodes? host).isSome := by
          rw [hdec]
          rfl
        simp only [passages, hdec, toldOfLines_of_decodes (hd.holds.stands rfl) hsome]
      obtain ⟨hvis, hnext⟩ :=
        hr.visit hv hlen hh (hin.resolve_left id) (hd.holds.stands rfl) hdec htr
      rw [hpass, ← List.append_assoc]
      refine ⟨hvis.stays hturn.stays, or_iff_not_imp_left.2 fun hidle => ?_⟩
      rw [List.getLast?_append, List.getLast?_singleton]
      -- what was decoded lies inside the code
      cases hi : Instruction.decode g.code.body.bytecode o' with
      | error e => exact absurd (he e hi) hidle
      | ok i =>
        have hlt := (Instruction.next_le_of_decode hi).1
        rw [hvis.body] at hlt
        exact ⟨hturn.stays.recalls (hnext hlt).1, (hnext hlt).2⟩

end Machine

namespace Frame

variable {c : Code} {f : Frame} {ps : List Passage}

theorem HasPassed.reckons (hv : c.Valid) (hlen : c.bytecode.length < farthestOffset)
    (h : HasPassed c f ps) : f.Reckons c ps := by
  induction h with
  | @created code _ _ closure f _ _ hc hb =>
    obtain ⟨hcode, hupper⟩ := unvisited_of_create hc
    exact ⟨(congrArg _ hcode).trans hb, .inl ⟨hupper, fun o ho => by cases ho⟩,
      (fun k v hk => by cases hk), fun p hp => absurd hp List.not_mem_nil⟩
  | changed _ hs ih => exact ih.stays hs
  | restored _ hr ih => exact ih.stays (stays_of_restore hr)
  | ran hh _ hd ih => exact (hd.reckons hv hlen hh ih).1

/-- **Lines are told of by the offsets visited**, all along the life of a frame that its hooks
move: after a move, by the offset that the frame was moved from.  The offset executed in its place,
where a line starts, says the same of the next visit but for a frame that is misled. -/
theorem HasPassed.detour_events (hv : c.Valid) (hlen : c.bytecode.length < farthestOffset)
    (h : HasPassed c f ps) {k : Nat} {p : Passage} (hk : ps[k]? = some p) :
    p.Reports c ((ps.take k).getLast?.map (·.offset)) ∧
    ∀ q, (ps.take k).getLast? = some q →
      (q.executed = q.offset ∨
        q.CallsHook ∧ c.Begins q.executed ∧ q.executed < c.bytecode.length) ∧
      ((p.told ≠ [] ↔ c.LineDue (some q.executed) p.offset) ↔
        ¬(q.executed ≠ q.offset ∧ c.Misled q.offset q.executed p.offset)) := by
  have hr := h.reckons hv hlen
  have hlaw : p.Reports c ((ps.take k).getLast?.map (·.offset)) := by
    have hl := hr.lawful k p.toVisit (by rw [List.getElem?_map, hk]; rfl)
    rw [← List.map_take, List.getLast?_map, Option.map_map] at hl
    exact hl
  refine ⟨hlaw, fun q hq => ?_⟩
  have hexec := hr.executed q (List.mem_of_mem_take (List.mem_of_getLast? hq))
  refine ⟨hexec, ?_⟩
  rw [hq] at hlaw
  have htold : p.told ≠ [] ↔ c.LineDue (some q.offset) p.offset := hlaw.told_iff
  rw [htold]
  by_cases he : q.executed = q.offset
  · rw [he]
    exact iff_of_true Iff.rfl fun h => h.1 rfl
  · rw [CodeOf.lineDue_iff_not_misled (hexec.resolve_left he).2.1]
    exact not_congr (and_iff_right he).symm

end Frame

/-! ### A way right back -/

/-- A host whose hooks move every frame to a line. -/
def Host.moving (line : Nat) : Host Unit where
  observe _ _ s := s
  onLine _ _ f h s :=
    match f.jump line with
    | .ok g => (g, h, s)
    | .error _ => (f, h, s)

theorem Host.moving_onlyJumps (line : Nat) : (moving line).OnlyJumps := by
  intro hook at' f h s
  unfold moving
  dsimp only
  split
  · exact .jump .refl ‹_›
  · exact .refl

/-- Code whose second line leads back to the first one: two times `NOP`, then a jump. -/
def returningCode : CodeObject where
  identity := 1
  body :=
    { name := "returning"
      bytecode := [Opcode.nop.byte, Opcode.nop.byte, Opcode.jumpAbsolute.byte, 0, 0]
      firstLine := 1
      lineTable := [2, 1] }

theorem returningCode_valid : returningCode.body.Valid := by
  change returningCode.body.validate = .ok ()
  cbv

/-- A new frame of that code. -/
def returningFrame : Frame where
  code := returningCode
  globals := ⟨0⟩
  builtins := Heap.defaultBuiltins
  locals := .dict ⟨0⟩
  cells := []
  stack := .empty 0
  trace := { line := 1 }

/-- The frame with a hook. -/
def returningFrame.hooked : Frame :=
  { returningFrame with trace := { line := 1, hook := some 0 } }

/-- The frame when its hook has moved it to the second line. -/
def detouringFrame : Frame :=
  { returningFrame.hooked.reported 0 with
    lastOffset := some 2
    trace := { (returningFrame.hooked.reported 0).trace with line := 2 } }

/-- What the frame passes: its hook is called with the first line and moves it to the second one,
which leads right back. -/
def returningPassages : List Passage :=
  [⟨⟨0, some 0, (returningFrame.hooked.reported 0).tells 1⟩, 2⟩, ⟨⟨0, some 0, []⟩, 0⟩]

/-- A machine that is to run the frame. -/
def returningMachine : Machine Unit :=
  Machine.idle.enter (.moving 2) returningFrame.hooked none none .outside

theorem returningFrame_hasPassed :
    ∃ f, Frame.HasPassed returningCode.body f returningPassages := by
  have created : Frame.HasPassed returningCode.body returningFrame [] := by
    have hc : Frame.create returningCode ⟨0⟩ Heap.defaultBuiltins [] .initial =
      .ok (returningFrame, .initial) := rfl
    exact .created hc rfl
  have hooked : Frame.HasPassed returningCode.body returningFrame.hooked [] :=
    created.changed ⟨rfl, rfl, rfl, rfl, rfl⟩
  let w : Entry := returningFrame.hooked.entry .outside
  have entered : returningMachine.Holds [] w returningFrame.hooked (.starting none) :=
    .innermost ⟨rfl, rfl⟩
  have started : (returningMachine.step (.moving 2)).Holds [] w returningFrame.hooked
      (.before 0) := .innermost ⟨rfl, rfl⟩
  have moved : ((returningMachine.step (.moving 2)).step (.moving 2)).Holds [] w
      detouringFrame (.before 0) := .innermost ⟨by cbv, by cbv⟩
  have passed : (((returningMachine.step (.moving 2)).step (.moving 2)).step (.moving 2)).Holds []
      w (detouringFrame.reported 0) (.before 1) := .innermost ⟨by cbv, by cbv⟩
  have first : (returningMachine.step (.moving 2)).passages (.moving 2) returningFrame.hooked
      (.before 0) = returningPassages.take 1 := by cbv
  have second : ((returningMachine.step (.moving 2)).step (.moving 2)).passages (.moving 2)
      detouringFrame (.before 0) = returningPassages.drop 1 := by cbv
  have run := (((Machine.PassingRun.entered entered).step started).step moved).step passed
  rw [first, second] at run
  exact ⟨_, hooked.ran (m := .idle) (Host.moving_onlyJumps 2) run⟩

/-- A line is due by the offset executed, and nothing is told, since the way back is misled. -/
theorem returningFrame_detour_events :
    ∃ f ps, Frame.HasPassed returningCode.body f ps ∧ ps[1]? = some ⟨⟨0, some 0, []⟩, 0⟩ ∧
      returningCode.body.LineDue (some 2) 0 ∧ returningCode.body.Misled 0 2 0 := by
  obtain ⟨f, hf⟩ := returningFrame_hasPassed
  have hq := (Frame.HasPassed.detour_events returningCode_valid (by decide) hf (k := 1) rfl).2
  have hmisled := (hq _ rfl).2
  have hdue : returningCode.body.LineDue (some 2) 0 := by
    refine .inl ⟨fun h => ?_, CodeOf.begins_iff.2 (.inl rfl)⟩
    have hl : returningCode.body.lineForOffset 2 = returningCode.body.lineForOffset 0 :=
      CodeOf.together_iff.1 h
    revert hl
    decide
  refine ⟨f, _, hf, rfl, hdue, ?_⟩
  by_contra hn
  exact (hmisled.2 fun h => hn h.2).2 hdue rfl

end Resumable
