import LibSwim.Server.Loop

/-! # Starting and stopping a server

The application starts, stops and waits for a server while its thread runs. The flag is read once in
every round, between rounds, so a server that is stopped finishes the round it is in; nothing resets
the flag, and nothing but the thread touches the node. So a server that has been stopped cannot be
brought back: a thread that is started later sends its JOIN, finds the flag and returns.
-/

namespace LibSwim

open Foundations

/-- The thread and the flag before and after an operation. -/
inductive Move : ServerOp → Thread × Bool → Thread × Bool → Prop
  | start {stopped} : Move .start (.absent, stopped) (.created, stopped)
  | restart {stopped} : Move .start (.returned, stopped) (.created, stopped)
  | stop {thread stopped} : Move .stop (thread, stopped) (thread, true)
  | wait {stopped} : Move .wait (.returned, stopped) (.returned, stopped)
  | enter {env stopped} : Move (.enter env) (.created, stopped) (.testing 0, stopped)
  | proceed {last} : Move .test (.testing last, false) (.serving last, false)
  | finish {last} : Move .test (.testing last, true) (.returned, true)
  | round {r last next stopped} : Move (.round r) (.serving last, stopped) (.testing next, stopped)

def ServerOp.starts : ServerOp → ℕ
  | .start => 1
  | .stop | .wait | .enter _ | .test | .round _ => 0

/-- One for the step that enters `pthread_server_loop`, and with it makes its JOIN. -/
def ServerOp.entries : ServerOp → ℕ
  | .enter _ => 1
  | .start | .stop | .wait | .test | .round _ => 0

def ServerOp.rounds : ServerOp → ℕ
  | .round _ => 1
  | .start | .stop | .wait | .enter _ | .test => 0

/-- Whether the thread has yet to enter the loop. -/
def Thread.entriesLeft : Thread → ℕ
  | .created => 1
  | .absent | .testing _ | .serving _ | .returned => 0

/-- The rounds that the thread of a stopped server has yet to make. -/
def Thread.roundsLeft : Thread → ℕ
  | .serving _ => 1
  | .absent | .created | .testing _ | .returned => 0

namespace Move

variable {op : ServerOp} {t t' : Thread} {stopped stopped' : Bool}

theorem entries_le (h : Move op (t, stopped) (t', stopped')) :
    op.entries + t'.entriesLeft ≤ t.entriesLeft + op.starts := by
  cases h <;> simp [ServerOp.entries, ServerOp.starts, Thread.entriesLeft]

theorem rounds_le (h : Move op (t, true) (t', stopped')) :
    stopped' = true ∧ op.rounds + t'.roundsLeft ≤ t.roundsLeft := by
  cases h <;> simp [ServerOp.rounds, Thread.roundsLeft]

/-- A thread returns because the flag is set. -/
theorem stopped_of_returned (h : Move op (t, stopped) (t', stopped'))
    (ht : t = .returned → stopped = true) : t' = .returned → stopped' = true := by
  cases h with
  | wait => exact ht
  | stop | finish => exact fun _ => rfl
  | start | restart | enter | proceed | round => rintro ⟨⟩

theorem returned (h : Move op (.returned, stopped) (t', stopped')) (hs : op.starts = 0) :
    t' = .returned := by
  cases h with
  | restart => cases hs
  | stop | wait => rfl

/-- Before the thread has entered the loop it makes no round. -/
theorem outside (h : Move op (t, stopped) (t', stopped')) (ht : t = .absent ∨ t = .created)
    (he : op.entries = 0) : (t' = .absent ∨ t' = .created) ∧ op.rounds = 0 := by
  cases h <;> simp_all [ServerOp.entries, ServerOp.rounds]

end Move

namespace Server

/-- Any operation, as long as the process is there. -/
def Up (v : Server) (_ : ServerOp) : Prop := v.running = true

variable {v v' : Server} {op : ServerOp} {ops : List ServerOp}

theorem Step.move (h : v.Step op v') : Move op (v.thread, v.stopped) (v'.thread, v'.stopped) := by
  obtain ⟨ds, hperform⟩ := h
  cases op with
  | start =>
    simp only [perform] at hperform
    split_ifs at hperform with hthread
    cases hperform
    rcases hthread with hthread | hthread
    · rw [hthread]
      exact .start
    · rw [hthread]
      exact .restart
  | stop =>
    cases hperform
    exact .stop
  | wait =>
    simp only [perform] at hperform
    split_ifs at hperform with hthread
    cases hperform
    rw [hthread]
    exact .wait
  | enter env =>
    simp only [perform] at hperform
    split_ifs at hperform with hthread
    cases hperform
    rw [hthread]
    exact .enter
  | test =>
    simp only [perform] at hperform
    split at hperform
    case h_1 last hthread =>
      cases hperform
      rw [hthread]
      cases v.stopped with
      | false => exact .proceed
      | true => exact .finish
    all_goals cases hperform
  | round r =>
    simp only [perform] at hperform
    split at hperform
    case h_1 last hthread =>
      cases hperform
      rw [hthread]
      exact .round
    all_goals cases hperform

/-- JOIN is sent without a look at the node. -/
theorem entry_swim (v : Server) (env : Env) : (runCalls (v.entry env) v.swim).2.1 = v.swim := by
  unfold entry
  split_ifs <;> rfl

/-- Nothing but a round changes the node. -/
theorem Step.swim (h : v.Step op v') (hr : op.rounds = 0) : v'.swim = v.swim := by
  obtain ⟨ds, hperform⟩ := h
  cases op with
  | round => cases hr
  | enter env =>
    simp only [perform] at hperform
    split_ifs at hperform
    cases hperform
    exact v.entry_swim env
  | start | stop | wait | test =>
    simp only [perform] at hperform
    repeat' split at hperform
    all_goals cases hperform
    all_goals rfl

theorem rounds_of_no_entry (h : Trace Step Up v ops v') (ht : v.thread = .absent ∨ v.thread = .created)
    (hnone : (ops.map ServerOp.entries).sum = 0) : (ops.map ServerOp.rounds).sum = 0 := by
  induction h with
  | nil => rfl
  | cons _ hstep _ ih =>
    rw [List.map_cons, List.sum_cons, Nat.add_eq_zero_iff] at hnone
    obtain ⟨ht', hround⟩ := hstep.move.outside ht hnone.1
    rw [List.map_cons, List.sum_cons, hround, ih ht' hnone.2]

/-- The thread can make its JOIN, whatever the node holds. -/
theorem enter_step (ht : v.thread = .created) (env : Env) :
    ∃ v', v.Step (.enter env) v' ∧ v'.thread = .testing 0 ∧ v'.stopped = v.stopped ∧
      v'.running = true := by
  refine ⟨(v.act (runCalls (v.entry env) v.swim) (.testing 0)).1, ⟨_, if_pos ht⟩, rfl, rfl, ?_⟩
  have hsent : ∀ p ∈ (runCalls (v.entry env) v.swim).2.2, p.event.Fits := by
    unfold entry
    split_ifs
    · intro p hp
      obtain rfl := List.mem_singleton.mp hp
      exact ⟨by rintro _ _ ⟨⟩; exact Nat.zero_le _, by simp, Nat.zero_le _⟩
    · simp [runCalls]
  simp [act, v.entry_ok env, transmit_eq hsent, Except.isOk, Except.toBool]

/-- A round in which nothing is received, and the clock stands, does nothing. -/
theorem idle_step {last : ℤ} (ht : v.thread = .serving last) :
    ∃ r v', v.Step (.round r) v' ∧ v'.thread = .testing last ∧ v'.stopped = v.stopped ∧
      v'.running = true := by
  let r : Round := ⟨steadyEnv 0, steadyEnv v.swim.lastHeartbeat, last,
    List.replicate swimMaxPacketSize 0, none⟩
  have hprints : ¬ r.Prints last := by
    change ¬ last + 5 < last
    omega
  have hbeats : ¬ v.swim.Beats (r.beat.time 0) := by
    rintro ⟨-, hlate⟩
    change v.swim.lastHeartbeat + swimHeartbeatInterval < v.swim.lastHeartbeat at hlate
    rw [swimHeartbeatInterval] at hlate
    omega
  have hidle : r.perform last v.swim = (.ok (), v.swim, []) := by
    have hhandle : r.handle v.swim = (.ok (), v.swim, []) := by
      change runCalls [⟨r.beat, .heartbeat⟩] v.swim = _
      rw [runCalls_ok (heartbeat_early hbeats)]
      rfl
    simp only [Round.perform, hhandle, if_neg hprints]
  refine ⟨r, (v.act (r.perform last v.swim) (.testing (r.printed last))).1,
    ⟨_, by simp only [perform, ht]; rfl⟩, ?_, rfl, ?_⟩
  · exact congrArg Thread.testing (if_neg hprints)
  · rw [hidle]
    rfl

/-- A stopped thread that is under way can return with its next steps. -/
theorem can_return (hs : v.stopped = true) (ht : v.thread ≠ .absent) (hv : v.running = true) :
    ∃ ops v', Trace Step Up v ops v' ∧ ops.length ≤ 2 ∧ v'.thread = .returned ∧ v'.running = true := by
  -- from `testing` one step is enough, the other two lead there
  have htest : ∀ w : Server, w.stopped = true → w.running = true → (∃ last, w.thread = .testing last) →
      ∃ w', w.Step .test w' ∧ w'.thread = .returned ∧ w'.running = true := by
    rintro w hws hrun ⟨last, hw⟩
    refine ⟨{ w with thread := .returned }, ⟨[], ?_⟩, rfl, hrun⟩
    simp [perform, hw, hws]
  have hvia : ∀ op w, v.Step op w → w.stopped = true → w.running = true →
      (∃ last, w.thread = .testing last) →
      ∃ ops v', Trace Step Up v ops v' ∧ ops.length ≤ 2 ∧ v'.thread = .returned ∧ v'.running = true := by
    intro op w hstep hws hrun hw
    obtain ⟨w', hstep', hend⟩ := htest w hws hrun hw
    exact ⟨[op, .test], w', .cons hv hstep (.cons hrun hstep' (.nil w')), le_rfl, hend⟩
  cases hthread : v.thread with
  | absent => exact absurd hthread ht
  | returned => exact ⟨[], v, .nil v, Nat.zero_le _, hthread, hv⟩
  | testing last =>
    obtain ⟨w', hstep, hend⟩ := htest v hs hv ⟨last, hthread⟩
    exact ⟨[.test], w', .cons hv hstep (.nil w'), Nat.le_succ 1, hend⟩
  | created =>
    obtain ⟨w, hstep, hw, hstopped, hrun⟩ := enter_step hthread (steadyEnv 0)
    exact hvia _ w hstep (hstopped.trans hs) hrun ⟨0, hw⟩
  | serving last =>
    obtain ⟨r, w, hstep, hw, hstopped, hrun⟩ := idle_step hthread
    exact hvia _ w hstep (hstopped.trans hs) hrun ⟨last, hw⟩

/-- A stopped server makes no more rounds than its thread has begun. -/
theorem rounds_of_stopped (hs : v.stopped = true) (h : Trace Step Up v ops v') :
    v'.stopped = true ∧ (ops.map ServerOp.rounds).sum ≤ v.thread.roundsLeft := by
  constructor
  · exact h.preserves (I := fun w => w.stopped = true)
      (fun w op w' hw _ hstep => (hw ▸ hstep.move).rounds_le.1) hs
  · have hcost := Trace.cost_le (I := fun w => w.stopped = true) ServerOp.rounds
      (fun w => w.thread.roundsLeft) h
      (fun w op w' hw _ hstep => (hw ▸ hstep.move).rounds_le) hs
    exact (Nat.le_add_right _ _).trans hcost

/-- Without rounds the node stays as it is. -/
theorem swim_of_no_round (h : Trace Step Up v ops v') (hnone : (ops.map ServerOp.rounds).sum = 0) :
    v'.swim = v.swim :=
  h.preserves_of_free (I := fun w => w.swim = v.swim) ServerOp.rounds hnone
    (fun _ _ _ hw hr hstep => (hstep.swim hr).trans hw) rfl

theorem returned_of_no_start (h : Trace Step Up v ops v') (ht : v.thread = .returned)
    (hnone : (ops.map ServerOp.starts).sum = 0) : v'.thread = .returned :=
  h.preserves_of_free (I := fun w => w.thread = .returned) ServerOp.starts hnone
    (fun _ _ _ hw hs hstep => (hw ▸ hstep.move).returned hs) ht

/-- Over every run of a server that is not started while its thread is under way: the thread enters its
loop at most once for each start, and makes no round before it has. A server that is stopped stays so
and makes at most one more round, the one it was in, and it can return. Once the thread has returned, as
it has when `swim_server_wait` returns, there is no further round and the node does not change, also if
the server is started again; it stays so without a start. -/
theorem server_lifecycle {uuid : Uuid} {now : ℤ} {address : SockAddr} {ops : List ServerOp}
    (h : Trace Step Up (swimServerInit uuid now address) ops v) :
    ((ops.map ServerOp.entries).sum ≤ (ops.map ServerOp.starts).sum ∧
      ((ops.map ServerOp.entries).sum = 0 → (ops.map ServerOp.rounds).sum = 0)) ∧
    (v.stopped = true → ∀ ops' v', Trace Step Up v ops' v' → v'.stopped = true ∧
      (ops'.map ServerOp.rounds).sum ≤ v.thread.roundsLeft) ∧
    (v.stopped = true → v.thread ≠ .absent → v.running = true → ∃ ops' v', Trace Step Up v ops' v' ∧
      ops'.length ≤ 2 ∧ v'.thread = .returned ∧ v'.running = true) ∧
    (v.thread = .returned → ∀ ops' v', Trace Step Up v ops' v' →
      (ops'.map ServerOp.rounds).sum = 0 ∧ v'.swim = v.swim ∧
        ((ops'.map ServerOp.starts).sum = 0 → v'.thread = .returned)) := by
  refine ⟨⟨?_, rounds_of_no_entry h (.inl rfl)⟩, fun hs ops' v' => rounds_of_stopped hs, can_return, ?_⟩
  · have hcost := Trace.cost_le_income (I := fun _ => True) ServerOp.entries ServerOp.starts
      (fun w => w.thread.entriesLeft) h
      (fun w op w' _ _ hstep => ⟨trivial, hstep.move.entries_le⟩) trivial
    have hleft : (swimServerInit uuid now address).thread.entriesLeft = 0 := rfl
    omega
  · intro ht ops' v' h'
    have hstopped : v.stopped = true := h.preserves
      (I := fun w => w.thread = .returned → w.stopped = true)
      (fun w op w' hw _ hstep => hstep.move.stopped_of_returned hw) (by rintro ⟨⟩) ht
    have hle := (rounds_of_stopped hstopped h').2
    have hleft : v.thread.roundsLeft = 0 := by
      rw [ht]
      rfl
    have hnone : (ops'.map ServerOp.rounds).sum = 0 := by omega
    exact ⟨hnone, swim_of_no_round h' hnone, returned_of_no_start h' ht⟩

/-- The server is stopped before it is in its loop, and started again when it has returned. -/
theorem server_lifecycle_stopped :
    let v : Server := { swimServerInit (.ofByte 1) 1000 .none with stopped := true, thread := .returned }
    (∃ ops, Trace Step Up (swimServerInit (.ofByte 1) 1000 .none) ops v) ∧
      (∃ v', Trace Step Up v [.start, .enter (steadyEnv 1000)] v' ∧ v'.thread = .testing 0) ∧
      ∀ ops' v', Trace Step Up v ops' v' → (ops'.map ServerOp.rounds).sum = 0 ∧ v'.swim = v.swim := by
  intro v
  have htrace : Trace Step Up (swimServerInit (.ofByte 1) 1000 .none)
      [.start, .stop, .enter (steadyEnv 1000), .test] v :=
    .cons rfl ⟨[], rfl⟩ (.cons rfl ⟨[], rfl⟩ (.cons rfl ⟨[], rfl⟩ (.cons rfl ⟨[], rfl⟩ (.nil v))))
  have hagain : Trace Step Up v [.start, .enter (steadyEnv 1000)] { v with thread := .testing 0 } :=
    .cons rfl ⟨[], rfl⟩ (.cons rfl ⟨[], rfl⟩ (.nil _))
  refine ⟨⟨_, htrace⟩, ⟨_, hagain, rfl⟩, fun ops' v' h' => ?_⟩
  have hafter := (server_lifecycle htrace).2.2.2 rfl ops' v' h'
  exact ⟨hafter.1, hafter.2.1⟩

end Server

end LibSwim
