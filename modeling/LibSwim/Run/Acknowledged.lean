import LibSwim.Run.Heartbeat
import LibSwim.Run.Interface
import LibSwim.Run.Outcomes

/-! # What an acknowledgement is worth

An ACK is taken notice of twice: for its sender, where the incarnation is compared and the time
recorded, and for the node it acknowledges, where neither happens. A stale ACK of a suspected
member makes it ALIVE, and an ACK that somebody else relays makes it ALIVE for an instant only.
-/

namespace LibSwim

open Foundations Program

section

variable {h : Host} {s s' : SWIM} {env : Env} {e : Event} {addr : SockAddr} {v : Uuid} {n : NodeState}

theorem mergeAll_of_ne {gs : List NodeInfo} (h : ∀ g ∈ gs, g.uuid ≠ n.uuid) : mergeAll gs n = n := by
  induction gs with
  | nil => rfl
  | cons g gs ih =>
    rw [mergeAll_cons, if_neg (h g (by simp))]
    exact ih fun g' hg' => h g' (by simp [hg'])

/-- The entry that an ACK is about: the sender is noticed, the switch looks at the status. -/
theorem wp_ackEntry (hwf : h.swim.WellFormed) (hb : e.body = .ack v) (hn : h.swim.find v = some n) :
    wp (swimProcessEvent e addr) (fun _ h' =>
      (∀ m, h.swim.find e.hdr.uuid = some m → m.info.Valid) ∧
        h'.swim.find v = some (mergeAll e.gossip (e.noticed n).acked)) (fun _ _ => True) h := by
  rw [swimProcessEvent, wp_bind]
  refine wp_noticed hwf (fun _ h₁ hnot => ?_) fun _ _ _ => trivial
  have hn₁ : h₁.swim.find v = some (e.noticed n) := by rw [hnot.find, hn, Option.map_some]
  rw [dispatch, hb]
  refine wp_ackMember hnot.wf hn₁ (fun h₂ hsw => ?_) fun _ _ _ => trivial
  have hn₂ : h₂.swim.find v = some (e.noticed n).acked := by
    rw [hsw.find, hn₁, Option.map_some, if_pos rfl]
  exact wp_mono (wp_gossip e.gossip hsw.wf hn₂) (fun _ _ hg => ⟨hnot.valid, hg.2.2⟩)
    fun _ _ _ => trivial

theorem wp_pingGossip (hwf : h.swim.WellFormed) (hn : h.swim.find v = some n) :
    wp (swimProcessPing e addr) (fun _ h' => h'.swim.find v = some (mergeAll e.gossip n))
      (fun _ _ => True) h := by
  rw [swimProcessPing, wp_bind, wp_getSwim, wp_bind]
  refine wp_sendWithGossip hwf (fun h₁ _ hsent => ?_) fun _ _ _ => trivial
  rw [← hsent.swim] at hn
  exact wp_mono (wp_gossip e.gossip (hsent.swim ▸ hwf) hn) (fun _ _ hg => hg.2.2)
    fun _ _ _ => trivial

/-- A PING does nothing to the entry of a member but notice it and merge the gossip. -/
theorem wp_pingEntry (hwf : h.swim.WellFormed) (hb : e.body = .ping) (hn : h.swim.find v = some n) :
    wp (swimProcessEvent e addr)
      (fun _ h' => h'.swim.find v = some (mergeAll e.gossip (e.noticed n))) (fun _ _ => True) h := by
  rw [swimProcessEvent, wp_bind]
  refine wp_noticed hwf (fun _ h₁ hnot => ?_) fun _ _ _ => trivial
  rw [dispatch, hb]
  exact wp_pingGossip hnot.wf (by rw [hnot.find, hn, Option.map_some])

theorem ack_entry (hwf : s.WellFormed) (hb : e.body = .ack v) (hn : s.find v = some n)
    (hg : ∀ g ∈ e.gossip, g.uuid ≠ v) (hret : Returns s ⟨env, .event e addr⟩ s') :
    (∀ m, s.find e.hdr.uuid = some m → m.info.Valid) ∧ s'.find v = some (e.noticed n).acked := by
  obtain ⟨ps, hrun⟩ := hret
  obtain ⟨t, ⟨hvalid, hfind⟩, rfl, -⟩ := runStep_ok hrun (wp_ackEntry hwf hb hn)
  have hv := (hwf.find_eq_some.mp hn).2
  rw [mergeAll_of_ne (by rwa [acked_uuid, Event.noticed_uuid, hv])] at hfind
  exact ⟨hvalid, hfind⟩

theorem ping_entry (hwf : s.WellFormed) (hb : e.body = .ping) (hn : s.find v = some n)
    (hg : ∀ g ∈ e.gossip, g.uuid ≠ v) (hret : Returns s ⟨env, .event e addr⟩ s') :
    s'.find v = some (e.noticed n) := by
  obtain ⟨ps, hrun⟩ := hret
  obtain ⟨t, hfind, rfl, -⟩ := runStep_ok hrun (wp_pingEntry hwf hb hn)
  have hv := (hwf.find_eq_some.mp hn).2
  rwa [mergeAll_of_ne (by rwa [Event.noticed_uuid, hv])] at hfind

end

variable {uuid v : Uuid} {now : ℤ} {s s' : SWIM} {env : Env} {e : Event} {addr : SockAddr}
variable {n : NodeState}

/-! ## Stale messages -/

/-- The record of `v` as far as messages of `v` are about it. -/
def SameRecord (v : Uuid) (n : NodeState) (s' : SWIM) : Prop :=
  ∃ m, s'.find v = some m ∧ m.info.status = n.info.status ∧
    m.info.incarnation = n.info.incarnation ∧ m.info.lastSeen = n.info.lastSeen

/-- A stale PING or ACK of a member leaves its record alone unless it is an ACK and the member is
suspected. -/
theorem stale_message_iff (hrun : Run Performs anyOp (swimStateInit uuid now) s)
    (hn : s.find v = some n) (hu : e.hdr.uuid = v) (hb : e.body = .ping ∨ e.body = .ack v)
    (hstale : e.hdr.incarnation < n.info.incarnation) (hg : ∀ g ∈ e.gossip, g.uuid ≠ v)
    (hret : Returns s ⟨env, .event e addr⟩ s') :
    SameRecord v n s' ↔ ¬ (e.body = .ack v ∧ n.info.status = .suspect) := by
  have hwf := wellFormed_of_ops hrun
  have hnoticed : e.noticed n = n := by
    unfold Event.noticed
    split_ifs
    · exact NodeState.notice_stale hstale
    · rfl
  rcases hb with hb | hb
  · have hfind := ping_entry hwf hb hn hg hret
    rw [hnoticed] at hfind
    simp only [SameRecord, hfind, hb]
    simp
  · obtain ⟨hvalid, hfind⟩ := ack_entry hwf hb hn hg hret
    have hknown := (hvalid n (hu ▸ hn)).2
    rw [hnoticed] at hfind
    simp only [SameRecord, hfind, hb, true_and]
    unfold NodeState.acked
    cases hs : n.info.status with
    | suspect => simp [NodeState.refute, swimNodeResetWitness]
    | unknown => exact absurd hs hknown
    | dead | alive | other => simp [hs]

/-- Node 2 has joined and been heard of with incarnation 1. -/
def heardTwo : List OpCall := [joinCall 2 .none, pingCall 2 1].map Call.toOp

theorem stale_message_ping :
    let s := play (swimStateInit (.ofByte 1) 1000) heardTwo
    ∃ n s', s.find (.ofByte 2) = some n ∧ Returns s (pingCall 2 0) s' ∧ SameRecord (.ofByte 2) n s' := by
  intro s
  obtain ⟨hplays, hrecord, hok⟩ : plays (swimStateInit (.ofByte 1) 1000) heardTwo = true ∧
      (s.find (.ofByte 2)).any (fun n => n.info.incarnation = 1) = true ∧
      (runStep (pingCall 2 0) s).1 = .ok () := by decide +kernel
  obtain ⟨n, hn, hinc⟩ := (Option.any_eq_true _ _).mp hrecord
  rw [decide_eq_true_eq] at hinc
  have hret := returns_of_ok hok
  refine ⟨n, _, hn, hret, (stale_message_iff (run_of_plays hplays (.refl _))
    hn rfl (.inl rfl) ?_ (by simp) hret).mpr (by simp)⟩
  rw [hinc]
  decide

/-- Node 2 is suspected under incarnation 1; an ACK it sent under incarnation 0 makes it ALIVE. -/
theorem stale_ack_refutes :
    let s := play (swimStateInit (.ofByte 1) 1000) (heardTwo ++ [(pingReqCall 3 2 0 .none).toOp])
    Run Performs anyOp (swimStateInit (.ofByte 1) 1000) s ∧
      ∃ n m s', s.find (.ofByte 2) = some n ∧ n.info.status = .suspect ∧ n.info.incarnation = 1 ∧
        Returns s (ackCall 2 0 .none) s' ∧ s'.find (.ofByte 2) = some m ∧
        m.info.status = .alive := by
  intro s
  obtain ⟨hplays, hbefore, hok, hafter⟩ : plays (swimStateInit (.ofByte 1) 1000)
        (heardTwo ++ [(pingReqCall 3 2 0 .none).toOp]) = true ∧
      (s.find (.ofByte 2)).any (fun n => n.info.status = .suspect ∧ n.info.incarnation = 1) = true ∧
      (runStep (ackCall 2 0 .none) s).1 = .ok () ∧
      ((runStep (ackCall 2 0 .none) s).2.1.find (.ofByte 2)).any
        (fun m => m.info.status = .alive) = true := by decide +kernel
  obtain ⟨n, hn, hrecord⟩ := (Option.any_eq_true _ _).mp hbefore
  obtain ⟨m, hm, halive⟩ := (Option.any_eq_true _ _).mp hafter
  rw [decide_eq_true_eq] at hrecord halive
  exact ⟨run_of_plays hplays (.refl _), n, m, _, hn, hrecord.1, hrecord.2,
    returns_of_ok hok, hm, halive⟩

/-! ## Acknowledged and suspected again -/

/-- The member `v` is ALIVE. -/
def SWIM.Alive (v : Uuid) (s : SWIM) : Prop := ∃ m, s.find v = some m ∧ m.info.status = .alive

/-- The member `v` is ALIVE, and stays so in every heartbeat within a minute of `time`. -/
def AliveFor (v : Uuid) (time : ℤ) (s : SWIM) : Prop :=
  s.Alive v ∧ ∀ env s', time ≤ env.time 0 → env.time 0 < time + 60 →
    Returns s ⟨env, .heartbeat⟩ s' → s'.Alive v

/-- A member that is ALIVE survives the heartbeats within a minute of `time` if it was seen at that
time, or if none of them is due. -/
theorem aliveFor_iff {time : ℤ} (hwf : s.WellFormed) (hn : s.find v = some n)
    (halive : n.info.status = .alive) :
    AliveFor v time s ↔
      time ≤ n.info.lastSeen ∨ time + 59 ≤ s.lastHeartbeat + swimHeartbeatInterval := by
  have hpos : 0 < s.viewSize := by
    rw [← hwf.members_length]
    exact List.length_pos_of_mem (hwf.find_eq_some.mp hn).1
  have hafter {env : Env} {s' : SWIM} (h : Returns s ⟨env, .heartbeat⟩ s') :
      s'.Alive v ↔ ¬ (s.Beats (env.time 0) ∧ n.info.lastSeen ≤ env.time 0 - 60) := by
    rw [SWIM.Alive, (heartbeat_beaten hwf h).find hwf (h.wf hwf) hn]
    by_cases hbeats : s.Beats (env.time 0)
    · rw [if_pos hbeats]
      by_cases hseen : n.info.lastSeen ≤ env.time 0 - 60
      · simp [NodeState.ticked, halive, hseen, hbeats, NodeState.suspectDead]
      · simp [NodeState.ticked, halive, hseen]
    · simp [hbeats, halive]
  constructor
  · rintro ⟨-, hbeat⟩
    by_contra hno
    push Not at hno
    obtain ⟨s', hs'⟩ := heartbeat_returns hwf (steadyEnv_allocates (time + 59))
    have hlive := hbeat _ s' (show time ≤ time + 59 by omega)
      (show time + 59 < time + 60 by omega) hs'
    exact (hafter hs').mp hlive ⟨⟨hpos, hno.2⟩, by simp only [steadyEnv]; omega⟩
  · intro hsafe
    refine ⟨⟨n, hn, halive⟩, fun env s' hge hlt hs' => (hafter hs').mpr ?_⟩
    rintro ⟨⟨-, hdue⟩, hseen⟩
    omega

/-- An ACK that is not stale leaves the member it is about ALIVE, and records its time only when the
member itself sent it. -/
theorem acked_noticed (hs : n.info.status = .alive ∨ n.info.status = .suspect)
    (hinc : n.uuid = e.hdr.uuid → n.info.incarnation ≤ e.hdr.incarnation) :
    (e.noticed n).acked.info.status = .alive ∧ (e.noticed n).acked.info.lastSeen =
      if n.uuid = e.hdr.uuid then e.hdr.time else n.info.lastSeen := by
  unfold Event.noticed
  split_ifs with hu
  · rcases (hinc hu).lt_or_eq with hlt | heq
    · rw [NodeState.notice_newer hlt]
      exact ⟨rfl, rfl⟩
    · unfold NodeState.notice
      rw [if_neg heq.not_lt, if_pos heq.symm]
      rcases hs with hs | hs <;> simp [hs, NodeState.acked]
  · unfold NodeState.acked
    rcases hs with hs | hs <;> simp [hs, NodeState.refute, swimNodeResetWitness]

/-- The ACK for a member makes it ALIVE; it stays so for a minute exactly when the member itself
sent the ACK, or was last seen at the time of it, or no heartbeat is due within that minute. -/
theorem acknowledged_alive_iff (hrun : Run Performs anyOp (swimStateInit uuid now) s)
    (hn : s.find v = some n) (hs : n.info.status = .alive ∨ n.info.status = .suspect)
    (hb : e.body = .ack v) (htime : n.info.lastSeen ≤ e.hdr.time)
    (hsender : ∃ k, s.find e.hdr.uuid = some k ∧ k.info.incarnation ≤ e.hdr.incarnation)
    (hg : ∀ g ∈ e.gossip, g.uuid ≠ v) (hret : Returns s ⟨env, .event e addr⟩ s') :
    s'.Alive v ∧ (AliveFor v e.hdr.time s' ↔ e.hdr.uuid = v ∨ n.info.lastSeen = e.hdr.time ∨
      e.hdr.time + 59 ≤ s.lastHeartbeat + swimHeartbeatInterval) := by
  have hwf := wellFormed_of_ops hrun
  have hfind := (ack_entry hwf hb hn hg hret).2
  have hv := (hwf.find_eq_some.mp hn).2
  have hclock : s'.lastHeartbeat = s.lastHeartbeat := by
    obtain ⟨ps, hstep⟩ := hret
    obtain ⟨t, hframed, rfl, -⟩ := runStep_ok hstep (keeps_event e addr _)
    exact hframed.lastHeartbeat
  have hinc : n.uuid = e.hdr.uuid → n.info.incarnation ≤ e.hdr.incarnation := by
    intro hu
    obtain ⟨k, hk, hle⟩ := hsender
    rw [← hu, hv, hn] at hk
    exact Option.some.inj hk ▸ hle
  obtain ⟨halive, hseen⟩ := acked_noticed hs hinc
  refine ⟨⟨_, hfind, halive⟩, ?_⟩
  rw [aliveFor_iff (hret.wf hwf) hfind halive, hclock, hseen, hv]
  by_cases hu : v = e.hdr.uuid
  · simp [hu]
  · rw [if_neg hu]
    simp only [Ne.symm hu, false_or]
    constructor
    · rintro (hle | hdue)
      · exact .inl (le_antisymm htime hle)
      · exact .inr hdue
    · rintro (heq | hdue)
      · exact .inl heq.ge
      · exact .inr hdue

/-- Nodes 2 and 3 have joined at time 1000. -/
def joinedTwo : List OpCall := [joinCall 2 .none, joinCall 3 .none].map Call.toOp

/-- The node with last byte `b` acknowledges for node 2 at time 1055. -/
def ackForTwo (b : UInt8) : Event := ⟨⟨.ofByte b, 1055, 0⟩, .ack (.ofByte 2), []⟩

/-- Node 2 acknowledges for itself. -/
theorem acknowledged_alive_itself :
    let s := play (swimStateInit (.ofByte 1) 1000) joinedTwo
    ∃ s', Returns s ⟨steadyEnv 1055, .event (ackForTwo 2) .none⟩ s' ∧ s'.Alive (.ofByte 2) ∧
      AliveFor (.ofByte 2) 1055 s' := by
  intro s
  obtain ⟨hplays, hrecord, hok⟩ : plays (swimStateInit (.ofByte 1) 1000) joinedTwo = true ∧
      (s.find (.ofByte 2)).any (fun n => n.info.status = .alive ∧ n.info.lastSeen = 1000 ∧
        n.info.incarnation = 0) = true ∧
      (runStep ⟨steadyEnv 1055, .event (ackForTwo 2) .none⟩ s).1 = .ok () := by decide +kernel
  obtain ⟨n, hn, hknown⟩ := (Option.any_eq_true _ _).mp hrecord
  rw [decide_eq_true_eq] at hknown
  obtain ⟨halive, hseen, hinc⟩ := hknown
  have hret := returns_of_ok hok
  have htime : n.info.lastSeen ≤ (ackForTwo 2).hdr.time := by rw [hseen]; decide
  have hack := acknowledged_alive_iff (run_of_plays hplays (.refl _)) hn
    (.inl halive) rfl htime ⟨n, hn, hinc.le⟩ (by simp [ackForTwo]) hret
  exact ⟨_, hret, hack.1, hack.2.mpr (.inl rfl)⟩

/-- Node 3 relays the acknowledgement of node 2, and the heartbeat 45 seconds later suspects node 2
again. -/
theorem acknowledged_suspected_again :
    let s := play (swimStateInit (.ofByte 1) 1000) joinedTwo
    Run Performs anyOp (swimStateInit (.ofByte 1) 1000) s ∧ ∃ s' s'' m,
      Returns s ⟨steadyEnv 1055, .event (ackForTwo 3) .none⟩ s' ∧ s'.Alive (.ofByte 2) ∧
        Returns s' (heartbeatCall 1100) s'' ∧ s''.find (.ofByte 2) = some m ∧
        m.info.status = .suspect := by
  intro s
  let s' := (runStep ⟨steadyEnv 1055, .event (ackForTwo 3) .none⟩ s).2.1
  obtain ⟨hplays, hok, halive, hok', hsuspect⟩ :
      plays (swimStateInit (.ofByte 1) 1000) joinedTwo = true ∧
      (runStep ⟨steadyEnv 1055, .event (ackForTwo 3) .none⟩ s).1 = .ok () ∧
      (s'.find (.ofByte 2)).any (fun m => m.info.status = .alive) = true ∧
      (runStep (heartbeatCall 1100) s').1 = .ok () ∧
      ((runStep (heartbeatCall 1100) s').2.1.find (.ofByte 2)).any
        (fun m => m.info.status = .suspect) = true := by decide +kernel
  obtain ⟨m, hm, hlive⟩ := (Option.any_eq_true _ _).mp halive
  obtain ⟨m', hm', hs⟩ := (Option.any_eq_true _ _).mp hsuspect
  rw [decide_eq_true_eq] at hlive hs
  exact ⟨run_of_plays hplays (.refl _), s', _, m', returns_of_ok hok,
    ⟨m, hm, hlive⟩, returns_of_ok hok', hm', hs⟩

end LibSwim
