import LibSwim.Run.Outcomes
import LibSwim.Step.Schedule

/-! # The array and the schedule

What a call does to the array that holds the view and to the probe schedule. Most of a call rewrites
entries and sends packets, which leaves both alone. A new member makes the view grow, and the array
with it when it is full; the schedule is then due to be made anew. So as long as the view has its size,
the position in the round is moved by heartbeats only, and by each of them by one turn.
-/

namespace LibSwim

open Foundations Program

/-- Entries may have been rewritten and packets sent; the array and the schedule are the same. -/
structure Fixed (h h' : Host) : Prop where
  uuids : h'.swim.uuids = h.swim.uuids
  viewSize : h'.swim.viewSize = h.swim.viewSize
  viewCapacity : h'.swim.viewCapacity = h.swim.viewCapacity
  probe : h'.swim.probe = h.swim.probe
  sent : h.sent <+: h'.sent

instance : IsPreorder Host Fixed where
  refl h := ⟨rfl, rfl, rfl, rfl, List.prefix_refl h.sent⟩
  trans _ _ _ h h' := ⟨h'.1.trans h.1, h'.2.trans h.2, h'.3.trans h.3, h'.4.trans h.4, h.5.trans h'.5⟩

/-- The view has not become smaller, and the array is larger only if more than half of it is in use;
while the view has its size, the schedule is kept. -/
structure Stored (h h' : Host) : Prop where
  size_le : h.swim.viewSize ≤ h'.swim.viewSize
  room : h'.swim.viewCapacity = h.swim.viewCapacity ∨
    h'.swim.viewCapacity + 2 ≤ 2 * h'.swim.viewSize
  kept : h'.swim.viewSize = h.swim.viewSize →
    h'.swim.uuids = h.swim.uuids ∧ h'.swim.probe = h.swim.probe

instance : IsPreorder Host Stored where
  refl h := ⟨le_rfl, .inl rfl, fun _ => ⟨rfl, rfl⟩⟩
  trans a b c h h' := by
    refine ⟨h.size_le.trans h'.size_le, ?_, fun hsize => ?_⟩
    · rcases h'.room with hsame | hroom
      · rw [hsame]
        exact h.room.imp_right fun hroom => hroom.trans (Nat.mul_le_mul_left 2 h'.size_le)
      · exact .inr hroom
    · have hle := h.size_le
      have hle' := h'.size_le
      obtain ⟨huuids, hprobe⟩ := h.kept (by omega)
      obtain ⟨huuids', hprobe'⟩ := h'.kept (by omega)
      exact ⟨huuids'.trans huuids, hprobe'.trans hprobe⟩

variable {h h' : Host} {fault : Fault → Host → Prop}

theorem Fixed.of_swim (hs : h'.swim = h.swim) (hp : h.sent <+: h'.sent) : Fixed h h' := by
  constructor
  case sent => exact hp
  all_goals rw [hs]

theorem Fixed.stored (hf : Fixed h h') : Stored h h' :=
  ⟨hf.viewSize.ge, .inl hf.viewCapacity, fun _ => ⟨hf.uuids, hf.probe⟩⟩

theorem stored_of_fixed {α : Type} {m : SwimM α} (hm : Keeps Fixed m) : Keeps Stored m :=
  hm.mono fun _ _ => Fixed.stored

/-! ## What rewrites entries and sends -/

section

theorem fixed_getSwim : Keeps Fixed getSwim := keeps_get.bind fun _ => keeps_pure _

theorem fixed_rand : Keeps Fixed rand := fun h => .of_swim rfl (List.prefix_refl h.sent)
theorem fixed_time : Keeps Fixed time := fun h => .of_swim rfl (List.prefix_refl h.sent)
theorem fixed_malloc : Keeps Fixed malloc := fun h => .of_swim rfl (List.prefix_refl h.sent)

theorem fixed_assert (a : Assertion) (c : Prop) [Decidable c] : Keeps Fixed (assert a c) :=
  keeps_require _ c

theorem fixed_sendEvent (event : Event) (dest : SockAddr) : Keeps Fixed (swimSendEvent event dest) :=
  fun h => .of_swim rfl (List.prefix_append h.sent _)

theorem fixed_nodeAt (i : ℕ) : Keeps Fixed (nodeAt i) := by
  refine fixed_getSwim.bind fun s => ?_
  cases s.view[i]? with
  | none => exact keeps_throw _
  | some node => exact keeps_pure node

theorem fixed_getNode (u : Uuid) : Keeps Fixed (swimStateGetNode u) :=
  fixed_getSwim.bind fun _ => keeps_pure _

theorem fixed_modifyNode (i : ℕ) {f : NodeState → NodeState} (hf : ∀ n, (f n).uuid = n.uuid) :
    Keeps Fixed (modifyNode i f) :=
  fun h => ⟨h.swim.modifyNode_uuids i hf, rfl, rfl, rfl, List.prefix_refl h.sent⟩

theorem fixed_eventInit (type : EventType) : Keeps Fixed (swimEventInit type) :=
  fixed_getSwim.bind fun _ => fixed_time.bind fun _ => keeps_pure _

theorem fixed_chooseGossip (count : ℕ) : Keeps Fixed (chooseGossip count) := by
  refine fixed_getSwim.bind fun s => keeps_ite (fun _ => ?_) fun _ => ?_
  · exact keeps_mapM _ fun i => (fixed_nodeAt i).bind fun _ => keeps_pure _
  · exact keeps_mapM _ fun i =>
      fixed_rand.bind fun _ => (fixed_nodeAt _).bind fun _ => keeps_pure _

theorem fixed_send (body : EventBody) (dest : SockAddr) : Keeps Fixed (sendWithGossip body dest) := by
  have hcreate (type : EventType) (count : ℕ) : Keeps Fixed (swimEventCreate type count) :=
    (fixed_assert _ _).bind fun _ => (fixed_assert _ _).bind fun _ => fixed_malloc.bind fun _ =>
      keeps_ite (fun _ => (fixed_eventInit type).bind fun _ => keeps_pure _) fun _ => keeps_pure _
  refine fixed_getSwim.bind fun s => (hcreate _ _).bind fun r => ?_
  cases r with
  | none => exact keeps_throw _
  | some event =>
    exact ((fixed_assert _ _).bind fun _ => (fixed_chooseGossip _).bind fun _ => keeps_pure _).bind
      fun _ => fixed_sendEvent _ _

theorem fixed_notice (uuid : Uuid) (t : ℤ) (incarnation : ℕ) :
    Keeps Fixed (swimStateNotice uuid t incarnation) := by
  refine (fixed_getNode uuid).bind fun r => ?_
  cases r with
  | none => exact keeps_pure none
  | some i =>
    exact (fixed_nodeAt i).bind fun _ => (fixed_assert _ _).bind fun _ =>
      (fixed_modifyNode i fun n => n.notice_uuid t incarnation).bind fun _ => keeps_pure _

theorem fixed_pingReq (u : Uuid) (addr : SockAddr) : Keeps Fixed (swimProcessPingReq u addr) := by
  have hsuspect : Keeps Fixed (swimStateSuspect u addr) := by
    refine (fixed_getNode u).bind fun r => ?_
    cases r with
    | none => exact keeps_pure none
    | some i => exact (fixed_modifyNode i fun n => n.suspect_uuid addr).bind fun _ => keeps_pure _
  refine hsuspect.bind fun r => ?_
  cases r with
  | none => exact keeps_pure _
  | some i => exact (fixed_nodeAt i).bind fun _ => fixed_send _ _

theorem fixed_ackSwitch (u : Uuid) (i : ℕ) : Keeps Fixed (ackSwitch u i) := by
  refine (fixed_nodeAt i).bind fun entry => ?_
  have hrefute : Keeps Fixed (swimClusterRefutedDead i) := fixed_modifyNode i fun n => n.refute_uuid
  cases entry.info.status with
  | suspect =>
    exact keeps_ite (fun _ => (fixed_send _ _).bind fun _ =>
      (fixed_modifyNode i (f := swimNodeResetWitness) fun n => rfl).bind fun _ => hrefute)
        fun _ => hrefute
  | unknown => exact hrefute
  | dead | alive | other => exact keeps_pure _

theorem fixed_clusterJoin (addr : SockAddr) : Keeps Fixed (swimClusterJoin addr) :=
  (fixed_eventInit _).bind fun _ => fixed_getSwim.bind fun _ => fixed_sendEvent _ _

theorem fixed_clusterLeave : Keeps Fixed swimClusterLeave :=
  fixed_getSwim.bind fun _ => keeps_ite (fun _ => keeps_pure _) fun _ => fixed_rand.bind fun _ =>
    (fixed_eventInit _).bind fun _ => keeps_forM _ fun _ => (fixed_nodeAt _).bind fun _ =>
      fixed_sendEvent _ _

theorem fixed_heartbeatMember (now : ℤ) (i : ℕ) : Keeps Fixed (heartbeatMember now i) := by
  have hsuspect : Keeps Fixed (swimClusterSuspectDead i) :=
    fixed_getSwim.bind fun _ => keeps_ite (fun _ => keeps_pure _) fun _ => fixed_rand.bind fun _ =>
      (fixed_nodeAt i).bind fun _ => (fixed_modifyNode i fun n => n.suspectDead_uuid).bind fun _ =>
        keeps_forM _ fun _ => (fixed_nodeAt _).bind fun _ =>
          keeps_ite (fun _ => fixed_send _ _) fun _ => keeps_pure _
  refine (fixed_nodeAt i).bind fun candidate => ?_
  cases candidate.info.status with
  | alive => exact keeps_ite (fun _ => hsuspect) fun _ => keeps_pure _
  | suspect =>
    exact keeps_ite (fun _ => fixed_modifyNode i fun n => n.del_uuid) fun _ => keeps_pure _
  | dead | unknown | other => exact keeps_pure _

end

/-! ## What inserts -/

section

/-- The array is doubled when it is full, and holds one more member then. -/
theorem stored_add (info : NodeInfo) : Keeps Stored (swimStateAdd info) := by
  intro h
  simp only [swimStateAdd, growView, wp_bind, wp_getSwim, wp_assert]
  split_ifs with hself hnode hfull
  · rw [wp_bind]
    apply wp_reallocView
    intro h₁ hq
    cases h.env.reallocView 0 with
    | none => exact (Fixed.of_swim hq.1 (by rw [hq.2.1])).stored
    | some junk =>
      have hcap : 2 * h.swim.viewCapacity + 2 ≤ 2 * (h.swim.viewSize + 1) := by omega
      refine ⟨?_, .inr ?_, fun hsize => ?_⟩
      all_goals simp only [hq.1, SWIM.insert, SWIM.grow] at *
      · exact Nat.le_succ _
      · exact hcap
      · omega
  · refine ⟨Nat.le_succ _, .inl rfl, fun hsize => ?_⟩
    simp only [SWIM.insert] at hsize
    omega

theorem stored_gossip (gossip : List NodeInfo) : Keeps Stored (swimProcessGossip gossip) := by
  have hmerge (info : NodeInfo) : Keeps Stored (swimStateMerge info) := by
    refine (stored_of_fixed fixed_getSwim).bind fun s => keeps_ite (fun _ => keeps_pure _) fun _ => ?_
    refine (stored_of_fixed (fixed_getNode info.uuid)).bind fun r => ?_
    cases r with
    | none => exact (stored_add info).bind fun _ => keeps_pure _
    | some i => exact stored_of_fixed (fixed_modifyNode i fun n => n.merge_uuid info)
  refine keeps_forM gossip fun info => (stored_of_fixed (fixed_assert _ _)).bind fun _ =>
    (stored_of_fixed fixed_getSwim).bind fun s => keeps_ite (fun _ => ?_) fun _ => hmerge info
  cases info.status with
  | dead => exact keeps_throw _
  | suspect => exact fun h => ⟨le_rfl, .inl rfl, fun _ => ⟨rfl, rfl⟩⟩
  | alive | unknown => exact keeps_pure _
  | other => exact hmerge info

theorem stored_ack (event : Event) (u : Uuid) (addr : SockAddr) :
    Keeps Stored (swimProcessAck event u addr) := by
  have hnode : Keeps Stored (ackNode event u addr) := by
    refine (stored_of_fixed (fixed_getNode u)).bind fun r => ?_
    cases r with
    | none => exact stored_add _
    | some i => exact keeps_pure _
  refine (stored_of_fixed fixed_getSwim).bind fun s => keeps_ite (fun _ => keeps_pure _) fun _ => ?_
  refine hnode.bind fun r => ?_
  cases r with
  | none => exact keeps_throw _
  | some i => exact (stored_of_fixed (fixed_ackSwitch u i)).bind fun _ => stored_gossip event.gossip

theorem stored_join (event : Event) (u : Uuid) (joinAddr addr : SockAddr) :
    Keeps Stored (swimProcessJoin event u joinAddr addr) := by
  have hanswer : Keeps Fixed (do
      forM (List.range (← getSwim).viewSize) fun i => do
        let node ← nodeAt i
        swimSendEvent { event with body := .join u (fillJoinAddr joinAddr addr) } node.info.addr
      swimSendAck (← getSwim).uuid addr) :=
    fixed_getSwim.bind fun _ => (keeps_forM _ fun i =>
      (fixed_nodeAt i).bind fun _ => fixed_sendEvent _ _).bind fun _ =>
        fixed_getSwim.bind fun _ => fixed_send _ _
  exact (stored_of_fixed fixed_getSwim).bind fun _ => keeps_ite (fun _ => keeps_pure _) fun _ =>
    keeps_ite (fun _ => keeps_pure _) fun _ => (stored_of_fixed (fixed_assert _ _)).bind fun _ =>
      (stored_add _).bind fun _ => stored_of_fixed hanswer

/-- A LEAVE of nobody in the view is only answered. -/
theorem wp_leaveStored {u : Uuid} {addr : SockAddr} (hwf : h.swim.WellFormed)
    (hu : h.swim.find u = none) :
    wp (swimProcessLeave u addr) (fun _ => Stored h) (fun _ _ => True) h := by
  have hanswer : wp (swimSendAck h.swim.uuid addr) (fun _ => Stored h) (fun _ _ => True) h :=
    stored_of_fixed (fixed_send _ _) h
  simp only [swimProcessLeave, swimStateDel, swimStateGetNode, wp_bind, wp_getSwim]
  refine wp_ite (fun _ => ?_) fun _ => ?_
  · rw [wp_pure]
    exact hanswer
  · rw [wp_bind, wp_bind, wp_getSwim, wp_pure, hwf.getNode_eq_none.mpr hu, wp_pure]
    exact hanswer

/-- Every event but a LEAVE of a member keeps the schedule, or makes the view grow. -/
theorem wp_eventStored {e : Event} {addr : SockAddr} (hwf : h.swim.WellFormed)
    (hleave : ∀ u, e.body = .leave u → h.swim.find u = none) :
    wp (swimProcessEvent e addr) (fun _ => Stored h) (fun _ _ => True) h := by
  have hnotice : wp (swimStateNotice e.hdr.uuid e.hdr.time e.hdr.incarnation)
      (fun _ => Noticed e h) (fun _ _ => True) h :=
    wp_noticed hwf (fun _ _ hn => hn) fun _ _ _ => trivial
  rw [swimProcessEvent, wp_bind]
  refine wp_mono (wp_and (stored_of_fixed (fixed_notice _ _ _) h) hnotice) ?_ fun _ _ _ => trivial
  rintro _ h₁ ⟨hstored, hnoticed⟩
  refine wp_mono (?_ : wp (dispatch e addr) (fun _ => Stored h₁) (fun _ _ => True) h₁)
    (fun _ _ => trans_of Stored hstored) fun _ _ _ => trivial
  rw [dispatch]
  cases hb : e.body with
  | ping =>
    exact (stored_of_fixed fixed_getSwim).bind
      (fun _ => (stored_of_fixed (fixed_send _ _)).bind fun _ => stored_gossip _) h₁
  | pingReq u => exact stored_of_fixed (fixed_pingReq u addr) h₁
  | ack u => exact stored_ack e u addr h₁
  | join u joinAddr => exact stored_join e u joinAddr addr h₁
  | leave u =>
    refine wp_leaveStored hnoticed.wf ?_
    rw [hnoticed.find, hleave u hb, Option.map_none]

end

/-! ## Turns -/

/-- A heartbeat has taken the turn `t`, and sent a PING to the member it serves. -/
structure Turned (t : Turn ℕ) (h h' : Host) : Prop where
  fresh : h.env.reallocOrder 0 = true → t.fresh.Perm (List.range h.swim.viewSize)
  skip : t.skip = h.swim.skips
  round : h'.swim.round = (t.next h.swim.round).2
  uuids : h'.swim.uuids = h.swim.uuids
  viewSize : h'.swim.viewSize = h.swim.viewSize
  viewCapacity : h'.swim.viewCapacity = h.swim.viewCapacity
  pinged : ∀ i n, (t.next h.swim.round).1 = some i → h.swim.members[i]? = some n →
    ∃ p ∈ h'.sent, p.event.body = .ping ∧ p.dest = n.info.addr

theorem SWIM.round_congr {s s' : SWIM} (hprobe : s'.probe = s.probe) (hsize : s'.viewSize = s.viewSize) :
    s'.round = s.round := by
  have hdue : s'.Due ↔ s.Due := by rw [SWIM.Due, SWIM.Due, hprobe, hsize]
  by_cases h : s.Due
  · rw [round_of_due h, round_of_due (hdue.mpr h)]
  · rw [round, round, if_neg h, if_neg (mt hdue.mp h), hprobe]

/-- A heartbeat that is not skipped takes a turn. -/
theorem wp_heartbeatTurn (hwf : h.swim.WellFormed) (hbeats : h.swim.Beats (h.env.time 0)) :
    wp swimClusterHeartbeat (fun _ h' => ∃ t, Turned t h h') (fun _ _ => True) h := by
  simp only [swimClusterHeartbeat, time, wp_bind, wp_get, wp_modify, wp_pure, wp_getSwim]
  refine wp_ite (fun _ => ?_) fun hno => absurd hbeats hno
  rw [wp_bind]
  refine wp_swimProbeNext (h := { h with env := { h.env with time := fun n => h.env.time (n + 1) } })
    hwf fun target h₁ hprobed => ?_
  obtain ⟨fresh, hfresh, hturn⟩ := hprobed.turn
  have hmembers : h₁.swim.members = h.swim.members := hprobed.scheduled.members
  -- what follows the probe leaves the schedule as the probe has left it
  have hturned (h₂ h' : Host) (hswim : h₂.swim = { h₁.swim with lastHeartbeat := h.env.time 0 })
      (hf : Fixed h₂ h') (hsent : ∀ i n, target = some i → h.swim.members[i]? = some n →
        ∃ p ∈ h₂.sent, p.event.body = .ping ∧ p.dest = n.info.addr) :
      Turned ⟨h.swim.skips, fresh⟩ h h' := by
    have hnext : Turn.next ⟨h.swim.skips, fresh⟩ h.swim.round = (target, h₁.swim.round) := hturn
    refine ⟨hfresh, rfl, ?_, ?_, ?_, ?_, ?_⟩
    · rw [hnext, SWIM.round_congr hf.probe hf.viewSize, hswim]
      rfl
    · rw [hf.uuids, hswim, SWIM.uuids, SWIM.uuids, ← hmembers]
      rfl
    · rw [hf.viewSize, hswim]
      change h₁.swim.viewSize = h.swim.viewSize
      rw [hprobed.scheduled.swim]
    · rw [hf.viewCapacity, hswim]
      change h₁.swim.viewCapacity = h.swim.viewCapacity
      rw [hprobed.scheduled.swim]
    · intro i n hi hn
      rw [hnext] at hi
      obtain ⟨p, hp, hping⟩ := hsent i n hi hn
      exact ⟨p, hf.sent.subset hp, hping⟩
  have hloop : Keeps Fixed (forM (List.range h.swim.viewSize) (heartbeatMember (h.env.time 0))) :=
    keeps_forM _ fun i => fixed_heartbeatMember _ i
  rw [wp_bind, wp_modifySwim]
  cases target with
  | none =>
    refine wp_mono (hloop _) (fun _ h' hf => ⟨_, hturned _ h' rfl hf ?_⟩) fun _ _ _ => trivial
    rintro i n ⟨⟩
  | some i =>
    obtain ⟨n, hn, -⟩ := hprobed.target
    have hn₁ : ({ h₁ with swim := { h₁.swim with lastHeartbeat := h.env.time 0 } } :
        Host).swim.members[i]? = some n := by
      rw [← hmembers] at hn
      exact hn
    rw [wp_bind, wp_nodeAt hn₁, wp_bind]
    refine wp_sendWithGossip_copies hprobed.wf.size_le_length
      (fun h₂ time gossip _ hswim _ _ hsent => ?_) fun _ _ _ => trivial
    refine wp_mono (hloop h₂) (fun _ h' hf => ⟨_, hturned h₂ h' hswim hf ?_⟩) fun _ _ _ => trivial
    intro j m hj hm
    obtain rfl := Option.some.inj hj
    obtain rfl := Option.some.inj (hm.symm.trans hn)
    exact ⟨_, by rw [hsent]; exact List.mem_append_right _ (List.mem_singleton.mpr rfl), rfl, rfl⟩

end LibSwim
