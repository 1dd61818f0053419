import LibSwim.Step.Handlers
import LibSwim.Step.Probe

/-! # The effects of the calls a node makes by itself

The probe schedule of `swim/state.c` and the functions of `swim/cluster.c`, run symbolically,
and with them the account of every call of the interface.
-/

namespace LibSwim

open Foundations Program

variable {env : Env} {s₀ : SWIM} {h h' : Host}
variable {post : Unit → Host → Prop}

/-! ## The probe -/

/-- The schedule and the clock of the node may change as long as the schedule fits the view. -/
theorem Heard.schedule {probe : ProbeSchedule} {t : ℤ} (hd : During env s₀ .heartbeat h)
    (hp : { h.swim with probe := probe }.ProbeOk) :
    During env s₀ .heartbeat
      { h with swim := { h.swim with probe := probe, lastHeartbeat := t } } :=
  hd.effect
    ⟨hd.wf.capacity_pos, hd.wf.length_eq, hd.wf.size_le, hd.wf.sorted, hd.wf.self_notMem, hp⟩
    (List.append_nil _).symm (.refl _) (fun _ => id) rfl (.idle rfl ⟨rfl, rfl⟩)

/-- The entries of the view are the same before and after. -/
def SameView (h h' : Host) : Prop :=
  h'.swim.members = h.swim.members ∧ h'.swim.viewSize = h.swim.viewSize

theorem Scheduled.sameView {probe : ProbeSchedule} (hs : Scheduled probe h h') : SameView h h' :=
  ⟨hs.members, by rw [hs.swim]⟩

theorem Heard.scheduled {probe : ProbeSchedule} (hd : During env s₀ .heartbeat h)
    (hs : Scheduled probe h h') (hwf : h'.swim.WellFormed) : During env s₀ .heartbeat h' :=
  hd.effect hwf (by rw [hs.sent, List.append_nil]) hs.later
    (fewerLeft_of_same hs.later (by rw [hs.swim]; rfl)) (by rw [hs.swim])
    (.idle (by rw [hs.swim]; rfl) (by rw [hs.swim]; exact ⟨rfl, rfl⟩))

/-- The target of a probe is a member. -/
theorem wp_probe {post : Option ℕ → Host → Prop} (hd : During env s₀ .heartbeat h)
    (hp : ∀ r h', During env s₀ .heartbeat h' → SameView h h' →
      (∀ i ∈ r, i < h.swim.viewSize) → post r h') :
    wp swimProbeNext post (Stopped env s₀ .heartbeat) h := by
  apply wp_swimProbeNext hd.wf
  intro r h' hprobed
  refine hp r h' (hd.scheduled hprobed.scheduled hprobed.wf) hprobed.scheduled.sameView ?_
  rintro i rfl
  obtain ⟨node, hi, -⟩ := hprobed.target
  exact SWIM.lt_viewSize hi

/-! ## Suspicion and death -/

/-- What a heartbeat at time `now` makes of an entry. -/
def NodeState.ticked (now : ℤ) (n : NodeState) : NodeState :=
  match n.info.status with
  | .alive => if n.info.lastSeen ≤ now - 60 then n.suspectDead else n
  | .suspect => if n.info.lastSeen ≤ now - 120 then n.del else n
  | .dead | .unknown | .other _ => n

@[simp] theorem NodeState.ticked_uuid (now : ℤ) (n : NodeState) : (n.ticked now).uuid = n.uuid := by
  unfold ticked
  split
  · split_ifs <;> rfl
  · split_ifs <;> rfl
  all_goals rfl

/-- The members are replaced; the view keeps its size and the clock its time. -/
structure Remade (members : List NodeState) (h h' : Host) : Prop where
  members : h'.swim.members = members
  viewSize : h'.swim.viewSize = h.swim.viewSize
  lastHeartbeat : h'.swim.lastHeartbeat = h.swim.lastHeartbeat

theorem remade_modifyNode (i : ℕ) (f : NodeState → NodeState) :
    Remade (h.swim.members.modify i f) h { h with swim := h.swim.modifyNode i f } :=
  ⟨SWIM.modifyNode_members f, rfl, rfl⟩

/-- The target is marked first, so no request goes to the target itself. -/
theorem wp_swimClusterSuspectDead {i : ℕ} {node : NodeState} (hd : During env s₀ .heartbeat h)
    (hi : h.swim.members[i]? = some node) (hs : node.info.status = .alive)
    (hl : node.info.lastSeen ≤ env.time 0 - 60)
    (hp : ∀ h', During env s₀ .heartbeat h' →
      Remade (h.swim.members.modify i NodeState.suspectDead) h h' → post () h') :
    wp (swimClusterSuspectDead i) post (Stopped env s₀ .heartbeat) h := by
  have hpos : 0 < h.swim.viewSize := (Nat.zero_le i).trans_lt (SWIM.lt_viewSize hi)
  simp only [swimClusterSuspectDead, wp_bind, wp_getSwim, if_neg hpos.ne']
  apply wp_rand
  intro r h₁ hq
  rw [← hq.1] at hi
  simp only [wp_nodeAt hi, wp_modifyNode]
  have hd₁ := (hd.quiet hq).modifyNode hi NodeState.suspectDead_uuid (.suspectDead hs hl)
  have htarget := List.mem_of_getElem? (SWIM.modifyNode_get (f := NodeState.suspectDead) hi)
  refine wp_mono (wp_forM (fun _ t => During env s₀ .heartbeat t ∧
      t.swim = h₁.swim.modifyNode i NodeState.suspectDead) ?_ ⟨hd₁, rfl⟩)
    (fun _ h' hd' => hp h' hd'.1 ?_) (fun _ _ hf => hf)
  · rintro sent _ t _ ⟨ht, hsame⟩
    have hlt : (r % h.swim.viewSize + sent) % h.swim.viewSize < t.swim.viewSize := by
      rw [hsame, ← hq.1]
      exact Nat.mod_lt _ (by rwa [hq.1])
    obtain ⟨peer, hpeer⟩ := ht.wf.get_of_lt hlt
    rw [wp_bind, wp_nodeAt hpeer]
    refine wp_ite (fun halive => ?_) fun _ => ⟨ht, hsame⟩
    rw [← hsame] at htarget
    have hreq : SendAct s₀ t.swim .heartbeat (.pingReq node.suspectDead.uuid) peer.info.addr :=
      .request htarget rfl (List.mem_of_getElem? hpeer) halive
    apply wp_send ht hreq
    exact fun h' hd' hs' => ⟨hd', hs'.trans hsame⟩
  · have hmade := remade_modifyNode (h := h) i NodeState.suspectDead
    constructor
    · rw [hd'.2, hq.1]
      exact hmade.members
    · rw [hd'.2, hq.1]
      rfl
    · rw [hd'.2, hq.1]
      rfl

/-- One round of the loop makes of its entry what a heartbeat makes of it. -/
theorem wp_heartbeatMember {i : ℕ} (hd : During env s₀ .heartbeat h)
    (hi : i < h.swim.viewSize)
    (hp : ∀ h', During env s₀ .heartbeat h' →
      Remade (h.swim.members.modify i (NodeState.ticked (env.time 0))) h h' → post () h') :
    wp (heartbeatMember (env.time 0) i) post (Stopped env s₀ .heartbeat) h := by
  obtain ⟨node, hn⟩ := hd.wf.get_of_lt hi
  have hkeep : node.ticked (env.time 0) = node → post () h := by
    intro ht
    refine hp h hd ⟨?_, rfl, rfl⟩
    rw [modify_congr hn (g := id) (by simpa using ht), List.modify_id]
  rw [heartbeatMember, wp_bind, wp_nodeAt hn]
  cases hs : node.info.status with
  | alive =>
    refine wp_ite (fun hl => ?_) fun hl => hkeep (by simp [NodeState.ticked, hs, hl])
    have hticked : node.ticked (env.time 0) = node.suspectDead := by simp [NodeState.ticked, hs, hl]
    rw [modify_congr hn hticked] at hp
    exact wp_swimClusterSuspectDead hd hn hs hl hp
  | suspect =>
    refine wp_ite (fun hl => ?_) fun hl => hkeep (by simp [NodeState.ticked, hs, hl])
    have hticked : node.ticked (env.time 0) = node.del := by simp [NodeState.ticked, hs, hl]
    rw [modify_congr hn hticked] at hp
    exact hp _ (hd.modifyNode hn NodeState.del_uuid (.declareDead hs hl)) (remade_modifyNode i _)
  | dead | unknown | other n => exact hkeep (by simp [NodeState.ticked, hs])

/-- The loop visits every member once. -/
theorem wp_heartbeatLoop (hd : During env s₀ .heartbeat h)
    (hp : ∀ h', During env s₀ .heartbeat h' →
      Remade (h.swim.members.map (NodeState.ticked (env.time 0))) h h' → post () h') :
    wp (forM (List.range h.swim.viewSize) (heartbeatMember (env.time 0))) post
      (Stopped env s₀ .heartbeat) h := by
  -- the members before index `k` have been visited
  refine wp_mono (wp_forM_range (fun k t => During env s₀ .heartbeat t ∧
    Remade (mapBefore (NodeState.ticked (env.time 0)) k h.swim.members) h t) ?_ ⟨hd, ?_⟩) ?_
    fun _ _ hf => hf
  · rintro k t hk ⟨ht, hmade⟩
    apply wp_heartbeatMember ht (hmade.viewSize ▸ hk)
    intro t' ht' hmade'
    refine ⟨ht', ?_, hmade'.viewSize.trans hmade.viewSize,
      hmade'.lastHeartbeat.trans hmade.lastHeartbeat⟩
    rw [hmade'.members, hmade.members, modify_mapBefore]
  · exact ⟨(mapBefore_zero _ _).symm, rfl, rfl⟩
  · rintro _ t ⟨ht, hmade⟩
    refine hp t ht ⟨?_, hmade.viewSize, hmade.lastHeartbeat⟩
    rw [hmade.members, ← hd.wf.members_length, mapBefore_length]

/-- Whether a heartbeat at time `now` does anything. -/
def SWIM.Beats (now : ℤ) (s : SWIM) : Prop :=
  0 < s.viewSize ∧ s.lastHeartbeat + swimHeartbeatInterval < now

instance (now : ℤ) (s : SWIM) : Decidable (s.Beats now) := inferInstanceAs (Decidable (_ ∧ _))

/-- The outcome of a heartbeat for the members and the clock. -/
structure Beaten (now : ℤ) (s s' : SWIM) : Prop where
  members : s'.members = if s.Beats now then s.members.map (NodeState.ticked now) else s.members
  lastHeartbeat : s'.lastHeartbeat = if s.Beats now then now else s.lastHeartbeat
  viewSize : s'.viewSize = s.viewSize

theorem wp_swimClusterHeartbeat (hd : During env s₀ .heartbeat h)
    (hnow : h.env.time 0 = env.time 0) :
    wp swimClusterHeartbeat
      (fun _ h' => During env s₀ .heartbeat h' ∧ Beaten (env.time 0) h.swim h'.swim)
      (Stopped env s₀ .heartbeat) h := by
  rw [swimClusterHeartbeat, wp_bind]
  apply wp_time
  intro h₁ hq _
  have hd₁ := hd.quiet hq
  rw [hnow, wp_bind, wp_getSwim, ← hq.1]
  refine wp_ite (fun (hbeat : h₁.swim.Beats (env.time 0)) => ?_)
    fun (hbeat : ¬ h₁.swim.Beats (env.time 0)) => ⟨hd₁, ?_⟩
  · rw [wp_bind]
    apply wp_probe hd₁
    intro target h₂ hd₂ hv htarget
    rw [wp_bind, wp_modifySwim]
    have hd₃ := hd₂.schedule (t := env.time 0) hd₂.wf.probe_ok
    have hloop : ∀ h', During env s₀ .heartbeat h' →
        h'.swim = { h₂.swim with lastHeartbeat := env.time 0 } →
        wp (forM (List.range h₁.swim.viewSize) (heartbeatMember (env.time 0)))
          (fun _ h' => During env s₀ .heartbeat h' ∧ Beaten (env.time 0) h₁.swim h'.swim)
          (Stopped env s₀ .heartbeat) h' := by
      intro h' hd' hs
      have hsize : h'.swim.viewSize = h₁.swim.viewSize := by rw [hs]; exact hv.2
      have hmem : h'.swim.members = h₁.swim.members := by rw [hs]; exact hv.1
      rw [← hsize]
      apply wp_heartbeatLoop hd'
      intro h'' hd'' hmade
      refine ⟨hd'', ?_, ?_, hmade.viewSize.trans hsize⟩
      · rw [if_pos hbeat, hmade.members, hmem]
      · rw [if_pos hbeat, hmade.lastHeartbeat, hs]
    cases target with
    | none => exact hloop _ hd₃ rfl
    | some idx =>
      obtain ⟨node, hn⟩ := hd₃.wf.get_of_lt (hv.2.symm ▸ htarget idx rfl)
      rw [wp_bind, wp_nodeAt hn, wp_bind]
      apply wp_send hd₃ (.probe (List.mem_of_getElem? hn))
      intro h' hd' hs'
      exact hloop h' hd' hs'
  · exact ⟨by rw [if_neg hbeat], by rw [if_neg hbeat], rfl⟩

/-! ## Joining and leaving -/

theorem wp_swimClusterJoin {addr : SockAddr} (hd : During env s₀ (.join addr) h) :
    wp (swimClusterJoin addr) (fun _ => During env s₀ (.join addr))
      (Stopped env s₀ (.join addr)) h := by
  simp only [swimClusterJoin, swimEventInit, swimSendEvent, wp_bind, wp_getSwim]
  apply wp_time
  intro h₁ hq _
  rw [← hq.1]
  have hd' := hd.quiet hq
  exact hd'.effect hd'.wf rfl (.refl _) (fun _ => id) rfl (.send .join hd'.raised (by simp) (Nat.zero_le _))

/-- What `swim_cluster_leave` sends. -/
def leaveEvent (s : SWIM) (time : ℤ) : Event :=
  ⟨⟨s.uuid, time, s.incarnation⟩, .leave Uuid.zero, []⟩

/-- Leaving keeps whatever each of its packets keeps: it changes nothing and cannot stop. -/
theorem wp_leaveLoop {fault : Fault → Host → Prop} {I : Host → Prop} (hwf : h.swim.WellFormed)
    (hquiet : ∀ t, Quiet h t → I t)
    (hsend : ∀ t time node, I t → t.swim = h.swim → node ∈ h.swim.members →
      I { t with sent := t.sent ++ [⟨leaveEvent h.swim time, node.info.addr⟩] }) :
    wp swimClusterLeave (fun _ => I) fault h := by
  simp only [swimClusterLeave, swimEventInit, swimSendEvent, wp_bind, wp_getSwim]
  refine wp_ite (fun _ => hquiet h (.refl h)) fun hpos => ?_
  rw [wp_bind]
  apply wp_rand
  intro r h₁ hq₁
  simp only [wp_bind, wp_getSwim]
  apply wp_time
  intro h₂ hq₂ _
  have hq := hq₁.trans hq₂
  rw [wp_pure]
  -- the loop reads the view and appends to what was sent
  refine wp_mono (wp_forM (fun _ t => t.swim = h.swim ∧ I t) ?_ ⟨hq.1, hquiet h₂ hq⟩)
    (fun _ _ ht => ht.2) fun _ _ hf => hf
  rintro i _ t - ⟨hs, ht⟩
  obtain ⟨node, hn⟩ := hwf.get_of_lt (i := (r % h.swim.viewSize + i) % h.swim.viewSize)
    (Nat.mod_lt _ (Nat.pos_of_ne_zero hpos))
  have hn' : t.swim.members[(r % h.swim.viewSize + i) % h.swim.viewSize]? = some node := by
    rwa [hs]
  rw [wp_bind, wp_nodeAt hn', wp_sendto, hq₁.1]
  exact ⟨hs, hsend t _ node ht hs (List.mem_of_getElem? hn)⟩

theorem wp_swimClusterLeave (hd : During env s₀ .leave h) :
    wp swimClusterLeave (fun _ => During env s₀ .leave) (Stopped env s₀ .leave) h := by
  refine wp_leaveLoop hd.wf (fun t hq => hd.quiet hq) fun t time node ht hs hn => ?_
  rw [← hs] at hn ⊢
  exact ht.effect ht.wf rfl (.refl _) (fun _ => id) rfl (.send (.leave hn) ht.raised (by simp) (Nat.zero_le _))

/-! ## Every call -/

/-- A call from a well-formed state does nothing but the effects listed for it, and stops only
for a cause listed for it. -/
theorem wp_program (env : Env) (action : Action) (hwf : s₀.WellFormed) :
    wp action.program (fun _ => Done env s₀ action)
      (Stopped env s₀ action) ⟨s₀, env, []⟩ := by
  have hd : During env s₀ action ⟨s₀, env, []⟩ := .start hwf
  cases action with
  | event e addr => exact wp_swimProcessEvent hd rfl
  | heartbeat =>
    exact wp_mono (wp_swimClusterHeartbeat hd rfl) (fun _ _ h => h.1) fun _ _ h => h
  | join addr => exact wp_swimClusterJoin hd
  | leave => exact wp_swimClusterLeave hd

end LibSwim
