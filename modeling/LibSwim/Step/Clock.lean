import LibSwim.Step.Calls

/-! # The packets of a call and the times in them

What holds of every packet at the moment it is sent holds of all packets of the call, whatever happens
to the view, and also when the call does not return. A node stamps what it builds with its own clock;
a JOIN that is sent on keeps the stamp it came with. So what holds of all readings of the clock, and of
the time in the event that is processed, holds of the time in every packet sent.
-/

namespace LibSwim

open Foundations Program

/-- All readings of the clock satisfy `T`, and all packets sent satisfy `Q`. -/
def Outbox (T : ℤ → Prop) (Q : Packet → Prop) (h : Host) : Prop :=
  (∀ k, T (h.env.time k)) ∧ ∀ p ∈ h.sent, Q p

section

variable {T : ℤ → Prop} {Q : Packet → Prop}

/-! ## Libc and the view -/

theorem outbox_getSwim : Maintains (Outbox T Q) getSwim := maintains_get.bind fun _ => maintains_pure _

theorem outbox_modifySwim (f : SWIM → SWIM) : Maintains (Outbox T Q) (modifySwim f) :=
  maintains_modify fun _ h => h

theorem outbox_modifyNode (i : ℕ) (f : NodeState → NodeState) : Maintains (Outbox T Q) (modifyNode i f) :=
  outbox_modifySwim _

theorem outbox_rand : Maintains (Outbox T Q) rand := fun _ h => h
theorem outbox_reallocOrder : Maintains (Outbox T Q) reallocOrder := fun _ h => h
theorem outbox_reallocView : Maintains (Outbox T Q) reallocView := fun _ h => h

theorem outbox_assert (a : Assertion) (c : Prop) [Decidable c] : Maintains (Outbox T Q) (assert a c) :=
  maintains_require _ c

theorem outbox_nodeAt (i : ℕ) : Maintains (Outbox T Q) (nodeAt i) := by
  refine outbox_getSwim.bind fun s => ?_
  cases s.view[i]? with
  | none => exact maintains_throw _
  | some node => exact maintains_pure node

theorem outbox_getNode (u : Uuid) : Maintains (Outbox T Q) (swimStateGetNode u) :=
  outbox_getSwim.bind fun _ => maintains_pure _

theorem outbox_sendEvent {event : Event} {dest : SockAddr} (he : Q ⟨event, dest⟩) :
    Maintains (Outbox T Q) (swimSendEvent event dest) := by
  refine maintains_modify fun h ht => ⟨ht.1, ?_⟩
  exact List.forall_mem_append.mpr ⟨ht.2, by simpa using he⟩

/-! ## Building and sending -/

/-- A new event is stamped with the clock. -/
theorem wp_eventInit_outbox (type : EventType) {h : Host} (ht : Outbox T Q h) :
    wp (swimEventInit type) (fun event h' => T event.hdr.time ∧ Outbox T Q h') (fun _ => Outbox T Q) h :=
  ⟨ht.1 0, fun k => ht.1 (k + 1), ht.2⟩

theorem outbox_chooseGossip (count : ℕ) : Maintains (Outbox T Q) (chooseGossip count) := by
  refine outbox_getSwim.bind fun s => maintains_ite (fun _ => ?_) fun _ => ?_
  · exact maintains_mapM _ fun i => (outbox_nodeAt i).bind fun _ => maintains_pure _
  · exact maintains_mapM _ fun i =>
      outbox_rand.bind fun _ => (outbox_nodeAt _).bind fun _ => maintains_pure _

theorem outbox_sendWithGossip {body : EventBody} {dest : SockAddr}
    (hQ : ∀ hdr gossip, T hdr.time → Q ⟨⟨hdr, body, gossip⟩, dest⟩) :
    Maintains (Outbox T Q) (sendWithGossip body dest) := by
  intro h ht
  simp only [sendWithGossip, swimEventCreate, malloc, wp_bind, wp_getSwim, wp_assert, wp_get,
    wp_modify, wp_pure]
  split_ifs
  · rw [wp_bind]
    refine wp_mono (wp_eventInit_outbox body.type ht) (fun event h₁ ht₁ => ?_) fun _ _ => id
    simp only [wp_pure, swimFillGossip, wp_bind, wp_assert]
    split_ifs
    · refine wp_mono (outbox_chooseGossip _ h₁ ht₁.2) (fun gossip h₂ ht₂ => ?_) fun _ _ => id
      exact outbox_sendEvent (hQ _ _ ht₁.1) h₂ ht₂
    · exact ht₁.2
  all_goals exact ht

/-! ## The view and the schedule -/

theorem outbox_add (info : NodeInfo) : Maintains (Outbox T Q) (swimStateAdd info) := by
  refine outbox_getSwim.bind fun s => (outbox_assert _ _).bind fun _ => (outbox_assert _ _).bind
    fun _ => ?_
  have hgrow : Maintains (Outbox T Q) growView := by
    refine outbox_getSwim.bind fun s => maintains_ite (fun _ => ?_) fun _ => maintains_pure _
    refine outbox_reallocView.bind fun r => ?_
    cases r with
    | none => exact maintains_pure _
    | some junk => exact (outbox_modifySwim _).bind fun _ => maintains_pure _
  refine hgrow.bind fun room => maintains_ite (fun _ => ?_) fun _ => maintains_pure _
  exact (outbox_modifySwim _).bind fun _ => (outbox_modifySwim _).bind fun _ => maintains_pure _

theorem outbox_merge (info : NodeInfo) : Maintains (Outbox T Q) (swimStateMerge info) := by
  refine outbox_getSwim.bind fun s => maintains_ite (fun _ => maintains_pure _) fun _ => ?_
  refine (outbox_getNode _).bind fun r => ?_
  cases r with
  | none => exact (outbox_add info).bind fun _ => maintains_pure _
  | some i => exact outbox_modifyNode i _

theorem outbox_notice (uuid : Uuid) (t : ℤ) (incarnation : ℕ) :
    Maintains (Outbox T Q) (swimStateNotice uuid t incarnation) := by
  refine (outbox_getNode uuid).bind fun r => ?_
  cases r with
  | none => exact maintains_pure none
  | some i =>
    exact (outbox_nodeAt i).bind fun _ => (outbox_assert _ _).bind fun _ =>
      (outbox_modifyNode i _).bind fun _ => maintains_pure _

theorem outbox_shuffleLoop (i : ℕ) (order : List ℕ) : Maintains (Outbox T Q) (shuffleLoop i order) := by
  induction i generalizing order with
  | zero => exact maintains_pure order
  | succ i ih => exact outbox_rand.bind fun r => ih _

theorem outbox_probeLoop (fuel : ℕ) : Maintains (Outbox T Q) (probeLoop fuel) := by
  induction fuel with
  | zero => exact maintains_pure none
  | succ fuel ih =>
    refine outbox_getSwim.bind fun s => ?_
    cases s.probe.order[s.probe.pos]? with
    | none => exact maintains_throw _
    | some idx =>
      refine (outbox_modifySwim _).bind fun _ => maintains_ite (fun _ => ?_) fun _ => ih
      exact (outbox_nodeAt idx).bind fun node => maintains_ite (fun _ => maintains_pure _) fun _ => ih

theorem outbox_probeNext : Maintains (Outbox T Q) swimProbeNext := by
  have hshuffle : Maintains (Outbox T Q) swimProbeShuffle := by
    refine outbox_getSwim.bind fun s => maintains_ite (fun _ => outbox_modifySwim _) fun _ => ?_
    refine outbox_reallocOrder.bind fun r => maintains_ite (fun _ => ?_) fun _ => maintains_pure _
    exact (outbox_shuffleLoop _ _).bind fun _ => outbox_modifySwim _
  refine outbox_getSwim.bind fun s => maintains_ite (fun _ => maintains_pure none) fun _ => ?_
  refine maintains_ite (fun _ => ?_) fun _ => ?_
  · exact hshuffle.bind fun _ => outbox_getSwim.bind fun _ => outbox_probeLoop _
  · exact outbox_getSwim.bind fun _ => outbox_probeLoop _

theorem outbox_gossip (gossip : List NodeInfo) : Maintains (Outbox T Q) (swimProcessGossip gossip) := by
  refine maintains_forM gossip fun info => (outbox_assert _ _).bind fun _ => ?_
  refine outbox_getSwim.bind fun s => maintains_ite (fun _ => ?_) fun _ => outbox_merge info
  cases info.status with
  | dead => exact maintains_throw _
  | suspect => exact outbox_modifySwim _
  | alive | unknown => exact maintains_pure _
  | other => exact outbox_merge info

/-- The loop of a heartbeat sends requests only. -/
theorem outbox_heartbeatLoop (now : ℤ) (is : List ℕ)
    (hQ : ∀ hdr u gossip dest, T hdr.time → Q ⟨⟨hdr, .pingReq u, gossip⟩, dest⟩) :
    Maintains (Outbox T Q) (forM is (heartbeatMember now)) := by
  refine maintains_forM _ fun i => (outbox_nodeAt i).bind fun candidate => ?_
  cases candidate.info.status with
  | alive =>
    refine maintains_ite (fun _ => ?_) fun _ => maintains_pure _
    refine outbox_getSwim.bind fun s => maintains_ite (fun _ => maintains_pure _) fun _ => ?_
    refine outbox_rand.bind fun r => (outbox_nodeAt i).bind fun entry =>
      (outbox_modifyNode i _).bind fun _ => maintains_forM _ fun k => ?_
    refine (outbox_nodeAt _).bind fun node => maintains_ite (fun _ => ?_) fun _ => maintains_pure _
    exact outbox_sendWithGossip fun hdr gossip ht => hQ hdr _ gossip _ ht
  | suspect => exact maintains_ite (fun _ => outbox_modifyNode i _) fun _ => maintains_pure _
  | dead | unknown | other => exact maintains_pure _

end

/-! ## Calls -/

/-- The time in every packet sent is one that the clock shows, or satisfies what it satisfies. -/
abbrev Timely (T : ℤ → Prop) (h : Host) : Prop := Outbox T (fun p => T p.event.hdr.time) h

section

variable {T : ℤ → Prop}

theorem timely_sendWithGossip (body : EventBody) (dest : SockAddr) :
    Maintains (Timely T) (sendWithGossip body dest) := outbox_sendWithGossip fun _ _ ht => ht

theorem timely_ackSwitch (u : Uuid) (i : ℕ) : Maintains (Timely T) (ackSwitch u i) := by
  refine (outbox_nodeAt i).bind fun entry => ?_
  cases entry.info.status with
  | suspect =>
    refine maintains_ite (fun _ => ?_) fun _ => ?_
    · exact (timely_sendWithGossip _ _).bind fun _ => (outbox_modifyNode i _).bind
        fun _ => outbox_modifyNode i _
    · exact outbox_modifyNode i _
  | unknown => exact outbox_modifyNode i _
  | dead | alive | other => exact maintains_pure _

theorem timely_ack (event : Event) (u : Uuid) (addr : SockAddr) :
    Maintains (Timely T) (swimProcessAck event u addr) := by
  refine outbox_getSwim.bind fun s => maintains_ite (fun _ => maintains_pure _) fun _ => ?_
  have hnode : Maintains (Timely T) (ackNode event u addr) := by
    refine (outbox_getNode u).bind fun r => ?_
    cases r with
    | none => exact outbox_add _
    | some i => exact maintains_pure _
  refine hnode.bind fun r => ?_
  cases r with
  | none => exact maintains_throw _
  | some i => exact (timely_ackSwitch u i).bind fun _ => outbox_gossip _

/-- The one packet that does not carry the time of its sender is a JOIN sent on. -/
theorem timely_join {event : Event} (he : T event.hdr.time) (u : Uuid) (joinAddr addr : SockAddr) :
    Maintains (Timely T) (swimProcessJoin event u joinAddr addr) := by
  refine outbox_getSwim.bind fun s => maintains_ite (fun _ => maintains_pure _) fun _ => ?_
  refine maintains_ite (fun _ => maintains_pure _) fun _ => ?_
  refine (outbox_assert _ _).bind fun _ => (outbox_add _).bind fun _ => outbox_getSwim.bind fun s' => ?_
  refine (maintains_forM _ fun i => (outbox_nodeAt i).bind fun node => ?_).bind fun _ =>
    outbox_getSwim.bind fun _ => timely_sendWithGossip _ _
  exact outbox_sendEvent he

theorem timely_event {event : Event} (he : T event.hdr.time) (addr : SockAddr) :
    Maintains (Timely T) (swimProcessEvent event addr) := by
  refine (outbox_notice _ _ _).bind fun _ => ?_
  unfold dispatch
  cases event.body with
  | ping => exact outbox_getSwim.bind fun _ => (timely_sendWithGossip _ _).bind fun _ => outbox_gossip _
  | pingReq u =>
    refine Maintains.bind ((outbox_getNode u).bind fun r => ?_) fun r => ?_
    · cases r with
      | none => exact maintains_pure none
      | some i => exact (outbox_modifyNode i _).bind fun _ => maintains_pure _
    · cases r with
      | none => exact maintains_pure _
      | some i => exact (outbox_nodeAt i).bind fun _ => timely_sendWithGossip _ _
  | ack u => exact timely_ack event u addr
  | join u joinAddr => exact timely_join he u joinAddr addr
  | leave u =>
    refine Maintains.bind ?_ fun _ => outbox_getSwim.bind fun _ => timely_sendWithGossip _ _
    refine outbox_getSwim.bind fun _ => maintains_ite (fun _ => maintains_pure _) fun _ => ?_
    refine (outbox_getNode u).bind fun r => ?_
    cases r with
    | none => exact maintains_pure none
    | some i =>
      exact (outbox_modifyNode i _).bind fun _ => (outbox_modifySwim _).bind fun _ => maintains_pure _

theorem timely_heartbeat : Maintains (Timely T) swimClusterHeartbeat := by
  have htime : Maintains (Timely T) time := fun h ht => ⟨fun k => ht.1 (k + 1), ht.2⟩
  refine htime.bind fun now => outbox_getSwim.bind fun s =>
    maintains_ite (fun _ => ?_) fun _ => maintains_pure _
  refine outbox_probeNext.bind fun target => (outbox_modifySwim _).bind fun _ => ?_
  have hloop : Maintains (Timely T) (forM (List.range s.viewSize) (heartbeatMember now)) :=
    outbox_heartbeatLoop now _ fun _ _ _ _ ht => ht
  cases target with
  | none => exact hloop
  | some idx => exact (outbox_nodeAt idx).bind fun _ => (timely_sendWithGossip _ _).bind fun _ => hloop

theorem timely_clusterJoin (addr : SockAddr) : Maintains (Timely T) (swimClusterJoin addr) := by
  intro h ht
  rw [swimClusterJoin, wp_bind]
  refine wp_mono (wp_eventInit_outbox .join ht) (fun event h₁ ht₁ => ?_) fun _ _ => id
  exact outbox_getSwim.bind (fun _ => outbox_sendEvent ht₁.1) h₁ ht₁.2

theorem timely_clusterLeave : Maintains (Timely T) swimClusterLeave := by
  refine outbox_getSwim.bind fun s => maintains_ite (fun _ => maintains_pure _) fun _ => ?_
  refine outbox_rand.bind fun r => ?_
  intro h ht
  rw [wp_bind]
  refine wp_mono (wp_eventInit_outbox .leave ht) (fun event h₁ ht₁ => ?_) fun _ _ => id
  exact maintains_forM _ (fun i => (outbox_nodeAt _).bind fun _ => outbox_sendEvent ht₁.1) h₁ ht₁.2

/-- What the clock shows and what the event carries is what the packets carry. -/
theorem timely_program {action : Action}
    (ha : ∀ e addr, action = .event e addr → T e.hdr.time) : Maintains (Timely T) action.program := by
  cases action with
  | event e addr => exact timely_event (ha e addr rfl) addr
  | heartbeat => exact timely_heartbeat
  | join addr => exact timely_clusterJoin addr
  | leave => exact timely_clusterLeave

end

end LibSwim
