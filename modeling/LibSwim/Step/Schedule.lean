import LibSwim.Step.Heartbeat
import Mathlib.Data.Finset.Card

/-! # The schedule across a call

A schedule names members by their index, so it says nothing once the view has been sorted anew.
Whatever a call does besides making a schedule, it keeps the schedule together with the members
it was made for, or invalidates it.
-/

namespace LibSwim

open Foundations Program

/-- The UUIDs of the members, by index. -/
def SWIM.uuids (s : SWIM) : List Uuid := s.members.map NodeState.uuid

theorem SWIM.WellFormed.nodup_uuids {s : SWIM} (hwf : s.WellFormed) : s.uuids.Nodup :=
  List.pairwise_map.mpr (hwf.sorted.imp fun hlt => hlt.ne)

theorem SWIM.mem_uuids {s : SWIM} (hwf : s.WellFormed) {v : Uuid} : v ∈ s.uuids ↔ s.find v ≠ none := by
  rw [SWIM.uuids, List.mem_map, Option.ne_none_iff_exists']
  simp only [hwf.find_eq_some]

/-- No UUID is in the view twice. -/
theorem SWIM.WellFormed.viewSize_le {s : SWIM} (hwf : s.WellFormed) {us : List Uuid}
    (h : ∀ v, s.find v ≠ none → v ∈ us) : s.viewSize ≤ us.length := by
  have hsub : s.uuids ⊆ us := fun v hv => h v ((SWIM.mem_uuids hwf).mp hv)
  have hlen := (List.subperm_of_subset hwf.nodup_uuids hsub).length_le
  rwa [SWIM.uuids, List.length_map, hwf.members_length] at hlen

/-- A view of nodes of `U` leaves out the node itself. -/
theorem SWIM.WellFormed.viewSize_lt {s : SWIM} {U : Finset Uuid} (hwf : s.WellFormed)
    (hself : s.uuid ∈ U) (hmembers : ∀ u, s.find u ≠ none → u ∈ U) : s.viewSize < U.card := by
  have hle : s.viewSize ≤ (U.erase s.uuid).toList.length := by
    refine hwf.viewSize_le fun v hv => Finset.mem_toList.mpr (Finset.mem_erase.mpr ⟨?_, hmembers v hv⟩)
    rintro rfl
    exact hv hwf.find_self
  rw [Finset.length_toList] at hle
  exact hle.trans_lt (Finset.card_erase_lt_of_mem hself)

/-- The schedule is the one made before, for members that are where they were. -/
def SameSchedule (s s' : SWIM) : Prop :=
  s'.probe.order = s.probe.order ∧ s'.probe.size = s.probe.size ∧ s'.uuids = s.uuids

/-- The schedule is the same or invalid. -/
def KeptSchedule (s s' : SWIM) : Prop := s'.probe.size = 0 ∨ SameSchedule s s'

theorem KeptSchedule.refl (s : SWIM) : KeptSchedule s s := .inr ⟨rfl, rfl, rfl⟩

theorem KeptSchedule.trans {s s' s'' : SWIM} (h : KeptSchedule s s') (h' : KeptSchedule s' s'') :
    KeptSchedule s s'' := by
  rcases h' with hzero | ⟨horder, hsize, huuids⟩
  · exact .inl hzero
  · rcases h with hzero | ⟨horder', hsize', huuids'⟩
    · exact .inl (hsize.trans hzero)
    · exact .inr ⟨horder.trans horder', hsize.trans hsize', huuids.trans huuids'⟩

/-- What no event and no part of a heartbeat but the probe touches. -/
structure Framed (h h' : Host) : Prop where
  lastHeartbeat : h'.swim.lastHeartbeat = h.swim.lastHeartbeat
  schedule : KeptSchedule h.swim h'.swim

instance : IsPreorder Host Framed where
  refl h := ⟨rfl, .refl h.swim⟩
  trans _ _ _ h h' := ⟨h'.1.trans h.1, h.2.trans h'.2⟩

theorem Framed.of_swim {h h' : Host} (hs : h'.swim = h.swim) : Framed h h' := by
  constructor
  · rw [hs]
  · rw [hs]
    exact .refl h.swim

/-! ## What leaves the node alone -/

section Outside

/-- Only libc was asked, and not for memory, or a packet was sent. -/
def Outside (h h' : Host) : Prop := h'.swim = h.swim ∧ h'.env.malloc = h.env.malloc

instance : IsPreorder Host Outside where
  refl _ := ⟨rfl, rfl⟩
  trans _ _ _ h h' := ⟨h'.1.trans h.1, h'.2.trans h.2⟩

theorem outside_getSwim : Keeps Outside getSwim := keeps_get.bind fun _ => keeps_pure _
theorem outside_rand : Keeps Outside rand := fun _ => ⟨rfl, rfl⟩
theorem outside_time : Keeps Outside time := fun _ => ⟨rfl, rfl⟩

theorem outside_sendto (event : Event) (dest : SockAddr) : Keeps Outside (sendto event dest) :=
  fun _ => ⟨rfl, rfl⟩

theorem outside_assert (a : Assertion) (c : Prop) [Decidable c] : Keeps Outside (assert a c) :=
  keeps_require _ c

theorem outside_nodeAt (i : ℕ) : Keeps Outside (nodeAt i) := by
  refine outside_getSwim.bind fun s => ?_
  cases s.view[i]? with
  | none => exact keeps_throw _
  | some node => exact keeps_pure node

theorem outside_eventInit (type : EventType) : Keeps Outside (swimEventInit type) :=
  outside_getSwim.bind fun _ => outside_time.bind fun _ => keeps_pure _

theorem outside_chooseGossip (count : ℕ) : Keeps Outside (chooseGossip count) := by
  refine outside_getSwim.bind fun s => keeps_ite (fun _ => ?_) fun _ => ?_
  · exact keeps_mapM _ fun i => (outside_nodeAt i).bind fun _ => keeps_pure _
  · exact keeps_mapM _ fun i =>
      outside_rand.bind fun _ => (outside_nodeAt _).bind fun _ => keeps_pure _

theorem outside_fillGossip (event : Event) (count : ℕ) : Keeps Outside (swimFillGossip event count) :=
  (outside_assert _ _).bind fun _ => (outside_chooseGossip _).bind fun _ => keeps_pure _

/-- A packet with gossip costs one `malloc`. -/
theorem wp_sendMalloc (body : EventBody) (dest : SockAddr) (h : Host) :
    wp (sendWithGossip body dest) (fun _ h' => h'.swim = h.swim ∧
      ∀ k, h'.env.malloc k = h.env.malloc (k + 1)) (fun _ _ => True) h := by
  simp only [sendWithGossip, swimEventCreate, malloc, wp_bind, wp_getSwim, wp_assert, wp_get,
    wp_modify, wp_pure]
  split_ifs
  · rw [wp_bind]
    refine wp_mono (outside_eventInit _ _) (fun event h₁ h₁' => ?_) fun _ _ _ => trivial
    rw [wp_pure, wp_bind]
    refine wp_mono (outside_fillGossip _ _ h₁) (fun event h₂ h₂' => ?_) fun _ _ _ => trivial
    refine wp_mono (outside_sendto event dest h₂) (fun _ h₃ h₃' => ?_) fun _ _ _ => trivial
    exact ⟨h₃'.1.trans (h₂'.1.trans h₁'.1), congrFun (h₃'.2.trans (h₂'.2.trans h₁'.2))⟩
  all_goals trivial

end Outside

/-! ## The functions the handlers are made of -/

section Primitives

theorem Outside.framed (h h' : Host) (ho : Outside h h') : Framed h h' := .of_swim ho.1

theorem keeps_getSwim : Keeps Framed getSwim := outside_getSwim.mono Outside.framed

theorem keeps_getNode (u : Uuid) : Keeps Framed (swimStateGetNode u) :=
  keeps_getSwim.bind fun _ => keeps_pure _

theorem keeps_rand : Keeps Framed rand := outside_rand.mono Outside.framed

theorem keeps_sendto (event : Event) (dest : SockAddr) : Keeps Framed (sendto event dest) :=
  (outside_sendto event dest).mono Outside.framed

theorem keeps_assert (a : Assertion) (c : Prop) [Decidable c] : Keeps Framed (assert a c) :=
  keeps_require _ c

theorem keeps_nodeAt (i : ℕ) : Keeps Framed (nodeAt i) := (outside_nodeAt i).mono Outside.framed

theorem keeps_eventInit (type : EventType) : Keeps Framed (swimEventInit type) :=
  (outside_eventInit type).mono Outside.framed

theorem keeps_sendWithGossip (body : EventBody) (dest : SockAddr) :
    Keeps Framed (sendWithGossip body dest) :=
  fun h => wp_mono (wp_sendMalloc body dest h) (fun _ _ hs => .of_swim hs.1) fun _ _ => id

theorem SWIM.modifyNode_uuids (s : SWIM) (i : ℕ) {f : NodeState → NodeState}
    (hf : ∀ n, (f n).uuid = n.uuid) : (s.modifyNode i f).uuids = s.uuids := by
  apply List.ext_getElem?
  intro j
  simp only [uuids, modifyNode_members, List.getElem?_map, List.getElem?_modify]
  split_ifs
  · simp [Function.comp_def, hf]
  · simp

theorem keeps_modifyNode (i : ℕ) {f : NodeState → NodeState} (hf : ∀ n, (f n).uuid = n.uuid) :
    Keeps Framed (modifyNode i f) := fun h => ⟨rfl, .inr ⟨rfl, rfl, h.swim.modifyNode_uuids i hf⟩⟩

theorem keeps_invalidate : Keeps Framed swimProbeInvalidate := fun _ => ⟨rfl, .inl rfl⟩

end Primitives

theorem keeps_notice (uuid : Uuid) (t : ℤ) (incarnation : ℕ) :
    Keeps Framed (swimStateNotice uuid t incarnation) := by
  refine (keeps_getNode uuid).bind fun r => ?_
  cases r with
  | none => exact keeps_pure none
  | some i =>
    exact (keeps_nodeAt i).bind fun _ => (keeps_assert _ _).bind fun _ =>
      (keeps_modifyNode i fun n => n.notice_uuid t incarnation).bind fun _ => keeps_pure _

theorem keeps_suspect (uuid : Uuid) (addr : SockAddr) :
    Keeps Framed (swimStateSuspect uuid addr) := by
  refine (keeps_getNode uuid).bind fun r => ?_
  cases r with
  | none => exact keeps_pure none
  | some i => exact (keeps_modifyNode i fun n => n.suspect_uuid addr).bind fun _ => keeps_pure _

/-- The view is sorted and the schedule invalidated, or nothing happens. -/
theorem keeps_add (info : NodeInfo) : Keeps Framed (swimStateAdd info) := by
  intro h
  simp only [swimStateAdd, growView, wp_bind, wp_getSwim, wp_assert]
  split_ifs with hself hnode hfull
  · rw [wp_bind]
    apply wp_reallocView
    intro h' hq
    cases h.env.reallocView 0 with
    | none => exact .of_swim hq.1
    | some junk =>
      exact ⟨by simp [hq.1, SWIM.insert, SWIM.grow], .inl rfl⟩
  · exact ⟨rfl, .inl rfl⟩

theorem keeps_merge (info : NodeInfo) : Keeps Framed (swimStateMerge info) := by
  refine keeps_getSwim.bind fun s => keeps_ite (fun _ => keeps_pure _) fun _ => ?_
  refine (keeps_getNode info.uuid).bind fun r => ?_
  cases r with
  | none => exact (keeps_add info).bind fun _ => keeps_pure _
  | some i => exact keeps_modifyNode i fun n => n.merge_uuid info

theorem keeps_del (uuid : Uuid) : Keeps Framed (swimStateDel uuid) := by
  refine keeps_getSwim.bind fun s => keeps_ite (fun _ => keeps_pure _) fun _ => ?_
  refine (keeps_getNode uuid).bind fun r => ?_
  cases r with
  | none => exact keeps_pure none
  | some i =>
    exact (keeps_modifyNode i fun n => n.del_uuid).bind fun _ =>
      keeps_invalidate.bind fun _ => keeps_pure _

/-! ## Events -/

theorem keeps_gossipEntry (info : NodeInfo) : Keeps Framed (processGossipEntry info) := by
  refine (keeps_assert _ _).bind fun _ => keeps_getSwim.bind fun s =>
    keeps_ite (fun _ => ?_) fun _ => keeps_merge info
  cases info.status with
  | dead => exact keeps_throw _
  | suspect => exact fun h => ⟨rfl, .inr ⟨rfl, rfl, rfl⟩⟩
  | alive | unknown => exact keeps_pure _
  | other => exact keeps_merge info

theorem keeps_gossip (gossip : List NodeInfo) : Keeps Framed (swimProcessGossip gossip) :=
  keeps_forM gossip keeps_gossipEntry

theorem keeps_ackSwitch (u : Uuid) (i : ℕ) : Keeps Framed (ackSwitch u i) := by
  refine (keeps_nodeAt i).bind fun entry => ?_
  have hrefute : Keeps Framed (swimClusterRefutedDead i) := keeps_modifyNode i fun n => n.refute_uuid
  cases entry.info.status with
  | suspect =>
    exact keeps_ite (fun _ => (keeps_sendWithGossip _ _).bind fun _ =>
      (keeps_modifyNode i (f := swimNodeResetWitness) fun n => rfl).bind fun _ => hrefute)
        fun _ => hrefute
  | unknown => exact hrefute
  | dead | alive | other => exact keeps_pure _

theorem keeps_ack (event : Event) (u : Uuid) (addr : SockAddr) :
    Keeps Framed (swimProcessAck event u addr) := by
  have hnode : Keeps Framed (ackNode event u addr) := by
    refine (keeps_getNode u).bind fun r => ?_
    cases r with
    | none => exact keeps_add _
    | some i => exact keeps_pure _
  refine keeps_getSwim.bind fun s => keeps_ite (fun _ => keeps_pure _) fun _ => ?_
  refine hnode.bind fun r => ?_
  cases r with
  | none => exact keeps_throw _
  | some i => exact (keeps_ackSwitch u i).bind fun _ => keeps_gossip event.gossip

theorem keeps_join (event : Event) (u : Uuid) (joinAddr addr : SockAddr) :
    Keeps Framed (swimProcessJoin event u joinAddr addr) :=
  keeps_getSwim.bind fun _ => keeps_ite (fun _ => keeps_pure _) fun _ =>
    keeps_ite (fun _ => keeps_pure _) fun _ => (keeps_assert _ _).bind fun _ =>
      (keeps_add _).bind fun _ => keeps_getSwim.bind fun _ =>
        (keeps_forM _ fun i => (keeps_nodeAt i).bind fun _ => keeps_sendto _ _).bind fun _ =>
          keeps_getSwim.bind fun _ => keeps_sendWithGossip _ _

theorem keeps_event (event : Event) (addr : SockAddr) :
    Keeps Framed (swimProcessEvent event addr) := by
  refine (keeps_notice _ _ _).bind fun _ => ?_
  rw [dispatch]
  cases event.body with
  | ping =>
    exact keeps_getSwim.bind fun _ => (keeps_sendWithGossip _ _).bind fun _ => keeps_gossip _
  | pingReq u =>
    refine (keeps_suspect u addr).bind fun r => ?_
    cases r with
    | none => exact keeps_pure _
    | some i => exact (keeps_nodeAt i).bind fun _ => keeps_sendWithGossip _ _
  | ack u => exact keeps_ack event u addr
  | join u joinAddr => exact keeps_join event u joinAddr addr
  | leave u =>
    exact (keeps_del u).bind fun _ => keeps_getSwim.bind fun _ => keeps_sendWithGossip _ _

/-! ## The calls a node makes by itself -/

theorem keeps_clusterJoin (addr : SockAddr) : Keeps Framed (swimClusterJoin addr) :=
  (keeps_eventInit _).bind fun _ => keeps_getSwim.bind fun _ => keeps_sendto _ _

theorem keeps_clusterLeave : Keeps Framed swimClusterLeave :=
  keeps_getSwim.bind fun _ => keeps_ite (fun _ => keeps_pure _) fun _ => keeps_rand.bind fun _ =>
    (keeps_eventInit _).bind fun _ => keeps_forM _ fun _ => (keeps_nodeAt _).bind fun _ =>
      keeps_sendto _ _

theorem keeps_suspectDead (i : ℕ) : Keeps Framed (swimClusterSuspectDead i) :=
  keeps_getSwim.bind fun _ => keeps_ite (fun _ => keeps_pure _) fun _ => keeps_rand.bind fun _ =>
    (keeps_nodeAt i).bind fun _ => (keeps_modifyNode i fun n => n.suspectDead_uuid).bind fun _ =>
      keeps_forM _ fun _ => (keeps_nodeAt _).bind fun _ =>
        keeps_ite (fun _ => keeps_sendWithGossip _ _) fun _ => keeps_pure _

theorem keeps_heartbeatMember (now : ℤ) (i : ℕ) : Keeps Framed (heartbeatMember now i) := by
  refine (keeps_nodeAt i).bind fun candidate => ?_
  cases candidate.info.status with
  | alive => exact keeps_ite (fun _ => keeps_suspectDead i) fun _ => keeps_pure _
  | suspect =>
    exact keeps_ite (fun _ => keeps_modifyNode i fun n => n.del_uuid) fun _ => keeps_pure _
  | dead | unknown | other => exact keeps_pure _

variable {fault : Fault → Host → Prop} {h h' : Host}

theorem Probed.keptSchedule {r : Option ℕ} (hp : Probed h r h') (hno : ¬ h.Shuffles) :
    KeptSchedule h.swim h'.swim := by
  obtain ⟨horder, hsize⟩ := hp.kept hno
  refine .inr ⟨horder, hsize, ?_⟩
  rw [SWIM.uuids, hp.scheduled.members, SWIM.uuids]

/-- A heartbeat makes a schedule only by its probe. -/
theorem wp_heartbeatSchedule (hwf : h.swim.WellFormed) :
    wp swimClusterHeartbeat (fun _ h' => ¬ (h.swim.Beats (h.env.time 0) ∧ h.Shuffles) →
      KeptSchedule h.swim h'.swim) (fun _ _ => True) h := by
  simp only [swimClusterHeartbeat, time, wp_bind, wp_get, wp_modify, wp_pure, wp_getSwim]
  refine wp_ite (fun (hbeat : h.swim.Beats (h.env.time 0)) => ?_) fun _ _ => .refl _
  rw [wp_bind]
  refine wp_swimProbeNext ?_ fun r h₁ hprobed => ?_
  · exact hwf
  have hkept (hno : ¬ (h.swim.Beats (h.env.time 0) ∧ h.Shuffles)) : KeptSchedule h.swim h₁.swim :=
    hprobed.keptSchedule fun hyes => hno ⟨hbeat, hyes⟩
  -- nothing that follows the probe touches the schedule
  have htail (m : SwimM Unit) (hm : Keeps Framed m) :
      wp m (fun _ h' => ¬ (h.swim.Beats (h.env.time 0) ∧ h.Shuffles) → KeptSchedule h.swim h'.swim)
        (fun _ _ => True) { h₁ with swim := { h₁.swim with lastHeartbeat := h.env.time 0 } } :=
    wp_mono (hm _) (fun _ _ ht hno => (hkept hno).trans ht.schedule) fun _ _ => id
  have hloop : Keeps Framed (forM (List.range h.swim.viewSize) (heartbeatMember (h.env.time 0))) :=
    keeps_forM _ fun i => keeps_heartbeatMember _ i
  rw [wp_bind, wp_modifySwim]
  cases r with
  | none => exact htail _ hloop
  | some i =>
    exact htail _ ((keeps_nodeAt i).bind fun _ => (keeps_sendWithGossip _ _).bind fun _ => hloop)

end LibSwim
