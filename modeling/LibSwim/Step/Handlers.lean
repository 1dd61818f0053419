import LibSwim.Step.Calls

/-! # The effects of an event

The functions of `swim/process.c`, run symbolically from any state that satisfies the
representation invariant.
-/

namespace LibSwim

open Foundations Program

/-- What holds at every moment of a call that began in `s₀`, after `k` suspicions. -/
structure Heard (k : ℕ) (env : Env) (s₀ : SWIM) (action : Action) (h : Host) : Prop where
  wf : h.swim.WellFormed
  reached : Reached env s₀ action h.swim h.sent
  later : env.Later h.env
  left : ∀ slot, Leftover h.env h.swim slot → Leftover env s₀ slot
  raised : h.swim.incarnation = s₀.raised k

/-- What holds until the gossip is read, which every handler does last. -/
abbrev During : Env → SWIM → Action → Host → Prop := Heard 0

/-- What holds at the end of a call. -/
abbrev Done (env : Env) (s₀ : SWIM) (action : Action) : Host → Prop :=
  Heard (action.raises s₀) env s₀ action

/-- A call that stops has a cause, and what it did before is still accounted for. -/
def Stopped (env : Env) (s₀ : SWIM) (action : Action) (f : Fault) (h : Host) : Prop :=
  (∃ k, Heard k env s₀ action h) ∧ FaultCause env s₀ action f

section

variable {env : Env} {s₀ : SWIM} {action : Action} {h h' : Host} {k : ℕ}
variable {post : Unit → Host → Prop}

namespace Heard

theorem uuid (hd : Heard k env s₀ action h) : h.swim.uuid = s₀.uuid := hd.reached.uuid

theorem stopped {f : Fault} (hd : Heard k env s₀ action h) (hc : FaultCause env s₀ action f) :
    Stopped env s₀ action f h := ⟨⟨k, hd⟩, hc⟩

theorem quiet (hd : Heard k env s₀ action h) (hq : Quiet h h') :
    Heard k env s₀ action h' where
  wf := hq.1 ▸ hd.wf
  reached := by rw [hq.1, hq.2.1]; exact hd.reached
  later := hd.later.trans hq.2.2
  left w hw := hd.left w (fewerLeft_of_same hq.2.2 (by rw [hq.1]) w hw)
  raised := hq.1 ▸ hd.raised

/-- One more effect, with the packets it sends. -/
theorem effect {ps : List Packet} (hd : Heard k env s₀ action h) (hwf : h'.swim.WellFormed)
    (hsent : h'.sent = h.sent ++ ps) (hlater : h.env.Later h'.env) (hleft : FewerLeft h h')
    (hi : h'.swim.incarnation = h.swim.incarnation)
    (he : Effect env s₀ action h.swim h'.swim ps) : Heard k env s₀ action h' where
  wf := hwf
  reached := hsent ▸ hd.reached.effect hd.wf hwf he
  later := hd.later.trans hlater
  left w hw := hd.left w (hleft w hw)
  raised := hi.trans hd.raised

/-- Rewriting the entry at a member's index is the effect on that member. -/
theorem modifyNode {i : ℕ} {n : NodeState} {f : NodeState → NodeState}
    (hd : Heard k env s₀ action h) (hi : h.swim.members[i]? = some n)
    (hf : ∀ m, (f m).uuid = m.uuid) (ha : NodeAct (env.time 0) s₀ h.swim action n (f n)) :
    Heard k env s₀ action { h with swim := h.swim.modifyNode i f } :=
  hd.effect (hd.wf.modifyNode hf) (List.append_nil _).symm (.refl _)
    (fewerLeft_of_same (.refl _) (SWIM.modifyNode_spare f hi)) rfl
    (.node (hd.wf.find_of_get hi) ha (hd.wf.find_modifyNode hf hi) ⟨rfl, rfl⟩)

/-- The entry enters the view as `swim_state_add` was given it. -/
theorem added {info : NodeInfo} {node last : NodeState} (hd : Heard k env s₀ action h)
    (ha : Added h info node last h') (hi : InsertAct s₀ h.swim action node)
    (hself : info.uuid ≠ h.swim.uuid) (hfresh : h.swim.find info.uuid = none) :
    Heard k env s₀ action h' := by
  have huuid : node.uuid = info.uuid := congrArg NodeInfo.uuid ha.info_eq
  rw [← huuid] at hself hfresh
  exact hd.effect ha.wf (by rw [ha.sent, List.append_nil]) ha.later ha.left ha.same.2
    (.insert hi hself hfresh (ha.slot.mono hd.left) (huuid ▸ ha.find) ha.same)

theorem start (hwf : s₀.WellFormed) : During env s₀ action ⟨s₀, env, []⟩ :=
  ⟨hwf, .start, .refl _, fun _ => id, rfl⟩

theorem done (hd : During env s₀ action h) (hz : action.raises s₀ = 0) :
    Done env s₀ action h := by
  rwa [Done, hz]

end Heard

theorem wp_send {body : EventBody} {dest : SockAddr} (hd : During env s₀ action h)
    (hs : SendAct s₀ h.swim action body dest)
    (hp : ∀ h', During env s₀ action h' → h'.swim = h.swim → post () h') :
    wp (sendWithGossip body dest) post (Stopped env s₀ action) h := by
  refine wp_sendWithGossip hd.wf (fun h' _ hsent => ?_) fun h' hm hq => ?_
  · obtain ⟨time, gossip, hmem, hcount, hps⟩ := hsent.packet
    refine hp h' (hd.effect (hsent.swim ▸ hd.wf) hps hsent.later
      (fewerLeft_of_same hsent.later (by rw [hsent.swim])) (by rw [hsent.swim]) ?_) hsent.swim
    rw [hsent.swim]
    exact .send hs hd.raised hmem hcount
  · apply (hd.quiet hq).stopped
    intro ha
    have hmalloc := (hd.later.allocates ha).1 0
    simp [hm] at hmalloc

end

variable {env : Env} {s₀ : SWIM} {event : Event} {addr : SockAddr} {h : Host}
variable {post : Unit → Host → Prop} {u : Uuid}

/-! ## The sender is noticed -/

/-- The call is the first of the step, so the entry it looks at is the one in `s₀`. -/
theorem wp_notice {post : Option ℕ → Host → Prop}
    (hd : During env s₀ (.event event addr) h) (hs : h.swim = s₀)
    (hp : ∀ r h', During env s₀ (.event event addr) h' →
      (∀ v, s₀.find v = none → h'.swim.find v = none) → post r h') :
    wp (swimStateNotice event.hdr.uuid event.hdr.time event.hdr.incarnation) post
      (Stopped env s₀ (.event event addr)) h := by
  refine wp_swimStateNotice hd.wf (fun _ => hp none h hd (hs ▸ fun _ => id))
    (fun i node hi hu hv => ?_) fun node hn hv => hd.stopped ⟨event, addr, node, rfl, hs ▸ hn, hv⟩
  refine hp (some i) _ (hd.modifyNode hi (fun m => m.notice_uuid _ _)
    (.notice (hs ▸ hd.wf.find_of_get hi) hu hv)) ?_
  intro v hv
  rw [hd.wf.find_modifyNode (fun m => m.notice_uuid _ _) hi, Function.update_of_ne, hs, hv]
  rintro rfl
  simp [← hs, hd.wf.find_of_get hi] at hv

/-! ## Gossip -/

section

variable {k : ℕ} {info : NodeInfo} {rest : List NodeInfo}

/-- A merge is the rewriting of a member or the insertion of a new one. -/
theorem wp_merge (hd : Heard k env s₀ (.event event addr) h)
    (hr : event.body.ReadsGossip s₀.uuid) (hg : info ∈ event.gossip) (hv : info.Valid)
    (hp : ∀ h', Heard k env s₀ (.event event addr) h' → post () h') :
    wp (swimStateMerge info) post (Stopped env s₀ (.event event addr)) h := by
  rw [← hd.uuid] at hr
  refine wp_swimStateMerge hd.wf (fun h' hwf hsame hsent hlater hleft hmerged => ?_)
    (fun h' hq _ _ _ => hp h' (hd.quiet hq))
  refine hp h' (hd.effect hwf (hsent.trans (List.append_nil _).symm) hlater hleft hsame.2 ?_)
  cases hmerged with
  | self _ hu => exact .idle hu hsame
  | @known node hn hu =>
    obtain ⟨-, huuid⟩ := hd.wf.find_eq_some.mp hn
    rw [← huuid] at hn hu
    exact .node hn (.merge hr hg hv huuid.symm) hu hsame
  | @new node hself hn hi hw hu =>
    subst hi
    exact .insert (.gossip hr hg hv) hself hn (hw.mono hd.left) hu hsame

/-- The suspicions still to come, with those that were heard, are those of the whole gossip. -/
def Counted (k : ℕ) (s₀ : SWIM) (action : Action) (rest : List NodeInfo) : Prop :=
  k + suspicions s₀.uuid rest = action.raises s₀

theorem Counted.skip {action : Action} (h : Counted k s₀ action (info :: rest))
    (hs : ¬ (info.uuid = s₀.uuid ∧ info.status = .suspect)) : Counted k s₀ action rest := by
  rwa [Counted, suspicions, List.countP_cons_of_neg (by simpa using hs)] at h

theorem Counted.next {action : Action} (h : Counted k s₀ action (info :: rest))
    (hs : info.uuid = s₀.uuid ∧ info.status = .suspect) : Counted (k + 1) s₀ action rest := by
  rw [Counted, suspicions, List.countP_cons_of_pos (by simpa using hs)] at h
  rw [Counted, suspicions]
  omega

theorem wp_processGossipEntry (hd : Heard k env s₀ (.event event addr) h)
    (hr : event.body.ReadsGossip s₀.uuid) (hg : info ∈ event.gossip)
    (hc : Counted k s₀ (.event event addr) (info :: rest))
    (hp : ∀ k' h', Heard k' env s₀ (.event event addr) h' →
      Counted k' s₀ (.event event addr) rest → post () h') :
    wp (processGossipEntry info) post (Stopped env s₀ (.event event addr)) h := by
  simp only [processGossipEntry, wp_bind, wp_assert, wp_getSwim, uuidCompare_eq]
  split_ifs with hv hself
  · have hskip : info.status ≠ .suspect → Counted k s₀ (.event event addr) rest :=
      fun hs => hc.skip fun hc => hs hc.2
    cases hs : info.status with
    | dead => exact hd.stopped ⟨event, addr, info, rfl, hr, hg, hself.trans hd.uuid, hs⟩
    | suspect =>
      have hnext := hc.next ⟨hself.trans hd.uuid, hs⟩
      have hwf : h.swim.incarnate.WellFormed :=
        ⟨hd.wf.capacity_pos, hd.wf.length_eq, hd.wf.size_le, hd.wf.sorted, hd.wf.self_notMem,
          hd.wf.probe_ok⟩
      have hlt : k < Action.raises s₀ (.event event addr) := by
        rw [Counted] at hnext
        omega
      have hreached := hd.reached.effect hd.wf hwf (.incarnate hd.raised hlt)
      rw [List.append_nil] at hreached
      refine hp (k + 1) _ ⟨hwf, hreached, hd.later, hd.left, ?_⟩ hnext
      rw [SWIM.raised, Function.iterate_succ_apply', ← SWIM.raised, ← hd.raised]
      rfl
    | alive | unknown => exact hp k h hd (hskip (by simp [hs]))
    | other n => exact wp_merge hd hr hg hv fun h' hd' => hp k h' hd' (hskip (by simp [hs]))
  · exact wp_merge hd hr hg hv fun h' hd' =>
      hp k h' hd' (hc.skip fun hs => hself (hs.1.trans hd.uuid.symm))
  · exact hd.stopped ⟨event, addr, info, rfl, hr, hg, hv⟩

/-- The gossip is read to its end, so every suspicion in it raises the incarnation. -/
theorem wp_swimProcessGossip (hd : During env s₀ (.event event addr) h)
    (hr : event.body.ReadsGossip s₀.uuid)
    (hp : ∀ h', Done env s₀ (.event event addr) h' → post () h') :
    wp (swimProcessGossip event.gossip) post (Stopped env s₀ (.event event addr)) h := by
  have hstart : Counted 0 s₀ (.event event addr) event.gossip := by
    rw [Counted, Action.raises, if_pos hr, Nat.zero_add]
  refine wp_mono (wp_forM (fun rest t => ∃ k, Heard k env s₀ (.event event addr) t ∧
    Counted k s₀ (.event event addr) rest) ?_ ⟨0, hd, hstart⟩) ?_ fun _ _ hf => hf
  · rintro info rest t hg ⟨k, ht, hc⟩
    exact wp_processGossipEntry ht hr hg hc fun k' _ ht' hc' => ⟨k', ht', hc'⟩
  · rintro _ h' ⟨k, hd', hc⟩
    rw [Counted, suspicions, List.countP_nil, Nat.add_zero] at hc
    exact hp h' (by rwa [Done, ← hc])

end

/-- The ACK for the node itself that answers the sender. -/
theorem wp_answer (hd : During env s₀ (.event event addr) h) (hb : event.body.Answered)
    (hp : ∀ h', During env s₀ (.event event addr) h' → post () h') :
    wp (swimSendAck h.swim.uuid addr) post (Stopped env s₀ (.event event addr)) h :=
  wp_send hd (.answer hb) fun h' hd' _ => hp h' hd'

/-! ## PING and PING_REQ -/

theorem wp_swimProcessPing (hd : During env s₀ (.event event addr) h)
    (hb : event.body = .ping)
    (hp : ∀ h', Done env s₀ (.event event addr) h' → post () h') :
    wp (swimProcessPing event addr) post (Stopped env s₀ (.event event addr)) h := by
  simp only [swimProcessPing, wp_bind, wp_getSwim]
  apply wp_answer hd (by rw [hb]; trivial)
  intro h' hd'
  exact wp_swimProcessGossip hd' (by rw [hb]; trivial) hp

theorem wp_swimProcessPingReq (hd : During env s₀ (.event event addr) h)
    (hb : event.body = .pingReq u)
    (hp : ∀ h', During env s₀ (.event event addr) h' → post () h') :
    wp (swimProcessPingReq u addr) post (Stopped env s₀ (.event event addr)) h := by
  simp only [swimProcessPingReq, swimStateSuspect, swimSendPing, wp_bind]
  refine wp_search hd.wf (fun _ => hp h hd) fun i node hi hu => ?_
  subst hu
  simp only [wp_bind, wp_modifyNode, wp_pure]
  have hd' := hd.modifyNode hi (fun m => m.suspect_uuid addr) (.suspect hb)
  have hi' := SWIM.modifyNode_get (f := NodeState.suspect addr) hi
  rw [wp_nodeAt hi']
  exact wp_send hd' (.indirect hb (List.mem_of_getElem? hi')) fun h' hd'' _ => hp h' hd''

/-! ## ACK -/

/-- Clearing the witness twice is clearing it once. -/
theorem refute_resetWitness : NodeState.refute ∘ swimNodeResetWitness = NodeState.refute := rfl

theorem wp_ackSwitch {i : ℕ} {node : NodeState} (hd : During env s₀ (.event event addr) h)
    (hb : event.body = .ack u) (hi : h.swim.members[i]? = some node)
    (ht : AckTarget s₀ h.swim u node)
    (hp : ∀ h', During env s₀ (.event event addr) h' → post () h') :
    wp (ackSwitch u i) post (Stopped env s₀ (.event event addr)) h := by
  simp only [ackSwitch, swimClusterRefutedDead, wp_bind, wp_nodeAt hi]
  -- refutation, from any later moment of the call with the same view
  have hrefute : ∀ h', During env s₀ (.event event addr) h' → h'.swim = h.swim →
      (node.info.status = .suspect ∨ node.info.status = .unknown) →
      post () { h' with swim := h'.swim.modifyNode i NodeState.refute } := by
    intro h' hd' hs' hst
    refine hp _ (hd'.modifyNode (hs' ▸ hi) (fun m => m.refute_uuid) (.refute hb ?_ hst))
    rwa [hs']
  cases hs : node.info.status with
  | suspect =>
    refine wp_ite (fun hw => ?_) fun _ => hrefute h hd rfl (.inl hs)
    simp only [wp_bind, swimSendAck]
    apply wp_send hd (.relay hb (List.mem_of_getElem? hi) ht hs hw)
    intro h' hd' hs'
    simp only [wp_modifyNode, SWIM.modifyNode_modifyNode, refute_resetWitness]
    exact hrefute h' hd' hs' (.inl hs)
  | unknown => exact hrefute h hd rfl (.inr hs)
  | dead | alive | other n => exact hp h hd

section

variable {node last : NodeState} {h' : Host} {rest : SwimM Unit}

/-- The new entry is the last one: the switch finds it UNKNOWN and makes it ALIVE. -/
theorem wp_ackLast (hd : During env s₀ (.event event addr) h)
    (hb : event.body = .ack last.uuid) (hself : last.uuid ≠ h.swim.uuid)
    (hfresh : h.swim.find last.uuid = none)
    (ha : Added h { swimNodeInit last.uuid addr with lastSeen := event.hdr.time } last last h')
    (hp : ∀ h', During env s₀ (.event event addr) h' →
      wp rest post (Stopped env s₀ (.event event addr)) h') :
    wp (do ackSwitch last.uuid h.swim.viewSize; rest) post
      (Stopped env s₀ (.event event addr)) h' := by
  have hne : ∀ m ∈ h.swim.members, m.uuid ≠ last.uuid := lookup_eq_none.mp hfresh
  have hst : last.info.status = .unknown := by rw [ha.info_eq]; rfl
  simp only [ackSwitch, wp_bind, wp_nodeAt ha.last_get, hst, swimClusterRefutedDead, wp_modifyNode]
  have hwf := ha.wf.modifyNode (i := h.swim.viewSize) NodeState.refute_uuid
  have hfind := ha.wf.find_modifyNode NodeState.refute_uuid ha.last_get
  have hact : InsertAct s₀ h.swim (.event event addr) last.refute :=
    .ackLast hb (by simp only [NodeState.refute, swimNodeResetWitness, ha.info_eq]; rfl) rfl
      fun m hm => lt_of_le_of_ne (ha.last_max m (.inr hm)) (hne m hm)
  have he : Effect env s₀ (.event event addr) h.swim
      (h'.swim.modifyNode h.swim.viewSize NodeState.refute) [] :=
    .insert hact hself hfresh (ha.slot.mono hd.left).refute
      (by rw [hfind, ha.find]; exact Function.update_idem _ _ _) ha.same
  have hrefuted : FewerLeft h'
      { h' with swim := h'.swim.modifyNode h.swim.viewSize NodeState.refute } :=
    fewerLeft_of_same (.refl _) (SWIM.modifyNode_spare _ ha.last_get)
  exact hp _ (hd.effect hwf (by rw [ha.sent, List.append_nil]) ha.later (ha.left.trans hrefuted)
    ha.same.2 he)

/-- The last entry is another member: the switch acts on that one, and the new entry stays
UNKNOWN. -/
theorem wp_ackNotLast (hd : During env s₀ (.event event addr) h)
    (hb : event.body = .ack node.uuid) (hself : node.uuid ≠ h.swim.uuid)
    (hfresh : h.swim.find node.uuid = none)
    (hold : ∀ v, s₀.find v = none → h.swim.find v = none) (hs₀ : s₀.WellFormed)
    (ha : Added h { swimNodeInit node.uuid addr with lastSeen := event.hdr.time } node last h')
    (hlast : last ∈ h.swim.members)
    (hp : ∀ h', During env s₀ (.event event addr) h' →
      wp rest post (Stopped env s₀ (.event event addr)) h') :
    wp (do ackSwitch node.uuid h.swim.viewSize; rest) post
      (Stopped env s₀ (.event event addr)) h' := by
  have hgt : node.uuid < last.uuid :=
    lt_of_le_of_ne (ha.last_max node (.inl rfl)) (lookup_eq_none.mp hfresh last hlast).symm
  obtain ⟨m, hm, hmu⟩ : ∃ m ∈ s₀.members, m.uuid = last.uuid := by
    have hfind := mt (hold last.uuid) (by simp [hd.wf.mem_iff_find.mp hlast])
    obtain ⟨m, hm⟩ := Option.ne_none_iff_exists'.mp hfind
    exact ⟨m, hs₀.find_eq_some.mp hm⟩
  have hd' := hd.added ha (.ack hb ha.info_eq ⟨m, hm, hmu ▸ hgt⟩) hself hfresh
  rw [wp_bind]
  refine wp_ackSwitch hd' hb ha.last_get (.inr ⟨hd.reached.find_none hfresh, hd.uuid ▸ hself, hgt, ?_⟩) hp
  intro m hm
  rw [ha.wf.mem_iff_find, ha.find, Function.update_apply] at hm
  split_ifs at hm with hmu
  · exact ha.last_max m (.inl (Option.some.inj hm).symm)
  · exact ha.last_max m (.inr (hd.wf.mem_iff_find.mpr hm))

/-- A node that was not known is added, and the switch acts on the last entry of the view. -/
theorem wp_ackUnknown (hd : During env s₀ (.event event addr) h)
    (hb : event.body = .ack u) (hself : u ≠ h.swim.uuid) (hfresh : h.swim.find u = none)
    (hold : ∀ v, s₀.find v = none → h.swim.find v = none) (hs₀ : s₀.WellFormed)
    (hp : ∀ h', During env s₀ (.event event addr) h' →
      wp rest post (Stopped env s₀ (.event event addr)) h') :
    wp (swimStateAdd { swimNodeInit u addr with lastSeen := event.hdr.time })
      (fun node => wp (match node with
        | none => throw .nullDeref
        | some node => do
          ackSwitch u node
          rest) post (Stopped env s₀ (.event event addr)))
      (Stopped env s₀ (.event event addr)) h := by
  refine wp_swimStateAdd hd.wf hself hfresh
    (fun h' hq ha => (hd.quiet hq).stopped fun hall => ha (hd.later.allocates hall)) fun h' node last ha => ?_
  have hu : node.uuid = u := congrArg NodeInfo.uuid ha.info_eq
  subst hu
  rcases ha.last_mem with rfl | hlast
  · exact wp_ackLast hd hb hself hfresh ha hp
  · exact wp_ackNotLast hd hb hself hfresh hold hs₀ ha hlast hp

end

theorem wp_swimProcessAck (hd : During env s₀ (.event event addr) h)
    (hb : event.body = .ack u) (hold : ∀ v, s₀.find v = none → h.swim.find v = none)
    (hs₀ : s₀.WellFormed)
    (hp : ∀ h', Done env s₀ (.event event addr) h' → post () h') :
    wp (swimProcessAck event u addr) post (Stopped env s₀ (.event event addr)) h := by
  simp only [swimProcessAck, ackNode, wp_bind, wp_getSwim, uuidCompare_eq]
  refine wp_ite (fun hself => hp h (hd.done ?_)) fun hself => ?_
  · simp [Action.raises, hb, EventBody.ReadsGossip, hself, hd.uuid]
  have hgossip : ∀ h', During env s₀ (.event event addr) h' →
      wp (swimProcessGossip event.gossip) post (Stopped env s₀ (.event event addr)) h' :=
    fun h' hd' => wp_swimProcessGossip hd' (by rw [hb]; exact hd.uuid ▸ hself) hp
  simp only [wp_bind]
  refine wp_search hd.wf (fun hfresh => ?_) fun i node hi hu => ?_
  · exact wp_ackUnknown hd hb hself hfresh hold hs₀ hgossip
  · simp only [wp_pure, wp_bind]
    exact wp_ackSwitch hd hb hi (.inl hu) hgossip

/-! ## JOIN and LEAVE -/

/-- The loop that forwards a JOIN to every member. -/
theorem wp_forwardJoin {joinUuid : Uuid} {joinAddr : SockAddr}
    (hd : During env s₀ (.event event addr) h) (hb : event.body = .join joinUuid joinAddr)
    (hp : ∀ h', During env s₀ (.event event addr) h' → post () h') :
    wp (forM (List.range h.swim.viewSize) fun i => do
        let node ← nodeAt i
        swimSendEvent { event with body := .join joinUuid (fillJoinAddr joinAddr addr) }
          node.info.addr)
      post (Stopped env s₀ (.event event addr)) h := by
  refine wp_mono (wp_forM
      (fun _ t => During env s₀ (.event event addr) t ∧ t.swim = h.swim) ?_ ⟨hd, rfl⟩)
    (fun _ h' hd' => hp h' hd'.1) (fun _ _ hf => hf)
  rintro i _ t hi ⟨ht, hs⟩
  obtain ⟨node, hn⟩ := hd.wf.get_of_lt (List.mem_range.mp hi)
  rw [← hs] at hn
  rw [wp_bind, wp_nodeAt hn, swimSendEvent, wp_sendto]
  exact ⟨ht.effect ht.wf rfl (.refl _) (fun _ => id) rfl (.forward rfl hb (List.mem_of_getElem? hn)), hs⟩

theorem wp_swimProcessJoin {joinUuid : Uuid} {joinAddr : SockAddr}
    (hd : During env s₀ (.event event addr) h) (hb : event.body = .join joinUuid joinAddr)
    (hp : ∀ h', During env s₀ (.event event addr) h' → post () h') :
    wp (swimProcessJoin event joinUuid joinAddr addr) post
      (Stopped env s₀ (.event event addr)) h := by
  simp only [swimProcessJoin, wp_bind, wp_getSwim, uuidCompare_eq]
  refine wp_ite (fun _ => hp h hd) fun hself => ?_
  refine wp_ite (fun _ => hp h hd) fun hfresh => ?_
  rw [not_not, hd.wf.getNode_eq_none] at hfresh
  have hanswer : event.body.Answered := by rw [hb]; trivial
  simp only [wp_bind, wp_assert, wp_getSwim]
  split_ifs with hv
  · refine wp_swimStateAdd hd.wf (Ne.symm hself) hfresh (fun h' hq _ => ?_) fun h' node last ha => ?_
    · exact wp_forwardJoin (hd.quiet hq) hb fun _ hd₁ => wp_answer hd₁ hanswer hp
    have hu : node.uuid = joinUuid := congrArg NodeInfo.uuid ha.info_eq
    subst hu
    have hd' := hd.added ha (.join hb ha.info_eq hv.1) (Ne.symm hself) hfresh
    exact wp_forwardJoin hd' hb fun _ hd₁ => wp_answer hd₁ hanswer hp
  · refine hd.stopped ⟨event, addr, joinUuid, joinAddr, rfl, hb, ?_⟩
    by_contra ht
    exact hv ⟨not_le.mp ht, by simp⟩

theorem wp_swimProcessLeave (hd : During env s₀ (.event event addr) h)
    (hb : event.body = .leave u)
    (hp : ∀ h', During env s₀ (.event event addr) h' → post () h') :
    wp (swimProcessLeave u addr) post (Stopped env s₀ (.event event addr)) h := by
  have hanswer : event.body.Answered := by rw [hb]; trivial
  simp only [swimProcessLeave, swimStateDel, swimProbeInvalidate, wp_bind, wp_getSwim,
    uuidCompare_eq]
  refine wp_ite (fun _ => wp_answer hd hanswer hp) fun _ => ?_
  rw [wp_bind]
  refine wp_search hd.wf (fun _ => wp_answer hd hanswer hp) fun i node hi hu => ?_
  subst hu
  simp only [wp_bind, wp_modifyNode, wp_modifySwim, wp_pure]
  have hfind := hd.wf.find_modifyNode NodeState.del_uuid hi
  exact wp_answer (hd.effect (hd.wf.modifyNode NodeState.del_uuid).invalidate
    (List.append_nil _).symm (.refl _)
    (fewerLeft_of_same (.refl _) (SWIM.modifyNode_spare NodeState.del hi)) rfl
    (.node (hd.wf.find_of_get hi) (.del hb) hfind ⟨rfl, rfl⟩)) hanswer hp

/-! ## Dispatch -/

/-- The handler may begin in any state of the call in which no member was gained. -/
theorem wp_dispatch (hd : During env s₀ (.event event addr) h)
    (hold : ∀ v, s₀.find v = none → h.swim.find v = none) (hs₀ : s₀.WellFormed) :
    wp (dispatch event addr) (fun _ => Done env s₀ (.event event addr))
      (Stopped env s₀ (.event event addr)) h := by
  have hquiet : ¬ event.body.ReadsGossip s₀.uuid → Action.raises s₀ (.event event addr) = 0 :=
    fun hr => if_neg hr
  rw [dispatch]
  cases hb : event.body with
  | ping => exact wp_swimProcessPing hd hb fun _ hd₁ => hd₁
  | ack u => exact wp_swimProcessAck hd hb hold hs₀ fun _ hd₁ => hd₁
  | pingReq u =>
    exact wp_swimProcessPingReq hd hb fun _ hd₁ => hd₁.done (hquiet (by rw [hb]; exact id))
  | join u joinAddr =>
    exact wp_swimProcessJoin hd hb fun _ hd₁ => hd₁.done (hquiet (by rw [hb]; exact id))
  | leave u =>
    exact wp_swimProcessLeave hd hb fun _ hd₁ => hd₁.done (hquiet (by rw [hb]; exact id))

theorem wp_swimProcessEvent (hd : During env s₀ (.event event addr) h) (hs : h.swim = s₀) :
    wp (swimProcessEvent event addr) (fun _ => Done env s₀ (.event event addr))
      (Stopped env s₀ (.event event addr)) h := by
  rw [swimProcessEvent, wp_bind]
  apply wp_notice hd hs
  intro _ h' hd' hold
  exact wp_dispatch hd' hold (hs ▸ hd.wf)

end LibSwim
