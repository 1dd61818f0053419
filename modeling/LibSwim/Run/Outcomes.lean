import LibSwim.Run.Steps

/-! # What an event does to one entry

The account of a call lists what it may do. For single entries and single packets this module
says exactly what happens, in the order of the source: the sender is noticed, the handler of the
event runs, and its gossip is merged.
-/

namespace LibSwim

open Foundations Program

/-- The entry after the sender of the event has been noticed. -/
def Event.noticed (e : Event) (n : NodeState) : NodeState :=
  if n.uuid = e.hdr.uuid then n.notice e.hdr.time e.hdr.incarnation else n

/-- The entry after a list of gossip has been merged. -/
def mergeAll (gs : List NodeInfo) (n : NodeState) : NodeState :=
  gs.foldl (fun n g => if g.uuid = n.uuid then n.merge g else n) n

/-- Gossip that neither fails the assertion nor tells the node that it is dead. -/
def NodeInfo.Processable (self : Uuid) (g : NodeInfo) : Prop :=
  g.Valid ∧ ¬ (g.uuid = self ∧ g.status = .dead)

@[simp] theorem Event.noticed_uuid (e : Event) (n : NodeState) : (e.noticed n).uuid = n.uuid := by
  unfold Event.noticed
  split_ifs <;> simp

theorem Event.noticed_of_eq {e : Event} {n : NodeState} (h : n.uuid = e.hdr.uuid) :
    e.noticed n = n.notice e.hdr.time e.hdr.incarnation := if_pos h

theorem Event.noticed_of_ne {e : Event} {n : NodeState} (h : n.uuid ≠ e.hdr.uuid) :
    e.noticed n = n := if_neg h

theorem mergeAll_cons (g : NodeInfo) (gs : List NodeInfo) (n : NodeState) :
    mergeAll (g :: gs) n = mergeAll gs (if g.uuid = n.uuid then n.merge g else n) :=
  List.foldl_cons ..

theorem mergeAll_witness {gs : List NodeInfo} {n : NodeState} (h : n.witness = .none) :
    (mergeAll gs n).witness = .none := by
  induction gs generalizing n with
  | nil => exact h
  | cons g gs ih =>
    rw [mergeAll_cons]
    apply ih
    split_ifs
    · unfold NodeState.merge
      repeat' split
      all_goals first | exact h | rfl
    · exact h

section

variable {fault : Fault → Host → Prop} {post : Unit → Host → Prop} {h h' : Host} {e : Event}
variable {addr : SockAddr} {v : Uuid} {n : NodeState}

/-! ## Notice -/

/-- The effect of noticing the sender of `e`. -/
structure Noticed (e : Event) (h h' : Host) : Prop where
  wf : h'.swim.WellFormed
  same : SameNode h.swim h'.swim
  env : h'.env = h.env
  sent : h'.sent = h.sent
  find : ∀ v, h'.swim.find v = (h.swim.find v).map e.noticed
  valid : ∀ n, h.swim.find e.hdr.uuid = some n → n.info.Valid

theorem wp_noticed {post : Option ℕ → Host → Prop} (hwf : h.swim.WellFormed)
    (hp : ∀ r h', Noticed e h h' → post r h')
    (hbad : ∀ n, h.swim.find e.hdr.uuid = some n → ¬ n.info.Valid →
      fault (.assertion .noticeValid) h) :
    wp (swimStateNotice e.hdr.uuid e.hdr.time e.hdr.incarnation) post fault h := by
  apply wp_swimStateNotice hwf
  · intro hnone
    exact hp none h ⟨hwf, ⟨rfl, rfl⟩, rfl, rfl, fun v => hwf.find_eq_map _ (.inr hnone),
      by simp [hnone]⟩
  · intro i n hi hu hv
    refine hp (some i) _ ⟨hwf.modifyNode fun m => m.notice_uuid _ _, ⟨rfl, rfl⟩, rfl, rfl, ?_, ?_⟩
    · have hfind := hwf.find_modifyNode_map
        (f := NodeState.notice e.hdr.time e.hdr.incarnation) (fun m => m.notice_uuid _ _) hi
      rwa [hu] at hfind
    · intro m hm
      rw [← hu, hwf.find_of_get hi] at hm
      exact Option.some.inj hm ▸ hv
  · exact hbad

/-! ## Gossip -/

theorem Merged.find_entry {env : Env} {g : NodeInfo} {t u : SWIM} (hm : Merged env g t u)
    (hwf : t.WellFormed) (hn : t.find v = some n) :
    u.find v = some (if g.uuid = n.uuid then n.merge g else n) := by
  have hv := (hwf.find_eq_some.mp hn).2
  cases hm with
  | self hself hu =>
    have hne : g.uuid ≠ n.uuid := by
      rw [hself, hv]
      exact (hwf.ne_self hn).symm
    rw [hu, hn, if_neg hne]
  | known hg hu =>
    rw [hu, Function.update_apply, hv]
    by_cases hvg : v = g.uuid
    · rw [if_pos hvg, if_pos hvg.symm]
      rw [hvg, hg] at hn
      rw [Option.some.inj hn]
    · rw [if_neg hvg, if_neg (Ne.symm hvg), hn]
  | new _ hg _ _ hu =>
    have hvg : v ≠ g.uuid := SWIM.ne_of_find hn hg
    rw [hu, Function.update_of_ne hvg, if_neg (hv.trans_ne hvg).symm, hn]

/-- An entry about the node itself leaves the view alone; every other one is merged. -/
theorem wp_gossipStep {g : NodeInfo} (hwf : h.swim.WellFormed)
    (hpass : ∀ h', g.Processable h.swim.uuid → g.uuid = h.swim.uuid → h'.swim.WellFormed →
      h'.swim.uuid = h.swim.uuid → h'.swim.find = h.swim.find → h'.sent = h.sent →
      h'.env = h.env → h'.swim = h.swim ∨ h'.swim = h.swim.incarnate → post () h')
    (hmerge : g.Processable h.swim.uuid → wp (swimStateMerge g) post fault h)
    (hbad : ∀ f, ¬ g.Processable h.swim.uuid → fault f h) :
    wp (processGossipEntry g) post fault h := by
  simp only [processGossipEntry, wp_bind, wp_assert, wp_getSwim, uuidCompare_eq]
  split_ifs with hv hself
  · cases hs : g.status with
    | dead => exact hbad _ fun hproc => hproc.2 ⟨hself, hs⟩
    | suspect => exact hpass _ ⟨hv, by simp [hs]⟩ hself ⟨hwf.capacity_pos, hwf.length_eq,
        hwf.size_le, hwf.sorted, hwf.self_notMem, hwf.probe_ok⟩ rfl rfl rfl rfl (.inr rfl)
    | alive | unknown => exact hpass h ⟨hv, by simp [hs]⟩ hself hwf rfl rfl rfl rfl (.inl rfl)
    | other k => exact hmerge ⟨hv, by simp [hs]⟩
  · exact hmerge ⟨hv, fun hc => hself hc.1⟩
  · exact hbad _ fun hproc => hv hproc.1

/-- One gossip entry, seen from the entry for `v`. -/
theorem wp_gossipEntry {g : NodeInfo} (hwf : h.swim.WellFormed) (hn : h.swim.find v = some n)
    (hp : ∀ h', g.Processable h.swim.uuid → h'.swim.WellFormed → h'.swim.uuid = h.swim.uuid →
      h'.sent = h.sent → h'.swim.find v = some (if g.uuid = n.uuid then n.merge g else n) →
      post () h')
    (hbad : ∀ f, ¬ g.Processable h.swim.uuid → fault f h) :
    wp (processGossipEntry g) post fault h := by
  have hv := (hwf.find_eq_some.mp hn).2
  refine wp_gossipStep hwf (fun h' hproc hself hwf' hu hfind hsent _ _ => ?_) (fun hproc => ?_) hbad
  · have hne : g.uuid ≠ n.uuid := by
      rw [hself, hv]
      exact (hwf.ne_self hn).symm
    exact hp h' hproc hwf' hu hsent (by rw [if_neg hne, hfind, hn])
  · refine wp_swimStateMerge hwf (fun h' hw hs hsent _ _ hm => hp h' hproc hw hs.1 hsent
      (hm.find_entry hwf hn)) fun h' hq _ _ hg => hp h' hproc (hq.1 ▸ hwf) (by rw [hq.1]) hq.2.1 ?_
    have hne : g.uuid ≠ n.uuid := hv ▸ (SWIM.ne_of_find hn hg).symm
    rw [if_neg hne, hq.1, hn]

/-- While gossip is processed: merging the rest leads to where merging all leads. -/
structure Gossiping (h : Host) (gs : List NodeInfo) (v : Uuid) (n : NodeState)
    (rest : List NodeInfo) (t : Host) : Prop where
  wf : t.swim.WellFormed
  uuid : t.swim.uuid = h.swim.uuid
  sent : t.sent = h.sent
  entry : ∃ m, t.swim.find v = some m ∧ mergeAll rest m = mergeAll gs n
  processable : (∀ g ∈ rest, g.Processable h.swim.uuid) → ∀ g ∈ gs, g.Processable h.swim.uuid

/-- Gossip sends nothing; it stops exactly when an entry is not processable. -/
theorem wp_gossip (gs : List NodeInfo) (hwf : h.swim.WellFormed) (hn : h.swim.find v = some n) :
    wp (swimProcessGossip gs)
      (fun _ h' => (∀ g ∈ gs, g.Processable h.swim.uuid) ∧ h'.sent = h.sent ∧
        h'.swim.find v = some (mergeAll gs n))
      (fun _ _ => ¬ ∀ g ∈ gs, g.Processable h.swim.uuid) h := by
  refine wp_mono (wp_forM (Gossiping h gs v n) ?_ ⟨hwf, rfl, rfl, ⟨n, hn, rfl⟩, id⟩)
    (fun _ h' hend => ?_) fun _ _ hf => hf
  · rintro g rest t hg ⟨ht, hu, hsent, ⟨m, hm, hfold⟩, hproc⟩
    refine wp_gossipEntry ht hm (fun t' hp hwf' hu' hsent' hfind => ?_) fun _ hbad hall =>
      hbad (hu ▸ hall g hg)
    refine ⟨hwf', hu'.trans hu, hsent'.trans hsent, ⟨_, hfind, hfold⟩, fun hrest => hproc ?_⟩
    exact List.forall_mem_cons.mpr ⟨hu ▸ hp, hrest⟩
  · obtain ⟨m, hm, hfold⟩ := hend.entry
    exact ⟨hend.processable (by simp), hend.sent, hm.trans (congrArg some hfold)⟩

/-- Gossip that was processed could be. -/
theorem wp_processable (gs : List NodeInfo) (hwf : h.swim.WellFormed) :
    wp (swimProcessGossip gs) (fun _ _ => ∀ g ∈ gs, g.Processable h.swim.uuid)
      (fun _ _ => True) h := by
  refine wp_mono (wp_forM (fun rest t => t.swim.WellFormed ∧ t.swim.uuid = h.swim.uuid ∧
    ((∀ g ∈ rest, g.Processable h.swim.uuid) → ∀ g ∈ gs, g.Processable h.swim.uuid)) ?_
    ⟨hwf, rfl, id⟩) (fun _ _ hend => hend.2.2 (by simp)) fun _ _ => id
  rintro g rest t - ⟨ht, hu, hall⟩
  have hnext (hproc : g.Processable t.swim.uuid) (hrest : ∀ g ∈ rest, g.Processable h.swim.uuid) :
      ∀ g ∈ gs, g.Processable h.swim.uuid :=
    hall (List.forall_mem_cons.mpr ⟨hu ▸ hproc, hrest⟩)
  refine wp_gossipStep ht (fun t' hproc _ hwf' hu' _ _ _ _ => ⟨hwf', hu'.trans hu, hnext hproc⟩)
    (fun hproc => ?_) fun _ _ => trivial
  exact wp_swimStateMerge ht (fun t' hwf' hsame _ _ _ _ => ⟨hwf', hsame.1.trans hu, hnext hproc⟩)
    fun t' hq _ _ _ => ⟨hq.1 ▸ ht, by rw [hq.1, hu], hnext hproc⟩

/-! ## Handlers -/

/-- A PING_REQ suspects the node it names, if that is a member, and does not look at the gossip. -/
theorem wp_pingReqEntries (hwf : h.swim.WellFormed)
    (hp : ∀ h', h'.swim.WellFormed → SameNode h.swim h'.swim → (∀ u, h'.swim.find u =
      (h.swim.find u).map fun n => if n.uuid = v then n.suspect addr else n) → post () h')
    (hnull : ∀ f h', ¬ h.env.Allocates → fault f h') :
    wp (swimProcessPingReq v addr) post fault h := by
  simp only [swimProcessPingReq, swimStateSuspect, swimSendPing, wp_bind]
  refine wp_search hwf (fun hnone => ?_) fun i m hi hu => ?_
  · exact hp h hwf ⟨rfl, rfl⟩ fun u => hwf.find_eq_map _ (.inr hnone)
  · subst hu
    simp only [wp_bind, wp_modifyNode, wp_pure]
    rw [wp_nodeAt (SWIM.modifyNode_get (f := NodeState.suspect addr) hi)]
    have hwf' := hwf.modifyNode (i := i) fun k => k.suspect_uuid addr
    refine wp_sendWithGossip hwf' (fun h' _ hs => ?_) fun h' hm _ =>
      hnull _ h' fun hall => Bool.false_ne_true (hm.symm.trans (hall.1 0))
    refine hp h' (hs.swim ▸ hwf') (hs.swim ▸ ⟨rfl, rfl⟩) fun u => ?_
    rw [hs.swim]
    exact hwf.find_modifyNode_map (fun k => k.suspect_uuid addr) hi u

theorem wp_pingReqEntry (hwf : h.swim.WellFormed) (hn : h.swim.find v = some n) :
    wp (swimProcessPingReq v addr) (fun _ h' => h'.swim.find v = some (n.suspect addr))
      (fun _ _ => True) h := by
  refine wp_pingReqEntries hwf (fun h' _ _ hfind => ?_) fun _ _ _ => trivial
  rw [hfind, hn, Option.map_some, if_pos (hwf.find_eq_some.mp hn).2]

/-- An ACK for a member that is neither suspected nor unknown sends nothing. -/
theorem wp_ackSettled (hwf : h.swim.WellFormed) (hn : h.swim.find v = some n)
    (hs : n.info.status ≠ .suspect) (hs' : n.info.status ≠ .unknown) :
    wp (swimProcessAck e v addr) (fun _ h' => h'.sent = h.sent) (fun _ _ => True) h := by
  simp only [swimProcessAck, ackNode, wp_bind, wp_getSwim]
  refine wp_ite (fun _ => rfl) fun _ => ?_
  simp only [wp_bind]
  apply wp_searchMember hwf hn
  intro i hi
  have hgossip := wp_mono (wp_gossip e.gossip hwf hn) (fun _ _ hg => hg.2.1)
    fun _ _ _ => trivial
  simp only [wp_pure, wp_bind, ackSwitch, wp_nodeAt hi]
  cases hst : n.info.status with
  | suspect => exact absurd hst hs
  | unknown => exact absurd hst hs'
  | dead | alive | other k => exact hgossip

/-- An ACK for a suspected member with a witness is relayed to the witness. -/
theorem wp_ackRelayed (hwf : h.swim.WellFormed) (hn : h.swim.find v = some n)
    (hs : n.info.status = .suspect) (hw : swimNodeHasWitness n) :
    wp (swimProcessAck e v addr)
      (fun _ h' => h.env.malloc 0 = true ∧ (∀ g ∈ e.gossip, g.Processable h.swim.uuid) ∧
        (∃ p, h'.sent = h.sent ++ [p] ∧ p.event.body = .ack v ∧ p.dest = n.witness) ∧
        h'.swim.find v = some (mergeAll e.gossip n.refute))
      (fun _ _ => ¬ (h.env.malloc 0 = true ∧ ∀ g ∈ e.gossip, g.Processable h.swim.uuid)) h := by
  have hself := hwf.ne_self hn
  simp only [swimProcessAck, ackNode, wp_bind, wp_getSwim, uuidCompare_eq, if_neg hself]
  apply wp_searchMember hwf hn
  intro i hi
  obtain rfl := (hwf.find_eq_some.mp hn).2
  simp only [wp_pure, wp_bind, ackSwitch, wp_nodeAt hi, hs, if_pos hw, swimSendAck]
  refine wp_sendWithGossip hwf (fun h₁ hm hsent => ?_) fun _ hm _ => by simp [hm]
  simp only [swimClusterRefutedDead, wp_modifyNode, SWIM.modifyNode_modifyNode,
    refute_resetWitness, hsent.swim]
  have hfind := hwf.find_modifyNode NodeState.refute_uuid hi
  obtain ⟨time, gossip, -, -, hps⟩ := hsent.packet
  refine wp_mono (wp_gossip _ (v := n.uuid) (n := n.refute) (hwf.modifyNode NodeState.refute_uuid)
    (by rw [hfind, Function.update_self])) (fun _ h' hg => ?_) fun _ _ hg hc => hg hc.2
  exact ⟨hm, hg.1, ⟨_, hg.2.1.trans hps, rfl, rfl⟩, hg.2.2⟩

/-- What an ACK makes of the entry its switch looks at. -/
def NodeState.acked (n : NodeState) : NodeState :=
  match n.info.status with
  | .suspect | .unknown => n.refute
  | .dead | .alive | .other _ => n

theorem acked_uuid (n : NodeState) : n.acked.uuid = n.uuid := by
  unfold NodeState.acked
  split <;> rfl

/-- The switch sends the ACK on to a witness. -/
def NodeState.Relays (n : NodeState) : Prop := n.info.status = .suspect ∧ swimNodeHasWitness n

/-- The switch rewrites the entry it looks at; it takes memory only to send the ACK on. -/
theorem wp_ackSwitch_acked {i : ℕ} {node : NodeState} (hwf : h.swim.WellFormed)
    (hi : h.swim.members[i]? = some node)
    (hp : ∀ h', (node.Relays → h.env.malloc 0 = true) → h.env.Later h'.env →
      h'.swim = h.swim.modifyNode i NodeState.acked → post () h')
    (hnull : ∀ h', node.Relays → h.env.malloc 0 = false → fault .nullDeref h') :
    wp (ackSwitch v i) post fault h := by
  have hsame {f : NodeState → NodeState} (hf : f node = node.acked) :
      h.swim.modifyNode i f = h.swim.modifyNode i NodeState.acked := by
    rw [SWIM.modifyNode, modify_congr (SWIM.WellFormed.view_get hi) hf]
    rfl
  simp only [ackSwitch, swimClusterRefutedDead, wp_bind, wp_nodeAt hi]
  cases hs : node.info.status with
  | suspect =>
    have ha : node.refute = node.acked := by simp [NodeState.acked, hs]
    refine wp_ite (fun hw => ?_) fun hw => hp _ (fun hr => absurd hr.2 hw) (.refl _) (hsame ha)
    simp only [wp_bind, swimSendAck]
    refine wp_sendWithGossip hwf (fun h' hm hsent => ?_) fun h' hm _ => hnull h' ⟨hs, hw⟩ hm
    simp only [wp_modifyNode, SWIM.modifyNode_modifyNode, refute_resetWitness]
    refine hp _ (fun _ => hm) hsent.later ?_
    rw [hsent.swim, hsame ha]
  | unknown =>
    exact hp _ (by simp [NodeState.Relays, hs]) (.refl _) (hsame (by simp [NodeState.acked, hs]))
  | dead | alive | other =>
    refine hp h (by simp [NodeState.Relays, hs]) (.refl _) ?_
    rw [← hsame (f := id) (by simp [NodeState.acked, hs])]
    simp [SWIM.modifyNode]

/-- The switch rewrites one entry and keeps the others. -/
structure Switched (node : NodeState) (h h' : Host) : Prop where
  wf : h'.swim.WellFormed
  same : SameNode h.swim h'.swim
  later : h.env.Later h'.env
  find : ∀ v, h'.swim.find v =
    (h.swim.find v).map fun n => if n.uuid = node.uuid then n.acked else n

theorem wp_ackSwitched {i : ℕ} {node : NodeState} (hwf : h.swim.WellFormed)
    (hi : h.swim.members[i]? = some node) (hp : ∀ h', Switched node h h' → post () h')
    (hnull : ∀ f h', ¬ h.env.Allocates → fault f h') : wp (ackSwitch v i) post fault h := by
  refine wp_ackSwitch_acked hwf hi (fun h' _ hlater hswim => hp h' ⟨?_, ?_, hlater, fun u => ?_⟩)
    fun h' _ hm => hnull _ h' fun hall => by simpa [hm] using hall.1 0
  · rw [hswim]
    exact hwf.modifyNode acked_uuid
  · rw [hswim]
    exact ⟨rfl, rfl⟩
  · rw [hswim]
    exact hwf.find_modifyNode_map acked_uuid hi u

theorem wp_ackMember (hwf : h.swim.WellFormed) (hn : h.swim.find v = some n)
    (hp : ∀ h', Switched n h h' → wp (swimProcessGossip e.gossip) post fault h')
    (hnull : ∀ f h', ¬ h.env.Allocates → fault f h') :
    wp (swimProcessAck e v addr) post fault h := by
  have hself := hwf.ne_self hn
  simp only [swimProcessAck, ackNode, wp_bind, wp_getSwim, uuidCompare_eq, if_neg hself]
  apply wp_searchMember hwf hn
  intro i hi
  simp only [wp_pure, wp_bind]
  exact wp_ackSwitched hwf hi hp hnull

/-- The entry that an ACK adds for a node that is not known. -/
def ackInfo (e : Event) (v : Uuid) (addr : SockAddr) : NodeInfo :=
  { swimNodeInit v addr with lastSeen := e.hdr.time }

/-- The node is added, and the switch looks at the entry with the greatest UUID. -/
theorem wp_ackFresh (hwf : h.swim.WellFormed) (hself : v ≠ h.swim.uuid)
    (hfresh : h.swim.find v = none)
    (hp : ∀ h₁ h' node last, Added h (ackInfo e v addr) node last h₁ → Switched last h₁ h' →
      wp (swimProcessGossip e.gossip) post fault h')
    (hnull : ∀ f h', ¬ h.env.Allocates → fault f h') :
    wp (swimProcessAck e v addr) post fault h := by
  simp only [swimProcessAck, ackNode, wp_bind, wp_getSwim, uuidCompare_eq, if_neg hself]
  refine wp_search hwf (fun _ => ?_) fun i m hi hu => ?_
  · refine wp_swimStateAdd hwf hself hfresh (fun h' _ ha => hnull _ h' ha) ?_
    intro h₁ node last ha
    rw [wp_bind]
    refine wp_ackSwitched ha.wf ha.last_get (fun h' hs => hp h₁ h' node last ha hs) ?_
    exact fun f h' hall => hnull f h' fun hall' => hall (ha.later.allocates hall')
  · rw [← hu, hwf.find_of_get hi] at hfresh
    cases hfresh

/-- One copy goes to every member, in the order of the view. -/
theorem wp_sendToAll (hwf : h.swim.WellFormed)
    (hp : post () { h with sent := h.sent ++ h.swim.members.map fun n => ⟨e, n.info.addr⟩ }) :
    wp (forM (List.range h.swim.viewSize) fun i => do
      let node ← nodeAt i
      swimSendEvent e node.info.addr) post fault h := by
  refine wp_mono (wp_forM_range (fun k t => t.swim = h.swim ∧ t.env = h.env ∧
      t.sent = h.sent ++ (h.swim.members.take k).map fun n => ⟨e, n.info.addr⟩) ?_ ⟨rfl, rfl, ?_⟩)
    (fun _ t hend => ?_) fun _ _ hf => hf
  · rintro k t hk ⟨hs, henv, hsent⟩
    obtain ⟨node, hn⟩ := hwf.get_of_lt hk
    rw [wp_bind, wp_nodeAt (hs ▸ hn), swimSendEvent, wp_sendto]
    refine ⟨hs, henv, ?_⟩
    rw [hsent, List.take_add_one, hn, Option.toList_some, List.map_append, List.append_assoc,
      List.map_singleton]
  · rw [List.take_zero, List.map_nil, List.append_nil]
  · obtain ⟨hs, henv, hsent⟩ := hend
    rw [List.take_of_length_le hwf.members_length.le] at hsent
    cases t
    cases hs
    cases henv
    cases hsent
    exact hp

/-- A LEAVE marks the node it names, whoever sent it. -/
theorem wp_leaveEntries (hwf : h.swim.WellFormed) :
    wp (swimProcessLeave v addr)
      (fun _ h' => h.env.malloc 0 = true ∧ ∀ u, h'.swim.find u =
        (h.swim.find u).map fun n => if n.uuid = v then n.del else n)
      (fun _ _ => h.env.malloc 0 = false) h := by
  simp only [swimProcessLeave, swimStateDel, swimProbeInvalidate, wp_bind, wp_getSwim,
    uuidCompare_eq]
  apply wp_ite
  · intro hself
    refine wp_sendWithGossip hwf (fun h' hm hs => ⟨hm, fun u => ?_⟩) fun _ hm _ => hm
    rw [hs.swim]
    exact hwf.find_eq_map _ (.inr (hself ▸ hwf.find_self))
  · intro _
    rw [wp_bind]
    apply wp_search hwf
    · intro hnone
      refine wp_sendWithGossip hwf (fun h' hm hs => ⟨hm, fun u => ?_⟩) fun _ hm _ => hm
      rw [hs.swim]
      exact hwf.find_eq_map _ (.inr hnone)
    · intro i m hi hu
      subst hu
      refine wp_sendWithGossip (hwf.modifyNode NodeState.del_uuid).invalidate
        (fun h' hm hs => ⟨hm, fun u => ?_⟩) fun _ hm _ => hm
      rw [hs.swim]
      exact hwf.find_modifyNode_map NodeState.del_uuid hi u

/-- A LEAVE for `v` from anyone: the sender is noticed before `v` is marked DEAD. -/
theorem wp_leaveProcessed (hwf : h.swim.WellFormed) (hb : e.body = .leave v) :
    wp (swimProcessEvent e addr)
      (fun _ h' => (∀ n, h.swim.find e.hdr.uuid = some n → n.info.Valid) ∧
        h.env.malloc 0 = true ∧ ∀ u, h'.swim.find u = (h.swim.find u).map fun n =>
          if n.uuid = v then (e.noticed n).del else e.noticed n)
      (fun _ _ => (∃ n, h.swim.find e.hdr.uuid = some n ∧ ¬ n.info.Valid) ∨
        h.env.malloc 0 = false) h := by
  rw [swimProcessEvent, wp_bind]
  refine wp_noticed hwf (fun _ h₁ h => ?_) fun n hn hv => .inl ⟨n, hn, hv⟩
  rw [dispatch, hb, ← h.env]
  refine wp_mono (wp_leaveEntries h.wf) (fun _ t ht => ⟨h.valid, ht.1, fun u => ?_⟩)
    fun _ _ hm => .inr hm
  rw [ht.2, h.find, Option.map_map]
  simp only [Function.comp_def, Event.noticed_uuid]

end
end LibSwim
