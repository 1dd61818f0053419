import LibSwim.Cluster.Completeness
import LibSwim.Gossip.Attached
import LibSwim.Gossip.Piggyback
import LibSwim.Step.Clock

/-! # News travel with every PING

A node with a view below the limit attaches all of it to the PING of a heartbeat, and to the ACK with
which it answers a PING. Who reads such a packet holds every node for at least what the sender held it
for. So what one node holds against `v` is held by whoever a chain of packets reaches, however the
packets are delayed and whatever else happens in between.
-/

namespace LibSwim

open Foundations Program

/-! ## Senders -/

section

variable {s : SWIM} {env : Env} {e : Event} {addr : SockAddr} {h : Host} {v : Uuid} {n : NodeState}

/-- The PING of a heartbeat carries the view as it was before the heartbeat. -/
theorem heartbeat_shares (hwf : s.WellFormed) (hsize : s.viewSize < swimMaxGossipSize)
    (hn : s.find v = some n) :
    ∀ p ∈ (runStep ⟨env, .heartbeat⟩ s).2.2, p.event.body = .ping → n.info ∈ p.event.gossip := by
  let Q : Packet → Prop := fun p => p.event.body = .ping → n.info ∈ p.event.gossip
  have hloop : ∀ now is, Maintains (Outbox (fun _ => True) Q) (forM is (heartbeatMember now)) :=
    fun now is => outbox_heartbeatLoop now is fun _ _ _ _ _ hb => by cases hb
  have hnothing : ∀ h : Host, h.sent = [] → Outbox (fun _ => True) Q h :=
    fun h hsent => ⟨fun _ => trivial, by rw [hsent]; simp⟩
  have hspec : wp swimClusterHeartbeat (fun _ => Outbox (fun _ => True) Q)
      (fun _ => Outbox (fun _ => True) Q) ⟨s, env, []⟩ := by
    rw [swimClusterHeartbeat, wp_bind]
    apply wp_time
    intro h₁ hq _
    rw [wp_bind, wp_getSwim]
    refine wp_ite (fun _ => ?_) fun _ => hnothing h₁ hq.2.1
    rw [wp_bind]
    refine wp_swimProbeNext (hq.1 ▸ hwf) fun target h₂ hprobed => ?_
    have hsent : h₂.sent = [] := hprobed.scheduled.sent.trans hq.2.1
    have hmembers : h₂.swim.members = s.members := by rw [hprobed.scheduled.members, hq.1]
    have hsize₂ : h₂.swim.viewSize < swimMaxGossipSize := by rwa [hprobed.scheduled.swim, hq.1]
    rw [wp_bind, wp_modifySwim]
    cases target with
    | none => exact hloop _ _ _ (hnothing _ hsent)
    | some idx =>
      obtain ⟨node, hnode, -⟩ := hprobed.target
      rw [← hprobed.scheduled.members] at hnode
      have hnode' : ({ h₂ with swim := { h₂.swim with lastHeartbeat := env.time 0 } } :
        Host).swim.members[idx]? = some node := hnode
      rw [wp_bind, wp_nodeAt hnode', wp_bind]
      refine wp_sendWithGossip_copies hprobed.wf.size_le_length
        (fun h₃ time gossip _ _ _ hcopies hsent₃ => hloop _ _ h₃ ⟨fun _ => trivial, ?_⟩)
        fun h₃ _ hq₃ => hnothing h₃ (hq₃.2.1.trans hsent)
      rw [hsent₃, hsent]
      intro p hp _
      obtain rfl := List.mem_singleton.mp hp
      have hgossip : gossip = h₂.swim.members.map NodeState.info :=
        hcopies.eq_members hprobed.wf.size_le_length hsize₂
      rw [hgossip, hmembers]
      exact List.mem_map_of_mem (hwf.find_eq_some.mp hn).1
  exact (wp_final hspec).2

/-- The ACK to a PING carries the view after its sender has been noticed. -/
theorem ping_shares (hwf : s.WellFormed) (hsize : s.viewSize < swimMaxGossipSize)
    (hn : s.find v = some n) (hb : e.body = .ping) (hsender : e.hdr.uuid ≠ v) :
    ∀ p ∈ (runStep ⟨env, .event e addr⟩ s).2.2, n.info ∈ p.event.gossip := by
  let Q : Packet → Prop := fun p => n.info ∈ p.event.gossip
  have hnothing : ∀ h : Host, h.sent = [] → Outbox (fun _ => True) Q h :=
    fun h hsent => ⟨fun _ => trivial, by rw [hsent]; simp⟩
  have hspec : wp (swimProcessEvent e addr) (fun _ => Outbox (fun _ => True) Q)
      (fun _ => Outbox (fun _ => True) Q) ⟨s, env, []⟩ := by
    rw [swimProcessEvent, wp_bind]
    refine wp_noticed hwf (fun _ h₁ hnoticed => ?_) fun _ _ _ => hnothing _ rfl
    have hne : n.uuid ≠ e.hdr.uuid := by
      rw [(hwf.find_eq_some.mp hn).2]
      exact hsender.symm
    have hn₁ : h₁.swim.find v = some n := by
      rw [hnoticed.find, hn, Option.map_some, Event.noticed_of_ne hne]
    have hsize₁ : h₁.swim.viewSize ≤ s.uuids.length := by
      refine hnoticed.wf.viewSize_le fun u hu => (SWIM.mem_uuids hwf).mpr fun hnone => hu ?_
      rw [hnoticed.find, hnone, Option.map_none]
    rw [SWIM.uuids, List.length_map, hwf.members_length] at hsize₁
    rw [dispatch, hb]
    simp only [swimProcessPing, swimSendAck, wp_bind, wp_getSwim]
    refine wp_sendWithGossip_copies hnoticed.wf.size_le_length
      (fun h₂ time gossip _ _ _ hcopies hsent => outbox_gossip _ h₂ ⟨fun _ => trivial, ?_⟩)
      fun h₂ _ hq => hnothing h₂ (hq.2.1.trans hnoticed.sent)
    rw [hsent, hnoticed.sent]
    intro p hp
    obtain rfl := List.mem_singleton.mp hp
    have hgossip : gossip = h₁.swim.members.map NodeState.info :=
      hcopies.eq_members hnoticed.wf.size_le_length (hsize₁.trans_lt hsize)
    change n.info ∈ gossip
    rw [hgossip]
    exact List.mem_map_of_mem (hnoticed.wf.find_eq_some.mp hn₁).1
  exact (wp_final hspec).2

end

/-! ## Readers -/

section

variable {s : SWIM} {env : Env} {e : Event} {addr : SockAddr} {h : Host} {v u : Uuid} {n : NodeState}
variable {gs : List NodeInfo} {o : Option NodeInfo} {k : ℕ} {T : ℤ} {rank : Status}

/-- Gossip that has been processed is in the records. -/
theorem wp_gossipReturned (gs : List NodeInfo) (hwf : h.swim.WellFormed) (ha : h.env.Allocates)
    (hv : v ≠ h.swim.uuid) :
    wp (swimProcessGossip gs) (fun _ h' => h'.swim.record v = absorbAll v gs (h.swim.record v))
      (fun _ _ => True) h := by
  by_cases hgs : ∀ g ∈ gs, g.Processable h.swim.uuid
  · exact wp_mono (wp_gossipRecords hwf ha hgs) (fun _ h' hend => hend.2.2 v hv) fun _ _ _ => trivial
  · exact wp_mono (wp_processable gs hwf) (fun _ _ hall => absurd hall hgs) fun _ _ _ => trivial

/-- Entries are rewritten, but not that of `v`. -/
theorem SWIM.WellFormed.record_same {s' : SWIM} {f : NodeState → NodeState} (hwf : s.WellFormed)
    (hfind : s'.find v = (s.find v).map f) (hf : ∀ n, n.uuid = v → f n = n) :
    s'.record v = s.record v := by
  rw [SWIM.record, hfind, SWIM.record]
  cases hn : s.find v with
  | none => rfl
  | some n => rw [Option.map_some, hf n (hwf.find_eq_some.mp hn).2]

/-- In order, an ACK rewrites no record but that of its subject. -/
theorem Added.last_eq {node last : NodeState} {info : NodeInfo} {h' : Host}
    (ha : Added h info node last h') (hlt : ∀ m ∈ h.swim.members, m.uuid < info.uuid) :
    last = node := by
  rcases ha.last_mem with hlast | hmem
  · exact hlast
  · have hle := ha.last_max node (.inl rfl)
    have hnode : node.uuid = info.uuid := congrArg NodeInfo.uuid ha.info_eq
    exact absurd (hlt last hmem) (hnode ▸ hle).not_gt

/-- An event that reads its gossip does to the record of a third node what the gossip says. -/
theorem wp_thirdRecord (hwf : s.WellFormed) (ha : env.Allocates) (hv : v ≠ s.uuid)
    (hreads : e.body.ReadsGossip s.uuid) (hhushes : e.Hushes v)
    (horder : (Action.event e addr).AcksInOrder s) :
    wp (swimProcessEvent e addr) (fun _ h' => h'.swim.record v = absorbAll v e.gossip (s.record v))
      (fun _ _ => True) ⟨s, env, []⟩ := by
  rw [swimProcessEvent, wp_bind]
  refine wp_noticed hwf (fun _ h₁ hn => ?_) fun _ _ _ => trivial
  have ha₁ : h₁.env.Allocates := hn.env ▸ ha
  have hv₁ : v ≠ h₁.swim.uuid := hn.same.1 ▸ hv
  have hrecord : h₁.swim.record v = s.record v :=
    hwf.record_same (hn.find v) fun n hu => Event.noticed_of_ne (hu ▸ hhushes.1.symm)
  rw [dispatch, ← hrecord]
  cases hb : e.body with
  | ping =>
    simp only [swimProcessPing, swimSendAck, wp_bind, wp_getSwim]
    refine wp_sendWithGossip hn.wf (fun h₂ _ hs => ?_) fun _ _ _ => trivial
    rw [← hs.swim]
    exact wp_gossipReturned _ (hs.swim ▸ hn.wf) (hs.later.allocates ha₁) (hs.swim ▸ hv₁)
  | ack u =>
    obtain ⟨hdr, body, gossip⟩ := e
    subst hb
    have huv : u ≠ v := fun hu => hhushes.2 (congrArg some hu)
    have hswitched : ∀ node h₂ h₃, node.uuid ≠ v → h₂.swim.WellFormed → h₂.swim.record v = h₁.swim.record v →
        h₂.swim.uuid = h₁.swim.uuid → h₂.env.Allocates → Switched node h₂ h₃ →
        wp (swimProcessGossip gossip) (fun _ h' => h'.swim.record v = absorbAll v gossip (h₁.swim.record v))
          (fun _ _ => True) h₃ := by
      intro node h₂ h₃ hne hwf₂ hrec hu ha₂ hs
      have hsame : h₃.swim.record v = h₂.swim.record v :=
        hwf₂.record_same (hs.find v) fun n hn => if_neg fun hnu => hne (hnu.symm.trans hn)
      rw [← hrec, ← hsame]
      exact wp_gossipReturned _ hs.wf (hs.later.allocates ha₂) (hs.same.1.trans hu ▸ hv₁)
    cases hfind : h₁.swim.find u with
    | some m =>
      refine wp_ackMember hn.wf hfind (fun h₂ hs => ?_) fun _ _ _ => trivial
      have hmu := (hn.wf.find_eq_some.mp hfind).2
      exact hswitched m h₁ h₂ (hmu ▸ huv) hn.wf rfl rfl ha₁ hs
    | none =>
      refine wp_ackFresh hn.wf (hn.same.1 ▸ hreads) hfind (fun h₂ h₃ node last hadd hs => ?_)
        fun _ _ _ => trivial
      have hnode : node.uuid = u := congrArg NodeInfo.uuid hadd.info_eq
      have hnone : s.find u = none := Option.map_eq_none_iff.mp ((hn.find u).symm.trans hfind)
      have hlast : last = node := by
        refine hadd.last_eq fun m hm => ?_
        have hknown : m.uuid ∈ s.uuids := by
          refine (SWIM.mem_uuids hwf).mpr fun hnot => ?_
          have hm' := hn.wf.mem_iff_find.mp hm
          rw [hn.find, hnot, Option.map_none] at hm'
          cases hm'
        obtain ⟨m', hm', hmu⟩ := List.mem_map.mp hknown
        rcases horder with hself | hmember | hgreatest
        · exact absurd hself hreads
        · exact absurd hnone hmember
        · exact hmu ▸ hgreatest m' hm'
      refine hswitched last h₂ h₃ (hlast ▸ hnode ▸ huv) hadd.wf ?_ hadd.same.1 (hadd.later.allocates ha₁) hs
      rw [SWIM.record, hadd.find, SWIM.record]
      exact congrArg _ (Function.update_of_ne huv.symm _ _)
  | pingReq | join | leave =>
    rw [hb] at hreads
    exact hreads.elim

theorem absorbAll_filter :
    absorbAll v (gs.filter fun g => g.uuid = v) o = absorbAll v gs o := by
  induction gs generalizing o with
  | nil => rfl
  | cons g gs ih =>
    rw [List.filter_cons]
    by_cases hg : g.uuid = v
    · rw [if_pos (by simpa using hg)]
      exact ih
    · rw [if_neg (by simpa using hg), ih, absorbAll, absorbAll, List.foldl_cons, absorb, if_neg hg]

/-- Whatever is heard of `v` is in its record, if no record is of unknown status. -/
theorem absorbAll_hears {g : NodeInfo} (ho : ∀ i ∈ o, i.status.Known)
    (hgs : ∀ g ∈ gs, g.Within v k T) (hg : g ∈ gs) (hv : g.uuid = v) : Covers (absorbAll v gs o) g := by
  rw [← absorbAll_filter]
  refine (absorbAll_covers ho fun g' hg' => ?_).2 g ?_ hv
  · rw [List.mem_filter, decide_eq_true_eq] at hg'
    exact (hgs g' hg'.1 hg'.2).2.2
  · rw [List.mem_filter, decide_eq_true_eq]
    exact ⟨hg, hv⟩

end

namespace World

variable {ι : Type} {uuid : ι → Uuid} {now : ι → ℤ} {w w₁ w₂ w' : World ι} {v : Uuid} {k : ℕ} {T : ℤ}
variable {i j : ι} {c d : Call} {p : Packet} {rank : Status} {n : NodeState}

/-- In the call `c` node `i` sends a packet that carries its view: the PING of a heartbeat, or the
ACK to a PING. -/
structure Shares (w : World ι) (i : ι) (c : Call) (p : Packet) : Prop where
  sent : p ∈ w.packets i c
  small : (w.nodes i).viewSize < swimMaxGossipSize
  kind : (c.action = .heartbeat ∧ p.event.body = .ping) ∨
    ∃ e addr, c.action = .event e addr ∧ e.body = .ping

/-- In the call `d` node `j` reads the gossip of the packet, and returns. -/
structure Reads (uuid : ι → Uuid) (w : World ι) (j : ι) (d : Call) (p : Packet) : Prop where
  arrives : ∃ e addr, d.action = .event e addr ∧ p.event.Arrives e
  reads : p.event.body.ReadsGossip (uuid j)
  allocates : d.env.Allocates
  returns : (runStep d (w.nodes j)).1 = .ok ()

/-- The packet carries what its sender holds against `v`. -/
theorem Shares.entry (h : w.Shares i c p) (hsound : w.Sound uuid) (ha : w.Hushed v (i, c))
    (hn : (w.nodes i).find v = some n) : n.info ∈ p.event.gossip := by
  obtain ⟨env, action⟩ := c
  rcases h.kind with ⟨rfl, hb⟩ | ⟨e, addr, rfl, hb⟩
  · exact heartbeat_shares (hsound.wf i) h.small hn p h.sent hb
  · exact ping_shares (hsound.wf i) h.small hn hb ha.hushes.1 p h.sent

variable [DecidableEq ι]

/-- Who reads it holds at least that against `v`. -/
theorem Condemns.read (h : w.Condemns uuid v k T i rank) (ha : w.Hushed v (j, d))
    (hreads : w.Reads uuid j d p) (hother : uuid j ≠ v) (hp : p ∈ w.network) {g : NodeInfo}
    (hg : g ∈ p.event.gossip) (hv : g.uuid = v) (hk : g.incarnation = k)
    (hrank : rank.code ≤ g.status.code) : (w.call j d).Condemns uuid v k T j rank := by
  have hstale := h.stale.call h.sound ha
  refine ⟨h.sound.step ha.admits rfl, hstale, ?_⟩
  obtain ⟨e, addr, hact, harr⟩ := hreads.arrives
  obtain ⟨env, action⟩ := d
  subst hact
  have hevent := harr.eq (h.sound.network p hp)
  have hself : v ≠ (w.nodes j).uuid := h.sound.uuid j ▸ hother.symm
  have hbody : e.body.ReadsGossip (w.nodes j).uuid := by
    rw [h.sound.uuid j, hevent]
    exact hreads.reads
  obtain ⟨s', ps, hrun⟩ : ∃ s' ps, runStep ⟨env, .event e addr⟩ (w.nodes j) = (.ok (), s', ps) :=
    ⟨_, _, Prod.ext hreads.returns rfl⟩
  obtain ⟨t, hrecord, rfl, -⟩ := runStep_ok hrun
    (wp_thirdRecord (h.sound.wf j) hreads.allocates hself hbody ha.hushes ha.inOrder)
  -- what was heard is in the record, and nothing newer can be
  have hgossip : ∀ g ∈ e.gossip, g.Within v k T := by
    rw [hevent]
    exact h.stale.network p hp
  have hcovers : Covers (t.swim.record v) g := by
    rw [hrecord]
    refine absorbAll_hears (fun info hinfo => ?_) hgossip (hevent ▸ hg) hv
    obtain ⟨n, hn, rfl⟩ := Option.map_eq_some_iff.mp hinfo
    exact (h.stale.views j v n hn ((h.sound.wf j).find_eq_some.mp hn).2).2.2
  obtain ⟨info, hinfo, hle⟩ := hcovers
  obtain ⟨n, hn, rfl⟩ := Option.map_eq_some_iff.mp hinfo
  have hentry : ((w.call j ⟨env, .event e addr⟩).nodes j).find v = some n := by
    rw [call_nodes, Function.update_self, result, hrun, hn]
  have hwf' := (h.sound.step ha.admits rfl).wf j
  obtain ⟨hinc, hseen, hknown⟩ := hstale.views j v n hentry (hwf'.find_eq_some.mp hentry).2
  rcases Prod.Lex.toLex_le_toLex.mp hle with hlt | ⟨heq, hcode⟩
  · exact absurd hinc (hk ▸ hlt).not_ge
  · exact ⟨n, hentry, heq.symm.trans hk, hseen, hknown, hrank.trans hcode⟩

end World
end LibSwim
