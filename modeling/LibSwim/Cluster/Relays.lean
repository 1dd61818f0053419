import LibSwim.Cluster.Dissemination
import LibSwim.Cluster.Incarnation

/-! # ACKs that are sent on

PING_REQ asks a node to probe another on the sender's behalf, and the ACK is to be sent on to the
sender. But the ACK comes from the node that it is about, and that node is noticed first, which ends
the suspicion that the request has begun. Only an ACK from an earlier incarnation than the one recorded
finds anything to send on, or one that adds its sender to the view and takes the entry of another node
for the new one. In a cluster where neither happens, every ACK comes from the node that it is about: no
request is ever answered, and a suspicion lasts until its holder hears the suspect itself, or hears of
a later incarnation.
-/

namespace LibSwim

open Foundations Program

/-- An ACK of somebody known is from the incarnation recorded or a later one, and one of somebody who
is not known is in order. -/
structure Action.AcksInTime (s : SWIM) (action : Action) : Prop where
  fresh : ∀ e addr u n, action = .event e addr → e.body = .ack u → s.find e.hdr.uuid = some n →
    n.info.incarnation ≤ e.hdr.incarnation
  inOrder : action.AcksInOrder s

theorem Action.acksInTime_of_not_ack {s : SWIM} {action : Action}
    (h : ∀ e addr u, action = .event e addr → e.body ≠ .ack u) : action.AcksInTime s := by
  refine ⟨fun e addr u n ha hb => absurd hb (h e addr u ha), ?_⟩
  cases action with
  | event e addr =>
    obtain ⟨hdr, body, gossip⟩ := e
    cases body with
    | ack u => exact absurd rfl (h _ _ u rfl)
    | ping | pingReq | join | leave => trivial
  | heartbeat | join | leave => trivial

/-- An ACK is about its sender. -/
def Event.Direct (e : Event) : Prop := ∀ u, e.body = .ack u → u = e.hdr.uuid

section

variable {s s₀ t : SWIM} {h : Host} {e : Event} {addr : SockAddr} {env : Env} {u v : Uuid} {i k : ℕ}
variable {now : ℤ} {action : Action} {n n' node : NodeState} {info : NodeInfo}

/-! ## Nothing to send on -/

theorem NodeState.notice_not_suspect {time : ℤ} {incarnation : ℕ}
    (h : n.info.incarnation ≤ incarnation) : (n.notice time incarnation).info.status ≠ .suspect := by
  rcases h.lt_or_eq with hlt | heq
  · rw [notice_newer hlt]
    rintro ⟨⟩
  · rcases (notice_same heq.symm).2 with halive | ⟨hsame, hdead | ⟨m, hother⟩⟩
    · rw [halive]
      decide
    · rw [hsame, hdead]
      decide
    · rw [hsame, hother]
      rintro ⟨⟩

/-- Nothing has been sent. -/
abbrev Silent (h : Host) : Prop := Outbox (fun _ => True) (fun _ => False) h

theorem silent_of_sent {h' : Host} (hs : Silent h) (hsent : h'.sent = h.sent) : Silent h' :=
  ⟨fun _ => trivial, hsent ▸ hs.2⟩

theorem wp_ackSwitchSilent (hi : h.swim.members[i]? = some node) (hn : node.info.status ≠ .suspect)
    (hs : Silent h) : wp (ackSwitch u i) (fun _ => Silent) (fun _ => Silent) h := by
  rw [ackSwitch, wp_bind, wp_nodeAt hi]
  cases hstatus : node.info.status with
  | suspect => exact absurd hstatus hn
  | unknown => exact outbox_modifyNode i NodeState.refute h hs
  | dead | alive | other k => exact hs

/-- The switch looks at the entry of the sender, old or new, and it is not SUSPECT. -/
theorem wp_ackSilent (hwf : h.swim.WellFormed)
    (hn : ∀ n, h.swim.find v = some n → n.info.status ≠ .suspect)
    (ho : h.swim.find v = none → v ≠ h.swim.uuid → ∀ m ∈ h.swim.members, m.uuid < v)
    (hs : Silent h) : wp (swimProcessAck e v addr) (fun _ => Silent) (fun _ => Silent) h := by
  simp only [swimProcessAck, ackNode, wp_bind, wp_getSwim, uuidCompare_eq]
  refine wp_ite (fun _ => hs) fun hself => ?_
  simp only [wp_bind]
  refine wp_search hwf (fun hfresh => ?_) fun i node hi hu => ?_
  · refine wp_swimStateAdd hwf hself hfresh (fun h' hquiet _ => silent_of_sent hs hquiet.2.1) ?_
    intro h' node last hadd
    obtain rfl : last = node := hadd.last_eq (ho hfresh hself)
    have hunknown : last.info.status ≠ .suspect := by
      rw [hadd.info_eq]
      rintro ⟨⟩
    rw [wp_bind]
    exact wp_mono (wp_ackSwitchSilent hadd.last_get hunknown (silent_of_sent hs hadd.sent))
      (fun _ h₁ hs₁ => outbox_gossip e.gossip h₁ hs₁) fun _ _ => id
  · have hfind : h.swim.find v = some node := hu ▸ hwf.find_of_get hi
    simp only [wp_pure, wp_bind]
    exact wp_mono (wp_ackSwitchSilent hi (hn node hfind) hs)
      (fun _ h₁ hs₁ => outbox_gossip e.gossip h₁ hs₁) fun _ _ => id

theorem ack_silent (hwf : s.WellFormed) (hb : e.body = .ack e.hdr.uuid)
    (ht : (Action.event e addr).AcksInTime s) : (runStep ⟨env, .event e addr⟩ s).2.2 = [] := by
  have hstart : Silent ⟨s, env, []⟩ := ⟨fun _ => trivial, by simp⟩
  have hspec : wp (swimProcessEvent e addr) (fun _ => Silent) (fun _ => Silent) ⟨s, env, []⟩ := by
    rw [swimProcessEvent, wp_bind]
    refine wp_noticed hwf (fun _ h₁ hn => ?_) fun _ _ _ => hstart
    rw [dispatch, hb]
    refine wp_ackSilent hn.wf (fun n hfind => ?_) (fun hfresh hself => ?_)
      (silent_of_sent hstart hn.sent)
    · rw [hn.find, Option.map_eq_some_iff] at hfind
      obtain ⟨m, hm, rfl⟩ := hfind
      rw [Event.noticed_of_eq (hwf.find_eq_some.mp hm).2]
      exact NodeState.notice_not_suspect (ht.fresh e addr _ m rfl hb hm)
    · rw [hn.find, Option.map_eq_none_iff] at hfresh
      have horder := ht.inOrder.of_ack hb
      have hlt := (horder.resolve_left (hn.same.1 ▸ hself)).resolve_left (not_not.mpr hfresh)
      intro m hm
      obtain ⟨m', hm', -⟩ := Option.map_eq_some_iff.mp ((hn.find m.uuid).symm.trans
        (hn.wf.find_eq_some.mpr ⟨hm, rfl⟩))
      obtain ⟨hmem, hu⟩ := hwf.find_eq_some.mp hm'
      exact hu ▸ hlt m' hmem
  exact List.eq_nil_iff_forall_not_mem.mpr (wp_final hspec).2

/-! ## What ends a suspicion -/

/-- Held for more than ALIVE in incarnation `k`. -/
def NodeState.Doubted (k : ℕ) (n : NodeState) : Prop :=
  n.info.incarnation = k ∧ Status.alive.code < n.info.status.code

theorem NodeState.Doubted.merge (hn : n.Doubted k) (hk : info.incarnation ≤ k) :
    (n.merge info).Doubted k := by
  obtain ⟨hinc, hcode⟩ := hn
  rcases (hinc ▸ hk).lt_or_eq with hlt | heq
  · rw [merge_stale hlt]
    exact ⟨hinc, hcode⟩
  · refine ⟨(merge_same heq).trans hinc, ?_⟩
    cases hs : n.info.status with
    | unknown | alive =>
      rw [hs] at hcode
      exact absurd hcode (by decide)
    | suspect =>
      rcases lt_trichotomy info.status.code n.info.status.code with hlower | hsame | hhigher
      · rw [merge_lower heq (.inr hs) hlower]
        exact hcode
      · rw [merge_refresh heq (.inr hs) (Status.code_injective hsame)]
        exact hcode
      · rw [merge_higher heq (.inr hs) hhigher]
        exact hcode.trans hhigher
    | dead =>
      rw [merge_dead heq hs]
      exact hcode
    | other m =>
      rw [NodeState.merge, if_neg heq.not_gt, if_pos heq, hs]
      exact hcode

/-- The suspicion outlives every assignment but those that the suspect itself has set off. -/
theorem NodeAct.doubted (h : NodeAct now s₀ t action n n') (hu : n.uuid = v)
    (ha : action.Brings fun e => e.Direct ∧ e.hdr.uuid ≠ v ∧
      ∀ g ∈ e.gossip, g.uuid = v → g.incarnation ≤ k)
    (ho : action.AcksInOrder s₀) (hmember : ∃ m ∈ s₀.members, m.uuid = v) (hn : n.Doubted k) :
    n'.Doubted k := by
  have hsuspect : Status.alive.code < Status.suspect.code := by decide
  have hdead : Status.alive.code < Status.dead.code := by decide
  cases h with
  | notice _ hsender _ => exact absurd (hsender.symm.trans hu) ha.2.1
  | suspect _ | suspectDead _ _ => exact ⟨hn.1, hsuspect⟩
  | merge _ hg _ hgu => exact hn.merge (ha.2.2 _ hg (hgu.trans hu))
  | refute hb ht _ =>
    have hsubject := ht.uuid_eq hb ho (hu ▸ hmember)
    exact absurd ((ha.1 _ hb).symm.trans (hsubject.symm.trans hu)) ha.2.1
  | del _ | declareDead _ _ => exact ⟨hn.1, hdead⟩

end

namespace World

variable {ι : Type} {uuid : ι → Uuid} {now : ι → ℤ} {w w' : World ι}

/-- A call at which no ACK is late. -/
def InTime (w : World ι) (l : ι × Call) : Prop := w.Admits l ∧ l.2.action.AcksInTime (w.nodes l.1)

/-- All ACKs come from the nodes that they are about. -/
structure Straight (uuid : ι → Uuid) (w : World ι) : Prop where
  sound : w.Sound uuid
  direct : w.Upholds (fun _ => True) Event.Direct

theorem Straight.brings (h : w.Straight uuid) {action : Action} (ha : action.Possible w.network) :
    action.Brings Event.Direct := h.direct.brings h.sound ha fun _ he => he

variable [DecidableEq ι]

theorem Straight.step (h : w.Straight uuid) {l : ι × Call} (ha : w.InTime l) (hs : w.Step l w') :
    w'.Straight uuid := by
  obtain ⟨i, env, action⟩ := l
  refine ⟨h.sound.step ha.1 hs, ?_⟩
  obtain rfl := hs
  refine h.direct.call h.sound (h.direct.views i) (fun n => id) ?_ ?_ ?_ ?_
  · exact fun _ _ _ _ _ _ => trivial
  · exact fun _ _ _ _ _ _ _ => trivial
  · intro t time body gossip dest hmid _ hact _ hp
    cases hact with
    | answer _ =>
      rintro _ ⟨rfl⟩
      exact hmid.uuid.trans (h.sound.uuid i)
    | @relay e addr u node hb _ _ _ _ =>
      -- the packet would be one that the call has sent
      obtain rfl := (h.brings ha.1.2).event rfl u hb
      have hnil : w.packets i ⟨env, .event e addr⟩ = [] := ack_silent (h.sound.wf i) hb ha.2
      rw [hnil] at hp
      cases hp
    | indirect | probe | request | join | leave => rintro _ ⟨⟩
  · rintro e addr u a - - _ ⟨⟩

theorem straight_of_run (h : Run Step InTime (World.init uuid now) w) : w.Straight uuid :=
  h.preserves (fun _ _ _ ht ha hs => ht.step ha hs) ⟨.init uuid now, .init _ _ uuid now⟩

/-- In every run in which no ACK is late: every ACK was sent by the node that it is about, so none was
ever sent on for another node; and when a call makes an entry ALIVE that was SUSPECT, it has processed
an event from the suspect itself or gossip of a later incarnation of it. -/
theorem suspicion_ends_with_suspect (h : Run Step InTime (World.init uuid now) w) :
    (∀ p ∈ w.network, ∀ u, p.event.body = .ack u → u = p.event.hdr.uuid) ∧
    ∀ i c v n m, w.InTime (i, c) → (w.nodes i).find v = some n → n.info.status = .suspect →
      ((w.call i c).nodes i).find v = some m → m.info.status = .alive →
      ∃ e addr, c.action = .event e addr ∧
        (e.hdr.uuid = v ∨ ∃ g ∈ e.gossip, g.uuid = v ∧ n.info.incarnation < g.incarnation) := by
  have hstraight := straight_of_run h
  refine ⟨hstraight.direct.network, ?_⟩
  intro i c v n m ha hn hsuspect hm halive
  by_contra hnone
  -- what the call brings comes from others and speaks of no later incarnation
  have hbrings : c.action.Brings fun e => e.Direct ∧ e.hdr.uuid ≠ v ∧
      ∀ g ∈ e.gossip, g.uuid = v → g.incarnation ≤ n.info.incarnation := by
    have hdirect := hstraight.brings ha.1.2
    cases haction : c.action with
    | event e addr =>
      refine ⟨hdirect.event haction, fun hu => hnone ⟨e, addr, haction, .inl hu⟩, fun g hg hu => ?_⟩
      by_contra hlater
      exact hnone ⟨e, addr, haction, .inr ⟨g, hg, hu, not_le.mp hlater⟩⟩
    | heartbeat | join _ | leave => trivial
  have hwf := hstraight.sound.wf i
  have hmember : ∃ m ∈ (w.nodes i).members, m.uuid = v := ⟨n, hwf.find_eq_some.mp hn⟩
  have hdoubted : n.Doubted n.info.incarnation := ⟨rfl, by rw [hsuspect]; decide⟩
  obtain ⟨m', hm', hstill⟩ := (hstraight.sound.account i c).member hwf hn hdoubted
    fun _ _ _ _ hact hu hd => hact.doubted hu hbrings ha.2.inOrder hmember hd
  rw [call_nodes, Function.update_self] at hm
  obtain rfl : m' = m := Option.some.inj (hm'.symm.trans hm)
  have hcode := hstill.2
  rw [halive] at hcode
  exact absurd hcode (lt_irrefl _)

/-- Node 2 has answered the PING in which node 1 says that it suspects it. -/
def answered : World Bool := suspected.call true ⟨steadyEnv 1080, .event suspicion .none⟩

def answer : Event := ⟨⟨pair true, 1080, 0⟩, .ack (pair true), []⟩

theorem answered_run : Run Step InTime (World.init pair fun _ => 1000) answered := by
  have hgreeted : Run Step InTime (World.init pair fun _ => 1000) greeted :=
    greeted_run ⟨⟨rfl, trivial⟩, Action.acksInTime_of_not_ack (by rintro _ _ _ ⟨⟩)⟩
      ⟨joined_admits, Action.acksInTime_of_not_ack (by rintro _ _ _ ⟨⟩ ⟨⟩)⟩
  have hbeat : ∀ (w : World Bool) (now : ℤ), w.running false = true →
      w.InTime (false, ⟨steadyEnv now, .heartbeat⟩) :=
    fun _ _ hrunning => ⟨⟨hrunning, trivial⟩, Action.acksInTime_of_not_ack (by rintro _ _ _ ⟨⟩)⟩
  have hsuspected : Run Step InTime (World.init pair fun _ => 1000) suspected :=
    (hgreeted.tail (hbeat _ 1070 (by decide)) rfl).tail (hbeat _ 1080 (by decide)) rfl
  have hadmits : suspected.Admits (true, ⟨steadyEnv 1080, .event suspicion .none⟩) :=
    (straight_of_run hsuspected).sound.delivers (p := ⟨suspicion, .none⟩) (by decide) (by decide)
      (by decide) _
  exact hsuspected.tail (l := (true, _))
    ⟨hadmits, Action.acksInTime_of_not_ack (by rintro _ _ _ ⟨⟩ ⟨⟩)⟩ rfl

/-- The answer ends the suspicion. -/
theorem suspicion_ends_with_suspect_pair :
    let c : Call := ⟨steadyEnv 1080, .event answer .none⟩
    ((answered.nodes false).find (pair true)).map (fun n => n.info.status) = some .suspect ∧
    (((answered.call false c).nodes false).find (pair true)).map (fun n => n.info.status) =
      some .alive ∧
    ∃ e addr, c.action = .event e addr ∧
      (e.hdr.uuid = pair true ∨ ∃ g ∈ e.gossip, g.uuid = pair true ∧ 0 < g.incarnation) := by
  intro c
  have hbefore : ((answered.nodes false).find (pair true)).map (fun n => (n.info.status,
      n.info.incarnation)) = some (.suspect, 0) := by decide +kernel
  have hafter : (((answered.call false c).nodes false).find (pair true)).map
      (fun n => n.info.status) = some .alive := by decide +kernel
  obtain ⟨n, hn, hpair⟩ := Option.map_eq_some_iff.mp hbefore
  obtain ⟨m, hm, halive⟩ := Option.map_eq_some_iff.mp hafter
  obtain ⟨hstatus, hinc⟩ := Prod.mk.inj hpair
  have hintime : answered.InTime (false, c) := by
    refine ⟨(straight_of_run answered_run).sound.delivers (p := ⟨answer, .none⟩) (by decide +kernel)
      (by decide +kernel) (by decide) _, ?_, .inr (.inl (Option.ne_none_iff_exists'.mpr ⟨n, hn⟩))⟩
    rintro _ _ _ n' ⟨⟩ - hn'
    obtain rfl := Option.some.inj (hn.symm.trans hn')
    exact hinc.le
  refine ⟨by rw [hn, Option.map_some, hstatus], hafter, ?_⟩
  rw [← hinc]
  exact (suspicion_ends_with_suspect answered_run).2 false c _ n m hintime hn hstatus hm halive

end World
end LibSwim
