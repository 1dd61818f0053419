import LibSwim.Run.Outcomes

/-! # Indirect probes

A PING_REQ makes the node suspect its target and remember the requester as the witness; the
ACK of the target is meant to be relayed to the witness. Before the handler of that ACK runs,
its sender is noticed, which ends the suspicion, so that the handler finds nothing to relay
unless the ACK is stale.
-/

namespace LibSwim

open Foundations Program

/-- The node that the body of an event names. -/
def EventBody.subject : EventBody → Option Uuid
  | .ping => none
  | .ack u | .pingReq u | .join u _ | .leave u => some u

/-- An event that neither concerns `v` nor comes from it. -/
def unrelated (v : Uuid) (_ : SWIM) (c : Call) : Prop :=
  ∃ e addr, c.action = .event e addr ∧ e.hdr.uuid ≠ v ∧ e.body.subject ≠ some v ∧
    ∀ g ∈ e.gossip, g.uuid ≠ v

/-- The call sends exactly one ACK for `v` to `w` and leaves `v` ALIVE without a witness. -/
def Answered (v : Uuid) (w : SockAddr) (c : Call) (s : SWIM) : Prop :=
  ∃ s' ps, runStep c s = (.ok (), s', ps) ∧
    (ps.filter fun p => p.event.body = .ack v ∧ p.dest = w).length = 1 ∧
    ∃ n, s'.find v = some n ∧ ¬ swimNodeHasWitness n ∧ n.info.status = .alive

section

variable {s s₁ s₂ : SWIM} {v : Uuid} {w addr : SockAddr} {n : NodeState} {e req ack : Event}
variable {env env₁ : Env}

/-! ## The ACK -/

/-- The entry for `v` between the PING_REQ and the ACK. -/
def Awaiting (w : SockAddr) (n : NodeState) : Prop :=
  n.info.status = .suspect ∧ n.witness = w ∨ n.info.status = .alive

/-- When notice finds the sender fresh, or the suspicion is already over, nothing is sent. -/
theorem wp_ack_silent (hwf : s.WellFormed) (hn : s.find v = some n) (hb : e.body = .ack v)
    (halive : (e.noticed n).info.status = .alive) :
    wp (swimProcessEvent e addr) (fun _ h => h.sent = []) (fun _ _ => True) ⟨s, env, []⟩ := by
  rw [swimProcessEvent, wp_bind]
  refine wp_noticed hwf (fun _ h₁ h => ?_) fun _ _ _ => trivial
  rw [dispatch, hb]
  have hfind : h₁.swim.find v = some (e.noticed n) := by rw [h.find, hn, Option.map_some]
  refine wp_mono (wp_ackSettled h.wf hfind (by simp [halive]) (by simp [halive]))
    (fun _ h' hs => hs.trans h.sent) fun _ _ _ => trivial

/-- A stale ACK finds the suspicion in place and is relayed. -/
theorem wp_ack_stale (env : Env) (addr : SockAddr) (hwf : s.WellFormed) (hn : s.find v = some n)
    (hh : e.hdr.uuid = v) (hb : e.body = .ack v) (hstale : e.hdr.incarnation < n.info.incarnation)
    (hs : n.info.status = .suspect) (hw : swimNodeHasWitness n) :
    wp (swimProcessEvent e addr)
      (fun _ h => (n.info.Valid ∧ env.malloc 0 = true ∧ ∀ g ∈ e.gossip, g.Processable s.uuid) ∧
        (∃ p, h.sent = [p] ∧ p.event.body = .ack v ∧ p.dest = n.witness) ∧
        h.swim.find v = some (mergeAll e.gossip n.refute))
      (fun _ _ => ¬ (n.info.Valid ∧ env.malloc 0 = true ∧ ∀ g ∈ e.gossip, g.Processable s.uuid))
      ⟨s, env, []⟩ := by
  rw [swimProcessEvent, wp_bind]
  refine wp_noticed hwf (fun _ h₁ h => ?_) fun m hm hbad hc => ?_
  · rw [dispatch, hb]
    have hsame : e.noticed n = n := by
      rw [Event.noticed_of_eq ((hwf.find_eq_some.mp hn).2.trans hh.symm),
        NodeState.notice_stale hstale]
    have hfind : h₁.swim.find v = some n := by rw [h.find, hn, Option.map_some, hsame]
    have hvalid := h.valid n (hh ▸ hn)
    refine wp_mono (wp_ackRelayed h.wf hfind hs hw) (fun _ h' hrel => ?_) fun _ _ hbad hc => ?_
    · rw [h.env, h.same.1, h.sent] at hrel
      exact ⟨⟨hvalid, hrel.1, hrel.2.1⟩, hrel.2.2⟩
    · rw [h.env, h.same.1] at hbad
      exact hbad hc.2
  · rw [hh, hn] at hm
    exact hbad (Option.some.inj hm ▸ hc.1)

theorem ack_answered_iff (hwf : s.WellFormed) (hn : s.find v = some n) (ha : Awaiting w n)
    (hw : w.addrlen ≠ 0) (hh : e.hdr.uuid = v) (hb : e.body = .ack v) :
    Answered v w ⟨env, .event e addr⟩ s ↔
      n.info.status = .suspect ∧ e.hdr.incarnation < n.info.incarnation ∧
        (n.info.Valid ∧ env.malloc 0 = true ∧ ∀ g ∈ e.gossip, g.Processable s.uuid) ∧
        (mergeAll e.gossip n.refute).info.status = .alive := by
  by_cases hstale : n.info.status = .suspect ∧ e.hdr.incarnation < n.info.incarnation
  · obtain ⟨hs, hlt⟩ := hstale
    have hwit : n.witness = w := by
      rcases ha with h | h
      · exact h.2
      · simp [hs] at h
    have hspec := wp_ack_stale env addr hwf hn hh hb hlt hs
      (show swimNodeHasWitness n by simpa [swimNodeHasWitness, hwit, Nat.pos_iff_ne_zero] using hw)
    constructor
    · rintro ⟨s', ps, hrun, -, m, hm, -, hal⟩
      obtain ⟨t, ⟨hok, -, hfind⟩, rfl, rfl⟩ := runStep_ok hrun hspec
      rw [hfind] at hm
      exact ⟨hs, hlt, hok, Option.some.inj hm ▸ hal⟩
    · rintro ⟨-, -, hok, hal⟩
      obtain ⟨t, ⟨-, ⟨p, hsent, hp, hd⟩, hfind⟩, hrun⟩ :=
        runStep_total (c := ⟨env, .event e addr⟩) (wp_mono hspec (fun _ _ h => h) fun _ _ h => h hok)
      refine ⟨_, _, hrun, by simp [hsent, hp, hd, hwit], _, hfind, ?_, hal⟩
      rw [swimNodeHasWitness, mergeAll_witness rfl]
      decide
  · have halive : (e.noticed n).info.status = .alive := by
      rw [Event.noticed_of_eq ((hwf.find_eq_some.mp hn).2.trans hh.symm)]
      rcases le_or_gt n.info.incarnation e.hdr.incarnation with hle | hlt
      · exact NodeState.notice_alive hle (ha.symm.imp_right And.left)
      · rw [NodeState.notice_stale hlt]
        exact ha.resolve_left fun h => hstale ⟨h.1, hlt⟩
    constructor
    · rintro ⟨s', ps, hrun, hcount, -⟩
      obtain ⟨t, hsent, -, rfl⟩ := runStep_ok hrun (wp_ack_silent hwf hn hb halive)
      simp [hsent] at hcount
    · exact fun h => absurd ⟨h.1, h.2.1⟩ hstale

/-! ## From the PING_REQ to the ACK -/

theorem pingReq_entry (hwf : s.WellFormed) (hn : s.find v = some n) (hb : req.body = .pingReq v)
    (h : Returns s ⟨env, .event req w⟩ s₁) : s₁.find v = some ((req.noticed n).suspect w) := by
  obtain ⟨ps, hrun⟩ := h
  have hspec : wp (swimProcessEvent req w)
      (fun _ h => h.swim.find v = some ((req.noticed n).suspect w)) (fun _ _ => True)
      ⟨s, env, []⟩ := by
    rw [swimProcessEvent, wp_bind]
    refine wp_noticed hwf (fun _ h₁ h => ?_) fun _ _ _ => trivial
    rw [dispatch, hb]
    exact wp_pingReqEntry h.wf (by rw [h.find, hn, Option.map_some])
  obtain ⟨t, hfind, rfl, -⟩ := runStep_ok hrun hspec
  exact hfind

/-- What unrelated events leave of the entry that a PING_REQ made: an ACK out of order may
end the suspicion of the last member, nothing else changes. -/
def Kept (w : SockAddr) (n m : NodeState) : Prop :=
  m.info.incarnation = n.info.incarnation ∧ m.info.lastSeen = n.info.lastSeen ∧ Awaiting w m

theorem NodeAct.kept {now : ℤ} {s₀ t : SWIM} {c : Call} {m m' k : NodeState}
    (h : NodeAct now s₀ t c.action m m') (hc : unrelated v s₀ c) (hv : m.uuid = v)
    (hk : Kept w k m) : Kept w k m' := by
  obtain ⟨e, addr, hact, hfrom, hsubject, hgossip⟩ := hc
  rw [hact] at h
  cases h with
  | notice _ hu _ => exact absurd (hu.symm.trans hv) hfrom
  | suspect hb | del hb => exact absurd (by rw [hb, EventBody.subject, hv]) hsubject
  | merge _ hg _ hu => exact absurd (hu.trans hv) (hgossip _ hg)
  | refute _ _ _ => exact ⟨hk.1, hk.2.1, .inr rfl⟩

theorem unrelated_kept {c : Call} {k : NodeState} (hwf : s.WellFormed) (hn : s.find v = some n)
    (hk : Kept w k n) (hc : unrelated v s c) (h : Returns s c s₁) :
    ∃ m, s₁.find v = some m ∧ Kept w k m := by
  obtain ⟨ps, hrun⟩ := h
  exact (account hwf hrun).member hwf hn hk fun t m m' _ ha hv hm => ha.kept hc hv hm

theorem run_kept {k : NodeState} (hrun : Run Returns (unrelated v) s₁ s₂) (hwf : s₁.WellFormed)
    (hn : s₁.find v = some n) (hk : Kept w k n) :
    s₂.WellFormed ∧ s₂.uuid = s₁.uuid ∧ ∃ m, s₂.find v = some m ∧ Kept w k m := by
  refine hrun.preserves (I := fun t => t.WellFormed ∧ t.uuid = s₁.uuid ∧
    ∃ m, t.find v = some m ∧ Kept w k m) ?_ ⟨hwf, rfl, n, hn, hk⟩
  rintro t c t' ⟨ht, hu, m, hm, hkm⟩ hc hret
  have hkept := unrelated_kept ht hm hkm hc hret
  obtain ⟨ps, hps⟩ := hret
  have hacc := account ht hps
  exact ⟨hacc.wf, hacc.reached.uuid.trans hu, hkept⟩

/-- A later ACK is stale only if the PING_REQ came from the target itself. -/
theorem stale_iff (hn : n.uuid = v) (hinc : n.info.incarnation ≤ ack.hdr.incarnation) :
    ack.hdr.incarnation < (req.noticed n).info.incarnation ↔
      req.hdr.uuid = v ∧ ack.hdr.incarnation < req.hdr.incarnation := by
  rw [Event.noticed]
  split_ifs with hv
  · rw [NodeState.incarnation_notice]
    constructor
    · exact fun h => ⟨hv.symm.trans hn, by omega⟩
    · rintro ⟨-, h⟩
      omega
  · have hne : req.hdr.uuid ≠ v := fun h => hv (hn.trans h.symm)
    simp [hne, hinc]

end

/-- The requester is answered exactly when the PING_REQ itself came from the target, with an
incarnation above that of the ACK, and nothing in between or in the gossip of the ACK undoes the
suspicion or stops the node. In particular it is not answered when the request comes from another
node. -/
theorem indirect_probe_answered_iff {s s₁ s₂ : SWIM} {v : Uuid} {w addr : SockAddr}
    {c : NodeState} {req ack : Event} {env env₁ : Env} (hwf : s.WellFormed)
    (hc : s.find v = some c) (hinc : c.info.incarnation ≤ ack.hdr.incarnation)
    (hw : w.addrlen ≠ 0) (hreq : req.body = .pingReq v)
    (h₁ : Returns s ⟨env₁, .event req w⟩ s₁) (hrun : Run Returns (unrelated v) s₁ s₂)
    (hh : ack.hdr.uuid = v) (hb : ack.body = .ack v) :
    Answered v w ⟨env, .event ack addr⟩ s₂ ↔
      (req.hdr.uuid = v ∧ ack.hdr.incarnation < req.hdr.incarnation ∧ 0 < req.hdr.time) ∧
        (∃ n, s₂.find v = some n ∧ n.info.status = .suspect ∧
          (mergeAll ack.gossip n.refute).info.status = .alive) ∧
        env.malloc 0 = true ∧ ∀ g ∈ ack.gossip, g.Processable s.uuid := by
  have hcv := (hwf.find_eq_some.mp hc).2
  have hstart := pingReq_entry hwf hc hreq h₁
  obtain ⟨ps, hps⟩ := h₁
  have hacc := account hwf hps
  obtain ⟨hwf₂, hu₂, m, hm, hinc₂, hseen₂, hawait⟩ :=
    run_kept (w := w) hrun hacc.wf hstart ⟨rfl, rfl, .inl ⟨rfl, rfl⟩⟩
  have hfind : ∀ P : NodeState → Prop, (∃ n, s₂.find v = some n ∧ P n) ↔ P m := by
    intro P
    simp [hm]
  have hstale : ack.hdr.incarnation < m.info.incarnation ↔
      req.hdr.uuid = v ∧ ack.hdr.incarnation < req.hdr.incarnation := by
    rw [hinc₂]
    exact stale_iff hcv hinc
  -- the time of a target that asked for itself is that of its request
  have hseen : req.hdr.uuid = v → ack.hdr.incarnation < req.hdr.incarnation →
      m.info.lastSeen = req.hdr.time := by
    intro hv hlt
    rw [hseen₂, Event.noticed_of_eq (hcv.trans hv.symm), NodeState.notice_newer (by omega)]
    rfl
  rw [ack_answered_iff hwf₂ hm hawait hw hh hb, hfind, hstale, hu₂, hacc.reached.uuid]
  constructor
  · rintro ⟨hs, ⟨hv, hlt⟩, ⟨hvalid, hmalloc, hproc⟩, halive⟩
    exact ⟨⟨hv, hlt, hseen hv hlt ▸ hvalid.1⟩, ⟨hs, halive⟩, hmalloc, hproc⟩
  · rintro ⟨⟨hv, hlt, htime⟩, ⟨hs, halive⟩, hmalloc, hproc⟩
    have hvalid : m.info.Valid := ⟨(hseen hv hlt).symm ▸ htime, by simp [hs]⟩
    exact ⟨hs, ⟨hv, hlt⟩, ⟨hvalid, hmalloc, hproc⟩, halive⟩

theorem indirect_probe_answered_self :
    let w : SockAddr := ⟨[7]⟩
    let s := (runStep (joinCall 2 .none) (swimStateInit (.ofByte 1) 1000)).2.1
    let s₁ := (runStep (pingReqCall 2 2 1 w) s).2.1
    Answered (.ofByte 2) w (ackCall 2 0 .none) s₁ := by
  intro w s s₁
  have hwf : s.WellFormed := (returns_of_ok (c := joinCall 2 .none) rfl).wf (.init (.ofByte 1) 1000)
  obtain ⟨c, hc, hinc⟩ : ∃ c, s.find (.ofByte 2) = some c ∧ c.info.incarnation ≤ 0 :=
    ⟨_, rfl, by decide⟩
  have hsuspect : ∃ n, s₁.find (.ofByte 2) = some n ∧ n.info.status = .suspect ∧
      (mergeAll [] n.refute).info.status = .alive :=
    ⟨(s₁.find (.ofByte 2)).get (by decide), (Option.some_get _).symm, by decide, by decide⟩
  exact (indirect_probe_answered_iff (w := w) hwf hc hinc (by decide) rfl
    (returns_of_ok (c := pingReqCall 2 2 1 w) (by decide)) (.refl _) rfl rfl).mpr
    ⟨⟨rfl, by decide, by decide⟩, hsuspect, rfl, by simp⟩

/-- Node 3 asks for a probe of node 2, which then acknowledges: node 3 hears nothing. -/
theorem indirect_probe_unanswered :
    let w : SockAddr := ⟨[7]⟩
    let s := (runStep (joinCall 2 .none) (swimStateInit (.ofByte 1) 1000)).2.1
    let s₁ := (runStep (pingReqCall 3 2 0 w) s).2.1
    (∃ c, s.find (.ofByte 2) = some c ∧ c.info.status ≠ .dead ∧ c.info.incarnation ≤ 0) ∧
      Returns s (pingReqCall 3 2 0 w) s₁ ∧ ¬ Answered (.ofByte 2) w (ackCall 2 0 .none) s₁ := by
  intro w s s₁
  refine ⟨⟨_, rfl, by decide, by decide⟩, returns_of_ok (by decide), ?_⟩
  rintro ⟨s', ps, hrun, hcount, -⟩
  have hsilent : (runStep (ackCall 2 0 .none) s₁).2.2 = [] := by decide
  rw [hrun] at hsilent
  simp [show ps = [] from hsilent] at hcount

end LibSwim
