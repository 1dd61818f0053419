import LibSwim.Run.Steps

/-! # Members are valid

The assertions on gossip and on the sender of an event rest on every member having been seen
and having a status. Entries come into the view from a JOIN, from gossip and from an ACK; the
last path writes an UNKNOWN entry and repairs the last entry of the view, which is another one
unless the new UUID is the greatest.
-/

namespace LibSwim

open Foundations

/-- Seen at some time, with a status that the program assigns. -/
def NodeInfo.Tracked (info : NodeInfo) : Prop := 0 < info.lastSeen ∧ info.status.Known

instance (info : NodeInfo) : Decidable info.Tracked := inferInstanceAs (Decidable (_ ∧ _))

/-- Events that carry a time, with gossip about tracked nodes only. -/
def Action.Trackable : Action → Prop
  | .event e _ => 0 < e.hdr.time ∧ ∀ g ∈ e.gossip, g.Tracked
  | .heartbeat | .join _ | .leave => True

/-- An ACK for a node that is not known comes with a UUID greater than every member's. -/
def Action.AcksInOrder (s : SWIM) : Action → Prop
  | .event ⟨_, .ack u, _⟩ _ =>
    u = s.uuid ∨ s.find u ≠ none ∨ ∀ m ∈ s.members, m.uuid < u
  | _ => True

section

variable {node : NodeState} {info : NodeInfo} {time : ℤ} {incarnation : ℕ}

theorem NodeInfo.Tracked.valid (h : info.Tracked) : info.Valid := by
  refine ⟨h.1, fun hs => ?_⟩
  have hk := h.2
  rw [hs] at hk
  revert hk
  decide

theorem NodeState.notice_tracked (h : node.info.Tracked) (ht : 0 < time) :
    (node.notice time incarnation).info.Tracked := by
  obtain ⟨seen, status, hseen, hstatus, hinfo⟩ := node.notice_info time incarnation
  rw [hinfo]
  constructor
  · rcases hseen with rfl | rfl
    · exact h.1
    · exact ht
  · rcases hstatus with rfl | rfl
    · exact h.2
    · exact .inl rfl

theorem NodeState.merge_tracked (h : node.info.Tracked) (hi : info.Tracked) :
    (node.merge info).info.Tracked := by
  obtain ⟨seen, status, hseen, hstatus, hinfo⟩ := node.merge_info info
  rw [hinfo]
  constructor
  · rcases hseen with rfl | rfl
    · exact h.1
    · exact hi.1
  · rcases hstatus with rfl | rfl
    · exact h.2
    · exact hi.2

end

section

variable {now : ℤ} {s₀ t : SWIM} {action : Action} {n n' : NodeState}

/-- No assignment to an entry loses the status or the time. -/
theorem NodeAct.tracked (h : NodeAct now s₀ t action n n') (ha : action.Trackable)
    (hn : n.info.Tracked) : n'.info.Tracked := by
  cases h with
  | notice _ _ _ => exact NodeState.notice_tracked hn ha.1
  | merge _ hg _ _ => exact NodeState.merge_tracked hn (ha.2 _ hg)
  | suspect _ | suspectDead _ _ => exact ⟨hn.1, .inr (.inl rfl)⟩
  | refute _ _ _ => exact ⟨hn.1, .inl rfl⟩
  | del _ | declareDead _ _ => exact ⟨hn.1, .inr (.inr rfl)⟩

/-- A new entry is tracked on every path but that of an ACK out of order. -/
theorem InsertAct.tracked (h : InsertAct s₀ t action n) (ha : action.Trackable)
    (ho : action.AcksInOrder s₀) (hself : n.uuid ≠ s₀.uuid) (hfresh : s₀.find n.uuid = none) :
    n.info.Tracked := by
  cases h with
  | join _ hi ht => exact hi ▸ ⟨ht, .inl rfl⟩
  | ackLast _ hi _ _ => exact hi ▸ ⟨ha.1, .inl rfl⟩
  | gossip _ hg _ => exact ha.2 _ hg
  | @ack event addr _ hb _ hm =>
    obtain ⟨hdr, body, gossip⟩ := event
    subst hb
    obtain ⟨m, hm, hlt⟩ := hm
    rcases ho with h | h | h
    · exact absurd h hself
    · exact absurd hfresh h
    · exact absurd (h m hm) hlt.not_gt

end

/-! ## Runs -/

/-- The calls of a run in which allocation succeeds and events are trackable. -/
def trackable (_ : SWIM) (c : Call) : Prop := c.env.Allocates ∧ c.action.Trackable

/-- Moreover no ACK is out of order. -/
def trackableInOrder (s : SWIM) (c : Call) : Prop := trackable s c ∧ c.action.AcksInOrder s

section

variable {c : Call} {r : Except Fault Unit} {s s' : SWIM} {ps : List Packet}

theorem step_tracked (hwf : s.WellFormed) (hs : s.Holds fun n => n.info.Tracked)
    (hc : trackableInOrder s c) (h : runStep c s = (r, s', ps)) :
    s'.Holds (fun n => n.info.Tracked) ∧ ∀ p ∈ ps, ∀ g ∈ p.event.gossip, g.Tracked := by
  obtain ⟨⟨-, ha⟩, ho⟩ := hc
  have hholds := (account hwf h).reached.holds hs (fun t n n' _ hn => hn.tracked ha)
    (fun t n _ hn hself hfresh _ => hn.tracked ha ho hself hfresh)
  refine ⟨hholds.1, fun p hp g hg => ?_⟩
  rcases hholds.2 p hp g hg with ⟨n, hn, rfl⟩ | ⟨event, addr, hact, hg'⟩
  · exact hn
  · rw [hact] at ha
    exact ha.2 g hg'

theorem run_tracked (h : Run Returns trackableInOrder s s') (hwf : s.WellFormed)
    (hs : s.Holds fun n => n.info.Tracked) : s'.Holds fun n => n.info.Tracked :=
  (h.preserves (I := fun t => t.WellFormed ∧ t.Holds fun n => n.info.Tracked)
    (fun _ _ _ ht hc hret => by
      obtain ⟨ps, hps⟩ := hret
      exact ⟨(account ht.1 hps).wf, (step_tracked ht.1 ht.2 hc hps).1⟩) ⟨hwf, hs⟩).2

end

/-- In every state of a run without an ACK out of order the members are valid; the assertion on
the sender does not fail, and the gossip sent passes the assertion of the receiver. -/
theorem members_valid {uuid : Uuid} {now : ℤ} {s : SWIM}
    (h : Run Returns trackableInOrder (swimStateInit uuid now) s) :
    (∀ node ∈ s.members, 0 < node.info.lastSeen ∧ node.info.status.Known) ∧
      ∀ c r s' ps, runStep c s = (r, s', ps) → r ≠ .error (.assertion .noticeValid) ∧
        (trackableInOrder s c → ∀ p ∈ ps, ∀ g ∈ p.event.gossip, g.Valid) := by
  have hwf := wellFormed_of_run h (.init uuid now)
  have hs : s.Holds fun n => n.info.Tracked := run_tracked h (.init uuid now)
    (SWIM.holds_init uuid now _)
  refine ⟨fun node hn => hs.of_mem hwf hn, fun c r s' ps hstep => ⟨?_, ?_⟩⟩
  · rintro rfl
    obtain ⟨event, addr, node, -, hfind, hbad⟩ := (account hwf hstep).cause _ rfl
    exact hbad (hs _ node hfind).valid
  · exact fun hc p hp g hg => ((step_tracked hwf hs hc hstep).2 p hp g hg).valid

theorem joinCall_trackable (s : SWIM) (b : UInt8) (addr : SockAddr) :
    trackable s (joinCall b addr) :=
  ⟨steadyEnv_allocates 1000, show (0 : ℤ) < 1000 by decide, fun g hg => by cases hg⟩

theorem ackCall_trackable (s : SWIM) (b : UInt8) (incarnation : ℕ) (addr : SockAddr) :
    trackable s (ackCall b incarnation addr) :=
  ⟨steadyEnv_allocates 1000, show (0 : ℤ) < 1000 by decide, fun g hg => by cases hg⟩

theorem members_valid_greatest_last :
    let s₁ := (runStep (joinCall 2 .none) (swimStateInit (.ofByte 1) 1000)).2.1
    let s₂ := (runStep (ackCall 3 0 .none) s₁).2.1
    s₂.viewSize = 2 ∧ ∀ node ∈ s₂.members, 0 < node.info.lastSeen ∧ node.info.status.Known := by
  intro s₁ s₂
  have h₁ : Run Returns trackableInOrder (swimStateInit (.ofByte 1) 1000) s₁ :=
    Run.call (Run.refl _) (joinCall 2 .none) ⟨joinCall_trackable _ _ _, trivial⟩ rfl
  have hgreatest : ∀ m ∈ s₁.members, m.uuid < .ofByte 3 := by decide
  have h₂ : Run Returns trackableInOrder (swimStateInit (.ofByte 1) 1000) s₂ :=
    Run.call h₁ (ackCall 3 0 .none) ⟨ackCall_trackable _ _ _ _, .inr (.inr hgreatest)⟩ (by decide)
  exact ⟨by decide, (members_valid h₂).1⟩

/-- After a JOIN of node 3, an ACK of node 2 leaves it UNKNOWN, and the assertion on the sender
fails at its next event. -/
theorem ack_out_of_order_unknown :
    let s₁ := (runStep (joinCall 3 .none) (swimStateInit (.ofByte 1) 1000)).2.1
    let s₂ := (runStep (ackCall 2 0 .none) s₁).2.1
    Run Returns trackable (swimStateInit (.ofByte 1) 1000) s₂ ∧
      (∃ node ∈ s₂.members, node.info.status = .unknown) ∧
      (runStep (ackCall 2 0 .none) s₂).1 = .error (.assertion .noticeValid) := by
  intro s₁ s₂
  have h₁ : Run Returns trackable (swimStateInit (.ofByte 1) 1000) s₁ :=
    Run.call (Run.refl _) (joinCall 3 .none) (joinCall_trackable _ _ _) rfl
  have h₂ : Run Returns trackable (swimStateInit (.ofByte 1) 1000) s₂ :=
    Run.call h₁ (ackCall 2 0 .none) (ackCall_trackable _ _ _ _) (by decide)
  exact ⟨h₂, by decide, by decide⟩

end LibSwim
