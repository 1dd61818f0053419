import LibSwim.Run.Outcomes

/-! # Dead members

A member that was declared DEAD is meant to stay so: it has to come back under a new UUID. The
status is taken back by an event of the member or gossip about it with a newer incarnation, and
by any PING_REQ for it; these are the only ways.
-/

namespace LibSwim

open Foundations Program

/-- An event that does not take back the death of `v`, recorded as `n`: it is no PING_REQ for
`v`; if it comes from `v`, it is not newer than the record, or it is the LEAVE of `v`; and the
gossip that is read has nothing newer about `v`, except that it is DEAD. -/
def Event.LetsRest (self v : Uuid) (n : NodeState) (e : Event) : Prop :=
  e.body ≠ .pingReq v ∧
    (e.hdr.uuid = v → e.hdr.incarnation ≤ n.info.incarnation ∨ e.body = .leave v) ∧
    (e.body.ReadsGossip self → ∀ g ∈ e.gossip, g.uuid = v →
      g.incarnation ≤ n.info.incarnation ∨ g.status = .dead)

/-- The calls that leave a dead `v` at rest. -/
def restful (v : Uuid) (s : SWIM) (c : Call) : Prop :=
  ∀ e addr n, c.action = .event e addr → s.find v = some n → e.LetsRest s.uuid v n

section

variable {s s' : SWIM} {v : Uuid} {n : NodeState} {c : Call}

/-- DEAD, with an incarnation that is at least `k`. -/
def DeadSince (k : ℕ) (n : NodeState) : Prop := n.info.status = .dead ∧ k ≤ n.info.incarnation

theorem DeadSince.merge {k : ℕ} {g : NodeInfo} (h : DeadSince k n)
    (hg : g.incarnation ≤ k ∨ g.status = .dead) : DeadSince k (n.merge g) := by
  rcases lt_trichotomy g.incarnation n.info.incarnation with hlt | heq | hgt
  · rwa [NodeState.merge_stale hlt]
  · rw [NodeState.merge_dead heq h.1]
    exact h
  · rw [NodeState.merge_newer hgt]
    have hk := h.2
    exact ⟨hg.resolve_left (by omega), (show k ≤ g.incarnation by omega)⟩

/-- Every assignment of a restful call keeps a dead entry dead. -/
theorem NodeAct.deadSince {now : ℤ} {s₀ t : SWIM} {m m' : NodeState}
    (h : NodeAct now s₀ t c.action m m') (hc : restful v s₀ c) (hn : s₀.find v = some n)
    (ht : t.uuid = s₀.uuid) (hv : m.uuid = v)
    (hleave : ∀ e addr, c.action = .event e addr → e.body ≠ .leave v)
    (hm : DeadSince n.info.incarnation m) : DeadSince n.info.incarnation m' := by
  generalize hact : c.action = action at h
  cases h with
  | @notice e addr _ _ hu _ =>
    have hfrom := ((hc e addr n hact hn).2.1 (hu.symm.trans hv)).resolve_right (hleave e addr hact)
    rwa [NodeState.notice_dead (hfrom.trans hm.2) hm.1]
  | @suspect e addr _ hb => exact absurd (hv ▸ hb) (hc e addr n hact hn).1
  | @merge e addr _ g hr hg _ hu =>
    exact hm.merge ((hc e addr n hact hn).2.2 (ht ▸ hr) g hg (hu.trans hv))
  | refute _ _ hs => simp [hm.1] at hs
  | del _ | declareDead _ _ => exact ⟨rfl, hm.2⟩
  | suspectDead hs _ => simp [hm.1] at hs

/-- The LEAVE of `v` ends with its entry DEAD, whatever its header did before. -/
theorem leave_dead {e : Event} {addr : SockAddr} (hwf : s.WellFormed) (hn : s.find v = some n)
    (hact : c.action = .event e addr) (hb : e.body = .leave v) (h : Returns s c s') :
    ∃ m, s'.find v = some m ∧ m.info.status = .dead := by
  obtain ⟨env, action⟩ := c
  subst hact
  obtain ⟨ps, hrun⟩ := h
  obtain ⟨t, ⟨-, -, hfind⟩, rfl, -⟩ := runStep_ok hrun (wp_leaveProcessed hwf hb)
  refine ⟨(e.noticed n).del, ?_, rfl⟩
  rw [hfind, hn, Option.map_some, if_pos (hwf.find_eq_some.mp hn).2]

theorem restful_dead (hwf : s.WellFormed) (hn : s.find v = some n) (hd : n.info.status = .dead)
    (hc : restful v s c) (h : Returns s c s') :
    ∃ m, s'.find v = some m ∧ m.info.status = .dead := by
  by_cases hleave : ∃ e addr, c.action = .event e addr ∧ e.body = .leave v
  · obtain ⟨e, addr, hact, hb⟩ := hleave
    exact leave_dead hwf hn hact hb h
  · push Not at hleave
    obtain ⟨ps, hrun⟩ := h
    obtain ⟨m, hm, hdead⟩ := (account hwf hrun).member (P := DeadSince n.info.incarnation) hwf hn
      ⟨hd, le_rfl⟩ fun t m m' ht ha hv hm => ha.deadSince hc hn ht.uuid hv hleave hm
    exact ⟨m, hm, hdead.1⟩

end

/-- From any state of any run in which `v` is DEAD, it stays so in every run of restful calls. -/
theorem death_final {uuid v : Uuid} {now : ℤ} {s s' : SWIM} {n : NodeState}
    (h : Run Returns anyCall (swimStateInit uuid now) s) (hn : s.find v = some n)
    (hd : n.info.status = .dead) (hrun : Run Returns (restful v) s s') :
    ∃ m, s'.find v = some m ∧ m.info.status = .dead := by
  have hwf := wellFormed_of_run h (.init uuid now)
  refine (hrun.preserves (I := fun t => t.WellFormed ∧
    ∃ m, t.find v = some m ∧ m.info.status = .dead) ?_ ⟨hwf, n, hn, hd⟩).2
  rintro t c t' ⟨ht, m, hm, hdead⟩ hc hret
  exact ⟨hret.wf ht, restful_dead ht hm hdead hc hret⟩

/-- The node with last byte `b` sends the LEAVE of the node with last byte `target`. -/
def leaveCall (b target : UInt8) : Call :=
  ⟨steadyEnv 1000, .event ⟨⟨.ofByte b, 1000, 0⟩, .leave (.ofByte target), []⟩ .none⟩

theorem death_final_same_incarnation :
    let s := (runStep (leaveCall 3 2)
      (runStep (joinCall 2 .none) (swimStateInit (.ofByte 1) 1000)).2.1).2.1
    let s' := (runStep (pingCall 2 0) s).2.1
    ∃ m, s'.find (.ofByte 2) = some m ∧ m.info.status = .dead := by
  intro s s'
  have hrun : Run Returns anyCall (swimStateInit (.ofByte 1) 1000) s :=
    Run.call (Run.call (Run.refl _) (joinCall 2 .none) trivial rfl) (leaveCall 3 2) trivial
      (by decide)
  obtain ⟨n, hn, hd, hi⟩ : ∃ n, s.find (.ofByte 2) = some n ∧ n.info.status = .dead ∧
      n.info.incarnation = 0 :=
    ⟨(s.find (.ofByte 2)).get (by decide), (Option.some_get _).symm, by decide, by decide⟩
  have hrest : restful (.ofByte 2) s (pingCall 2 0) := by
    rintro e addr m ⟨⟩ hm
    obtain rfl := Option.some.inj (hn.symm.trans hm)
    exact ⟨by decide, fun _ => .inl hi.ge, fun _ g hg => by cases hg⟩
  exact death_final hrun hn hd (Run.call (.refl s) (pingCall 2 0) hrest (by decide))

/-- Node 2 has left. Its next PING with a newer incarnation makes it ALIVE again, and a PING_REQ
for it makes it SUSPECT. -/
theorem death_taken_back :
    let s := (runStep (leaveCall 3 2)
      (runStep (joinCall 2 .none) (swimStateInit (.ofByte 1) 1000)).2.1).2.1
    Run Returns anyCall (swimStateInit (.ofByte 1) 1000) s ∧
      (s.find (.ofByte 2)).map (·.info.status) = some .dead ∧
      Returns s (pingCall 2 1) (runStep (pingCall 2 1) s).2.1 ∧
      ((runStep (pingCall 2 1) s).2.1.find (.ofByte 2)).map (·.info.status) = some .alive ∧
      Returns s (pingReqCall 3 2 0 .none) (runStep (pingReqCall 3 2 0 .none) s).2.1 ∧
      ((runStep (pingReqCall 3 2 0 .none) s).2.1.find (.ofByte 2)).map (·.info.status) =
        some .suspect := by
  intro s
  refine ⟨Run.call (Run.call (Run.refl _) (joinCall 2 .none) trivial rfl) (leaveCall 3 2) trivial
    (by decide), by decide, returns_of_ok (by decide), by decide, returns_of_ok (by decide), ?_⟩
  decide

end LibSwim
