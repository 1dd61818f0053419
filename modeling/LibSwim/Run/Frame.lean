import LibSwim.Run.Death
import LibSwim.Run.IndirectProbe

/-! # What a call leaves alone

Members are never removed; their addresses stay, and their incarnations only grow. An event
without gossip concerns its sender and the node it names. The one exception is an ACK for a node
that is not known: the pointer it goes on with was taken before the view was sorted, and the
member with the greatest UUID is taken for the one that was added.
-/

namespace LibSwim

open Foundations Program

/-! ## Members only grow -/

/-- The later record `m` of a member that was recorded as `n`. -/
def NodeState.GrownTo (n m : NodeState) : Prop :=
  m.info.addr = n.info.addr ∧ n.info.incarnation ≤ m.info.incarnation

section

variable {t₀ : ℤ} {s₀ t s s' : SWIM} {action : Action} {n m m' : NodeState} {c : Call} {v : Uuid}

theorem NodeAct.grownTo (h : NodeAct t₀ s₀ t action m m') (hm : n.GrownTo m) : n.GrownTo m' := by
  obtain ⟨haddr, hinc⟩ := hm
  cases h with
  | @notice e _ _ _ _ _ =>
    obtain ⟨seen, status, -, -, hinfo⟩ := m.notice_info e.hdr.time e.hdr.incarnation
    rw [NodeState.GrownTo, hinfo]
    exact ⟨haddr, hinc.trans (le_max_left _ _)⟩
  | @merge _ _ _ info _ _ _ _ =>
    obtain ⟨seen, status, -, -, hinfo⟩ := m.merge_info info
    rw [NodeState.GrownTo, hinfo]
    exact ⟨haddr, hinc.trans (le_max_left _ _)⟩
  | suspect | refute | del | suspectDead | declareDead => exact ⟨haddr, hinc⟩

theorem Returns.grownTo (h : Returns s c s') (hwf : s.WellFormed) (hn : s.find v = some m)
    (hm : n.GrownTo m) : ∃ m', s'.find v = some m' ∧ n.GrownTo m' := by
  obtain ⟨ps, hrun⟩ := h
  exact (account hwf hrun).member hwf hn hm fun _ _ _ _ ha _ => ha.grownTo

end

/-- In every run a member stays a member, with the address it was recorded with and an incarnation
that never decreases. -/
theorem members_only_grow {uuid : Uuid} {now : ℤ} {s s' : SWIM} {n : NodeState}
    (h : Run Returns anyCall (swimStateInit uuid now) s) (hn : n ∈ s.members)
    (hrun : Run Returns anyCall s s') :
    ∃ m ∈ s'.members, m.uuid = n.uuid ∧ m.info.addr = n.info.addr ∧
      m.info.addr.addrlen = n.info.addr.addrlen ∧ n.info.incarnation ≤ m.info.incarnation := by
  have hwf := wellFormed_of_run h (.init uuid now)
  obtain ⟨hwf', m, hm, haddr, hinc⟩ := hrun.preserves
    (I := fun t => t.WellFormed ∧ ∃ m, t.find n.uuid = some m ∧ n.GrownTo m)
    (fun t c t' ht _ hret => ⟨hret.wf ht.1, by
      obtain ⟨m, hm, hg⟩ := ht.2
      exact hret.grownTo ht.1 hm hg⟩)
    ⟨hwf, n, hwf.mem_iff_find.mp hn, rfl, le_rfl⟩
  obtain ⟨hmem, hu⟩ := hwf'.find_eq_some.mp hm
  exact ⟨m, hmem, hu, haddr, by rw [haddr], hinc⟩

/-- Node 2 joins from address 7; its next PING carries a newer incarnation. -/
theorem members_only_grow_joined :
    let s := (runStep (joinCall 2 ⟨[7]⟩) (swimStateInit (.ofByte 1) 1000)).2.1
    let s' := (runStep (pingCall 2 4) s).2.1
    ∃ m ∈ s'.members, m.uuid = .ofByte 2 ∧ m.info.addr = ⟨[7]⟩ := by
  intro s s'
  have hrun : Run Returns anyCall (swimStateInit (.ofByte 1) 1000) s :=
    Run.call (Run.refl _) (joinCall 2 ⟨[7]⟩) trivial rfl
  obtain ⟨n, hn, hu, ha⟩ : ∃ n ∈ s.members, n.uuid = .ofByte 2 ∧ n.info.addr = ⟨[7]⟩ := by decide
  obtain ⟨m, hm, hmu, hma, -, -⟩ := members_only_grow hrun hn
    (Run.call (Run.refl s) (pingCall 2 4) trivial (by decide))
  exact ⟨m, hm, hmu.trans hu, hma.trans ha⟩

/-! ## Events without gossip -/

/-- All members but the sender and the node that the event names are the same in all fields, no
member is removed, and none but the node named is added. -/
structure EventFrame (e : Event) (s s' : SWIM) : Prop where
  others : ∀ n ∈ s.members, n.uuid ≠ e.hdr.uuid → e.body.subject ≠ some n.uuid → n ∈ s'.members
  kept : ∀ n ∈ s.members, ∃ n' ∈ s'.members, n'.uuid = n.uuid
  added : ∀ n' ∈ s'.members, (∃ n ∈ s.members, n.uuid = n'.uuid) ∨ e.body.subject = some n'.uuid

/-- An ACK for a node that is not known, where the greatest member is another one that is
SUSPECT or UNKNOWN. -/
def Event.Misdirected (s : SWIM) (e : Event) : Prop :=
  ∃ m ∈ s.members, (∀ n ∈ s.members, n.uuid ≤ m.uuid) ∧ m.uuid ≠ e.hdr.uuid ∧
    (m.info.status = .suspect ∨ m.info.status = .unknown) ∧
    ∃ u, e.body = .ack u ∧ u ≠ s.uuid ∧ (∀ n ∈ s.members, n.uuid ≠ u) ∧ u < m.uuid

section

variable {s s' : SWIM} {e : Event} {env : Env} {addr : SockAddr} {n m : NodeState} {u v : Uuid}

/-- The only assignment that reaches another entry is the refutation after a misdirected ACK. -/
theorem NodeAct.unmoved {t₀ : ℤ} {t : SWIM} (h : NodeAct t₀ s t (.event e addr) n m)
    (ht : Midway s t) (hwf : s.WellFormed) (hn : n ∈ s.members) (hg : e.gossip = [])
    (hu : n.uuid ≠ e.hdr.uuid) (hb : e.body.subject ≠ some n.uuid) (hm : ¬ e.Misdirected s) :
    m = n := by
  cases h with
  | notice _ hu' _ => exact absurd hu' hu
  | suspect hb' | del hb' => exact absurd (by rw [hb', EventBody.subject]) hb
  | merge _ hg' _ _ => simp [hg] at hg'
  | @refute _ _ _ u hb' htarget hs =>
    rcases htarget with rfl | ⟨hfresh, hself, hlt, hmax⟩
    · exact absurd (by rw [hb', EventBody.subject]) hb
    · exact absurd ⟨n, hn, ht.uuid_le hwf hmax, hu, hs, u, hb', hself, lookup_eq_none.mp hfresh, hlt⟩ hm

theorem eventFrame_of_not_misdirected (hwf : s.WellFormed) (hg : e.gossip = [])
    (hm : ¬ e.Misdirected s) (h : Returns s ⟨env, .event e addr⟩ s') : EventFrame e s s' := by
  obtain ⟨ps, hrun⟩ := h
  have hacc := account hwf hrun
  constructor
  · intro n hn hu hb
    obtain ⟨n', hn', rfl⟩ := hacc.member (P := (· = n)) hwf (hwf.mem_iff_find.mp hn) rfl
      fun t m m' ht ha _ hmn => by
        subst hmn
        exact ha.unmoved ht hwf hn hg hu hb hm
    exact (hacc.wf.find_eq_some.mp hn').1
  · intro n hn
    obtain ⟨n', hn', -⟩ := hacc.member (P := fun _ => True) hwf (hwf.mem_iff_find.mp hn) trivial
      fun _ _ _ _ _ _ _ => trivial
    exact ⟨n', hacc.wf.find_eq_some.mp hn'⟩
  · intro n' hn'
    refine (hacc.reached.holds (P := fun n => (∃ k ∈ s.members, k.uuid = n.uuid) ∨
      e.body.subject = some n.uuid) ?_ ?_ ?_).1 _ n' (hacc.wf.mem_iff_find.mp hn')
    · intro v n hn
      exact .inl ⟨n, (hwf.find_eq_some.mp hn).1, rfl⟩
    · intro t n m _ ha hn
      rwa [ha.uuid]
    · intro t n _ ha _ _ _
      cases ha with
      | join hb _ _ | ack hb _ _ | ackLast hb _ _ _ => exact .inr (by rw [hb, EventBody.subject])
      | gossip _ hg' _ => simp [hg] at hg'

/-- The greatest member is refuted in the place of the node that was added. -/
theorem wp_misdirected (hwf : s.WellFormed) (hg : e.gossip = []) (hm : m ∈ s.members)
    (hmax : ∀ n ∈ s.members, n.uuid ≤ m.uuid) (hu : m.uuid ≠ e.hdr.uuid) (hb : e.body = .ack u)
    (hself : u ≠ s.uuid) (hfresh : s.find u = none) (hlt : u < m.uuid) :
    wp (swimProcessEvent e addr) (fun _ h => h.swim.find m.uuid = some m.acked)
      (fun _ _ => True) ⟨s, env, []⟩ := by
  rw [swimProcessEvent, wp_bind]
  refine wp_noticed hwf (fun _ h₁ hn => ?_) fun _ _ _ => trivial
  have hfind : h₁.swim.find m.uuid = some m := by
    rw [hn.find, hwf.mem_iff_find.mp hm, Option.map_some, Event.noticed_of_ne hu]
  have hnone : h₁.swim.find u = none := by rw [hn.find, hfresh, Option.map_none]
  rw [dispatch, hb]
  refine wp_ackFresh hn.wf (hn.same.1 ▸ hself) hnone (fun h₂ h₃ node last ha hs => ?_)
    fun _ _ _ => trivial
  have hnode : node.uuid = u := congrArg NodeInfo.uuid ha.info_eq
  -- the pointer returned designates the greatest member
  have hlast : m.uuid = last.uuid := by
    apply le_antisymm (ha.last_max m (.inr (hn.wf.find_eq_some.mp hfind).1))
    rcases ha.last_mem with rfl | hlast
    · exact hnode ▸ hlt.le
    · have hl := hn.wf.mem_iff_find.mp hlast
      rw [hn.find, Option.map_eq_some_iff] at hl
      obtain ⟨k, hk, -⟩ := hl
      obtain ⟨hmem, hku⟩ := hwf.find_eq_some.mp hk
      exact hku ▸ hmax k hmem
  rw [hg, swimProcessGossip]
  change h₃.swim.find m.uuid = some m.acked
  rw [hs.find, ha.find, Function.update_of_ne, hfind, Option.map_some, if_pos hlast]
  exact hlt.ne'

theorem not_eventFrame_of_misdirected (hwf : s.WellFormed) (hg : e.gossip = [])
    (hm : e.Misdirected s) (h : Returns s ⟨env, .event e addr⟩ s') : ¬ EventFrame e s s' := by
  obtain ⟨m, hmem, hmax, hu, hs, u, hb, hself, hfresh, hlt⟩ := hm
  obtain ⟨ps, hrun⟩ := h
  have hwf' := (account hwf hrun).wf
  obtain ⟨t, hfind, rfl, -⟩ :=
    runStep_ok hrun (wp_misdirected hwf hg hmem hmax hu hb hself
      (lookup_eq_none.mpr hfresh) hlt)
  intro hframe
  have hsame := hframe.others m hmem hu (by simpa [hb, EventBody.subject] using hlt.ne)
  rw [hwf'.mem_iff_find, hfind] at hsame
  have hstatus := congrArg (fun n : NodeState => n.info.status) (Option.some.inj hsame)
  rcases hs with hs | hs <;> simp [NodeState.acked, hs, NodeState.refute, swimNodeResetWitness] at hstatus

end

/-- From every state of every run, an event without gossip leaves alone what it does not concern,
unless it is a misdirected ACK. -/
theorem event_frame_iff {uuid : Uuid} {now : ℤ} {s s' : SWIM} {e : Event} {env : Env}
    {addr : SockAddr} (h : Run Returns anyCall (swimStateInit uuid now) s) (hg : e.gossip = [])
    (hret : Returns s ⟨env, .event e addr⟩ s') : EventFrame e s s' ↔ ¬ e.Misdirected s := by
  have hwf := wellFormed_of_run h (.init uuid now)
  constructor
  · exact fun hf hm => not_eventFrame_of_misdirected hwf hg hm hret hf
  · exact fun hm => eventFrame_of_not_misdirected hwf hg hm hret

/-- Node 3 joins; the ACK of node 4 leaves it alone, since node 4 is the greatest. -/
theorem event_frame_greatest :
    let s := (runStep (joinCall 3 .none) (swimStateInit (.ofByte 1) 1000)).2.1
    let s' := (runStep (ackCall 4 0 .none) s).2.1
    s'.viewSize = 2 ∧ EventFrame ⟨⟨.ofByte 4, 1000, 0⟩, .ack (.ofByte 4), []⟩ s s' := by
  intro s s'
  have hrun : Run Returns anyCall (swimStateInit (.ofByte 1) 1000) s :=
    Run.call (Run.refl _) (joinCall 3 .none) trivial rfl
  refine ⟨by decide, (event_frame_iff hrun rfl
    (returns_of_ok (c := ackCall 4 0 .none) (by decide))).mpr ?_⟩
  rintro ⟨m, hm, -, -, hs, -⟩
  have halive : ∀ m ∈ s.members, m.info.status = .alive := by decide
  simp [halive m hm] at hs

/-- Node 3 is suspected after a PING_REQ. The ACK of node 2, which is new, ends that suspicion. -/
theorem event_frame_broken :
    let s := (runStep (pingReqCall 4 3 0 ⟨[7]⟩)
      (runStep (joinCall 3 .none) (swimStateInit (.ofByte 1) 1000)).2.1).2.1
    let s' := (runStep (ackCall 2 0 .none) s).2.1
    Run Returns anyCall (swimStateInit (.ofByte 1) 1000) s ∧ Returns s (ackCall 2 0 .none) s' ∧
      (s.find (.ofByte 3)).map (·.info.status) = some .suspect ∧
      (s'.find (.ofByte 3)).map (·.info.status) = some .alive ∧
      ¬ EventFrame ⟨⟨.ofByte 2, 1000, 0⟩, .ack (.ofByte 2), []⟩ s s' := by
  intro s s'
  have hrun : Run Returns anyCall (swimStateInit (.ofByte 1) 1000) s :=
    Run.call (Run.call (Run.refl _) (joinCall 3 .none) trivial rfl) (pingReqCall 4 3 0 ⟨[7]⟩) trivial
      (by decide)
  have hret : Returns s (ackCall 2 0 .none) s' := returns_of_ok (by decide)
  refine ⟨hrun, hret, by decide, by decide, fun hframe => ?_⟩
  have hold : ∃ n ∈ s.members, n.uuid = .ofByte 3 ∧ n ∉ s'.members := by decide
  obtain ⟨n, hn, hu, hgone⟩ := hold
  exact hgone (hframe.others n hn (by rw [hu]; decide) (by rw [hu]; decide))

end LibSwim
