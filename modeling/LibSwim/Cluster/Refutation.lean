import LibSwim.Cluster.Accusation
import LibSwim.Cluster.Incarnation
import LibSwim.Run.Frame

/-! # A refutation holds

A node that hears that it is suspected goes on to an incarnation that nobody has seen. What is said of
its earlier incarnations, and may be on its way for long, does not touch the records of the new one:
they say ALIVE wherever they are, until a heartbeat finds the node silent again or somebody who has
such a record is asked to probe it.
-/

namespace LibSwim

open Foundations Program

/-- If this is a record of `v` in an incarnation after `k`, it says ALIVE. -/
def NodeInfo.Vindicates (v : Uuid) (k : ℕ) (info : NodeInfo) : Prop :=
  info.uuid = v → k < info.incarnation → info.status = .alive

section

variable {v : Uuid} {k : ℕ} {s s' : SWIM} {n : NodeState} {env : Env} {e : Event} {addr : SockAddr}

theorem NodeState.notice_vindicates {time : ℤ} {incarnation : ℕ} (h : n.info.Vindicates v k) :
    (n.notice time incarnation).info.Vindicates v k := by
  rcases lt_trichotomy incarnation n.info.incarnation with hlt | heq | hgt
  · rwa [notice_stale hlt]
  · rcases (notice_same heq).2 with halive | ⟨hsame, -⟩
    · exact fun _ _ => halive
    · rwa [hsame]
  · rw [notice_newer hgt]
    exact fun _ _ => rfl

/-- The status that a merge takes over comes with an incarnation not below the one recorded. -/
theorem NodeState.merge_vindicates {info : NodeInfo} (h : n.info.Vindicates v k)
    (hi : info.Vindicates v k) (hu : info.uuid = n.uuid) : (n.merge info).info.Vindicates v k := by
  rcases lt_or_ge info.incarnation n.info.incarnation with hlt | hge
  · rwa [merge_stale hlt]
  · obtain ⟨seen, status, -, hstatus, hinfo⟩ := n.merge_info info
    rw [hinfo]
    intro hv hk
    rw [max_eq_right hge] at hk
    rcases hstatus with rfl | rfl
    · rcases hge.lt_or_eq with hlt | heq
      · rw [merge_newer hlt] at hinfo
        rw [← congrArg NodeInfo.status hinfo]
        exact hi (hu.trans hv) hk
      · exact h hv (heq ▸ hk)
    · exact hi (hu.trans hv) hk

/-- What is not gossip comes in in the first incarnation. -/
theorem lasting_vindicates (hv : v ≠ Uuid.zero) : Lasting (NodeInfo.Vindicates v k) where
  notice _ _ _ h := NodeState.notice_vindicates h
  merge _ _ hu h hi := NodeState.merge_vindicates h hi hu
  refute _ _ := fun _ _ => rfl
  del _ hzero _ := fun hu => absurd (hu.symm.trans hzero) hv
  fresh _ _ _ _ _ := fun _ hk => absurd hk (Nat.not_lt_zero k)

/-- Whoever knows the sender of an event has at least its incarnation afterwards. -/
theorem heard_incarnation (hwf : s.WellFormed) (hn : s.find e.hdr.uuid = some n)
    (h : Returns s ⟨env, .event e addr⟩ s') :
    ∃ m, s'.find e.hdr.uuid = some m ∧ e.hdr.incarnation ≤ m.info.incarnation := by
  have hspec : wp (swimProcessEvent e addr)
      (fun _ h => ∃ m, h.swim.find e.hdr.uuid = some m ∧ e.hdr.incarnation ≤ m.info.incarnation)
      (fun _ _ => True) ⟨s, env, []⟩ := by
    rw [swimProcessEvent, wp_bind]
    refine wp_noticed hwf (fun _ h₁ hnot => ?_) fun _ _ _ => trivial
    -- the handler is a call of its own, which begins with the sender noticed
    have hd : During h₁.env h₁.swim (.event e addr) h₁ :=
      ⟨hnot.wf, by rw [hnot.sent]; exact .start, .refl _, fun _ => id, rfl⟩
    have hfind : h₁.swim.find e.hdr.uuid = some (n.notice e.hdr.time e.hdr.incarnation) := by
      rw [hnot.find, hn, Option.map_some, Event.noticed_of_eq (hwf.find_eq_some.mp hn).2]
    refine wp_mono (wp_dispatch hd (fun _ => id) hnot.wf) (fun _ h' hdone => ?_) fun _ _ _ => trivial
    obtain ⟨m, hm, -, hle⟩ := hdone.reached.member hnot.wf hdone.wf hfind ⟨rfl, le_rfl⟩
      fun _ _ _ _ ha _ => ha.grownTo
    rw [NodeState.incarnation_notice] at hle
    exact ⟨m, hm, (le_max_right _ _).trans hle⟩
  obtain ⟨ps, hrun⟩ := h
  obtain ⟨t, hm, rfl, -⟩ := runStep_ok hrun hspec
  exact hm

end

namespace World

variable {ι : Type} {uuid : ι → Uuid} {now : ι → ℤ} {v : Uuid} {k : ℕ} {w w' w₁ : World ι} {i j : ι}
variable {c : Call}

/-- A node that knows `v` in an incarnation after `k` is asked to probe it, or its heartbeat finds it
ALIVE and not seen for a minute. -/
def Reopens (w : World ι) (v : Uuid) (k : ℕ) (l : ι × Call) : Prop :=
  ∃ n, (w.nodes l.1).find v = some n ∧ k < n.info.incarnation ∧
    ((∃ e addr, l.2.action = .event e addr ∧ e.body = .pingReq v) ∨ w.Accuses v l)

/-- Nothing is held against `v` after incarnation `k`. -/
structure Vindicated (uuid : ι → Uuid) (v : Uuid) (k : ℕ) (w : World ι) : Prop where
  sound : w.Sound uuid
  tells : w.Tells (NodeInfo.Vindicates v k) fun _ => True

variable [DecidableEq ι]

/-- Neither the probe nor the heartbeat finds an entry that they would turn against `v`. -/
theorem Vindicated.call (h : w.Vindicated uuid v k) (hv : v ≠ Uuid.zero) (ha : w.Admits (i, c))
    (hno : ¬ w.Reopens v k (i, c)) :
    (w.call i c).Tells (NodeInfo.Vindicates v k) fun _ => True := by
  refine h.tells.call (lasting_vindicates hv) h.sound ha
    (S := fun n => n.uuid = v → k < n.info.incarnation → n.info.status = .alive →
      c.env.time 0 - 60 < n.info.lastSeen)
    ?_ ?_ ?_ (fun _ _ _ _ _ => trivial) fun _ _ => trivial
  · intro e addr n hevent hb hn hu hk
    have hv : n.uuid = v := hu
    rw [hv] at hb hn
    exact absurd ⟨n, hn, hk, .inl ⟨e, addr, hevent, hb⟩⟩ hno
  · intro hheart hbeats u n hn hu hk hs
    by_contra hold
    obtain rfl := ((h.sound.wf i).find_eq_some.mp hn).2
    rw [hu] at hn
    exact hno ⟨n, hn, hk, .inr ⟨hheart, hbeats, n, hn, hs, not_lt.mp hold⟩⟩
  · intro t n n' hact hn hsafe
    cases hact with
    | suspectDead hs hl =>
      exact ⟨fun hu hk => absurd hl (not_le.mpr (hsafe hu hk hs)), by rintro _ _ ⟨⟩⟩
    | declareDead hs _ =>
      refine ⟨fun hu hk => ?_, by rintro _ _ ⟨⟩⟩
      cases hs.symm.trans (hn hu hk)

theorem Vindicated.step (h : w.Vindicated uuid v k) (hv : v ≠ Uuid.zero) {l : ι × Call}
    (ha : w.Admits l) (hno : ¬ w.Reopens v k l) (hs : w.Step l w') : w'.Vindicated uuid v k := by
  have hsound := h.sound.step ha hs
  obtain rfl := hs
  exact ⟨hsound, h.call hv ha hno⟩

/-- What has not been refuted yet has nothing to say about later incarnations. -/
theorem vindicated_of_run (hinj : Function.Injective uuid)
    (h : Run Step (fun w l => w.Admits l ∧ w.NoWrap l) (World.init uuid now) w) (a : ι) :
    w.Vindicated uuid (uuid a) (w.nodes a).incarnation := by
  obtain ⟨hsound, hallows⟩ := bounded_of_run hinj h
  have hbelow : ∀ k, w.Held (uuid a) k → ¬ (w.nodes a).incarnation < k :=
    fun k hk => not_lt.mpr (hallows _ k hk a (hsound.uuid a))
  obtain ⟨-, hregular⟩ := regular_of_run (h.weaken fun _ _ ha => ha.1)
  refine ⟨hsound, fun i u n hn hu hk => ?_, fun p hp =>
    ⟨hregular p hp, trivial, fun g hg hu hk => ?_⟩⟩
  · exact absurd hk (hbelow _ (.view ((hsound.wf i).find_eq_some.mp hn).1 hu rfl))
  · exact absurd hk (hbelow _ (.gossip hp hg hu rfl))

/-- The calls that do not reopen the case of `v`. -/
def Undisturbed (v : Uuid) (k : ℕ) (w : World ι) (l : ι × Call) : Prop :=
  w.Admits l ∧ ¬ w.Reopens v k l

theorem Vindicated.run (h : w.Vindicated uuid v k) (hv : v ≠ Uuid.zero)
    (hrun : Run Step (Undisturbed v k) w w') : w'.Vindicated uuid v k :=
  hrun.preserves (fun _ _ _ ht ha hs => ht.step hv ha.1 ha.2 hs) h

/-- Whoever has heard of a later incarnation does not forget it. -/
theorem Sound.run_incarnation (h : w.Sound uuid) (hrun : Run Step (Undisturbed v k) w w')
    {n : NodeState} (hn : (w.nodes j).find v = some n) (hk : k < n.info.incarnation) :
    ∃ m, (w'.nodes j).find v = some m ∧ k < m.info.incarnation := by
  refine (hrun.preserves (I := fun w => w.Sound uuid ∧
    ∃ m, (w.nodes j).find v = some m ∧ k < m.info.incarnation) ?_ ⟨h, n, hn, hk⟩).2
  rintro w ⟨i, c⟩ w' ⟨hsound, m, hm, hk⟩ ha hs
  have hsound' := hsound.step ha.1 hs
  obtain rfl := hs
  refine ⟨hsound', ?_⟩
  rw [call_nodes, Function.update_apply]
  split_ifs with hj
  · subst hj
    obtain ⟨m', hm', -, hle⟩ := (hsound.account j c).member (hsound.wf j) hm ⟨rfl, le_rfl⟩
      fun _ _ _ _ hact _ => hact.grownTo
    exact ⟨m', hm', hk.trans_le hle⟩
  · exact ⟨m, hm, hk⟩

/-- Let `k` be the incarnation of a node. In every continuation in which nobody who knows the node in a
later incarnation is asked to probe it, or finds it not seen for a minute, whatever is lost, repeated,
delayed or said of earlier incarnations: every record of a later incarnation says ALIVE, in views and in
gossip, and whoever knows the node, be it as SUSPECT or DEAD, and processes an event of the node from a
later incarnation holds it for ALIVE from then on. -/
theorem refutation_holds (hinj : Function.Injective uuid)
    (h : Run Step (fun w l => w.Admits l ∧ w.NoWrap l) (World.init uuid now) w) {a : ι}
    (hk : (w.nodes a).incarnation = k) (hv : uuid a ≠ Uuid.zero)
    (hrun : Run Step (Undisturbed (uuid a) k) w w₁) :
    (∀ i, ∀ n ∈ (w₁.nodes i).members, n.uuid = uuid a → k < n.info.incarnation →
      n.info.status = .alive) ∧
    (∀ p ∈ w₁.network, ∀ g ∈ p.event.gossip, g.uuid = uuid a → k < g.incarnation →
      g.status = .alive) ∧
    ∀ j env e addr w₂, w₁.Undisturbed (uuid a) k (j, ⟨env, .event e addr⟩) →
      e.hdr.uuid = uuid a → k < e.hdr.incarnation → (w₁.nodes j).find (uuid a) ≠ none →
      (w₁.call j ⟨env, .event e addr⟩).running j = true →
      Run Step (Undisturbed (uuid a) k) (w₁.call j ⟨env, .event e addr⟩) w₂ →
      ∃ n, (w₂.nodes j).find (uuid a) = some n ∧ k < n.info.incarnation ∧ n.info.status = .alive := by
  subst hk
  have hw₁ := (vindicated_of_run hinj h a).run hv hrun
  refine ⟨fun i n hn => (hw₁.tells.views i).of_mem (hw₁.sound.wf i) hn,
    fun p hp => (hw₁.tells.network p hp).gossip, ?_⟩
  intro j env e addr w₂ hevent hu hlater hknown hrunning hrun₂
  have hstep := hw₁.step hv hevent.1 hevent.2 rfl
  have hw₂ := hstep.run hv hrun₂
  obtain ⟨n, hn⟩ := Option.ne_none_iff_exists'.mp hknown
  -- the event brings the later incarnation, and no later call takes it away
  obtain ⟨m, hm, hle⟩ := heard_incarnation (hw₁.sound.wf j) (hu ▸ hn) (returns_of_running hrunning)
  rw [hu] at hm
  obtain ⟨m', hm', hlt⟩ := hstep.sound.run_incarnation hrun₂ hm (hlater.trans_le hle)
  exact ⟨m', hm', hlt, hw₂.tells.views j _ m' hm' ((hw₂.sound.wf j).find_eq_some.mp hm').2 hlt⟩

/-- The ACK of node 2 to the PING that tells it a second time that it is suspected. -/
def refutation : Event := ⟨⟨pair true, 1080, 1⟩, .ack (pair true), []⟩

/-- Node 2 has been told twice. -/
def refuted : World Bool :=
  (suspected.call true ⟨steadyEnv 1080, .event suspicion .none⟩).call true
    ⟨steadyEnv 1080, .event suspicion .none⟩

/-- Node 1 has suspected node 2; the ACK ends that. -/
theorem refutation_holds_pair :
    ∃ n, ((refuted.call false ⟨steadyEnv 1080, .event refutation .none⟩).nodes false).find (pair true) =
      some n ∧ 0 < n.info.incarnation ∧ n.info.status = .alive := by
  have hself : ∀ w : World Bool, w.Sound pair → ∀ c, ¬ w.Reopens (pair true) 0 (true, c) := by
    rintro w hsound c ⟨n, hn, -⟩
    rw [← hsound.uuid true] at hn
    cases ((hsound.wf true).find_self).symm.trans hn
  have hsound := (bounded_of_run pair_injective suspected_run).sound
  have htold : suspected.Admits (true, ⟨steadyEnv 1080, .event suspicion .none⟩) :=
    hsound.delivers (p := ⟨suspicion, .none⟩) (by decide) (by decide) (by decide) _
  have hsound₁ := hsound.step htold rfl
  have htold₁ : (suspected.call true ⟨steadyEnv 1080, .event suspicion .none⟩).Admits
      (true, ⟨steadyEnv 1080, .event suspicion .none⟩) :=
    hsound₁.delivers (p := ⟨suspicion, .none⟩) (by decide) (by decide) (by decide) _
  have hsound₂ : refuted.Sound pair := hsound₁.step htold₁ rfl
  have hrun : Run Step (Undisturbed (pair true) 0) suspected refuted :=
    ((Run.refl suspected).tail (l := (true, _)) ⟨htold, hself _ hsound _⟩ rfl).tail (l := (true, _))
      ⟨htold₁, hself _ hsound₁ _⟩ rfl
  have hanswer : refuted.Admits (false, ⟨steadyEnv 1080, .event refutation .none⟩) :=
    hsound₂.delivers (p := ⟨refutation, .none⟩) (by decide +kernel) (by decide +kernel) (by decide) _
  refine (refutation_holds pair_injective suspected_run (a := true) (by decide) (by decide) hrun).2.2
    false (steadyEnv 1080) refutation .none _ ⟨hanswer, ?_⟩ rfl (by decide) (by decide +kernel)
    (by decide +kernel) (.refl _)
  rintro ⟨n, -, -, ⟨e, addr, ⟨⟩, hb⟩ | ⟨hheart, -⟩⟩
  · cases hb
  · cases hheart

end World
end LibSwim
