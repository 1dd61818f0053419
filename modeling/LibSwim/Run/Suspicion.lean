import LibSwim.Run.Death
import LibSwim.Run.Heartbeat

/-! # Suspicion and death in time

A heartbeat suspects a member that was last seen a minute ago and declares a suspected one dead
after two. Both thresholds look at `last_seen` alone: the time of the suspicion is not recorded.
What `last_seen` is worth depends on the events in between, since a header or a gossip entry may
set it to an earlier time.
-/

namespace LibSwim

open Foundations Program

/-! ## The time a member was last seen -/

/-- An event that does not take back the time at which `v`, recorded as `n`, was last seen: if it
comes from `v` and is not stale, the record has a proper status and is not newer; and the gossip
about `v` that is read and not stale is ALIVE in the incarnation recorded, or not older than the
record and the header. -/
def Event.KeepsSeen (self v : Uuid) (n : NodeState) (e : Event) : Prop :=
  (e.hdr.uuid = v → n.info.incarnation ≤ e.hdr.incarnation →
      n.info.status.Known ∧ n.info.lastSeen ≤ e.hdr.time) ∧
    (e.body.ReadsGossip self → ∀ g ∈ e.gossip, g.uuid = v → n.info.incarnation ≤ g.incarnation →
      g.status = .alive ∧ g.incarnation = n.info.incarnation ∨
        n.info.lastSeen ≤ g.lastSeen ∧
          (e.hdr.uuid = v → n.info.incarnation ≤ e.hdr.incarnation → e.hdr.time ≤ g.lastSeen))

/-- The calls that do not take back the time at which `v` was last seen. -/
def keepsSeen (v : Uuid) (s : SWIM) (c : Call) : Prop :=
  ∀ e addr n, c.action = .event e addr → s.find v = some n → e.KeepsSeen s.uuid v n

/-- The event comes from `v`, which is a member that is not DEAD, and is not stale. -/
def Event.HeardFrom (v : Uuid) (s : SWIM) (e : Event) : Prop :=
  e.hdr.uuid = v ∧ ∃ n, s.find v = some n ∧ n.info.status ≠ .dead ∧
    n.info.incarnation ≤ e.hdr.incarnation

/-- The member `v` goes from SUSPECT to DEAD. -/
def DeclaredDead (v : Uuid) (s s' : SWIM) : Prop :=
  ∃ n n', s.find v = some n ∧ s'.find v = some n' ∧ n.info.status = .suspect ∧
    n'.info.status = .dead

section

variable {s s' : SWIM} {v : Uuid} {n m m' : NodeState} {c : Call} {e : Event} {addr : SockAddr}
variable {env : Env} {g : NodeInfo}

/-- Not older than incarnation `k` and time `seen`. -/
def SeenSince (k : ℕ) (seen : ℤ) (n : NodeState) : Prop :=
  k ≤ n.info.incarnation ∧ seen ≤ n.info.lastSeen

section

variable {k : ℕ} {seen : ℤ}

theorem SeenSince.notice {time : ℤ} {incarnation : ℕ} (h : SeenSince k seen n)
    (ht : n.info.incarnation ≤ incarnation → seen ≤ time) :
    SeenSince k seen (n.notice time incarnation) := by
  rcases lt_or_ge incarnation n.info.incarnation with hlt | hle
  · rwa [NodeState.notice_stale hlt]
  · obtain ⟨seen', _, hs, -, hinfo⟩ := n.notice_info time incarnation
    rw [SeenSince, hinfo]
    refine ⟨h.1.trans (le_max_left _ _), ?_⟩
    rcases hs with rfl | rfl
    · exact h.2
    · exact ht hle

theorem SeenSince.merge (h : SeenSince k seen n)
    (hg : k ≤ g.incarnation → g.status = .alive ∧ g.incarnation = k ∨ seen ≤ g.lastSeen) :
    SeenSince k seen (n.merge g) := by
  obtain ⟨hk, hseen⟩ := h
  refine ⟨by rw [NodeState.incarnation_merge]; exact hk.trans (le_max_left _ _), ?_⟩
  rcases lt_trichotomy g.incarnation n.info.incarnation with hlt | heq | hgt
  · rwa [NodeState.merge_stale hlt]
  · rcases hg (heq ▸ hk) with ⟨halive, -⟩ | hle
    · -- within one incarnation ALIVE changes the time of an ALIVE entry only, to the later one
      rw [NodeState.merge, if_neg (by omega), if_pos heq]
      cases hs : n.info.status with
      | alive =>
        simp only [halive, lt_irrefl, if_false, true_and]
        split_ifs with hl
        · exact hseen.trans hl.le
        · exact hseen
      | suspect => simpa [halive, Status.code] using hseen
      | dead | unknown | other i => exact hseen
    · obtain ⟨seen', _, hs, -, hinfo⟩ := n.merge_info g
      rw [hinfo]
      rcases hs with rfl | rfl
      · exact hseen
      · exact hle
  · rw [NodeState.merge_newer hgt]
    rcases hg (by omega) with ⟨-, heq⟩ | hle
    · omega
    · exact hle

end

/-- Heartbeats do not touch the time, and events keep it as they are said to. -/
theorem NodeAct.seenSince {t : SWIM} (h : NodeAct (c.env.time 0) s t c.action m m')
    (hc : keepsSeen v s c) (ht : Midway s t) (hn : s.find v = some n) (hv : m.uuid = v)
    (hm : SeenSince n.info.incarnation n.info.lastSeen m) :
    SeenSince n.info.incarnation n.info.lastSeen m' := by
  generalize hact : c.action = action at h
  cases h with
  | @notice e addr _ hm₀ hu _ =>
    rw [hv, hn] at hm₀
    obtain rfl := Option.some.inj hm₀
    exact hm.notice fun hle => ((hc e addr n hact hn).1 (hu.symm.trans hv) hle).2
  | @merge e addr _ g hr hg _ hu =>
    refine hm.merge fun hk => ?_
    exact ((hc e addr n hact hn).2 (ht.uuid ▸ hr) g hg (hu.trans hv) hk).imp_right And.left
  | suspect | refute | del | suspectDead | declareDead => exact hm

theorem Returns.seenSince (h : Returns s c s') (hwf : s.WellFormed) (hc : keepsSeen v s c)
    (hn : s.find v = some n) :
    ∃ m, s'.find v = some m ∧ SeenSince n.info.incarnation n.info.lastSeen m := by
  obtain ⟨ps, hrun⟩ := h
  exact (account hwf hrun).member hwf hn ⟨le_rfl, le_rfl⟩
    fun t m m' ht ha hv hm => ha.seenSince hc ht hn hv hm

/-- Over a run the time only moves forward. -/
theorem run_seen {seen : ℤ} (hrun : Run Returns (keepsSeen v) s s') (hwf : s.WellFormed)
    (hn : s.find v = some n) (hseen : seen ≤ n.info.lastSeen) :
    s'.WellFormed ∧ ∃ m, s'.find v = some m ∧ seen ≤ m.info.lastSeen := by
  refine hrun.preserves (I := fun t => t.WellFormed ∧ ∃ m, t.find v = some m ∧
    seen ≤ m.info.lastSeen) ?_ ⟨hwf, n, hn, hseen⟩
  rintro t c t' ⟨ht, m, hm, hle⟩ hc hret
  obtain ⟨m', hm', -, hle'⟩ := hret.seenSince ht hc hm
  exact ⟨hret.wf ht, m', hm', hle.trans hle'⟩

/-- Once an event is heard from `v`, nothing that its handler does goes behind it. -/
theorem NodeAct.seenSince_heard {time : ℤ} {t : SWIM} (h : NodeAct time s t (.event e addr) m m')
    (ht : Midway s t) (hk : e.KeepsSeen s.uuid v n) (hu : e.hdr.uuid = v)
    (hinc : n.info.incarnation ≤ e.hdr.incarnation) (hv : m.uuid = v)
    (hm : SeenSince e.hdr.incarnation e.hdr.time m) :
    SeenSince e.hdr.incarnation e.hdr.time m' := by
  cases h with
  | notice _ _ _ => exact hm.notice fun _ => le_rfl
  | @merge _ _ _ g hr hg _ hgu =>
    refine hm.merge fun hle => ?_
    rcases hk.2 (ht.uuid ▸ hr) g hg (hgu.trans hv) (hinc.trans hle) with ⟨halive, heq⟩ | ⟨-, hseen⟩
    · exact .inl ⟨halive, le_antisymm (heq ▸ hinc) hle⟩
    · exact .inr (hseen hu hinc)
  | suspect | refute | del => exact hm

/-- After an event that is heard from `v`, its time is at least that of the event. -/
theorem heard_seen (hwf : s.WellFormed) (hh : e.HeardFrom v s)
    (hc : keepsSeen v s ⟨env, .event e addr⟩) (h : Returns s ⟨env, .event e addr⟩ s') :
    ∃ m, s'.find v = some m ∧ e.hdr.time ≤ m.info.lastSeen := by
  obtain ⟨hu, n, hn, hdead, hinc⟩ := hh
  obtain ⟨ps, hrun⟩ := h
  have hv := (hwf.find_eq_some.mp hn).2
  have hkeep := hc e addr n rfl hn
  have hstatus := (hkeep.1 hu hinc).1.alive_or_suspect hdead
  have hspec : wp (swimProcessEvent e addr)
      (fun _ h => ∃ m, h.swim.find v = some m ∧ e.hdr.time ≤ m.info.lastSeen) (fun _ _ => True)
      ⟨s, env, []⟩ := by
    rw [swimProcessEvent, wp_bind]
    refine wp_noticed hwf (fun _ h₁ hnot => ?_) fun _ _ _ => trivial
    -- the handler is a call of its own, which begins with the sender noticed
    have hd : During h₁.env h₁.swim (.event e addr) h₁ :=
      ⟨hnot.wf, by rw [hnot.sent]; exact .start, .refl _, fun _ => id, rfl⟩
    have hfind : h₁.swim.find v = some (n.notice e.hdr.time e.hdr.incarnation) := by
      rw [hnot.find, hn, Option.map_some, Event.noticed_of_eq (hv.trans hu.symm)]
    have hseen : SeenSince e.hdr.incarnation e.hdr.time (n.notice e.hdr.time e.hdr.incarnation) :=
      ⟨by rw [NodeState.incarnation_notice]; exact le_max_right _ _,
        (NodeState.lastSeen_notice hinc hstatus).ge⟩
    refine wp_mono (wp_dispatch hd (fun _ => id) hnot.wf) (fun _ h' hdone => ?_)
      fun _ _ _ => trivial
    obtain ⟨m, hm, -, hle⟩ := hdone.reached.member hnot.wf hdone.wf hfind hseen
      fun t m m' ht ha hmv hm => ha.seenSince_heard ht (hnot.same.1 ▸ hkeep) hu hinc hmv hm
    exact ⟨m, hm, hle⟩
  obtain ⟨t, hm, rfl, -⟩ := runStep_ok hrun hspec
  exact hm

/-! ## Heartbeats -/

/-- A member is declared dead two minutes after it was last seen. -/
theorem lastSeen_of_declaredDead (hwf : s.WellFormed) (h : Returns s ⟨env, .heartbeat⟩ s')
    (hd : DeclaredDead v s s') (hn : s.find v = some n) : n.info.lastSeen ≤ env.time 0 - 120 := by
  obtain ⟨n₀, n', hn₀, hn', hs, hdead⟩ := hd
  obtain rfl := Option.some.inj (hn₀.symm.trans hn)
  rw [(heartbeat_beaten hwf h).find hwf (h.wf hwf) hn] at hn'
  obtain rfl := Option.some.inj hn'
  by_contra hlt
  simp [NodeState.ticked, hs, hlt] at hdead

end

/-- A member that is declared dead was not heard of for two minutes: in every run, if `v` was heard
of and from then on no call takes back the time at which it was last seen, a heartbeat declares it
dead no earlier than 120 seconds after the time of the event. -/
theorem only_unheard_declared_dead {uuid v : Uuid} {now : ℤ} {s s₁ s₂ s₃ : SWIM} {e : Event}
    {addr : SockAddr} {env env' : Env} (h : Run Returns anyCall (swimStateInit uuid now) s)
    (hh : e.HeardFrom v s) (hc : keepsSeen v s ⟨env, .event e addr⟩)
    (h₁ : Returns s ⟨env, .event e addr⟩ s₁) (hrun : Run Returns (keepsSeen v) s₁ s₂)
    (h₃ : Returns s₂ ⟨env', .heartbeat⟩ s₃) (hd : DeclaredDead v s₂ s₃) :
    e.hdr.time ≤ env'.time 0 - 120 := by
  have hwf := wellFormed_of_run h (.init uuid now)
  obtain ⟨n, hn, hseen⟩ := heard_seen hwf hh hc h₁
  obtain ⟨hwf₂, m, hm, hle⟩ := run_seen hrun (h₁.wf hwf) hn hseen
  exact hle.trans (lastSeen_of_declaredDead hwf₂ h₃ hd hm)

/-- Node 2 is heard of at time 1000, suspected at 1070 and declared dead at 1120. -/
theorem only_unheard_declared_dead_silent :
    let s := (runStep (joinCall 2 .none) (swimStateInit (.ofByte 1) 1000)).2.1
    let s₁ := (runStep (pingCall 2 0) s).2.1
    let s₂ := (runStep (heartbeatCall 1070) s₁).2.1
    let s₃ := (runStep (heartbeatCall 1120) s₂).2.1
    DeclaredDead (.ofByte 2) s₂ s₃ ∧ (1000 : ℤ) ≤ 1120 - 120 := by
  intro s s₁ s₂ s₃
  have hrun : Run Returns anyCall (swimStateInit (.ofByte 1) 1000) s :=
    Run.call (Run.refl _) (joinCall 2 .none) trivial rfl
  obtain ⟨n, hn, hs, hi, hl⟩ : ∃ n, s.find (.ofByte 2) = some n ∧ n.info.status = .alive ∧
      n.info.incarnation = 0 ∧ n.info.lastSeen = 1000 := ⟨_, rfl, by decide, by decide, by decide⟩
  have hkeeps : keepsSeen (.ofByte 2) s (pingCall 2 0) := by
    rintro e addr m ⟨⟩ hm
    obtain rfl := Option.some.inj (hn.symm.trans hm)
    exact ⟨fun _ _ => ⟨.inl hs, hl.le⟩, fun _ g hg => by cases hg⟩
  have hbeat : Run Returns (keepsSeen (.ofByte 2)) s₁ s₂ :=
    Run.call (Run.refl s₁) (heartbeatCall 1070) (by rintro e addr m ⟨⟩) (by decide)
  have hdead : DeclaredDead (.ofByte 2) s₂ s₃ :=
    ⟨(s₂.find (.ofByte 2)).get (by decide), (s₃.find (.ofByte 2)).get (by decide),
      (Option.some_get _).symm, (Option.some_get _).symm, by decide, by decide⟩
  exact ⟨hdead, only_unheard_declared_dead hrun ⟨rfl, n, hn, by simp [hs], hi.le⟩ hkeeps
    (returns_of_ok (c := pingCall 2 0) (by decide)) hbeat
    (returns_of_ok (c := heartbeatCall 1120) (by decide)) hdead⟩

/-- Node 2 is heard of at time 1000. Gossip that suspects it, with the time 1, takes that back, and
the next heartbeat declares it dead. -/
theorem heard_declared_dead :
    let s := (runStep (joinCall 2 .none) (swimStateInit (.ofByte 1) 1000)).2.1
    let s₁ := (runStep (pingCall 2 0) s).2.1
    let s₂ := (runStep (gossipCall 3 ⟨.ofByte 2, 1, 0, .suspect, .none⟩) s₁).2.1
    let s₃ := (runStep (heartbeatCall 1010) s₂).2.1
    Run Returns anyCall (swimStateInit (.ofByte 1) 1000) s ∧
      Event.HeardFrom (.ofByte 2) s ⟨⟨.ofByte 2, 1000, 0⟩, .ping, []⟩ ∧
      Returns s (pingCall 2 0) s₁ ∧ Run Returns anyCall s₁ s₂ ∧
      Returns s₂ (heartbeatCall 1010) s₃ ∧ DeclaredDead (.ofByte 2) s₂ s₃ ∧
      (1000 : ℤ) > 1010 - 120 := by
  intro s s₁ s₂ s₃
  refine ⟨Run.call (Run.refl _) (joinCall 2 .none) trivial rfl,
    ⟨rfl, _, rfl, by decide, by decide⟩, returns_of_ok (by decide),
    Run.call (Run.refl s₁) _ trivial (by decide), returns_of_ok (by decide), ?_, by decide⟩
  exact ⟨(s₂.find (.ofByte 2)).get (by decide), (s₃.find (.ofByte 2)).get (by decide),
    (Option.some_get _).symm, (Option.some_get _).symm, by decide, by decide⟩

/-! ## The grace period -/

/-- A heartbeat at time `t` suspects `v`. From then on, as long as no call takes back the time at
which `v` was last seen, no heartbeat before `t + 60` declares it dead, exactly when it was last
seen at `t - 60` and not before. -/
theorem grace_period_iff {uuid v : Uuid} {now : ℤ} {s s₁ : SWIM} {n n₁ : NodeState} {env : Env}
    (h : Run Returns anyCall (swimStateInit uuid now) s) (hn : s.find v = some n)
    (halive : n.info.status = .alive) (h₁ : Returns s ⟨env, .heartbeat⟩ s₁)
    (hn₁ : s₁.find v = some n₁) (hs : n₁.info.status = .suspect) :
    (∀ s₂ s₃ env', Run Returns (keepsSeen v) s₁ s₂ → env.time 0 ≤ env'.time 0 →
      Returns s₂ ⟨env', .heartbeat⟩ s₃ → DeclaredDead v s₂ s₃ → env.time 0 + 60 ≤ env'.time 0) ↔
      env.time 0 - 60 ≤ n.info.lastSeen := by
  have hwf := wellFormed_of_run h (.init uuid now)
  have hwf₁ := h₁.wf hwf
  have hbeaten := heartbeat_beaten hwf h₁
  have hfind := hn₁.symm.trans (hbeaten.find hwf hwf₁ hn)
  have hbeats : s.Beats (env.time 0) := by
    by_contra hno
    rw [if_neg hno] at hfind
    rw [Option.some.inj hfind, halive] at hs
    cases hs
  rw [if_pos hbeats] at hfind
  have hseen : n₁.info.lastSeen = n.info.lastSeen := by
    rw [Option.some.inj hfind, NodeState.ticked_lastSeen]
  constructor
  · intro hgrace
    by_contra hlt
    -- a heartbeat at the end of the minute, with nothing heard in between
    obtain ⟨s₃, h₃⟩ := heartbeat_returns hwf₁ (steadyEnv_allocates (env.time 0 + 59))
    have hbeats' : s₁.Beats (env.time 0 + 59) := by
      refine ⟨hbeaten.viewSize ▸ hbeats.1, ?_⟩
      rw [hbeaten.lastHeartbeat, if_pos hbeats, swimHeartbeatInterval]
      omega
    have hfind₃ := (heartbeat_beaten hwf₁ h₃).find hwf₁ (h₃.wf hwf₁) hn₁
    have hdead : DeclaredDead v s₁ s₃ := by
      refine ⟨n₁, _, hn₁, hfind₃, hs, ?_⟩
      have hold : n₁.info.lastSeen ≤ env.time 0 + 59 - 120 := by omega
      rw [if_pos (by exact hbeats')]
      simp [NodeState.ticked, hs, steadyEnv, hold, NodeState.del]
    have hle := hgrace s₁ s₃ (steadyEnv (env.time 0 + 59)) (.refl s₁)
      (by simp only [steadyEnv]; omega) h₃ hdead
    simp only [steadyEnv] at hle
    omega
  · intro hseen₀ s₂ s₃ env' hrun _ h₃ hdead
    obtain ⟨hwf₂, m, hm, hle⟩ := run_seen hrun hwf₁ hn₁ hseen.ge
    have hlast := lastSeen_of_declaredDead hwf₂ h₃ hdead hm
    omega

/-- Node 2 was last seen at 1000 and is suspected at 1060. -/
theorem grace_period_in_time :
    let s := (runStep (joinCall 2 .none) (swimStateInit (.ofByte 1) 1000)).2.1
    let s₁ := (runStep (heartbeatCall 1060) s).2.1
    (s₁.find (.ofByte 2)).map (·.info.status) = some .suspect ∧
      ∀ s₂ s₃ env', Run Returns (keepsSeen (.ofByte 2)) s₁ s₂ → 1060 ≤ env'.time 0 →
        Returns s₂ ⟨env', .heartbeat⟩ s₃ → DeclaredDead (.ofByte 2) s₂ s₃ → 1120 ≤ env'.time 0 := by
  intro s s₁
  have hrun : Run Returns anyCall (swimStateInit (.ofByte 1) 1000) s :=
    Run.call (Run.refl _) (joinCall 2 .none) trivial rfl
  have hstatus : (s₁.find (.ofByte 2)).map (·.info.status) = some .suspect := by decide
  obtain ⟨n₁, hn₁, hs⟩ := Option.map_eq_some_iff.mp hstatus
  obtain ⟨n, hn, halive, hseen⟩ : ∃ n, s.find (.ofByte 2) = some n ∧ n.info.status = .alive ∧
      n.info.lastSeen = 1000 := ⟨_, rfl, by decide, by decide⟩
  have hret : Returns s ⟨steadyEnv 1060, .heartbeat⟩ s₁ :=
    returns_of_ok (c := heartbeatCall 1060) (by decide)
  refine ⟨hstatus, (grace_period_iff hrun hn halive hret hn₁ hs).mpr ?_⟩
  rw [hseen]
  decide

/-- Node 2 was last seen at 1000. A heartbeat at 1130 suspects it, and the next one, ten seconds
later, declares it dead. -/
theorem grace_period_skipped :
    let s := (runStep (joinCall 2 .none) (swimStateInit (.ofByte 1) 1000)).2.1
    let s₁ := (runStep (heartbeatCall 1130) s).2.1
    let s₂ := (runStep (heartbeatCall 1140) s₁).2.1
    Run Returns anyCall (swimStateInit (.ofByte 1) 1000) s ∧
      (s.find (.ofByte 2)).map (·.info.status) = some .alive ∧
      Returns s (heartbeatCall 1130) s₁ ∧
      (s₁.find (.ofByte 2)).map (·.info.status) = some .suspect ∧
      Returns s₁ (heartbeatCall 1140) s₂ ∧ DeclaredDead (.ofByte 2) s₁ s₂ ∧
      (1140 : ℤ) < 1130 + 60 := by
  intro s s₁ s₂
  refine ⟨Run.call (Run.refl _) (joinCall 2 .none) trivial rfl, by decide,
    returns_of_ok (by decide), by decide, returns_of_ok (by decide), ?_, by decide⟩
  exact ⟨(s₁.find (.ofByte 2)).get (by decide), (s₂.find (.ofByte 2)).get (by decide),
    (Option.some_get _).symm, (Option.some_get _).symm, by decide, by decide⟩

end LibSwim
