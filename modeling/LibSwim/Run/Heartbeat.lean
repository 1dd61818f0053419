import LibSwim.Run.Steps

/-! # A heartbeat as a function of time

What a heartbeat makes of a member depends on the time and on the entry of that member alone,
although the loop over the members reads and sends to others on its way.
-/

namespace LibSwim

open Foundations Program

variable {s s' : SWIM} {env : Env} {v : Uuid} {n : NodeState} {now : ℤ}

theorem heartbeat_beaten (hwf : s.WellFormed) (h : Returns s ⟨env, .heartbeat⟩ s') :
    Beaten (env.time 0) s s' := by
  obtain ⟨ps, hrun⟩ := h
  obtain ⟨t, ⟨-, hb⟩, rfl, -⟩ := runStep_ok hrun (wp_swimClusterHeartbeat (.start hwf) rfl)
  exact hb

/-- Only a failed allocation stops a heartbeat. -/
theorem heartbeat_returns (hwf : s.WellFormed) (ha : env.Allocates) :
    ∃ s', Returns s ⟨env, .heartbeat⟩ s' := by
  obtain ⟨t, -, hrun⟩ := runStep_total (c := ⟨env, .heartbeat⟩)
    (wp_mono (wp_swimClusterHeartbeat (.start hwf) rfl) (fun _ _ h => h) fun f _ hstop => by
      have hcause := hstop.2
      cases f with
      | nullDeref => exact hcause ha
      | outOfBounds => exact hcause
      | exit => simp [FaultCause] at hcause
      | assertion a => cases a <;> simp [FaultCause] at hcause)
  exact ⟨_, _, hrun⟩

theorem Beaten.find (h : Beaten now s s') (hwf : s.WellFormed) (hwf' : s'.WellFormed)
    (hn : s.find v = some n) : s'.find v = some (if s.Beats now then n.ticked now else n) := by
  obtain ⟨hmem, hv⟩ := hwf.find_eq_some.mp hn
  rw [hwf'.find_eq_some, h.members]
  split_ifs
  · exact ⟨List.mem_map_of_mem hmem, by rw [NodeState.ticked_uuid, hv]⟩
  · exact ⟨hmem, hv⟩

/-- The status a heartbeat at time `now` leaves a member with. -/
def Status.ticked (now lastSeen : ℤ) : Status → Status
  | .alive => if lastSeen ≤ now - 60 then .suspect else .alive
  | .suspect => if lastSeen ≤ now - 120 then .dead else .suspect
  | status => status

theorem NodeState.ticked_eq (now : ℤ) (n : NodeState) : n.ticked now =
    { n with info := { n.info with status := n.info.status.ticked now n.info.lastSeen } } := by
  unfold ticked
  cases hs : n.info.status with
  | alive =>
    simp only [Status.ticked]
    split_ifs
    · rfl
    · rw [← hs]
  | suspect =>
    simp only [Status.ticked]
    split_ifs
    · rfl
    · rw [← hs]
  | dead | unknown | other =>
    simp only [Status.ticked]
    rw [← hs]

theorem NodeState.ticked_lastSeen (now : ℤ) (n : NodeState) :
    (n.ticked now).info.lastSeen = n.info.lastSeen := by
  rw [ticked_eq]

/-- A heartbeat that comes too early reads the clock and nothing else. -/
theorem heartbeat_early (h : ¬ s.Beats (env.time 0)) :
    runStep ⟨env, .heartbeat⟩ s = (.ok (), s, []) := by
  have hspec : wp swimClusterHeartbeat (fun _ h' => h'.swim = s ∧ h'.sent = []) (fun _ _ => False)
      ⟨s, env, []⟩ := by
    simp only [swimClusterHeartbeat, time, wp_bind, wp_get, wp_modify, wp_pure, wp_getSwim]
    exact wp_ite (fun hbeat => absurd hbeat h) fun _ => ⟨rfl, rfl⟩
  obtain ⟨t, ⟨hs, hp⟩, hrun⟩ := runStep_total (c := ⟨env, .heartbeat⟩) hspec
  rw [hrun, hs, hp]

theorem heartbeat_skipped (h : Returns s ⟨env, .heartbeat⟩ s') (hskip : ¬ s.Beats (env.time 0)) :
    s' = s := by
  obtain ⟨ps, hrun⟩ := h
  rw [heartbeat_early hskip] at hrun
  cases hrun
  rfl

/-- A heartbeat is skipped and changes nothing, or it sets the clock and the status of each member
according to the time and the entry of that member; it returns unless memory is exhausted. -/
theorem heartbeat_per_member (hwf : s.WellFormed) :
    (∀ env, env.Allocates → ∃ s', Returns s ⟨env, .heartbeat⟩ s') ∧
    (∀ env s', Returns s ⟨env, .heartbeat⟩ s' → ¬ s.Beats (env.time 0) → s' = s) ∧
    (∀ env s', Returns s ⟨env, .heartbeat⟩ s' → s.Beats (env.time 0) →
      s'.lastHeartbeat = env.time 0 ∧ s'.viewSize = s.viewSize ∧
        ∀ (i : ℕ) (n : NodeState), s.members[i]? = some n → s'.members[i]? =
          some { n with info := { n.info with
            status := n.info.status.ticked (env.time 0) n.info.lastSeen } }) ∧
    ∀ env env' s₁ s₂, env.time 0 = env'.time 0 → Returns s ⟨env, .heartbeat⟩ s₁ →
      Returns s ⟨env', .heartbeat⟩ s₂ → s₁.members = s₂.members := by
  refine ⟨fun env ha => heartbeat_returns hwf ha, fun env s' h => heartbeat_skipped h, ?_, ?_⟩
  · intro env s' h hbeat
    have hb := heartbeat_beaten hwf h
    refine ⟨?_, hb.viewSize, fun i n hn => ?_⟩
    · rw [hb.lastHeartbeat, if_pos hbeat]
    · rw [hb.members, if_pos hbeat, List.getElem?_map, hn, Option.map_some, NodeState.ticked_eq]
  · intro env env' s₁ s₂ htime h₁ h₂
    rw [(heartbeat_beaten hwf h₁).members, (heartbeat_beaten hwf h₂).members, htime]

/-- Of two members the one that was seen at 1000 is suspected at 1060, the one that was seen at 1030
is not. -/
theorem heartbeat_per_member_joined :
    let late : Call := ⟨steadyEnv 1030, .event ⟨⟨.ofByte 3, 1030, 0⟩, .join (.ofByte 3) .none, []⟩ .none⟩
    let s := (runStep late (runStep (joinCall 2 .none) (swimStateInit (.ofByte 1) 1000)).2.1).2.1
    ∃ s' m n, Returns s (heartbeatCall 1060) s' ∧ s.members[0]? = some m ∧ s.members[1]? = some n ∧
      m.info.status = .alive ∧ n.info.status = .alive ∧
      s'.members[0]? = some { m with info := { m.info with status := .suspect } } ∧
      s'.members[1]? = some { n with info := { n.info with status := .alive } } := by
  intro late s
  have hwf : s.WellFormed :=
    runStep_wf (runStep_wf (.init (.ofByte 1) 1000) (joinCall 2 .none)) late
  have hbeats : s.Beats 1060 := by decide +kernel
  have hmember : ∀ (i : ℕ) (time : ℤ), s.members[i]?.any (fun n => n.info.status = .alive ∧
      n.info.lastSeen = time) = true → ∃ n, s.members[i]? = some n ∧ n.info.status = .alive ∧
      n.info.lastSeen = time := by
    intro i time hany
    obtain ⟨n, hn, hseen⟩ := (Option.any_eq_true _ _).mp hany
    exact ⟨n, hn, of_decide_eq_true hseen⟩
  obtain ⟨m, hm, hmalive, hmseen⟩ := hmember 0 1000 (by decide +kernel)
  obtain ⟨n, hn, hnalive, hnseen⟩ := hmember 1 1030 (by decide +kernel)
  have hbeat := heartbeat_per_member hwf
  obtain ⟨s', hs'⟩ := hbeat.1 _ (steadyEnv_allocates 1060)
  have hget := (hbeat.2.2.1 _ s' hs' hbeats).2.2
  have hget₀ := hget 0 m hm
  have hget₁ := hget 1 n hn
  rw [hmalive, hmseen] at hget₀
  rw [hnalive, hnseen] at hget₁
  exact ⟨s', m, n, hs', hm, hn, hmalive, hnalive, hget₀, hget₁⟩

end LibSwim
