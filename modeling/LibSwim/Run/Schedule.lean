import LibSwim.Run.Interface

/-! # The schedule in every state of a run

A schedule that is not invalid was made by some operation of the run, and no operation since has
inserted a member: it is a permutation of the indices the members have.
-/

namespace LibSwim

open Foundations Program

variable {uuid : Uuid} {now : ℤ} {s s' : SWIM} {c : OpCall}

/-- The operation makes a new schedule in state `s`. -/
def OpCall.Shuffles (c : OpCall) (s : SWIM) : Prop :=
  s.viewSize ≠ 0 ∧ c.env.reallocOrder 0 = true ∧
    match c.op with
    | .probeShuffle => True
    | .probeNext => s.Due
    | .call .heartbeat => s.Due ∧ s.Beats (c.env.time 0)
    | _ => False

theorem Performs.of_keeps (h : Performs s c s') (hk : Keeps Framed c.op.program) :
    KeptSchedule s s' := by
  obtain ⟨h', hexec, rfl⟩ := h
  exact (hk.ok hexec).schedule

theorem Performs.of_keptSchedule (h : Performs s c s') (hw : wp c.op.program
    (fun _ h' => KeptSchedule s h'.swim) (fun _ _ => True) ⟨s, c.env, []⟩) : KeptSchedule s s' := by
  obtain ⟨h', hexec, rfl⟩ := h
  exact (wp_iff.mp hw).1 _ h' hexec

theorem wp_shuffleSchedule {h : Host} (hno : ¬ (h.swim.viewSize ≠ 0 ∧ h.env.reallocOrder 0 = true)) :
    wp swimProbeShuffle (fun _ h' => KeptSchedule h.swim h'.swim) (fun _ _ => True) h := by
  refine wp_swimProbeShuffle (fun h' _ hs => .inl ?_) (fun h' _ _ hq => ?_)
    fun _ _ hpos halloc => absurd ⟨hpos, halloc⟩ hno
  · rw [hs.swim]
  · rw [hq.1]
    exact .refl _

/-- An operation that makes no schedule keeps the one there is, or invalidates it. -/
theorem Performs.keptSchedule (h : Performs s c s') (hwf : s.WellFormed) (hno : ¬ c.Shuffles s) :
    KeptSchedule s s' := by
  obtain ⟨env, op⟩ := c
  cases op with
  | call action =>
    cases action with
    | event e addr => exact h.of_keeps (keeps_event e addr)
    | heartbeat =>
      refine h.of_keptSchedule (wp_mono (wp_heartbeatSchedule hwf) (fun _ _ hk => hk ?_)
        fun _ _ => id)
      rintro ⟨hbeat, hpos, hdue, halloc⟩
      exact hno ⟨hpos, halloc, hdue, hbeat⟩
    | join addr => exact h.of_keeps (keeps_clusterJoin addr)
    | leave => exact h.of_keeps keeps_clusterLeave
  | add info => exact h.of_keeps ((keeps_add info).bind fun _ => keeps_pure _)
  | suspect uuid addr => exact h.of_keeps ((keeps_suspect uuid addr).bind fun _ => keeps_pure _)
  | del uuid => exact h.of_keeps ((keeps_del uuid).bind fun _ => keeps_pure _)
  | notice uuid time incarnation =>
    exact h.of_keeps ((keeps_notice uuid time incarnation).bind fun _ => keeps_pure _)
  | merge info => exact h.of_keeps (keeps_merge info)
  | probeShuffle =>
    exact h.of_keptSchedule (wp_shuffleSchedule fun hyes => hno ⟨hyes.1, hyes.2, trivial⟩)
  | probeNext =>
    refine h.of_keptSchedule ((wp_bind _ _).mpr (wp_swimProbeNext hwf fun r h' hp => ?_))
    exact hp.keptSchedule fun hyes => hno ⟨hyes.1, hyes.2.2, hyes.2.1⟩
  | probeInvalidate => exact h.of_keeps keeps_invalidate

/-- The schedule of `s` was made in the run, and every operation since has left it and the places
of the members alone. -/
def MadeFor (uuid : Uuid) (now : ℤ) (s : SWIM) : Prop :=
  ∃ t c t', Run Performs anyOp (swimStateInit uuid now) t ∧ c.Shuffles t ∧ Performs t c t' ∧
    Run (fun u d u' => Performs u d u' ∧ SameSchedule u u') anyOp t' s

theorem madeFor_of_run (hrun : Run Performs anyOp (swimStateInit uuid now) s)
    (hpos : 0 < s.probe.size) : MadeFor uuid now s := by
  have hinv := hrun.preserves (I := fun t => Run Performs anyOp (swimStateInit uuid now) t ∧
    (0 < t.probe.size → MadeFor uuid now t)) ?_ ⟨Run.refl _, fun h => absurd h (Nat.lt_irrefl 0)⟩
  · exact hinv.2 hpos
  · rintro t c t' ⟨ht, hmade⟩ - hstep
    refine ⟨ht.tail trivial hstep, fun hpos' => ?_⟩
    by_cases hs : c.Shuffles t
    · exact ⟨t, c, t', ht, hs, hstep, Run.refl t'⟩
    · rcases hstep.keptSchedule (wellFormed_of_ops ht) hs with hzero | hsame
      · omega
      · obtain ⟨u, d, u', hu, hd, hu', hsince⟩ := hmade (hsame.2.1 ▸ hpos')
        exact ⟨u, d, u', hu, hd, hu', hsince.tail trivial ⟨hstep, hsame⟩⟩

/-- In every state of every run the schedule is invalid or a permutation of the indices of the
members as they stand, and a probe goes to a member that is not dead. -/
theorem schedule_invariant (hrun : Run Performs anyOp (swimStateInit uuid now) s) :
    (s.probe.size = 0 ∨ s.probe.size = s.viewSize) ∧
      (0 < s.probe.size →
        (s.probe.order.take s.probe.size).Perm (List.range s.viewSize) ∧ MadeFor uuid now s) ∧
      ∀ env, ∃ r h', exec swimProbeNext ⟨s, env, []⟩ = (.ok r, h') ∧
        ∀ i, r = some i → i < s.viewSize ∧ ∃ n, s.members[i]? = some n ∧ n.info.status ≠ .dead := by
  have hwf := wellFormed_of_ops hrun
  refine ⟨hwf.probe_ok.imp_right And.left, fun hpos => ⟨?_, madeFor_of_run hrun hpos⟩, fun env => ?_⟩
  · rcases hwf.probe_ok with hzero | ⟨hsize, hperm⟩
    · omega
    · rwa [List.take_of_length_le]
      rw [hsize, hperm.length_eq, List.length_range]
  · refine wp_total.mp (wp_swimProbeNext hwf ?_)
    rintro r h' hp i rfl
    obtain ⟨n, hn, hlive⟩ := hp.target
    exact ⟨SWIM.lt_viewSize hn, n, hn, hlive⟩

/-- Two members are added and a schedule is made for them. -/
theorem schedule_invariant_two :
    let s := play (swimStateInit (.ofByte 1) 1000)
      [addCall 2, addCall 3, ⟨steadyEnv 1000, .probeShuffle⟩]
    s.probe.size = 2 ∧ (s.probe.order.take 2).Perm [0, 1] ∧ MadeFor (.ofByte 1) 1000 s := by
  intro s
  obtain ⟨hplays, hsize, hview⟩ : plays (swimStateInit (.ofByte 1) 1000)
      [addCall 2, addCall 3, ⟨steadyEnv 1000, .probeShuffle⟩] = true ∧ s.probe.size = 2 ∧
      s.viewSize = 2 := by decide +kernel
  have hinv := (schedule_invariant (run_of_plays hplays (.refl _))).2.1
    (by rw [hsize]; decide)
  rw [hsize, hview] at hinv
  exact ⟨hsize, hinv⟩

end LibSwim
