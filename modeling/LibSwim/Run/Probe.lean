import LibSwim.Run.Interface

/-! # Which member is probed, and when

`swim_probe_next` takes its turns in rounds over the members. It gives up when the rest of a round
has nobody to probe, although the members it has passed may be probed again; but as long as the
view stays the same no member waits longer than the rest of one round and the whole of the next.
-/

namespace LibSwim

open Foundations Program

variable {uuid : Uuid} {now : ℤ} {s : SWIM} {env : Env}

/-! ## When there is nobody to probe -/

/-- `swim_probe_next` returns `-1` exactly when every member is dead, and the index of a member
that is not dead otherwise. -/
def ProbeNextExact (s : SWIM) (env : Env) : Prop :=
  ∃ r h', exec swimProbeNext ⟨s, env, []⟩ = (.ok r, h') ∧
    (r = none ↔ ∀ n ∈ s.members, n.info.status = .dead) ∧
    ∀ i, r = some i → ∃ n, s.members[i]? = some n ∧ n.info.status ≠ .dead

/-- Some position in the rest of the round has a member that is not dead. -/
def SWIM.LiveAhead (s : SWIM) : Prop :=
  ∃ i ∈ s.probe.order.drop s.probe.pos, ∃ n, s.members[i]? = some n ∧ n.info.status ≠ .dead

theorem SWIM.WellFormed.all_dead_iff (hwf : s.WellFormed) :
    (∀ n ∈ s.members, n.info.status = .dead) ↔ ∀ i < s.viewSize, s.skips i = true := by
  constructor
  · intro h i hi
    obtain ⟨n, hn⟩ := hwf.get_of_lt hi
    rw [SWIM.skips_of_get hn, h n (List.mem_of_getElem? hn)]
    rfl
  · intro h n hn
    obtain ⟨i, hi⟩ := List.mem_iff_getElem?.mp hn
    simpa [SWIM.skips_of_get hi] using h i (SWIM.lt_viewSize hi)

theorem Probed.none_iff {h h' : Host} {r : Option ℕ} (hp : Probed h r h') (hwf : h.swim.WellFormed)
    (halloc : h.env.reallocOrder 0 = true) : r = none ↔
      if h.swim.Due then ∀ i < h.swim.viewSize, h.swim.skips i = true else ¬ h.swim.LiveAhead := by
  obtain ⟨fresh, hfresh, hturn⟩ := hp.turn
  have hr : r = (Turn.next ⟨h.swim.skips, fresh⟩ h.swim.round).1 := by rw [hturn]
  split_ifs with hdue
  · rw [hr, SWIM.round_of_due hdue, Turn.next_nil, scan_fst_eq_none]
    simp only [(hfresh halloc).mem_iff, List.mem_range]
  · obtain ⟨hround, hne⟩ := hwf.round_of_not_due hdue
    rw [hr, Turn.next_of_ne_nil _ hne, scan_fst_eq_none, hround]
    simp only [SWIM.LiveAhead, ← SWIM.skips_eq_false]
    simp

/-- A call that is due for a new round is exact; in the middle of a round it is exact when the rest
of it has a member to probe, or when no member is left to probe at all. -/
theorem probeNext_exact_iff (hrun : Run Performs anyOp (swimStateInit uuid now) s)
    (halloc : env.reallocOrder 0 = true) :
    ProbeNextExact s env ↔
      s.Due ∨ (∀ n ∈ s.members, n.info.status = .dead) ∨ s.LiveAhead := by
  have hwf := wellFormed_of_ops hrun
  obtain ⟨r, h', hexec, hp⟩ := wp_total.mp (wp_swimProbeNext (h := ⟨s, env, []⟩) hwf fun _ _ hp => hp)
  have hnone := hp.none_iff hwf halloc
  have htarget : ∀ i, r = some i → ∃ n, s.members[i]? = some n ∧ n.info.status ≠ .dead := by
    rintro i rfl
    exact hp.target
  have hexact : ProbeNextExact s env ↔ (r = none ↔ ∀ n ∈ s.members, n.info.status = .dead) := by
    constructor
    · rintro ⟨r', t, hexec', hiff, -⟩
      rw [hexec] at hexec'
      cases hexec'
      exact hiff
    · exact fun hiff => ⟨r, h', hexec, hiff, htarget⟩
  have hlive : s.LiveAhead → ¬ ∀ n ∈ s.members, n.info.status = .dead := by
    rintro ⟨i, -, n, hn, halive⟩ hdead
    exact halive (hdead n (List.mem_of_getElem? hn))
  rw [hexact, hnone]
  by_cases hdue : s.Due
  · simp only [hdue, true_or, iff_true]
    exact hwf.all_dead_iff.symm
  · simp only [hdue, false_or]
    constructor
    · intro hiff
      by_cases hahead : s.LiveAhead
      · exact .inr hahead
      · exact .inl (hiff.mp hahead)
    · rintro (hdead | hahead)
      · exact ⟨fun _ => hdead, fun _ hahead => hlive hahead hdead⟩
      · exact ⟨fun hno => absurd hahead hno, fun hdead => absurd hdead (hlive hahead)⟩

/-- Two nodes have joined and one of them has been probed. -/
def probedOne : List OpCall :=
  [joinCall 2 .none, joinCall 3 .none, heartbeatCall 1020].map Call.toOp

/-- The other one is in the rest of the round. -/
theorem probeNext_exact_two :
    let s := play (swimStateInit (.ofByte 1) 1000) probedOne
    ¬ s.Due ∧ ProbeNextExact s (steadyEnv 1020) := by
  intro s
  obtain ⟨hplays, hdue, hahead, halive⟩ : plays (swimStateInit (.ofByte 1) 1000) probedOne = true ∧
      ¬ s.Due ∧ 0 ∈ s.probe.order.drop s.probe.pos ∧
      s.members[0]?.any (fun n => n.info.status ≠ .dead) = true := by decide +kernel
  obtain ⟨n, hn, hlive⟩ := (Option.any_eq_true _ _).mp halive
  refine ⟨hdue, (probeNext_exact_iff (run_of_plays hplays (.refl _))
    rfl).mpr (.inr (.inr ⟨0, hahead, n, hn, ?_⟩))⟩
  simpa using hlive

/-- Gossip has it that the other one is dead: the rest of the round is spent on it, and the member
probed before, which is alive, is not found. -/
theorem probeNext_not_exact :
    let s := play (swimStateInit (.ofByte 1) 1000)
      (probedOne ++ [(gossipCall 3 ⟨.ofByte 2, 1010, 0, .dead, .none⟩).toOp])
    Run Performs anyOp (swimStateInit (.ofByte 1) 1000) s ∧
      (∃ h', exec swimProbeNext ⟨s, steadyEnv 1020, []⟩ = (.ok none, h')) ∧
      ∃ n ∈ s.members, n.info.status = .alive := by
  intro s
  obtain ⟨hplays, hnone, halive⟩ : plays (swimStateInit (.ofByte 1) 1000)
        (probedOne ++ [(gossipCall 3 ⟨.ofByte 2, 1010, 0, .dead, .none⟩).toOp]) = true ∧
      (exec swimProbeNext ⟨s, steadyEnv 1020, []⟩).1 = .ok none ∧
      ∃ n ∈ s.members, n.info.status = .alive := by decide +kernel
  exact ⟨run_of_plays hplays (.refl _), ⟨_, Prod.ext hnone rfl⟩, halive⟩

/-! ## How long a member waits -/

/-- A call of `swim_probe_next`: before it the members may have come to any status. -/
structure ProbeCall where
  env : Env
  status : ℕ → Status

def SWIM.withStatus (status : ℕ → Status) (s : SWIM) : SWIM :=
  { s with view := s.view.mapIdx fun i n => { n with info := { n.info with status := status i } } }

/-- What the call returns and the node it leaves behind. -/
def probeStep (s : SWIM) (c : ProbeCall) : Except Fault (Option ℕ) × SWIM :=
  let (r, h) := exec swimProbeNext ⟨s.withStatus c.status, c.env, []⟩
  (r, h.swim)

/-- What consecutive calls return. -/
def probeResults : SWIM → List ProbeCall → List (Except Fault (Option ℕ))
  | _, [] => []
  | s, c :: cs => (probeStep s c).1 :: probeResults (probeStep s c).2 cs

/-- The node after consecutive calls. -/
def probeState (s : SWIM) (cs : List ProbeCall) : SWIM := cs.foldl (fun s c => (probeStep s c).2) s

/-- None of the calls shuffles. -/
def OneRound : SWIM → List ProbeCall → Prop
  | _, [] => True
  | s, c :: cs => ¬ s.Due ∧ OneRound (probeStep s c).2 cs

theorem SWIM.withStatus_get (status : ℕ → Status) (s : SWIM) (i : ℕ) :
    (s.withStatus status).members[i]? =
      s.members[i]?.map fun n => { n with info := { n.info with status := status i } } := by
  simp only [members, withStatus, List.getElem?_take, List.getElem?_mapIdx]
  split_ifs <;> rfl

theorem SWIM.WellFormed.withStatus (hwf : s.WellFormed) (status : ℕ → Status) :
    (s.withStatus status).WellFormed := by
  have huuids : (s.withStatus status).uuids = s.uuids := by
    apply List.ext_getElem?
    intro i
    rw [SWIM.uuids, SWIM.uuids, List.getElem?_map, List.getElem?_map, s.withStatus_get]
    cases s.members[i]? <;> rfl
  refine ⟨hwf.capacity_pos, ?_, hwf.size_le, ?_, ?_, hwf.probe_ok⟩
  · rw [SWIM.withStatus, List.length_mapIdx]
    exact hwf.length_eq
  · have hsorted : s.uuids.Pairwise (· < ·) := List.pairwise_map.mpr hwf.sorted
    rw [← huuids] at hsorted
    exact List.pairwise_map.mp hsorted
  · intro n hn hself
    have hmem : s.uuid ∈ s.uuids := by
      rw [← huuids]
      exact hself ▸ List.mem_map_of_mem hn
    obtain ⟨m, hm, hu⟩ := List.mem_map.mp hmem
    exact hwf.self_notMem m hm hu

theorem SWIM.WellFormed.skips_withStatus {status : ℕ → Status} {i : ℕ} (hwf : s.WellFormed)
    (hi : i < s.viewSize) : (s.withStatus status).skips i = decide (status i = .dead) := by
  obtain ⟨n, hn⟩ := hwf.get_of_lt hi
  have hget := s.withStatus_get status i
  rw [hn] at hget
  exact SWIM.skips_of_get hget

/-- The turn that a call takes in a view of `n` members. -/
def Plays (n : ℕ) (c : ProbeCall) (t : Turn ℕ) : Prop :=
  t.fresh.Perm (List.range n) ∧ ∀ i < n, t.skip i = decide (c.status i = .dead)

/-- One call is one turn, whatever the statuses have become. -/
theorem probeStep_turn {c : ProbeCall} (hwf : s.WellFormed) (halloc : c.env.reallocOrder 0 = true) :
    ∃ t, Plays s.viewSize c t ∧ (probeStep s c).1 = .ok (t.next s.round).1 ∧
      (probeStep s c).2.round = (t.next s.round).2 ∧ (probeStep s c).2.WellFormed ∧
      (probeStep s c).2.viewSize = s.viewSize := by
  obtain ⟨r, h', hexec, hp⟩ := wp_total.mp
    (wp_swimProbeNext (h := ⟨s.withStatus c.status, c.env, []⟩) (hwf.withStatus c.status)
      fun _ _ hp => hp)
  obtain ⟨fresh, hfresh, hturn⟩ := hp.turn
  have hstep : probeStep s c = (.ok r, h'.swim) := by rw [probeStep, hexec]
  have hround : (s.withStatus c.status).round = s.round := rfl
  rw [hround] at hturn
  refine ⟨⟨(s.withStatus c.status).skips, fresh⟩,
    ⟨hfresh halloc, fun i hi => hwf.skips_withStatus hi⟩, ?_⟩
  rw [hturn, hstep]
  refine ⟨rfl, rfl, hp.wf, ?_⟩
  rw [hp.scheduled.swim]
  rfl

/-- Consecutive calls are consecutive turns. -/
theorem probeResults_served {cs : List ProbeCall} (hwf : s.WellFormed)
    (halloc : ∀ c ∈ cs, c.env.reallocOrder 0 = true) :
    ∃ ts, ts.length = cs.length ∧ (∀ t ∈ ts, ∃ c ∈ cs, Plays s.viewSize c t) ∧
      probeResults s cs = (served ts s.round).map .ok ∧ (probeState s cs).WellFormed ∧
      (probeState s cs).viewSize = s.viewSize ∧ (OneRound s cs → InRound ts s.round) := by
  induction cs generalizing s with
  | nil => exact ⟨[], rfl, by simp, rfl, hwf, rfl, fun _ => trivial⟩
  | cons c cs ih =>
    obtain ⟨t, hplays, hresult, hround, hwf', hsize⟩ := probeStep_turn hwf (halloc c (by simp))
    obtain ⟨ts, hlen, hall, hresults, hwf'', hsize', hone⟩ := ih hwf' fun d hd => halloc d (by simp [hd])
    rw [hsize] at hall hsize'
    rw [hround] at hresults hone
    refine ⟨t :: ts, by simp [hlen], ?_, ?_, hwf'', hsize', fun h => ⟨?_, hone h.2⟩⟩
    · rintro u (_ | ⟨_, hu⟩)
      · exact ⟨c, by simp, hplays⟩
      · obtain ⟨d, hd, hdu⟩ := hall u hu
        exact ⟨d, by simp [hd], hdu⟩
    · rw [probeResults, hresult, hresults]
      rfl
    · exact (hwf.round_of_not_due h.1).2

/-- Every member that is never dead gets its turn within the rest of this round and the next. -/
theorem mem_probeResults {cs : List ProbeCall} {i : ℕ} (hwf : s.WellFormed)
    (halloc : ∀ c ∈ cs, c.env.reallocOrder 0 = true) (hlen : cs.length = 2 * s.viewSize - 1)
    (hi : i < s.viewSize) (hlive : ∀ c ∈ cs, c.status i ≠ .dead) :
    .ok (some i) ∈ probeResults s cs := by
  obtain ⟨ts, hcount, hall, hresults, -⟩ := probeResults_served hwf halloc
  have hturn : ∀ t ∈ ts, t.fresh.Perm (List.range s.viewSize) ∧ t.skip i = false := by
    intro t ht
    obtain ⟨c, hc, hplays⟩ := hall t ht
    refine ⟨hplays.1, ?_⟩
    rw [hplays.2 i hi]
    simpa using hlive c hc
  rw [hresults]
  apply List.mem_map_of_mem
  rcases hwf.mem_round hi with ⟨hmem, hfull⟩ | hbegun
  · exact mem_served_of_mem hmem (by omega) fun t ht => (hturn t ht).2
  · refine mem_served (n := s.viewSize) (fun t ht => ?_) (by omega) (by omega)
      fun t ht => (hturn t ht).2
    have hperm := (hturn t ht).1
    exact ⟨hperm.mem_iff.mpr (List.mem_range.mpr hi), by simpa using hperm.length_eq⟩

/-- Between two shuffles no member has two turns. -/
theorem probeResults_nodup {c : ProbeCall} {cs : List ProbeCall} (hwf : s.WellFormed)
    (halloc : ∀ d ∈ c :: cs, d.env.reallocOrder 0 = true) (hone : OneRound (probeStep s c).2 cs) :
    ∃ rs : List (Option ℕ), probeResults s (c :: cs) = rs.map .ok ∧ rs.reduceOption.Nodup := by
  obtain ⟨t, hplays, hresult, hround, hwf', -⟩ := probeStep_turn hwf (halloc c (by simp))
  obtain ⟨ts, -, -, hresults, -, -, hin⟩ :=
    probeResults_served hwf' fun d hd => halloc d (List.mem_cons_of_mem c hd)
  rw [hround] at hresults hin
  refine ⟨served (t :: ts) s.round, ?_, ?_⟩
  · rw [probeResults, hresult, hresults]
    rfl
  · exact served_nodup hwf.round_nodup (hplays.1.nodup_iff.mpr List.nodup_range) (hin hone)

/-- From any state of a run, `2 n - 1` consecutive calls on a view of `n` members return every member
that is not dead at any of them, and of the calls from one shuffle to the next no two return the
same member. -/
theorem probe_gap_bound (hrun : Run Performs anyOp (swimStateInit uuid now) s) :
    (∀ cs, (∀ c ∈ cs, c.env.reallocOrder 0 = true) → cs.length = 2 * s.viewSize - 1 →
      ∀ i < s.viewSize, (∀ c ∈ cs, c.status i ≠ .dead) → .ok (some i) ∈ probeResults s cs) ∧
    ∀ before c cs, (∀ d ∈ before ++ c :: cs, d.env.reallocOrder 0 = true) →
      OneRound (probeState s (before ++ [c])) cs →
      ∃ rs : List (Option ℕ), probeResults (probeState s before) (c :: cs) = rs.map .ok ∧
        rs.reduceOption.Nodup := by
  have hwf := wellFormed_of_ops hrun
  constructor
  · intro cs halloc hlen i hi hlive
    exact mem_probeResults hwf halloc hlen hi hlive
  · intro before c cs halloc hone
    obtain ⟨-, -, -, -, hwf', -⟩ :=
      probeResults_served hwf fun d hd => halloc d (List.mem_append_left _ hd)
    rw [probeState, List.foldl_append] at hone
    exact probeResults_nodup hwf' (fun d hd => halloc d (List.mem_append_right _ hd)) hone

/-- Two members, three calls. -/
theorem probe_gap_bound_two :
    let s := play (swimStateInit (.ofByte 1) 1000) probedOne
    let cs := List.replicate 3 ⟨steadyEnv 1030, fun _ => .suspect⟩
    s.viewSize = 2 ∧ .ok (some 0) ∈ probeResults s cs ∧ .ok (some 1) ∈ probeResults s cs := by
  intro s cs
  obtain ⟨hplays, hsize⟩ : plays (swimStateInit (.ofByte 1) 1000) probedOne = true ∧
      s.viewSize = 2 := by decide +kernel
  have hgap := (probe_gap_bound (run_of_plays hplays (.refl _))).1 cs
    (fun c hc => by rw [List.eq_of_mem_replicate hc]; rfl) (by rw [hsize]; rfl)
  have hlive (i : ℕ) : ∀ c ∈ cs, c.status i ≠ .dead := by
    intro c hc
    rw [List.eq_of_mem_replicate hc]
    simp
  exact ⟨hsize, hgap 0 (by rw [hsize]; decide) (hlive 0),
    hgap 1 (by rw [hsize]; decide) (hlive 1)⟩

end LibSwim
