import LibSwim.Foundations.RoundRobin
import LibSwim.Foundations.Shuffle
import LibSwim.Step.Calls
import Mathlib.Data.List.Perm.Basic

/-! # The probe schedule

The functions of `swim/state.c` that schedule probes, run symbolically. The schedule is a round
over the indices of the view: `swim_probe_next` takes one turn of it, in which the dead members
are skipped, and a turn that is due for a new round begins one in the order of the shuffle.
-/

namespace LibSwim

open Foundations Program

/-- The condition under which `swim_probe_next` shuffles. -/
def SWIM.Due (s : SWIM) : Prop := s.probe.size ≤ s.probe.pos ∨ s.probe.size ≠ s.viewSize

instance (s : SWIM) : Decidable s.Due := inferInstanceAs (Decidable (_ ∨ _))

/-- The positions of the round that are still to come. -/
def SWIM.round (s : SWIM) : List ℕ := if s.Due then [] else s.probe.order.drop s.probe.pos

/-- The index designates no member that can be probed. -/
def SWIM.skips (s : SWIM) (i : ℕ) : Bool := !s.members[i]?.any fun n => n.info.status ≠ .dead

theorem SWIM.skips_eq_false {s : SWIM} {i : ℕ} :
    s.skips i = false ↔ ∃ n, s.members[i]? = some n ∧ n.info.status ≠ .dead := by
  simp [skips, Option.any_eq_true]

theorem SWIM.skips_of_get {s : SWIM} {i : ℕ} {n : NodeState} (h : s.members[i]? = some n) :
    s.skips i = decide (n.info.status = .dead) := by
  simp [skips, h]

theorem SWIM.skips_of_le {s : SWIM} {i : ℕ} (hwf : s.WellFormed) (h : s.viewSize ≤ i) :
    s.skips i = true := by
  rw [skips, List.getElem?_eq_none (by rwa [hwf.members_length])]
  rfl

/-- A schedule in use covers the view, so what is left of its order is left of the round. -/
theorem SWIM.round_eq {s : SWIM} (hsize : s.probe.size = s.viewSize)
    (hlen : s.probe.order.length = s.viewSize) : s.round = s.probe.order.drop s.probe.pos := by
  by_cases h : s.Due
  · rw [round, if_pos h, List.drop_of_length_le]
    unfold Due at h
    omega
  · rw [round, if_neg h]

theorem SWIM.round_of_due {s : SWIM} (h : s.Due) : s.round = [] := if_pos h

theorem SWIM.WellFormed.order {s : SWIM} (hwf : s.WellFormed) (h : ¬ s.Due) :
    s.probe.size = s.viewSize ∧ s.probe.order.Perm (List.range s.viewSize) := by
  unfold Due at h
  rcases hwf.probe_ok with hzero | hok
  · omega
  · exact hok

theorem SWIM.WellFormed.round_of_not_due {s : SWIM} (hwf : s.WellFormed) (h : ¬ s.Due) :
    s.round = s.probe.order.drop s.probe.pos ∧ s.round ≠ [] := by
  obtain ⟨hsize, hperm⟩ := hwf.order h
  have hlen := hperm.length_eq
  rw [List.length_range] at hlen
  rw [SWIM.round_eq hsize hlen]
  refine ⟨rfl, ?_⟩
  rw [ne_eq, List.drop_eq_nil_iff, hlen, ← hsize]
  exact fun hle => h (.inl hle)

/-- What is left of a round are indices of members, each of them once. -/
theorem SWIM.WellFormed.round_nodup {s : SWIM} (hwf : s.WellFormed) : s.round.Nodup := by
  by_cases h : s.Due
  · rw [SWIM.round_of_due h]
    exact List.nodup_nil
  · rw [(hwf.round_of_not_due h).1]
    exact ((hwf.order h).2.nodup_iff.mpr List.nodup_range).sublist (List.drop_sublist _ _)

/-- A round that has not begun has all indices, one that has begun not all of them. -/
theorem SWIM.WellFormed.mem_round {s : SWIM} {i : ℕ} (hwf : s.WellFormed) (hi : i < s.viewSize) :
    i ∈ s.round ∧ s.round.length = s.viewSize ∨ s.round.length < s.viewSize := by
  by_cases h : s.Due
  · rw [SWIM.round_of_due h]
    exact .inr (by simp; omega)
  · obtain ⟨-, hperm⟩ := hwf.order h
    have hlen := hperm.length_eq
    rw [List.length_range] at hlen
    rw [(hwf.round_of_not_due h).1, List.length_drop, hlen]
    by_cases hpos : s.probe.pos = 0
    · rw [hpos, List.drop_zero, hperm.mem_iff, List.mem_range]
      exact .inl ⟨hi, rfl⟩
    · exact .inr (by omega)

variable {fault : Fault → Host → Prop} {h h' : Host}

/-! ## Shuffling -/

theorem swapAt_perm {order : List ℕ} {i j : ℕ} (hi : i < order.length) (hj : j < order.length) :
    (swapAt order i j).Perm order := exchange_perm hi hj

/-- Each exchange of the shuffle is within the part of the array still to be shuffled. -/
theorem wp_shuffleLoop {post : List ℕ → Host → Prop} {i : ℕ} {order : List ℕ}
    (hi : i < order.length) (hp : ∀ order' h', Quiet h h' → order'.Perm order → post order' h') :
    wp (shuffleLoop i order) post fault h := by
  induction i generalizing order h with
  | zero => exact hp order h (.refl h) (.refl order)
  | succ i ih =>
    rw [shuffleLoop, wp_bind]
    apply wp_rand
    intro r h₁ hq
    have hj : r % (i + 2) < order.length := lt_of_lt_of_le (Nat.mod_lt _ (by omega)) hi
    have hperm := swapAt_perm hi hj
    apply ih (by rw [hperm.length_eq]; omega)
    intro order' h₂ hq' hperm'
    exact hp order' h₂ (hq.trans hq') (hperm'.trans hperm)

/-- Nothing but the schedule of the node has changed. -/
structure Scheduled (probe : ProbeSchedule) (h h' : Host) : Prop where
  swim : h'.swim = { h.swim with probe := probe }
  sent : h'.sent = h.sent
  later : h.env.Later h'.env

theorem Quiet.scheduled (hq : Quiet h h') : Scheduled h.swim.probe h h' := ⟨hq.1, hq.2.1, hq.2.2⟩

theorem Scheduled.members {probe : ProbeSchedule} (hs : Scheduled probe h h') :
    h'.swim.members = h.swim.members := by
  rw [hs.swim]
  rfl

theorem SWIM.WellFormed.schedule {s : SWIM} {probe : ProbeSchedule} (hwf : s.WellFormed)
    (hp : { s with probe := probe }.ProbeOk) : { s with probe := probe }.WellFormed :=
  ⟨hwf.capacity_pos, hwf.length_eq, hwf.size_le, hwf.sorted, hwf.self_notMem, hp⟩

/-- The schedule is left as it is when the array cannot be had, and made anew otherwise. -/
theorem wp_swimProbeShuffle {post : Unit → Host → Prop}
    (hempty : ∀ h', h.swim.viewSize = 0 → Scheduled ⟨h.swim.probe.order, 0, 0⟩ h h' → post () h')
    (hnull : ∀ h', h.swim.viewSize ≠ 0 → h.env.reallocOrder 0 = false → Quiet h h' → post () h')
    (hmade : ∀ order h', h.swim.viewSize ≠ 0 → h.env.reallocOrder 0 = true →
      order.Perm (List.range h.swim.viewSize) → Scheduled ⟨order, 0, h.swim.viewSize⟩ h h' →
      post () h') :
    wp swimProbeShuffle post fault h := by
  simp only [swimProbeShuffle, wp_bind, wp_getSwim]
  refine wp_ite (fun hzero => ?_) fun hpos => ?_
  · exact hempty _ hzero ⟨rfl, rfl, .refl _⟩
  · rw [wp_bind]
    apply wp_reallocOrder
    intro h₁ hq₁
    refine wp_ite (fun halloc => ?_) fun hfail => ?_
    · rw [wp_bind]
      apply wp_shuffleLoop (by rw [List.length_range]; omega)
      intro order h₂ hq₂ hperm
      have hq := hq₁.trans hq₂
      rw [wp_modifySwim]
      refine hmade order _ hpos halloc hperm ⟨?_, hq.2.1, hq.2.2⟩
      rw [hq.1]
    · exact hnull h₁ hpos (by simpa using hfail) hq₁

/-! ## The next target -/

/-- The position is moved on before the member at it is looked at. -/
def Host.advance (h : Host) : Host :=
  { h with swim := { h.swim with probe := { h.swim.probe with pos := h.swim.probe.pos + 1 } } }

/-- The loop takes from the order what a turn takes from the round. -/
theorem wp_probeLoop {post : Option ℕ → Host → Prop} {fuel : ℕ} (hwf : h.swim.WellFormed)
    (hfuel : h.swim.probe.pos + fuel = h.swim.probe.order.length)
    (hp : ∀ r pos h', scan h.swim.skips (h.swim.probe.order.drop h.swim.probe.pos) =
        (r, h.swim.probe.order.drop pos) →
      Scheduled { h.swim.probe with pos := pos } h h' → post r h') :
    wp (probeLoop fuel) post fault h := by
  induction fuel generalizing h with
  | zero =>
    refine hp none h.swim.probe.pos h ?_ ⟨rfl, rfl, .refl _⟩
    rw [List.drop_of_length_le (by omega)]
    rfl
  | succ fuel ih =>
    have hlt : h.swim.probe.pos < h.swim.probe.order.length := by omega
    have hwf' : h.advance.swim.WellFormed := hwf.schedule hwf.probe_ok
    rw [List.drop_eq_getElem_cons hlt, scan] at hp
    -- the member at this position is passed over
    have hnext (hskip : h.swim.skips h.swim.probe.order[h.swim.probe.pos] = true) :
        wp (probeLoop fuel) post fault h.advance := by
      rw [if_pos hskip] at hp
      refine ih hwf' (by simp only [Host.advance]; omega) fun r pos h' hscan hs => ?_
      exact hp r pos h' hscan ⟨hs.swim, hs.sent, hs.later⟩
    simp only [probeLoop, wp_bind, wp_getSwim, List.getElem?_eq_getElem hlt, wp_modifySwim]
    change wp _ post fault h.advance
    refine wp_ite (fun hidx => ?_) fun hidx => hnext (SWIM.skips_of_le hwf (by omega))
    obtain ⟨node, hn⟩ := hwf.get_of_lt hidx
    have hskip := SWIM.skips_of_get hn
    rw [wp_bind, wp_nodeAt (h := h.advance) hn]
    refine wp_ite (fun hlive => ?_) fun hdead => hnext (by simpa [hskip] using hdead)
    rw [if_neg (by simpa [hskip] using hlive)] at hp
    exact hp _ (h.swim.probe.pos + 1) _ rfl ⟨rfl, rfl, .refl _⟩

/-- The next call of `swim_probe_next` makes a new schedule. -/
def Host.Shuffles (h : Host) : Prop :=
  h.swim.viewSize ≠ 0 ∧ h.swim.Due ∧ h.env.reallocOrder 0 = true

/-- The outcome of `swim_probe_next`: one turn of the round, with a new one in the order of the
shuffle when it is due. -/
structure Probed (h : Host) (r : Option ℕ) (h' : Host) : Prop where
  scheduled : Scheduled h'.swim.probe h h'
  wf : h'.swim.WellFormed
  turn : ∃ fresh, (h.env.reallocOrder 0 = true → fresh.Perm (List.range h.swim.viewSize)) ∧
    Turn.next ⟨h.swim.skips, fresh⟩ h.swim.round = (r, h'.swim.round)
  kept : ¬ h.Shuffles → h'.swim.probe.order = h.swim.probe.order ∧
    h'.swim.probe.size = h.swim.probe.size

/-- The index that is returned designates a member that is not dead. -/
theorem Probed.target {i : ℕ} (hp : Probed h (some i) h') :
    ∃ n, h.swim.members[i]? = some n ∧ n.info.status ≠ .dead := by
  obtain ⟨fresh, -, hturn⟩ := hp.turn
  exact SWIM.skips_eq_false.mp (scan_eq_some hturn).1

/-- No schedule could be made: the round stays exhausted. -/
theorem Probed.idle (hwf : h.swim.WellFormed) (hdue : h.swim.Due) (hq : Quiet h h')
    (hno : h.swim.viewSize = 0 ∨ h.env.reallocOrder 0 = false) : Probed h none h' where
  scheduled := hq.1 ▸ hq.scheduled
  wf := hq.1 ▸ hwf
  turn := by
    refine ⟨[], fun halloc => ?_, ?_⟩
    · rcases hno with hzero | hfail
      · rw [hzero]
        rfl
      · simp [hfail] at halloc
    · rw [hq.1, SWIM.round_of_due hdue]
      rfl
  kept _ := by simp [hq.1]

/-- A turn in the state `t`, which has the schedule of `h` or, where that was due, a new one. -/
theorem Probed.of_scan {t : Host} {r : Option ℕ} {pos : ℕ} (hs : Scheduled t.swim.probe h t)
    (hs' : Scheduled { t.swim.probe with pos := pos } t h') (hwf : t.swim.WellFormed)
    (hsize : t.swim.probe.size = t.swim.viewSize)
    (hperm : t.swim.probe.order.Perm (List.range t.swim.viewSize))
    (hscan : scan t.swim.skips (t.swim.probe.order.drop t.swim.probe.pos) =
      (r, t.swim.probe.order.drop pos))
    (hfrom : t = h ∧ ¬ h.swim.Due ∨ h.Shuffles ∧ t.swim.probe.pos = 0) : Probed h r h' := by
  have hlen : t.swim.probe.order.length = t.swim.viewSize := by simpa using hperm.length_eq
  have hskips : t.swim.skips = h.swim.skips := by
    funext i
    rw [SWIM.skips, hs.members, SWIM.skips]
  have hround : h'.swim.round = t.swim.probe.order.drop pos := by
    rw [SWIM.round_eq] <;> rw [hs'.swim]
    · exact hsize
    · exact hlen
  have hitems : Turn.next ⟨h.swim.skips, t.swim.probe.order⟩ h.swim.round =
      scan t.swim.skips (t.swim.probe.order.drop t.swim.probe.pos) := by
    rw [hskips]
    rcases hfrom with ⟨rfl, hdue⟩ | ⟨⟨-, hdue, -⟩, hzero⟩
    · obtain ⟨hround, hne⟩ := hwf.round_of_not_due hdue
      rw [Turn.next_of_ne_nil _ hne, hround]
    · rw [SWIM.round_of_due hdue, Turn.next_nil, hzero, List.drop_zero]
  refine ⟨⟨?_, hs'.sent.trans hs.sent, hs.later.trans hs'.later⟩, ?_, ⟨t.swim.probe.order, ?_, ?_⟩, ?_⟩
  · rw [hs'.swim, hs.swim]
  · rw [hs'.swim]
    exact hwf.schedule hwf.probe_ok
  · intro _
    have hview : t.swim.viewSize = h.swim.viewSize := by rw [hs.swim]
    rwa [← hview]
  · rw [hitems, hscan, hround]
  · intro hno
    rcases hfrom with ⟨rfl, -⟩ | ⟨hyes, -⟩
    · rw [hs'.swim]
      exact ⟨rfl, rfl⟩
    · exact absurd hyes hno

/-- One call is one turn. -/
theorem wp_swimProbeNext {post : Option ℕ → Host → Prop} (hwf : h.swim.WellFormed)
    (hp : ∀ r h', Probed h r h' → post r h') : wp swimProbeNext post fault h := by
  simp only [swimProbeNext, wp_bind, wp_getSwim]
  refine wp_ite (fun hzero => ?_) fun hpos => wp_ite (fun hdue => ?_) fun hdue => ?_
  · have hdue : h.swim.Due := by
      unfold SWIM.Due
      rcases hwf.probe_ok with hsize | ⟨hsize, -⟩ <;> omega
    exact hp none h (.idle hwf hdue (.refl h) (.inl hzero))
  · rw [wp_bind]
    refine wp_swimProbeShuffle (fun _ hzero => absurd hzero hpos) (fun t _ hfail hq => ?_)
      fun order t _ halloc hperm hs => ?_
    · -- the schedule that was due is empty, so the loop ends at once
      have hdone : t.swim.probe.size - t.swim.probe.pos = 0 := by
        rw [hq.1]
        rcases hwf.probe_ok with hsize | ⟨hsize, -⟩ <;> omega
      rw [wp_bind, wp_getSwim, hdone]
      exact hp none t (.idle hwf hdue hq (.inr hfail))
    · have hwf' : t.swim.WellFormed := by
        rw [hs.swim]
        exact hwf.schedule (.inr ⟨rfl, hperm⟩)
      have hlen : order.length = h.swim.viewSize := by simpa using hperm.length_eq
      rw [wp_bind, wp_getSwim]
      refine wp_probeLoop hwf' ?_ fun r pos h' hscan hs' => hp r h' ?_
      · rw [hs.swim]
        simp [hlen]
      · have hs₀ : Scheduled t.swim.probe h t := ⟨by rw [hs.swim], hs.sent, hs.later⟩
        refine .of_scan hs₀ hs' hwf' ?_ ?_ hscan (.inr ⟨⟨hpos, hdue, halloc⟩, ?_⟩)
        all_goals rw [hs.swim]
        exact hperm
  · obtain ⟨hsize, hperm⟩ := hwf.order hdue
    have hlen : h.swim.probe.order.length = h.swim.viewSize := by simpa using hperm.length_eq
    rw [wp_bind, wp_getSwim]
    refine wp_probeLoop hwf ?_ fun r pos h' hscan hs' => hp r h' ?_
    · omega
    · exact .of_scan ⟨rfl, rfl, .refl _⟩ hs' hwf hsize hperm hscan (.inl ⟨rfl, hdue⟩)

end LibSwim
