import LibSwim.Foundations.MaxTable
import LibSwim.Run.Steps
import Mathlib.Order.Bounds.Basic

/-! # Gossip converges

What `swim_state_merge` keeps of a record is its rank: the incarnation, then the status, then,
for a node that is not DEAD, the time it was last seen. A merge takes the greater of two ranks,
so the view after any list of gossip is the table of the greatest ranks heard.
-/

namespace LibSwim

open Foundations Program

/-- Incarnation first, then ALIVE < SUSPECT < DEAD. -/
def NodeInfo.standing (info : NodeInfo) : ℕ ×ₗ ℕ := toLex (info.incarnation, info.status.code)

/-- The time counts among records of equal standing, except for DEAD nodes. -/
def NodeInfo.rank (info : NodeInfo) : (ℕ ×ₗ ℕ) ×ₗ ℤ :=
  toLex (info.standing, if info.status = .dead then 0 else info.lastSeen)

section

variable {a b info : NodeInfo} {node : NodeState}

theorem NodeInfo.rank_lt (h : a.standing < b.standing) : a.rank < b.rank :=
  Prod.Lex.toLex_lt_toLex.mpr (.inl h)

theorem NodeInfo.standing_le (h : a.rank ≤ b.rank) : a.standing ≤ b.standing := by
  rcases Prod.Lex.toLex_le_toLex.mp h with h | h
  · exact h.le
  · exact h.1.le

theorem NodeInfo.lastSeen_le (h : a.rank ≤ b.rank) (hs : a.standing = b.standing)
    (hb : b.status ≠ .dead) : a.lastSeen ≤ b.lastSeen := by
  have hstatus : a.status = b.status := Status.code_injective (congrArg (fun p => (ofLex p).2) hs)
  rcases Prod.Lex.toLex_le_toLex.mp h with h | h
  · exact absurd hs h.ne
  · simpa [hstatus, hb] using h.2

/-- Records of one incarnation are ranked by their status. -/
theorem NodeInfo.rank_lt_of_code (hi : a.incarnation = b.incarnation)
    (hc : a.status.code < b.status.code) : a.rank < b.rank :=
  rank_lt (Prod.Lex.toLex_lt_toLex.mpr (.inr ⟨hi, hc⟩))

theorem NodeInfo.rank_lt_of_incarnation (hi : a.incarnation < b.incarnation) : a.rank < b.rank :=
  rank_lt (Prod.Lex.toLex_lt_toLex.mpr (.inl hi))

theorem Status.Known.code_le {s : Status} (h : s.Known) : s.code ≤ Status.dead.code := by
  rcases h with rfl | rfl | rfl <;> decide

/-- A merge within one incarnation. -/
theorem NodeState.merge_rank_same (h : info.incarnation = node.info.incarnation)
    (hn : node.info.status.Known) (hi : info.status.Known) :
    (node.merge info).info.rank = max node.info.rank info.rank := by
  by_cases hdead : node.info.status = .dead
  · rw [merge_dead h hdead]
    change node.info.rank = _
    have hle := hi.code_le
    rw [← hdead] at hle
    rcases hle.lt_or_eq with hlt | heq
    · exact (max_eq_left (NodeInfo.rank_lt_of_code h hlt).le).symm
    · have hstatus := Status.code_injective heq
      have hrank : info.rank = node.info.rank := by
        simp [NodeInfo.rank, NodeInfo.standing, h, hstatus, hdead]
      rw [hrank, max_self]
  · have hs := hn.alive_or_suspect hdead
    rcases lt_trichotomy node.info.status.code info.status.code with hlt | heq | hlt
    · rw [merge_higher h hs hlt, max_eq_right (NodeInfo.rank_lt_of_code h.symm hlt).le]
      simp only [NodeInfo.rank, NodeInfo.standing, h]
      rfl
    · have hstatus := Status.code_injective heq
      rw [merge_refresh h hs hstatus.symm]
      rcases le_total node.info.lastSeen info.lastSeen with hl | hl
      · rw [max_eq_right hl, max_eq_right]
        · simp [NodeInfo.rank, NodeInfo.standing, h, hstatus]
        · refine Prod.Lex.toLex_le_toLex.mpr (.inr ⟨?_, ?_⟩)
          · simp [NodeInfo.standing, h, hstatus]
          · simpa [← hstatus, hdead] using hl
      · rw [max_eq_left hl, max_eq_left]
        refine Prod.Lex.toLex_le_toLex.mpr (.inr ⟨?_, ?_⟩)
        · simp [NodeInfo.standing, h, hstatus]
        · simpa [← hstatus, hdead] using hl
    · rw [merge_lower h hs hlt, max_eq_left (NodeInfo.rank_lt_of_code h hlt).le]

/-- A merge is the maximum of the ranks. -/
theorem NodeState.merge_rank (hn : node.info.status.Known) (hi : info.status.Known) :
    (node.merge info).info.rank = max node.info.rank info.rank := by
  rcases lt_trichotomy info.incarnation node.info.incarnation with h | h | h
  · rw [merge_stale h, max_eq_left (NodeInfo.rank_lt_of_incarnation h).le]
  · exact merge_rank_same h hn hi
  · rw [merge_newer h, max_eq_right (NodeInfo.rank_lt_of_incarnation h).le]
    rfl

theorem NodeState.merge_known (hn : node.info.status.Known) (hi : info.status.Known) :
    (node.merge info).info.status.Known := by
  unfold merge
  repeat' split
  all_goals first | exact hn | exact hi

end
/-! ## The view as a table of ranks -/

def SWIM.ranks (s : SWIM) (u : Uuid) : WithBot ((ℕ ×ₗ ℕ) ×ₗ ℤ) :=
  (s.find u).elim ⊥ fun n => n.info.rank

/-- The gossip that a node merges is that about other nodes. -/
def others (self : Uuid) (gs : List NodeInfo) : List NodeInfo := gs.filter fun g => g.uuid ≠ self

section

variable {s t u : SWIM} {info : NodeInfo} {gs gs' : List NodeInfo} {n : NodeState} {v : Uuid}
  {env env' : Env}

theorem SWIM.ranks_of_find (h : s.find v = some n) : s.ranks v = n.info.rank := by
  rw [SWIM.ranks, h]
  rfl

theorem SWIM.ranks_eq_bot : s.ranks v = ⊥ ↔ s.find v = none := by
  rw [SWIM.ranks]
  cases s.find v with
  | none => simp
  | some n => simp [WithBot.coe_ne_bot]

theorem Merged.statusKnown (h : Merged env info t u) (ht : t.Holds fun n => n.info.status.Known)
    (hi : info.status.Known) : u.Holds fun n => n.info.status.Known := by
  intro v m hm
  cases h with
  | self _ hu => exact ht v m (hu ▸ hm)
  | known hn hu =>
    rw [hu, Function.update_apply] at hm
    split_ifs at hm
    · exact Option.some.inj hm ▸ NodeState.merge_known (ht _ _ hn) hi
    · exact ht v m hm
  | new _ _ hinfo _ hu =>
    rw [hu, Function.update_apply] at hm
    split_ifs at hm
    · obtain rfl := Option.some.inj hm
      rwa [hinfo]
    · exact ht v m hm

/-- A merge raises the rank of the node it is about. -/
theorem Merged.ranks (h : Merged env info t u) (hself : info.uuid ≠ t.uuid)
    (ht : t.Holds fun n => n.info.status.Known) (hi : info.status.Known) :
    u.ranks = raise NodeInfo.uuid NodeInfo.rank t.ranks info := by
  funext v
  rw [raise, Function.update_apply]
  cases h with
  | self heq _ => exact absurd heq hself
  | @known node hn hu =>
    split_ifs with hv
    · subst hv
      rw [SWIM.ranks_of_find hn, SWIM.ranks_of_find (by rw [hu, Function.update_self]),
        NodeState.merge_rank (ht _ _ hn) hi]
      rfl
    · rw [SWIM.ranks, hu, Function.update_of_ne hv, SWIM.ranks]
  | @new node _ hn hinfo _ hu =>
    split_ifs with hv
    · subst hv
      rw [SWIM.ranks_eq_bot.mpr hn, SWIM.ranks_of_find (by rw [hu, Function.update_self]), hinfo]
      exact (max_eq_right bot_le).symm
    · rw [SWIM.ranks, hu, Function.update_of_ne hv, SWIM.ranks]

/-- While the list is merged: hearing the rest leads to the table that hearing all leads to. -/
structure Hearing (s : SWIM) (gs rest : List NodeInfo) (t : Host) : Prop where
  wf : t.swim.WellFormed
  uuid : t.swim.uuid = s.uuid
  alloc : t.env.Allocates
  known : t.swim.Holds fun n => n.info.status.Known
  ranks : raiseAll NodeInfo.uuid NodeInfo.rank t.swim.ranks (others s.uuid rest) =
    raiseAll NodeInfo.uuid NodeInfo.rank s.ranks (others s.uuid gs)

theorem Hearing.merge {rest : List NodeInfo} {t : Host} (h : Hearing s gs (info :: rest) t)
    (hi : info.status.Known) :
    wp (swimStateMerge info) (fun _ t' => Hearing s gs rest t') (fun _ _ => False) t := by
  refine wp_swimStateMerge h.wf (fun t' hwf hsame _ hlater _ hmerged => ?_)
    (fun t' _ ha _ _ => absurd h.alloc ha)
  refine ⟨hwf, hsame.1.trans h.uuid, hlater.allocates h.alloc, hmerged.statusKnown h.known hi, ?_⟩
  rw [← h.ranks]
  by_cases hself : info.uuid = s.uuid
  · have hranks : t'.swim.ranks = t.swim.ranks := by
      cases hmerged with
      | self _ hu => funext v; rw [SWIM.ranks, hu, SWIM.ranks]
      | known hn _ =>
        rw [hself, ← h.uuid, h.wf.find_self] at hn
        cases hn
      | new hne _ _ _ _ => exact absurd (hself.trans h.uuid.symm) hne
    simp [others, hself, hranks]
  · rw [hmerged.ranks (h.uuid ▸ hself) h.known hi]
    simp [others, hself, raiseAll]

/-- Merging a list from `s` leaves the table of the greatest ranks. -/
theorem exec_mergeAll (hwf : s.WellFormed) (hs : s.Holds fun n => n.info.status.Known)
    (hgs : ∀ g ∈ gs, g.status.Known) (ha : env.Allocates) :
    ∃ h, exec (forM gs swimStateMerge) ⟨s, env, []⟩ = (.ok (), h) ∧ h.swim.WellFormed ∧
      h.swim.uuid = s.uuid ∧
      h.swim.ranks = raiseAll NodeInfo.uuid NodeInfo.rank s.ranks (others s.uuid gs) := by
  have hstart : Hearing s gs gs ⟨s, env, []⟩ := ⟨hwf, rfl, ha, hs, rfl⟩
  obtain ⟨_, h, hexec, hend⟩ := wp_total.mp (wp_forM (fun rest t => Hearing s gs rest t)
    (fun g rest t hg ht => ht.merge (hgs g hg)) hstart)
  exact ⟨h, hexec, hend.wf, hend.uuid, hend.ranks⟩

/-- The records of `v` that a view and a list of gossip offer. -/
def Candidates (s : SWIM) (gs : List NodeInfo) (v : Uuid) : Set NodeInfo :=
  {g | (∃ n, s.find v = some n ∧ n.info = g) ∨ g ∈ gs ∧ g.uuid = v}

theorem mem_others {self : Uuid} : info ∈ others self gs ↔ info ∈ gs ∧ info.uuid ≠ self := by
  simp [others]

theorem isGreatest_rank
    (ht : t.ranks = raiseAll NodeInfo.uuid NodeInfo.rank s.ranks (others s.uuid gs))
    (hv : v ≠ s.uuid) (hn : t.find v = some n) :
    IsGreatest (NodeInfo.rank '' Candidates s gs v) n.info.rank := by
  have hrank : raiseAll NodeInfo.uuid NodeInfo.rank s.ranks (others s.uuid gs) v = n.info.rank := by
    rw [← ht, SWIM.ranks_of_find hn]
  constructor
  · rcases raiseAll_mem s.ranks (others s.uuid gs) v with h | ⟨g, hg, hgv, h⟩
    · rw [hrank] at h
      obtain ⟨m, hm⟩ := Option.ne_none_iff_exists'.mp
        (mt SWIM.ranks_eq_bot.mpr (h ▸ WithBot.coe_ne_bot))
      rw [SWIM.ranks_of_find hm] at h
      exact ⟨m.info, .inl ⟨m, hm, rfl⟩, (WithBot.coe_injective h).symm⟩
    · rw [hrank] at h
      exact ⟨g, .inr ⟨(mem_others.mp hg).1, hgv⟩, (WithBot.coe_injective h).symm⟩
  · obtain ⟨hstart, hlist⟩ := raiseAll_le_iff.mp hrank.le
    rintro _ ⟨g, ⟨m, hm, rfl⟩ | ⟨hg, hgv⟩, rfl⟩
    · rw [SWIM.ranks_of_find hm] at hstart
      exact WithBot.coe_le_coe.mp hstart
    · exact WithBot.coe_le_coe.mp (hlist g (mem_others.mpr ⟨hg, hgv ▸ hv⟩) hgv)

/-- A node is a member afterwards when it was one or some gossip is about it. -/
theorem member_iff_candidate
    (ht : t.ranks = raiseAll NodeInfo.uuid NodeInfo.rank s.ranks (others s.uuid gs))
    (hv : v ≠ s.uuid) : (∃ n, t.find v = some n) ↔ (Candidates s gs v).Nonempty := by
  constructor
  · rintro ⟨n, hn⟩
    obtain ⟨g, hg, -⟩ := (isGreatest_rank ht hv hn).1
    exact ⟨g, hg⟩
  · intro hc
    rw [← Option.ne_none_iff_exists', ne_eq, ← SWIM.ranks_eq_bot, ht, ← le_bot_iff,
      raiseAll_le_iff]
    rintro ⟨hstart, hlist⟩
    rcases hc with ⟨g, ⟨n, hn, -⟩ | ⟨hg, hgv⟩⟩
    · rw [SWIM.ranks_of_find hn] at hstart
      exact WithBot.not_coe_le_bot _ hstart
    · exact WithBot.not_coe_le_bot _ (hlist g (mem_others.mpr ⟨hg, hgv ▸ hv⟩) hgv)

theorem isGreatest_standing (h : IsGreatest (NodeInfo.rank '' Candidates s gs v) info.rank) :
    IsGreatest (NodeInfo.standing '' Candidates s gs v) info.standing := by
  obtain ⟨⟨g, hg, hrank⟩, hmax⟩ := h
  refine ⟨⟨g, hg, congrArg (fun p => (ofLex p).1) hrank⟩, ?_⟩
  rintro _ ⟨g', hg', rfl⟩
  exact NodeInfo.standing_le (hmax ⟨g', hg', rfl⟩)

theorem isGreatest_lastSeen (h : IsGreatest (NodeInfo.rank '' Candidates s gs v) info.rank)
    (hdead : info.status ≠ .dead) :
    IsGreatest (NodeInfo.lastSeen '' {g ∈ Candidates s gs v | g.standing = info.standing})
      info.lastSeen := by
  obtain ⟨⟨g, hg, hrank⟩, hmax⟩ := h
  have hstanding : g.standing = info.standing := congrArg (fun p => (ofLex p).1) hrank
  have hgdead : g.status ≠ .dead := by
    rwa [Status.code_injective (congrArg (fun p => (ofLex p).2) hstanding)]
  constructor
  · exact ⟨g, ⟨hg, hstanding⟩, le_antisymm (NodeInfo.lastSeen_le hrank.le hstanding hdead)
      (NodeInfo.lastSeen_le hrank.ge hstanding.symm hgdead)⟩
  · rintro _ ⟨g', ⟨hg', hs⟩, rfl⟩
    exact NodeInfo.lastSeen_le (hmax ⟨g', hg', rfl⟩) hs hdead

end

/-- Two lists with the same entries leave views that agree on who is a member and on the standing
of every member, which is the greatest one heard; for members that are not DEAD also on the time
last seen, the greatest one heard with that standing. -/
theorem merge_converges {s : SWIM} {gs gs' : List NodeInfo} {env env' : Env}
    (hwf : s.WellFormed) (hs : ∀ n ∈ s.members, n.info.status.Known)
    (hgs : ∀ g ∈ gs, g.status.Known) (hset : ∀ g, g ∈ gs ↔ g ∈ gs') (ha : env.Allocates)
    (ha' : env'.Allocates) :
    ∃ h h', exec (forM gs swimStateMerge) ⟨s, env, []⟩ = (.ok (), h) ∧
      exec (forM gs' swimStateMerge) ⟨s, env', []⟩ = (.ok (), h') ∧
      (∀ v, (∃ n ∈ h.swim.members, n.uuid = v) ↔ ∃ n ∈ h'.swim.members, n.uuid = v) ∧
      ∀ v, v ≠ s.uuid →
        ((∃ n ∈ h.swim.members, n.uuid = v) ↔ (Candidates s gs v).Nonempty) ∧
        ∀ n ∈ h.swim.members, n.uuid = v → ∀ n' ∈ h'.swim.members, n'.uuid = v →
          n.info.incarnation = n'.info.incarnation ∧ n.info.status = n'.info.status ∧
          IsGreatest (NodeInfo.standing '' Candidates s gs v) n.info.standing ∧
          (n.info.status ≠ .dead → n.info.lastSeen = n'.info.lastSeen ∧
            IsGreatest (NodeInfo.lastSeen '' {g ∈ Candidates s gs v | g.standing = n.info.standing})
              n.info.lastSeen) := by
  have hk : s.Holds fun n => n.info.status.Known :=
    fun v n hn => hs n (hwf.find_eq_some.mp hn).1
  obtain ⟨h, hexec, hw, hu, hr⟩ := exec_mergeAll hwf hk hgs ha
  obtain ⟨h', hexec', hw', hu', hr'⟩ :=
    exec_mergeAll hwf hk (fun g hg => hgs g ((hset g).mpr hg)) ha'
  have hranks : h.swim.ranks = h'.swim.ranks := by
    rw [hr, hr']
    exact raiseAll_congr fun g => by simp [mem_others, hset]
  have hmem : ∀ {t : SWIM}, t.WellFormed → ∀ v, (∃ n ∈ t.members, n.uuid = v) ↔
      ∃ n, t.find v = some n := fun ht v => exists_congr fun n => ht.find_eq_some.symm
  refine ⟨h, h', hexec, hexec', fun v => ?_, fun v hv => ⟨?_, fun n hn hnv n' hn' hnv' => ?_⟩⟩
  · rw [hmem hw, hmem hw', ← Option.ne_none_iff_exists', ← Option.ne_none_iff_exists', ne_eq,
      ne_eq, ← SWIM.ranks_eq_bot, ← SWIM.ranks_eq_bot, hranks]
  · rw [hmem hw, member_iff_candidate hr hv]
  · have hfind := hw.find_eq_some.mpr ⟨hn, hnv⟩
    have hfind' := hw'.find_eq_some.mpr ⟨hn', hnv'⟩
    have hrank : n.info.rank = n'.info.rank := by
      apply WithBot.coe_injective
      rw [← SWIM.ranks_of_find hfind, hranks, SWIM.ranks_of_find hfind']
    have hstanding : n.info.standing = n'.info.standing := congrArg (fun p => (ofLex p).1) hrank
    have hgreatest := isGreatest_rank hr hv hfind
    have hstatus : n.info.status = n'.info.status :=
      Status.code_injective (congrArg (fun p => (ofLex p).2) hstanding)
    refine ⟨congrArg (fun p => (ofLex p).1) hstanding, hstatus, isGreatest_standing hgreatest,
      fun hdead => ⟨?_, isGreatest_lastSeen hgreatest hdead⟩⟩
    exact le_antisymm (NodeInfo.lastSeen_le hrank.le hstanding (hstatus ▸ hdead))
      (NodeInfo.lastSeen_le hrank.ge hstanding.symm hdead)

theorem merge_converges_reordered :
    let alive : NodeInfo := ⟨.ofByte 2, 10, 0, .alive, .none⟩
    let dead : NodeInfo := ⟨.ofByte 2, 5, 0, .dead, .none⟩
    ∃ h h', exec (forM [alive, dead] swimStateMerge)
        ⟨swimStateInit (.ofByte 1) 0, steadyEnv 0, []⟩ = (.ok (), h) ∧
      exec (forM [dead, alive, dead] swimStateMerge)
        ⟨swimStateInit (.ofByte 1) 0, steadyEnv 7, []⟩ = (.ok (), h') ∧
      ∀ v, (∃ n ∈ h.swim.members, n.uuid = v) ↔ ∃ n ∈ h'.swim.members, n.uuid = v := by
  intro alive dead
  have hset : ∀ g, g ∈ [alive, dead] ↔ g ∈ [dead, alive, dead] := fun g => by simp; tauto
  obtain ⟨h, h', hexec, hexec', hmem, -⟩ := merge_converges (.init (.ofByte 1) 0) (by decide)
    (by decide) hset (steadyEnv_allocates 0) (steadyEnv_allocates 7)
  exact ⟨h, h', hexec, hexec', hmem⟩

end LibSwim
