import LibSwim.Cluster.Invariant
import LibSwim.Run.Heartbeat
import LibSwim.Run.IndirectProbe
import LibSwim.Run.Validity

/-! # Silent nodes are found

From a node that is not heard of any more, neither directly nor in an ACK or a PING_REQ, what is left
is gossip. Gossip brings no later time and no newer incarnation than the cluster holds, and within an
incarnation it never takes a suspicion back. So two heartbeats are enough: whatever the other nodes go
on telling each other, the first one suspects the node and the second one declares it dead.
-/

namespace LibSwim

open Foundations Program

/-- If this is a record of `v`, it is not newer than incarnation `k` and time `T`, and says ALIVE,
SUSPECT or DEAD. -/
def NodeInfo.Within (v : Uuid) (k : ℕ) (T : ℤ) (info : NodeInfo) : Prop :=
  info.uuid = v → info.incarnation ≤ k ∧ info.lastSeen ≤ T ∧ info.status.Known

/-- The event does not come from `v` and is not about it. -/
def Event.Hushes (v : Uuid) (e : Event) : Prop := e.hdr.uuid ≠ v ∧ e.body.subject ≠ some v

/-- A record of incarnation `k` that was not seen after `T` and stands at `rank` at least. -/
structure Fading (k : ℕ) (T : ℤ) (rank : Status) (n : NodeState) : Prop where
  incarnation : n.info.incarnation = k
  lastSeen : n.info.lastSeen ≤ T
  known : n.info.status.Known
  rank_le : rank.code ≤ n.info.status.code

section

variable {v : Uuid} {k : ℕ} {T now : ℤ} {s₀ t : SWIM} {action : Action} {n n' : NodeState}
variable {rank : Status} {g : NodeInfo}

theorem NodeAct.within (h : NodeAct now s₀ t action n n') (ha : action.Brings (Event.Hushes v))
    (hg : action.Brings fun e => ∀ g ∈ e.gossip, g.Within v k T) (hn : n.info.Within v k T) :
    n'.info.Within v k T := by
  cases h with
  | notice _ hu _ =>
    intro hv
    exact absurd (hu.symm.trans ((NodeState.notice_uuid n _ _).symm.trans hv)) ha.1
  | @merge _ _ _ info _ hmem _ hu =>
    obtain ⟨seen, status, hseen, hstatus, hinfo⟩ := n.merge_info info
    rw [hinfo]
    intro hv
    obtain ⟨hk, hT, hknown⟩ := hn hv
    obtain ⟨hk', hT', hknown'⟩ := hg info hmem (hu.trans hv)
    refine ⟨max_le hk hk', ?_, ?_⟩
    · rcases hseen with rfl | rfl <;> assumption
    · rcases hstatus with rfl | rfl <;> assumption
  | suspect | suspectDead => exact fun hv => ⟨(hn hv).1, (hn hv).2.1, .inr (.inl rfl)⟩
  | refute => exact fun hv => ⟨(hn hv).1, (hn hv).2.1, .inl rfl⟩
  | del | declareDead => exact fun hv => ⟨(hn hv).1, (hn hv).2.1, .inr (.inr rfl)⟩

theorem InsertAct.within (h : InsertAct s₀ t action n) (ha : action.Brings (Event.Hushes v))
    (hg : action.Brings fun e => ∀ g ∈ e.gossip, g.Within v k T) : n.info.Within v k T := by
  cases h with
  | join hb _ _ | ack hb _ _ | ackLast hb _ _ _ =>
    intro hv
    have hsubject := ha.2
    rw [hb] at hsubject
    exact absurd (congrArg some hv) hsubject
  | gossip _ hmem _ => exact hg _ hmem

/-- Within its incarnation a record only moves towards DEAD. -/
theorem Fading.merge (h : Fading k T rank n)
    (hg : g.incarnation ≤ k ∧ g.lastSeen ≤ T ∧ g.status.Known) : Fading k T rank (n.merge g) := by
  obtain ⟨hk, hT, hknown⟩ := hg
  rcases (h.incarnation ▸ hk : g.incarnation ≤ n.info.incarnation).lt_or_eq with hlt | heq
  · rwa [NodeState.merge_stale hlt]
  · by_cases hdead : n.info.status = .dead
    · rw [NodeState.merge_dead heq hdead]
      exact ⟨h.incarnation, h.lastSeen, h.known, h.rank_le⟩
    · have hstatus := h.known.alive_or_suspect hdead
      rcases lt_trichotomy g.status.code n.info.status.code with hlower | hsame | hhigher
      · rwa [NodeState.merge_lower heq hstatus hlower]
      · rw [NodeState.merge_refresh heq hstatus (Status.code_injective hsame)]
        exact ⟨h.incarnation, max_le h.lastSeen hT, h.known, h.rank_le⟩
      · rw [NodeState.merge_higher heq hstatus hhigher]
        exact ⟨h.incarnation, hT, hknown, h.rank_le.trans hhigher.le⟩

theorem Action.AcksInOrder.of_ack {s : SWIM} {e : Event} {addr : SockAddr} {u : Uuid}
    (ho : (Action.event e addr).AcksInOrder s) (hb : e.body = .ack u) :
    u = s.uuid ∨ s.find u ≠ none ∨ ∀ m ∈ s.members, m.uuid < u := by
  obtain ⟨hdr, body, gossip⟩ := e
  subst hb
  exact ho

/-- The entry of a member that an ACK finds is that of its subject, if the ACK is in order. -/
theorem AckTarget.uuid_eq {e : Event} {addr : SockAddr} {u : Uuid} (h : AckTarget s₀ t u n)
    (hb : e.body = .ack u) (ho : (Action.event e addr).AcksInOrder s₀)
    (hmember : ∃ m ∈ s₀.members, m.uuid = n.uuid) : n.uuid = u := by
  obtain ⟨m, hm, hmu⟩ := hmember
  rcases h with heq | ⟨hfresh, hself, hlt, -⟩
  · exact heq
  · rcases ho.of_ack hb with h | h | h
    · exact absurd h hself
    · exact absurd hfresh h
    · exact absurd (hmu ▸ h m hm) hlt.not_gt

/-- No assignment of a call that hushes `v` takes back what is held against it. -/
theorem NodeAct.fading (h : NodeAct now s₀ t action n n') (ha : action.Brings (Event.Hushes v))
    (hg : action.Brings fun e => ∀ g ∈ e.gossip, g.Within v k T) (ho : action.AcksInOrder s₀)
    (hv : n.uuid = v) (hmember : ∃ m ∈ s₀.members, m.uuid = v) (hn : Fading k T rank n) :
    Fading k T rank n' := by
  cases h with
  | notice _ hu _ => exact absurd (hu.symm.trans hv) ha.1
  | suspect hb | del hb =>
    have hsubject := ha.2
    rw [hb] at hsubject
    exact absurd (congrArg some hv) hsubject
  | merge _ hmem _ hu => exact hn.merge (hg _ hmem (hu.trans hv))
  | refute hb ht _ =>
    have hsubject := ha.2
    rw [hb, ← ht.uuid_eq hb ho (hv ▸ hmember)] at hsubject
    exact absurd (congrArg some hv) hsubject
  | suspectDead hs _ =>
    exact ⟨hn.incarnation, hn.lastSeen, .inr (.inl rfl),
      (hs ▸ hn.rank_le).trans (by decide : Status.alive.code ≤ Status.suspect.code)⟩
  | declareDead hs _ =>
    exact ⟨hn.incarnation, hn.lastSeen, .inr (.inr rfl),
      (hs ▸ hn.rank_le).trans (by decide : Status.suspect.code ≤ Status.dead.code)⟩

/-- A minute after the time `T` a heartbeat leaves at least SUSPECT. -/
theorem Fading.ticked_suspect (h : Fading k T .alive n) (hnow : T + 60 ≤ now) :
    Fading k T .suspect (n.ticked now) := by
  obtain ⟨hk, hT, hknown, -⟩ := h
  have hold : n.info.lastSeen ≤ now - 60 := by omega
  have hle : Status.suspect.code ≤ Status.dead.code := by decide
  rw [NodeState.ticked_eq]
  rcases hknown with hs | hs | hs
  · rw [hs, Status.ticked, if_pos hold]
    exact ⟨hk, hT, .inr (.inl rfl), le_rfl⟩
  · rw [hs, Status.ticked]
    split_ifs
    · exact ⟨hk, hT, .inr (.inr rfl), hle⟩
    · exact ⟨hk, hT, .inr (.inl rfl), le_rfl⟩
  · rw [hs]
    exact ⟨hk, hT, .inr (.inr rfl), hle⟩

/-- Two minutes after the time `T` it leaves a suspected node DEAD. -/
theorem Fading.ticked_dead (h : Fading k T .suspect n) (hnow : T + 120 ≤ now) :
    Fading k T .dead (n.ticked now) := by
  obtain ⟨hk, hT, hknown, hrank⟩ := h
  have hold : n.info.lastSeen ≤ now - 120 := by omega
  rw [NodeState.ticked_eq]
  rcases hknown with hs | hs | hs
  · rw [hs] at hrank
    exact absurd hrank (by decide)
  · rw [hs, Status.ticked, if_pos hold]
    exact ⟨hk, hT, .inr (.inr rfl), le_rfl⟩
  · rw [hs]
    exact ⟨hk, hT, .inr (.inr rfl), le_rfl⟩

theorem Fading.dead (h : Fading k T .dead n) : n.info.status = .dead := by
  have hrank := h.rank_le
  rcases h.known with hs | hs | hs
  · rw [hs] at hrank
    exact absurd hrank (by decide)
  · rw [hs] at hrank
    exact absurd hrank (by decide)
  · exact hs

end

namespace World

variable {ι : Type} {uuid : ι → Uuid} {now : ι → ℤ} {w w' : World ι} {v : Uuid} {k : ℕ} {T : ℤ}
variable {i j : ι} {c : Call} {rank : Status}

/-- Nothing from `v` is delivered and nothing about it but gossip; ACKs are in order. -/
structure Hushed (v : Uuid) (w : World ι) (l : ι × Call) : Prop where
  admits : w.Admits l
  inOrder : l.2.action.AcksInOrder (w.nodes l.1)
  hushes : l.2.action.Brings (Event.Hushes v)

/-- No record of `v` anywhere is newer than incarnation `k` and time `T`, and all say ALIVE, SUSPECT or
DEAD. -/
def Stale (v : Uuid) (k : ℕ) (T : ℤ) (w : World ι) : Prop :=
  w.Upholds (fun n => n.info.Within v k T) fun e => ∀ g ∈ e.gossip, g.Within v k T

/-- Node `j` holds `v` for `rank` at least, and nobody can tell it anything newer. -/
structure Condemns (uuid : ι → Uuid) (v : Uuid) (k : ℕ) (T : ℤ) (j : ι) (rank : Status) (w : World ι) :
    Prop where
  sound : w.Sound uuid
  stale : w.Stale v k T
  entry : ∃ n, (w.nodes j).find v = some n ∧ Fading k T rank n

variable [DecidableEq ι]

theorem Stale.call (h : w.Stale v k T) (hsound : w.Sound uuid) (ha : w.Hushed v (i, c)) :
    (w.call i c).Stale v k T := by
  have hgossip : c.action.Brings fun e => ∀ g ∈ e.gossip, g.Within v k T :=
    h.brings hsound ha.admits.2 fun e he => he
  refine Upholds.call h hsound (h.views i) (fun n => id) ?_ ?_ ?_ ?_
  · exact fun t n n' _ hact hn => hact.within ha.hushes hgossip hn
  · exact fun t n _ hact _ _ _ => hact.within ha.hushes hgossip
  · intro t time body gossip dest _ _ _ hg _ g hmem
    obtain ⟨n, hn, rfl⟩ := hg g hmem
    exact hn
  · intro e addr u a hact _
    have hevent : ∀ g ∈ e.gossip, g.Within v k T := hgossip.event hact
    exact hevent

/-- A hushed call of any node leaves what node `j` holds against `v`. -/
theorem Condemns.step (h : w.Condemns uuid v k T j rank) {l : ι × Call} (ha : w.Hushed v l)
    (hs : w.Step l w') : w'.Condemns uuid v k T j rank := by
  obtain ⟨i, c⟩ := l
  have hsound := h.sound.step ha.admits hs
  obtain rfl := hs
  refine ⟨hsound, h.stale.call h.sound ha, ?_⟩
  obtain ⟨n, hn, hfading⟩ := h.entry
  rw [call_nodes, Function.update_apply]
  split_ifs with hj
  · subst hj
    have hwf := h.sound.wf j
    have hgossip := h.stale.brings h.sound ha.admits.2 fun e he => he
    exact (h.sound.account j c).member hwf hn hfading fun t m m' _ hact hv hm =>
      hact.fading ha.hushes hgossip ha.inOrder hv ⟨n, hwf.find_eq_some.mp hn⟩ hm
  · exact ⟨n, hn, hfading⟩

theorem Condemns.run (h : w.Condemns uuid v k T j rank) (hrun : Run Step (Hushed v) w w') :
    w'.Condemns uuid v k T j rank :=
  hrun.preserves (fun _ _ _ ht ha hs => ht.step ha hs) h

/-- A heartbeat of node `j` that is not skipped moves its record of `v` on. -/
theorem Condemns.beat {rank' : Status} {env : Env} (h : w.Condemns uuid v k T j rank)
    (ha : w.Hushed v (j, ⟨env, .heartbeat⟩)) (halloc : env.Allocates)
    (hbeats : (w.nodes j).Beats (env.time 0))
    (htick : ∀ n, Fading k T rank n → Fading k T rank' (n.ticked (env.time 0))) :
    (w.call j ⟨env, .heartbeat⟩).Condemns uuid v k T j rank' := by
  have hwf := h.sound.wf j
  obtain ⟨n, hn, hfading⟩ := h.entry
  obtain ⟨s', hreturns⟩ := heartbeat_returns hwf halloc
  have hresult : w.result j ⟨env, .heartbeat⟩ = s' := by
    obtain ⟨ps, hrun⟩ := hreturns
    rw [result, hrun]
  refine ⟨h.sound.step ha.admits rfl, h.stale.call h.sound ha, n.ticked (env.time 0), ?_,
    htick n hfading⟩
  rw [call_nodes, Function.update_self, hresult,
    (heartbeat_beaten hwf hreturns).find hwf (hreturns.wf hwf) hn, if_pos hbeats]

/-- Node `j` has `v` in its view; no record of `v` in the cluster is newer than its own incarnation `k`
and the time `T`, and all of them say ALIVE, SUSPECT or DEAD. From then on nothing from `v` is delivered
and nothing about it but gossip, in any order and from anyone, and an ACK of a node that its receiver
does not know has a greater UUID than all members there. Then after one heartbeat of `j` at `T + 60` or
later and another one at `T + 120` or later, both with enough memory and neither skipped, `j` holds `v`
for DEAD, and does so for good. -/
theorem silent_declared_dead {w₁ w₂ : World ι} {n : NodeState} {env₁ env₂ : Env}
    (h : Run Step Admits (World.init uuid now) w) (hstale : w.Stale v k T)
    (hn : (w.nodes j).find v = some n) (hk : n.info.incarnation = k)
    (hrun₁ : Run Step (Hushed v) w w₁) (ha₁ : w₁.Hushed v (j, ⟨env₁, .heartbeat⟩))
    (halloc₁ : env₁.Allocates) (hbeats₁ : (w₁.nodes j).Beats (env₁.time 0))
    (htime₁ : T + 60 ≤ env₁.time 0)
    (hrun₂ : Run Step (Hushed v) (w₁.call j ⟨env₁, .heartbeat⟩) w₂)
    (ha₂ : w₂.Hushed v (j, ⟨env₂, .heartbeat⟩)) (halloc₂ : env₂.Allocates)
    (hbeats₂ : (w₂.nodes j).Beats (env₂.time 0)) (htime₂ : T + 120 ≤ env₂.time 0)
    (hrun₃ : Run Step (Hushed v) (w₂.call j ⟨env₂, .heartbeat⟩) w') :
    ∃ m, (w'.nodes j).find v = some m ∧ m.info.status = .dead := by
  have hsound := sound_of_run h
  have hwithin := hstale.views j v n hn ((hsound.wf j).find_eq_some.mp hn).2
  have hstart : w.Condemns uuid v k T j .alive := by
    refine ⟨hsound, hstale, n, hn, hk, hwithin.2.1, hwithin.2.2, ?_⟩
    rcases hwithin.2.2 with hs | hs | hs <;> rw [hs] <;> decide
  have hsuspect := (hstart.run hrun₁).beat ha₁ halloc₁ hbeats₁ fun n hf => hf.ticked_suspect htime₁
  have hdead := (hsuspect.run hrun₂).beat ha₂ halloc₂ hbeats₂ fun n hf => hf.ticked_dead htime₂
  obtain ⟨m, hm, hfading⟩ := (hdead.run hrun₃).entry
  exact ⟨m, hm, hfading.dead⟩

/-- Node 2 joins at 1000 and is not heard of again: node 1 suspects it at 1060 and declares it dead at
1120. -/
theorem silent_declared_dead_greeted :
    let w := greeted.call false ⟨steadyEnv 1060, .heartbeat⟩
    ∃ m, ((w.call false ⟨steadyEnv 1120, .heartbeat⟩).nodes false).find (pair true) = some m ∧
      m.info.status = .dead := by
  have hrun : Run Step Admits (World.init pair fun _ => 1000) greeted :=
    greeted_run ⟨rfl, trivial⟩ joined_admits
  have hwf := (joined_sound.step joined_admits rfl).wf
  have hmembers : ∀ i, ∀ n ∈ (greeted.nodes i).members, n.info.incarnation ≤ 0 ∧
      n.info.lastSeen ≤ 1000 ∧ n.info.status.Known := by decide
  have hgossip : ∀ p ∈ greeted.network, ∀ g ∈ p.event.gossip, g.incarnation ≤ 0 ∧ g.lastSeen ≤ 1000 ∧
      g.status.Known := by decide
  have hstale : greeted.Stale (pair true) 0 1000 :=
    ⟨fun i v n hn _ => hmembers i n ((hwf i).find_eq_some.mp hn).1, fun p hp g hg _ => hgossip p hp g hg⟩
  obtain ⟨n, hn, hk⟩ : ∃ n, (greeted.nodes false).find (pair true) = some n ∧ n.info.incarnation = 0 :=
    ⟨_, rfl, by decide⟩
  exact silent_declared_dead hrun hstale hn hk (.refl _) ⟨⟨by decide, trivial⟩, trivial, trivial⟩
    (steadyEnv_allocates 1060) (by decide) (by decide) (.refl _)
    ⟨⟨by decide, trivial⟩, trivial, trivial⟩ (steadyEnv_allocates 1120) (by decide) (by decide) (.refl _)

end World
end LibSwim
