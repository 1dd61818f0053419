import LibSwim.Cluster.Accusation
import LibSwim.Cluster.Provenance
import LibSwim.Cluster.Times
import LibSwim.Run.Validity

/-! # A cluster in order

A process ends when an assertion fails, when memory is exhausted, or when it reads in gossip that it is
dead. In a run in which the clocks are in range, memory suffices, no ACK of an unknown node is out of
order and nobody is left unheard for a minute, none of this can happen: whatever is lost, repeated or
delayed, every process is there in the end, and nobody holds anybody for anything but alive.
-/

namespace LibSwim

open Foundations

namespace World

variable {ι : Type} {uuid : ι → Uuid} {now : ι → ℤ} {w w' : World ι} {i : ι} {c : Call}

/-- A call of a cluster in order. -/
structure Orderly (uuid : ι → Uuid) (w : World ι) (l : ι × Call) : Prop where
  admits : w.Admits l
  clock : ∀ k, 0 < l.2.env.time k ∧ l.2.env.time k < 2 ^ 32
  allocates : l.2.env.Allocates
  inOrder : l.2.action.AcksInOrder (w.nodes l.1)
  heard : ∀ a, ¬ w.Accuses (uuid a) l

/-- A cluster in order so far. -/
structure Steady (uuid : ι → Uuid) (w : World ι) : Prop where
  timed : w.Timed uuid fun x => 0 < x ∧ x < 2 ^ 32
  unaccused : ∀ a, w.Unaccused uuid (uuid a)
  tracked : w.Upholds (fun n => n.info.Tracked) fun e => ∀ g ∈ e.gossip, g.Tracked
  running : ∀ i, w.running i = true

theorem Steady.sound (h : w.Steady uuid) : w.Sound uuid := h.timed.sound

theorem Steady.trackable (h : w.Steady uuid) {action : Action} (ha : action.Possible w.network) :
    action.Trackable := by
  have htimed := h.timed.upholds.brings h.sound ha fun e he =>
    he.received fun x hx => ⟨hx.1.le, hx.2⟩
  have htracked := h.tracked.brings h.sound ha fun e he => he
  cases action with
  | event e addr => exact ⟨htimed.time.1, htracked⟩
  | heartbeat | join _ | leave => trivial

/-- Every cause of a fault is excluded. -/
theorem Steady.returns (h : w.Steady uuid) (ha : w.Orderly uuid (i, c)) :
    (runStep c (w.nodes i)).1 = .ok () := by
  have htrackable : c.action.Trackable := h.trackable ha.admits.2
  cases hr : (runStep c (w.nodes i)).1 with
  | ok => rfl
  | error f =>
    exfalso
    have hcause := (h.sound.account i c).cause f hr
    cases f with
    | nullDeref => exact hcause ha.allocates
    | outOfBounds => exact hcause
    | exit => exact (h.unaccused i).spared.not_exit ha.admits hr
    | assertion a =>
      cases a with
      | noticeValid =>
        obtain ⟨e, addr, node, -, hfind, hbad⟩ := hcause
        exact hbad (h.tracked.views i _ node hfind).valid
      | gossipValid =>
        obtain ⟨e, addr, info, haction, -, hinfo, hbad⟩ := hcause
        rw [haction] at htrackable
        exact hbad (htrackable.2 info hinfo).valid
      | joinValid =>
        obtain ⟨e, addr, u, a, haction, -, htime⟩ := hcause
        rw [haction] at htrackable
        exact absurd htrackable.1 (not_lt.mpr htime)
      | _ => exact hcause

variable [DecidableEq ι]

theorem Steady.tracked_call (h : w.Steady uuid) (ha : w.Orderly uuid (i, c)) :
    (w.call i c).Upholds (fun n => n.info.Tracked) fun e => ∀ g ∈ e.gossip, g.Tracked := by
  have htrackable : c.action.Trackable := h.trackable ha.admits.2
  refine h.tracked.call h.sound (h.tracked.views i) (fun n => id) ?_ ?_ ?_ ?_
  · exact fun t n n' _ hact hn => hact.tracked htrackable hn
  · exact fun t n _ hact hself hfresh _ => hact.tracked htrackable ha.inOrder hself hfresh
  · intro t time body gossip dest _ _ _ hgossip _ g hg
    obtain ⟨n, hn, rfl⟩ := hgossip g hg
    exact hn
  · intro e addr u a hact _
    have hevent := htrackable
    rw [hact] at hevent
    exact hevent.2

theorem Steady.step (h : w.Steady uuid) (hzero : ∀ a, uuid a ≠ Uuid.zero) {l : ι × Call}
    (ha : w.Orderly uuid l) (hs : w.Step l w') : w'.Steady uuid := by
  refine ⟨h.timed.step (fun x hx => ⟨hx.1.le, hx.2⟩) ⟨ha.admits, ha.clock⟩ hs,
    fun a => (h.unaccused a).step (hzero a) ha.admits (ha.heard a) hs, ?_, ?_⟩
  · obtain rfl := hs
    exact h.tracked_call ha
  · obtain rfl := hs
    intro j
    change Function.update w.running l.1 (runStep l.2 (w.nodes l.1)).1.isOk j = true
    rw [h.returns ha, Function.update_apply]
    split_ifs
    · rfl
    · exact h.running j

theorem steady_of_run (hzero : ∀ a, uuid a ≠ Uuid.zero)
    (h : Run Step (Orderly uuid) (World.init uuid now) w) : w.Steady uuid :=
  h.preserves (fun _ _ _ ht ha hs => ht.step hzero ha hs)
    ⟨⟨.init uuid now, .init _ _ uuid now⟩,
      fun _ => ⟨.init uuid now, .init _ _ uuid now, fun _ _ => rfl⟩, .init _ _ uuid now, fun _ => rfl⟩

/-- In a cluster in order, whatever the network does: every process is running and every further call
of such a run returns; everyone in a view is a node of the cluster and held for ALIVE; no incarnation
was ever raised. -/
theorem orderly_cluster_survives (hzero : ∀ a, uuid a ≠ Uuid.zero)
    (h : Run Step (Orderly uuid) (World.init uuid now) w) :
    (∀ i, w.running i = true ∧ (w.nodes i).incarnation = 0) ∧
    (∀ i c, w.Orderly uuid (i, c) → (runStep c (w.nodes i)).1 = .ok ()) ∧
    ∀ i, ∀ n ∈ (w.nodes i).members, (∃ a, uuid a = n.uuid) ∧ n.info.status = .alive := by
  have hsteady := steady_of_run hzero h
  have hgrounded := grounded_of_run (h.weaken fun _ _ ha => ha.admits)
  refine ⟨fun i => ⟨hsteady.running i, (hsteady.unaccused i).incarnation i rfl⟩,
    fun i c => hsteady.returns, fun i n hn => ?_⟩
  obtain ⟨a, ha⟩ : ∃ a, uuid a = n.uuid := by
    obtain ⟨p, hp, hu⟩ := (hgrounded.upholds.views i).of_mem (hsteady.sound.wf i) hn
    rw [← hu]
    exact (hgrounded.upholds.network p hp).header
  have hclear := ((hsteady.unaccused a).tells.views i).of_mem (hsteady.sound.wf i) hn ha.symm
  have htracked := (hsteady.tracked.views i).of_mem (hsteady.sound.wf i) hn
  exact ⟨⟨a, ha⟩, (htracked.2.alive_or_suspect hclear.2).resolve_right hclear.1⟩

/-- The ACK that node 1 sent to node 2. -/
def ackOfPair : Event :=
  ⟨⟨pair false, 1000, 0⟩, .ack (pair false), [⟨pair true, 1000, 0, .alive, .none⟩]⟩

/-- Node 2 hears of node 1 by that ACK, and node 1 sends its PING at 1030. -/
def acquainted : World Bool :=
  (greeted.call true ⟨steadyEnv 1000, .event ackOfPair .none⟩).call false ⟨steadyEnv 1030, .heartbeat⟩

theorem orderly_cluster_survives_acquainted :
    (∀ i, (acquainted.nodes i).members.map (·.uuid) = [pair !i]) ∧
      (∃ p ∈ acquainted.network, p.event.body = .ping) ∧
      ∀ i, acquainted.running i = true ∧
        ∀ n ∈ (acquainted.nodes i).members, n.info.status = .alive := by
  have hclock : ∀ k, 0 < (steadyEnv 1000).time k ∧ (steadyEnv 1000).time k < 2 ^ 32 :=
    fun _ => (by decide : (0 : ℤ) < 1000 ∧ (1000 : ℤ) < 2 ^ 32)
  have hzero : ∀ a, pair a ≠ Uuid.zero := by decide
  have hgreeted : Run Step (Orderly pair) (World.init pair fun _ => 1000) greeted :=
    greeted_run ⟨⟨rfl, trivial⟩, hclock, steadyEnv_allocates 1000, trivial, fun _ h => by cases h.1⟩
      ⟨joined_admits, hclock, steadyEnv_allocates 1000, trivial, fun _ h => by cases h.1⟩
  have hsound := (steady_of_run hzero hgreeted).sound
  have hack : greeted.Orderly pair (true, ⟨steadyEnv 1000, .event ackOfPair .none⟩) :=
    ⟨hsound.delivers (p := ⟨ackOfPair, .none⟩) (by decide) (by decide) (by decide) (steadyEnv 1000),
      hclock, steadyEnv_allocates 1000, .inr (.inr (by decide)), fun _ h => by cases h.1⟩
  have hrun := hgreeted.tail hack rfl
  have hsound' := (steady_of_run hzero hrun).sound
  have hseen : ∀ n ∈ ((greeted.call true ⟨steadyEnv 1000, .event ackOfPair .none⟩).nodes false).members,
      n.info.lastSeen = 1000 := by decide
  have hbeat : (greeted.call true ⟨steadyEnv 1000, .event ackOfPair .none⟩).Orderly pair
      (false, ⟨steadyEnv 1030, .heartbeat⟩) := by
    refine ⟨⟨by decide, trivial⟩, fun _ => (by decide : (0 : ℤ) < 1030 ∧ (1030 : ℤ) < 2 ^ 32),
      steadyEnv_allocates 1030, trivial, ?_⟩
    rintro a ⟨-, -, n, hn, -, hle⟩
    rw [hseen n ((hsound'.wf false).find_eq_some.mp hn).1] at hle
    exact absurd hle (by decide : ¬ (1000 : ℤ) ≤ 1030 - 60)
  have hsurvives := orderly_cluster_survives hzero (hrun.tail hbeat rfl)
  exact ⟨by decide, by decide, fun i => ⟨(hsurvives.1 i).1, fun n hn => (hsurvives.2.2 i n hn).2⟩⟩

end World
end LibSwim
