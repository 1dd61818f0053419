import LibSwim.Cluster.Records

/-! # Where a suspicion and a death come from

SUSPECT and DEAD travel with gossip, PING_REQ asks others to suspect, and LEAVE declares a node dead;
but all of it begins with a heartbeat. As long as no heartbeat finds a node ALIVE and not seen for a
minute, no node of the cluster holds it for anything but alive, and the node itself has nothing to
refute. As long as no heartbeat finds it not seen for two minutes, it may be suspected by anybody, but
nobody holds it for dead and it does not exit.
-/

namespace LibSwim

open Foundations Program

/-- If this is the record of `v`, it does not speak against it. -/
def NodeInfo.Clears (v : Uuid) (info : NodeInfo) : Prop :=
  info.uuid = v → info.status ≠ .suspect ∧ info.status ≠ .dead

/-- If this is the record of `v`, it does not say DEAD. -/
def NodeInfo.Spares (v : Uuid) (info : NodeInfo) : Prop := info.uuid = v → info.status ≠ .dead

section

variable {v : Uuid}

/-- What can be said of the status of `v` lasts if it allows ALIVE and UNKNOWN. -/
theorem lasting_status {B : Status → Prop} (hv : v ≠ Uuid.zero) (halive : B .alive)
    (hunknown : B .unknown) : Lasting fun info => info.uuid = v → B info.status where
  notice n time incarnation h := by
    obtain ⟨seen, status, -, hstatus, hinfo⟩ := n.notice_info time incarnation
    rw [hinfo]
    rcases hstatus with rfl | rfl
    · exact h
    · exact fun _ => halive
  merge n info hu h hi := by
    obtain ⟨seen, status, -, hstatus, hinfo⟩ := n.merge_info info
    rw [hinfo]
    intro hn
    rcases hstatus with rfl | rfl
    · exact h hn
    · exact hi (hu.trans hn)
  refute n _ := fun _ => halive
  del n hzero _ := fun hu => absurd (hu.symm.trans hzero) hv
  fresh _ _ _ _ h := by
    rcases h with rfl | rfl
    · exact fun _ => halive
    · exact fun _ => hunknown

theorem lasting_clears (hv : v ≠ Uuid.zero) : Lasting (NodeInfo.Clears v) :=
  lasting_status (B := fun status => status ≠ .suspect ∧ status ≠ .dead) hv (by decide) (by decide)

theorem lasting_spares (hv : v ≠ Uuid.zero) : Lasting (NodeInfo.Spares v) :=
  lasting_status (B := fun status => status ≠ .dead) hv (by decide) (by decide)

/-- PING_REQ is sent for whom the node suspects. -/
theorem SendAct.ne_pingReq {s₀ t : SWIM} {action : Action} {body : EventBody} {dest : SockAddr}
    (h : SendAct s₀ t action body dest) (ht : ∀ n ∈ t.members, n.info.Clears v) :
    body ≠ .pingReq v := by
  cases h with
  | request hm hs =>
    rintro ⟨rfl⟩
    exact (ht _ hm rfl).1 hs
  | leave | answer | relay | indirect | probe | join => rintro ⟨⟩

theorem suspicions_eq_zero {gossip : List NodeInfo} (h : ∀ g ∈ gossip, g.Clears v) :
    suspicions v gossip = 0 :=
  List.countP_eq_zero.mpr fun g hg hsuspect => (h g hg (of_decide_eq_true hsuspect).1).1
    (of_decide_eq_true hsuspect).2

end

namespace World

variable {ι : Type} {uuid : ι → Uuid} {now : ι → ℤ} {v : Uuid} {w w' : World ι} {i : ι} {c : Call}

/-- The heartbeat of a node finds `v` ALIVE and not seen for a minute. -/
def Accuses (w : World ι) (v : Uuid) (l : ι × Call) : Prop :=
  l.2.action = .heartbeat ∧ (w.nodes l.1).Beats (l.2.env.time 0) ∧
    ∃ n, (w.nodes l.1).find v = some n ∧ n.info.status = .alive ∧
      n.info.lastSeen ≤ l.2.env.time 0 - 60

/-- The heartbeat of a node finds that `v` was not seen for two minutes. -/
def Expires (w : World ι) (v : Uuid) (l : ι × Call) : Prop :=
  l.2.action = .heartbeat ∧ (w.nodes l.1).Beats (l.2.env.time 0) ∧
    ∃ n, (w.nodes l.1).find v = some n ∧ n.info.lastSeen ≤ l.2.env.time 0 - 120

/-- Nobody speaks against `v`, and the node has not had to refute anything. -/
structure Unaccused (uuid : ι → Uuid) (v : Uuid) (w : World ι) : Prop where
  sound : w.Sound uuid
  tells : w.Tells (NodeInfo.Clears v) (· ≠ .pingReq v)
  incarnation : ∀ a, uuid a = v → (w.nodes a).incarnation = 0

/-- Nobody holds `v` for dead. -/
structure Spared (uuid : ι → Uuid) (v : Uuid) (w : World ι) : Prop where
  sound : w.Sound uuid
  tells : w.Tells (NodeInfo.Spares v) fun _ => True

theorem Unaccused.brings (h : w.Unaccused uuid v) {action : Action} (ha : action.Possible w.network) :
    action.Brings (Event.Tells (NodeInfo.Clears v) (· ≠ .pingReq v)) :=
  h.tells.brings h.sound ha fun _ he => he.received

/-- A process exits only when it reads that it is dead. -/
theorem Spared.not_exit (h : w.Spared uuid (uuid i)) (ha : w.Admits (i, c)) :
    (runStep c (w.nodes i)).1 ≠ .error .exit := by
  intro hexit
  obtain ⟨e, addr, info, haction, -, hinfo, hu, hdead⟩ := (h.sound.account i c).cause _ hexit
  have he := (h.tells.brings h.sound ha.2 fun _ he => he.received).event haction
  exact he.gossip info hinfo (hu.trans (h.sound.uuid i)) hdead

theorem Unaccused.spared (h : w.Unaccused uuid v) : w.Spared uuid v where
  sound := h.sound
  tells := h.tells.mono (fun _ hn hu => (hn hu).2) fun _ he =>
    ⟨he.regular, trivial, fun g hg hu => (he.gossip g hg hu).2⟩

variable [DecidableEq ι]

/-- A call that accuses nobody keeps every record of `v` clear. -/
theorem Unaccused.call (h : w.Unaccused uuid v) (hv : v ≠ Uuid.zero) (ha : w.Admits (i, c))
    (hno : ¬ w.Accuses v (i, c)) : (w.call i c).Tells (NodeInfo.Clears v) (· ≠ .pingReq v) := by
  refine h.tells.call (lasting_clears hv) h.sound ha
    (S := fun n => n.uuid = v → n.info.status = .alive → c.env.time 0 - 60 < n.info.lastSeen)
    ?_ ?_ ?_ (fun _ _ _ ht hact => hact.ne_pingReq ht) (by rintro _ _ ⟨⟩)
  · intro e addr n hevent hb _ hu
    exact absurd (hb.trans (congrArg EventBody.pingReq hu)) ((h.brings ha.2).event hevent).body
  · intro hheart hbeats u n hn hu hs
    by_contra hold
    obtain rfl := ((h.sound.wf i).find_eq_some.mp hn).2
    exact hno ⟨hheart, hbeats, n, hu ▸ hn, hs, not_lt.mp hold⟩
  · intro t n n' hact hn hsafe
    cases hact with
    | suspectDead hs hl => exact ⟨fun hu => absurd hl (not_le.mpr (hsafe hu hs)), by rintro _ ⟨⟩⟩
    | declareDead hs _ => exact ⟨fun hu => absurd hs (hn hu).1, by rintro _ ⟨⟩⟩

theorem Unaccused.incarnation_call (h : w.Unaccused uuid v) (ha : w.Admits (i, c)) (a : ι)
    (hv : uuid a = v) : ((w.call i c).nodes a).incarnation = 0 := by
  rw [call_nodes, Function.update_apply]
  split_ifs with hi
  · obtain ⟨k, hk, hraised⟩ := (h.sound.account i c).reached.raised
    have hraises : c.action.raises (w.nodes i) = 0 := by
      cases haction : c.action with
      | event e addr =>
        have he := (h.brings ha.2).event haction
        rw [Action.raises, h.sound.uuid, ← hi, hv, suspicions_eq_zero he.gossip, ite_self]
      | heartbeat | join _ | leave => rfl
    obtain rfl : k = 0 := by omega
    rw [hraised]
    exact h.incarnation i (hi ▸ hv)
  · exact h.incarnation a hv

theorem Unaccused.step (h : w.Unaccused uuid v) (hv : v ≠ Uuid.zero) {l : ι × Call}
    (ha : w.Admits l) (hno : ¬ w.Accuses v l) (hs : w.Step l w') : w'.Unaccused uuid v := by
  have hsound := h.sound.step ha hs
  obtain rfl := hs
  exact ⟨hsound, h.call hv ha hno, h.incarnation_call ha⟩

theorem unaccused_of_run (hv : v ≠ Uuid.zero)
    (h : Run Step (fun w l => w.Admits l ∧ ¬ w.Accuses v l) (World.init uuid now) w) :
    w.Unaccused uuid v :=
  h.preserves (fun _ _ _ ht ha hs => ht.step hv ha.1 ha.2 hs)
    ⟨.init uuid now, .init _ _ uuid now, fun _ _ => rfl⟩

/-- As long as no heartbeat has found `v` ALIVE and not seen for a minute, in any order of events and
whatever is lost or repeated: no view and no gossip has `v` as SUSPECT or DEAD, no PING_REQ for `v`
was sent, and the node has never raised its incarnation and does not exit. -/
theorem suspicion_begins_with_timeout (hv : v ≠ Uuid.zero)
    (h : Run Step (fun w l => w.Admits l ∧ ¬ w.Accuses v l) (World.init uuid now) w) :
    (∀ i, ∀ n ∈ (w.nodes i).members, n.uuid = v → n.info.status ≠ .suspect ∧ n.info.status ≠ .dead) ∧
    (∀ p ∈ w.network, p.event.body ≠ .pingReq v ∧ ∀ g ∈ p.event.gossip, g.uuid = v →
      g.status ≠ .suspect ∧ g.status ≠ .dead) ∧
    ∀ a, uuid a = v → (w.nodes a).incarnation = 0 ∧
      ∀ c, w.Admits (a, c) → (runStep c (w.nodes a)).1 ≠ .error .exit := by
  have hclear := unaccused_of_run hv h
  refine ⟨fun i n hn => (hclear.tells.views i).of_mem (hclear.sound.wf i) hn, fun p hp =>
    ⟨(hclear.tells.network p hp).body, (hclear.tells.network p hp).gossip⟩, ?_⟩
  rintro a rfl
  exact ⟨hclear.incarnation a rfl, fun c hc => hclear.spared.not_exit hc⟩

/-- After fifty seconds node 1 sends a PING and suspects nobody. -/
theorem suspicion_begins_with_timeout_greeted :
    let w := greeted.call false ⟨steadyEnv 1050, .heartbeat⟩
    w.network.length = 4 ∧
      ∀ n ∈ (w.nodes false).members, n.uuid = pair true → n.info.status ≠ .suspect := by
  intro w
  have hseen : ((greeted.nodes false).find (pair true)).all (fun n => 990 < n.info.lastSeen) = true := by
    decide
  have hno : ¬ greeted.Accuses (pair true) (false, ⟨steadyEnv 1050, .heartbeat⟩) := by
    rintro ⟨-, -, n, hn, -, hold⟩
    have hlt := of_decide_eq_true ((Option.all_eq_true _ _).mp hseen n hn)
    exact absurd hold (not_le.mpr hlt)
  have hgreeted : Run Step (fun w l => w.Admits l ∧ ¬ w.Accuses (pair true) l)
      (World.init pair fun _ => 1000) greeted :=
    greeted_run ⟨⟨rfl, trivial⟩, fun h => by cases h.1⟩ ⟨joined_admits, fun h => by cases h.1⟩
  have hrun : Run Step (fun w l => w.Admits l ∧ ¬ w.Accuses (pair true) l)
      (World.init pair fun _ => 1000) w :=
    hgreeted.tail (l := (false, ⟨steadyEnv 1050, .heartbeat⟩)) ⟨⟨by decide, trivial⟩, hno⟩ rfl
  exact ⟨by decide, fun n hn hu =>
    ((suspicion_begins_with_timeout (by decide) hrun).1 false n hn hu).1⟩

/-- Whom a heartbeat declares dead it has found not seen for two minutes. -/
theorem Spared.call (h : w.Spared uuid v) (hv : v ≠ Uuid.zero) (ha : w.Admits (i, c))
    (hno : ¬ w.Expires v (i, c)) : (w.call i c).Tells (NodeInfo.Spares v) fun _ => True := by
  have hsuspect : ∀ info : NodeInfo, NodeInfo.Spares v { info with status := .suspect } := by
    rintro _ _ ⟨⟩
  refine h.tells.call (lasting_spares hv) h.sound ha
    (S := fun n => n.uuid = v → c.env.time 0 - 120 < n.info.lastSeen)
    (fun _ _ _ _ _ _ => hsuspect _) ?_ ?_ (fun _ _ _ _ _ => trivial) fun _ _ => trivial
  · intro hheart hbeats u n hn hu
    by_contra hold
    obtain rfl := ((h.sound.wf i).find_eq_some.mp hn).2
    exact hno ⟨hheart, hbeats, n, hu ▸ hn, not_lt.mp hold⟩
  · intro t n n' hact hn hsafe
    cases hact with
    | suspectDead _ _ => exact ⟨hsuspect _, hsafe⟩
    | declareDead _ hl => exact ⟨fun hu => absurd hl (not_le.mpr (hsafe hu)), hsafe⟩

theorem spared_of_run (hv : v ≠ Uuid.zero)
    (h : Run Step (fun w l => w.Admits l ∧ ¬ w.Expires v l) (World.init uuid now) w) :
    w.Spared uuid v := by
  refine h.preserves ?_ ⟨.init uuid now, .init _ _ uuid now⟩
  rintro w ⟨i, c⟩ w' ht ha hs
  have hsound := ht.sound.step ha.1 hs
  obtain rfl := hs
  exact ⟨hsound, ht.call hv ha.1 ha.2⟩

/-- As long as no heartbeat has found that `v` was not seen for two minutes, in any order of events,
whatever is lost or repeated and however often `v` has been suspected: no view and no gossip has `v` as
DEAD, and the node does not exit. -/
theorem death_begins_with_silence (hv : v ≠ Uuid.zero)
    (h : Run Step (fun w l => w.Admits l ∧ ¬ w.Expires v l) (World.init uuid now) w) :
    (∀ i, ∀ n ∈ (w.nodes i).members, n.uuid = v → n.info.status ≠ .dead) ∧
    (∀ p ∈ w.network, ∀ g ∈ p.event.gossip, g.uuid = v → g.status ≠ .dead) ∧
    ∀ a, uuid a = v → ∀ c, w.Admits (a, c) → (runStep c (w.nodes a)).1 ≠ .error .exit := by
  have hspared := spared_of_run hv h
  refine ⟨fun i n hn => (hspared.tells.views i).of_mem (hspared.sound.wf i) hn,
    fun p hp => (hspared.tells.network p hp).gossip, ?_⟩
  rintro a rfl c hc
  exact hspared.not_exit hc

/-- After seventy seconds node 1 suspects node 2, and nothing worse. -/
theorem death_begins_with_silence_greeted :
    let w := greeted.call false ⟨steadyEnv 1070, .heartbeat⟩
    ((w.nodes false).find (pair true)).map (fun n => n.info.status) = some .suspect ∧
      ∀ c, w.Admits (true, c) → (runStep c (w.nodes true)).1 ≠ .error .exit := by
  intro w
  have hseen : ((greeted.nodes false).find (pair true)).all (fun n => 950 < n.info.lastSeen) = true := by
    decide
  have hno : ¬ greeted.Expires (pair true) (false, ⟨steadyEnv 1070, .heartbeat⟩) := by
    rintro ⟨-, -, n, hn, hold⟩
    have hlt := of_decide_eq_true ((Option.all_eq_true _ _).mp hseen n hn)
    exact absurd hold (not_le.mpr hlt)
  have hgreeted : Run Step (fun w l => w.Admits l ∧ ¬ w.Expires (pair true) l)
      (World.init pair fun _ => 1000) greeted :=
    greeted_run ⟨⟨rfl, trivial⟩, fun h => by cases h.1⟩ ⟨joined_admits, fun h => by cases h.1⟩
  have hrun : Run Step (fun w l => w.Admits l ∧ ¬ w.Expires (pair true) l)
      (World.init pair fun _ => 1000) w :=
    hgreeted.tail (l := (false, ⟨steadyEnv 1070, .heartbeat⟩)) ⟨⟨by decide, trivial⟩, hno⟩ rfl
  exact ⟨by decide, (death_begins_with_silence (by decide) hrun).2.2 true rfl⟩

end World
end LibSwim
