import LibSwim.Cluster.World

/-! # Incarnations across the cluster

The incarnation of a node is raised by the node alone. Everyone else copies it from headers and
gossip, so whatever is held for a node anywhere is at most its own counter, and the counter of a
node that refutes a suspicion is beyond all of it.
-/

namespace LibSwim

open Foundations

namespace World

variable {ι : Type}

/-- The incarnation `k` is recorded for `v` in a view, or in an event that was sent. -/
inductive Held (w : World ι) (v : Uuid) (k : ℕ) : Prop
  | view {i n} (hn : n ∈ (w.nodes i).members) (hv : n.uuid = v) (hk : n.info.incarnation = k)
  | gossip {p g} (hp : p ∈ w.network) (hg : g ∈ p.event.gossip) (hv : g.uuid = v)
      (hk : g.incarnation = k)
  | header {p} (hp : p ∈ w.network) (hv : p.event.hdr.uuid = v) (hk : p.event.hdr.incarnation = k)

/-- The counter of the node does not wrap in the call. -/
def NoWrap (w : World ι) (l : ι × Call) : Prop :=
  (w.nodes l.1).incarnation + l.2.action.raises (w.nodes l.1) < 2 ^ 32

instance (w : World ι) (l : ι × Call) : Decidable (w.NoWrap l) := inferInstanceAs (Decidable (_ < _))

/-- No one knows a later incarnation of `v` than the node `v` itself. -/
def Allows (w : World ι) (v : Uuid) (k : ℕ) : Prop :=
  ∀ a, (w.nodes a).uuid = v → k ≤ (w.nodes a).incarnation

variable {uuid : ι → Uuid} {now : ι → ℤ} {w w' : World ι} {i : ι} {c : Call}

theorem Allows.max {v : Uuid} {k k' : ℕ} (h : w.Allows v k) (h' : w.Allows v k') :
    w.Allows v (Max.max k k') := fun a ha => max_le (h a ha) (h' a ha)

theorem allows_zero (v : Uuid) : w.Allows v 0 := fun _ _ => Nat.zero_le _

/-- The incarnations that an action brings to a node are allowed. -/
def AllowsAction (w : World ι) : Action → Prop
  | .event e _ => w.Allows e.hdr.uuid e.hdr.incarnation ∧
      ∀ g ∈ e.gossip, w.Allows g.uuid g.incarnation
  | .heartbeat | .join _ | .leave => True

/-- An event arrives with the header and the gossip it was sent with. -/
theorem Sound.allowsAction (h : w.Sound uuid) (hb : ∀ v k, w.Held v k → w.Allows v k)
    {action : Action} (ha : action.Possible w.network) : w.AllowsAction action := by
  cases action with
  | event e addr =>
    obtain ⟨-, p, hp, harr⟩ := ha
    obtain rfl := harr.eq (h.network p hp)
    exact ⟨hb _ _ (.header hp rfl rfl), fun g hg => hb _ _ (.gossip hp hg rfl rfl)⟩
  | heartbeat | join _ | leave => trivial

section

variable {t₀ : ℤ} {s₀ t : SWIM} {action : Action} {n n' : NodeState}

theorem allows_nodeAct (h : NodeAct t₀ s₀ t action n n') (ha : w.AllowsAction action)
    (hn : w.Allows n.uuid n.info.incarnation) : w.Allows n'.uuid n'.info.incarnation := by
  rw [h.uuid]
  cases h with
  | notice _ hu _ =>
    rw [NodeState.incarnation_notice]
    exact hn.max (hu ▸ ha.1)
  | merge _ hg _ hu =>
    rw [NodeState.incarnation_merge]
    exact hn.max (hu ▸ ha.2 _ hg)
  | suspect | refute | del | suspectDead | declareDead => exact hn

theorem allows_insertAct (h : InsertAct s₀ t action n) (ha : w.AllowsAction action) :
    w.Allows n.uuid n.info.incarnation := by
  cases h with
  | join _ hi _ | ack _ hi _ | ackLast _ hi _ _ =>
    rw [hi]
    exact allows_zero _
  | gossip _ hg _ => exact ha.2 _ hg

end

/-- A world in which no one is ahead of a node's own counter. -/
structure Bounded (uuid : ι → Uuid) (w : World ι) : Prop where
  sound : w.Sound uuid
  allows : ∀ v k, w.Held v k → w.Allows v k

theorem Bounded.init (uuid : ι → Uuid) (now : ι → ℤ) : (World.init uuid now).Bounded uuid where
  sound := .init uuid now
  allows v k hk := by
    cases hk with
    | view hn => simp [World.init, SWIM.members, swimStateInit] at hn
    | gossip hp | header hp => simp [World.init] at hp

variable [DecidableEq ι]

/-- All that is held after a call was allowed by the counters before it. -/
theorem Sound.held_call (h : w.Sound uuid) (hinj : Function.Injective uuid)
    (hb : ∀ v k, w.Held v k → w.Allows v k) (ha : w.Admits (i, c)) {v : Uuid} {k : ℕ}
    (hk : (w.call i c).Held v k) : w.Allows v k := by
  have hact := h.allowsAction hb ha.2
  have hacc := h.account i c
  have hview : (w.nodes i).Holds fun n => w.Allows n.uuid n.info.incarnation := fun u n hn =>
    hb _ _ (.view ((h.wf i).find_eq_some.mp hn).1 rfl rfl)
  obtain ⟨hnode, hsent⟩ := hacc.reached.holds hview (fun _ n n' _ hn => allows_nodeAct hn hact)
    fun _ n _ hn _ _ _ => allows_insertAct hn hact
  cases hk with
  | @view j n hn hv hk =>
    subst hv hk
    rw [call_nodes, Function.update_apply] at hn
    split_ifs at hn with hj
    · exact hnode.of_mem hacc.wf hn
    · exact hb _ _ (.view hn rfl rfl)
  | @gossip p g hp hg hv hk =>
    subst hv hk
    rcases List.mem_append.mp hp with hp | hp
    · exact hb _ _ (.gossip hp hg rfl rfl)
    · rcases hsent p hp g hg with ⟨n, hn, rfl⟩ | ⟨event, addr, he, hg'⟩
      · exact hn
      · rw [he] at hact
        exact hact.2 g hg'
  | @header p hp hv hk =>
    subst hv hk
    rcases List.mem_append.mp hp with hp | hp
    · exact hb _ _ (.header hp rfl rfl)
    · rcases hacc.reached.headers p hp with ⟨hu, hi⟩ | ⟨event, addr, he, hhdr⟩
      · intro a hau
        have hai : a = i := hinj (by rw [← h.uuid a, ← h.uuid i, hau, hu])
        rw [hai, hi]
      · rw [he] at hact
        rw [hhdr]
        exact hact.1

/-- Without a wrap the counter of the node that moves is raised by the suspicions it heard, and
the others keep theirs. -/
theorem Sound.incarnation_le (h : w.Sound uuid) (hw : w.NoWrap (i, c)) (a : ι) :
    (w.nodes a).incarnation ≤ ((w.call i c).nodes a).incarnation := by
  rw [call_nodes, Function.update_apply]
  split_ifs with ha
  · obtain ⟨k, hk, hi⟩ := (h.account i c).reached.raised
    have hlt : (w.nodes i).incarnation + c.action.raises (w.nodes i) < 2 ^ 32 := hw
    rw [hi, ha, SWIM.raised_eq (by omega)]
    exact Nat.le_add_right _ _
  · exact le_rfl

theorem Bounded.step (h : w.Bounded uuid) (hinj : Function.Injective uuid) {l : ι × Call}
    (ha : w.Admits l) (hw : w.NoWrap l) (hs : w.Step l w') : w'.Bounded uuid := by
  refine ⟨h.sound.step ha hs, fun v k hk a hv => ?_⟩
  obtain ⟨i, c⟩ := l
  have huuid : (w.nodes a).uuid = v := by
    rw [h.sound.uuid, ← (h.sound.step ha hs).uuid, hv]
  obtain rfl := hs
  exact (h.sound.held_call hinj h.allows ha hk a huuid).trans (h.sound.incarnation_le hw a)

theorem bounded_of_run (hinj : Function.Injective uuid)
    (h : Run Step (fun w l => w.Admits l ∧ w.NoWrap l) (World.init uuid now) w) :
    w.Bounded uuid :=
  h.preserves (fun _ _ _ ht ha hs => ht.step hinj ha.1 ha.2 hs) (.init uuid now)

/-- In every world reached without a wrap, no incarnation held for a node anywhere is above the
node's own counter; and after a node has heard that it is suspected, all are below it. -/
theorem incarnation_own (hinj : Function.Injective uuid)
    (h : Run Step (fun w l => w.Admits l ∧ w.NoWrap l) (World.init uuid now) w) :
    (∀ a k, w.Held (uuid a) k → k ≤ (w.nodes a).incarnation) ∧
      ∀ a env e addr, let c : Call := ⟨env, .event e addr⟩
        w.Admits (a, c) → w.NoWrap (a, c) → e.body.ReadsGossip (uuid a) →
        (∃ g ∈ e.gossip, g.uuid = uuid a ∧ g.status = .suspect) →
        (w.call a c).running a = true →
        ∀ k, (w.call a c).Held (uuid a) k → k < ((w.call a c).nodes a).incarnation := by
  obtain ⟨hsound, hallows⟩ := bounded_of_run hinj h
  refine ⟨fun a k hk => hallows _ k hk a (hsound.uuid a), ?_⟩
  intro a env e addr c ha hw hr hsuspect hrunning k hk
  have hle := hsound.held_call hinj hallows ha hk a (hsound.uuid a)
  have hraises : 0 < c.action.raises (w.nodes a) := by
    rw [Action.raises, hsound.uuid, if_pos hr]
    exact List.countP_pos_iff.mpr (by simpa using hsuspect)
  obtain ⟨ps, hreturns⟩ := returns_of_running hrunning
  have hok : (runStep c (w.nodes a)).1 = .ok () := congrArg Prod.fst hreturns
  have hlt : (w.nodes a).incarnation + c.action.raises (w.nodes a) < 2 ^ 32 := hw
  rw [call_nodes, Function.update_self, (hsound.account a c).raised hok, SWIM.raised_eq hlt]
  omega

theorem run_call (h : Run Step (fun w l => w.Admits l ∧ w.NoWrap l) (World.init uuid now) w)
    (i : ι) (c : Call) (ha : w.Admits (i, c)) (hw : w.NoWrap (i, c)) :
    Run Step (fun w l => w.Admits l ∧ w.NoWrap l) (World.init uuid now) (w.call i c) :=
  h.tail ⟨ha, hw⟩ rfl

def suspicion : Event := ⟨⟨pair false, 1080, 0⟩, .ping, [⟨pair true, 1000, 0, .suspect, .none⟩]⟩

/-- Node 1 does not hear of node 2 for a minute and says so in its next PING. -/
def suspected : World Bool :=
  (greeted.call false ⟨steadyEnv 1070, .heartbeat⟩).call false ⟨steadyEnv 1080, .heartbeat⟩

theorem suspected_run : Run Step (fun w l => w.Admits l ∧ w.NoWrap l)
    (World.init pair fun _ => 1000) suspected := by
  have hgreeted : Run Step (fun w l => w.Admits l ∧ w.NoWrap l)
      (World.init pair fun _ => 1000) greeted :=
    greeted_run ⟨⟨rfl, trivial⟩, by decide⟩ ⟨joined_admits, by decide⟩
  have hsuspect := run_call hgreeted false ⟨steadyEnv 1070, .heartbeat⟩ ⟨rfl, trivial⟩ (by decide)
  exact run_call hsuspect false ⟨steadyEnv 1080, .heartbeat⟩ ⟨rfl, trivial⟩ (by decide)

theorem incarnation_own_refuted : (suspected.nodes true).incarnation = 0 ∧
    let w := suspected.call true ⟨steadyEnv 1080, .event suspicion .none⟩
    (w.nodes true).incarnation = 1 ∧
      ∀ k, w.Held (.ofByte 2) k → k < (w.nodes true).incarnation := by
  have hsound := (bounded_of_run pair_injective suspected_run).sound
  refine ⟨by decide, by decide, ?_⟩
  exact (incarnation_own pair_injective suspected_run).2 true (steadyEnv 1080) suspicion .none
    (hsound.delivers (p := ⟨suspicion, .none⟩) (by decide) (by decide) (by decide) _) (by decide)
    (by decide) ⟨_, List.mem_singleton.mpr rfl, rfl, rfl⟩ (by decide)

end World

end LibSwim
