import LibSwim.Cluster.Invariant
import LibSwim.Step.Clock

/-! # Where the times come from

A `last_seen` is the time of a packet, or was copied from another `last_seen`; the time of a packet is
a reading of its sender's clock. So every time that is anywhere in the cluster was shown by a clock of
the cluster: none is made up on the way, unless it does not fit the four bytes it is sent in.
-/

namespace LibSwim

open Foundations Program

/-- All times in the event satisfy `T`. -/
structure Event.Timed (T : ℤ → Prop) (e : Event) : Prop where
  time : T e.hdr.time
  gossip : ∀ g ∈ e.gossip, T g.lastSeen

section

variable {T : ℤ → Prop} {now : ℤ} {s s₀ t : SWIM} {action : Action} {n n' : NodeState} {e : Event}
variable {c : Call}

/-- A time of four bytes arrives as it was sent. -/
theorem Event.Timed.received (h : e.Timed T) (hT : ∀ x, T x → 0 ≤ x ∧ x < 2 ^ 32) :
    e.received.Timed T := by
  obtain ⟨hge, hlt⟩ := hT _ h.time
  have htime : e.received.hdr.time = e.hdr.time := Int.emod_eq_of_lt hge hlt
  exact ⟨htime ▸ h.time, h.gossip⟩

theorem NodeAct.lastSeen (h : NodeAct now s₀ t action n n') (ha : action.Brings (Event.Timed T))
    (hn : T n.info.lastSeen) : T n'.info.lastSeen := by
  cases h with
  | notice _ _ _ =>
    obtain ⟨seen, status, hseen, -, hinfo⟩ := n.notice_info _ _
    rw [hinfo]
    rcases hseen with rfl | rfl
    · exact hn
    · exact ha.time
  | @merge _ _ _ info _ hg _ _ =>
    obtain ⟨seen, status, hseen, -, hinfo⟩ := n.merge_info info
    rw [hinfo]
    rcases hseen with rfl | rfl
    · exact hn
    · exact ha.gossip info hg
  | suspect | refute | del | suspectDead | declareDead => exact hn

theorem InsertAct.lastSeen (h : InsertAct s₀ t action n) (ha : action.Brings (Event.Timed T)) :
    T n.info.lastSeen := by
  cases h with
  | join _ hi _ | ack _ hi _ | ackLast _ hi _ _ => exact hi ▸ ha.time
  | gossip _ hg _ => exact ha.gossip _ hg

theorem packets_timely (hclock : ∀ k, T (c.env.time k)) (ha : c.action.Brings (Event.Timed T)) :
    ∀ p ∈ (runStep c s).2.2, T p.event.hdr.time :=
  (wp_final (timely_program (fun e addr hact => (ha.event hact).time) ⟨s, c.env, []⟩
    ⟨hclock, by simp⟩)).2

end

namespace World

variable {ι : Type} [DecidableEq ι] {uuid : ι → Uuid} {now : ι → ℤ} {w w' : World ι}
variable {T : ℤ → Prop}

/-- The clock of the node that moves shows times of `T` only. -/
def Clocked (T : ℤ → Prop) (w : World ι) (l : ι × Call) : Prop :=
  w.Admits l ∧ ∀ k, T (l.2.env.time k)

/-- All times that are anywhere in the cluster satisfy `T`. -/
structure Timed (uuid : ι → Uuid) (T : ℤ → Prop) (w : World ι) : Prop where
  sound : w.Sound uuid
  upholds : w.Upholds (fun n => T n.info.lastSeen) (Event.Timed T)

theorem Timed.step (h : w.Timed uuid T) (hT : ∀ x, T x → 0 ≤ x ∧ x < 2 ^ 32) {l : ι × Call}
    (ha : w.Clocked T l) (hs : w.Step l w') : w'.Timed uuid T := by
  obtain ⟨i, c⟩ := l
  refine ⟨h.sound.step ha.1 hs, ?_⟩
  obtain rfl := hs
  have hbrings := h.upholds.brings h.sound ha.1.2 fun e he => he.received hT
  refine h.upholds.call h.sound (h.upholds.views i) (fun n => id) ?_ ?_ ?_ ?_
  · intro t n n' _ hact hn
    exact hact.lastSeen hbrings hn
  · intro t n _ hact _ _ _
    exact hact.lastSeen hbrings
  · intro t time body gossip dest _ _ _ hgossip hp
    refine ⟨packets_timely ha.2 hbrings _ hp, fun g hg => ?_⟩
    obtain ⟨n, hn, rfl⟩ := hgossip g hg
    exact hn
  · intro e addr u a hact _
    exact ⟨(hbrings.event hact).time, (hbrings.event hact).gossip⟩

theorem timed_of_run (hT : ∀ x, T x → 0 ≤ x ∧ x < 2 ^ 32)
    (h : Run Step (Clocked T) (World.init uuid now) w) : w.Timed uuid T :=
  h.preserves (fun _ _ _ ht ha hs => ht.step hT ha hs) ⟨.init uuid now, .init _ _ uuid now⟩

/-- What all clocks of the cluster satisfy is satisfied by every `last_seen` in a view or in gossip
and by the time of every packet, provided that these times fit into four bytes. -/
theorem times_shown_by_clocks (hT : ∀ x, T x → 0 ≤ x ∧ x < 2 ^ 32)
    (h : Run Step (Clocked T) (World.init uuid now) w) :
    (∀ i, ∀ n ∈ (w.nodes i).members, T n.info.lastSeen) ∧
    ∀ p ∈ w.network, T p.event.hdr.time ∧ ∀ g ∈ p.event.gossip, T g.lastSeen := by
  obtain ⟨hsound, hviews, hnetwork⟩ := timed_of_run hT h
  exact ⟨fun i n hn => (hviews i).of_mem (hsound.wf i) hn,
    fun p hp => ⟨(hnetwork p hp).time, (hnetwork p hp).gossip⟩⟩

theorem times_shown_by_clocks_greeted : greeted.network.length = 3 ∧
    ∀ p ∈ greeted.network, p.event.hdr.time = 1000 := by
  have hT : ∀ x : ℤ, x = 1000 → 0 ≤ x ∧ x < 2 ^ 32 := by omega
  have hrun : Run Step (Clocked fun x => x = 1000) (World.init pair fun _ => 1000) greeted :=
    greeted_run ⟨⟨rfl, trivial⟩, fun _ => rfl⟩ ⟨joined_admits, fun _ => rfl⟩
  exact ⟨by decide, fun p hp => ((times_shown_by_clocks hT hrun).2 p hp).1⟩

end World
end LibSwim
