import LibSwim.Cluster.Invariant
import LibSwim.Step.Schedule
import Mathlib.Data.Fintype.Card

/-! # Who is known in the cluster

A UUID comes into a view from a JOIN, from an ACK or from gossip, and into these from a view or from the
node that it belongs to. So whoever is known anywhere is a node of the cluster, and one that has sent a
packet; no view has more members than there are other nodes.
-/

namespace LibSwim

open Foundations

/-- The node that a JOIN, an ACK or a PING_REQ is about satisfies `P`. -/
def EventBody.About (P : Uuid → Prop) : EventBody → Prop
  | .join u _ | .ack u | .pingReq u => P u
  | .ping | .leave _ => True

/-- The sender of the event satisfies `H`, and those it speaks of satisfy `P`. -/
structure Event.Vouched (H P : Uuid → Prop) (e : Event) : Prop where
  header : H e.hdr.uuid
  body : e.body.About P
  gossip : ∀ g ∈ e.gossip, P g.uuid

section

variable {H P Q : Uuid → Prop} {s₀ t : SWIM} {action : Action} {n : NodeState} {body : EventBody}
variable {dest : SockAddr} {e : Event}

theorem EventBody.About.mono (h : body.About P) (hPQ : ∀ u, P u → Q u) : body.About Q := by
  cases body with
  | join u _ | ack u | pingReq u => exact hPQ u h
  | ping | leave => trivial

theorem Event.Vouched.mono (h : e.Vouched H P) (hPQ : ∀ u, P u → Q u) : e.Vouched H Q :=
  ⟨h.header, h.body.mono hPQ, fun g hg => hPQ _ (h.gossip g hg)⟩

theorem Event.Vouched.received (h : e.Vouched H P) : e.received.Vouched H P :=
  ⟨h.header, h.body, h.gossip⟩

theorem InsertAct.about (h : InsertAct s₀ t action n) (ha : action.Brings (Event.Vouched H P)) :
    P n.uuid := by
  cases h with
  | join hb _ _ | ack hb _ _ | ackLast hb _ _ _ =>
    have hbody := ha.body
    rw [hb] at hbody
    exact hbody
  | gossip _ hg _ => exact ha.gossip _ hg

/-- A node sends about itself, about its members, and about whom it was asked. -/
theorem SendAct.about (h : SendAct s₀ t action body dest) (ha : action.Brings (Event.Vouched H P))
    (ht : ∀ n ∈ t.members, P n.uuid) (hself : P t.uuid) : body.About P := by
  cases h with
  | answer | join => exact hself
  | relay hb =>
    have hbody := ha.body
    rw [hb] at hbody
    exact hbody
  | request hm => exact ht _ hm
  | indirect | probe | leave => trivial

end

namespace World

variable {ι : Type}

/-- The node with this UUID has sent a packet. -/
def Spoke (w : World ι) (v : Uuid) : Prop := ∃ p ∈ w.network, p.event.hdr.uuid = v

/-- Packets come from nodes, and everyone known has sent one. -/
structure Grounded (uuid : ι → Uuid) (w : World ι) : Prop where
  sound : w.Sound uuid
  upholds : w.Upholds (fun n => w.Spoke n.uuid) (Event.Vouched (fun v => ∃ j, uuid j = v) w.Spoke)

variable {uuid : ι → Uuid} {now : ι → ℤ} {w w' : World ι} {i : ι} {c : Call}

section Population

variable [Fintype ι]

/-- The nodes of the cluster. -/
def population (uuid : ι → Uuid) : Finset Uuid := Finset.univ.image uuid

theorem Grounded.spoke_mem (h : w.Grounded uuid) {v : Uuid} (hv : w.Spoke v) : v ∈ population uuid := by
  obtain ⟨p, hp, rfl⟩ := hv
  obtain ⟨j, hj⟩ := (h.upholds.network p hp).header
  exact hj ▸ Finset.mem_image_of_mem uuid (Finset.mem_univ j)

theorem Grounded.self_mem (h : w.Grounded uuid) (i : ι) : (w.nodes i).uuid ∈ population uuid := by
  rw [h.sound.uuid i]
  exact Finset.mem_image_of_mem uuid (Finset.mem_univ i)

theorem Grounded.known_mem (h : w.Grounded uuid) (i : ι) (u : Uuid) (hu : (w.nodes i).find u ≠ none) :
    u ∈ population uuid := by
  obtain ⟨n, hn⟩ := Option.ne_none_iff_exists'.mp hu
  obtain rfl := ((h.sound.wf i).find_eq_some.mp hn).2
  exact h.spoke_mem (h.upholds.views i _ n hn)

end Population

variable [DecidableEq ι]

theorem spoke_call {v : Uuid} (h : w.Spoke v) : (w.call i c).Spoke v :=
  have ⟨p, hp, hv⟩ := h
  ⟨p, List.mem_append_left _ hp, hv⟩

theorem Grounded.step (h : w.Grounded uuid) {l : ι × Call} (ha : w.Admits l) (hs : w.Step l w') :
    w'.Grounded uuid := by
  obtain ⟨i, c⟩ := l
  refine ⟨h.sound.step ha hs, ?_⟩
  obtain rfl := hs
  -- who has spoken before has spoken afterwards, so everything can be said of the world afterwards
  have hspoke : ∀ v, w.Spoke v → (w.call i c).Spoke v := fun v => spoke_call
  have hafter := h.upholds.mono (fun n => hspoke n.uuid) fun e he => he.mono hspoke
  have hbrings := hafter.brings h.sound ha.2 fun e he => he.received
  refine hafter.call h.sound (hafter.views i) (fun n => id) ?_ ?_ ?_ ?_
  · intro t n n' _ hact hn
    exact hact.uuid ▸ hn
  · intro t n _ hact _ _ _
    exact hact.about hbrings
  · intro t time body gossip dest hmid ht hact hgossip hp
    -- the packet is on the network, so the node itself has spoken
    have hself : (w.call i c).Spoke t.uuid := by
      rw [hmid.uuid, h.sound.uuid]
      exact ⟨_, mem_network_of_packets hp, rfl⟩
    refine ⟨⟨i, rfl⟩, hact.about hbrings ht hself, fun g hg => ?_⟩
    obtain ⟨n, hn, rfl⟩ := hgossip g hg
    exact hn
  · intro e addr u a hact hb
    have he := hbrings.event hact
    have hbody := he.body
    rw [hb] at hbody
    exact ⟨he.header, hbody, he.gossip⟩

theorem grounded_of_run (h : Run Step Admits (World.init uuid now) w) : w.Grounded uuid :=
  h.preserves (fun _ _ _ ht ha hs => ht.step ha hs) ⟨.init uuid now, .init _ _ uuid now⟩

/-- Whoever is in a view, or in gossip, is a node of the cluster that has sent a packet, and a view
leaves out at least the node it belongs to. -/
theorem no_phantom_members [Fintype ι] (h : Run Step Admits (World.init uuid now) w) :
    (∀ i, ∀ n ∈ (w.nodes i).members, n.uuid ≠ uuid i ∧ (∃ j, uuid j = n.uuid) ∧
      ∃ p ∈ w.network, p.event.hdr.uuid = n.uuid) ∧
    (∀ p ∈ w.network, ∀ g ∈ p.event.gossip, (∃ j, uuid j = g.uuid) ∧
      ∃ q ∈ w.network, q.event.hdr.uuid = g.uuid) ∧
    ∀ i, (w.nodes i).viewSize < Fintype.card ι := by
  have hv := grounded_of_run h
  have hnode : ∀ v, w.Spoke v → ∃ j, uuid j = v := by
    rintro v ⟨p, hp, rfl⟩
    exact (hv.upholds.network p hp).header
  have hmember : ∀ i, ∀ n ∈ (w.nodes i).members, w.Spoke n.uuid :=
    fun i n hn => (hv.upholds.views i).of_mem (hv.sound.wf i) hn
  have hgossip : ∀ p ∈ w.network, ∀ g ∈ p.event.gossip, w.Spoke g.uuid :=
    fun p hp => (hv.upholds.network p hp).gossip
  refine ⟨fun i n hn => ⟨?_, hnode _ (hmember i n hn), hmember i n hn⟩, fun p hp g hg =>
    ⟨hnode _ (hgossip p hp g hg), hgossip p hp g hg⟩, fun i => ?_⟩
  · rw [← hv.sound.uuid i]
    exact (hv.sound.wf i).self_notMem n hn
  · exact ((hv.sound.wf i).viewSize_lt (hv.self_mem i) (hv.known_mem i)).trans_le Finset.card_image_le

theorem no_phantom_members_pair : (greeted.nodes false).viewSize = 1 ∧
    ∀ n ∈ (greeted.nodes false).members, ∃ j, pair j = n.uuid := by
  have hrun : Run Step Admits (World.init pair fun _ => 1000) greeted :=
    greeted_run ⟨rfl, trivial⟩ joined_admits
  exact ⟨by decide, fun n hn => ((no_phantom_members hrun).1 false n hn).2.1⟩

end World
end LibSwim
