import LibSwim.Cluster.World

/-! # Invariants of the cluster

An invariant that speaks of single entries and of single packets is kept by a call if the assignments
to entries keep it, the insertions establish it, and the packets sent from entries that satisfy it
satisfy it. These are obligations about the effects of one call at one node; that the other nodes and
the packets already sent are not touched is settled here.
-/

namespace LibSwim

open Foundations

/-- The event that is processed, if there is one, satisfies `Q`. -/
def Action.Brings (Q : Event → Prop) : Action → Prop
  | .event e _ => Q e
  | .heartbeat | .join _ | .leave => True

theorem Action.Brings.event {Q : Event → Prop} {action : Action} {e : Event} {addr : SockAddr}
    (h : action.Brings Q) (ha : action = .event e addr) : Q e := by
  subst ha
  exact h

namespace World

variable {ι : Type} {P P' : NodeState → Prop} {Q Q' : Event → Prop} {w : World ι}

/-- Every entry of every view satisfies `P`, every event that was sent satisfies `Q`. -/
structure Upholds (P : NodeState → Prop) (Q : Event → Prop) (w : World ι) : Prop where
  views : ∀ i, (w.nodes i).Holds P
  network : ∀ p ∈ w.network, Q p.event

theorem Upholds.init (P : NodeState → Prop) (Q : Event → Prop) (uuid : ι → Uuid) (now : ι → ℤ) :
    (World.init uuid now).Upholds P Q where
  views i := SWIM.holds_init (uuid i) (now i) P
  network p hp := by cases hp

theorem Upholds.mono (h : w.Upholds P Q) (hP : ∀ n, P n → P' n) (hQ : ∀ e, Q e → Q' e) :
    w.Upholds P' Q' where
  views i v n hn := hP n (h.views i v n hn)
  network p hp := hQ _ (h.network p hp)

variable {uuid : ι → Uuid}

/-- What is processed is what was sent, up to the time on the wire. -/
theorem Upholds.brings (h : w.Upholds P Q) (hsound : w.Sound uuid) {action : Action}
    (ha : action.Possible w.network) (hreceived : ∀ e, Q e → Q e.received) : action.Brings Q := by
  cases action with
  | event e addr =>
    obtain ⟨-, p, hp, harr⟩ := ha
    obtain rfl := harr.eq (hsound.network p hp)
    exact hreceived _ (h.network p hp)
  | heartbeat | join _ | leave => trivial

variable [DecidableEq ι] {i : ι} {c : Call}

/-- The obligations of an invariant for one call. During the call the entries may satisfy something
stronger, `P'`, that need not outlive it. -/
theorem Upholds.call (h : w.Upholds P Q) (hsound : w.Sound uuid)
    (hstart : (w.nodes i).Holds P') (hP : ∀ n, P' n → P n)
    (hnode : ∀ t n n', Midway (w.nodes i) t →
      NodeAct (c.env.time 0) (w.nodes i) t c.action n n' → P' n → P' n')
    (hinsert : ∀ t n, Midway (w.nodes i) t → InsertAct (w.nodes i) t c.action n →
      n.uuid ≠ (w.nodes i).uuid → (w.nodes i).find n.uuid = none →
      Inherits c.env (w.nodes i) n → P' n)
    (hsend : ∀ t time body gossip dest, Midway (w.nodes i) t → (∀ n ∈ t.members, P' n) →
      SendAct (w.nodes i) t c.action body dest → (∀ g ∈ gossip, ∃ n, P' n ∧ n.info = g) →
      ⟨⟨⟨uuid i, time, (w.nodes i).incarnation⟩, body, gossip⟩, dest⟩ ∈ w.packets i c →
      Q ⟨⟨uuid i, time, (w.nodes i).incarnation⟩, body, gossip⟩)
    (hforward : ∀ e addr u a, c.action = .event e addr → e.body = .join u a →
      Q { e with body := .join u (fillJoinAddr a addr) }) :
    (w.call i c).Upholds P Q := by
  have hreached := (hsound.account i c).reached
  obtain ⟨hview, -⟩ := hreached.holds hstart hnode hinsert
  refine ⟨forall_call (P := fun _ s => s.Holds P) (fun v n hn => hP n (hview v n hn)) h.views,
    List.forall_mem_append.mpr ⟨h.network, fun p hp => ?_⟩⟩
  obtain ⟨t, u, qs, hmid, ht, heffect, hq⟩ := hreached.effect_of_mem hstart hnode hinsert hp
  cases heffect with
  | node | insert | incarnate | idle => cases hq
  | send hact hinc hgossip _ =>
    obtain rfl := List.mem_singleton.mp hq
    have hmem : ∀ n ∈ t.members, P' n := fun n hn => ht.of_mem hmid.wf hn
    rw [hmid.uuid, hsound.uuid, hinc] at hp ⊢
    refine hsend t _ _ _ _ hmid hmem hact (fun g hg => ?_) hp
    obtain ⟨n, hn, rfl⟩ := hgossip g hg
    exact ⟨n, hmem n hn, rfl⟩
  | forward hact hb _ =>
    obtain rfl := List.mem_singleton.mp hq
    exact hforward _ _ _ _ hact hb

end World
end LibSwim
