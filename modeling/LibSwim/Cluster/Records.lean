import LibSwim.Cluster.Invariant
import LibSwim.Run.Heartbeat

/-! # Invariants of records

What a node holds of another is a record, kept as an entry of its view and passed on as gossip. Many a
property of records is kept by everything that an event does except for the probe that PING_REQ asks
for, which makes the target SUSPECT. For such a property only that probe and the heartbeat are left to
be looked at, and a heartbeat that comes too early is none.
-/

namespace LibSwim

open Foundations Program

/-- A property of records that is not lost by taking notice of the sender, by merging gossip that has
it, by an ACK or by a LEAVE for nobody, and that whoever comes in without gossip has. -/
structure Lasting (R : NodeInfo → Prop) : Prop where
  notice : ∀ (n : NodeState) (time : ℤ) (incarnation : ℕ), R n.info → R (n.notice time incarnation).info
  merge : ∀ (n : NodeState) (info : NodeInfo), info.uuid = n.uuid → R n.info → R info →
    R (n.merge info).info
  refute : ∀ n : NodeState, R n.info → R n.refute.info
  del : ∀ n : NodeState, n.uuid = Uuid.zero → R n.info → R n.del.info
  fresh : ∀ u time status addr, status = .alive ∨ status = .unknown → R ⟨u, time, 0, status, addr⟩

/-- Nobody asks for a probe of itself, and LEAVE speaks of nobody. -/
structure Event.Regular (e : Event) : Prop where
  pingReq : ∀ u, e.body = .pingReq u → u ≠ e.hdr.uuid
  leave : ∀ u, e.body = .leave u → u = Uuid.zero

/-- A regular event with `B` for its body and records `R` for its gossip. -/
structure Event.Tells (R : NodeInfo → Prop) (B : EventBody → Prop) (e : Event) : Prop where
  regular : e.Regular
  body : B e.body
  gossip : ∀ g ∈ e.gossip, R g

section

variable {R : NodeInfo → Prop} {B : EventBody → Prop} {now : ℤ} {s s₀ t : SWIM} {action : Action}
variable {n n' : NodeState} {env : Env} {body : EventBody} {dest : SockAddr} {e : Event}
variable {addr : SockAddr}

theorem SendAct.regular {u : Uuid} {time : ℤ} {incarnation : ℕ} {gossip : List NodeInfo}
    (h : SendAct s₀ t action body dest) (hmid : Midway s₀ t) (hu : s₀.uuid = u) :
    Event.Regular ⟨⟨u, time, incarnation⟩, body, gossip⟩ := by
  cases h with
  | request hm =>
    refine ⟨?_, by rintro _ ⟨⟩⟩
    rintro _ ⟨rfl⟩
    rw [← hu, ← hmid.uuid]
    exact hmid.wf.self_notMem _ hm
  | leave => exact ⟨by rintro _ ⟨⟩, by rintro _ ⟨rfl⟩; rfl⟩
  | answer | relay | indirect | probe | join => exact ⟨by rintro _ ⟨⟩, by rintro _ ⟨⟩⟩

theorem Event.Tells.received (h : e.Tells R B) : e.received.Tells R B :=
  ⟨⟨h.regular.pingReq, h.regular.leave⟩, h.body, h.gossip⟩

/-- An event keeps the property in every entry, if the probe it asks for does. -/
theorem NodeAct.lasting (hR : Lasting R) (h : NodeAct now s₀ t (.event e addr) n n')
    (he : e.Tells R B) (hn : R n.info) (hasked : e.body = .pingReq n.uuid → R (n.suspect addr).info) :
    R n'.info := by
  cases h with
  | notice _ _ _ => exact hR.notice _ _ _ hn
  | suspect hb => exact hasked hb
  | merge _ hg _ hu => exact hR.merge _ _ hu hn (he.gossip _ hg)
  | refute _ _ _ => exact hR.refute _ hn
  | del hb => exact hR.del _ (he.regular.leave _ hb) hn

/-- A second probe of the same node changes nothing. -/
theorem NodeAct.lasting_asked (h : NodeAct now s₀ t (.event e addr) n n') (he : e.Tells R B)
    (hasked : e.body = .pingReq n.uuid → R (n.suspect addr).info) (hb : e.body = .pingReq n'.uuid) :
    R (n'.suspect addr).info := by
  rw [h.uuid] at hb
  cases h with
  | notice _ hu _ => exact absurd hu (he.regular.pingReq _ hb)
  | suspect _ => exact hasked hb
  | merge hr _ _ _ =>
    rw [hb] at hr
    exact hr.elim
  | refute hb' _ _ | del hb' =>
    rw [hb] at hb'
    cases hb'

theorem InsertAct.lasting (hR : Lasting R) (h : InsertAct s₀ t action n)
    (ha : action.Brings (Event.Tells R B)) : R n.info := by
  cases h with
  | join _ hi _ | ackLast _ hi _ _ => exact hi ▸ hR.fresh _ _ _ _ (.inl rfl)
  | ack _ hi _ => exact hi ▸ hR.fresh _ _ _ _ (.inr rfl)
  | gossip _ hg _ => exact ha.gossip _ hg

end

namespace World

variable {ι : Type} {uuid : ι → Uuid} {now : ι → ℤ} {R : NodeInfo → Prop} {B : EventBody → Prop}
variable {S : NodeState → Prop} {w : World ι} {i : ι} {c : Call} [DecidableEq ι]

/-- A call that neither changes its node nor sends leaves nodes and network as they are. -/
theorem call_of_quiet (h : runStep c (w.nodes i) = (.ok (), w.nodes i, [])) :
    (w.call i c).nodes = w.nodes ∧ (w.call i c).network = w.network := by
  rw [call, h]
  exact ⟨Function.update_eq_self i w.nodes, List.append_nil w.network⟩

/-- An invariant has to be checked for those heartbeats only that are not skipped. -/
theorem Upholds.call_beating {P : NodeState → Prop} {Q : Event → Prop} (h : w.Upholds P Q)
    (hcall : (c.action = .heartbeat → (w.nodes i).Beats (c.env.time 0)) → (w.call i c).Upholds P Q) :
    (w.call i c).Upholds P Q := by
  by_cases hearly : c.action = .heartbeat ∧ ¬ (w.nodes i).Beats (c.env.time 0)
  · obtain ⟨env, action⟩ := c
    obtain ⟨rfl, hskip⟩ := hearly
    obtain ⟨hnodes, hnetwork⟩ := call_of_quiet (heartbeat_early hskip)
    exact ⟨fun j => hnodes ▸ h.views j, fun p hp => h.network p (hnetwork ▸ hp)⟩
  · exact hcall fun hheart => by_contra fun hb => hearly ⟨hheart, hb⟩

/-- All records have the property `R`, and the bodies of the events the property `B`. -/
abbrev Tells (R : NodeInfo → Prop) (B : EventBody → Prop) (w : World ι) : Prop :=
  w.Upholds (fun n => R n.info) (Event.Tells R B)

/-- A lasting property is kept by a call, if the probe that it asks for keeps it, if the entries that
a heartbeat finds are `S`, which keeps them from losing it, and if what is sent by a node whose records
have it is `B`. -/
theorem Tells.call (h : w.Tells R B) (hR : Lasting R) (hsound : w.Sound uuid) (ha : w.Admits (i, c))
    (hasked : ∀ e addr n, c.action = .event e addr → e.body = .pingReq n.uuid →
      (w.nodes i).find n.uuid = some n → R (n.suspect addr).info)
    (hstart : c.action = .heartbeat → (w.nodes i).Beats (c.env.time 0) → (w.nodes i).Holds S)
    (hsafe : ∀ t n n', NodeAct (c.env.time 0) (w.nodes i) t .heartbeat n n' → R n.info → S n →
      R n'.info ∧ S n')
    (hsend : ∀ t body dest, (∀ n ∈ t.members, R n.info) →
      SendAct (w.nodes i) t c.action body dest → B body)
    (hjoin : ∀ u a, B (.join u a)) : (w.call i c).Tells R B := by
  have hbrings : c.action.Brings (Event.Tells R B) := h.brings hsound ha.2 fun _ he => he.received
  apply Upholds.call_beating h
  intro hbeats
  -- an entry that is probed is still the one that the call has found
  let Kept : NodeState → Prop := fun n => R n.info ∧ (c.action = .heartbeat → S n) ∧
    ∀ e addr, c.action = .event e addr → e.body = .pingReq n.uuid → R (n.suspect addr).info
  have hfound : (w.nodes i).Holds Kept := by
    intro u n hn
    refine ⟨h.views i u n hn, fun hheart => hstart hheart (hbeats hheart) u n hn, ?_⟩
    intro e addr hevent hb
    exact hasked e addr n hevent hb (((hsound.wf i).find_eq_some.mp hn).2 ▸ hn)
  refine Upholds.call h hsound hfound (fun n hn => hn.1) ?_ ?_ ?_ ?_
  · rintro t n n' - hact ⟨hn, hbeat, hprobe⟩
    cases haction : c.action with
    | event e addr =>
      rw [haction] at hact
      have he := hbrings.event haction
      refine ⟨hact.lasting hR he hn (hprobe e addr haction), fun hheart => ?_, ?_⟩
      · cases haction.symm.trans hheart
      · rintro e' addr' hevent hb
        cases haction.symm.trans hevent
        exact hact.lasting_asked he (hprobe e addr haction) hb
    | heartbeat =>
      rw [haction] at hact
      obtain ⟨hn', hsafe'⟩ := hsafe t n n' hact hn (hbeat haction)
      refine ⟨hn', fun _ => hsafe', fun e addr hevent => ?_⟩
      cases haction.symm.trans hevent
    | join _ | leave =>
      rw [haction] at hact
      cases hact
  · intro t n _ hact _ _ _
    refine ⟨hact.lasting hR hbrings, fun hheart => ?_, fun e addr hevent hb => ?_⟩
    · rw [hheart] at hact
      cases hact
    · exact absurd ⟨e, addr, _, hevent, hb⟩ hact.not_isPingReq
  · intro t time body gossip dest hmid ht hact hgossip _
    refine ⟨hact.regular hmid (hsound.uuid i), hsend t body dest (fun n hn => (ht n hn).1) hact, ?_⟩
    intro g hg
    obtain ⟨n, hn, rfl⟩ := hgossip g hg
    exact hn.1
  · intro e addr u a hact _
    exact ⟨⟨by rintro _ ⟨⟩, by rintro _ ⟨⟩⟩, hjoin _ _, (hbrings.event hact).gossip⟩

theorem regular_of_run (h : Run Step Admits (World.init uuid now) w) :
    w.Upholds (fun _ => True) Event.Regular := by
  let Inv : World ι → Prop := fun w => w.Sound uuid ∧ w.Tells (fun _ => True) fun _ => True
  have hR : Lasting fun _ => True :=
    ⟨fun _ _ _ => id, fun _ _ _ _ => id, fun _ => id, fun _ _ => id, fun _ _ _ _ _ => trivial⟩
  have hstep : ∀ w l w', Inv w → w.Admits l → w.Step l w' → Inv w' := by
    rintro w ⟨i, c⟩ w' ⟨hsound, htells⟩ ha hs
    have hsound' := hsound.step ha hs
    obtain rfl := hs
    exact ⟨hsound', htells.call hR hsound ha (S := fun _ => True) (fun _ _ _ _ _ _ => trivial)
      (fun _ _ _ _ _ => trivial) (fun _ _ _ _ _ _ => ⟨trivial, trivial⟩) (fun _ _ _ _ _ => trivial)
      fun _ _ => trivial⟩
  have hrun : Inv w := h.preserves hstep ⟨.init uuid now, .init _ _ uuid now⟩
  exact hrun.2.mono (fun _ => id) fun e he => he.regular

end World
end LibSwim
