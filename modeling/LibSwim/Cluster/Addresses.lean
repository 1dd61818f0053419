import LibSwim.Cluster.Routing
import LibSwim.Run.Frame
import LibSwim.Run.Witness

/-! # Addresses across the cluster

A node learns the address of another from a JOIN or an ACK that comes from it, from a JOIN that was
sent on, and from gossip. An ACK that is relayed does not come from the node it is about; it is sent
to a node that has asked for a probe, and so has the node in its view already. The relay goes wrong
when the entry it is read from is not the one the ACK is about, or holds a witness that no one put
there.
-/

namespace LibSwim

open Foundations

/-- An ACK for a node that is not known, where the greatest member is a suspect with a witness: the
ACK is relayed to that witness. -/
def Event.Misrelayed (s : SWIM) (e : Event) : Prop :=
  ∃ m ∈ s.members, (∀ n ∈ s.members, n.uuid ≤ m.uuid) ∧ m.info.status = .suspect ∧
    swimNodeHasWitness m ∧
    ∃ u, e.body = .ack u ∧ u ≠ s.uuid ∧ (∀ n ∈ s.members, n.uuid ≠ u) ∧ u < m.uuid

namespace Routed

variable {ι : Type} (uuid : ι → Uuid) (addr : ι → SockAddr)

/-- `a` is the address of the node whose UUID is `u`. -/
def IsAddress (u : Uuid) (a : SockAddr) : Prop := (∃ j, uuid j = u) ∧ ∀ j, uuid j = u → a = addr j

/-- The node at address `a`, if there is one, has `u` in its view. -/
def Knows (r : Routed ι) (a : SockAddr) (u : Uuid) : Prop :=
  ∀ j, addr j = a → (r.nodes j).find u ≠ none

/-- What a packet from node `j` may be about: a JOIN without an address is about its sender, an ACK
is about its sender or goes to a node that knows whom it is about, and a PING_REQ is about a node
that its sender knows. -/
def Trusted (r : Routed ι) (j : ι) (p : Packet) : Prop :=
  match p.event.body with
  | .join u a => a.addrlen = 0 ∧ uuid j = u ∨ 0 < a.addrlen ∧ IsAddress uuid addr u a
  | .ack u => uuid j = u ∨ r.Knows addr p.dest u
  | .pingReq u => (r.nodes j).find u ≠ none
  | .ping | .leave _ => True

/-- What is recorded for a member: its address, and a witness that has it in its view. -/
def Entry (r : Routed ι) (n : NodeState) : Prop :=
  IsAddress uuid addr n.uuid n.info.addr ∧ (swimNodeHasWitness n → r.Knows addr n.witness n.uuid)

/-- All addresses in views and in packets are those of the nodes they stand for. -/
structure Truthful (r : Routed ι) : Prop where
  sound : r.toWorld.Sound uuid
  blank : ∀ i, (r.nodes i).BlankSpare
  views : ∀ i, (r.nodes i).Holds (r.Entry uuid addr)
  gossip : ∀ q ∈ r.flight, ∀ g ∈ q.2.event.gossip, IsAddress uuid addr g.uuid g.addr
  bodies : ∀ q ∈ r.flight, r.Trusted uuid addr q.1 q.2

/-- No ACK is misrelayed, and the slots that `realloc` adds hold no witness. -/
def Careful (r : Routed ι) (l : ι × Call) : Prop :=
  l.2.env.BlankSlots ∧ ∀ e a, l.2.action = .event e a → ¬ e.Misrelayed (r.nodes l.1)

variable {uuid addr} {r : Routed ι} {i j : ι} {c : Call} {s₀ t : SWIM} {action : Action}
variable {n n' : NodeState} {u : Uuid} {a : SockAddr} {p : Packet}

theorem isAddress_self (hu : Function.Injective uuid) (j : ι) :
    IsAddress uuid addr (uuid j) (addr j) := ⟨⟨j, rfl⟩, fun k hk => by rw [hu hk]⟩

/-! ## One call -/

/-- What is known of the event that node `i` receives. -/
structure Genuine (uuid : ι → Uuid) (addr : ι → SockAddr) (r : Routed ι) (i : ι) (e : Event)
    (a : SockAddr) : Prop where
  gossip : ∀ g ∈ e.gossip, IsAddress uuid addr g.uuid g.addr
  join : ∀ u ja, e.body = .join u ja → 0 < (fillJoinAddr ja a).addrlen ∧
    IsAddress uuid addr u (fillJoinAddr ja a)
  ack : ∀ u, e.body = .ack u → IsAddress uuid addr u a ∨ (r.nodes i).find u ≠ none
  pingReq : ∀ u, e.body = .pingReq u → r.Knows addr a u

theorem Truthful.genuine (h : r.Truthful uuid addr) (hu : Function.Injective uuid)
    (ha : Function.Injective addr) (hpos : ∀ j, 0 < (addr j).addrlen) {e : Event}
    (hr : r.Receives addr i e a) : Genuine uuid addr r i e a := by
  obtain ⟨j, p, hp, hdest, rfl, harr⟩ := hr
  obtain rfl := harr.eq (h.sound.network p (mem_network hp))
  have hbody := h.bodies _ hp
  refine ⟨h.gossip _ hp, fun u ja hb => ?_, fun u hb => ?_, fun u hb => ?_⟩
  · have hb' : p.event.body = .join u ja := hb
    rw [Trusted, hb'] at hbody
    rcases hbody with ⟨hzero, rfl⟩ | ⟨hlen, htrue⟩
    · rw [fillJoinAddr, if_pos hzero]
      exact ⟨hpos j, isAddress_self hu j⟩
    · rw [fillJoinAddr, if_neg (by omega)]
      exact ⟨hlen, htrue⟩
  · have hb' : p.event.body = .ack u := hb
    rw [Trusted, hb'] at hbody
    rcases hbody with rfl | hknows
    · exact .inl (isAddress_self hu j)
    · exact .inr (hknows i hdest.symm)
  · have hb' : p.event.body = .pingReq u := hb
    rw [Trusted, hb'] at hbody
    intro k hk
    rw [ha hk]
    exact hbody

/-- What holds of every entry during a call of node `i`. In an ACK a suspect with a witness was one
before the call; a heartbeat has only the members it began with. -/
def Kept (uuid : ι → Uuid) (addr : ι → SockAddr) (r : Routed ι) (i : ι) (action : Action)
    (n : NodeState) : Prop :=
  r.Entry uuid addr n ∧
    (∀ e a u, action = .event e a → e.body = .ack u → swimNodeHasWitness n →
      n.info.status = .suspect → ∃ m, (r.nodes i).find n.uuid = some m ∧
        swimNodeHasWitness m ∧ m.info.status = .suspect) ∧
    (action = .heartbeat → (r.nodes i).find n.uuid ≠ none)

section

variable {now : ℤ}

theorem Kept.rewrite (hk : Kept uuid addr r i action n) (hu : n'.uuid = n.uuid)
    (ha : n'.info.addr = n.info.addr) (hw : swimNodeHasWitness n' → n'.witness = n.witness)
    (hs : ∀ e a u, action = .event e a → e.body = .ack u → swimNodeHasWitness n' →
      n'.info.status = .suspect → n.info.status = .suspect) : Kept uuid addr r i action n' := by
  obtain ⟨⟨htrue, hwitness⟩, hack, hbeat⟩ := hk
  have hsame : swimNodeHasWitness n' → swimNodeHasWitness n := by
    intro h
    rw [swimNodeHasWitness, ← hw h]
    exact h
  refine ⟨⟨?_, fun h => ?_⟩, fun e a u hact hb h hst => ?_, ?_⟩
  · rw [hu, ha]
    exact htrue
  · rw [hw h, hu]
    exact hwitness (hsame h)
  · rw [hu]
    exact hack e a u hact hb (hsame h) (hs e a u hact hb h hst)
  · rwa [hu]

theorem suspect_of_notice {time : ℤ} {incarnation : ℕ}
    (h : (n.notice time incarnation).info.status = .suspect) : n.info.status = .suspect := by
  rcases lt_trichotomy incarnation n.info.incarnation with hlt | heq | hgt
  · rwa [NodeState.notice_stale hlt] at h
  · have hcases : _ ∨ n.notice time incarnation = n ∧ _ := (NodeState.notice_same heq).2
    rcases hcases with halive | ⟨hsame, -⟩
    · rw [halive] at h
      cases h
    · rwa [hsame] at h
  · rw [NodeState.notice_newer hgt] at h
    cases h

theorem Kept.nodeAct (hk : Kept uuid addr r i action n)
    (h : NodeAct now (r.nodes i) t action n n')
    (hg : ∀ e a, action = .event e a → Genuine uuid addr r i e a) :
    Kept uuid addr r i action n' := by
  have haddr : n'.info.addr = n.info.addr := (h.grownTo ⟨rfl, le_rfl⟩).1
  have huuid := h.uuid
  cases h with
  | notice _ _ _ =>
    exact hk.rewrite huuid haddr (fun _ => n.notice_witness _ _) fun _ _ _ _ _ _ => suspect_of_notice
  | @suspect e a _ hb =>
    refine ⟨⟨?_, fun _ => (hg e a rfl).pingReq _ hb⟩, ?_, by simp⟩
    · exact hk.1.1
    · rintro _ _ u ⟨⟩ hb'
      rw [hb] at hb'
      cases hb'
  | @merge _ _ _ g _ _ _ _ =>
    rcases n.merge_witness g with hnone | ⟨hsame, hstatus⟩
    · exact hk.rewrite huuid haddr (fun hw => absurd hw (not_hasWitness_of_none hnone))
        fun _ _ _ _ _ hw => absurd hw (not_hasWitness_of_none hnone)
    · exact hk.rewrite huuid haddr (fun _ => hsame) fun _ _ _ _ _ _ hs => hstatus ▸ hs
  | refute _ _ _ =>
    exact hk.rewrite huuid haddr (fun hw => absurd hw (not_hasWitness_of_none rfl))
      fun _ _ _ _ _ hw => absurd hw (not_hasWitness_of_none rfl)
  | del _ =>
    refine hk.rewrite huuid haddr (fun _ => rfl) ?_
    rintro _ _ _ _ _ _ ⟨⟩
  | suspectDead _ _ | declareDead _ _ =>
    refine hk.rewrite huuid haddr (fun _ => rfl) ?_
    rintro _ _ _ ⟨⟩

theorem kept_insertAct (h : InsertAct (r.nodes i) t action n)
    (hg : ∀ e a, action = .event e a → Genuine uuid addr r i e a)
    (hfresh : (r.nodes i).find n.uuid = none) (hw : ¬ swimNodeHasWitness n) :
    Kept uuid addr r i action n := by
  have htrue : IsAddress uuid addr n.uuid n.info.addr := by
    cases h with
    | join hb hi _ =>
      rw [hi]
      exact ((hg _ _ rfl).join _ _ hb).2
    | ack hb hi _ | ackLast hb hi _ _ =>
      rw [hi]
      exact ((hg _ _ rfl).ack _ hb).resolve_right (absurd hfresh)
    | gossip _ hmem _ => exact (hg _ _ rfl).gossip _ hmem
  refine ⟨⟨htrue, fun h => absurd h hw⟩, fun _ _ _ _ _ h => absurd h hw, ?_⟩
  rintro rfl
  cases h

end

/-- The entries of node `i` keep what they are to keep through a careful call, and at every moment
at which a packet is sent. -/
theorem Truthful.during (h : r.Truthful uuid addr) (hc : r.Careful (i, c))
    (hg : ∀ e a, c.action = .event e a → Genuine uuid addr r i e a) :
    (r.toWorld.result i c).Holds (Kept uuid addr r i c.action) ∧
      ∀ p ∈ r.toWorld.packets i c, ∃ t u qs, Midway (r.nodes i) t ∧
        t.Holds (Kept uuid addr r i c.action) ∧ Effect c.env (r.nodes i) c.action t u qs ∧ p ∈ qs := by
  have hreached := (h.sound.account i c).reached
  have hstart : (r.nodes i).Holds (Kept uuid addr r i c.action) := by
    intro v n hn
    have hn' : (r.nodes i).find n.uuid = some n :=
      (h.sound.wf i).mem_iff_find.mp ((h.sound.wf i).find_eq_some.mp hn).1
    exact ⟨h.views i v n hn, fun _ _ _ _ _ hw hs => ⟨n, hn', hw, hs⟩, fun _ => by simp [hn']⟩
  have hnode : ∀ t n n', Midway (r.nodes i) t →
      NodeAct (c.env.time 0) (r.nodes i) t c.action n n' → Kept uuid addr r i c.action n →
      Kept uuid addr r i c.action n' := fun _ _ _ _ hact hk => hk.nodeAct hact hg
  have hinsert : ∀ t n, Midway (r.nodes i) t → InsertAct (r.nodes i) t c.action n →
      n.uuid ≠ (r.nodes i).uuid → (r.nodes i).find n.uuid = none →
      Inherits c.env (r.nodes i) n → Kept uuid addr r i c.action n :=
    fun _ _ _ hact _ hfresh hw =>
      kept_insertAct hact hg hfresh (not_hasWitness_of_leftover hw (h.blank i) hc.1)
  exact ⟨(hreached.holds hstart hnode hinsert).1,
    fun p hp => hreached.effect_of_mem hstart hnode hinsert hp⟩

theorem Truthful.init (uuid : ι → Uuid) (addr : ι → SockAddr) (now : ι → ℤ) :
    (Routed.init uuid now).Truthful uuid addr where
  sound := World.Sound.init uuid now
  blank i := init_blankSpare (uuid i) (now i)
  views i := SWIM.holds_init (uuid i) (now i) _
  gossip := by simp [Routed.init]
  bodies := by simp [Routed.init]

variable [DecidableEq ι]

theorem Knows.call (hs : r.toWorld.Sound uuid) (h : r.Knows addr a u) (i : ι) (c : Call) :
    (r.call i c).Knows addr a u := fun j hj => hs.find_call (h j hj)

theorem Entry.call (hs : r.toWorld.Sound uuid) (h : r.Entry uuid addr n) (i : ι) (c : Call) :
    (r.call i c).Entry uuid addr n := ⟨h.1, fun hw => (h.2 hw).call hs i c⟩

theorem Trusted.call (hs : r.toWorld.Sound uuid) (h : r.Trusted uuid addr j p) (i : ι) (c : Call) :
    (r.call i c).Trusted uuid addr j p := by
  unfold Trusted at h ⊢
  split at h
  · exact h
  · exact h.imp_right fun hk => hk.call hs i c
  · exact hs.find_call h
  all_goals trivial

/-- What node `i` sends when it builds an event. -/
theorem Truthful.trusted_send (h : r.Truthful uuid addr) (hc : r.Careful (i, c))
    (ht : Midway (r.nodes i) t) (hk : t.Holds (Kept uuid addr r i c.action))
    (hs : SendAct (r.nodes i) t c.action p.event.body p.dest) :
    (r.call i c).Trusted uuid addr i p := by
  have hself : uuid i = t.uuid := (ht.uuid.trans (h.sound.uuid i)).symm
  have hentry : ∀ n ∈ t.members, Kept uuid addr r i c.action n :=
    fun n hn => hk.of_mem ht.wf hn
  obtain ⟨env, action⟩ := c
  obtain ⟨event, dest⟩ := p
  simp only [Trusted] at hs hk hentry ⊢
  generalize event.body = body at hs ⊢
  cases hs with
  | answer _ => exact .inl hself
  | @relay e a u node hb hn htarget hst hw =>
    have hnode := hentry node hn
    rcases htarget with rfl | ⟨hfresh, hne, hlt, hmax⟩
    · exact .inr ((hnode.1.2 hw).call h.sound i _)
    · -- the pointer designates the greatest member, which is a suspect with a witness
      obtain ⟨m, hm, hmw, hms⟩ := hnode.2.1 e a u rfl hb hw hst
      obtain ⟨hmem, hmu⟩ := (h.sound.wf i).find_eq_some.mp hm
      refine absurd ⟨m, hmem, ?_, hms, hmw, u, hb, hne, lookup_eq_none.mp hfresh, hmu ▸ hlt⟩
        (hc.2 e a rfl)
      exact hmu ▸ ht.uuid_le (h.sound.wf i) hmax
  | request htarget _ _ _ =>
    exact h.sound.find_call (i := i) (c := ⟨env, .heartbeat⟩) ((hentry _ htarget).2.2 rfl)
  | join => exact .inl ⟨rfl, hself⟩
  | indirect | probe | leave => trivial

/-- A packet that node `i` sends in a careful call. -/
theorem Truthful.sent (h : r.Truthful uuid addr) (hc : r.Careful (i, c))
    (hg : ∀ e a, c.action = .event e a → Genuine uuid addr r i e a)
    (hp : p ∈ r.toWorld.packets i c) :
    (∀ g ∈ p.event.gossip, IsAddress uuid addr g.uuid g.addr) ∧
      (r.call i c).Trusted uuid addr i p := by
  obtain ⟨t, t', qs, ht, hk, he, hq⟩ := (h.during hc hg).2 p hp
  cases he with
  | send hs _ hgossip _ =>
    obtain rfl := List.mem_singleton.mp hq
    refine ⟨fun g hgp => ?_, h.trusted_send hc ht hk hs⟩
    obtain ⟨n, hn, rfl⟩ := hgossip g hgp
    exact (hk.of_mem ht.wf hn).1.1
  | forward hact hb _ =>
    obtain rfl := List.mem_singleton.mp hq
    have hgen := hg _ _ hact
    exact ⟨hgen.gossip, .inr (hgen.join _ _ hb)⟩
  | node | insert | incarnate | idle => cases hq

theorem Truthful.step (h : r.Truthful uuid addr) (hu : Function.Injective uuid)
    (ha : Function.Injective addr)
    (hlen : ∀ j, 0 < (addr j).addrlen ∧ (addr j).addrlen ≤ sizeofSockaddrStorage)
    (hadm : r.Admits addr (i, c)) (hc : r.Careful (i, c)) : (r.call i c).Truthful uuid addr := by
  have hg : ∀ e a, c.action = .event e a → Genuine uuid addr r i e a :=
    fun e a hact => h.genuine hu ha (fun j => (hlen j).1) (hadm.2 e a hact)
  have hviews : ∀ j, ((r.call i c).nodes j).BlankSpare ∧
      ((r.call i c).nodes j).Holds (r.Entry uuid addr) := by
    intro j
    rw [call_nodes, Function.update_apply]
    split_ifs
    · exact ⟨(h.sound.account i c).blankSpare (h.blank i) hc.1,
        fun v n hn => ((h.during hc hg).1 v n hn).1⟩
    · exact ⟨h.blank j, h.views j⟩
  refine ⟨sound_call h.sound hadm fun j => (hlen j).2, fun j => (hviews j).1,
    fun j v n hn => ((hviews j).2 v n hn).call h.sound i c, fun q hq => ?_, fun q hq => ?_⟩
  · rcases mem_flight_call.mp hq with hq | ⟨-, hp⟩
    · exact h.gossip q hq
    · exact (h.sent hc hg hp).1
  · rcases mem_flight_call.mp hq with hq | ⟨hi, hp⟩
    · exact (h.bodies q hq).call h.sound i c
    · rw [hi]
      exact (h.sent hc hg hp).2

/-- In every state that a cluster reaches by careful calls, the address recorded for a UUID in a view,
in gossip, and in a JOIN that carries one is the address of the node with that UUID. -/
theorem addresses_true {now : ι → ℤ} (hu : Function.Injective uuid) (ha : Function.Injective addr)
    (hlen : ∀ j, 0 < (addr j).addrlen ∧ (addr j).addrlen ≤ sizeofSockaddrStorage)
    (h : Run Step (fun r l => r.Admits addr l ∧ r.Careful l) (Routed.init uuid now) r) :
    (∀ i, ∀ n ∈ (r.nodes i).members, IsAddress uuid addr n.uuid n.info.addr) ∧
      (∀ q ∈ r.flight, ∀ g ∈ q.2.event.gossip, IsAddress uuid addr g.uuid g.addr) ∧
      ∀ q ∈ r.flight, ∀ u a, q.2.event.body = .join u a → 0 < a.addrlen →
        IsAddress uuid addr u a := by
  have htrue : r.Truthful uuid addr := h.preserves
    (fun t l t' ht hl hs => hs ▸ ht.step hu ha hlen hl.1 hl.2) (.init uuid addr now)
  refine ⟨fun i n hn => ?_, htrue.gossip, fun q hq u a hb hpos => ?_⟩
  · exact ((htrue.views i).of_mem (htrue.sound.wf i) hn).1
  · have hbody := htrue.bodies q hq
    rw [Trusted, hb] at hbody
    rcases hbody with ⟨hzero, -⟩ | ⟨-, haddr⟩
    · omega
    · exact haddr

/-! ## Eleven nodes -/

def crowd (i : Fin 11) : Uuid := .ofByte (UInt8.ofNat (i.val + 1))

def crowdAddr (i : Fin 11) : SockAddr := ⟨[UInt8.ofNat (i.val + 1)]⟩

/-- Node `i` asks node `j` to join. -/
def asks (i j : Fin 11) (now : ℤ) : Fin 11 × Call := (i, ⟨steadyEnv now, .join (crowdAddr j)⟩)

/-- Node `i` hears from node `j`. -/
def hears (i j : Fin 11) (now : ℤ) (e : Event) : Fin 11 × Call :=
  (i, ⟨steadyEnv now, .event e (crowdAddr j)⟩)

/-- The event of node `i` at `time`. -/
def saying (i : Fin 11) (time : ℤ) (body : EventBody) (gossip : List NodeInfo) : Event :=
  ⟨⟨crowd i, time, 0⟩, body, gossip⟩

def recorded (i : Fin 11) (time : ℤ) (status : Status) : NodeInfo :=
  ⟨crowd i, time, 0, status, crowdAddr i⟩

/-- The JOIN that node `i` sends. -/
def joining (i : Fin 11) (time : ℤ) : Event := saying i time (.join (crowd i) .none) []

theorem crowd_injective : Function.Injective crowd := by
  unfold Function.Injective
  decide

theorem crowdAddr_injective : Function.Injective crowdAddr := by
  unfold Function.Injective
  decide

theorem crowdAddr_addrlen (j : Fin 11) :
    0 < (crowdAddr j).addrlen ∧ (crowdAddr j).addrlen ≤ sizeofSockaddrStorage :=
  ⟨Nat.one_pos, (by decide : 1 ≤ sizeofSockaddrStorage)⟩

/-- Node 0 joins at node 9. -/
theorem addresses_true_joined :
    let r := (Routed.init crowd fun _ => 1000).play [asks 0 9 1050, hears 9 0 1050 (joining 0 1050)]
    (r.nodes 9).viewSize = 1 ∧
      ∀ n ∈ (r.nodes 9).members, IsAddress crowd crowdAddr n.uuid n.info.addr := by
  intro r
  let r₀ : Routed (Fin 11) := Routed.init crowd fun _ => 1000
  have hready : r₀.Ready crowdAddr (asks 0 9 1050) := by decide +kernel
  have hready' : (r₀.call 0 (asks 0 9 1050).2).Ready crowdAddr (hears 9 0 1050 (joining 0 1050)) := by
    decide +kernel
  have hsound : r₀.toWorld.Sound crowd := World.Sound.init crowd fun _ => 1000
  have hadm := hready.admits hsound
  have hadm' := hready'.admits (sound_call hsound hadm fun j => (crowdAddr_addrlen j).2)
  have hcalm : ∀ s, ¬ (joining 0 1050).Misrelayed s := by
    rintro s ⟨_, _, _, _, _, _, ⟨⟩, _⟩
  have hrun : Run Step (fun r l => r.Admits crowdAddr l ∧ r.Careful l) r₀ r :=
    ((Run.refl r₀).tail ⟨hadm, steadyEnv_blankSlots 1050, by rintro _ _ ⟨⟩⟩ rfl).tail
      ⟨hadm', steadyEnv_blankSlots 1050, by rintro _ _ ⟨⟩; exact hcalm _⟩ rfl
  exact ⟨by decide +kernel,
    (addresses_true crowd_injective crowdAddr_injective crowdAddr_addrlen hrun).1 9⟩

/-- Node 0 joins at node 9, node 10 joins at node 0 and is not heard of for a minute; node 0 asks
node 9 to probe it. Seven more nodes join at node 9, so that its packets carry ten random entries.
Node 9 asks node 1, and takes its ACK for one of node 10. -/
def misrelay : List (Fin 11 × Call) :=
  [asks 0 9 1050, hears 9 0 1050 (joining 0 1050),
    hears 0 9 1050 (saying 9 1050 (.ack (crowd 9)) [recorded 0 1050 .alive]),
    asks 10 0 1000, hears 0 10 1050 (joining 10 1000),
    hears 9 0 1050 (saying 10 1000 (.join (crowd 10) (crowdAddr 10)) []),
    (0, heartbeatCall 1070),
    hears 9 0 1070 (saying 0 1070 (.pingReq (crowd 10))
      [recorded 9 1050 .alive, recorded 10 1000 .suspect])] ++
  ([2, 3, 4, 5, 6, 7, 8].flatMap fun k => [asks k 9 1070, hears 9 k 1070 (joining k 1070)]) ++
  [asks 9 1 1070, hears 1 9 1070 (joining 9 1070),
    hears 9 1 1070 (saying 1 1070 (.ack (crowd 1)) [recorded 9 1070 .alive]),
    hears 0 9 1070 (saying 9 1070 (.ack (crowd 1)) (List.replicate 10 (recorded 0 1070 .alive)))]

/-- Node 0 records the address of node 9 for node 1. -/
theorem address_misrecorded :
    let r := (Routed.init crowd fun _ => 1000).play misrelay
    Function.Injective crowd ∧ Function.Injective crowdAddr ∧
      Run Step (Admits crowdAddr) (Routed.init crowd fun _ => 1000) r ∧ r.running 0 = true ∧
      ∃ n ∈ (r.nodes 0).members, n.uuid = crowd 1 ∧ n.info.addr = crowdAddr 9 := by
  intro r
  obtain ⟨hplay, hrunning, hrecord⟩ : Playable crowdAddr (Routed.init crowd fun _ => 1000) misrelay ∧
      r.running 0 = true ∧ ∃ n ∈ (r.nodes 0).members, n.uuid = crowd 1 ∧
        n.info.addr = crowdAddr 9 := by decide +kernel
  have hrun := run_of_playable (fun j => (crowdAddr_addrlen j).2) hplay
    (World.Sound.init crowd fun _ => 1000) (Run.refl _)
  exact ⟨crowd_injective, crowdAddr_injective, hrun, hrunning, hrecord⟩

end Routed
end LibSwim
