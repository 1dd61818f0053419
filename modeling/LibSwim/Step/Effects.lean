import LibSwim.Model.Process
import LibSwim.View.WellFormed
import Mathlib.Logic.Function.Iterate

/-! # What a step can do

Every call of the public interface changes the node by a sequence of elementary effects: an
entry is rewritten, an entry is inserted, the incarnation is raised, a packet is sent, or
nothing happens that shows in the view. Each effect is listed with everything that must hold
for the code to perform it, so that an invariant of the program is checked once against this
list. A call that does not return has a cause, which is listed too.
-/

namespace LibSwim

open Foundations

/-- The calls that make up a run of a node. -/
inductive Action where
  | event (event : Event) (addr : SockAddr)
  | heartbeat
  | join (addr : SockAddr)
  | leave

def Action.program : Action → SwimM Unit
  | .event e addr => swimProcessEvent e addr
  | .heartbeat => swimClusterHeartbeat
  | .join addr => swimClusterJoin addr
  | .leave => swimClusterLeave

/-- Every allocation succeeds. -/
def Env.Allocates (env : Env) : Prop :=
  (∀ n, env.malloc n = true) ∧ (∀ n, env.reallocOrder n = true) ∧
    ∀ n, (env.reallocView n).isSome = true

/-- The handlers that look at the gossip of an event, at a node with UUID `self`. -/
def EventBody.ReadsGossip (self : Uuid) : EventBody → Prop
  | .ping => True
  | .ack u => u ≠ self
  | .pingReq _ | .join _ _ | .leave _ => False

instance (self : Uuid) (body : EventBody) : Decidable (body.ReadsGossip self) := by
  cases body <;> unfold EventBody.ReadsGossip <;> infer_instance

/-- The entries of a gossip that say the node `self` is suspected. -/
def suspicions (self : Uuid) (gossip : List NodeInfo) : ℕ :=
  gossip.countP fun g => g.uuid = self ∧ g.status = .suspect

/-- How often a call that runs to its end raises the incarnation. -/
def Action.raises (s₀ : SWIM) : Action → ℕ
  | .event e _ => if e.body.ReadsGossip s₀.uuid then suspicions s₀.uuid e.gossip else 0
  | .heartbeat | .join _ | .leave => 0

/-- The incarnation after `k` suspicions. -/
def SWIM.raised (s₀ : SWIM) (k : ℕ) : ℕ := (fun i => (i + 1) % 2 ^ 32)^[k] s₀.incarnation

theorem SWIM.raised_eq {s₀ : SWIM} {k : ℕ} (h : s₀.incarnation + k < 2 ^ 32) :
    s₀.raised k = s₀.incarnation + k := by
  induction k with
  | zero => rfl
  | succ k ih =>
    have hk := ih (by omega)
    rw [raised] at hk ⊢
    rw [Function.iterate_succ_apply', hk]
    omega

/-- The handlers that answer the sender with an ACK for the node itself. -/
def EventBody.Answered : EventBody → Prop
  | .ping | .join _ _ | .leave _ => True
  | .ack _ | .pingReq _ => False

section

variable (now : ℤ) (s₀ t : SWIM)

/-- The pointer that an ACK for `u` acts on: the entry for `u`, or, when `u` was not a member
at the start of the call, the entry with the greatest UUID. -/
def AckTarget (u : Uuid) (node : NodeState) : Prop :=
  node.uuid = u ∨ s₀.find u = none ∧ u ≠ s₀.uuid ∧ u < node.uuid ∧
    ∀ m ∈ t.members, m.uuid ≤ node.uuid

/-- How an entry is rewritten in state `t` of a call that began in state `s₀`. -/
inductive NodeAct : Action → NodeState → NodeState → Prop
  | notice {event addr node} (hn : s₀.find node.uuid = some node)
      (hu : node.uuid = event.hdr.uuid) (hv : node.info.Valid) :
      NodeAct (.event event addr) node (node.notice event.hdr.time event.hdr.incarnation)
  | suspect {event addr node} (hb : event.body = .pingReq node.uuid) :
      NodeAct (.event event addr) node (node.suspect addr)
  | merge {event addr node info} (hr : event.body.ReadsGossip t.uuid) (hg : info ∈ event.gossip)
      (hv : info.Valid) (hu : info.uuid = node.uuid) :
      NodeAct (.event event addr) node (node.merge info)
  | refute {event addr node u} (hb : event.body = .ack u) (ht : AckTarget s₀ t u node)
      (hs : node.info.status = .suspect ∨ node.info.status = .unknown) :
      NodeAct (.event event addr) node node.refute
  | del {event addr node} (hb : event.body = .leave node.uuid) :
      NodeAct (.event event addr) node node.del
  | suspectDead {node} (hs : node.info.status = .alive) (hl : node.info.lastSeen ≤ now - 60) :
      NodeAct .heartbeat node node.suspectDead
  | declareDead {node} (hs : node.info.status = .suspect) (hl : node.info.lastSeen ≤ now - 120) :
      NodeAct .heartbeat node node.del

theorem NodeAct.uuid {now : ℤ} {s₀ t : SWIM} {action : Action} {n n' : NodeState}
    (h : NodeAct now s₀ t action n n') : n'.uuid = n.uuid := by
  cases h <;> simp

/-- How an entry comes into the view. -/
inductive InsertAct : Action → NodeState → Prop
  | join {event addr node joinAddr} (hb : event.body = .join node.uuid joinAddr)
      (hi : node.info =
        ⟨node.uuid, event.hdr.time, 0, .alive, fillJoinAddr joinAddr addr⟩)
      (ht : 0 < event.hdr.time) : InsertAct (.event event addr) node
  | ack {event addr node} (hb : event.body = .ack node.uuid)
      (hi : node.info = ⟨node.uuid, event.hdr.time, 0, .unknown, addr⟩)
      (hm : ∃ m ∈ s₀.members, node.uuid < m.uuid) : InsertAct (.event event addr) node
  | ackLast {event addr node} (hb : event.body = .ack node.uuid)
      (hi : node.info = ⟨node.uuid, event.hdr.time, 0, .alive, addr⟩)
      (hw : node.witness = .none) (hm : ∀ m ∈ t.members, m.uuid < node.uuid) :
      InsertAct (.event event addr) node
  | gossip {event addr node} (hr : event.body.ReadsGossip t.uuid)
      (hg : node.info ∈ event.gossip) (hv : node.info.Valid) : InsertAct (.event event addr) node

/-- Which events a node builds, and where it sends them. -/
inductive SendAct : Action → EventBody → SockAddr → Prop
  | answer {event addr} (hb : event.body.Answered) : SendAct (.event event addr) (.ack t.uuid) addr
  | relay {event addr u node} (hb : event.body = .ack u) (hn : node ∈ t.members)
      (ht : AckTarget s₀ t u node) (hs : node.info.status = .suspect)
      (hw : swimNodeHasWitness node) : SendAct (.event event addr) (.ack u) node.witness
  | indirect {event addr node} (hb : event.body = .pingReq node.uuid) (hn : node ∈ t.members) :
      SendAct (.event event addr) .ping node.info.addr
  | probe {node} (hn : node ∈ t.members) : SendAct .heartbeat .ping node.info.addr
  | request {target node} (ht : target ∈ t.members) (hts : target.info.status = .suspect)
      (hn : node ∈ t.members) (hs : node.info.status = .alive) :
      SendAct .heartbeat (.pingReq target.uuid) node.info.addr
  | join {addr} : SendAct (.join addr) (.join t.uuid .none) addr
  | leave {node} (hn : node ∈ t.members) : SendAct .leave (.leave Uuid.zero) node.info.addr

end

/-- The fields that no effect but its own changes. -/
def SameNode (t u : SWIM) : Prop := u.uuid = t.uuid ∧ u.incarnation = t.incarnation

/-- A slot that a new entry may be written into: one that was behind the view when the call began,
or one that `realloc` adds. -/
def Leftover (env : Env) (s : SWIM) (slot : NodeState) : Prop :=
  slot ∈ s.spare ∨ ∃ k junk i, env.reallocView k = some junk ∧ junk i = slot

/-- Only `info` of its slot was assigned when the entry came into the view: the bookkeeping is what
the slot held, unless it has been reset since. -/
def Inherits (env : Env) (s : SWIM) (n : NodeState) : Prop :=
  ∃ slot, Leftover env s slot ∧ (n.pingTime = 0 ∨ n.pingTime = slot.pingTime) ∧
    (n.suspectTime = 0 ∨ n.suspectTime = slot.suspectTime) ∧
    (n.witness = .none ∨ n.witness = slot.witness)

/-- One effect of a call that began in state `s₀`, with the packets it sends. -/
inductive Effect (env : Env) (s₀ : SWIM) (action : Action) : SWIM → SWIM → List Packet → Prop
  | node {t u n n'} (hn : t.find n.uuid = some n) (h : NodeAct (env.time 0) s₀ t action n n')
      (hu : u.find = Function.update t.find n.uuid (some n')) (hs : SameNode t u) :
      Effect env s₀ action t u []
  | insert {t u n} (h : InsertAct s₀ t action n) (hself : n.uuid ≠ t.uuid)
      (hn : t.find n.uuid = none) (hw : Inherits env s₀ n)
      (hu : u.find = Function.update t.find n.uuid (some n)) (hs : SameNode t u) :
      Effect env s₀ action t u []
  | incarnate {t k} (ht : t.incarnation = s₀.raised k) (hk : k < action.raises s₀) :
      Effect env s₀ action t t.incarnate []
  | idle {t u} (hu : u.find = t.find) (hs : SameNode t u) : Effect env s₀ action t u []
  | send {t time body gossip dest} (h : SendAct s₀ t action body dest)
      (ht : t.incarnation = s₀.incarnation) (hg : ∀ g ∈ gossip, ∃ n ∈ t.members, g = n.info)
      (hc : gossip.length ≤ swimMaxGossipSize) :
      Effect env s₀ action t t [⟨⟨⟨t.uuid, time, t.incarnation⟩, body, gossip⟩, dest⟩]
  | forward {t event addr joinUuid joinAddr n} (ha : action = .event event addr)
      (hb : event.body = .join joinUuid joinAddr) (hn : n ∈ t.members) :
      Effect env s₀ action t t
        [⟨{ event with body := .join joinUuid (fillJoinAddr joinAddr addr) }, n.info.addr⟩]

/-- What a call can have reached, and sent, at any moment. -/
inductive Reached (env : Env) (s₀ : SWIM) (action : Action) : SWIM → List Packet → Prop
  | start : Reached env s₀ action s₀ []
  | effect {t u ps qs} (h : Reached env s₀ action t ps) (ht : t.WellFormed) (hu : u.WellFormed)
      (he : Effect env s₀ action t u qs) : Reached env s₀ action u (ps ++ qs)

section

variable {env : Env} {s₀ t u : SWIM} {action : Action} {ps : List Packet} {v : Uuid}

theorem Effect.uuid (he : Effect env s₀ action t u ps) : u.uuid = t.uuid := by
  cases he with
  | node _ _ _ hs | insert _ _ _ _ _ hs | idle _ hs => exact hs.1
  | incarnate | send | forward => rfl

theorem Reached.uuid (hr : Reached env s₀ action t ps) : t.uuid = s₀.uuid := by
  induction hr with
  | start => rfl
  | effect _ _ _ he ih => exact he.uuid.trans ih

theorem Effect.find_none (he : Effect env s₀ action t u ps) (hv : u.find v = none) :
    t.find v = none := by
  cases he with
  | node hn _ hu _ | insert _ _ hn _ hu _ =>
    rw [hu, Function.update_apply] at hv
    split_ifs at hv
    exact hv
  | idle hu _ => rwa [hu] at hv
  | incarnate | send | forward => exact hv

/-- No call removes a member. -/
theorem Reached.find_none (hr : Reached env s₀ action t ps) (hv : t.find v = none) :
    s₀.find v = none := by
  induction hr with
  | start => exact hv
  | effect _ _ _ he ih => exact ih (he.find_none hv)

/-- The incarnation moves in single steps, and no further than the suspicions go. -/
theorem Reached.raised (hr : Reached env s₀ action t ps) :
    ∃ k ≤ action.raises s₀, t.incarnation = s₀.raised k := by
  induction hr with
  | start => exact ⟨0, Nat.zero_le _, rfl⟩
  | effect _ _ _ he ih =>
    obtain ⟨k, hk, ht⟩ := ih
    cases he with
    | node _ _ _ hs | insert _ _ _ _ _ hs | idle _ hs => exact ⟨k, hk, hs.2.trans ht⟩
    | send | forward => exact ⟨k, hk, ht⟩
    | @incarnate j hj hlt =>
      refine ⟨j + 1, hlt, ?_⟩
      rw [SWIM.raised, Function.iterate_succ_apply', SWIM.incarnate, hj]
      rfl

/-- Every packet has the header of the node as it was before the call, or is forwarded. -/
theorem Reached.headers (hr : Reached env s₀ action t ps) : ∀ p ∈ ps,
    p.event.hdr.uuid = s₀.uuid ∧ p.event.hdr.incarnation = s₀.incarnation ∨
      ∃ event addr, action = .event event addr ∧ p.event.hdr = event.hdr := by
  induction hr with
  | start => simp
  | effect hr _ _ he ih =>
    intro p hp
    rcases List.mem_append.mp hp with hp | hp
    · exact ih p hp
    · cases he with
      | send _ ht _ _ =>
        obtain rfl := List.mem_singleton.mp hp
        exact .inl ⟨hr.uuid, ht⟩
      | forward ha _ _ =>
        obtain rfl := List.mem_singleton.mp hp
        exact .inr ⟨_, _, ha, rfl⟩
      | node | insert | incarnate | idle => cases hp

/-- Every entry of the view satisfies `P`. -/
def SWIM.Holds (s : SWIM) (P : NodeState → Prop) : Prop := ∀ v n, s.find v = some n → P n

theorem SWIM.Holds.of_mem {s : SWIM} {P : NodeState → Prop} {n : NodeState} (h : s.Holds P)
    (hwf : s.WellFormed) (hn : n ∈ s.members) : P n := h _ n (hwf.mem_iff_find.mp hn)

theorem SWIM.holds_init (uuid : Uuid) (now : ℤ) (P : NodeState → Prop) :
    (swimStateInit uuid now).Holds P := by
  intro v n hn
  simp [SWIM.find, SWIM.members, swimStateInit, lookup] at hn

/-- A gossip entry is the record of an entry that satisfies `P`, or came with the event. -/
def Relayed (P : NodeState → Prop) (action : Action) (g : NodeInfo) : Prop :=
  (∃ n, P n ∧ n.info = g) ∨ ∃ event addr, action = .event event addr ∧ g ∈ event.gossip

variable {P : NodeState → Prop}

/-- A property of entries is kept by an effect when rewriting keeps it and insertion
establishes it. -/
theorem Effect.holds (he : Effect env s₀ action t u ps) (ht : t.Holds P)
    (hnode : ∀ n n', NodeAct (env.time 0) s₀ t action n n' → P n → P n')
    (hinsert : ∀ n, InsertAct s₀ t action n → n.uuid ≠ t.uuid → t.find n.uuid = none →
      Inherits env s₀ n → P n) :
    u.Holds P := by
  intro v m hm
  cases he with
  | node hn h hu _ =>
    rw [hu, Function.update_apply] at hm
    split_ifs at hm with hv
    · obtain rfl := Option.some.inj hm
      exact hnode _ _ h (ht _ _ hn)
    · exact ht v m hm
  | insert h hself hn hw hu _ =>
    rw [hu, Function.update_apply] at hm
    split_ifs at hm with hv
    · obtain rfl := Option.some.inj hm
      exact hinsert _ h hself hn hw
    · exact ht v m hm
  | idle hu _ => exact ht v m (hu ▸ hm)
  | incarnate | send | forward => exact ht v m hm

theorem Effect.relayed (he : Effect env s₀ action t u ps) (hwf : t.WellFormed) (ht : t.Holds P) :
    ∀ p ∈ ps, ∀ g ∈ p.event.gossip, Relayed P action g := by
  cases he with
  | send _ _ hg _ =>
    intro p hp g hgp
    obtain rfl := List.mem_singleton.mp hp
    obtain ⟨n, hn, rfl⟩ := hg g hgp
    exact .inl ⟨n, ht.of_mem hwf hn, rfl⟩
  | forward ha _ _ =>
    intro p hp g hgp
    obtain rfl := List.mem_singleton.mp hp
    exact .inr ⟨_, _, ha, hgp⟩
  | node | insert | incarnate | idle => simp

/-- A state on the way of a call that began in `s₀`. -/
structure Midway (s₀ t : SWIM) : Prop where
  wf : t.WellFormed
  uuid : t.uuid = s₀.uuid
  find_none : ∀ v, t.find v = none → s₀.find v = none

/-- The same over a whole call, together with the gossip it sent. -/
theorem Reached.holds (hr : Reached env s₀ action t ps) (h₀ : s₀.Holds P)
    (hnode : ∀ t n n', Midway s₀ t → NodeAct (env.time 0) s₀ t action n n' → P n → P n')
    (hinsert : ∀ t n, Midway s₀ t → InsertAct s₀ t action n → n.uuid ≠ s₀.uuid →
      s₀.find n.uuid = none → Inherits env s₀ n → P n) :
    t.Holds P ∧ ∀ p ∈ ps, ∀ g ∈ p.event.gossip, Relayed P action g := by
  induction hr with
  | start => exact ⟨h₀, by simp⟩
  | effect hr hwf _ he ih =>
    have hmid : Midway s₀ _ := ⟨hwf, hr.uuid, fun v => hr.find_none⟩
    refine ⟨he.holds ih.1 (fun n n' => hnode _ n n' hmid) ?_, ?_⟩
    · exact fun n ha hself hn => hinsert _ n hmid ha (hmid.uuid ▸ hself) (hr.find_none hn)
    · intro p hp
      rcases List.mem_append.mp hp with hp | hp
      · exact ih.2 p hp
      · exact he.relayed hwf ih.1 p hp

/-- Every packet is sent by an effect from a state on the way, and what holds of all entries on the
way holds in that state. -/
theorem Reached.effect_of_mem (hr : Reached env s₀ action t ps) (h₀ : s₀.Holds P)
    (hnode : ∀ t n n', Midway s₀ t → NodeAct (env.time 0) s₀ t action n n' → P n → P n')
    (hinsert : ∀ t n, Midway s₀ t → InsertAct s₀ t action n → n.uuid ≠ s₀.uuid →
      s₀.find n.uuid = none → Inherits env s₀ n → P n)
    {p : Packet} (hp : p ∈ ps) :
    ∃ t u qs, Midway s₀ t ∧ t.Holds P ∧ Effect env s₀ action t u qs ∧ p ∈ qs := by
  induction hr with
  | start => cases hp
  | effect hr hwf _ he ih =>
    rcases List.mem_append.mp hp with hp | hp
    · exact ih hp
    · exact ⟨_, _, _, ⟨hwf, hr.uuid, fun v => hr.find_none⟩, (hr.holds h₀ hnode hinsert).1, he, hp⟩

/-- The address of a JOIN fits its storage, the records in the gossip satisfy `R`, and there are at
most `m` of them. -/
structure Event.Carries (R : NodeInfo → Prop) (m : ℕ) (e : Event) : Prop where
  join : ∀ u a, e.body = .join u a → a.addrlen ≤ sizeofSockaddrStorage
  gossip : ∀ g ∈ e.gossip, R g
  count : e.gossip.length ≤ m

theorem fillJoinAddr_le {a addr : SockAddr} {k : ℕ} (ha : a.addrlen ≤ k) (haddr : addr.addrlen ≤ k) :
    (fillJoinAddr a addr).addrlen ≤ k := by
  unfold fillJoinAddr
  split_ifs
  · exact haddr
  · exact ha

/-- A JOIN is built without an address and sent on with one that fits. -/
theorem Effect.carries {R : NodeInfo → Prop} {m : ℕ} (he : Effect env s₀ action t u ps)
    (hwf : t.WellFormed) (ht : t.Holds fun n => R n.info) (hm : swimMaxGossipSize ≤ m)
    (ha : ∀ e addr, action = .event e addr → e.Carries R m ∧ addr.addrlen ≤ sizeofSockaddrStorage) :
    ∀ p ∈ ps, p.event.Carries R m := by
  intro p hp
  cases he with
  | send hs _ hg hc =>
    obtain rfl := List.mem_singleton.mp hp
    refine ⟨?_, fun g hgp => ?_, hc.trans hm⟩
    · rintro v a ⟨⟩
      cases hs
      exact Nat.zero_le _
    · obtain ⟨n, hn, rfl⟩ := hg g hgp
      exact ht.of_mem hwf hn
  | forward hact hb _ =>
    obtain rfl := List.mem_singleton.mp hp
    obtain ⟨hcarries, haddr⟩ := ha _ _ hact
    refine ⟨?_, hcarries.gossip, hcarries.count⟩
    rintro v a ⟨⟩
    exact fillJoinAddr_le (hcarries.join _ _ hb) haddr
  | node | insert | incarnate | idle => cases hp

/-- Records that satisfy `R` do so through a call, and in all that it sends. -/
theorem Reached.carries {R : NodeInfo → Prop} {m : ℕ} (hr : Reached env s₀ action t ps)
    (h₀ : s₀.Holds fun n => R n.info) (hm : swimMaxGossipSize ≤ m)
    (ha : ∀ e addr, action = .event e addr → e.Carries R m ∧ addr.addrlen ≤ sizeofSockaddrStorage)
    (hnode : ∀ t n n', NodeAct (env.time 0) s₀ t action n n' → R n.info → R n'.info)
    (hinsert : ∀ t n, InsertAct s₀ t action n → R n.info) :
    t.Holds (fun n => R n.info) ∧ ∀ p ∈ ps, p.event.Carries R m := by
  induction hr with
  | start => exact ⟨h₀, by simp⟩
  | effect _ hwf _ he ih =>
    refine ⟨he.holds ih.1 (hnode _) fun n hn _ _ _ => hinsert _ n hn, fun p hp => ?_⟩
    rcases List.mem_append.mp hp with hp | hp
    · exact ih.2 p hp
    · exact he.carries hwf ih.1 hm ha p hp

/-- What bounds the UUIDs of a state on the way bounds those of the state the call began in. -/
theorem Midway.uuid_le (h : Midway s₀ t) (hwf : s₀.WellFormed) (hv : ∀ m ∈ t.members, m.uuid ≤ v) :
    ∀ m ∈ s₀.members, m.uuid ≤ v := by
  intro m hm
  have hfind : t.find m.uuid ≠ none := by
    intro hnone
    have hgone := h.find_none _ hnone
    rw [hwf.mem_iff_find.mp hm] at hgone
    cases hgone
  obtain ⟨m', hm'⟩ := Option.ne_none_iff_exists'.mp hfind
  obtain ⟨hmem, hu⟩ := h.wf.find_eq_some.mp hm'
  exact hu ▸ hv m' hmem

/-- Following one member through a call: it stays a member, and what every assignment to its
entry keeps holds of the entry in the end. -/
theorem Reached.member {n : NodeState} (hr : Reached env s₀ action t ps) (hwf : s₀.WellFormed)
    (hwf' : t.WellFormed) (hn : s₀.find v = some n) (hP : P n)
    (hact : ∀ t m m', Midway s₀ t → NodeAct (env.time 0) s₀ t action m m' → m.uuid = v →
      P m → P m') : ∃ m, t.find v = some m ∧ P m := by
  have hstart : s₀.Holds fun m => m.uuid = v → P m := by
    intro u m hm hmv
    rw [← (hwf.find_eq_some.mp hm).2, hmv, hn] at hm
    exact Option.some.inj hm ▸ hP
  have hholds := hr.holds hstart (fun t m m' ht ha hm hv => by
      have hmv : m.uuid = v := ha.uuid.symm.trans hv
      exact hact t m m' ht ha hmv (hm hmv))
    fun t m _ _ _ hfresh _ hv => by rw [hv, hn] at hfresh; cases hfresh
  obtain ⟨m, hm⟩ := Option.ne_none_iff_exists'.mp
    (mt (hr.find_none (v := v)) (by simp [hn]))
  exact ⟨m, hm, hholds.1 v m hm (hwf'.find_eq_some.mp hm).2⟩

/-- The event asks for an indirect probe, the one event that assigns a witness. -/
def Action.IsPingReq (action : Action) : Prop :=
  ∃ e addr u, action = .event e addr ∧ e.body = .pingReq u

theorem NodeAct.inherits {now : ℤ} {n n' : NodeState} (ha : NodeAct now s₀ t action n n')
    (hreq : ¬ action.IsPingReq) (h : Inherits env s₀ n) : Inherits env s₀ n' := by
  obtain ⟨slot, hslot, hbooks⟩ := h
  refine ⟨slot, hslot, ?_⟩
  cases ha with
  | notice =>
    unfold NodeState.notice
    split_ifs
    · exact hbooks
    · split <;> exact hbooks
    · exact hbooks
  | suspect hb => exact absurd ⟨_, _, _, rfl, hb⟩ hreq
  | @merge _ _ _ info =>
    obtain ⟨i, hreset | hkept⟩ := NodeState.merge_books n info
    · rw [hreset]
      exact ⟨.inl rfl, .inl rfl, .inl rfl⟩
    · rw [hkept]
      exact hbooks
  | refute => exact ⟨hbooks.1, hbooks.2.1, .inl rfl⟩
  | del | suspectDead | declareDead => exact hbooks

theorem InsertAct.not_isPingReq {n : NodeState} (h : InsertAct s₀ t action n) :
    ¬ action.IsPingReq := by
  rintro ⟨e, addr, u, rfl, hb⟩
  cases h with
  | join hb' | ack hb' | ackLast hb' =>
    rw [hb] at hb'
    cases hb'
  | gossip hr =>
    rw [hb] at hr
    exact hr

/-- The bookkeeping of an entry that is new since the call began is that of its slot, or reset. -/
theorem Reached.fresh {n : NodeState} (hr : Reached env s₀ action t ps) (hwf : s₀.WellFormed)
    (hwf' : t.WellFormed) (hn : t.find v = some n) (hv : s₀.find v = none) : Inherits env s₀ n := by
  have hstart : s₀.Holds fun m =>
      s₀.find m.uuid = none → Inherits env s₀ m ∧ ¬ action.IsPingReq := by
    intro u m hm hfresh
    rw [(hwf.find_eq_some.mp hm).2, hm] at hfresh
    cases hfresh
  have hholds := hr.holds hstart (fun t m m' _ ha hm hfresh => by
      obtain ⟨hin, hreq⟩ := hm (ha.uuid ▸ hfresh)
      exact ⟨ha.inherits hreq hin, hreq⟩)
    fun t m _ ha _ _ hw _ => ⟨hw, ha.not_isPingReq⟩
  rw [← (hwf'.find_eq_some.mp hn).2] at hv
  exact (hholds.1 v n hn hv).1

end

/-- Why a call that began in `s₀` with libc behaving as `env` does not return. -/
def FaultCause (env : Env) (s₀ : SWIM) (action : Action) : Fault → Prop
  | .assertion .noticeValid => ∃ event addr node,
      action = .event event addr ∧ s₀.find event.hdr.uuid = some node ∧ ¬ node.info.Valid
  | .assertion .gossipValid => ∃ event addr info,
      action = .event event addr ∧ event.body.ReadsGossip s₀.uuid ∧ info ∈ event.gossip ∧ ¬ info.Valid
  | .assertion .joinValid => ∃ event addr joinUuid joinAddr,
      action = .event event addr ∧ event.body = .join joinUuid joinAddr ∧ event.hdr.time ≤ 0
  | .assertion _ => False
  | .nullDeref => ¬ env.Allocates
  | .outOfBounds => False
  | .exit => ∃ event addr info, action = .event event addr ∧
      event.body.ReadsGossip s₀.uuid ∧ info ∈ event.gossip ∧ info.uuid = s₀.uuid ∧ info.status = .dead

end LibSwim
