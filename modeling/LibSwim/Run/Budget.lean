import LibSwim.Foundations.Budget
import LibSwim.Run.Outcomes
import LibSwim.Run.Witness
import LibSwim.Step.Schedule
import Mathlib.Algebra.Order.BigOperators.Group.Finset

/-! # What an event can set off

A PING is answered by an ACK, a PING_REQ by a PING, and an ACK goes on to a witness at most. Only a JOIN
is sent to everybody, but only by a node that did not know the newcomer. So the packets that a node
sends while it processes an event are paid for: by the event, by the witness that is reset, or by the
newcomer, of which there are no more than the cluster has nodes.
-/

namespace LibSwim

open Foundations Program

/-- The price of a packet: itself and what its receiver may have to send. -/
def EventBody.weight : EventBody → ℕ
  | .ack _ | .join _ _ => 1
  | .ping | .leave _ => 2
  | .pingReq _ => 4

theorem EventBody.weight_pos (body : EventBody) : 0 < body.weight := by
  cases body <;> simp [EventBody.weight]

theorem EventBody.weight_le (body : EventBody) : body.weight ≤ 4 := by
  cases body <;> simp [EventBody.weight]

def load (ps : List Packet) : ℕ := (ps.map fun p => p.event.body.weight).sum

/-- What a node may still have to send on account of one UUID: an ACK to a witness, and for a node of
`U` that it does not know a JOIN to every member, and the answer. -/
def worth (U : Finset Uuid) : Option NodeState → ℕ
  | none => U.card + 1
  | some n => if swimNodeHasWitness n then 1 else 0

def SWIM.debt (U : Finset Uuid) (s : SWIM) : ℕ := ∑ u ∈ U, worth U (s.find u)

/-- What was sent and what the node may still have to send. -/
def spending (U : Finset Uuid) (h : Host) : ℕ := load h.sent + h.swim.debt U

/-- Nobody but nodes of `U` is known, and there is memory. -/
structure Closed (U : Finset Uuid) (h : Host) : Prop where
  wf : h.swim.WellFormed
  self : h.swim.uuid ∈ U
  members : ∀ u, h.swim.find u ≠ none → u ∈ U
  allocates : h.env.Allocates

section

variable {U : Finset Uuid} {s s' : SWIM} {u v : Uuid} {n n' : NodeState} {h h' : Host}

theorem load_append (ps qs : List Packet) : load (ps ++ qs) = load ps + load qs := by
  rw [load, List.map_append, List.sum_append]
  rfl

theorem load_singleton (p : Packet) : load [p] = p.event.body.weight := by
  rw [load, List.map_singleton, List.sum_singleton]

theorem load_copies (e : Event) (ns : List NodeState) :
    load (ns.map fun n => ⟨e, n.info.addr⟩) = ns.length * e.body.weight := by
  simp only [load, List.map_map, Function.comp_def, List.map_const', List.sum_replicate_nat]

theorem SWIM.debt_le (hle : ∀ u, worth U (s'.find u) ≤ worth U (s.find u)) : s'.debt U ≤ s.debt U :=
  Finset.sum_le_sum fun u _ => hle u

/-- One entry is exchanged for another. -/
theorem SWIM.debt_update (hv : v ∈ U) (hu : s'.find = Function.update s.find v (some n')) :
    s'.debt U + worth U (s.find v) = s.debt U + worth U (some n') := by
  have hworth : (fun u => worth U (s'.find u)) =
      Function.update (fun u => worth U (s.find u)) v (worth U (some n')) := by
    funext u
    rw [hu, Function.update_apply, Function.update_apply, apply_ite (worth U)]
  rw [SWIM.debt, hworth]
  exact sum_update_add hv (fun u => worth U (s.find u)) _

theorem worth_eq_of_witness (hw : n'.witness = n.witness) : worth U (some n') = worth U (some n) := by
  have hiff : swimNodeHasWitness n' ↔ swimNodeHasWitness n := by
    unfold swimNodeHasWitness
    rw [hw]
  exact if_congr hiff rfl rfl

theorem worth_of_none (hw : n.witness = .none) : worth U (some n) = 0 :=
  if_neg (not_hasWitness_of_none hw)

theorem worth_some_le (n : NodeState) : worth U (some n) ≤ 1 := by
  rw [worth]
  split_ifs
  · exact le_rfl
  · exact Nat.zero_le 1

/-- Entries are rewritten, and none gets a witness. -/
theorem SWIM.debt_map {f : NodeState → NodeState}
    (hf : ∀ n, (f n).witness = n.witness ∨ (f n).witness = .none)
    (hfind : ∀ u, s'.find u = (s.find u).map f) : s'.debt U ≤ s.debt U := by
  apply SWIM.debt_le
  intro u
  rw [hfind]
  cases s.find u with
  | none => exact le_rfl
  | some n =>
    rcases hf n with hsame | hnone
    · exact (worth_eq_of_witness hsame).le
    · rw [Option.map_some, worth_of_none hnone]
      exact Nat.zero_le _

end

/-! ## The functions the handlers are made of -/

section Functions

variable {U : Finset Uuid} {B k : ℕ} {h h' : Host} {e : Event} {addr dest : SockAddr} {u : Uuid}
variable {body : EventBody}

/-- The program pays for what it sends, with what the view is worth and the credit. -/
abbrev Affords (U : Finset Uuid) (B k k' : ℕ) {α : Type} (m : SwimM α) : Prop :=
  Pays (Closed U) (spending U) B k k' m

theorem Closed.of_find (hc : Closed U h) (hwf : h'.swim.WellFormed) (hu : h'.swim.uuid = h.swim.uuid)
    (hfind : ∀ v, h'.swim.find v ≠ none → h.swim.find v ≠ none ∨ v ∈ U)
    (hlater : h.env.Later h'.env) : Closed U h' where
  wf := hwf
  self := hu ▸ hc.self
  members v hv := (hfind v hv).elim (hc.members v) id
  allocates := hlater.allocates hc.allocates

theorem Closed.malloc (hc : Closed U h) {p : Prop} (hm : h.env.malloc 0 = false) : p := by
  rw [hc.allocates.1 0] at hm
  cases hm

/-- A packet of the node's own costs its weight. -/
theorem Sent.spending (hs : Sent body dest h h') : spending U h' = spending U h + body.weight := by
  obtain ⟨time, gossip, -, -, hsent⟩ := hs.packet
  simp only [LibSwim.spending, hsent, load_append, load_singleton, hs.swim]
  omega

theorem Sent.closed (hs : Sent body dest h h') (hc : Closed U h) : Closed U h' :=
  hc.of_find (hs.swim ▸ hc.wf) (by rw [hs.swim]) (fun v hv => .inl (hs.swim ▸ hv)) hs.later

theorem affords_send (body : EventBody) (dest : SockAddr) :
    Affords U B (k + body.weight) k (sendWithGossip body dest) := by
  intro h hc hk
  refine wp_sendWithGossip hc.wf (fun h' _ hs => ⟨hs.closed hc, ?_⟩) fun h' hm _ => hc.malloc hm
  rw [hs.spending]
  omega

theorem affords_notice : Affords U B k k
    (swimStateNotice e.hdr.uuid e.hdr.time e.hdr.incarnation) := by
  intro h hc hk
  refine wp_noticed hc.wf (fun r h' hn => ⟨hc.of_find hn.wf hn.same.1 (fun v hv => .inl ?_)
    (hn.env ▸ .refl _), ?_⟩) fun n _ _ => (Nat.le_add_right _ _).trans hk
  · rw [hn.find] at hv
    exact fun hnone => hv (by rw [hnone, Option.map_none])
  · have hdebt : h'.swim.debt U ≤ h.swim.debt U := by
      refine SWIM.debt_map (fun n => .inl ?_) hn.find
      unfold Event.noticed
      split_ifs
      · exact n.notice_witness _ _
      · rfl
    rw [spending, hn.sent]
    rw [spending] at hk
    omega

/-- A newcomer pays for its own witness, and leaves enough to tell everybody. -/
theorem Added.spending {info : NodeInfo} {node last : NodeState} (ha : Added h info node last h')
    (hfresh : h.swim.find info.uuid = none) (hU : info.uuid ∈ U) :
    spending U h' + U.card ≤ LibSwim.spending U h := by
  have hdebt := SWIM.debt_update hU ha.find
  have hle := worth_some_le (U := U) node
  rw [hfresh, worth] at hdebt
  rw [LibSwim.spending, ha.sent, LibSwim.spending]
  omega

theorem Added.closed {info : NodeInfo} {node last : NodeState} (ha : Added h info node last h')
    (hU : info.uuid ∈ U) (hc : Closed U h) : Closed U h' := by
  refine hc.of_find ha.wf ha.same.1 (fun v hv => ?_) ha.later
  rw [ha.find, Function.update_apply] at hv
  split_ifs at hv with hvu
  · exact .inr (hvu ▸ hU)
  · exact .inl hv

theorem affords_merge {info : NodeInfo} (hU : info.uuid ∈ U) : Affords U B k k (swimStateMerge info) := by
  intro h hc hk
  refine wp_swimStateMerge hc.wf (fun h' hwf hsame hsent hlater _ hm => ?_)
    fun _ _ hnull _ _ => absurd hc.allocates hnull
  -- the entry is kept, or rewritten without a new witness, or it is new and pays for its own
  have hworth : ∀ n, h'.swim.find = Function.update h.swim.find info.uuid (some n) →
      worth U (some n) ≤ worth U (h.swim.find info.uuid) →
      Closed U h' ∧ spending U h' + k ≤ B := by
    intro n hfind hle
    have hdebt := SWIM.debt_update hU hfind
    refine ⟨hc.of_find hwf hsame.1 (fun v hv => ?_) hlater, ?_⟩
    · rw [hfind, Function.update_apply] at hv
      split_ifs at hv with hvu
      · exact .inr (hvu ▸ hU)
      · exact .inl hv
    · rw [spending, hsent]
      rw [spending] at hk
      omega
  cases hm with
  | self _ hfind =>
    refine ⟨hc.of_find hwf hsame.1 (fun v hv => .inl (hfind ▸ hv)) hlater, ?_⟩
    rw [spending, hsent, SWIM.debt, hfind]
    exact hk
  | @known node hn hfind =>
    refine hworth _ hfind ?_
    rw [hn]
    rcases node.merge_witness info with hnone | ⟨hsame', -⟩
    · rw [worth_of_none hnone]
      exact Nat.zero_le _
    · exact (worth_eq_of_witness hsame').le
  | @new node _ hn _ _ hfind =>
    refine hworth node hfind ?_
    rw [hn]
    exact (worth_some_le node).trans (Nat.le_add_left 1 _)

theorem affords_gossip {gossip : List NodeInfo} (hU : ∀ g ∈ gossip, g.uuid ∈ U) :
    Affords U B k k (swimProcessGossip gossip) := by
  refine pays_forM gossip fun g hg h hc hk => ?_
  refine wp_gossipStep hc.wf (fun h' _ _ hwf hu hfind hsent henv _ => ?_)
    (fun _ => affords_merge (hU g hg) h hc hk) fun _ _ => (Nat.le_add_right _ _).trans hk
  refine ⟨hc.of_find hwf hu (fun v hv => .inl (hfind ▸ hv)) (henv ▸ .refl _), ?_⟩
  rw [spending, hsent, SWIM.debt, hfind]
  exact hk

/-- An assignment to an entry changes what the entry is worth, and nothing else. -/
theorem Closed.modifyNode {i : ℕ} {node : NodeState} {f : NodeState → NodeState} (hc : Closed U h)
    (hi : h.swim.members[i]? = some node) (hf : ∀ n, (f n).uuid = n.uuid) :
    Closed U { h with swim := h.swim.modifyNode i f } ∧
      spending U { h with swim := h.swim.modifyNode i f } + worth U (some node) =
        spending U h + worth U (some (f node)) := by
  have hfind := hc.wf.find_modifyNode hf hi
  have hold := hc.wf.find_of_get hi
  have hmem : node.uuid ∈ U := by
    apply hc.members
    rw [hold]
    exact Option.some_ne_none node
  have hdebt := SWIM.debt_update hmem hfind
  rw [hold] at hdebt
  refine ⟨hc.of_find (hc.wf.modifyNode hf) rfl (fun v hv => ?_) (.refl _), ?_⟩
  · rw [hfind, Function.update_apply] at hv
    split_ifs at hv with hvu
    · exact .inr (hvu ▸ hmem)
    · exact .inl hv
  · change load h.sent + (h.swim.modifyNode i f).debt U + _ = load h.sent + h.swim.debt U + _
    omega

end Functions

/-! ## Handlers -/

section Handlers

variable {U : Finset Uuid} {B k : ℕ} {h h' : Host} {e : Event} {addr : SockAddr} {u : Uuid}

theorem affords_getSwim : Affords U B k k getSwim := fun _ hc hk => ⟨hc, hk⟩

theorem affords_sendAck (u : Uuid) : Affords U B (k + 1) k (swimSendAck u addr) :=
  affords_send (.ack u) addr

theorem affords_ping (hU : ∀ g ∈ e.gossip, g.uuid ∈ U) :
    Affords U B (k + 1) k (swimProcessPing e addr) :=
  affords_getSwim.bind fun _ => (affords_sendAck _).bind fun _ => affords_gossip hU

/-- The witness and the PING are paid for by the request. -/
theorem affords_pingReq : Affords U B (k + 3) k (swimProcessPingReq u addr) := by
  intro h hc hk
  simp only [swimProcessPingReq, swimStateSuspect, wp_bind]
  refine wp_search hc.wf (fun _ => ⟨hc, by omega⟩) fun i node hi _ => ?_
  simp only [wp_bind, wp_modifyNode, wp_pure]
  rw [wp_nodeAt (SWIM.modifyNode_get (f := NodeState.suspect addr) hi)]
  obtain ⟨hc', hspend⟩ := hc.modifyNode hi fun n => n.suspect_uuid addr
  have hle := worth_some_le (U := U) (node.suspect addr)
  have hk' : spending U { h with swim := h.swim.modifyNode i (NodeState.suspect addr) } +
      (k + EventBody.ping.weight) ≤ B := by
    simp only [EventBody.weight]
    omega
  exact affords_send .ping _ _ hc' hk'

theorem affords_leave : Affords U B (k + 1) k (swimProcessLeave u addr) := by
  have hdel : Affords U B (k + 1) (k + 1) (swimStateDel u) := by
    intro h hc hk
    simp only [swimStateDel, swimProbeInvalidate, wp_bind, wp_getSwim]
    refine wp_ite (fun _ => ⟨hc, hk⟩) fun _ => ?_
    rw [wp_bind]
    refine wp_search hc.wf (fun _ => ⟨hc, hk⟩) fun i node hi _ => ?_
    obtain ⟨hc', hspend⟩ := hc.modifyNode hi NodeState.del_uuid
    have hsame : worth U (some node.del) = worth U (some node) := worth_eq_of_witness rfl
    refine ⟨⟨hc'.wf.invalidate, hc'.self, hc'.members, hc'.allocates⟩, ?_⟩
    change spending U { h with swim := h.swim.modifyNode i NodeState.del } + (k + 1) ≤ B
    omega
  exact hdel.bind fun _ => affords_getSwim.bind fun _ => affords_sendAck _

/-- An ACK that is sent on is paid for by the witness that is reset. -/
theorem wp_ackSwitch_affords {i : ℕ} {node : NodeState} (hc : Closed U h) (hk : spending U h + k ≤ B)
    (hi : h.swim.members[i]? = some node) :
    wp (ackSwitch u i) (fun _ h' => Closed U h' ∧ spending U h' + k ≤ B)
      (fun _ h' => spending U h' ≤ B) h := by
  obtain ⟨hc', hspend⟩ := hc.modifyNode hi NodeState.refute_uuid
  have hzero : worth U (some node.refute) = 0 := worth_of_none rfl
  have hk' : spending U { h with swim := h.swim.modifyNode i NodeState.refute } + k ≤ B := by omega
  simp only [ackSwitch, swimClusterRefutedDead, wp_bind, wp_nodeAt hi]
  cases node.info.status with
  | suspect =>
    refine wp_ite (fun hw => ?_) fun _ => ⟨hc', hk'⟩
    simp only [wp_bind, swimSendAck]
    refine wp_sendWithGossip hc.wf (fun h₁ _ hs => ?_) fun h₁ hm _ => hc.malloc hm
    simp only [wp_modifyNode, SWIM.modifyNode_modifyNode, refute_resetWitness]
    obtain ⟨hc₁, hspend₁⟩ := (hs.closed hc).modifyNode (hs.swim ▸ hi) NodeState.refute_uuid
    have hone : worth U (some node) = 1 := if_pos hw
    have hsent := hs.spending (U := U)
    simp only [EventBody.weight] at hsent
    exact ⟨hc₁, by omega⟩
  | unknown => exact ⟨hc', hk'⟩
  | dead | alive | other => exact ⟨hc, hk⟩

theorem affords_ack (hu : u ∈ U) (hU : ∀ g ∈ e.gossip, g.uuid ∈ U) :
    Affords U B k k (swimProcessAck e u addr) := by
  intro h hc hk
  simp only [swimProcessAck, ackNode, wp_bind, wp_getSwim, uuidCompare_eq]
  refine wp_ite (fun _ => ⟨hc, hk⟩) fun hself => ?_
  rw [wp_bind, wp_bind]
  refine wp_search hc.wf (fun hfresh => ?_) fun i node hi _ => ?_
  · refine wp_swimStateAdd hc.wf hself hfresh (fun _ _ hnull => absurd hc.allocates hnull) ?_
    intro h₁ node last ha
    have hspend := ha.spending hfresh hu
    rw [wp_bind]
    refine wp_mono (wp_ackSwitch_affords (ha.closed hu hc) (by omega) ha.last_get)
      (fun _ h₂ ht => affords_gossip hU h₂ ht.1 ht.2) fun _ _ => id
  · rw [wp_pure, wp_bind]
    exact wp_mono (wp_ackSwitch_affords hc hk hi) (fun _ h₂ ht => affords_gossip hU h₂ ht.1 ht.2)
      fun _ _ => id

/-- A JOIN is sent to everybody only by a node that did not know the newcomer. -/
theorem affords_join {joinAddr : SockAddr} (hu : u ∈ U) :
    Affords U B k k (swimProcessJoin e u joinAddr addr) := by
  intro h hc hk
  simp only [swimProcessJoin, wp_bind, wp_getSwim, uuidCompare_eq]
  refine wp_ite (fun _ => ⟨hc, hk⟩) fun hself => wp_ite (fun _ => ⟨hc, hk⟩) fun hnode => ?_
  have hfresh : h.swim.find u = none := hc.wf.getNode_eq_none.mp (not_not.mp hnode)
  rw [wp_bind, wp_assert]
  split_ifs
  · rw [wp_bind]
    refine wp_swimStateAdd hc.wf (Ne.symm hself) hfresh (fun _ _ hnull => absurd hc.allocates hnull) ?_
    intro h₁ node last ha
    have hc₁ := ha.closed hu hc
    have hspend := ha.spending hfresh hu
    have hlt := hc₁.wf.viewSize_lt hc₁.self hc₁.members
    simp only [wp_bind, wp_getSwim]
    apply wp_sendToAll hc₁.wf
    refine affords_sendAck _ _ ⟨hc₁.wf, hc₁.self, hc₁.members, hc₁.allocates⟩ ?_
    rw [spending, load_append, load_copies, hc₁.wf.members_length]
    rw [spending] at hspend
    simp only [EventBody.weight]
    omega
  · exact (Nat.le_add_right _ _).trans hk

/-- An event pays for all that is sent because of it, if it speaks of nodes of `U` only. -/
theorem affords_event (hbody : ∀ u, (e.body = .ack u ∨ ∃ a, e.body = .join u a) → u ∈ U)
    (hU : ∀ g ∈ e.gossip, g.uuid ∈ U) :
    Affords U B (e.body.weight - 1) 0 (swimProcessEvent e addr) := by
  refine affords_notice.bind fun _ => ?_
  rw [dispatch]
  cases hb : e.body with
  | ping => exact affords_ping hU
  | ack u => exact affords_ack (hbody u (.inl hb)) hU
  | pingReq u => exact affords_pingReq
  | join u a => exact affords_join (hbody u (.inr ⟨a, hb⟩))
  | leave u => exact affords_leave

end Handlers

/-! ## Calls that a node makes by itself -/

section Calls

variable {U : Finset Uuid} {B k : ℕ} {h h' : Host} {addr : SockAddr}

theorem Closed.quiet (hc : Closed U h) (hq : Quiet h h') : Closed U h' :=
  hc.of_find (hq.1 ▸ hc.wf) (by rw [hq.1]) (fun v hv => .inl (hq.1 ▸ hv)) hq.2.2

theorem Quiet.spending (hq : Quiet h h') : spending U h' = LibSwim.spending U h := by
  rw [LibSwim.spending, hq.1, hq.2.1, LibSwim.spending]

theorem affords_rand : Affords U B k k rand :=
  fun _ hc hk => wp_rand fun _ _ hq => ⟨hc.quiet hq, hq.spending ▸ hk⟩

theorem affords_time : Affords U B k k time :=
  fun _ hc hk => wp_time fun _ hq _ => ⟨hc.quiet hq, hq.spending ▸ hk⟩

theorem affords_nodeAt (i : ℕ) : Affords U B k k (nodeAt i) := by
  refine affords_getSwim.bind fun s => ?_
  cases s.view[i]? with
  | none => exact pays_throw _
  | some node => exact pays_pure node

theorem affords_sendEvent (e : Event) (addr : SockAddr) :
    Affords U B (k + e.body.weight) k (swimSendEvent e addr) := by
  intro h hc hk
  refine ⟨⟨hc.wf, hc.self, hc.members, hc.allocates⟩, ?_⟩
  simp only [spending, load_append, load_singleton] at hk ⊢
  omega

/-- An assignment that gives no entry a witness, wherever it goes. -/
theorem affords_modifyNode {f : NodeState → NodeState} (hf : ∀ n, (f n).uuid = n.uuid)
    (hw : ∀ n, worth U (some (f n)) ≤ worth U (some n)) (i : ℕ) :
    Affords U B k k (modifyNode i f) := by
  intro h hc hk
  cases hi : h.swim.members[i]? with
  | some node =>
    obtain ⟨hc', hspend⟩ := hc.modifyNode hi hf
    have hle := hw node
    have hk' : spending U { h with swim := h.swim.modifyNode i f } + k ≤ B := by omega
    exact ⟨hc', hk'⟩
  | none =>
    -- a slot behind the view
    have hmembers : (h.swim.modifyNode i f).members = h.swim.members := by
      rw [SWIM.modifyNode_members, List.modify_eq_self (List.getElem?_eq_none_iff.mp hi)]
    have hfind : (h.swim.modifyNode i f).find = h.swim.find := by
      funext v
      rw [SWIM.find, hmembers, SWIM.find]
    refine ⟨hc.of_find (hc.wf.modifyNode hf) rfl (fun v hv => .inl (hfind ▸ hv)) (.refl _), ?_⟩
    change load h.sent + (h.swim.modifyNode i f).debt U + k ≤ B
    rwa [SWIM.debt, hfind]

theorem affords_clusterJoin : Affords U B (k + 1) k (swimClusterJoin addr) := by
  refine Pays.bind (affords_getSwim.bind fun _ => affords_time.bind fun _ => pays_pure _) fun e => ?_
  exact affords_getSwim.bind fun s => affords_sendEvent { e with body := .join s.uuid .none } addr

theorem affords_clusterLeave : Affords U B (k + 2 * swimMaxleave) k swimClusterLeave := by
  intro h hc hk
  simp only [swimClusterLeave, swimEventInit, wp_bind, wp_getSwim]
  refine wp_ite (fun _ => ⟨hc, by omega⟩) fun _ => ?_
  rw [wp_bind]
  apply wp_rand
  intro r h₁ hq₁
  simp only [wp_bind, wp_getSwim]
  apply wp_time
  intro h₂ hq₂ _
  have hq := hq₁.trans hq₂
  have hlen : (List.range (min h.swim.viewSize swimMaxleave)).length ≤ swimMaxleave := by
    rw [List.length_range]
    exact min_le_right _ _
  have hloop := pays_forM_cost (J := Closed U) (Φ := spending U) (B := B) (k := k)
    (List.range (min h.swim.viewSize swimMaxleave)) 2 fun i _ l =>
      (affords_nodeAt ((r % h.swim.viewSize + i) % h.swim.viewSize)).bind fun node =>
        affords_sendEvent (leaveEvent h₁.swim (h₁.env.time 0)) node.info.addr
  refine hloop h₂ (hc.quiet hq) ?_
  rw [hq.spending]
  omega

/-- No more requests are sent for one node than there may be. -/
theorem affords_suspectDead (i : ℕ) :
    Affords U B (k + 4 * swimMaxpingreq) k (swimClusterSuspectDead i) := by
  refine affords_getSwim.bind fun s => pays_ite (fun _ => (pays_pure _).keep (Nat.le_add_right _ _))
    fun _ => affords_rand.bind fun r => (affords_nodeAt i).bind fun entry => ?_
  refine (affords_modifyNode NodeState.suspectDead_uuid (fun n => (worth_eq_of_witness rfl).le) i).bind
    fun _ => ?_
  have hlen : (countdown (min s.viewSize swimMaxpingreq) (r % s.viewSize)).length ≤ swimMaxpingreq := by
    rw [countdown, List.length_map, List.length_range]
    exact (Nat.sub_le _ _).trans (min_le_right _ _)
  refine (pays_forM_cost _ 4 fun sent _ l => (affords_nodeAt _).bind fun node => ?_).spend
    (Nat.add_le_add_left (Nat.mul_le_mul_left 4 hlen) k)
  exact pays_ite (fun _ => affords_send (.pingReq _) _) fun _ => (pays_pure _).keep (Nat.le_add_right _ _)

theorem affords_heartbeatMember (now : ℤ) (i : ℕ) :
    Affords U B (k + 4 * swimMaxpingreq) k (heartbeatMember now i) := by
  refine (affords_nodeAt i).bind fun node => ?_
  have hnothing : Affords U B (k + 4 * swimMaxpingreq) k (pure () : SwimM Unit) :=
    (pays_pure ()).keep (Nat.le_add_right _ _)
  cases node.info.status with
  | alive => exact pays_ite (fun _ => affords_suspectDead i) fun _ => hnothing
  | suspect =>
    refine pays_ite (fun _ => ?_) fun _ => hnothing
    exact (affords_modifyNode NodeState.del_uuid (fun n => (worth_eq_of_witness rfl).le) i).keep
      (Nat.le_add_right _ _)
  | dead | unknown | other => exact hnothing

theorem affords_probeNext : Affords U B k k swimProbeNext := by
  refine fun h hc hk => wp_swimProbeNext hc.wf fun r h' hp => ?_
  have hfind : h'.swim.find = h.swim.find := by
    funext v
    rw [SWIM.find, hp.scheduled.members, SWIM.find]
  refine ⟨hc.of_find hp.wf (by rw [hp.scheduled.swim]) (fun v hv => .inl (hfind ▸ hv))
    hp.scheduled.later, ?_⟩
  rwa [spending, hp.scheduled.sent, SWIM.debt, hfind]

/-- A heartbeat sends one PING, and requests for each member. -/
theorem affords_heartbeat :
    Affords U B (k + (2 + 4 * swimMaxpingreq * (U.card - 1))) k swimClusterHeartbeat := by
  intro h hc hk
  have hlt := hc.wf.viewSize_lt hc.self hc.members
  rw [swimClusterHeartbeat, wp_bind]
  apply wp_time
  intro h₁ hq _
  rw [wp_bind, wp_getSwim, hq.1]
  refine wp_ite (fun _ => ?_) fun _ => ⟨hc.quiet hq, by rw [hq.spending]; omega⟩
  have hloop : ∀ now, Affords U B (k + 4 * swimMaxpingreq * (U.card - 1)) k
      (forM (List.range h.swim.viewSize) (heartbeatMember now)) := by
    intro now
    refine (pays_forM_cost _ _ fun i _ l => affords_heartbeatMember now i).spend ?_
    rw [List.length_range]
    exact Nat.add_le_add_left (Nat.mul_le_mul_left _ (Nat.le_sub_one_of_lt hlt)) k
  have hclock : ∀ l t, Affords U B l l (modifySwim fun swim => { swim with lastHeartbeat := t }) :=
    fun l t h' hc' hk' => ⟨⟨⟨hc'.wf.capacity_pos, hc'.wf.length_eq, hc'.wf.size_le, hc'.wf.sorted,
      hc'.wf.self_notMem, hc'.wf.probe_ok⟩, hc'.self, hc'.members, hc'.allocates⟩, hk'⟩
  refine (affords_probeNext.bind fun target => (hclock _ _).bind fun _ => ?_) h₁ (hc.quiet hq)
    (hq.spending ▸ hk)
  cases target with
  | none => exact (hloop _).spend (by omega)
  | some idx =>
    refine (affords_nodeAt idx).bind fun node => ((affords_send .ping _).bind fun _ => hloop _).spend ?_
    simp only [EventBody.weight]
    omega

end Calls

/-- What a call brings in, in a cluster of `size` nodes: an event pays for itself, and each call that a
node makes by itself may send so much. -/
def Action.income (size : ℕ) : Action → ℕ
  | .event e _ => e.body.weight - 1
  | .heartbeat => 2 + 4 * swimMaxpingreq * (size - 1)
  | .join _ => 1
  | .leave => 2 * swimMaxleave

theorem Action.income_mono {size size' : ℕ} (h : size ≤ size') (action : Action) :
    action.income size ≤ action.income size' := by
  cases action with
  | heartbeat => exact Nat.add_le_add_left (Nat.mul_le_mul_left _ (Nat.sub_le_sub_right h 1)) 2
  | event | join | leave => exact le_rfl

/-- The event speaks of nodes of `U` only. -/
def Action.Inside (U : Finset Uuid) : Action → Prop
  | .event e _ => (∀ u, (e.body = .ack u ∨ ∃ a, e.body = .join u a) → u ∈ U) ∧ ∀ g ∈ e.gossip, g.uuid ∈ U
  | .heartbeat | .join _ | .leave => True

/-- What a call sends, and what the view is worth afterwards, was there before or is brought in. -/
theorem call_affordable {U : Finset Uuid} {s : SWIM} {c : Call} (hc : Closed U ⟨s, c.env, []⟩)
    (hU : c.action.Inside U) :
    load (runStep c s).2.2 + (runStep c s).2.1.debt U ≤ s.debt U + c.action.income U.card := by
  have hpays : Affords U (s.debt U + c.action.income U.card) (c.action.income U.card) 0
      c.action.program := by
    obtain ⟨env, action⟩ := c
    cases action with
    | event e addr => exact affords_event hU.1 hU.2
    | heartbeat => exact affords_heartbeat.spend (Nat.zero_add _).le
    | join addr => exact affords_clusterJoin
    | leave => exact affords_clusterLeave.spend (Nat.zero_add _).le
  have hstart : spending U ⟨s, c.env, []⟩ + c.action.income U.card ≤
      s.debt U + c.action.income U.card := by
    simp [spending, load]
  exact wp_final (wp_mono (hpays _ hc hstart) (fun _ _ ht => ht.2) fun _ _ => id)

end LibSwim
