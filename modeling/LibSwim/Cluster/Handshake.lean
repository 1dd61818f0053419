import LibSwim.Gossip.Attached
import LibSwim.Gossip.Piggyback
import LibSwim.Wire.RoundTrip

/-! # Joining, end to end

A newcomer sends a JOIN to one node of the cluster, the contact. The contact adds the newcomer, sends
the JOIN on to all its members and answers with an ACK that carries its view, if that is small enough.
From the ACK the newcomer learns of the contact and of everybody the contact knows; from the JOIN that
was sent on, those learn of the newcomer.
-/

namespace LibSwim

open Foundations Program

/-- The view `s'` is `s` with the record `info` for `u`. -/
def SWIM.Gains (s : SWIM) (u : Uuid) (info : NodeInfo) (s' : SWIM) : Prop :=
  ∀ v, s'.record v = if v = u then some info else s.record v

/-- The JOIN as it is sent on by a node that received it from `addr`. -/
def Event.forwarded (e : Event) (u : Uuid) (addr : SockAddr) : Event := { e with body := .join u addr }

/-! ## Gossip that is a whole view -/

section

variable {v : Uuid} {o : Option NodeInfo} {g : NodeInfo} {gs : List NodeInfo} {s : SWIM}

theorem SWIM.WellFormed.record_eq_some (hwf : s.WellFormed) :
    s.record v = some g ↔ ∃ n ∈ s.members, n.uuid = v ∧ n.info = g := by
  simp only [SWIM.record, Option.map_eq_some_iff, hwf.find_eq_some, and_assoc]

end

/-! ## The JOIN -/

section

variable {post : Unit → Host → Prop} {fault : Fault → Host → Prop} {h h' : Host} {e : Event}
variable {u : Uuid} {a addr joinAddr : SockAddr} {s : SWIM} {env : Env} {info : NodeInfo}

theorem SWIM.Gains.viewSize_le {s' : SWIM} (h : s.Gains u info s') (hwf : s.WellFormed)
    (hwf' : s'.WellFormed) : s'.viewSize ≤ s.viewSize + 1 := by
  have hle : s'.viewSize ≤ (u :: s.uuids).length := by
    refine hwf'.viewSize_le fun v hv => ?_
    rw [List.mem_cons, SWIM.mem_uuids hwf]
    by_contra hnot
    rw [not_or, not_not] at hnot
    have hrec := h v
    rw [if_neg hnot.1, SWIM.record, SWIM.record, hnot.2, Option.map_none, Option.map_eq_none_iff] at hrec
    exact hv hrec
  rwa [List.length_cons, SWIM.uuids, List.length_map, hwf.members_length] at hle

/-- A node has taken in the newcomer `u`, whose JOIN `e` came from `addr`. -/
structure TakesIn (s : SWIM) (e : Event) (u : Uuid) (a addr : SockAddr) (s' : SWIM) (ps : List Packet)
    (ack : Event) : Prop where
  wf : s'.WellFormed
  uuid : s'.uuid = s.uuid
  gains : s.Gains u ⟨u, e.hdr.time, 0, .alive, a⟩ s'
  packets : ps = (s'.members.map fun n => ⟨e.forwarded u a, n.info.addr⟩) ++ [⟨ack, addr⟩]
  sender : ack.hdr.uuid = s.uuid
  body : ack.body = .ack s.uuid
  gossip : ∃ r, Copies s' (gossipIndices s'.viewSize r) ack.gossip

/-- All that is known of the newcomer and of the others can be told. -/
theorem TakesIn.processable {s' : SWIM} {ps : List Packet} {ack : Event}
    (ht : TakesIn s e u a addr s' ps ack) (hvalid : s.Holds fun n => n.info.Valid)
    (htime : 0 < e.hdr.time) : ∀ g ∈ s'.members.map NodeState.info, g.Processable u := by
  intro g hg
  obtain ⟨n, hn, rfl⟩ := List.mem_map.mp hg
  have hrec := ht.gains n.uuid
  rw [ht.wf.record_eq_some.mpr ⟨n, hn, rfl, rfl⟩] at hrec
  split_ifs at hrec with hu
  · rw [Option.some.inj hrec]
    exact ⟨⟨htime, by simp⟩, by simp⟩
  · obtain ⟨m, hm, hinfo⟩ := Option.map_eq_some_iff.mp hrec.symm
    exact ⟨hinfo ▸ hvalid _ m hm, fun hdead => hu hdead.1⟩

/-! ## The ACK -/

end

end LibSwim
