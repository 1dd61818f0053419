import LibSwim.Run.Interface

/-! # What is attached to the events of a node

The senders of PING, ACK and PING_REQ attach `MIN(view_size, SWIM_MAX_GOSSIP_SIZE)` entries, so a
view of up to that many members could be gossiped as a whole. `swim_fill_gossip` copies the whole
view only when it is smaller than that; a view of exactly `SWIM_MAX_GOSSIP_SIZE` members is drawn
from at random, and members are left out unless the draws happen to be all different.
-/

namespace LibSwim

open Foundations Program

/-- The gossip is the whole view, if that fits, or else as many members as fit. -/
def Complete (s : SWIM) (gossip : List NodeInfo) : Prop :=
  if s.viewSize ≤ swimMaxGossipSize then gossip.Perm (s.members.map NodeState.info)
  else gossip.length = swimMaxGossipSize ∧ ∀ g ∈ gossip, ∃ n ∈ s.members, g = n.info

/-- The program sends one event, with complete gossip. -/
def SendsComplete (m : SwimM Unit) (h : Host) : Prop :=
  ∃ h' p, exec m h = (.ok (), h') ∧ h'.sent = h.sent ++ [p] ∧ Complete h.swim p.event.gossip

section

variable {s : SWIM} {h : Host} {js : List ℕ} {gossip : List NodeInfo} {n : ℕ} {r : ℕ → ℕ}

theorem gossipIndices_lt {j : ℕ} (hj : j ∈ gossipIndices n r) : j < n := by
  unfold gossipIndices at hj
  split_ifs at hj with hsmall
  · exact List.mem_range.mp hj
  · obtain ⟨k, hk, rfl⟩ := List.mem_map.mp hj
    rw [List.mem_range] at hk
    exact Nat.mod_lt _ (by omega)

/-- Below the boundary nothing is drawn, and at the boundary everything is. -/
theorem gossipIndices_nodup_iff (hn : n ≤ swimMaxGossipSize) : (gossipIndices n r).Nodup ↔
    n ≠ swimMaxGossipSize ∨
      ((List.range swimMaxGossipSize).map fun k => r k % swimMaxGossipSize).Nodup := by
  unfold gossipIndices
  split_ifs with hsmall
  · simp [hsmall.ne, List.nodup_range]
  · obtain rfl : n = swimMaxGossipSize := by omega
    simp

/-- The record at an index of the view. -/
def SWIM.infoAt (s : SWIM) (j : ℕ) : NodeInfo := (s.members.map NodeState.info).getD j default

theorem Copies.eq_map (hc : Copies s js gossip) : gossip = js.map s.infoAt := by
  induction hc with
  | nil => rfl
  | cons hcopy _ ih =>
    obtain ⟨n, hn, rfl⟩ := hcopy
    simp [SWIM.infoAt, hn, ih]

theorem SWIM.infoAt_range (hroom : s.viewSize ≤ s.view.length) :
    (List.range s.viewSize).map s.infoAt = s.members.map NodeState.info := by
  apply List.ext_getElem?
  intro i
  by_cases hi : i < s.viewSize
  · obtain ⟨n, hn⟩ := SWIM.exists_member hroom hi
    simp [List.getElem?_range hi, SWIM.infoAt, hn]
  · rw [List.getElem?_eq_none, List.getElem?_eq_none]
    · simpa [SWIM.length_members hroom] using hi
    · simpa using hi

/-- A view below the limit is copied as a whole. -/
theorem Copies.eq_members (hc : Copies s (gossipIndices s.viewSize r) gossip)
    (hroom : s.viewSize ≤ s.view.length) (hsize : s.viewSize < swimMaxGossipSize) :
    gossip = s.members.map NodeState.info := by
  rw [hc.eq_map, gossipIndices, if_pos hsize, SWIM.infoAt_range hroom]

theorem SWIM.nodup_info (hdistinct : s.uuids.Nodup) : (s.members.map NodeState.info).Nodup := by
  apply List.Nodup.of_map NodeInfo.uuid
  rwa [List.map_map]

/-- As many copies as there are members are the whole view when no member is copied twice. -/
theorem Copies.perm_iff (hroom : s.viewSize ≤ s.view.length) (hdistinct : s.uuids.Nodup)
    (hc : Copies s js gossip) (hlt : ∀ j ∈ js, j < s.viewSize) (hlen : js.length = s.viewSize) :
    gossip.Perm (s.members.map NodeState.info) ↔ js.Nodup := by
  rw [hc.eq_map, ← SWIM.infoAt_range hroom]
  constructor
  · intro hperm
    apply List.Nodup.of_map s.infoAt
    rw [hperm.nodup_iff, SWIM.infoAt_range hroom]
    exact SWIM.nodup_info hdistinct
  · intro hnodup
    have hsub : js ⊆ List.range s.viewSize := fun j hj => List.mem_range.mpr (hlt j hj)
    apply List.Perm.map
    apply (List.subperm_of_subset hnodup hsub).perm_of_length_le
    rw [hlen, List.length_range]

theorem complete_iff (hroom : s.viewSize ≤ s.view.length) (hdistinct : s.uuids.Nodup)
    (hc : Copies s (gossipIndices s.viewSize r) gossip) :
    Complete s gossip ↔ s.viewSize ≠ swimMaxGossipSize ∨
      ((List.range swimMaxGossipSize).map fun k => r k % swimMaxGossipSize).Nodup := by
  have hlen := gossipIndices_length s.viewSize r
  unfold Complete
  split_ifs with hsmall
  · rw [Nat.min_eq_left hsmall] at hlen
    rw [hc.perm_iff hroom hdistinct (fun j => gossipIndices_lt) hlen,
      gossipIndices_nodup_iff hsmall]
  · rw [Nat.min_eq_right (by omega), hc.length_eq] at hlen
    have hne : s.viewSize ≠ swimMaxGossipSize := by omega
    simp only [hlen, hne, true_and, ne_eq, not_false_iff, true_or, iff_true]
    exact hc.mem

theorem sendWithGossip_complete_iff (hroom : h.swim.viewSize ≤ h.swim.view.length)
    (hdistinct : h.swim.uuids.Nodup) (body : EventBody) (addr : SockAddr) :
    SendsComplete (sendWithGossip body addr) h ↔ h.env.malloc 0 = true ∧
      (h.swim.viewSize ≠ swimMaxGossipSize ∨
        ((List.range swimMaxGossipSize).map fun k => h.env.rand k % swimMaxGossipSize).Nodup) := by
  have hspec : wp (sendWithGossip body addr)
      (fun _ h' => h.env.malloc 0 = true ∧ ∃ p, h'.sent = h.sent ++ [p] ∧
        Copies h.swim (gossipIndices h.swim.viewSize h.env.rand) p.event.gossip)
      (fun _ _ => h.env.malloc 0 = false) h :=
    wp_sendWithGossip_copies hroom (fun h' time gossip hm _ _ hc hp => ⟨hm, _, hp, hc⟩)
      fun _ hm _ => hm
  constructor
  · rintro ⟨h', p, hexec, hp, hcomplete⟩
    obtain ⟨hm, p', hp', hc⟩ := (wp_iff.mp hspec).1 _ h' hexec
    obtain rfl : p = p' := by simpa using hp.symm.trans hp'
    exact ⟨hm, (complete_iff hroom hdistinct hc).mp hcomplete⟩
  · rintro ⟨hm, hdraws⟩
    obtain ⟨_, h', hexec, -, p, hp, hc⟩ :=
      wp_total.mp (wp_mono hspec (fun _ _ => id) fun _ _ hf => by simp [hm] at hf)
    exact ⟨h', p, hexec, hp, (complete_iff hroom hdistinct hc).mpr hdraws⟩

/-- From every view without duplicates, the three senders attach complete gossip exactly when the
event can be allocated and the view is off the boundary, or the draws happen to be all different. -/
theorem gossip_complete_iff (hroom : h.swim.viewSize ≤ h.swim.view.length)
    (hdistinct : h.swim.uuids.Nodup) (u : Uuid) (addr : SockAddr) (send : SwimM Unit)
    (hsend : send ∈ [swimSendPing addr, swimSendAck u addr, swimSendPingReq u addr]) :
    SendsComplete send h ↔ h.env.malloc 0 = true ∧
      (h.swim.viewSize ≠ swimMaxGossipSize ∨
        ((List.range swimMaxGossipSize).map fun k => h.env.rand k % swimMaxGossipSize).Nodup) := by
  simp only [List.mem_cons, List.not_mem_nil, or_false] at hsend
  rcases hsend with rfl | rfl | rfl
  · exact sendWithGossip_complete_iff hroom hdistinct _ addr
  · exact sendWithGossip_complete_iff hroom hdistinct _ addr
  · exact sendWithGossip_complete_iff hroom hdistinct _ addr

end

/-- Ten nodes are added by hand. -/
def tenAdded : List OpCall := (List.range 10).map fun b => addCall (UInt8.ofNat (b + 2))

def tenMembers : SWIM := play (swimStateInit (.ofByte 1) 1000) tenAdded

/-- A node with ten members and the values that `rand` returns. -/
def boundary (rand : ℕ → ℕ) : Host := ⟨tenMembers, { steadyEnv 1000 with rand := rand }, []⟩

theorem tenMembers_wellFormed : tenMembers.WellFormed := by
  have hplays : plays (swimStateInit (.ofByte 1) 1000) tenAdded = true := by decide +kernel
  unfold tenMembers
  exact wellFormed_of_ops (run_of_plays hplays (.refl _))

theorem boundary_wellFormed (rand : ℕ → ℕ) : (boundary rand).swim.WellFormed := by
  simp only [boundary, tenMembers_wellFormed]

/-- The draws happen to be all different. -/
theorem gossip_complete_lucky :
    (boundary id).swim.WellFormed ∧ (boundary id).swim.viewSize = swimMaxGossipSize ∧
      SendsComplete (swimSendPing .none) (boundary id) := by
  have hwf := boundary_wellFormed id
  have hdraws : ((List.range swimMaxGossipSize).map fun k => id k % swimMaxGossipSize).Nodup := by
    decide
  have hiff := gossip_complete_iff hwf.size_le_length hwf.nodup_uuids default .none
    (swimSendPing .none) (by simp)
  exact ⟨hwf, by decide +kernel, hiff.mpr ⟨rfl, .inr hdraws⟩⟩

/-- The view fits, but one member is attached ten times and the others are not. -/
theorem gossip_incomplete :
    (boundary 0).swim.WellFormed ∧ (boundary 0).swim.viewSize = swimMaxGossipSize ∧
      (exec (swimSendPing .none) (boundary 0)).1 = .ok () ∧
      (exec (swimSendPing .none) (boundary 0)).2.sent.map
        (fun p => p.event.gossip.map NodeInfo.uuid) = [List.replicate 10 (.ofByte 2)] ∧
      ¬ SendsComplete (swimSendPing .none) (boundary 0) := by
  have hdraws : ¬ ((List.range swimMaxGossipSize).map fun k =>
      (0 : ℕ → ℕ) k % swimMaxGossipSize).Nodup := by decide
  obtain ⟨hsize, hok, hsent⟩ : (boundary 0).swim.viewSize = swimMaxGossipSize ∧
      (exec (swimSendPing .none) (boundary 0)).1 = .ok () ∧
      (exec (swimSendPing .none) (boundary 0)).2.sent.map
        (fun p => p.event.gossip.map NodeInfo.uuid) = [List.replicate 10 (.ofByte 2)] := by
    decide +kernel
  have hwf := boundary_wellFormed 0
  refine ⟨hwf, hsize, hok, hsent, fun hcomplete => ?_⟩
  have hiff := sendWithGossip_complete_iff hwf.size_le_length hwf.nodup_uuids .ping .none
  rcases (hiff.mp hcomplete).2 with hne | hnodup
  · exact hne hsize
  · exact hdraws hnodup

end LibSwim
