import LibSwim.Step.Effects

/-! # The functions the handlers are made of

The functions of `swim/state.c` and `swim/network.c`, run symbolically under the representation
invariant. Each statement says all that the function does to the node and to what it has sent;
a caller uses the statement of the callee and never its definition.
-/

namespace LibSwim

open Foundations Program

section Primitives

variable {post : SWIM → Host → Prop} {fault : Fault → Host → Prop} {h : Host}

@[simp] theorem wp_getSwim : wp getSwim post fault h ↔ post h.swim h := Iff.rfl

@[simp] theorem wp_modifySwim {post : Unit → Host → Prop} (f : SWIM → SWIM) :
    wp (modifySwim f) post fault h ↔ post () { h with swim := f h.swim } := Iff.rfl

@[simp] theorem wp_modifyNode {post : Unit → Host → Prop} (i : ℕ) (f : NodeState → NodeState) :
    wp (modifyNode i f) post fault h ↔ post () { h with swim := h.swim.modifyNode i f } := Iff.rfl

@[simp] theorem wp_sendto {post : Unit → Host → Prop} (event : Event) (dest : SockAddr) :
    wp (sendto event dest) post fault h ↔
      post () { h with sent := h.sent ++ [⟨event, dest⟩] } := Iff.rfl

@[simp] theorem wp_assert {post : Unit → Host → Prop} (a : Assertion) (c : Prop) [Decidable c] :
    wp (assert a c) post fault h ↔ if c then post () h else fault (.assertion a) h := wp_require _ _

@[simp] theorem wp_getNode {post : Option ℕ → Host → Prop} (u : Uuid) :
    wp (swimStateGetNode u) post fault h ↔ post (h.swim.getNode u) h := Iff.rfl

/-- A search either misses or returns the index of the member. -/
theorem wp_search {post : Option ℕ → Host → Prop} {u : Uuid} (hwf : h.swim.WellFormed)
    (hnone : h.swim.find u = none → post none h)
    (hsome : ∀ i node, h.swim.members[i]? = some node → node.uuid = u → post (some i) h) :
    wp (swimStateGetNode u) post fault h := by
  rw [wp_getNode]
  cases hg : h.swim.getNode u with
  | none => exact hnone (hwf.getNode_eq_none.mp hg)
  | some i =>
    obtain ⟨node, hi, hu⟩ := hwf.getNode_eq_some.mp hg
    exact hsome i node hi hu

theorem wp_searchMember {post : Option ℕ → Host → Prop} {u : Uuid} {node : NodeState}
    (hwf : h.swim.WellFormed) (hn : h.swim.find u = some node)
    (hp : ∀ i, h.swim.members[i]? = some node → post (some i) h) :
    wp (swimStateGetNode u) post fault h := by
  refine wp_search hwf (fun hnone => ?_) fun i m hi hu => ?_
  · rw [hnone] at hn
    cases hn
  · obtain rfl : m = node := Option.some.inj ((hu ▸ hwf.find_of_get hi).symm.trans hn)
    exact hp i hi

theorem wp_nodeAt {post : NodeState → Host → Prop} {i : ℕ} {node : NodeState}
    (hi : h.swim.members[i]? = some node) : wp (nodeAt i) post fault h ↔ post node h := by
  simp [nodeAt, SWIM.WellFormed.view_get hi]

/-- What libc has still to return is part of what it had to return before. -/
structure Env.Later (env env' : Env) : Prop where
  allocates : env.Allocates → env'.Allocates
  reallocView : ∀ k, ∃ k', env'.reallocView k = env.reallocView k'

theorem Env.Later.refl (env : Env) : env.Later env := ⟨id, fun k => ⟨k, rfl⟩⟩

theorem Env.Later.trans {env env' env'' : Env} (a : env.Later env') (b : env'.Later env'') :
    env.Later env'' where
  allocates ha := b.allocates (a.allocates ha)
  reallocView k := by
    obtain ⟨k', hk'⟩ := b.reallocView k
    obtain ⟨k'', hk''⟩ := a.reallocView k'
    exact ⟨k'', hk'.trans hk''⟩

/-- A call into libc changes neither the node nor what it has sent. -/
def Quiet (h h' : Host) : Prop :=
  h'.swim = h.swim ∧ h'.sent = h.sent ∧ h.env.Later h'.env

theorem Quiet.refl (h : Host) : Quiet h h := ⟨rfl, rfl, .refl _⟩

theorem Quiet.trans {h h' h'' : Host} (a : Quiet h h') (b : Quiet h' h'') : Quiet h h'' :=
  ⟨b.1.trans a.1, b.2.1.trans a.2.1, a.2.2.trans b.2.2⟩

/-- No slot is left behind the view, or still to come from `realloc`, that was not before. -/
def FewerLeft (h h' : Host) : Prop :=
  ∀ slot, Leftover h'.env h'.swim slot → Leftover h.env h.swim slot

theorem FewerLeft.trans {h h' h'' : Host} (a : FewerLeft h h') (b : FewerLeft h' h'') :
    FewerLeft h h'' := fun slot hs => a slot (b slot hs)

theorem Inherits.mono {env env' : Env} {s s' : SWIM} {n : NodeState} (h : Inherits env' s' n)
    (hleft : ∀ slot, Leftover env' s' slot → Leftover env s slot) : Inherits env s n :=
  have ⟨slot, hslot, hn⟩ := h
  ⟨slot, hleft slot hslot, hn⟩

theorem Inherits.refute {env : Env} {s : SWIM} {n : NodeState} (h : Inherits env s n) :
    Inherits env s n.refute :=
  have ⟨slot, hslot, hping, hsuspect, _⟩ := h
  ⟨slot, hslot, hping, hsuspect, .inl rfl⟩

theorem fewerLeft_of_spare {h h' : Host} (hl : h.env.Later h'.env)
    (hs : ∀ slot ∈ h'.swim.spare, Leftover h.env h.swim slot) : FewerLeft h h' := by
  rintro slot (hslot | ⟨k, junk, i, hk, rfl⟩)
  · exact hs slot hslot
  · obtain ⟨k', hk'⟩ := hl.reallocView k
    exact .inr ⟨k', junk, i, hk'.symm.trans hk, rfl⟩

/-- The slots behind the view stay as they are. -/
theorem fewerLeft_of_same {h h' : Host} (hl : h.env.Later h'.env)
    (hs : h'.swim.spare = h.swim.spare) : FewerLeft h h' :=
  fewerLeft_of_spare hl fun _ hslot => .inl (hs ▸ hslot)

theorem wp_rand_head {post : ℕ → Host → Prop} (hp : ∀ h', Quiet h h' →
      (∀ k, h'.env.rand k = h.env.rand (k + 1)) → post (h.env.rand 0) h') :
    wp rand post fault h :=
  hp _ ⟨rfl, rfl, id, fun k => ⟨k, rfl⟩⟩ fun _ => rfl

theorem wp_rand {post : ℕ → Host → Prop} (hp : ∀ r h', Quiet h h' → post r h') :
    wp rand post fault h := wp_rand_head fun h' hq _ => hp _ h' hq

theorem wp_time {post : ℤ → Host → Prop}
    (hp : ∀ h', Quiet h h' → h'.env.rand = h.env.rand → post (h.env.time 0) h') :
    wp time post fault h :=
  hp _ ⟨rfl, rfl, id, fun k => ⟨k, rfl⟩⟩ rfl

theorem wp_malloc {post : Bool → Host → Prop}
    (hp : ∀ h', Quiet h h' → h'.env.rand = h.env.rand → post (h.env.malloc 0) h') :
    wp malloc post fault h :=
  hp _ ⟨rfl, rfl, fun ha => ⟨fun _ => ha.1 _, ha.2⟩, fun k => ⟨k, rfl⟩⟩ rfl

theorem wp_reallocOrder {post : Bool → Host → Prop}
    (hp : ∀ h', Quiet h h' → post (h.env.reallocOrder 0) h') : wp reallocOrder post fault h :=
  hp _ ⟨rfl, rfl, fun ha => ⟨ha.1, fun _ => ha.2.1 _, ha.2.2⟩, fun k => ⟨k, rfl⟩⟩

theorem wp_reallocView {post : Option (ℕ → NodeState) → Host → Prop}
    (hp : ∀ h', Quiet h h' → post (h.env.reallocView 0) h') : wp reallocView post fault h :=
  hp _ ⟨rfl, rfl, fun ha => ⟨ha.1, ha.2.1, fun _ => ha.2.2 _⟩, fun k => ⟨k + 1, rfl⟩⟩

end Primitives

variable {fault : Fault → Host → Prop} {h h' : Host}

/-! ## Notice -/

theorem wp_swimStateNotice {post : Option ℕ → Host → Prop} {u : Uuid} {time : ℤ}
    {incarnation : ℕ} (hwf : h.swim.WellFormed) (hnone : h.swim.find u = none → post none h)
    (hsome : ∀ i node, h.swim.members[i]? = some node → node.uuid = u → node.info.Valid →
      post (some i) { h with swim := h.swim.modifyNode i (NodeState.notice time incarnation) })
    (hbad : ∀ node, h.swim.find u = some node → ¬ node.info.Valid →
      fault (.assertion .noticeValid) h) :
    wp (swimStateNotice u time incarnation) post fault h := by
  rw [swimStateNotice, wp_bind]
  refine wp_search hwf hnone fun i node hi hu => ?_
  simp only [wp_bind, wp_nodeAt hi, wp_assert]
  split_ifs with hv
  · exact hsome i node hi hu hv
  · exact hbad node (hu ▸ hwf.find_of_get hi) hv

/-! ## Sending -/

/-- The indices of the members that `swim_fill_gossip` copies from a view of `n`, when `rand` returns
`r 0`, `r 1` and so on. -/
def gossipIndices (n : ℕ) (r : ℕ → ℕ) : List ℕ :=
  if n < swimMaxGossipSize then List.range n
  else (List.range (min n swimMaxGossipSize)).map fun k => r k % n

theorem gossipIndices_length (n : ℕ) (r : ℕ → ℕ) :
    (gossipIndices n r).length = min n swimMaxGossipSize := by
  unfold gossipIndices
  split_ifs with hsmall
  · rw [List.length_range, Nat.min_eq_left hsmall.le]
  · rw [List.length_map, List.length_range]

/-- The entries are copies of the records of the members at the indices, in their order. -/
def Copies (s : SWIM) : List ℕ → List NodeInfo → Prop :=
  List.Forall₂ fun j g => ∃ n, s.members[j]? = some n ∧ g = n.info

theorem Copies.append {s : SWIM} {js : List ℕ} {j : ℕ} {gossip : List NodeInfo} {n : NodeState}
    (h : Copies s js gossip) (hn : s.members[j]? = some n) :
    Copies s (js ++ [j]) (gossip ++ [swimNodeCopy n.info]) :=
  List.rel_append h (.cons ⟨n, hn, rfl⟩ .nil)

theorem Copies.mem {s : SWIM} {js : List ℕ} {gossip : List NodeInfo} (h : Copies s js gossip) :
    ∀ g ∈ gossip, ∃ n ∈ s.members, g = n.info := by
  induction h with
  | nil => simp
  | cons hcopy _ ih =>
    obtain ⟨n, hn, rfl⟩ := hcopy
    exact List.forall_mem_cons.mpr ⟨⟨n, List.mem_of_getElem? hn, rfl⟩, ih⟩

/-- The entries attached are members, and they fill the gossip. -/
theorem wp_chooseGossip {post : List NodeInfo → Host → Prop}
    (hroom : h.swim.viewSize ≤ h.swim.view.length)
    (hp : ∀ gossip h', Quiet h h' → Copies h.swim (gossipIndices h.swim.viewSize h.env.rand) gossip →
      post gossip h') :
    wp (chooseGossip (min h.swim.viewSize swimMaxGossipSize)) post fault h := by
  simp only [chooseGossip, wp_bind, wp_getSwim]
  unfold gossipIndices at hp
  split_ifs at hp ⊢ with hsmall
  · refine wp_mono (wp_mapM (fun done out t => Quiet h t ∧ Copies h.swim done out) ?_
      ⟨.refl h, .nil⟩) (fun gossip h' hc => hp gossip h' hc.1 hc.2) fun _ _ hf => hf
    rintro i done out t hi ⟨hq, hc⟩
    obtain ⟨n, hn⟩ := SWIM.exists_member hroom (List.mem_range.mp hi)
    rw [wp_bind, wp_nodeAt (hq.1 ▸ hn)]
    exact ⟨hq, hc.append hn⟩
  · have hpos : 0 < h.swim.viewSize := by
      simp only [swimMaxGossipSize] at hsmall
      omega
    -- after `done` rounds the next value of `rand` is the one with that number
    refine wp_mono (wp_mapM (fun done out t => (Quiet h t ∧
        ∀ k, t.env.rand k = h.env.rand (done.length + k)) ∧ Copies h.swim
          ((List.range done.length).map fun k => h.env.rand k % h.swim.viewSize) out) ?_
      ⟨⟨.refl h, fun k => by simp⟩, .nil⟩) ?_ fun _ _ hf => hf
    · rintro _ done out t - ⟨⟨hq, hrand⟩, hc⟩
      obtain ⟨n, hn⟩ := SWIM.exists_member hroom (Nat.mod_lt (h.env.rand done.length) hpos)
      rw [wp_bind]
      apply wp_rand_head
      intro t' hq' hnext
      have hn' : t'.swim.members[h.env.rand done.length % h.swim.viewSize]? = some n := by
        rwa [(hq.trans hq').1]
      rw [hrand 0, Nat.add_zero, wp_bind, wp_nodeAt hn', wp_pure]
      refine ⟨⟨hq.trans hq', fun k => ?_⟩, ?_⟩
      · rw [hnext, hrand, List.length_append, List.length_singleton, Nat.add_assoc, Nat.add_comm 1]
      · rw [List.length_append, List.length_singleton, List.range_succ, List.map_append]
        exact hc.append hn
    · rintro gossip h' ⟨hq, hc⟩
      rw [List.length_range] at hc
      exact hp gossip h' hq.1 hc

/-- One event of the node's own has been sent, with gossip about members. -/
structure Sent (body : EventBody) (dest : SockAddr) (h h' : Host) : Prop where
  swim : h'.swim = h.swim
  later : h.env.Later h'.env
  packet : ∃ time gossip, (∀ g ∈ gossip, ∃ n ∈ h.swim.members, g = n.info) ∧
    gossip.length ≤ swimMaxGossipSize ∧ h'.sent = h.sent ++
      [⟨⟨⟨h.swim.uuid, time, h.swim.incarnation⟩, body, gossip⟩, dest⟩]

/-- Everything depends on the one `malloc` of the event. -/
theorem wp_sendWithGossip_copies {post : Unit → Host → Prop} {body : EventBody} {dest : SockAddr}
    (hroom : h.swim.viewSize ≤ h.swim.view.length)
    (hsent : ∀ h' time gossip, h.env.malloc 0 = true → h'.swim = h.swim → h.env.Later h'.env →
      Copies h.swim (gossipIndices h.swim.viewSize h.env.rand) gossip →
      h'.sent = h.sent ++ [⟨⟨⟨h.swim.uuid, time, h.swim.incarnation⟩, body, gossip⟩, dest⟩] →
      post () h')
    (hnull : ∀ h', h.env.malloc 0 = false → Quiet h h' → fault .nullDeref h') :
    wp (sendWithGossip body dest) post fault h := by
  have hcount : min h.swim.viewSize swimMaxGossipSize ≤ swimMaxGossipSize := Nat.min_le_right _ _
  have hsize : sizeofEvent + min h.swim.viewSize swimMaxGossipSize * sizeofNodeInfo <
      swimMaxPacketSize := by
    simp only [sizeofEvent, sizeofNodeInfo, swimMaxPacketSize, swimMaxGossipSize] at hcount ⊢
    omega
  simp only [sendWithGossip, swimEventCreate, wp_bind, wp_getSwim, wp_assert, if_pos hcount,
    if_pos hsize]
  apply wp_malloc
  intro h₁ hq₁ hr₁
  cases hm : h.env.malloc 0 with
  | false =>
    simp only [Bool.false_eq_true, if_false, wp_pure, wp_throw]
    exact hnull h₁ hm hq₁
  | true =>
    simp only [if_true, swimEventInit, wp_bind, wp_getSwim]
    apply wp_time
    intro h₂ hq₂ hr₂
    have hq := hq₁.trans hq₂
    simp only [wp_pure, swimFillGossip, wp_bind, wp_assert, List.length_replicate, le_refl, if_true]
    rw [← hq.1]
    apply wp_chooseGossip (hq.1 ▸ hroom)
    intro gossip h₃ hq₃ hcopies
    have hq' := hq.trans hq₃
    have hlen : gossip.length = min h.swim.viewSize swimMaxGossipSize := by
      rw [← hcopies.length_eq, gossipIndices_length, hq.1]
    simp only [swimSendEvent, wp_sendto, hlen, hq.1, List.drop_replicate, Nat.sub_self,
      List.replicate_zero, List.append_nil]
    refine hsent _ (h₁.env.time 0) gossip hm hq'.1 hq'.2.2 ?_ ?_
    · rwa [hq.1, hr₂, hr₁] at hcopies
    · simp only [hq₁.1, hq'.2.1]

theorem wp_sendWithGossip {post : Unit → Host → Prop} {body : EventBody} {dest : SockAddr}
    (hwf : h.swim.WellFormed)
    (hsent : ∀ h', h.env.malloc 0 = true → Sent body dest h h' → post () h')
    (hnull : ∀ h', h.env.malloc 0 = false → Quiet h h' → fault .nullDeref h') :
    wp (sendWithGossip body dest) post fault h := by
  refine wp_sendWithGossip_copies hwf.size_le_length
    (fun h' time gossip hm hswim hlater hcopies hpacket => ?_) hnull
  refine hsent h' hm ⟨hswim, hlater, time, gossip, hcopies.mem, ?_, hpacket⟩
  rw [← hcopies.length_eq, gossipIndices_length]
  exact Nat.min_le_right _ _

/-! ## Insertion -/

/-- The outcome of `swim_state_add` from `h`: `node` is the new entry and `last` the one that
the returned pointer designates. -/
structure Added (h : Host) (info : NodeInfo) (node last : NodeState) (h' : Host) : Prop where
  wf : h'.swim.WellFormed
  sent : h'.sent = h.sent
  later : h.env.Later h'.env
  left : FewerLeft h h'
  same : SameNode h.swim h'.swim
  info_eq : node.info = info
  slot : Inherits h.env h.swim node
  find : h'.swim.find = Function.update h.swim.find info.uuid (some node)
  last_get : h'.swim.members[h.swim.viewSize]? = some last
  last_mem : last = node ∨ last ∈ h.swim.members
  last_max : ∀ m, m = node ∨ m ∈ h.swim.members → m.uuid ≤ last.uuid

/-- Those who were members are so with the same entry. -/
theorem Added.find_member {info : NodeInfo} {node last n : NodeState} {v : Uuid}
    (ha : Added h info node last h') (hfresh : h.swim.find info.uuid = none)
    (hn : h.swim.find v = some n) : h'.swim.find v = some n := by
  rw [ha.find, Function.update_of_ne (SWIM.ne_of_find hn hfresh), hn]

theorem wp_growView {post : Bool → Host → Prop}
    (hwf : h.swim.WellFormed)
    (hnull : ∀ h', Quiet h h' → ¬ h.env.Allocates → post false h')
    (hroom : ∀ h', h'.swim.WellFormed → h'.swim.members = h.swim.members →
      SameNode h.swim h'.swim → h'.swim.viewSize = h.swim.viewSize →
      h'.swim.viewSize < h'.swim.viewCapacity → h'.sent = h.sent →
      h.env.Later h'.env → FewerLeft h h' → post true h') :
    wp growView post fault h := by
  simp only [growView, wp_bind, wp_getSwim]
  split_ifs with hfull
  · rw [wp_bind]
    apply wp_reallocView
    intro h₁ hq
    cases hb : h.env.reallocView 0 with
    | none => exact hnull h₁ hq fun ha => by simpa [hb] using ha.2.2 0
    | some junk =>
      simp only [wp_bind, wp_modifySwim, wp_pure]
      have hwf₁ : h₁.swim.WellFormed := hq.1 ▸ hwf
      refine hroom _ hwf₁.grow ?_ ?_ ?_ ?_ hq.2.1 hq.2.2 (fewerLeft_of_spare hq.2.2 ?_)
      · rw [SWIM.grow_members hwf₁.size_le_length, hq.1]
      · simp [SameNode, SWIM.grow, hq.1]
      · simp [SWIM.grow, hq.1]
      · have hpos := hwf.capacity_pos
        have hle := hwf.size_le
        simp only [SWIM.grow, hq.1]
        omega
      · intro slot hslot
        rw [SWIM.grow_spare hwf₁.size_le_length, hq.1, List.mem_append, List.mem_map] at hslot
        rcases hslot with hslot | ⟨i, -, rfl⟩
        · exact .inl hslot
        · exact .inr ⟨0, junk, i, hb, rfl⟩
  · rw [wp_pure]
    exact hroom h hwf rfl ⟨rfl, rfl⟩ rfl (by omega) rfl (.refl _) fun _ => id

theorem wp_swimStateAdd {post : Option ℕ → Host → Prop} {info : NodeInfo}
    (hwf : h.swim.WellFormed) (hself : info.uuid ≠ h.swim.uuid)
    (hfresh : h.swim.find info.uuid = none)
    (hnull : ∀ h', Quiet h h' → ¬ h.env.Allocates → post none h')
    (hadd : ∀ h' node last, Added h info node last h' → post (some h.swim.viewSize) h') :
    wp (swimStateAdd info) post fault h := by
  have hcmp : uuidCompare info.uuid h.swim.uuid ≠ .eq := mt uuidCompare_eq.mp hself
  have hnode : h.swim.getNode info.uuid = none := hwf.getNode_eq_none.mpr hfresh
  simp only [swimStateAdd, wp_bind, wp_getSwim, wp_assert, if_pos hcmp, if_pos hnode]
  refine wp_growView hwf (fun h' hq ha => ?_) (fun h' hwf' hmem hsame hsize hlt hsent hlater hleft => ?_)
  · simpa using hnull h' hq ha
  · simp only [if_true, wp_bind, wp_modifySwim, swimProbeInvalidate, wp_pure]
    have hfind : h'.swim.find = h.swim.find := by
      funext u
      rw [SWIM.find, hmem, SWIM.find]
    obtain ⟨hwf'', node, hinfo, ⟨slot, hslot, hnode⟩, hupd, last, hget, hlast, hmax⟩ :=
      hwf'.inserted hlt (hsame.1 ▸ hself) (hfind ▸ hfresh)
    rw [hmem] at hlast hmax
    have htaken : FewerLeft h' { h' with swim := h'.swim.inserted info } :=
      fewerLeft_of_spare (.refl _) fun slot hs =>
        .inl (List.mem_of_mem_drop (hwf'.inserted_spare hlt info ▸ hs))
    exact hadd _ node last
      ⟨hwf'', hsent, hlater, hleft.trans htaken, hsame, hinfo,
        ⟨slot, hleft _ (.inl hslot), by simp [hnode]⟩,
        hfind ▸ hupd, hsize ▸ hget, hlast, hmax⟩

/-! ## Merging -/

/-- What `swim_state_merge` makes of the view, read as a finite map. -/
inductive Merged (env : Env) (info : NodeInfo) (t u : SWIM) : Prop
  | self (hself : info.uuid = t.uuid) (hu : u.find = t.find)
  | known {node} (hn : t.find info.uuid = some node)
      (hu : u.find = Function.update t.find info.uuid (some (node.merge info)))
  | new {node} (hself : info.uuid ≠ t.uuid) (hn : t.find info.uuid = none)
      (hi : node.info = info) (hw : Inherits env t node)
      (hu : u.find = Function.update t.find info.uuid (some node))

theorem wp_swimStateMerge {post : Unit → Host → Prop} {info : NodeInfo} (hwf : h.swim.WellFormed)
    (hmerged : ∀ h', h'.swim.WellFormed → SameNode h.swim h'.swim → h'.sent = h.sent →
      h.env.Later h'.env → FewerLeft h h' → Merged h.env info h.swim h'.swim → post () h')
    (hnull : ∀ h', Quiet h h' → ¬ h.env.Allocates → info.uuid ≠ h.swim.uuid →
      h.swim.find info.uuid = none → post () h') :
    wp (swimStateMerge info) post fault h := by
  simp only [swimStateMerge, wp_bind, wp_getSwim, uuidCompare_eq]
  refine wp_ite (fun hself => hmerged h hwf ⟨rfl, rfl⟩ rfl (.refl _) (fun _ => id)
    (.self hself rfl)) fun hself => ?_
  rw [wp_bind]
  refine wp_search hwf (fun hfresh => ?_) fun i node hi hu => ?_
  · rw [wp_bind]
    refine wp_swimStateAdd hwf hself hfresh (fun h' hq ha => hnull h' hq ha hself hfresh) ?_
    intro h' node last ha
    exact hmerged h' ha.wf ha.same ha.sent ha.later ha.left
      (.new hself hfresh ha.info_eq ha.slot ha.find)
  · have hfind := hwf.find_modifyNode (fun m => m.merge_uuid info) hi
    rw [hu] at hfind
    exact hmerged _ (hwf.modifyNode fun m => m.merge_uuid info) ⟨rfl, rfl⟩ rfl (.refl _)
      (fewerLeft_of_same (.refl _) (SWIM.modifyNode_spare _ hi))
      (.known (hu ▸ hwf.find_of_get hi) hfind)

end LibSwim
