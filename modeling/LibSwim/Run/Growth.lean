import LibSwim.Run.Acknowledged
import LibSwim.Run.Insertion

/-! # When the view cannot grow

A view that fills its block needs `realloc` for the next member. Gossip and JOIN ignore what
`swim_state_add` returns, so a member that cannot be added is left out and everything else goes on.
An ACK for a node that is not known goes on with the pointer, and dereferences `NULL`.
-/

namespace LibSwim

open Foundations Program

/-- The view fills its block, and `realloc` does not extend it. -/
structure Host.Full (h : Host) : Prop where
  size : h.swim.viewSize = h.swim.viewCapacity
  null : ∀ k, h.env.reallocView k = none

/-- Nothing about the view has changed, but that its entries have been rewritten by `f`. -/
structure Rewritten (f : NodeState → NodeState) (h h' : Host) : Prop where
  wf : h'.swim.WellFormed
  uuid : h'.swim.uuid = h.swim.uuid
  viewSize : h'.swim.viewSize = h.swim.viewSize
  viewCapacity : h'.swim.viewCapacity = h.swim.viewCapacity
  probe : h'.swim.probe = h.swim.probe
  later : h.env.Later h'.env
  find : ∀ v, h'.swim.find v = (h.swim.find v).map f

section

variable {fault : Fault → Host → Prop} {post : Unit → Host → Prop} {h h₁ h' : Host}
variable {f f' : NodeState → NodeState} {info g : NodeInfo} {e : Event} {addr : SockAddr} {u v : Uuid}
variable {n : NodeState}

theorem Rewritten.trans (hr : Rewritten f h h₁) (hr' : Rewritten f' h₁ h') :
    Rewritten (f' ∘ f) h h' where
  wf := hr'.wf
  uuid := hr'.uuid.trans hr.uuid
  viewSize := hr'.viewSize.trans hr.viewSize
  viewCapacity := hr'.viewCapacity.trans hr.viewCapacity
  probe := hr'.probe.trans hr.probe
  later := hr.later.trans hr'.later
  find v := by rw [hr'.find, hr.find, Option.map_map]

theorem Rewritten.full (hr : Rewritten f h h') (hfull : h.Full) : h'.Full where
  size := by rw [hr.viewSize, hr.viewCapacity, hfull.size]
  null k := by
    obtain ⟨k', hk'⟩ := hr.later.reallocView k
    rw [hk', hfull.null]

theorem rewritten_id (hwf : h.swim.WellFormed) (hswim : h'.swim = h.swim)
    (hlater : h.env.Later h'.env) : Rewritten id h h' where
  wf := hswim ▸ hwf
  uuid := by rw [hswim]
  viewSize := by rw [hswim]
  viewCapacity := by rw [hswim]
  probe := by rw [hswim]
  later := hlater
  find v := by rw [hswim, Option.map_id, id]

/-- What is to be done with a node that is no member is done with nobody. -/
theorem rewritten_of_swim (hwf : h.swim.WellFormed) (hswim : h'.swim = h.swim)
    (hlater : h.env.Later h'.env) (hv : h.swim.find v = none) (f : NodeState → NodeState) :
    Rewritten (fun m => if m.uuid = v then f m else m) h h' where
  wf := hswim ▸ hwf
  uuid := by rw [hswim]
  viewSize := by rw [hswim]
  viewCapacity := by rw [hswim]
  probe := by rw [hswim]
  later := hlater
  find u := by
    rw [hswim]
    exact hwf.find_eq_map f (.inr hv)

theorem rewritten_modifyNode {i : ℕ} (hwf : h.swim.WellFormed)
    (hi : h.swim.members[i]? = some n) (hf : ∀ m, (f m).uuid = m.uuid)
    (hswim : h'.swim = h.swim.modifyNode i f) (hlater : h.env.Later h'.env) :
    Rewritten (fun m => if m.uuid = n.uuid then f m else m) h h' where
  wf := hswim ▸ hwf.modifyNode hf
  uuid := by rw [hswim]; rfl
  viewSize := by rw [hswim]; rfl
  viewCapacity := by rw [hswim]; rfl
  probe := by rw [hswim]; rfl
  later := hlater
  find u := by
    rw [hswim]
    exact hwf.find_modifyNode_map hf hi u

/-! ## The functions the handlers are made of -/

theorem wp_addFull {post : Option ℕ → Host → Prop} (hwf : h.swim.WellFormed) (hfull : h.Full)
    (hself : info.uuid ≠ h.swim.uuid) (hfresh : h.swim.find info.uuid = none)
    (hp : ∀ h', h'.swim = h.swim → h.env.Later h'.env → h'.env.malloc = h.env.malloc →
      post none h') :
    wp (swimStateAdd info) post fault h := by
  have hcmp : uuidCompare info.uuid h.swim.uuid ≠ .eq := mt uuidCompare_eq.mp hself
  have hnode : h.swim.getNode info.uuid = none := hwf.getNode_eq_none.mpr hfresh
  simp only [swimStateAdd, growView, reallocView, wp_bind, wp_getSwim, wp_assert, if_pos hcmp,
    if_pos hnode, if_pos hfull.size.ge, wp_get, wp_modify, wp_pure, hfull.null 0,
    Bool.false_eq_true, if_false]
  exact hp _ rfl ⟨fun ha => ⟨ha.1, ha.2.1, fun _ => ha.2.2 _⟩, fun k => ⟨k + 1, rfl⟩⟩ rfl

/-- Gossip about a node that is not known is dropped. -/
theorem wp_mergeFull (hwf : h.swim.WellFormed) (hfull : h.Full)
    (hp : ∀ h', Rewritten (fun m => if m.uuid = g.uuid then m.merge g else m) h h' → post () h') :
    wp (swimStateMerge g) post fault h := by
  simp only [swimStateMerge, wp_bind, wp_getSwim, uuidCompare_eq]
  refine wp_ite (fun hself => ?_) fun hself => ?_
  · exact hp h (rewritten_of_swim hwf rfl (.refl _) (hself ▸ hwf.find_self) _)
  · rw [wp_bind]
    refine wp_search hwf (fun hfresh => ?_) fun i m hi hu => ?_
    · rw [wp_bind]
      apply wp_addFull hwf hfull hself hfresh
      intro h' hswim hlater _
      exact hp h' (rewritten_of_swim hwf hswim hlater hfresh _)
    · apply hp
      rw [← hu]
      exact rewritten_modifyNode hwf hi (fun k => k.merge_uuid g) rfl (.refl _)

theorem wp_noticeFull {post : Option ℕ → Host → Prop} (hwf : h.swim.WellFormed)
    (hp : ∀ r h', (∀ n, h.swim.find e.hdr.uuid = some n → n.info.Valid) → Rewritten e.noticed h h' →
      h'.env = h.env → post r h')
    (hbad : ∀ f h', (¬ ∀ n, h.swim.find e.hdr.uuid = some n → n.info.Valid) → fault f h') :
    wp (swimStateNotice e.hdr.uuid e.hdr.time e.hdr.incarnation) post fault h := by
  refine wp_swimStateNotice hwf (fun hnone => ?_) (fun i m hi hu hvalid => ?_) fun m hm hinvalid => ?_
  · exact hp none h (by simp [hnone]) (rewritten_of_swim hwf rfl (.refl _) hnone _) rfl
  · have hfind := hwf.find_of_get hi
    rw [hu] at hfind
    refine hp (some i) _ (by simpa [hfind] using hvalid) ?_ rfl
    have hr : Rewritten _ h { h with swim := h.swim.modifyNode i _ } := rewritten_modifyNode hwf hi
      (fun k => k.notice_uuid e.hdr.time e.hdr.incarnation) rfl (.refl _)
    rwa [hu] at hr
  · exact hbad _ h fun hall => hinvalid (hall m hm)

theorem mergeAll_cons_comp (g : NodeInfo) (gs : List NodeInfo) :
    mergeAll (g :: gs) = mergeAll gs ∘ fun m => if m.uuid = g.uuid then m.merge g else m := by
  funext m
  simp only [mergeAll_cons, Function.comp_apply, eq_comm]

/-- The whole list is processed, whatever cannot be added on the way. -/
theorem wp_gossipFull (gs : List NodeInfo) (hwf : h.swim.WellFormed) (hfull : h.Full) :
    wp (swimProcessGossip gs)
      (fun _ h' => (∀ g ∈ gs, g.Processable h.swim.uuid) ∧ Rewritten (mergeAll gs) h h')
      (fun _ _ => ¬ ∀ g ∈ gs, g.Processable h.swim.uuid) h := by
  induction gs generalizing h with
  | nil => exact ⟨by simp, rewritten_id hwf rfl (.refl _)⟩
  | cons g gs ih =>
    -- one entry has been dealt with, the others are dealt with from the state it leaves
    have hrest {h₁ : Host} (hproc : g.Processable h.swim.uuid)
        (hr : Rewritten (fun m => if m.uuid = g.uuid then m.merge g else m) h h₁) :
        wp (swimProcessGossip gs)
          (fun _ h' => (∀ g' ∈ g :: gs, g'.Processable h.swim.uuid) ∧ Rewritten (mergeAll (g :: gs)) h h')
          (fun _ _ => ¬ ∀ g' ∈ g :: gs, g'.Processable h.swim.uuid) h₁ := by
      refine wp_mono (ih hr.wf (hr.full hfull)) ?_ ?_
      · rintro _ h' ⟨hprocs, hr'⟩
        rw [hr.uuid] at hprocs
        rw [mergeAll_cons_comp]
        exact ⟨List.forall_mem_cons.mpr ⟨hproc, hprocs⟩, hr.trans hr'⟩
      · intro _ _ hbad hall
        rw [hr.uuid] at hbad
        exact hbad (List.forall_mem_cons.mp hall).2
    rw [swimProcessGossip, List.forM_cons, wp_bind]
    refine wp_gossipStep hwf ?_ (fun hproc => ?_) ?_
    · intro h₁ hproc hself hwf₁ huuid hfind _ henv hswim
      have hview : h₁.swim.viewSize = h.swim.viewSize ∧
          h₁.swim.viewCapacity = h.swim.viewCapacity ∧ h₁.swim.probe = h.swim.probe := by
        rcases hswim with hs | hs
        · simp [hs]
        · simp [hs, SWIM.incarnate]
      refine hrest hproc
        ⟨hwf₁, huuid, hview.1, hview.2.1, hview.2.2, henv ▸ .refl _, fun v => ?_⟩
      rw [hfind]
      exact hwf.find_eq_map _ (.inr (hself ▸ hwf.find_self))
    · exact wp_mergeFull hwf hfull fun h₁ hr => hrest hproc hr
    · intro _ hbad hall
      exact hbad (List.forall_mem_cons.mp hall).1

/-! ## Events -/

/-- A PING is answered, and its gossip processed as far as it is about members. -/
theorem wp_pingFull (hwf : h.swim.WellFormed) (hfull : h.Full) (hb : e.body = .ping) :
    wp (swimProcessEvent e addr)
      (fun _ h' => ((∀ n, h.swim.find e.hdr.uuid = some n → n.info.Valid) ∧
        h.env.malloc 0 = true ∧ ∀ g ∈ e.gossip, g.Processable h.swim.uuid) ∧
        Rewritten (mergeAll e.gossip ∘ e.noticed) h h')
      (fun _ _ => ¬ ((∀ n, h.swim.find e.hdr.uuid = some n → n.info.Valid) ∧
        h.env.malloc 0 = true ∧ ∀ g ∈ e.gossip, g.Processable h.swim.uuid)) h := by
  rw [swimProcessEvent, wp_bind]
  refine wp_noticeFull hwf (fun _ h₁ hvalid hr henv => ?_) fun _ _ hbad hall => hbad hall.1
  rw [dispatch, hb, swimProcessPing, wp_bind, wp_getSwim, wp_bind, swimSendAck]
  refine wp_sendWithGossip hr.wf (fun h₂ hm hsent => ?_) fun _ hm _ hall => ?_
  · have hr₂ := rewritten_id hr.wf hsent.swim hsent.later
    refine wp_mono (wp_gossipFull e.gossip hr₂.wf (hr₂.full (hr.full hfull))) ?_ ?_
    · rintro _ h' ⟨hproc, hr'⟩
      rw [hr₂.uuid, hr.uuid] at hproc
      exact ⟨⟨hvalid, henv ▸ hm, hproc⟩, hr.trans (hr₂.trans hr')⟩
    · intro _ _ hbad hall
      rw [hr₂.uuid, hr.uuid] at hbad
      exact hbad hall.2.2
  · rw [henv] at hm
    simp [hm] at hall

/-- An ACK for a member is dealt with; any other one is the end of the program. -/
theorem wp_ackFull (hwf : h.swim.WellFormed) (hfull : h.Full) (hb : e.body = .ack v)
    (hself : v ≠ h.swim.uuid) :
    wp (swimProcessEvent e addr)
      (fun _ h' => ((∀ n, h.swim.find e.hdr.uuid = some n → n.info.Valid) ∧
        (∀ g ∈ e.gossip, g.Processable h.swim.uuid) ∧
        ∃ n, h.swim.find v = some n ∧ ((e.noticed n).Relays → h.env.malloc 0 = true)) ∧
        Rewritten (mergeAll e.gossip ∘ (fun m => if m.uuid = v then m.acked else m) ∘ e.noticed) h h')
      (fun _ _ => ¬ ((∀ n, h.swim.find e.hdr.uuid = some n → n.info.Valid) ∧
        (∀ g ∈ e.gossip, g.Processable h.swim.uuid) ∧
        ∃ n, h.swim.find v = some n ∧ ((e.noticed n).Relays → h.env.malloc 0 = true))) h := by
  rw [swimProcessEvent, wp_bind]
  refine wp_noticeFull hwf (fun _ h₁ hvalid hr henv => ?_) fun _ _ hbad hall => hbad hall.1
  rw [dispatch, hb]
  rw [← hr.uuid] at hself
  simp only [swimProcessAck, ackNode, wp_bind, wp_getSwim, uuidCompare_eq, if_neg hself]
  cases hn : h.swim.find v with
  | none =>
    have hn₁ : h₁.swim.find v = none := by rw [hr.find, hn, Option.map_none]
    refine wp_search hr.wf (fun _ => ?_) fun i m hi hu => ?_
    · apply wp_addFull hr.wf (hr.full hfull) hself hn₁
      intro _ _ _ _
      simp
    · rw [← hu, hr.wf.find_of_get hi] at hn₁
      cases hn₁
  | some n =>
    have hn₁ : h₁.swim.find v = some (e.noticed n) := by rw [hr.find, hn, Option.map_some]
    apply wp_searchMember hr.wf hn₁
    intro i hi
    have hv : (e.noticed n).uuid = v := (hr.wf.find_eq_some.mp hn₁).2
    rw [wp_pure, wp_bind]
    refine wp_ackSwitch_acked hr.wf hi (fun h₂ hrelay hlater hswim => ?_) fun _ hrelays hm hall => ?_
    · have hr₂ := rewritten_modifyNode hr.wf hi acked_uuid hswim hlater
      rw [hv] at hr₂
      rw [henv] at hrelay
      refine wp_mono (wp_gossipFull e.gossip hr₂.wf (hr₂.full (hr.full hfull))) ?_ ?_
      · rintro _ h' ⟨hproc, hr'⟩
        rw [hr₂.uuid, hr.uuid] at hproc
        exact ⟨⟨hvalid, hproc, n, rfl, hrelay⟩, hr.trans (hr₂.trans hr')⟩
      · intro _ _ hbad hall
        rw [hr₂.uuid, hr.uuid] at hbad
        exact hbad hall.2.1
    · obtain ⟨-, -, m, hm', hrelay⟩ := hall
      cases hm'
      rw [henv] at hm
      simp [hrelay hrelays] at hm

/-- A JOIN that cannot be recorded is sent on and answered all the same. -/
theorem wp_joinFull {joinAddr : SockAddr} (hwf : h.swim.WellFormed) (hfull : h.Full)
    (hb : e.body = .join u joinAddr) (hself : u ≠ h.swim.uuid) (hfresh : h.swim.find u = none) :
    wp (swimProcessEvent e addr)
      (fun _ h' => ((∀ n, h.swim.find e.hdr.uuid = some n → n.info.Valid) ∧
        0 < e.hdr.time ∧ h.env.malloc 0 = true) ∧ Rewritten e.noticed h h')
      (fun _ _ => ¬ ((∀ n, h.swim.find e.hdr.uuid = some n → n.info.Valid) ∧
        0 < e.hdr.time ∧ h.env.malloc 0 = true)) h := by
  rw [swimProcessEvent, wp_bind]
  refine wp_noticeFull hwf (fun _ h₁ hvalid hr henv => ?_) fun _ _ hbad hall => hbad hall.1
  have hfresh₁ : h₁.swim.find u = none := by rw [hr.find, hfresh, Option.map_none]
  have hself₁ : ¬ h₁.swim.uuid = u := by rw [hr.uuid]; exact Ne.symm hself
  have hnode : ¬ h₁.swim.getNode u ≠ none := by
    rw [not_not]
    exact hr.wf.getNode_eq_none.mpr hfresh₁
  rw [dispatch, hb]
  simp only [swimProcessJoin, wp_bind, wp_getSwim, uuidCompare_eq, if_neg hself₁, if_neg hnode,
    wp_assert]
  split_ifs with htime
  · apply wp_addFull hr.wf (hr.full hfull) (Ne.symm hself₁) hfresh₁
    intro h₂ hswim hlater hmalloc
    have hwf₂ : h₂.swim.WellFormed := hswim ▸ hr.wf
    apply wp_sendToAll hwf₂
    rw [swimSendAck]
    refine wp_sendWithGossip hwf₂ (fun h' hm hsent => ⟨⟨hvalid, htime.1, ?_⟩, ?_⟩) fun _ hm _ hall => ?_
    · rw [← hm, hmalloc, henv]
    · exact hr.trans (rewritten_id hr.wf (hsent.swim.trans hswim) (hlater.trans hsent.later))
    · rw [hmalloc, henv] at hm
      simp [hm] at hall
  · rintro ⟨-, hpos, -⟩
    exact htime ⟨hpos, by simp⟩

end

/-! ## Surviving it -/

/-- Processing the event would insert a member: the node that joins, the node acknowledged, or one
that the gossip is about. -/
def Event.Inserts (s : SWIM) (e : Event) : Prop :=
  match e.body with
  | .join u _ => u ≠ s.uuid ∧ s.find u = none
  | .ack u => u ≠ s.uuid ∧
      (s.find u = none ∨ ∃ g ∈ e.gossip, g.uuid ≠ s.uuid ∧ s.find g.uuid = none)
  | .ping => ∃ g ∈ e.gossip, g.uuid ≠ s.uuid ∧ s.find g.uuid = none
  | .pingReq _ | .leave _ => False

/-- The member `u` is neither noticed as the sender nor gossiped about. -/
def Event.Spares (s : SWIM) (e : Event) (u : Uuid) : Prop :=
  u ≠ e.hdr.uuid ∧ (e.body.ReadsGossip s.uuid → ∀ g ∈ e.gossip, g.uuid ≠ u)

/-- What is to be as before when a member could not be inserted. -/
structure Atomic (e : Event) (s s' : SWIM) : Prop where
  viewSize : s'.viewSize = s.viewSize
  viewCapacity : s'.viewCapacity = s.viewCapacity
  probe : s'.probe = s.probe
  others : ∀ u, e.Spares s u → s'.find u = s.find u

/-- The events that survive: nothing else stops their processing, and an ACK is for a member, which
it does not have to refute unless the member is among those that are updated anyway. -/
def Survivable (s : SWIM) (env : Env) (e : Event) : Prop :=
  (∀ n, s.find e.hdr.uuid = some n → n.info.Valid) ∧
    match e.body with
    | .join _ _ => 0 < e.hdr.time ∧ env.malloc 0 = true
    | .ping => env.malloc 0 = true ∧ ∀ g ∈ e.gossip, g.Processable s.uuid
    | .ack v => (∀ g ∈ e.gossip, g.Processable s.uuid) ∧ ∃ n, s.find v = some n ∧
        (n.Relays ∧ (v = e.hdr.uuid → e.hdr.incarnation < n.info.incarnation) →
          env.malloc 0 = true) ∧
        (e.Spares s v → n.info.status ≠ .suspect ∧ n.info.status ≠ .unknown)
    | .pingReq _ | .leave _ => False

section

variable {s : SWIM} {env : Env} {e : Event} {addr : SockAddr} {n : NodeState} {v : Uuid}

/-- Noticing the sender ends a suspicion, unless the event is stale. -/
theorem relays_noticed : (e.noticed n).Relays ↔
    n.Relays ∧ (n.uuid = e.hdr.uuid → e.hdr.incarnation < n.info.incarnation) := by
  unfold Event.noticed
  split_ifs with hu
  · by_cases hstale : e.hdr.incarnation < n.info.incarnation
    · simp [NodeState.notice_stale hstale, hstale]
    · simp only [hu, hstale, forall_const, and_false, iff_false]
      rintro ⟨hsuspect, -⟩
      obtain ⟨seen, status, -, hstatus, hinfo⟩ := n.notice_info e.hdr.time e.hdr.incarnation
      rw [hinfo] at hsuspect
      obtain rfl : status = .suspect := hsuspect
      have hn : n.info.status = .suspect := by
        rcases hstatus with hs | hs
        · exact hs.symm
        · cases hs
      have halive : (n.notice e.hdr.time e.hdr.incarnation).info.status = .alive :=
        NodeState.notice_alive (not_lt.mp hstale) (.inr hn)
      rw [hinfo] at halive
      cases halive
  · simp [hu]

theorem acked_eq_self_iff :
    n.acked = n ↔ n.info.status ≠ .suspect ∧ n.info.status ≠ .unknown := by
  unfold NodeState.acked
  cases hs : n.info.status with
  | suspect | unknown =>
    simp only [ne_eq, not_true_eq_false, false_and, and_false, iff_false]
    intro heq
    have hstatus := congrArg (fun m : NodeState => m.info.status) heq
    simp [NodeState.refute, swimNodeResetWitness, hs] at hstatus
  | dead | alive | other => simp

/-- What the event does is atomic if it leaves the entries alone that it has to spare. -/
theorem atomic_iff {P : Prop} {f : NodeState → NodeState}
    (hspec : wp (swimProcessEvent e addr) (fun _ h' => P ∧ Rewritten f ⟨s, env, []⟩ h')
      (fun _ _ => ¬ P) ⟨s, env, []⟩) :
    (∃ s', Returns s ⟨env, .event e addr⟩ s' ∧ Atomic e s s') ↔
      P ∧ ∀ u n, s.find u = some n → e.Spares s u → f n = n := by
  constructor
  · rintro ⟨s', ⟨ps, hrun⟩, hatomic⟩
    obtain ⟨t, ⟨hP, hr⟩, rfl, -⟩ := runStep_ok hrun hspec
    refine ⟨hP, fun u n hn hspares => ?_⟩
    have hsame := hatomic.others u hspares
    rw [hr.find, hn, Option.map_some] at hsame
    exact Option.some.inj hsame
  · rintro ⟨hP, hframe⟩
    obtain ⟨t, ⟨-, hr⟩, hrun⟩ := runStep_total (c := ⟨env, .event e addr⟩)
      (wp_mono hspec (fun _ _ => id) fun _ _ hno => hno hP)
    refine ⟨t.swim, ⟨t.sent, hrun⟩, hr.viewSize, hr.viewCapacity, hr.probe, fun u hspares => ?_⟩
    rw [hr.find]
    cases hn : s.find u with
    | none => rfl
    | some n => rw [Option.map_some, hframe u n hn hspares]

/-- Of the entries that an ACK has to spare, it rewrites the one acknowledged and no other. -/
theorem ack_spared {u : Uuid} (hwf : s.WellFormed) (hreads : e.body.ReadsGossip s.uuid)
    (hn : s.find u = some n) (hspares : e.Spares s u) :
    (mergeAll e.gossip ∘ (fun m => if m.uuid = v then m.acked else m) ∘ e.noticed) n =
      if u = v then n.acked else n := by
  obtain ⟨hu, hgossip⟩ := hspares
  obtain rfl := (hwf.find_eq_some.mp hn).2
  rw [Function.comp_apply, Function.comp_apply, Event.noticed_of_ne hu]
  apply mergeAll_of_ne
  split_ifs
  · rw [acked_uuid]
    exact hgossip hreads
  · exact hgossip hreads

theorem ack_survives_iff (hwf : s.WellFormed) (hfull : Host.Full ⟨s, env, []⟩) (hb : e.body = .ack v)
    (hself : v ≠ s.uuid) :
    (∃ s', Returns s ⟨env, .event e addr⟩ s' ∧ Atomic e s s') ↔ Survivable s env e := by
  have huuid {n : NodeState} (hn : s.find v = some n) : n.uuid = v := (hwf.find_eq_some.mp hn).2
  have hreads : e.body.ReadsGossip s.uuid := by rw [hb]; exact hself
  rw [atomic_iff (wp_ackFull hwf hfull hb hself)]
  simp only [Survivable, hb]
  constructor
  · rintro ⟨⟨hvalid, hproc, n, hn, hrelay⟩, hframe⟩
    rw [relays_noticed, huuid hn] at hrelay
    refine ⟨hvalid, hproc, n, hn, hrelay, fun hspares => ?_⟩
    have hsame := hframe v n hn hspares
    rw [ack_spared hwf hreads hn hspares, if_pos rfl] at hsame
    exact acked_eq_self_iff.mp hsame
  · rintro ⟨hvalid, hproc, n, hn, hrelay, hframe⟩
    rw [← huuid hn, ← relays_noticed] at hrelay
    refine ⟨⟨hvalid, hproc, n, hn, hrelay⟩, fun u m hm hspares => ?_⟩
    rw [ack_spared hwf hreads hm hspares]
    split_ifs with huv
    · subst huv
      cases hn.symm.trans hm
      exact acked_eq_self_iff.mpr (hframe hspares)
    · rfl

/-- From every state with a full view, when `realloc` fails: an event that would insert a member is
processed to its end, and atomically, exactly when it is survivable. -/
theorem growth_failure_iff (hwf : s.WellFormed) (hsize : s.viewSize = s.viewCapacity)
    (hnull : ∀ k, env.reallocView k = none) (hins : e.Inserts s) :
    (∃ s', Returns s ⟨env, .event e addr⟩ s' ∧ Atomic e s s') ↔ Survivable s env e := by
  have hfull : Host.Full ⟨s, env, []⟩ := ⟨hsize, hnull⟩
  have hspared {u : Uuid} {n : NodeState} (hn : s.find u = some n) (hspares : e.Spares s u) :
      e.noticed n = n := Event.noticed_of_ne ((hwf.find_eq_some.mp hn).2.trans_ne hspares.1)
  unfold Event.Inserts at hins
  cases hb : e.body with
  | pingReq u | leave u => simp [hb] at hins
  | join u a =>
    simp only [hb] at hins
    rw [atomic_iff (wp_joinFull hwf hfull hb hins.1 hins.2), and_iff_left_iff_imp.mpr]
    · simp only [Survivable, hb]
    · exact fun _ u n hn hspares => hspared hn hspares
  | ping =>
    have hreads : e.body.ReadsGossip s.uuid := by rw [hb]; trivial
    rw [atomic_iff (wp_pingFull hwf hfull hb), and_iff_left_iff_imp.mpr]
    · simp only [Survivable, hb]
    · intro _ u n hn hspares
      rw [Function.comp_apply, hspared hn hspares]
      exact mergeAll_of_ne ((hwf.find_eq_some.mp hn).2 ▸ hspares.2 hreads)
  | ack v =>
    simp only [hb] at hins
    exact ack_survives_iff hwf hfull hb hins.1

end

/-- The heap has no block for a larger view. -/
def noLargerView : Env := { steadyEnv 1000 with reallocView := fun _ => none }

/-- Node 40, which is not known, sends a PING with gossip about itself. -/
def strangerPing : Event := ⟨⟨.ofByte 40, 1000, 0⟩, .ping, [aliveInfo 40]⟩

/-- Node 40, which is not known, acknowledges for itself, as it does when asked to let a node
join. -/
def strangerAck : Event := ⟨⟨.ofByte 40, 1000, 0⟩, .ack (.ofByte 40), []⟩

theorem fullView_state :
    let s := play (swimStateInit (.ofByte 1) 1000) fullView
    plays (swimStateInit (.ofByte 1) 1000) fullView = true ∧ s.viewSize = s.viewCapacity ∧
      Uuid.ofByte 40 ≠ s.uuid ∧ s.find (.ofByte 40) = none := by
  decide +kernel

theorem growth_failure_ping :
    let s := play (swimStateInit (.ofByte 1) 1000) fullView
    s.viewSize = s.viewCapacity ∧ strangerPing.Inserts s ∧
      ∃ s', Returns s ⟨noLargerView, .event strangerPing .none⟩ s' ∧ Atomic strangerPing s s' := by
  intro s
  obtain ⟨hplays, hsize, hself, hfresh⟩ := fullView_state
  have hins : strangerPing.Inserts s := ⟨aliveInfo 40, by simp [strangerPing], hself, hfresh⟩
  have hwf := wellFormed_of_ops (run_of_plays hplays (.refl _))
  refine ⟨hsize, hins, (growth_failure_iff hwf hsize (fun _ => rfl) hins).mpr ⟨?_, rfl, ?_⟩⟩
  · intro n hn
    exact absurd rfl (SWIM.ne_of_find hn hfresh)
  · intro g hg
    obtain rfl := List.mem_singleton.mp hg
    exact ⟨by decide, fun h => by simp [aliveInfo] at h⟩

/-- The ACK that a node which asked to join gets ends the program. -/
theorem growth_failure_ack :
    let s := play (swimStateInit (.ofByte 1) 1000) fullView
    Run Performs anyOp (swimStateInit (.ofByte 1) 1000) s ∧ s.viewSize = s.viewCapacity ∧
      (∀ k, noLargerView.reallocView k = none) ∧ strangerAck.Inserts s ∧
      (runStep ⟨noLargerView, .event strangerAck .none⟩ s).1 = .error .nullDeref ∧
      ¬ ∃ s', Returns s ⟨noLargerView, .event strangerAck .none⟩ s' ∧ Atomic strangerAck s s' := by
  intro s
  obtain ⟨hplays, hsize, hself, hfresh⟩ := fullView_state
  have hfault : (runStep ⟨noLargerView, .event strangerAck .none⟩ s).1 = .error .nullDeref := by
    decide +kernel
  refine ⟨run_of_plays hplays (.refl _), hsize, fun _ => rfl, ⟨hself, .inl hfresh⟩, hfault, ?_⟩
  rintro ⟨s', ⟨ps, hrun⟩, -⟩
  rw [hrun] at hfault
  cases hfault

end LibSwim
