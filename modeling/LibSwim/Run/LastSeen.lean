import LibSwim.Run.Acknowledged

/-! # The time at which a member was last seen

Gossip about an ALIVE member moves `last_seen` forward only. A message of the member itself sets it
to the time in the header, whatever was recorded before, so that a message which was overtaken by a
later one takes the time back.
-/

namespace LibSwim

open Foundations Program

/-- ALIVE under the incarnation `i`. -/
def NodeState.AliveAs (i : ℕ) (n : NodeState) : Prop :=
  n.info.status = .alive ∧ n.info.incarnation = i

/-- No longer ALIVE under the incarnation `i`. -/
def NodeState.Past (i : ℕ) (n : NodeState) : Prop :=
  i < n.info.incarnation ∨ n.info.incarnation = i ∧ n.info.status ≠ .alive

/-- The member `u` is ALIVE under the incarnation `i`, and was last seen at time `t`. -/
def SWIM.SeenAs (u : Uuid) (i : ℕ) (t : ℤ) (s : SWIM) : Prop :=
  ∃ n, s.find u = some n ∧ n.AliveAs i ∧ n.info.lastSeen = t

/-- Gossip that says that `u` was seen ALIVE under the incarnation `i` at `t` or later. -/
def NodeInfo.Vouches (u : Uuid) (i : ℕ) (t : ℤ) (g : NodeInfo) : Prop :=
  g.uuid = u ∧ g.incarnation = i ∧ g.status = .alive ∧ t ≤ g.lastSeen

/-- The call does not bring a message of `u` that is older than the record of `u` and under the same
incarnation, unless the message carries gossip that makes up for it. -/
def onTime (u : Uuid) (s : SWIM) (c : Call) : Prop :=
  ∀ e addr n, c.action = .event e addr → s.find u = some n → e.hdr.uuid = u →
    e.hdr.incarnation = n.info.incarnation → n.info.lastSeen ≤ e.hdr.time ∨
      e.body.ReadsGossip s.uuid ∧
        ∃ g ∈ e.gossip, g.Vouches u n.info.incarnation n.info.lastSeen

section

variable {h h' : Host} {s s' : SWIM} {c : Call} {env : Env} {e : Event} {addr joinAddr : SockAddr}
variable {u v w : Uuid} {n m : NodeState} {g : NodeInfo} {gs : List NodeInfo} {i : ℕ} {t t' : ℤ}

/-! ## Gossip about an ALIVE member -/

theorem NodeState.Past.not_aliveAs (hp : n.Past i) : ¬ n.AliveAs i := by
  rintro ⟨hs, hi⟩
  rcases hp with hlt | ⟨-, hne⟩
  · omega
  · exact hne hs

theorem NodeState.Past.merge (hp : n.Past i) : (n.merge g).Past i := by
  rcases lt_trichotomy g.incarnation n.info.incarnation with hlt | heq | hgt
  · rwa [NodeState.merge_stale hlt]
  · rcases hp with hlt | ⟨hi, hne⟩
    · left
      rwa [NodeState.merge_same heq]
    · right
      refine ⟨by rw [NodeState.merge_same heq, hi], ?_⟩
      rw [NodeState.merge, if_neg (by omega), if_pos heq]
      cases hs : n.info.status with
      | alive => exact absurd hs hne
      | suspect =>
        -- the status only goes up, and ALIVE is below SUSPECT
        dsimp only
        split_ifs with hlt hsame
        · rintro halive
          have halive : g.status = .alive := halive
          rw [halive] at hlt
          exact absurd hlt (by decide)
        · simp [hs]
        · simp [hs]
      | dead | unknown => simp [swimNodeReset, hs]
      | other k => simp [hs]
  · left
    rw [NodeState.incarnation_merge]
    have hle : i ≤ n.info.incarnation := by
      rcases hp with hlt | ⟨hi, -⟩
      · exact hlt.le
      · exact hi.ge
    omega

/-- Gossip ends the life under the incarnation, or moves the time forward. -/
theorem NodeState.AliveAs.merge (ha : n.AliveAs i) : (n.merge g).Past i ∨
    (n.merge g).AliveAs i ∧ ∀ t, t ≤ (n.merge g).info.lastSeen ↔
      t ≤ n.info.lastSeen ∨ g.incarnation = i ∧ g.status = .alive ∧ t ≤ g.lastSeen := by
  obtain ⟨hs, rfl⟩ := ha
  rcases lt_trichotomy g.incarnation n.info.incarnation with hlt | heq | hgt
  · right
    rw [NodeState.merge_stale hlt]
    exact ⟨⟨hs, rfl⟩, fun t => by simp [hlt.ne]⟩
  · rw [NodeState.merge, if_neg (by omega), if_pos heq, hs]
    dsimp only
    split_ifs with hlt hseen
    · left
      refine .inr ⟨rfl, fun (halive : g.status = .alive) => ?_⟩
      rw [halive] at hlt
      exact hlt.false
    · right
      obtain ⟨halive, hlt⟩ := hseen
      refine ⟨⟨hs, rfl⟩, fun t => ?_⟩
      simp only [heq, halive, true_and]
      omega
    · right
      refine ⟨⟨hs, rfl⟩, fun t => ⟨.inl, ?_⟩⟩
      rintro (ht | ⟨-, halive, ht⟩)
      · exact ht
      · exact ht.trans (not_lt.mp fun hlt => hseen ⟨halive, hlt⟩)
  · left
    left
    rw [NodeState.incarnation_merge]
    omega

theorem mergeAll_past (hp : n.Past i) : (mergeAll gs n).Past i := by
  induction gs generalizing n with
  | nil => exact hp
  | cons g gs ih =>
    rw [mergeAll_cons]
    apply ih
    split_ifs
    · exact hp.merge
    · exact hp

/-- While the member stays ALIVE under its incarnation, gossip takes the latest of the times. -/
theorem mergeAll_lastSeen (ha : n.AliveAs i) (ha' : (mergeAll gs n).AliveAs i) :
    t ≤ (mergeAll gs n).info.lastSeen ↔
      t ≤ n.info.lastSeen ∨ ∃ g ∈ gs, g.Vouches n.uuid i t := by
  induction gs generalizing n with
  | nil => simp [mergeAll]
  | cons g gs ih =>
    rw [mergeAll_cons] at ha' ⊢
    by_cases hu : g.uuid = n.uuid
    · rw [if_pos hu] at ha' ⊢
      rcases ha.merge (g := g) with hp | ⟨hm, htime⟩
      · exact absurd ha' (mergeAll_past hp).not_aliveAs
      · rw [ih hm ha', htime, NodeState.merge_uuid, or_assoc]
        simp only [List.mem_cons, exists_eq_or_imp, NodeInfo.Vouches, hu, true_and]
    · rw [if_neg hu] at ha' ⊢
      rw [ih ha ha']
      simp only [List.mem_cons, exists_eq_or_imp, NodeInfo.Vouches, hu, false_and, false_or]

/-! ## A message of the member -/

/-- The message of a member sets the time, whether it is later or not. -/
theorem NodeState.AliveAs.noticed (ha : n.AliveAs i) : (e.noticed n).Past i ∨
    (e.noticed n).AliveAs i ∧ (e.noticed n).info.lastSeen =
      if e.hdr.uuid = n.uuid ∧ e.hdr.incarnation = i then e.hdr.time else n.info.lastSeen := by
  obtain ⟨hs, rfl⟩ := ha
  by_cases hu : n.uuid = e.hdr.uuid
  · rw [Event.noticed_of_eq hu]
    rcases lt_trichotomy e.hdr.incarnation n.info.incarnation with hlt | heq | hgt
    · right
      rw [NodeState.notice_stale hlt, if_neg fun hc => hlt.ne hc.2]
      exact ⟨⟨hs, rfl⟩, rfl⟩
    · right
      rw [if_pos ⟨hu.symm, heq⟩]
      exact ⟨⟨NodeState.notice_alive heq.ge (.inl hs), (NodeState.notice_same heq).1⟩,
        NodeState.lastSeen_notice heq.ge (.inl hs)⟩
    · left
      left
      rw [NodeState.incarnation_notice]
      omega
  · right
    rw [Event.noticed_of_ne hu, if_neg fun hc => hu hc.1.symm]
    exact ⟨⟨hs, rfl⟩, rfl⟩

theorem noticed_alive (hs : n.info.status = .alive) : (e.noticed n).info.status = .alive := by
  by_cases hu : n.uuid = e.hdr.uuid
  · rw [Event.noticed_of_eq hu]
    rcases lt_or_ge e.hdr.incarnation n.info.incarnation with hlt | hle
    · rwa [NodeState.notice_stale hlt]
    · exact NodeState.notice_alive hle (.inl hs)
  · rwa [Event.noticed_of_ne hu]

/-- The entry of an ALIVE member after an event, unless the event names the member as suspected or
gone. -/
def Event.refreshed (self : Uuid) (e : Event) (n : NodeState) : NodeState :=
  if e.body.ReadsGossip self then mergeAll e.gossip (e.noticed n) else e.noticed n

/-- The time does not go back just when the message is not older or its gossip makes up for it. -/
theorem lastSeen_refreshed (ha : n.AliveAs i) (ha' : (e.refreshed u n).AliveAs i) :
    n.info.lastSeen ≤ (e.refreshed u n).info.lastSeen ↔
      (e.hdr.uuid = n.uuid → e.hdr.incarnation = i → n.info.lastSeen ≤ e.hdr.time ∨
        e.body.ReadsGossip u ∧ ∃ g ∈ e.gossip, g.Vouches n.uuid i n.info.lastSeen) := by
  have hseen : (e.noticed n).AliveAs i → (n.info.lastSeen ≤ (e.refreshed u n).info.lastSeen ↔
      n.info.lastSeen ≤ (e.noticed n).info.lastSeen ∨
        e.body.ReadsGossip u ∧ ∃ g ∈ e.gossip, g.Vouches n.uuid i n.info.lastSeen) := by
    intro hnot
    unfold Event.refreshed at ha' ⊢
    split_ifs at ha' ⊢ with hr
    · simp only [mergeAll_lastSeen hnot ha', Event.noticed_uuid, hr, true_and]
    · simp only [hr, false_and, or_false]
  rcases ha.noticed (e := e) with hp | ⟨hnot, htime⟩
  · refine absurd ha' (NodeState.Past.not_aliveAs ?_)
    unfold Event.refreshed
    split_ifs
    · exact mergeAll_past hp
    · exact hp
  · rw [hseen hnot, htime]
    by_cases hfrom : e.hdr.uuid = n.uuid ∧ e.hdr.incarnation = i
    · simp [hfrom]
    · simp only [if_neg hfrom, le_refl, true_or, true_iff]
      exact fun hu hi => absurd ⟨hu, hi⟩ hfrom

/-! ## Handlers -/

theorem Switched.find_alive {node : NodeState} (hsw : Switched node h h')
    (hn : h.swim.find v = some n) (hs : n.info.status = .alive) : h'.swim.find v = some n := by
  rw [hsw.find, hn, Option.map_some]
  simp [NodeState.acked, hs]

/-- The switch of an ACK, on whichever entry, does not touch an ALIVE member. -/
theorem wp_ackAlive (hwf : h.swim.WellFormed) (hn : h.swim.find v = some n)
    (hs : n.info.status = .alive) (hw : w ≠ h.swim.uuid) :
    wp (swimProcessAck e w addr) (fun _ h' => h'.swim.find v = some (mergeAll e.gossip n))
      (fun _ _ => True) h := by
  have hgossip {node : NodeState} {h₁ h₂ : Host} (hsw : Switched node h₁ h₂)
      (hn₁ : h₁.swim.find v = some n) : wp (swimProcessGossip e.gossip)
        (fun _ h' => h'.swim.find v = some (mergeAll e.gossip n)) (fun _ _ => True) h₂ :=
    wp_mono (wp_gossip e.gossip hsw.wf (hsw.find_alive hn₁ hs)) (fun _ _ hg => hg.2.2)
      fun _ _ _ => trivial
  cases hfind : h.swim.find w with
  | some m => exact wp_ackMember hwf hfind (fun _ hsw => hgossip hsw hn) fun _ _ _ => trivial
  | none =>
    exact wp_ackFresh hwf hw hfind
      (fun _ _ _ _ hadd hsw => hgossip hsw (hadd.find_member hfind hn)) fun _ _ _ => trivial

/-- A JOIN adds an entry, if there is room, and leaves the others alone. -/
theorem wp_joinEntry (hwf : h.swim.WellFormed) (hn : h.swim.find v = some n) :
    wp (swimProcessJoin e w joinAddr addr) (fun _ h' => h'.swim.find v = some n)
      (fun _ _ => True) h := by
  have hsend {h₁ : Host} (hwf₁ : h₁.swim.WellFormed) (hn₁ : h₁.swim.find v = some n) (ev : Event) :
      wp (forM (List.range h₁.swim.viewSize) fun i => do
          let node ← nodeAt i
          swimSendEvent ev node.info.addr)
        (fun _ t => wp (swimSendAck t.swim.uuid addr) (fun _ h' => h'.swim.find v = some n)
          (fun _ _ => True) t) (fun _ _ => True) h₁ := by
    refine wp_sendToAll hwf₁ ?_
    rw [swimSendAck]
    refine wp_sendWithGossip hwf₁ (fun h₂ _ hs => ?_) fun _ _ _ => trivial
    rw [hs.swim, hn₁]
  simp only [swimProcessJoin, wp_bind, wp_getSwim, uuidCompare_eq]
  refine wp_ite (fun _ => hn) fun hself => ?_
  refine wp_ite (fun _ => hn) fun hfresh => ?_
  rw [not_not, hwf.getNode_eq_none] at hfresh
  simp only [wp_bind, wp_assert, wp_getSwim]
  split_ifs
  refine wp_swimStateAdd hwf (Ne.symm hself) hfresh (fun h₁ hq _ => ?_) fun h₁ node last hadd => ?_
  · exact hsend (hq.1 ▸ hwf) (hq.1 ▸ hn) _
  · exact hsend hadd.wf (hadd.find_member hfresh hn) _

/-- A handler merges the gossip it reads into an ALIVE member, or ends its being ALIVE. -/
theorem wp_dispatchAlive (hwf : h.swim.WellFormed) (hn : h.swim.find v = some n)
    (hs : n.info.status = .alive) :
    wp (dispatch e addr) (fun _ h' => ∃ m, h'.swim.find v = some m ∧ (m.info.status = .alive →
      m = if e.body.ReadsGossip h.swim.uuid then mergeAll e.gossip n else n))
      (fun _ _ => True) h := by
  rw [dispatch]
  cases hb : e.body with
  | ping =>
    rw [if_pos (show EventBody.ReadsGossip _ .ping from trivial)]
    exact wp_mono (wp_pingGossip hwf hn) (fun _ _ hm => ⟨_, hm, fun _ => rfl⟩) fun _ _ _ => trivial
  | ack w =>
    by_cases hw : w = h.swim.uuid
    · rw [if_neg (show ¬ EventBody.ReadsGossip _ (.ack w) from not_not.mpr hw)]
      simp only [swimProcessAck, wp_bind, wp_getSwim, uuidCompare_eq, if_pos hw]
      exact ⟨n, hn, fun _ => rfl⟩
    · rw [if_pos (show EventBody.ReadsGossip _ (.ack w) from hw)]
      exact wp_mono (wp_ackAlive hwf hn hs hw) (fun _ _ hm => ⟨_, hm, fun _ => rfl⟩)
        fun _ _ _ => trivial
  | pingReq w =>
    rw [if_neg (show ¬ EventBody.ReadsGossip _ (.pingReq w) from id)]
    refine wp_pingReqEntries hwf (fun h' _ _ hfind => ⟨_, by rw [hfind, hn]; rfl, ?_⟩)
      fun _ _ _ => trivial
    dsimp only
    split_ifs
    · simp [NodeState.suspect]
    · exact fun _ => rfl
  | join w joinAddr =>
    rw [if_neg (show ¬ EventBody.ReadsGossip _ (.join w joinAddr) from id)]
    exact wp_mono (wp_joinEntry hwf hn) (fun _ _ hm => ⟨n, hm, fun _ => rfl⟩) fun _ _ _ => trivial
  | leave w =>
    rw [if_neg (show ¬ EventBody.ReadsGossip _ (.leave w) from id)]
    refine wp_mono (wp_leaveEntries hwf) (fun _ h' hm => ⟨_, by rw [hm.2, hn]; rfl, ?_⟩)
      fun _ _ _ => trivial
    dsimp only
    split_ifs
    · simp [NodeState.del]
    · exact fun _ => rfl

/-- An event leaves an ALIVE member refreshed, or not ALIVE. -/
theorem event_refreshed (hwf : s.WellFormed) (hn : s.find v = some n)
    (hs : n.info.status = .alive) (hret : Returns s ⟨env, .event e addr⟩ s') :
    ∃ m, s'.find v = some m ∧ (m.info.status = .alive → m = e.refreshed s.uuid n) := by
  obtain ⟨ps, hrun⟩ := hret
  have hspec : wp (swimProcessEvent e addr) (fun _ h => ∃ m, h.swim.find v = some m ∧
      (m.info.status = .alive → m = e.refreshed s.uuid n)) (fun _ _ => True) ⟨s, env, []⟩ := by
    rw [swimProcessEvent, wp_bind]
    refine wp_noticed hwf (fun _ h₁ hnot => ?_) fun _ _ _ => trivial
    rw [Event.refreshed, show s.uuid = h₁.swim.uuid from hnot.same.1.symm]
    exact wp_dispatchAlive hnot.wf (by rw [hnot.find, hn, Option.map_some]) (noticed_alive hs)
  obtain ⟨t, hm, rfl, -⟩ := runStep_ok hrun hspec
  exact hm

/-! ## Runs -/

/-- The calls that do not bring an event leave the time alone. -/
theorem lastSeen_quiet (hwf : s.WellFormed) (hret : Returns s c s') (hn : s.find v = some n)
    (hc : ∀ e addr, c.action ≠ .event e addr) :
    ∃ m, s'.find v = some m ∧ m.info.lastSeen = n.info.lastSeen := by
  obtain ⟨ps, hrun⟩ := hret
  refine (account hwf hrun).member hwf hn rfl fun t m m' _ hact _ hm => ?_
  generalize haction : c.action = action at hact
  cases hact with
  | notice | suspect | merge | refute | del => exact absurd haction (hc _ _)
  | suspectDead | declareDead => exact hm

/-- One step, in both directions. -/
theorem seenAs_step (hwf : s.WellFormed) (hret : Returns s c s') (hseen : s.SeenAs u i t)
    (hseen' : s'.SeenAs u i t') : t ≤ t' ↔ onTime u s c := by
  obtain ⟨n, hn, ha, rfl⟩ := hseen
  obtain ⟨m, hm, ha', rfl⟩ := hseen'
  by_cases hc : ∃ e addr, c.action = .event e addr
  · obtain ⟨e, addr, hact⟩ := hc
    obtain ⟨env, action⟩ := c
    subst hact
    obtain ⟨m', hm', hrefreshed⟩ := event_refreshed hwf hn ha.1 hret
    obtain rfl := Option.some.inj (hm.symm.trans hm')
    have hu := (hwf.find_eq_some.mp hn).2
    obtain rfl := hrefreshed ha'.1
    rw [lastSeen_refreshed ha ha', hu, ← ha.2]
    constructor
    · rintro hback e' addr' n' ⟨⟩ hn'
      obtain rfl := Option.some.inj (hn.symm.trans hn')
      exact hback
    · exact fun htime => htime e addr n rfl hn
  · push Not at hc
    obtain ⟨m', hm', heq⟩ := lastSeen_quiet hwf hret hn hc
    obtain rfl := Option.some.inj (hm.symm.trans hm')
    simp only [heq, le_refl, true_iff]
    exact fun e addr n hact => absurd hact (hc e addr)

/-- No step of the run takes the time back. -/
theorem seenAs_run (hwf : s.WellFormed) (hseen : s.SeenAs u i t)
    (hrun : Run Returns (fun r c => (∃ t, r.SeenAs u i t) ∧ onTime u r c) s s')
    (hseen' : s'.SeenAs u i t') : t ≤ t' := by
  refine (hrun.preserves (I := fun r => r.WellFormed ∧ ∀ t', r.SeenAs u i t' → t ≤ t')
    ?_ ⟨hwf, ?_⟩).2 t' hseen'
  · rintro r c r' ⟨hr, hle⟩ ⟨⟨t₁, ht₁⟩, hc⟩ hret
    exact ⟨hret.wf hr, fun t₂ ht₂ => (hle t₁ ht₁).trans ((seenAs_step hr hret ht₁ ht₂).mpr hc)⟩
  · rintro t₁ ⟨m, hm, -, rfl⟩
    obtain ⟨n, hn, -, rfl⟩ := hseen
    rw [Option.some.inj (hn.symm.trans hm)]

/-- From every state of every run: while `u` stays ALIVE under the incarnation `i`, its time does
not go back in any run whose messages are on time, and a single call takes it back exactly when it
brings a message that is not. -/
theorem last_seen_forward_iff {uuid : Uuid} {now : ℤ}
    (hrun : Run Performs anyOp (swimStateInit uuid now) s) (hseen : s.SeenAs u i t) :
    (∀ s' t', Run Returns (fun r c => (∃ t, r.SeenAs u i t) ∧ onTime u r c) s s' →
      s'.SeenAs u i t' → t ≤ t') ∧
    ∀ c s' t', Returns s c s' → s'.SeenAs u i t' → (t ≤ t' ↔ onTime u s c) := by
  have hwf := wellFormed_of_ops hrun
  exact ⟨fun s' t' hrun' hseen' => seenAs_run hwf hseen hrun' hseen',
    fun c s' t' hret hseen' => seenAs_step hwf hret hseen hseen'⟩

end

/-- Node 2 sends a PING at the given time. -/
def pingAt (time : ℤ) : Call :=
  ⟨steadyEnv 1030, .event ⟨⟨.ofByte 2, time, 0⟩, .ping, []⟩ .none⟩

/-- Node 2 has joined at time 1000, and the PING it sent at 1020 has arrived. -/
def overtaken : List OpCall := [joinCall 2 .none, pingAt 1020].map Call.toOp

instance (i : ℕ) (n : NodeState) : Decidable (n.AliveAs i) :=
  inferInstanceAs (Decidable (_ ∧ _))

theorem seenAs_of_any {s : SWIM} {u : Uuid} {i : ℕ} {t : ℤ}
    (h : (s.find u).any (fun n => n.AliveAs i ∧ n.info.lastSeen = t) = true) : s.SeenAs u i t := by
  obtain ⟨n, hn, hseen⟩ := (Option.any_eq_true _ _).mp h
  exact ⟨n, hn, of_decide_eq_true hseen⟩

theorem last_seen_forward_ping :
    let s := play (swimStateInit (.ofByte 1) 1000) overtaken
    let s' := (runStep (pingAt 1025) s).2.1
    s.SeenAs (.ofByte 2) 0 1020 ∧ s'.SeenAs (.ofByte 2) 0 1025 ∧ (1020 : ℤ) ≤ 1025 := by
  intro s s'
  obtain ⟨hplays, hbefore, hok, hafter⟩ :
      plays (swimStateInit (.ofByte 1) 1000) overtaken = true ∧
      (s.find (.ofByte 2)).any (fun n => n.AliveAs 0 ∧ n.info.lastSeen = 1020) = true ∧
      (runStep (pingAt 1025) s).1 = .ok () ∧
      (s'.find (.ofByte 2)).any (fun n => n.AliveAs 0 ∧ n.info.lastSeen = 1025) = true := by
    decide +kernel
  have hseen := seenAs_of_any hbefore
  have hseen' := seenAs_of_any hafter
  have htime : onTime (.ofByte 2) s (pingAt 1025) := by
    rintro e addr n ⟨⟩ hn - -
    obtain ⟨m, hm, -, hlast⟩ := hseen
    rw [← Option.some.inj (hm.symm.trans hn), hlast]
    exact .inl (by decide)
  exact ⟨hseen, hseen', (last_seen_forward_iff (run_of_plays hplays (.refl _)) hseen).1 s' 1025
    (Run.call (.refl s) (pingAt 1025) ⟨⟨1020, hseen⟩, htime⟩ hok) hseen'⟩

/-- The PING that node 2 sent at time 1010 arrives after the one it sent at 1020. -/
theorem last_seen_taken_back :
    let s := play (swimStateInit (.ofByte 1) 1000) overtaken
    let s' := (runStep (pingAt 1010) s).2.1
    Run Performs anyOp (swimStateInit (.ofByte 1) 1000) s ∧ Returns s (pingAt 1010) s' ∧
      s.SeenAs (.ofByte 2) 0 1020 ∧ s'.SeenAs (.ofByte 2) 0 1010 := by
  intro s s'
  obtain ⟨hplays, hbefore, hok, hafter⟩ :
      plays (swimStateInit (.ofByte 1) 1000) overtaken = true ∧
      (s.find (.ofByte 2)).any (fun n => n.AliveAs 0 ∧ n.info.lastSeen = 1020) = true ∧
      (runStep (pingAt 1010) s).1 = .ok () ∧
      (s'.find (.ofByte 2)).any (fun n => n.AliveAs 0 ∧ n.info.lastSeen = 1010) = true := by
    decide +kernel
  exact ⟨run_of_plays hplays (.refl _), returns_of_ok hok, seenAs_of_any hbefore,
    seenAs_of_any hafter⟩

end LibSwim
