import LibSwim.Run.Heartbeat
import LibSwim.Run.Quota

/-! # Whom a node writes to

A node that leaves, and one that suspects a member, write to some of the members: to those at a
stretch of indices that begins anywhere and goes around the end of the view. The stretch is never
longer than the view, so nobody is written to twice.
-/

namespace LibSwim

open Foundations Program

/-! ## Leaving -/

/-- The indices that `swim_cluster_leave` uses when `rand` returns `r`. -/
def leaveIndices (n r : ℕ) : List ℕ :=
  (List.range (min n swimMaxleave)).map fun i => (r % n + i) % n

theorem swimClusterLeave_eq : swimClusterLeave = (do
    let swim ← getSwim
    if swim.viewSize = 0 then return
    let r ← rand
    let event ← swimEventInit .leave
    forM (leaveIndices swim.viewSize r) fun j => do
      let node ← nodeAt j
      swimSendEvent event node.info.addr) := by
  simp only [swimClusterLeave, leaveIndices, List.forM_map]

theorem leaveIndices_nodup (n r : ℕ) : (leaveIndices n r).Nodup := by
  apply nodup_window 0 (r % n) List.nodup_range
  intro i hi
  rw [List.mem_range] at hi
  omega

theorem leaveIndices_lt {n r j : ℕ} (hj : j ∈ leaveIndices n r) : j < n := by
  obtain ⟨i, hi, rfl⟩ := List.mem_map.mp hj
  rw [List.mem_range] at hi
  exact Nat.mod_lt _ (by omega)

/-- The packet is the LEAVE that a node `s` sends at `time` to its member `j`. -/
def Farewell (s : SWIM) (time : ℤ) (j : ℕ) (p : Packet) : Prop :=
  ∃ n, s.members[j]? = some n ∧ p = ⟨leaveEvent s time, n.info.addr⟩

section

variable {h : Host}

theorem wp_farewells {post : Unit → Host → Prop} {fault : Fault → Host → Prop} {s : SWIM} {t : ℤ}
    {js : List ℕ} (hs : h.swim = s) (hjs : ∀ j ∈ js, j < s.members.length)
    (hp : ∀ h' ps, h'.swim = s → h'.sent = h.sent ++ ps →
      List.Forall₂ (Farewell s t) js ps → post () h') :
    wp (forM js fun j => do
      let node ← nodeAt j
      swimSendEvent (leaveEvent s t) node.info.addr) post fault h := by
  induction js generalizing h with
  | nil => exact hp h [] hs (List.append_nil _).symm .nil
  | cons j js ih =>
    obtain ⟨node, hn⟩ : ∃ node, s.members[j]? = some node :=
      ⟨_, List.getElem?_eq_getElem (hjs j (by simp))⟩
    rw [List.forM_cons, wp_bind, wp_bind, wp_nodeAt (hs ▸ hn), swimSendEvent, wp_sendto]
    refine ih hs (fun k hk => hjs k (by simp [hk])) ?_
    intro h' ps hs' hsent hps
    rw [List.append_assoc, List.singleton_append] at hsent
    exact hp h' _ hs' hsent (.cons ⟨_, hn, rfl⟩ hps)

/-- A node that leaves says so to as many members as it may, to each of them once, and stays as it
is. -/
theorem leave_fan_out (hroom : h.swim.viewSize ≤ h.swim.view.length) :
    ∃ h' ps, exec swimClusterLeave h = (.ok (), h') ∧ h'.swim = h.swim ∧ h'.sent = h.sent ++ ps ∧
      ps.length = min h.swim.viewSize swimMaxleave ∧
      (leaveIndices h.swim.viewSize (h.env.rand 0)).Nodup ∧
      (∀ j ∈ leaveIndices h.swim.viewSize (h.env.rand 0), j < h.swim.viewSize) ∧
      List.Forall₂ (Farewell h.swim (h.env.time 0))
        (leaveIndices h.swim.viewSize (h.env.rand 0)) ps := by
  have hlen := SWIM.length_members hroom
  have hspec : wp swimClusterLeave (fun _ h' => ∃ ps, h'.swim = h.swim ∧ h'.sent = h.sent ++ ps ∧
      List.Forall₂ (Farewell h.swim (h.env.time 0))
        (leaveIndices h.swim.viewSize (h.env.rand 0)) ps) (fun _ _ => False) h := by
    rw [swimClusterLeave_eq, wp_bind, wp_getSwim]
    refine wp_ite (fun hzero => ?_) fun _ => ?_
    · exact ⟨[], rfl, (List.append_nil _).symm, by simp [leaveIndices, hzero]⟩
    · simp only [rand, swimEventInit, time, wp_bind, wp_get, wp_modify, wp_pure, wp_getSwim]
      refine wp_farewells (t := h.env.time 0) rfl ?_ ?_
      · exact fun j hj => hlen.symm ▸ leaveIndices_lt hj
      · exact fun h' ps hs hsent hps => ⟨ps, hs, hsent, hps⟩
  obtain ⟨_, h', hexec, ps, hs, hsent, hps⟩ := wp_total.mp hspec
  refine ⟨h', ps, hexec, hs, hsent, ?_, leaveIndices_nodup _ _, fun j => leaveIndices_lt, hps⟩
  rw [← hps.length_eq, leaveIndices, List.length_map, List.length_range]

end

/-- The node of `suspecting 0` leaves: each of its two members is told. -/
theorem leave_fan_out_two :
    (suspecting 0).swim.viewSize = 2 ∧
      ∃ h' ps, exec swimClusterLeave (suspecting 0) = (.ok (), h') ∧ h'.sent = [] ++ ps ∧
        ps.length = 2 := by
  have hsize : (suspecting 0).swim.viewSize = 2 := by decide +kernel
  obtain ⟨h', ps, hexec, -, hsent, hlen, -⟩ :=
    leave_fan_out (suspecting_wellFormed 0).size_le_length
  rw [hsize] at hlen
  exact ⟨hsize, h', ps, hexec, hsent, hlen⟩

/-! ## Asking for indirect probes -/

/-- The PING_REQs for `u` among the packets. -/
def requestsFor (u : Uuid) (ps : List Packet) : List Packet :=
  ps.filter fun p => p.event.body = .pingReq u

/-- What a heartbeat does before it goes through the view. -/
def heartbeatProbe (now : ℤ) : SwimM Unit := do
  let target ← swimProbeNext
  modifySwim fun swim => { swim with lastHeartbeat := now }
  match target with
  | none => pure ()
  | some idx =>
    let node ← nodeAt idx
    swimSendPing node.info.addr

/-- A heartbeat that stops when it comes to the member at index `k`. -/
def heartbeatBefore (k : ℕ) : SwimM Unit := do
  let now ← time
  let swim ← getSwim
  if 0 < swim.viewSize ∧ swim.lastHeartbeat + swimHeartbeatInterval < now then
    heartbeatProbe now
    forM (List.range k) (heartbeatMember now)

/-- The PING_REQs for `u` among the packets `ps` that a heartbeat of `s` sends, leaving the node in
`s'`: they go to the members `js`. If there are any, `u` is a member `i` that the heartbeat changes
from ALIVE to SUSPECT, and those asked are other members, ALIVE when it came to `i`. -/
structure WellAimed (s : SWIM) (env : Env) (s' : SWIM) (ps : List Packet) (u : Uuid)
    (js : List ℕ) : Prop where
  distinct : js.Nodup
  count : js.length ≤ swimMaxpingreq
  requests : List.Forall₂ (Requested s u) js (requestsFor u ps)
  target : js ≠ [] → ∃ i n t, s.members[i]? = some n ∧ n.uuid = u ∧ n.info.status = .alive ∧
    s'.members[i]? = some n.suspectDead ∧
    exec (heartbeatBefore i) ⟨s, env, []⟩ = (.ok (), t) ∧ ∀ j ∈ js, j ≠ i ∧ t.swim.aliveAt j = true

section

variable {s : SWIM} {env : Env} {h h' t t' : Host} {k : ℕ} {u : Uuid} {js : List ℕ}

theorem swimClusterHeartbeat_eq : swimClusterHeartbeat = (do
    let now ← time
    let swim ← getSwim
    if 0 < swim.viewSize ∧ swim.lastHeartbeat + swimHeartbeatInterval < now then
      heartbeatProbe now
      forM (List.range swim.viewSize) (heartbeatMember now)) := by
  simp only [swimClusterHeartbeat, heartbeatProbe, bind_assoc]
  congr! with now swim hbeat target _
  cases target with
  | none => rw [pure_bind]
  | some idx => rw [bind_assoc]

/-- A heartbeat goes through the whole view. -/
theorem exec_swimClusterHeartbeat :
    exec swimClusterHeartbeat h = exec (heartbeatBefore h.swim.viewSize) h := by
  rw [swimClusterHeartbeat_eq]
  rfl

theorem exec_heartbeatBefore (hbeat : h.swim.Beats (h.env.time 0)) :
    ∃ h₁, Quiet h h₁ ∧ ∀ k, exec (heartbeatBefore k) h = exec (do
      heartbeatProbe (h.env.time 0)
      forM (List.range k) (heartbeatMember (h.env.time 0))) h₁ := by
  refine ⟨{ h with env := { h.env with time := fun n => h.env.time (n + 1) } },
    ⟨rfl, rfl, id, fun k => ⟨k, rfl⟩⟩, fun k => ?_⟩
  change exec (if h.swim.Beats (h.env.time 0) then _ else _) _ = _
  rw [if_pos hbeat]

theorem exec_heartbeatBefore_succ (hbeat : h.swim.Beats (h.env.time 0)) :
    exec (heartbeatBefore (k + 1)) h =
      exec (heartbeatBefore k >>= fun _ => heartbeatMember (h.env.time 0) k) h := by
  obtain ⟨h₁, -, hloop⟩ := exec_heartbeatBefore hbeat
  rw [exec_bind, hloop, hloop, ← exec_bind, List.range_succ, List.forM_append, bind_assoc]
  simp only [List.forM_cons, List.forM_nil, bind_pure_unit]

/-- The same while the heartbeat is under way: the target is among the first `k` members. -/
structure Aimed (s : SWIM) (env : Env) (k : ℕ) (ps : List Packet) (u : Uuid) (js : List ℕ) :
    Prop where
  distinct : js.Nodup
  count : js.length ≤ swimMaxpingreq
  requests : List.Forall₂ (Requested s u) js (requestsFor u ps)
  target : js ≠ [] → ∃ i n t, i < k ∧ s.members[i]? = some n ∧ n.uuid = u ∧
    n.info.status = .alive ∧ n.info.lastSeen ≤ env.time 0 - 60 ∧
    exec (heartbeatBefore i) ⟨s, env, []⟩ = (.ok (), t) ∧ ∀ j ∈ js, j ≠ i ∧ t.swim.aliveAt j = true

theorem Aimed.nil {ps : List Packet} (hp : requestsFor u ps = []) : Aimed s env k ps u [] :=
  ⟨List.nodup_nil, Nat.zero_le _, hp ▸ .nil, fun hne => absurd rfl hne⟩

theorem Aimed.succ {ps ps' : List Packet} (ha : Aimed s env k ps u js)
    (hp : requestsFor u ps' = requestsFor u ps) : Aimed s env (k + 1) ps' u js := by
  refine ⟨ha.distinct, ha.count, hp ▸ ha.requests, fun hne => ?_⟩
  obtain ⟨i, n, t, hik, hrest⟩ := ha.target hne
  exact ⟨i, n, t, hik.trans (Nat.lt_succ_self k), hrest⟩

/-- A heartbeat of `s` has gone through the first `k` members. -/
structure Swept (s : SWIM) (env : Env) (k : ℕ) (t : Host) : Prop where
  room : t.swim.viewSize ≤ t.swim.view.length
  members : t.swim.members = mapBefore (NodeState.ticked (env.time 0)) k s.members
  aimed : ∀ u, ∃ js, Aimed s env k t.sent u js

/-- What the loop has done so far moves nobody. -/
theorem Swept.requested {j : ℕ} {p : Packet} (hs : Swept s env k t) (hp : Requested t.swim u j p) :
    Requested s u j p := by
  obtain ⟨hbody, n, hn, hdest⟩ := hp
  rw [hs.members, getElem?_mapBefore, Option.map_eq_some_iff] at hn
  obtain ⟨m, hm, rfl⟩ := hn
  refine ⟨hbody, m, hm, hdest.trans ?_⟩
  split_ifs
  · rw [NodeState.ticked_eq]
  · rfl

theorem Swept.members_succ {n : NodeState} {f : NodeState → NodeState} (hs : Swept s env k t)
    (hn : t.swim.members[k]? = some n) (hf : n.ticked (env.time 0) = f n) :
    (t.swim.modifyNode k f).members =
      mapBefore (NodeState.ticked (env.time 0)) (k + 1) s.members := by
  rw [SWIM.modifyNode_members, ← modify_congr hn hf, hs.members, modify_mapBefore]

/-- The loop goes on without a request. -/
theorem Swept.silent {n : NodeState} {f : NodeState → NodeState} (hs : Swept s env k t)
    (hn : t.swim.members[k]? = some n) (hf : n.ticked (env.time 0) = f n)
    (hswim : t'.swim = t.swim.modifyNode k f) (hsent : t'.sent = t.sent) :
    Swept s env (k + 1) t' where
  room := by simpa [hswim, SWIM.modifyNode] using hs.room
  members := hswim ▸ hs.members_succ hn hf
  aimed u := by
    obtain ⟨js, hjs⟩ := hs.aimed u
    exact ⟨js, hjs.succ (by rw [hsent])⟩

theorem requestsFor_append {ps qs : List Packet} :
    requestsFor u (ps ++ qs) = requestsFor u ps ++ requestsFor u qs := List.filter_append _ _

theorem requestsFor_requested {v : Uuid} {ps : List Packet}
    (hps : List.Forall₂ (Requested s v) js ps) :
    requestsFor u ps = if u = v then ps else [] := by
  induction hps with
  | nil => simp [requestsFor]
  | cons hreq _ ih =>
    rw [requestsFor] at ih ⊢
    by_cases huv : u = v
    · rw [if_pos huv] at ih ⊢
      rw [List.filter_cons_of_pos (by simp [hreq.1, huv]), ih]
    · rw [if_neg huv] at ih ⊢
      rw [List.filter_cons_of_neg (by simp [hreq.1, Ne.symm huv]), ih]

theorem SWIM.index_unique {i j : ℕ} {n m : NodeState} (hdistinct : s.uuids.Nodup)
    (hi : s.members[i]? = some n) (hj : s.members[j]? = some m) (hu : n.uuid = m.uuid) : i = j := by
  have hlt : i < s.uuids.length := by
    rw [SWIM.uuids, List.length_map]
    exact (List.getElem?_eq_some_iff.mp hi).1
  apply (List.getElem?_inj hlt hdistinct).mp
  rw [SWIM.uuids, List.getElem?_map, List.getElem?_map, hi, hj, Option.map_some, Option.map_some, hu]

/-- The loop suspects the member it has come to, and asks some others about it. -/
theorem Swept.asking {n : NodeState} {r : ℕ} (hs : Swept s env k t) (hdistinct : s.uuids.Nodup)
    (hexec : exec (heartbeatBefore k) ⟨s, env, []⟩ = (.ok (), t))
    (hn : s.members[k]? = some n) (halive : n.info.status = .alive)
    (hold : n.info.lastSeen ≤ env.time 0 - 60)
    (hn' : t.swim.members[k]? = some n) (hjs : js.Sublist (asked t.swim k r))
    (hask : AskedAll n.uuid js (t.swim.modifyNode k NodeState.suspectDead) t t') :
    Swept s env (k + 1) t' where
  room := by simpa [hask.swim, SWIM.modifyNode] using hs.room
  members := hask.swim ▸ hs.members_succ hn' (by simp [NodeState.ticked, halive, hold])
  aimed u := by
    obtain ⟨qs, hqs, hreq⟩ := hask.packets
    obtain ⟨before, hbefore⟩ := hs.aimed u
    by_cases hu : u = n.uuid
    · -- nobody was asked about the member before the loop came to it
      have hnone : before = [] := by
        by_contra hne
        obtain ⟨i, m, -, hik, hm, hmu, -⟩ := hbefore.target hne
        exact hik.ne (SWIM.index_unique hdistinct hm hn (hmu.trans hu))
      have hempty : requestsFor u t.sent = [] := by
        rw [hnone] at hbefore
        exact List.forall₂_nil_left_iff.mp hbefore.requests
      refine ⟨js, (((examined_nodup _ _).filter _).sublist hjs), ?_, ?_, fun _ => ?_⟩
      · have hlen := (hjs.trans List.filter_sublist).length_le
        rw [examined_length] at hlen
        omega
      · rw [hqs, requestsFor_append, hempty, requestsFor_requested hreq, if_pos hu, hu]
        exact hreq.imp fun _ _ => hs.requested
      · refine ⟨k, n, t, Nat.lt_succ_self k, hn, hu.symm, halive, hold, hexec, fun j hj => ?_⟩
        simpa using (List.mem_filter.mp (hjs.subset hj)).2
    · refine ⟨before, hbefore.succ ?_⟩
      rw [hqs, requestsFor_append, requestsFor_requested hreq, if_neg hu, List.append_nil]

/-- One round of the loop, whether or not it comes to its end. -/
theorem wp_heartbeatMember_swept (hs : Swept s env k t) (hroom : s.viewSize ≤ s.view.length)
    (hdistinct : s.uuids.Nodup) (hexec : exec (heartbeatBefore k) ⟨s, env, []⟩ = (.ok (), t))
    (hk : k < s.viewSize) :
    wp (heartbeatMember (env.time 0) k) (fun _ => Swept s env (k + 1))
      (fun _ => Swept s env (k + 1)) t := by
  obtain ⟨n, hn⟩ := SWIM.exists_member hroom hk
  have hn' : t.swim.members[k]? = some n := by
    rw [hs.members, getElem?_mapBefore, hn]
    simp
  have hkeep (hticked : n.ticked (env.time 0) = n) : Swept s env (k + 1) t := by
    refine hs.silent (f := id) hn' hticked ?_ rfl
    simp [SWIM.modifyNode]
  rw [heartbeatMember, wp_bind, wp_nodeAt hn']
  cases hstatus : n.info.status with
  | alive =>
    refine wp_ite (fun hold => ?_) fun hold => hkeep (by simp [NodeState.ticked, hstatus, hold])
    refine wp_mono (wp_suspectDead_requests hs.room hn') ?_ ?_
    · rintro _ t' ⟨-, hask⟩
      exact hs.asking hdistinct hexec hn hstatus hold hn' (List.Sublist.refl _) hask
    · rintro _ t' ⟨-, js, hjs, hask⟩
      exact hs.asking hdistinct hexec hn hstatus hold hn' hjs hask
  | suspect =>
    refine wp_ite (fun hold => ?_) fun hold => hkeep (by simp [NodeState.ticked, hstatus, hold])
    exact hs.silent hn' (by simp [NodeState.ticked, hstatus, hold]) rfl rfl
  | dead | unknown | other => exact hkeep (by simp [NodeState.ticked, hstatus])

/-- The view and the packets are as before. -/
structure Unmoved (h h' : Host) : Prop where
  view : h'.swim.view = h.swim.view
  viewSize : h'.swim.viewSize = h.swim.viewSize
  sent : h'.sent = h.sent

theorem Unmoved.trans {h₁ : Host} (ha : Unmoved h h₁) (hb : Unmoved h₁ h') : Unmoved h h' :=
  ⟨hb.view.trans ha.view, hb.viewSize.trans ha.viewSize, hb.sent.trans ha.sent⟩

theorem wp_nodeAt_unmoved {post : NodeState → Host → Prop} {fault : Fault → Host → Prop} (i : ℕ)
    (hp : ∀ n, post n h) (hbad : fault .outOfBounds h) : wp (nodeAt i) post fault h := by
  rw [nodeAt, wp_bind, wp_getSwim]
  cases h.swim.view[i]? with
  | some n => exact hp n
  | none => exact hbad

theorem wp_probeLoop_unmoved (fuel : ℕ) (h : Host) :
    wp (probeLoop fuel) (fun _ => Unmoved h) (fun _ => Unmoved h) h := by
  induction fuel generalizing h with
  | zero => exact ⟨rfl, rfl, rfl⟩
  | succ fuel ih =>
    rw [probeLoop, wp_bind, wp_getSwim]
    cases h.swim.probe.order[h.swim.probe.pos]? with
    | none => exact ⟨rfl, rfl, rfl⟩
    | some idx =>
      simp only [wp_bind, wp_modifySwim]
      have hrest {h₁ : Host} (hm : Unmoved h h₁) :
          wp (probeLoop fuel) (fun _ => Unmoved h) (fun _ => Unmoved h) h₁ :=
        wp_mono (ih h₁) (fun _ _ => hm.trans) fun _ _ => hm.trans
      refine wp_ite (fun _ => ?_) fun _ => hrest ⟨rfl, rfl, rfl⟩
      rw [wp_bind]
      refine wp_nodeAt_unmoved idx (fun n => ?_) ⟨rfl, rfl, rfl⟩
      exact wp_ite (fun _ => ⟨rfl, rfl, rfl⟩) fun _ => hrest ⟨rfl, rfl, rfl⟩

/-- Choosing the next target, from whatever schedule, moves nobody. -/
theorem wp_swimProbeNext_unmoved (h : Host) :
    wp swimProbeNext (fun _ => Unmoved h) (fun _ => Unmoved h) h := by
  have hloop {h₁ : Host} (hm : Unmoved h h₁) : wp (do
      let swim ← getSwim
      probeLoop (swim.probe.size - swim.probe.pos)) (fun _ => Unmoved h) (fun _ => Unmoved h) h₁ := by
    rw [wp_bind, wp_getSwim]
    exact wp_mono (wp_probeLoop_unmoved _ h₁) (fun _ _ => hm.trans) fun _ _ => hm.trans
  have hmoved {probe : ProbeSchedule} {h₁ : Host} (hs : Scheduled probe h h₁) : Unmoved h h₁ :=
    ⟨by rw [hs.swim], by rw [hs.swim], hs.sent⟩
  rw [swimProbeNext, wp_bind, wp_getSwim]
  refine wp_ite (fun _ => ⟨rfl, rfl, rfl⟩) fun _ => wp_ite (fun _ => ?_) fun _ => ?_
  · rw [wp_bind]
    exact wp_swimProbeShuffle (fun _ _ hs => hloop (hmoved hs))
      (fun _ _ _ hq => hloop (hmoved hq.scheduled)) fun _ _ _ _ _ hs => hloop (hmoved hs)
  · exact hloop ⟨rfl, rfl, rfl⟩

/-- The probe asks nobody about a member. -/
theorem wp_heartbeatProbe_swept (env : Env) (hroom : s.viewSize ≤ s.view.length) (hswim : h.swim = s)
    (hsent : h.sent = []) :
    wp (heartbeatProbe (env.time 0)) (fun _ => Swept s env 0) (fun _ => Swept s env 0) h := by
  have hswept {t : Host} (hview : t.swim.view = s.view) (hsize : t.swim.viewSize = s.viewSize)
      (hnone : ∀ u, requestsFor u t.sent = []) : Swept s env 0 t := by
    refine ⟨by rwa [hview, hsize], ?_, fun u => ⟨[], .nil (hnone u)⟩⟩
    rw [SWIM.members, hview, hsize, mapBefore_zero, SWIM.members]
  have hquiet {t : Host} (hm : Unmoved h t) : Swept s env 0 t := by
    refine hswept (hswim ▸ hm.view) (hswim ▸ hm.viewSize) fun u => ?_
    rw [hm.sent, hsent]
    rfl
  rw [heartbeatProbe, wp_bind]
  refine wp_mono (wp_swimProbeNext_unmoved h) (fun target h₁ hm => ?_) fun _ _ => hquiet
  rw [wp_bind, wp_modifySwim]
  have hm₁ : Unmoved h { h₁ with swim := { h₁.swim with lastHeartbeat := env.time 0 } } :=
    hm.trans ⟨rfl, rfl, rfl⟩
  cases target with
  | none => exact hquiet hm₁
  | some idx =>
    rw [wp_bind]
    refine wp_nodeAt_unmoved idx (fun n => ?_) (hquiet hm₁)
    rw [swimSendPing]
    refine wp_sendWithGossip_copies (hquiet hm₁).room (fun t time gossip _ hs _ _ hpacket => ?_)
      fun t _ hq => ?_
    · refine hswept ?_ ?_ fun u => ?_
      · rw [hs, hm₁.view, hswim]
      · rw [hs, hm₁.viewSize, hswim]
      · rw [hpacket, hm₁.sent, hsent]
        simp [requestsFor]
    · exact hquiet (hm₁.trans ⟨by rw [hq.1], by rw [hq.1], hq.2.1⟩)

/-- The loop round by round. -/
theorem wp_heartbeatBefore (hroom : s.viewSize ≤ s.view.length) (hdistinct : s.uuids.Nodup)
    (hbeat : s.Beats (env.time 0)) (hk : k ≤ s.viewSize) :
    wp (heartbeatBefore k) (fun _ => Swept s env k) (fun _ t => ∃ k, Swept s env k t)
      ⟨s, env, []⟩ := by
  induction k with
  | zero =>
    obtain ⟨h₁, hq, hloop⟩ := exec_heartbeatBefore (h := ⟨s, env, []⟩) hbeat
    have hprobe := wp_heartbeatProbe_swept env hroom hq.1 hq.2.1
    unfold wp
    rw [hloop, List.range_zero, List.forM_nil, bind_pure_unit]
    exact wp_mono hprobe (fun _ _ => id) fun _ t ht => ⟨0, ht⟩
  | succ k ih =>
    have hbefore := wp_iff.mp (ih (by omega))
    unfold wp
    rw [exec_heartbeatBefore_succ hbeat]
    refine (wp_bind _ _).mpr (wp_iff.mpr ⟨fun _ t hexec => ?_, hbefore.2⟩)
    have hround := wp_heartbeatMember_swept (hbefore.1 _ t hexec) hroom hdistinct hexec hk
    exact wp_mono hround (fun _ _ => id) fun _ t ht => ⟨k + 1, ht⟩

/-- A heartbeat has gone through part of the view when it ends, or comes too early. -/
theorem heartbeat_swept (hroom : s.viewSize ≤ s.view.length) (hdistinct : s.uuids.Nodup) (env : Env) :
    let t := (exec swimClusterHeartbeat ⟨s, env, []⟩).2
    (∃ k, Swept s env k t) ∨ t.sent = [] := by
  intro t
  by_cases hbeat : s.Beats (env.time 0)
  · have hloop := wp_heartbeatBefore hroom hdistinct hbeat le_rfl
    refine .inl ?_
    rw [show t = _ from congrArg Prod.snd exec_swimClusterHeartbeat]
    exact wp_final (wp_mono hloop (fun _ t ht => ⟨_, ht⟩) fun _ _ => id)
  · refine .inr (wp_final (P := fun t : Host => t.sent = []) ?_)
    simp only [swimClusterHeartbeat, time, wp_bind, wp_get, wp_modify, wp_pure, wp_getSwim]
    exact wp_ite (fun hyes => absurd hyes hbeat) fun _ => rfl

/-- In every heartbeat of a view without duplicates, whether or not it returns, the requests for
indirect probes of any `u` are well aimed. -/
theorem pingReqs_well_aimed {r : Except Fault Unit} {s' : SWIM} {ps : List Packet}
    (hroom : s.viewSize ≤ s.view.length) (hdistinct : s.uuids.Nodup)
    (hrun : runStep ⟨env, .heartbeat⟩ s = (r, s', ps)) (u : Uuid) :
    ∃ js, WellAimed s env s' ps u js := by
  simp only [runStep, Action.program, Prod.mk.injEq] at hrun
  obtain ⟨-, rfl, rfl⟩ := hrun
  rcases heartbeat_swept hroom hdistinct env with ⟨k, hswept⟩ | hnone
  · obtain ⟨js, haimed⟩ := hswept.aimed u
    refine ⟨js, haimed.distinct, haimed.count, haimed.requests, fun hne => ?_⟩
    obtain ⟨i, n, t, hik, hn, hu, halive, hold, hexec, hjs⟩ := haimed.target hne
    refine ⟨i, n, t, hn, hu, halive, ?_, hexec, hjs⟩
    have hticked : n.ticked (env.time 0) = n.suspectDead := by
      simp [NodeState.ticked, halive, hold]
    rw [hswept.members, getElem?_mapBefore, hn, Option.map_some, if_pos hik, hticked]
  · refine ⟨[], List.nodup_nil, Nat.zero_le _, ?_, fun hne => absurd rfl hne⟩
    rw [hnone]
    exact .nil

/-- Both members were last seen at 1000. At 1060 the first is suspected and the second, still ALIVE,
is asked about it. -/
theorem pingReqs_well_aimed_two :
    ∃ r s' ps js, (suspecting 0).swim.WellFormed ∧
      runStep (heartbeatCall 1060) (suspecting 0).swim = (r, s', ps) ∧
      (requestsFor (.ofByte 2) ps).length = 1 ∧ js ≠ [] ∧
      WellAimed (suspecting 0).swim (steadyEnv 1060) s' ps (.ofByte 2) js := by
  have hlen : (requestsFor (.ofByte 2)
      (runStep (heartbeatCall 1060) (suspecting 0).swim).2.2).length = 1 := by decide +kernel
  rcases hrun : runStep (heartbeatCall 1060) (suspecting 0).swim with ⟨r, s', ps⟩
  rw [hrun] at hlen
  have hwf := suspecting_wellFormed 0
  obtain ⟨js, haimed⟩ := pingReqs_well_aimed hwf.size_le_length hwf.nodup_uuids hrun (.ofByte 2)
  refine ⟨r, s', ps, js, hwf, rfl, hlen, ?_, haimed⟩
  rintro rfl
  rw [List.forall₂_nil_left_iff.mp haimed.requests] at hlen
  cases hlen

end

end LibSwim
