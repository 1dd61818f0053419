import LibSwim.Run.Interface

/-! # How many members an indirect probe asks

`swim_cluster_suspect_dead` counts `sent` down to the random index where it starts, instead of down
to zero. A start other than zero makes it ask fewer members than it may, and a start beyond the
quota makes it ask nobody.
-/

namespace LibSwim

open Foundations Program

/-! ## The members looked at -/

/-- The members whose status the loop looks at when `rand` returns `r`, in its order. -/
def examined (n r : ℕ) : List ℕ :=
  (countdown (min n swimMaxpingreq) (r % n)).map fun sent => (r % n + sent) % n

/-- What the loop does with a member. -/
def ask (target : Uuid) (j : ℕ) : SwimM Unit := do
  let node ← nodeAt j
  if node.info.status = .alive then swimSendPingReq target node.info.addr

theorem swimClusterSuspectDead_eq (i : ℕ) : swimClusterSuspectDead i = (do
    let swim ← getSwim
    if swim.viewSize = 0 then return
    let r ← rand
    let entry ← nodeAt i
    modifyNode i NodeState.suspectDead
    forM (examined swim.viewSize r) (ask entry.info.uuid)) := by
  simp only [swimClusterSuspectDead, examined, ask, List.forM_map]

section

variable {n r j : ℕ}

theorem mem_countdown {first start sent : ℕ} :
    sent ∈ countdown first start ↔ start < sent ∧ sent ≤ first := by
  simp only [countdown, List.mem_map, List.mem_range]
  constructor
  · rintro ⟨k, hk, rfl⟩
    omega
  · intro h
    exact ⟨first - sent, by omega, by omega⟩

theorem countdown_nodup (first start : ℕ) : (countdown first start).Nodup := by
  apply List.Nodup.map_on _ List.nodup_range
  simp only [List.mem_range]
  omega

theorem examined_length (n r : ℕ) :
    (examined n r).length = min n swimMaxpingreq - r % n := by
  simp [examined, countdown]

/-- The quota is reached from the start zero only. -/
theorem examined_length_eq_iff (hn : 0 < n) :
    (examined n r).length = min n swimMaxpingreq ↔ r % n = 0 := by
  have hpos : 0 < min n swimMaxpingreq := by
    simp only [swimMaxpingreq]
    omega
  rw [examined_length]
  omega

theorem examined_lt (hn : 0 < n) (hj : j ∈ examined n r) : j < n := by
  obtain ⟨sent, -, rfl⟩ := List.mem_map.mp hj
  exact Nat.mod_lt _ hn

/-- At most `n` indices in a row are looked at, so that no member comes twice. -/
theorem examined_nodup (n r : ℕ) : (examined n r).Nodup := by
  apply nodup_window _ (r % n) (countdown_nodup _ _)
  intro a ha
  rw [mem_countdown] at ha
  have hle : min n swimMaxpingreq ≤ n := Nat.min_le_left _ _
  exact ⟨ha.1, by omega⟩

/-- A view within the quota is looked at as a whole. -/
theorem mem_examined_of_small (hr : r % n = 0) (hsmall : n ≤ swimMaxpingreq) (hj : j < n) :
    j ∈ examined n r := by
  rw [examined, hr, Nat.min_eq_left hsmall, List.mem_map]
  by_cases hzero : j = 0
  · exact ⟨n, mem_countdown.mpr ⟨by omega, le_rfl⟩, by simp [hzero]⟩
  · exact ⟨j, mem_countdown.mpr ⟨by omega, hj.le⟩, by simp [Nat.mod_eq_of_lt hj]⟩

end

/-! ## The members asked -/

def SWIM.aliveAt (s : SWIM) (j : ℕ) : Bool := s.members[j]?.any fun n => n.info.status = .alive

/-- The members looked at that are ALIVE; the target no longer is. -/
def asked (s : SWIM) (i r : ℕ) : List ℕ :=
  (examined s.viewSize r).filter fun j => j ≠ i ∧ s.aliveAt j = true

/-- The packet is a PING_REQ for `u` to member `j`. -/
def Requested (s : SWIM) (u : Uuid) (j : ℕ) (p : Packet) : Prop :=
  p.event.body = .pingReq u ∧ ∃ n, s.members[j]? = some n ∧ p.dest = n.info.addr

/-- What the indirect probe of member `i` is to do, when `rand` returns `r`. -/
structure Quota (s : SWIM) (i : ℕ) (u : Uuid) (r : ℕ) (ps : List Packet) : Prop where
  distinct : (examined s.viewSize r).Nodup
  within : ∀ j ∈ examined s.viewSize r, j < s.viewSize
  count : (examined s.viewSize r).length = min s.viewSize swimMaxpingreq
  requests : List.Forall₂ (Requested s u) (asked s i r) ps
  small : s.viewSize ≤ swimMaxpingreq → ∀ j, j ≠ i → s.aliveAt j = true → (asked s i r).count j = 1
  large : swimMaxpingreq < s.viewSize → (∀ j < s.viewSize, j ≠ i → s.aliveAt j = true) →
    swimMaxpingreq - 1 ≤ ps.length

section

variable {s : SWIM} {h h' : Host} {i j r : ℕ} {js : List ℕ} {u : Uuid} {target : NodeState}
variable {ps : List Packet}

theorem SWIM.aliveAt_iff : s.aliveAt j = true ↔
    ∃ n, s.members[j]? = some n ∧ n.info.status = .alive := by
  simp [aliveAt, Option.any_eq_true]

theorem SWIM.lt_of_aliveAt (h : s.aliveAt j = true) : j < s.viewSize := by
  obtain ⟨n, hn, -⟩ := SWIM.aliveAt_iff.mp h
  exact SWIM.lt_viewSize hn

/-- Marking the target leaves the other members as they are, and the target not ALIVE. -/
theorem SWIM.aliveAt_suspectDead (s : SWIM) (i j : ℕ) :
    (s.modifyNode i NodeState.suspectDead).aliveAt j = decide (j ≠ i ∧ s.aliveAt j = true) := by
  rw [aliveAt, modifyNode_members, List.getElem?_modify, Bool.eq_iff_iff, decide_eq_true_iff,
    aliveAt]
  by_cases hij : i = j
  · cases s.members[j]? with
    | none => simp
    | some n => simp [hij, NodeState.suspectDead]
  · simp [hij, Ne.symm hij]

theorem filter_suspectDead (s : SWIM) (i r : ℕ) : (examined s.viewSize r).filter
    (s.modifyNode i NodeState.suspectDead).aliveAt = asked s i r := by
  rw [asked]
  congr 1
  funext j
  exact s.aliveAt_suspectDead i j

theorem Requested.of_suspectDead {p : Packet}
    (hp : Requested (s.modifyNode i NodeState.suspectDead) u j p) : Requested s u j p := by
  obtain ⟨hbody, n, hn, hdest⟩ := hp
  rw [SWIM.modifyNode_members, List.getElem?_modify, Option.map_eq_map,
    Option.map_eq_some_iff] at hn
  obtain ⟨m, hm, rfl⟩ := hn
  refine ⟨hbody, m, hm, hdest.trans ?_⟩
  split_ifs
  · rfl
  · rfl

theorem wp_ask_idle (hroom : h.swim.viewSize ≤ h.swim.view.length) (hj : j < h.swim.viewSize)
    (halive : ¬ h.swim.aliveAt j = true) :
    wp (ask u j) (fun _ h' => h' = h) (fun _ _ => False) h := by
  obtain ⟨node, hnode⟩ := SWIM.exists_member hroom hj
  rw [ask, wp_bind, wp_nodeAt hnode]
  refine wp_ite (fun hal => ?_) fun _ => rfl
  exact absurd (SWIM.aliveAt_iff.mpr ⟨node, hnode, hal⟩) halive

/-- Asking a member that is ALIVE takes one `malloc` and sends one packet. -/
theorem wp_ask_alive (hroom : h.swim.viewSize ≤ h.swim.view.length)
    (halive : h.swim.aliveAt j = true) :
    wp (ask u j)
      (fun _ h' => h.env.malloc 0 = true ∧ h'.swim = h.swim ∧
        (∀ k, h'.env.malloc k = h.env.malloc (k + 1)) ∧
        ∃ p, h'.sent = h.sent ++ [p] ∧ Requested h.swim u j p)
      (fun _ h' => h.env.malloc 0 = false ∧ Quiet h h') h := by
  obtain ⟨node, hnode, hal⟩ := SWIM.aliveAt_iff.mp halive
  rw [ask, wp_bind, wp_nodeAt hnode, if_pos hal]
  have hsend : wp (swimSendPingReq u node.info.addr)
      (fun _ h' => h.env.malloc 0 = true ∧
        ∃ p, h'.sent = h.sent ++ [p] ∧ Requested h.swim u j p)
      (fun _ h' => h.env.malloc 0 = false ∧ Quiet h h') h := by
    refine wp_sendWithGossip_copies hroom (fun h' time gossip hm _ _ _ hpacket => ?_) fun _ => And.intro
    exact ⟨hm, _, hpacket, rfl, node, hnode, rfl⟩
  refine wp_mono (wp_and hsend (wp_sendMalloc _ _ h)) ?_ fun _ _ => And.left
  rintro _ h' ⟨⟨hm, hreq⟩, hswim, hshift⟩
  exact ⟨hm, hswim, hshift, hreq⟩

/-- One PING_REQ for `u` has been sent to each of the members `js`, and the node is now `s`. -/
structure AskedAll (u : Uuid) (js : List ℕ) (s : SWIM) (h h' : Host) : Prop where
  swim : h'.swim = s
  packets : ∃ ps, h'.sent = h.sent ++ ps ∧ List.Forall₂ (Requested h.swim u) js ps

theorem AskedAll.nil (hs : h'.swim = h.swim) (hp : h'.sent = h.sent) :
    AskedAll u [] h.swim h h' := ⟨hs, [], by rw [hp, List.append_nil], .nil⟩

theorem AskedAll.cons {p : Packet} {h₁ : Host} (hs : h₁.swim = h.swim)
    (hp : h₁.sent = h.sent ++ [p]) (hreq : Requested h.swim u j p)
    (ha : AskedAll u js h.swim h₁ h') : AskedAll u (j :: js) h.swim h h' := by
  obtain ⟨ps, hps, hreqs⟩ := ha.packets
  rw [hp, List.append_assoc, List.singleton_append] at hps
  rw [hs] at hreqs
  exact ⟨ha.swim, p :: ps, hps, .cons hreq hreqs⟩

/-- The loop asks those ALIVE, each in its turn, for one `malloc` each. One that fails ends it, with
some of them asked. -/
theorem wp_askLoop (u : Uuid) (xs : List ℕ) (hroom : h.swim.viewSize ≤ h.swim.view.length)
    (hxs : ∀ j ∈ xs, j < h.swim.viewSize) :
    wp (forM xs (ask u))
      (fun _ h' => (∀ k < (xs.filter h.swim.aliveAt).length, h.env.malloc k = true) ∧
        AskedAll u (xs.filter h.swim.aliveAt) h.swim h h')
      (fun _ h' => (¬ ∀ k < (xs.filter h.swim.aliveAt).length, h.env.malloc k = true) ∧
        ∃ js, js.Sublist (xs.filter h.swim.aliveAt) ∧ AskedAll u js h.swim h h') h := by
  induction xs generalizing h with
  | nil => exact ⟨by simp, .nil rfl rfl⟩
  | cons j xs ih =>
    have hrest : ∀ k ∈ xs, k < h.swim.viewSize := fun k hk => hxs k (by simp [hk])
    rw [List.forM_cons, wp_bind]
    by_cases halive : h.swim.aliveAt j = true
    · rw [List.filter_cons_of_pos halive]
      refine wp_mono (wp_ask_alive hroom halive) ?_ ?_
      · rintro _ h₁ ⟨hm, hswim, hshift, p, hp, hreq⟩
        have hloop := ih (h := h₁) (hswim ▸ hroom) (by rwa [hswim])
        simp only [hswim, hshift] at hloop
        -- the first `malloc` has been seen to succeed, the others are those of the rest
        have hsplit : (∀ k < (j :: xs.filter h.swim.aliveAt).length, h.env.malloc k = true) ↔
            ∀ k < (xs.filter h.swim.aliveAt).length, h.env.malloc (k + 1) = true := by
          rw [List.length_cons, Nat.forall_lt_succ_left']
          simp [hm]
        rw [hsplit]
        refine wp_mono hloop ?_ ?_
        · rintro _ h' ⟨halloc, hall⟩
          exact ⟨halloc, hall.cons hswim hp hreq⟩
        · rintro _ h' ⟨hfail, js, hjs, hsome⟩
          exact ⟨hfail, j :: js, hjs.cons_cons j, hsome.cons hswim hp hreq⟩
      · rintro _ h' ⟨hm, hq⟩
        refine ⟨fun hall => ?_, [], List.nil_sublist _, .nil hq.1 hq.2.1⟩
        simpa [hm] using hall 0 (by simp)
    · rw [List.filter_cons_of_neg halive]
      refine wp_mono (wp_ask_idle hroom (hxs j (by simp)) halive) ?_ fun _ _ => False.elim
      rintro _ _ rfl
      exact ih hroom hrest

/-- `malloc` succeeds for each of the requests. -/
def Allocated (h : Host) (i : ℕ) : Prop :=
  ∀ k < (asked h.swim i (h.env.rand 0)).length, h.env.malloc k = true

/-- Marking the target moves nobody, so the requests go where they would have gone before. -/
theorem AskedAll.of_suspectDead {h₁ : Host} (hs : h₁.swim = h.swim) (hp : h₁.sent = h.sent)
    (ha : AskedAll u js (h₁.swim.modifyNode i NodeState.suspectDead)
      { h₁ with swim := h₁.swim.modifyNode i NodeState.suspectDead } h') :
    AskedAll u js (h.swim.modifyNode i NodeState.suspectDead) h h' := by
  obtain ⟨hswim, ps, hps, hreqs⟩ := ha
  rw [hs] at hswim
  exact ⟨hswim, ps, hp ▸ hps, hreqs.imp fun _ _ hr => hs ▸ hr.of_suspectDead⟩

theorem wp_suspectDead_requests (hroom : h.swim.viewSize ≤ h.swim.view.length)
    (hi : h.swim.members[i]? = some target) :
    wp (swimClusterSuspectDead i)
      (fun _ h' => Allocated h i ∧ AskedAll target.uuid (asked h.swim i (h.env.rand 0))
        (h.swim.modifyNode i NodeState.suspectDead) h h')
      (fun _ h' => ¬ Allocated h i ∧ ∃ js, js.Sublist (asked h.swim i (h.env.rand 0)) ∧
        AskedAll target.uuid js (h.swim.modifyNode i NodeState.suspectDead) h h') h := by
  have hpos : 0 < h.swim.viewSize := (Nat.zero_le i).trans_lt (SWIM.lt_viewSize hi)
  have hrand {fault : Fault → Host → Prop} : wp rand (fun r h₁ => r = h.env.rand 0 ∧
      h₁.swim = h.swim ∧ h₁.env.malloc = h.env.malloc ∧ h₁.sent = h.sent) fault h :=
    ⟨rfl, rfl, rfl, rfl⟩
  rw [swimClusterSuspectDead_eq]
  simp only [wp_bind, wp_getSwim, if_neg hpos.ne']
  refine wp_mono hrand ?_ fun _ _ => id
  rintro _ h₁ ⟨rfl, hswim, hmalloc, hsent⟩
  rw [← hswim] at hi
  rw [wp_nodeAt hi, wp_modifyNode]
  have hloop := wp_askLoop target.uuid (examined h.swim.viewSize (h.env.rand 0))
    (h := { h₁ with swim := h₁.swim.modifyNode i NodeState.suspectDead })
    (by simpa [SWIM.modifyNode, hswim] using hroom) fun j hj => hswim ▸ examined_lt hpos hj
  have hfilter : (examined h.swim.viewSize (h.env.rand 0)).filter
      (h₁.swim.modifyNode i NodeState.suspectDead).aliveAt = asked h.swim i (h.env.rand 0) := by
    rw [hswim, filter_suspectDead]
  simp only [hfilter, hmalloc] at hloop
  refine wp_mono hloop ?_ ?_
  · rintro _ h' ⟨halloc, hall⟩
    exact ⟨halloc, hall.of_suspectDead hswim hsent⟩
  · rintro _ h' ⟨hfail, js, hjs, hsome⟩
    exact ⟨hfail, js, hjs, hsome.of_suspectDead hswim hsent⟩

theorem asked_count (hr : r % s.viewSize = 0)
    (hsmall : s.viewSize ≤ swimMaxpingreq) (hj : j ≠ i) (halive : s.aliveAt j = true) :
    (asked s i r).count j = 1 := by
  apply List.count_eq_one_of_mem ((examined_nodup _ r).filter _)
  apply List.mem_filter.mpr
  exact ⟨mem_examined_of_small hr hsmall (SWIM.lt_of_aliveAt halive), by simp [hj, halive]⟩

/-- When everybody else is ALIVE the target alone is passed over. -/
theorem asked_length (hpos : 0 < s.viewSize)
    (hall : ∀ j < s.viewSize, j ≠ i → s.aliveAt j = true) :
    (examined s.viewSize r).length - 1 ≤ (asked s i r).length := by
  have hothers : asked s i r = (examined s.viewSize r).erase i := by
    rw [(examined_nodup _ r).erase_eq_filter, asked]
    apply List.filter_congr
    intro j hj
    by_cases hij : j = i
    · simp [hij]
    · simp [hij, hall j (examined_lt hpos hj) hij]
  rw [hothers, List.length_erase]
  split_ifs <;> omega

/-- The quota is reached exactly when the loop starts at the first member. -/
theorem pingReq_quota_iff (hwf : h.swim.WellFormed) (hi : h.swim.members[i]? = some target) :
    (∃ h' ps, exec (swimClusterSuspectDead i) h = (.ok (), h') ∧ h'.sent = h.sent ++ ps ∧
      Quota h.swim i target.uuid (h.env.rand 0) ps) ↔
      h.env.rand 0 % h.swim.viewSize = 0 ∧ Allocated h i := by
  have hpos : 0 < h.swim.viewSize := (Nat.zero_le i).trans_lt (SWIM.lt_viewSize hi)
  have hspec := wp_suspectDead_requests hwf.size_le_length hi
  constructor
  · rintro ⟨h', ps, hexec, -, hq⟩
    exact ⟨(examined_length_eq_iff hpos).mp hq.count, ((wp_iff.mp hspec).1 _ h' hexec).1⟩
  · rintro ⟨hstart, halloc⟩
    obtain ⟨_, h', hexec, -, -, ps, hps, hreq⟩ :=
      wp_total.mp (wp_mono hspec (fun _ _ => id) fun _ _ hf => hf.1 halloc)
    have hcount := (examined_length_eq_iff hpos).mpr hstart
    refine ⟨h', ps, hexec, hps, examined_nodup _ _, fun j => examined_lt hpos, hcount, hreq, ?_, ?_⟩
    · exact fun hsmall j hj halive => asked_count hstart hsmall hj halive
    · intro hlarge hall
      have hlen := asked_length (r := h.env.rand 0) hpos hall
      rw [hcount, Nat.min_eq_right hlarge.le, hreq.length_eq] at hlen
      exact hlen

end

/-- Nodes 2 and 3 are members, and every call of `rand` returns `r`. -/
def suspecting (r : ℕ) : Host :=
  ⟨play (swimStateInit (.ofByte 1) 1000) [addCall 2, addCall 3],
    { steadyEnv 1000 with rand := fun _ => r }, []⟩

theorem suspecting_wellFormed (r : ℕ) : (suspecting r).swim.WellFormed :=
  wellFormed_of_ops (run_of_plays (by decide +kernel) (.refl _))

theorem pingReq_quota_two :
    ∃ target h' ps, (suspecting 0).swim.members[1]? = some target ∧
      exec (swimClusterSuspectDead 1) (suspecting 0) = (.ok (), h') ∧ h'.sent = [] ++ ps ∧
      Quota (suspecting 0).swim 1 target.uuid 0 ps := by
  obtain ⟨target, htarget⟩ := (suspecting_wellFormed 0).get_of_lt
    (show 1 < (suspecting 0).swim.viewSize by decide +kernel)
  obtain ⟨h', ps, hquota⟩ := (pingReq_quota_iff (suspecting_wellFormed 0) htarget).mpr
    ⟨Nat.zero_mod _, fun _ _ => rfl⟩
  exact ⟨target, h', ps, htarget, hquota⟩

/-- A start at the second of two members looks at the target alone. -/
theorem pingReq_below_quota :
    (suspecting 1).swim.WellFormed ∧ (suspecting 1).swim.viewSize = 2 ∧
      (suspecting 1).swim.aliveAt 0 = true ∧
      ∃ h', exec (swimClusterSuspectDead 1) (suspecting 1) = (.ok (), h') ∧ h'.sent = [] := by
  obtain ⟨hsize, halive, hok, hsent⟩ : (suspecting 1).swim.viewSize = 2 ∧
      (suspecting 1).swim.aliveAt 0 = true ∧
      (exec (swimClusterSuspectDead 1) (suspecting 1)).1 = .ok () ∧
      (exec (swimClusterSuspectDead 1) (suspecting 1)).2.sent.length = 0 := by decide +kernel
  exact ⟨suspecting_wellFormed 1, hsize, halive, _, Prod.ext hok rfl,
    List.eq_nil_of_length_eq_zero hsent⟩

end LibSwim
