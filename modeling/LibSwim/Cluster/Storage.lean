import LibSwim.Cluster.Accusation
import LibSwim.Cluster.Dissemination
import LibSwim.Cluster.Provenance
import LibSwim.Run.Storage

/-! # The array and the schedule in a cluster

A LEAVE names nobody, so no packet of the cluster takes a member out of the schedule of another node.
The array of a node grows in proportion to the cluster. While a node takes nobody in, its heartbeats go
around all its members, whatever events it processes in between: whoever it does not hold for dead is
sent a PING by one of them before long.
-/

namespace LibSwim

open Foundations Program

section

variable {s s' : SWIM} {c : Call} {ps : List Packet}

/-- What a call that returns has done to the array and the schedule. -/
inductive Upkeep (s : SWIM) (c : Call) (s' : SWIM) (ps : List Packet) : Prop
  | stored {h'} (hidle : ¬ (c.action = .heartbeat ∧ s.Beats (c.env.time 0)))
      (h : Stored ⟨s, c.env, []⟩ h') (hs : h'.swim = s')
  | turned {t h'} (hheart : c.action = .heartbeat) (hbeats : s.Beats (c.env.time 0))
      (h : Turned t ⟨s, c.env, []⟩ h') (hs : h'.swim = s') (hp : h'.sent = ps)

theorem upkeep (hwf : s.WellFormed) (h : runStep c s = (.ok (), s', ps))
    (hleave : ∀ e addr u, c.action = .event e addr → e.body = .leave u → s.find u = none) :
    Upkeep s c s' ps := by
  obtain ⟨env, action⟩ := c
  by_cases hbeat : action = .heartbeat ∧ s.Beats (env.time 0)
  · obtain ⟨rfl, hbeats⟩ := hbeat
    obtain ⟨h', ⟨t, hturned⟩, hs, hp⟩ :=
      runStep_ok h (wp_heartbeatTurn (h := ⟨s, env, []⟩) hwf hbeats)
    exact .turned rfl hbeats hturned hs hp
  · have hof (hspec : wp action.program (fun _ => Stored ⟨s, env, []⟩) (fun _ _ => True)
        ⟨s, env, []⟩) : Upkeep s ⟨env, action⟩ s' ps := by
      obtain ⟨h', hstored, hs, -⟩ := runStep_ok h hspec
      exact .stored hbeat hstored hs
    cases action with
    | event e addr => exact hof (wp_eventStored hwf fun u => hleave e addr u rfl)
    | heartbeat =>
      rw [heartbeat_early fun hb => hbeat ⟨rfl, hb⟩] at h
      cases h
      exact .stored hbeat (refl_of Stored _) rfl
    | join addr => exact hof (stored_of_fixed (fixed_clusterJoin addr) _)
    | leave => exact hof (stored_of_fixed fixed_clusterLeave _)

end

namespace World

variable {ι : Type} [DecidableEq ι] {uuid : ι → Uuid} {now : ι → ℤ} {v : Uuid} {w w' : World ι}
variable {i : ι} {c : Call} {n : NodeState} {k : ℕ}

theorem upkeep_of_run (h : Run Step Admits (World.init uuid now) w) (hzero : ∀ a, uuid a ≠ Uuid.zero)
    (ha : w.Admits (i, c)) (hrunning : (w.call i c).running i = true) :
    Upkeep (w.nodes i) c ((w.call i c).nodes i) (w.packets i c) := by
  have hground := grounded_of_run h
  have hnobody : (w.nodes i).find Uuid.zero = none := by
    by_contra hsome
    obtain ⟨n, hn⟩ := Option.ne_none_iff_exists'.mp hsome
    obtain ⟨p, hp, hu⟩ := hground.upholds.views i _ n hn
    obtain ⟨a, ha⟩ := (hground.upholds.network p hp).header
    exact hzero a (ha.trans (hu.trans ((hground.sound.wf i).find_eq_some.mp hn).2))
  obtain ⟨ps, hrun⟩ := returns_of_running hrunning
  have hps : w.packets i c = ps := by rw [packets, hrun]
  rw [hps]
  refine upkeep (hground.sound.wf i) hrun fun e addr u hact hb => ?_
  have hregular : c.action.Brings Event.Regular :=
    (regular_of_run h).brings hground.sound ha.2 fun _ he => ⟨he.pingReq, he.leave⟩
  rw [(hregular.event hact).leave u hb]
  exact hnobody

/-! ## The array -/

/-- The array of a running node has the 32 slots it began with, or less than twice as many as there are
other nodes in the cluster. -/
theorem view_capacity_bounded [Fintype ι] (hzero : ∀ a, uuid a ≠ Uuid.zero)
    (h : Run Step Admits (World.init uuid now) w) (hi : w.running i = true) :
    (w.nodes i).view.length ≤ max 32 (2 * (Fintype.card ι - 2)) := by
  have hground := grounded_of_run h
  have hroom : w.running i = true →
      (w.nodes i).viewCapacity = 32 ∨ (w.nodes i).viewCapacity + 2 ≤ 2 * (w.nodes i).viewSize := by
    refine (h.preserves (I := fun w => Run Step Admits (World.init uuid now) w ∧ (w.running i = true →
      (w.nodes i).viewCapacity = 32 ∨ (w.nodes i).viewCapacity + 2 ≤ 2 * (w.nodes i).viewSize)) ?_
      ⟨.refl _, fun _ => .inl rfl⟩).2
    rintro w ⟨j, c⟩ w' ⟨hrun, hroom⟩ ha hs
    refine ⟨hrun.tail ha hs, ?_⟩
    obtain rfl := hs
    by_cases hj : j = i
    · subst hj
      intro hrunning
      have hbefore := hroom ha.1
      cases upkeep_of_run hrun hzero ha hrunning with
      | stored _ hstored hs =>
        rw [← hs]
        rcases hstored.room with hsame | hmore
        · rw [hsame]
          exact hbefore.imp_right fun hle => hle.trans (Nat.mul_le_mul_left 2 hstored.size_le)
        · exact .inr hmore
      | turned _ _ hturned hs _ =>
        rw [← hs, hturned.viewCapacity, hturned.viewSize]
        exact hbefore
    · change Function.update w.running j _ i = true → _
      rw [call_nodes, Function.update_of_ne (Ne.symm hj), Function.update_of_ne (Ne.symm hj)]
      exact hroom
  have hsize := ((hground.sound.wf i).viewSize_lt (hground.self_mem i) (hground.known_mem i)).trans_le
    (Finset.card_image_le (s := Finset.univ) (f := uuid))
  rw [Finset.card_univ] at hsize
  rw [(hground.sound.wf i).length_eq]
  rcases hroom hi with hfirst | hgrown
  · exact le_max_of_le_left hfirst.le
  · exact le_max_of_le_right (by omega)

/-- The UUIDs of 34 nodes. -/
def crowdUuid (i : Fin 34) : Uuid := .ofByte (UInt8.ofNat (i + 1))

/-- They have all sent their JOINs. -/
def crowdJoined : World (Fin 34) :=
  { World.init crowdUuid fun _ => 1000 with
    network := (List.finRange 34).map fun i => ⟨joinOf (crowdUuid i), .none⟩ }

/-- Node 1 has heard of all the others. -/
def crowd : World (Fin 34) := crowdJoined.calls 0
  ((List.finRange 34).map fun i => ⟨steadyEnv 1000, .event (joinOf (crowdUuid i)) .none⟩)

theorem crowd_run : Run Step Admits (World.init crowdUuid fun _ => 1000) crowd := by
  have hjoins : Run Step Admits (World.init crowdUuid fun _ => 1000) crowdJoined :=
    run_joins crowdUuid (List.finRange 34)
  have hsound := sound_of_run hjoins
  refine hjoins.trans ?_
  unfold crowd
  refine run_calls rfl fun c hc => ?_
  obtain ⟨i, hi, rfl⟩ := List.mem_map.mp hc
  have hmem : ⟨joinOf (crowdUuid i), .none⟩ ∈ crowdJoined.network :=
    List.mem_map_of_mem (f := fun i => Packet.mk (joinOf (crowdUuid i)) .none) hi
  have haddr : SockAddr.none.addrlen ≤ sizeofSockaddrStorage := Nat.zero_le _
  have hdeliver := hsound.delivers (i := 0) hmem rfl haddr (steadyEnv 1000)
  rw [joinOf_received] at hdeliver
  exact hdeliver.2

/-- The array of node 1 grew to the bound. -/
theorem view_capacity_bounded_crowd : (crowd.nodes 0).viewSize = 33 ∧
    (crowd.nodes 0).view.length = 64 ∧
    (crowd.nodes 0).view.length ≤ max 32 (2 * (Fintype.card (Fin 34) - 2)) := by
  obtain ⟨hsize, hlength, hrunning⟩ : (crowd.nodes 0).viewSize = 33 ∧
      (crowd.nodes 0).view.length = 64 ∧ crowd.running 0 = true := by decide +kernel
  exact ⟨hsize, hlength, view_capacity_bounded (by decide) crowd_run hrunning⟩

/-! ## The schedule -/

/-- Counts the heartbeats of node `i` that are not skipped. -/
def beats (i : ι) (w : World ι) (l : ι × Call) : ℕ :=
  match l.2.action with
  | .heartbeat => if l.1 = i ∧ (w.nodes i).Beats (l.2.env.time 0) then 1 else 0
  | .event _ _ | .join _ | .leave => 0

theorem beats_le_one (i : ι) (w : World ι) (l : ι × Call) : beats i w l ≤ 1 := by
  unfold beats
  split
  · split_ifs <;> decide
  all_goals exact Nat.zero_le 1

theorem beats_eq_zero {l : ι × Call}
    (h : ¬ (l.1 = i ∧ l.2.action = .heartbeat ∧ (w.nodes i).Beats (l.2.env.time 0))) :
    beats i w l = 0 := by
  unfold beats
  split
  case h_1 hheart => exact if_neg fun hyes => h ⟨hyes.1, hheart, hyes.2⟩
  all_goals rfl

/-- A call at which node `i` takes nobody in and, if it is a heartbeat, does not hold `v` for dead and
sends it no PING. -/
structure Overlooks (i : ι) (v : Uuid) (w : World ι) (l : ι × Call) : Prop where
  admits : w.Admits l
  allocates : l.1 = i → l.2.env.Allocates
  size : ((w.call l.1 l.2).nodes i).viewSize = (w.nodes i).viewSize
  unprobed : l.1 = i → l.2.action = .heartbeat → ∀ n, (w.nodes i).find v = some n →
    n.info.status ≠ .dead ∧ ∀ p ∈ w.packets i l.2, p.event.body = .ping → p.dest ≠ n.info.addr

/-- Node `i`, with `size` members, has `v` at position `m` as long as it runs. -/
structure Awaits (uuid : ι → Uuid) (now : ι → ℤ) (i : ι) (v : Uuid) (m size : ℕ) (w : World ι) :
    Prop where
  run : Run Step Admits (World.init uuid now) w
  size : (w.nodes i).viewSize = size
  entry : w.running i = true → (w.nodes i).uuids[m]? = some v

/-- How many heartbeats of node `i` can pass before one of them serves position `m`. -/
def patience (i : ι) (m size : ℕ) (w : World ι) : ℕ :=
  if w.running i = true then wait m size (w.nodes i).round else 0

section

variable {m size : ℕ} {env : Env}

omit [DecidableEq ι] in
theorem patience_of_running (h : w.running i = true) :
    patience i m size w = wait m size (w.nodes i).round := if_pos h

/-- A heartbeat that is not skipped and serves somebody else brings `v` nearer to its turn. -/
theorem wait_of_turned {t : Turn ℕ} {s : SWIM} {h' : Host} (ht : Turned t ⟨s, env, []⟩ h')
    (hwf : s.WellFormed) (halloc : env.Allocates) (hv : s.uuids[m]? = some v)
    (hover : ∀ n, s.find v = some n →
      n.info.status ≠ .dead ∧ ∀ p ∈ h'.sent, p.event.body = .ping → p.dest ≠ n.info.addr) :
    1 + wait m s.viewSize h'.swim.round ≤ wait m s.viewSize s.round := by
  obtain ⟨n, hn, rfl⟩ : ∃ n, s.members[m]? = some n ∧ n.uuid = v := by
    rwa [SWIM.uuids, List.getElem?_map, Option.map_eq_some_iff] at hv
  obtain ⟨hdead, hsilent⟩ := hover n (hwf.find_of_get hn)
  have hperm := ht.fresh (halloc.2.1 0)
  have hfresh : m ∈ t.fresh ∧ t.fresh.length = s.viewSize := by
    refine ⟨hperm.mem_iff.mpr (List.mem_range.mpr (SWIM.lt_viewSize hn)), ?_⟩
    rw [hperm.length_eq]
    exact List.length_range
  have hskip : t.skip m = false := by
    rw [ht.skip]
    exact SWIM.skips_eq_false.mpr ⟨n, hn, hdead⟩
  have hother : (t.next s.round).1 ≠ some m := by
    intro hserved
    obtain ⟨p, hp, hping, hdest⟩ := ht.pinged m n hserved hn
    exact hsilent p hp hping hdest
  have hlt := Turn.wait_lt hfresh hskip hother
  rw [← ht.round] at hlt
  omega

theorem Awaits.step (h : w.Awaits uuid now i v m size) (hzero : ∀ a, uuid a ≠ Uuid.zero)
    {l : ι × Call} (ho : w.Overlooks i v l) (hs : w.Step l w') :
    w'.Awaits uuid now i v m size ∧ beats i w l + patience i m size w' ≤ patience i m size w := by
  have hrun := h.run.tail ho.admits hs
  obtain ⟨j, c⟩ := l
  obtain rfl := hs
  have hsize : ((w.call j c).nodes i).viewSize = size := ho.size.trans h.size
  by_cases hj : j = i
  · subst hj
    have hbefore := h.entry ho.admits.1
    have hwf := (grounded_of_run h.run).sound.wf j
    rw [patience_of_running ho.admits.1]
    by_cases hrunning : (w.call j c).running j = true
    · rw [patience_of_running hrunning]
      cases upkeep_of_run h.run hzero ho.admits hrunning with
      | @stored h' hidle hstored hs =>
        obtain ⟨huuids, hprobe⟩ := hstored.kept (by rw [hs]; exact ho.size)
        rw [hs] at huuids hprobe
        rw [beats_eq_zero fun hyes => hidle hyes.2, SWIM.round_congr hprobe ho.size, Nat.zero_add]
        refine ⟨⟨hrun, hsize, fun _ => ?_⟩, le_rfl⟩
        rw [huuids]
        exact hbefore
      | @turned t h' hheart hbeats hturned hs hp =>
        have hover := ho.unprobed rfl hheart
        rw [← hp] at hover
        have hle := wait_of_turned hturned hwf (ho.allocates rfl) hbefore hover
        rw [hs, h.size] at hle
        refine ⟨⟨hrun, hsize, fun _ => ?_⟩, (Nat.add_le_add_right (beats_le_one _ _ _) _).trans hle⟩
        rw [← hs, hturned.uuids]
        exact hbefore
    · -- the node has ended, which no heartbeat does
      have hidle : ¬ (c.action = .heartbeat ∧ (w.nodes j).Beats (c.env.time 0)) := by
        rintro ⟨hheart, -⟩
        obtain ⟨env, action⟩ := c
        obtain rfl : action = .heartbeat := hheart
        obtain ⟨s', ps, hreturns⟩ := heartbeat_returns hwf (ho.allocates rfl)
        apply hrunning
        change Function.update w.running j (runStep ⟨env, .heartbeat⟩ (w.nodes j)).1.isOk j = true
        rw [hreturns, Function.update_self]
        rfl
      rw [beats_eq_zero fun hyes => hidle hyes.2, patience, if_neg hrunning]
      exact ⟨⟨hrun, hsize, fun hyes => absurd hyes hrunning⟩, Nat.zero_le _⟩
  · have hnodes : (w.call j c).nodes i = w.nodes i := Function.update_of_ne (Ne.symm hj) _ _
    have hrunning : (w.call j c).running i = w.running i := Function.update_of_ne (Ne.symm hj) _ _
    rw [beats_eq_zero fun hyes => hj hyes.1, patience, patience, hnodes, hrunning, Nat.zero_add]
    refine ⟨⟨hrun, hsize, ?_⟩, le_rfl⟩
    rw [hnodes, hrunning]
    exact h.entry

end

/-- In every run of the cluster and for every member `v` of the view of node `i`: while node `i` takes
nobody in, has enough memory and finds `v` dead in none of its heartbeats, `v` is passed over by at most
`2 n - 2` of them that are not skipped, where `n` is the size of the view, whatever happens in between
and whatever the others do. The next one sends a PING to its address. -/
theorem probing_is_fair (hzero : ∀ a, uuid a ≠ Uuid.zero) (h : Run Step Admits (World.init uuid now) w)
    (hi : w.running i = true) (hn : n ∈ (w.nodes i).members)
    (hrun : Tally Step (Overlooks i n.uuid) (beats i) w k w') : k ≤ 2 * (w.nodes i).viewSize - 2 := by
  have hwf := (grounded_of_run h).sound.wf i
  obtain ⟨m, hm⟩ := List.getElem?_of_mem hn
  have hentry : (w.nodes i).uuids[m]? = some n.uuid := by
    rw [SWIM.uuids, List.getElem?_map, hm, Option.map_some]
  have hstart : w.Awaits uuid now i n.uuid m (w.nodes i).viewSize := ⟨h, rfl, fun _ => hentry⟩
  have hle := hrun.add_le (patience i m (w.nodes i).viewSize)
    (fun _ _ _ ht ho hs => Awaits.step ht hzero ho hs) hstart
  rw [patience_of_running hi] at hle
  exact (Nat.le_add_right _ _).trans (hle.trans (wait_le (hwf.mem_round (SWIM.lt_viewSize hm))))

/-- A heartbeat of node 1 sends its PING to node 3 and passes over node 2. -/
theorem probing_is_fair_triple :
    ∃ n ∈ (gathered.nodes 0).members, n.uuid = triple 1 ∧
      Tally Step (Overlooks 0 (triple 1)) (beats 0) gathered 1
        (gathered.call 0 ⟨steadyEnv 1030, .heartbeat⟩) ∧
      1 ≤ 2 * (gathered.nodes 0).viewSize - 2 := by
  obtain ⟨n, hn, hu⟩ : ∃ n ∈ (gathered.nodes 0).members, n.uuid = triple 1 := by decide
  have hsilent : ((gathered.nodes 0).find (triple 1)).all (fun n => n.info.status ≠ .dead ∧
      ∀ p ∈ gathered.packets 0 ⟨steadyEnv 1030, .heartbeat⟩, p.dest ≠ n.info.addr) = true := by
    decide +kernel
  have hover : gathered.Overlooks 0 (triple 1) (0, ⟨steadyEnv 1030, .heartbeat⟩) := by
    refine ⟨⟨by decide, trivial⟩, fun _ => steadyEnv_allocates 1030, by decide +kernel, ?_⟩
    intro _ _ m hm
    obtain ⟨hdead, hdest⟩ := of_decide_eq_true ((Option.all_eq_true _ _).mp hsilent m hm)
    exact ⟨hdead, fun p hp _ => hdest p hp⟩
  have hbeat : beats 0 gathered (0, ⟨steadyEnv 1030, .heartbeat⟩) = 1 := by decide
  have hnil : Tally Step (Overlooks 0 (triple 1)) (beats 0)
    (gathered.call 0 ⟨steadyEnv 1030, .heartbeat⟩) 0
    (gathered.call 0 ⟨steadyEnv 1030, .heartbeat⟩) := .nil _
  have htally := Tally.cons hover rfl hnil
  rw [hbeat] at htally
  exact ⟨n, hn, hu, htally, probing_is_fair (by decide) gathered_run (by decide) hn (hu ▸ htally)⟩

end World
end LibSwim
