import LibSwim.Run.Steps
import LibSwim.Wire.RoundTrip

/-! # A cluster on an unreliable network

Any number of nodes take calls in any order. The network keeps every packet that was ever sent,
and any of them may be delivered to any node at any time: a packet that is not is lost, one that
is delivered late or more than once is delayed or duplicated. Nothing arrives that was not sent.
The receiver decodes the bytes of the sender, with whatever its buffer holds behind them.
-/

namespace LibSwim

open Foundations

structure World (ι : Type) where
  nodes : ι → SWIM
  /-- Whether the process of the node is still there: a fault ends it. -/
  running : ι → Bool
  network : List Packet

/-- The event `e'` is what a receiver may decode from the packet made of `e`. -/
def Event.Arrives (e e' : Event) : Prop := ∃ bytes tail n,
  swimEncodeEvent swimMaxPacketSize e = .ok bytes ∧
    bytes.length + tail.length = swimMaxPacketSize ∧
    swimDecodeEvent (bytes ++ tail) = .ok (some (n, e'))

/-- An event comes from the network, and its sender's address from a `sockaddr_storage`. -/
def Action.Possible (network : List Packet) : Action → Prop
  | .event e addr =>
    addr.addrlen ≤ sizeofSockaddrStorage ∧ ∃ p ∈ network, p.event.Arrives e
  | .heartbeat | .join _ | .leave => True

namespace World

variable {ι : Type} [DecidableEq ι]

def init (uuid : ι → Uuid) (now : ι → ℤ) : World ι where
  nodes i := swimStateInit (uuid i) (now i)
  running _ := true
  network := []

/-- Node `i` makes the call `c`; what it sent is on the network even if it did not return. -/
def call (w : World ι) (i : ι) (c : Call) : World ι :=
  let (r, s, ps) := runStep c (w.nodes i)
  ⟨Function.update w.nodes i s, Function.update w.running i r.isOk, w.network ++ ps⟩

def Step (w : World ι) (l : ι × Call) (w' : World ι) : Prop := w' = w.call l.1 l.2

def Admits (w : World ι) (l : ι × Call) : Prop :=
  w.running l.1 = true ∧ l.2.action.Possible w.network

/-- What the call leaves behind at the node that makes it. -/
def result (w : World ι) (i : ι) (c : Call) : SWIM := (runStep c (w.nodes i)).2.1

def packets (w : World ι) (i : ι) (c : Call) : List Packet := (runStep c (w.nodes i)).2.2

theorem call_nodes (w : World ι) (i : ι) (c : Call) :
    (w.call i c).nodes = Function.update w.nodes i (w.result i c) := rfl

theorem mem_network_of_packets {w : World ι} {i : ι} {c : Call} {p : Packet} (hp : p ∈ w.packets i c) :
    p ∈ (w.call i c).network := List.mem_append_right w.network hp

end World

/-! ## Everything sent can be encoded -/

/-- An event as it arrives: its fields are in range, and its time has four bytes. -/
def Action.InRange : Action → Prop
  | .event e addr => e.InRange ∧ 0 ≤ e.hdr.time ∧ e.hdr.time < 2 ^ 32 ∧
      addr.addrlen ≤ sizeofSockaddrStorage
  | .heartbeat | .join _ | .leave => True

section

variable {env : Env} {now : ℤ} {s₀ t u : SWIM} {action : Action} {n n' : NodeState}
variable {ps : List Packet}
variable {e e' : Event}

/-- What arrives differs from what was sent in the upper half of the time only. -/
theorem Event.Arrives.eq (h : e.Arrives e') (he : e.InRange) : e' = e.received := by
  obtain ⟨bytes, tail, n, hencode, hlen, hdecode⟩ := h
  rw [encodeEvent_eq he] at hencode
  obtain rfl := Except.ok.inj hencode
  rw [decodeEvent_eq he hlen] at hdecode
  exact (congrArg Prod.snd (Option.some.inj (Except.ok.inj hdecode))).symm

theorem Event.InRange.arrives (h : e.InRange) : e.Arrives e.received := by
  have hlen : e.wire.length ≤ swimMaxPacketSize := h.wire_length.trans (by decide)
  let tail : List UInt8 := List.replicate (swimMaxPacketSize - e.wire.length) 0
  have htail : e.wire.length + tail.length = swimMaxPacketSize := by
    simp only [tail, List.length_replicate]
    omega
  exact ⟨e.wire, tail, _, encodeEvent_eq h, htail, decodeEvent_eq h htail⟩

theorem Event.InRange.received (h : e.InRange) : e.received.InRange :=
  ⟨h.incarnation, h.join, h.count, h.gossip⟩

theorem Action.Possible.mono {network network' : List Packet} {action : Action}
    (h : action.Possible network) (hsub : ∀ p ∈ network, p ∈ network') :
    action.Possible network' := by
  cases action with
  | event e addr =>
    obtain ⟨haddr, p, hp, harr⟩ := h
    exact ⟨haddr, p, hsub p hp, harr⟩
  | heartbeat | join _ | leave => trivial

theorem Action.Possible.inRange {network : List Packet} (h : action.Possible network)
    (hn : ∀ p ∈ network, p.event.InRange) : action.InRange := by
  cases action with
  | event e addr =>
    obtain ⟨haddr, p, hp, harr⟩ := h
    obtain rfl := harr.eq (hn p hp)
    exact ⟨(hn p hp).received, Int.emod_nonneg _ (by decide), Int.emod_lt_of_pos _ (by decide), haddr⟩
  | heartbeat | join _ | leave => trivial

theorem NodeInfo.inRange_mk {v : Uuid} {seen : ℤ} {i : ℕ} {status : Status} {a : SockAddr}
    (hge : -2 ^ 63 ≤ seen) (hlt : seen < 2 ^ 63) (hi : i < 2 ^ 32) (hs : status.code < 2 ^ 16)
    (ha : a.addrlen ≤ sizeofSockaddrStorage) : NodeInfo.InRange ⟨v, seen, i, status, a⟩ :=
  ⟨hge, hlt, hi, hs, ha⟩

theorem NodeAct.inRange (h : NodeAct now s₀ t action n n') (ha : action.InRange)
    (hn : n.info.InRange) : n'.info.InRange := by
  obtain ⟨hge, hlt, hi, hs, haddr⟩ := hn
  cases h with
  | @notice e addr _ _ _ _ =>
    obtain ⟨he, hl, hu, -⟩ := ha
    obtain ⟨seen, status, hseen, hstatus, hinfo⟩ := n.notice_info e.hdr.time e.hdr.incarnation
    rw [hinfo]
    refine NodeInfo.inRange_mk ?_ ?_ (max_lt hi he.incarnation) ?_ haddr
    · rcases hseen with rfl | rfl <;> omega
    · rcases hseen with rfl | rfl <;> omega
    · rcases hstatus with rfl | rfl
      · exact hs
      · decide
  | @merge e addr _ info _ hg _ _ =>
    obtain ⟨gge, glt, gi, gs, -⟩ := ha.1.gossip info hg
    obtain ⟨seen, status, hseen, hstatus, hinfo⟩ := n.merge_info info
    rw [hinfo]
    refine NodeInfo.inRange_mk ?_ ?_ (max_lt hi gi) ?_ haddr
    · rcases hseen with rfl | rfl <;> assumption
    · rcases hseen with rfl | rfl <;> assumption
    · rcases hstatus with rfl | rfl <;> assumption
  | suspect _ | suspectDead _ _ =>
    exact ⟨hge, hlt, hi, (by decide : Status.suspect.code < 2 ^ 16), haddr⟩
  | refute _ _ _ => exact ⟨hge, hlt, hi, (by decide : Status.alive.code < 2 ^ 16), haddr⟩
  | del _ | declareDead _ _ =>
    exact ⟨hge, hlt, hi, (by decide : Status.dead.code < 2 ^ 16), haddr⟩

theorem InsertAct.inRange (h : InsertAct s₀ t action n) (ha : action.InRange) :
    n.info.InRange := by
  cases h with
  | join hb hi _ =>
    obtain ⟨he, hl, hu, haddr⟩ := ha
    rw [hi]
    exact NodeInfo.inRange_mk (by omega) (by omega) (by decide) (by decide)
      (fillJoinAddr_le (he.join _ _ hb) haddr)
  | ack _ hi _ | ackLast _ hi _ _ =>
    obtain ⟨-, hl, hu, haddr⟩ := ha
    rw [hi]
    exact NodeInfo.inRange_mk (by omega) (by omega) (by decide) (by decide) haddr
  | gossip _ hg _ => exact ha.1.gossip _ hg

/-- Records in range stay so through a call, and all it sends can be encoded. -/
theorem Reached.inRange (hr : Reached env s₀ action t ps) (h₀ : s₀.Holds fun n => n.info.InRange)
    (hi : s₀.incarnation < 2 ^ 32) (ha : action.InRange) :
    t.Holds (fun n => n.info.InRange) ∧ ∀ p ∈ ps, p.event.InRange := by
  have hevent : ∀ e addr, action = .event e addr →
      e.Carries NodeInfo.InRange swimMaxGossipSize ∧ addr.addrlen ≤ sizeofSockaddrStorage := by
    rintro e addr rfl
    exact ⟨⟨ha.1.join, ha.1.gossip, ha.1.count⟩, ha.2.2.2⟩
  obtain ⟨hview, hsent⟩ := hr.carries h₀ le_rfl hevent (fun _ _ _ hn => hn.inRange ha)
    fun _ _ hn => hn.inRange ha
  refine ⟨hview, fun p hp => ⟨?_, (hsent p hp).join, (hsent p hp).count, (hsent p hp).gossip⟩⟩
  rcases hr.headers p hp with ⟨-, hown⟩ | ⟨e, addr, rfl, hhdr⟩
  · exact hown ▸ hi
  · exact hhdr ▸ ha.1.incarnation

theorem SWIM.raised_lt (h : s₀.incarnation < 2 ^ 32) (k : ℕ) : s₀.raised k < 2 ^ 32 := by
  cases k with
  | zero => exact h
  | succ k =>
    rw [raised, Function.iterate_succ_apply']
    exact Nat.mod_lt _ (by decide)

end

/-! ## What holds in every world reached -/

namespace World

variable {ι : Type} {uuid : ι → Uuid} {now : ι → ℤ} {w w' : World ι}

/-- The nodes are sound, and all that was sent can be encoded. -/
structure Sound (uuid : ι → Uuid) (w : World ι) : Prop where
  wf : ∀ i, (w.nodes i).WellFormed
  uuid : ∀ i, (w.nodes i).uuid = uuid i
  incarnation : ∀ i, (w.nodes i).incarnation < 2 ^ 32
  views : ∀ i, (w.nodes i).Holds fun n => n.info.InRange
  network : ∀ p ∈ w.network, p.event.InRange

/-- The account of the call that leads to the next world. -/
theorem Sound.account (h : w.Sound uuid) (i : ι) (c : Call) :
    Account c (w.nodes i) (runStep c (w.nodes i)).1 (w.result i c) (w.packets i c) :=
  LibSwim.account (h.wf i) rfl

/-- Any packet of the network may be delivered to any node. -/
theorem Sound.delivers (h : w.Sound uuid) {p : Packet} {i : ι} {addr : SockAddr}
    (hp : p ∈ w.network) (hi : w.running i = true) (ha : addr.addrlen ≤ sizeofSockaddrStorage)
    (env : Env) : w.Admits (i, ⟨env, .event p.event.received addr⟩) :=
  ⟨hi, ha, p, hp, (h.network p hp).arrives⟩

theorem Sound.init (uuid : ι → Uuid) (now : ι → ℤ) : (World.init uuid now).Sound uuid where
  wf _ := .init _ _
  uuid _ := rfl
  incarnation _ := (by decide : 0 < 2 ^ 32)
  views i := SWIM.holds_init (uuid i) (now i) _
  network := by simp [World.init]

variable [DecidableEq ι]

/-- What holds of the node that moved and of the others before holds of all nodes afterwards. -/
theorem forall_call {P : ι → SWIM → Prop} (hi : P i (w.result i c)) (hall : ∀ j, P j (w.nodes j)) :
    ∀ j, P j ((w.call i c).nodes j) := by
  intro j
  rw [call_nodes, Function.update_apply]
  split_ifs with hj
  · exact hj ▸ hi
  · exact hall j

theorem Sound.step (h : w.Sound uuid) {l : ι × Call} (ha : w.Admits l) (hs : w.Step l w') :
    w'.Sound uuid := by
  obtain ⟨i, c⟩ := l
  obtain rfl := hs
  have hacc := h.account i c
  have hrange := hacc.reached.inRange (h.views i) (h.incarnation i) (ha.2.inRange h.network)
  obtain ⟨k, -, hk⟩ := hacc.reached.raised
  exact {
    wf := forall_call (P := fun _ s => s.WellFormed) hacc.wf h.wf
    uuid := forall_call (P := fun j s => s.uuid = uuid j) (hacc.reached.uuid.trans (h.uuid i)) h.uuid
    incarnation := forall_call (P := fun _ s => s.incarnation < 2 ^ 32)
      (hk ▸ SWIM.raised_lt (h.incarnation i) k) h.incarnation
    views := forall_call (P := fun _ s => s.Holds fun n => n.info.InRange) hrange.1 h.views
    network := by
      intro p hp
      rcases List.mem_append.mp hp with hp | hp
      · exact h.network p hp
      · exact hrange.2 p hp }

theorem sound_of_run (h : Run Step Admits (World.init uuid now) w) : w.Sound uuid :=
  h.preserves (fun _ _ _ ht ha hs => ht.step ha hs) (.init uuid now)

/-- A member of a view stays one. -/
theorem Sound.find_call (h : w.Sound uuid) {j : ι} {u : Uuid} (hu : (w.nodes j).find u ≠ none) :
    ((w.call i c).nodes j).find u ≠ none := by
  rw [call_nodes, Function.update_apply]
  split_ifs with hj
  · exact fun hnone => hu (hj ▸ (h.account i c).reached.find_none hnone)
  · exact hu

/-- A node that is still running has returned from its call. -/
theorem returns_of_running (h : (w.call i c).running i = true) :
    Returns (w.nodes i) c ((w.call i c).nodes i) := by
  change Function.update w.running i (runStep c (w.nodes i)).1.isOk i = true at h
  rw [Function.update_self] at h
  rw [call_nodes, Function.update_self]
  cases hres : (runStep c (w.nodes i)).1 with
  | ok => exact returns_of_ok hres
  | error f => simp [hres, Except.isOk, Except.toBool] at h

/-! ## Calls of one node -/

/-- The cluster after calls of one node. -/
def calls (w : World ι) (i : ι) (cs : List Call) : World ι where
  nodes := Function.update w.nodes i (runCalls cs (w.nodes i)).2.1
  running := Function.update w.running i (runCalls cs (w.nodes i)).1.isOk
  network := w.network ++ (runCalls cs (w.nodes i)).2.2

variable {cs : List Call}

theorem run_calls (hrunning : w.running i = true)
    (hcs : ∀ c ∈ cs, c.action.Possible w.network) : Run Step Admits w (w.calls i cs) := by
  induction cs generalizing w with
  | nil =>
    have hsame : w.calls i [] = w := by
      have hr : Function.update w.running i true = w.running := by
        rw [← hrunning, Function.update_eq_self]
      simp only [calls, runCalls, Function.update_eq_self, List.append_nil]
      change World.mk w.nodes (Function.update w.running i true) w.network = w
      rw [hr]
    rw [hsame]
    exact .refl w
  | cons c cs ih =>
    rw [List.forall_mem_cons] at hcs
    have hfirst : Run Step Admits w (w.call i c) := (Run.refl w).tail (l := (i, c)) ⟨hrunning, hcs.1⟩ rfl
    rcases hstep : runStep c (w.nodes i) with ⟨res, s', ps⟩
    have hcall : w.call i c = ⟨Function.update w.nodes i s', Function.update w.running i res.isOk,
        w.network ++ ps⟩ := by rw [call, hstep]
    cases res with
    | error f =>
      have hsame : w.calls i (c :: cs) = w.call i c := by
        rw [hcall, calls, runCalls_error hstep]
      rw [hsame]
      exact hfirst
    | ok =>
      have hrest := ih (w := w.call i c) (by simp [hcall, Except.isOk, Except.toBool])
        fun c' hc' => (hcs.2 c' hc').mono fun p hp => by
          rw [hcall]
          exact List.mem_append_left _ hp
      have hsame : (w.call i c).calls i cs = w.calls i (c :: cs) := by
        rw [hcall, calls, calls, runCalls_ok hstep]
        simp only [Function.update_self, Function.update_idem, List.append_assoc]
      rw [hsame] at hrest
      exact hfirst.trans hrest

/-! ## Small clusters

Used to exhibit runs.
-/

/-- The JOIN that a node sends at 1000. -/
def joinOf (u : Uuid) : Event := ⟨⟨u, 1000, 0⟩, .join u .none, []⟩

theorem joinOf_received (u : Uuid) : (joinOf u).received = joinOf u :=
  Event.received_eq (by decide : (0 : ℤ) ≤ 1000) (by decide : (1000 : ℤ) < 2 ^ 32)

/-- Any number of nodes may send their JOINs at the beginning. -/
theorem run_joins (uuid : ι → Uuid) (is : List ι) :
    Run Step Admits (World.init uuid fun _ => 1000)
      { World.init uuid fun _ => 1000 with network := is.map fun i => ⟨joinOf (uuid i), .none⟩ } := by
  induction is using List.reverseRecOn with
  | nil => exact .refl _
  | append_singleton is i ih =>
    refine ih.tail (l := (i, ⟨steadyEnv 1000, .join .none⟩)) ⟨rfl, trivial⟩ ?_
    rw [List.map_append]
    exact congrArg₂ (World.mk · · _) (Function.update_eq_self i _).symm
      (Function.update_eq_self i fun _ => true).symm

/-- Two nodes, with last bytes 1 and 2. -/
def pair : Bool → Uuid := fun b => cond b (.ofByte 2) (.ofByte 1)

theorem pair_injective : Function.Injective pair := by
  intro a b
  cases a <;> cases b <;> decide

/-- The JOIN of node 2. -/
def joinOfPair : Event := joinOf (pair true)

/-- Node 2 has sent its JOIN. -/
def joined : World Bool := (World.init pair fun _ => 1000).call true ⟨steadyEnv 1000, .join .none⟩

/-- Node 1 has heard of it. -/
def greeted : World Bool := joined.call false ⟨steadyEnv 1000, .event joinOfPair .none⟩

theorem joined_sound : joined.Sound pair :=
  (Sound.init pair fun _ => 1000).step (l := (true, ⟨steadyEnv 1000, .join .none⟩)) ⟨rfl, trivial⟩ rfl

theorem joined_admits : joined.Admits (false, ⟨steadyEnv 1000, .event joinOfPair .none⟩) :=
  joined_sound.delivers (p := ⟨joinOfPair, .none⟩) (by decide) rfl (by decide) (steadyEnv 1000)

/-- The two calls make a run, whatever more is asked of them. -/
theorem greeted_run {admitted : World Bool → Bool × Call → Prop}
    (hjoin : admitted (World.init pair fun _ => 1000) (true, ⟨steadyEnv 1000, .join .none⟩))
    (hdeliver : admitted joined (false, ⟨steadyEnv 1000, .event joinOfPair .none⟩)) :
    Run Step admitted (World.init pair fun _ => 1000) greeted :=
  ((Run.refl _).tail hjoin rfl).tail hdeliver rfl

/-! Three nodes. Node 1 hears of node 3 and then of node 2. -/

def triple (i : Fin 3) : Uuid := .ofByte (UInt8.ofNat (i + 1))

def addressOfTriple (i : Fin 3) : SockAddr := ⟨[UInt8.ofNat i]⟩

/-- Node `i` joins through node 1, from its own address. -/
def gather (w : World (Fin 3)) (i : Fin 3) : World (Fin 3) :=
  (w.call i ⟨steadyEnv 1000, .join .none⟩).call 0
    ⟨steadyEnv 1000, .event (joinOf (triple i)) (addressOfTriple i)⟩

def gathered : World (Fin 3) := ((World.init triple fun _ => 1000).gather 2).gather 1

theorem gather_admits {w : World (Fin 3)} (hsound : w.Sound triple) (i : Fin 3)
    (hi : w.running i = true) (h0 : (w.call i ⟨steadyEnv 1000, .join .none⟩).running 0 = true)
    (hp : ⟨joinOf (triple i), .none⟩ ∈ (w.call i ⟨steadyEnv 1000, .join .none⟩).network) :
    w.Admits (i, ⟨steadyEnv 1000, .join .none⟩) ∧
      (w.call i ⟨steadyEnv 1000, .join .none⟩).Admits
        (0, ⟨steadyEnv 1000, .event (joinOf (triple i)) (addressOfTriple i)⟩) := by
  have hjoin : w.Admits (i, ⟨steadyEnv 1000, .join .none⟩) := ⟨hi, trivial⟩
  have haddr : (addressOfTriple i).addrlen ≤ sizeofSockaddrStorage := (by decide : 1 ≤ 128)
  have hdeliver := (hsound.step hjoin rfl).delivers hp h0 haddr (steadyEnv 1000)
  rw [joinOf_received] at hdeliver
  exact ⟨hjoin, hdeliver⟩

theorem gathered_run : Run Step Admits (World.init triple fun _ => 1000) gathered := by
  have hsound : (World.init triple fun _ => 1000).Sound triple := .init _ _
  obtain ⟨hjoin, hdeliver⟩ := gather_admits hsound 2 rfl (by decide) (by decide)
  have hsound' : ((World.init triple fun _ => 1000).gather 2).Sound triple :=
    (hsound.step hjoin rfl).step hdeliver rfl
  obtain ⟨hjoin', hdeliver'⟩ := gather_admits hsound' 1 (by decide) (by decide) (by decide)
  exact ((((Run.refl _).tail hjoin rfl).tail hdeliver rfl).tail hjoin' rfl).tail hdeliver' rfl

/-- Node 1 has not heard of the other two for a minute. -/
def doubted : World (Fin 3) := gathered.call 0 ⟨steadyEnv 1070, .heartbeat⟩

end World
end LibSwim
