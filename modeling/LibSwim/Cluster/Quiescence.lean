import LibSwim.Cluster.Provenance
import LibSwim.Run.Budget

/-! # A cluster falls silent

Nodes make calls, and the packets they send make other nodes send packets. Each packet is delivered at
most once here, in any order and to any node. All deliveries are paid for, by the packets on the way
at the beginning and by the calls that nodes make by themselves; so there are no loops and no storms,
and between two heartbeats the cluster falls silent. In a cluster in which all know each other, what a
packet sets off is bounded by the packet alone.
-/

namespace LibSwim

open Foundations

/-- A cluster and the packets that are on their way. -/
structure Mail (ι : Type) where
  world : World ι
  flight : List Packet

/-- A call, and the packet it processes, if it does. -/
structure Exchange (ι : Type) where
  node : ι
  call : Call
  packet : Option Packet

def Exchange.deliveries {ι : Type} (l : Exchange ι) : ℕ := l.packet.toList.length

/-- What a call that a node makes by itself may set off. -/
def Exchange.price {ι : Type} (size : ℕ) (l : Exchange ι) : ℕ :=
  match l.packet with
  | some _ => 0
  | none => l.call.action.income size

theorem load_perm {ps qs : List Packet} (h : ps.Perm qs) : load ps = load qs :=
  (h.map _).sum_nat

theorem length_le_load (ps : List Packet) : ps.length ≤ load ps := by
  induction ps with
  | nil => exact Nat.zero_le _
  | cons p ps ih =>
    have hpos := p.event.body.weight_pos
    simp only [load, List.map_cons, List.sum_cons, List.length_cons] at ih ⊢
    omega

theorem load_le (ps : List Packet) : load ps ≤ 4 * ps.length := by
  induction ps with
  | nil => exact Nat.zero_le _
  | cons p ps ih =>
    have hle := p.event.body.weight_le
    simp only [load, List.map_cons, List.sum_cons, List.length_cons] at ih ⊢
    omega

section

variable {U : Finset Uuid} {s : SWIM}

/-- The node itself is in no view, so its own UUID is never paid for. -/
theorem SWIM.WellFormed.card_lt_debt (hwf : s.WellFormed) (hself : s.uuid ∈ U) : U.card + 1 ≤ s.debt U := by
  have hle := Finset.single_le_sum (f := fun u => worth U (s.find u)) (fun _ _ => Nat.zero_le _) hself
  rwa [hwf.find_self] at hle

theorem worth_le (o : Option NodeState) : worth U o ≤ U.card + 1 := by
  cases o with
  | none => exact le_rfl
  | some n => exact (worth_some_le n).trans (Nat.le_add_left 1 _)

theorem SWIM.debt_le_card (U : Finset Uuid) (s : SWIM) : s.debt U ≤ U.card * (U.card + 1) :=
  Finset.sum_le_card_nsmul U _ _ fun _ _ => worth_le _

/-- A node that knows everybody, and waits for nobody, owes nothing. -/
theorem SWIM.WellFormed.debt_eq (hwf : s.WellFormed) (hself : s.uuid ∈ U)
    (hall : ∀ u ∈ U, u ≠ s.uuid → ∃ n, s.find u = some n ∧ ¬ swimNodeHasWitness n) :
    s.debt U = U.card + 1 := by
  rw [SWIM.debt, Finset.sum_eq_single_of_mem s.uuid hself fun u hu hne => ?_, hwf.find_self, worth]
  obtain ⟨n, hn, hw⟩ := hall u hu hne
  rw [hn]
  exact if_neg hw

end

namespace Mail

open World (population)

variable {ι : Type}

structure Sound (uuid : ι → Uuid) (m : Mail ι) : Prop where
  grounded : m.world.Grounded uuid
  flight : ∀ p ∈ m.flight, p ∈ m.world.network

/-- The packet is one on its way, and the event is decoded from it. -/
def Carries (m : Mail ι) : Option Packet → Action → Prop
  | some p, .event e addr =>
    p ∈ m.flight ∧ p.event.Arrives e ∧ addr.addrlen ≤ sizeofSockaddrStorage
  | none, .heartbeat | none, .join _ | none, .leave => True
  | _, _ => False

/-- The node is running and has memory. -/
structure Admits (m : Mail ι) (l : Exchange ι) : Prop where
  running : m.world.running l.node = true
  allocates : l.call.env.Allocates
  carries : m.Carries l.packet l.call.action

/-- The packet is taken from the network, and what the node sends is put there. -/
def Step [DecidableEq ι] (m : Mail ι) (l : Exchange ι) (m' : Mail ι) : Prop :=
  m' = ⟨m.world.call l.node l.call,
    l.packet.elim m.flight m.flight.erase ++ m.world.packets l.node l.call⟩

variable {uuid : ι → Uuid} {now : ι → ℤ} {w : World ι} {m m' : Mail ι} {l : Exchange ι}

theorem Sound.admits (h : m.Sound uuid) (ha : m.Admits l) : m.world.Admits (l.node, l.call) := by
  refine ⟨ha.running, ?_⟩
  obtain ⟨i, ⟨env, action⟩, packet⟩ := l
  have hcarries := ha.carries
  cases packet with
  | none => cases action <;> first | exact hcarries.elim | trivial
  | some p =>
    cases action with
    | event e addr => exact ⟨hcarries.2.2, p, h.flight p hcarries.1, hcarries.2.1⟩
    | heartbeat | join | leave => exact hcarries.elim

theorem Sound.step [DecidableEq ι] (h : m.Sound uuid) (ha : m.Admits l) (hs : m.Step l m') :
    m'.Sound uuid := by
  obtain rfl := hs
  refine ⟨h.grounded.step (h.admits ha) rfl, fun p hp => ?_⟩
  rcases List.mem_append.mp hp with hp | hp
  · refine List.mem_append_left _ (h.flight p ?_)
    cases hl : l.packet with
    | none => rwa [hl] at hp
    | some q =>
      rw [hl] at hp
      exact List.mem_of_mem_erase hp
  · exact List.mem_append_right _ hp

variable [Fintype ι]

/-- What the packets on their way, and the nodes, may still set off. -/
def potential (uuid : ι → Uuid) (m : Mail ι) : ℕ :=
  load m.flight + ∑ i, (m.world.nodes i).debt (population uuid)

theorem closed (h : w.Grounded uuid) (i : ι) {env : Env} (henv : env.Allocates) :
    Closed (population uuid) ⟨w.nodes i, env, []⟩ :=
  ⟨h.sound.wf i, h.self_mem i, h.known_mem i, henv⟩

/-- Who is spoken of in the cluster is a node of the cluster. -/
theorem inside (h : w.Grounded uuid) {action : Action} (ha : action.Possible w.network) :
    action.Inside (population uuid) := by
  have hbrings := h.upholds.brings h.sound ha fun e he => he.received
  cases action with
  | event e addr =>
    refine ⟨fun u hu => h.spoke_mem ?_, fun g hg => h.spoke_mem (hbrings.gossip g hg)⟩
    have habout := hbrings.body
    rcases hu with hu | ⟨a, hu⟩
    · rwa [hu] at habout
    · rwa [hu] at habout
  | heartbeat | join | leave => trivial

/-- What is taken from the network pays for the delivery and for the answer to it. -/
theorem Admits.load_le (hsound : m.Sound uuid) (ha : m.Admits l) :
    l.deliveries + load (l.packet.elim m.flight m.flight.erase) +
        l.call.action.income (population uuid).card ≤
      load m.flight + l.price (Fintype.card ι) := by
  have hpop : (population uuid).card ≤ Fintype.card ι := Finset.card_image_le
  obtain ⟨i, ⟨env, action⟩, packet⟩ := l
  have hcarries := ha.carries
  cases packet with
  | none =>
    have hmono := action.income_mono hpop
    simp only [Exchange.deliveries, Exchange.price, Option.toList_none, List.length_nil, Option.elim_none]
    omega
  | some p =>
    cases action with
    | heartbeat | join | leave => exact hcarries.elim
    | event e addr =>
      have hevent := hcarries.2.1.eq (hsound.grounded.sound.network p (hsound.flight p hcarries.1))
      have hweight : e.body.weight = p.event.body.weight := by
        rw [hevent]
        rfl
      have hpos := e.body.weight_pos
      have hload := load_perm (List.perm_cons_erase hcarries.1)
      rw [← List.singleton_append, load_append, load_singleton] at hload
      simp only [Exchange.deliveries, Exchange.price, Option.toList_some, List.length_singleton,
        Option.elim_some, Action.income]
      omega

variable [DecidableEq ι]

theorem sum_debt_call (w : World ι) (i : ι) (c : Call) (U : Finset Uuid) :
    ∑ j, ((w.call i c).nodes j).debt U + (w.nodes i).debt U =
      ∑ j, (w.nodes j).debt U + (w.result i c).debt U := by
  have hupdate : (fun j => ((w.call i c).nodes j).debt U) =
      Function.update (fun j => (w.nodes j).debt U) i ((w.result i c).debt U) := by
    funext j
    rw [World.call_nodes, Function.update_apply, Function.update_apply, apply_ite (SWIM.debt U)]
  rw [hupdate]
  exact sum_update_add (Finset.mem_univ i) (fun j => (w.nodes j).debt U) _

/-- A move is paid out of the potential. -/
theorem Sound.pays (h : m.Sound uuid) (ha : m.Admits l) (hs : m.Step l m') :
    l.deliveries + m'.potential uuid ≤ m.potential uuid + l.price (Fintype.card ι) := by
  obtain rfl := hs
  have hpaid := call_affordable (closed h.grounded l.node ha.allocates) (inside h.grounded (h.admits ha).2)
  have hsum := sum_debt_call m.world l.node l.call (population uuid)
  have hload := ha.load_le h
  change load (m.world.packets l.node l.call) + (m.world.result l.node l.call).debt _ ≤ _ at hpaid
  simp only [potential, load_append]
  omega

theorem mul_succ_le {c k : ℕ} (h : c ≤ k) : c * (c + 1) ≤ (c + 1) + (k - 1) * (k + 1) := by
  calc c * (c + 1) ≤ (k - 1 + 1) * (c + 1) := Nat.mul_le_mul_right _ (by omega)
    _ = (c + 1) + (k - 1) * (c + 1) := by rw [Nat.succ_mul, Nat.add_comm]
    _ ≤ (c + 1) + (k - 1) * (k + 1) :=
      Nat.add_le_add_left (Nat.mul_le_mul_left _ (Nat.succ_le_succ h)) _

/-- From any world that can be reached, and with any of its packets on their way, there are only so many
deliveries, whatever is delivered where and when, if no call runs out of memory. When all know each
other and nobody waits for an ACK, it is what the packets on their way are worth (one for an ACK or a
JOIN, two for a PING or a LEAVE, four for a PING_REQ) and what the calls since then may set off. -/
theorem deliveries_bounded (h : Run World.Step World.Admits (World.init uuid now) w)
    {flight : List Packet} (hflight : ∀ p ∈ flight, p ∈ w.network) {ls : List (Exchange ι)}
    (ht : Trace Step Admits ⟨w, flight⟩ ls m) :
    (ls.map Exchange.deliveries).sum + m.flight.length ≤
      4 * flight.length + (ls.map (Exchange.price (Fintype.card ι))).sum +
        Fintype.card ι * ((Fintype.card ι - 1) * (Fintype.card ι + 1)) ∧
    ((∀ i j, uuid j ≠ uuid i →
        ∃ n, (w.nodes i).find (uuid j) = some n ∧ ¬ swimNodeHasWitness n) →
      (ls.map Exchange.deliveries).sum + m.flight.length ≤
        load flight + (ls.map (Exchange.price (Fintype.card ι))).sum) := by
  have hground := World.grounded_of_run h
  have hsound : Sound uuid ⟨w, flight⟩ := ⟨hground, hflight⟩
  have hend : m.Sound uuid := ht.preserves (fun _ _ _ hm ha hs => Sound.step hm ha hs) hsound
  have hbound := ht.cost_le_income Exchange.deliveries (Exchange.price (Fintype.card ι)) (potential uuid)
    (fun _ _ _ hm ha hs => ⟨Sound.step hm ha hs, Sound.pays hm ha hs⟩) hsound
  simp only [potential] at hbound
  have hpop : (population uuid).card ≤ Fintype.card ι := Finset.card_image_le
  -- what is owed on account of the nodes themselves is never spent
  have hlow : Fintype.card ι * ((population uuid).card + 1) ≤
      ∑ i, (m.world.nodes i).debt (population uuid) :=
    Finset.card_nsmul_le_sum _ _ _ fun i _ =>
      (hend.grounded.sound.wf i).card_lt_debt (hend.grounded.self_mem i)
  have hlen := length_le_load m.flight
  refine ⟨?_, fun hall => ?_⟩
  · have hhigh : ∑ i, (w.nodes i).debt (population uuid) ≤
        Fintype.card ι * ((population uuid).card * ((population uuid).card + 1)) :=
      Finset.sum_le_card_nsmul _ _ _ fun i _ => SWIM.debt_le_card _ _
    have hfour := load_le flight
    have hcard := Nat.mul_le_mul_left (Fintype.card ι) (mul_succ_le hpop)
    rw [Nat.mul_add _ ((population uuid).card + 1)] at hcard
    omega
  · have heq : ∑ i, (w.nodes i).debt (population uuid) =
        Fintype.card ι * ((population uuid).card + 1) := by
      rw [Finset.sum_congr rfl fun i _ => (hground.sound.wf i).debt_eq (hground.self_mem i) fun u hu hne => ?_]
      · exact Finset.sum_const _
      · obtain ⟨j, -, rfl⟩ := Finset.mem_image.mp hu
        exact hall i j (hground.sound.uuid i ▸ hne)
    omega

/-- Node 1 is delivered the JOIN of node 2: it sends the JOIN on and answers it, and that leaves two
packets on their way. -/
theorem deliveries_bounded_pair :
    ∃ m, Trace Step Admits ⟨World.joined, World.joined.network⟩
        [⟨false, ⟨steadyEnv 1000, .event World.joinOfPair .none⟩, some ⟨World.joinOfPair, .none⟩⟩] m ∧
      m.flight.length = 2 ∧ 1 + m.flight.length ≤ 4 * World.joined.network.length + 0 + 2 * (1 * 3) := by
  let l : Exchange Bool :=
    ⟨false, ⟨steadyEnv 1000, .event World.joinOfPair .none⟩, some ⟨World.joinOfPair, .none⟩⟩
  have hrun : Run World.Step World.Admits (World.init World.pair fun _ => 1000) World.joined :=
    (Run.refl _).tail (l := (true, ⟨steadyEnv 1000, .join .none⟩)) ⟨rfl, trivial⟩ rfl
  have hmem : ⟨World.joinOfPair, .none⟩ ∈ World.joined.network := by decide
  have hadmits : Admits ⟨World.joined, World.joined.network⟩ l := ⟨rfl, steadyEnv_allocates 1000, hmem,
    (World.joined_sound.network _ hmem).arrives, by decide⟩
  have hstep : Step ⟨World.joined, World.joined.network⟩ l ⟨World.joined.call false l.call,
    World.joined.network.erase ⟨World.joinOfPair, .none⟩ ++ World.joined.packets false l.call⟩ := rfl
  have htrace := Trace.cons hadmits hstep (.nil _)
  exact ⟨_, htrace, by decide, (deliveries_bounded hrun (fun _ => id) htrace).1⟩

end Mail
end LibSwim
