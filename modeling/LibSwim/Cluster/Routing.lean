import LibSwim.Cluster.World

/-! # Packets with their senders

The network as it is for nodes with addresses: a packet is delivered to the node it is addressed to,
and the receiver is told the address of the node that sent it. What happens to the nodes is what
happens in the cluster without addresses.
-/

namespace LibSwim

open Foundations

/-- A cluster in which every packet is kept with the node that sent it. -/
structure Routed (ι : Type) where
  nodes : ι → SWIM
  running : ι → Bool
  flight : List (ι × Packet)

namespace Routed

variable {ι : Type}

/-- The same cluster with the senders forgotten. -/
def toWorld (r : Routed ι) : World ι := ⟨r.nodes, r.running, r.flight.map Prod.snd⟩

def init (uuid : ι → Uuid) (now : ι → ℤ) : Routed ι where
  nodes i := swimStateInit (uuid i) (now i)
  running _ := true
  flight := []

/-- The packet that node `j` sent is received as the event `e` by node `i`, from address `a`. -/
def Receives (r : Routed ι) (addr : ι → SockAddr) (i : ι) (e : Event) (a : SockAddr) : Prop :=
  ∃ j p, (j, p) ∈ r.flight ∧ p.dest = addr i ∧ a = addr j ∧ p.event.Arrives e

def Admits (addr : ι → SockAddr) (r : Routed ι) (l : ι × Call) : Prop :=
  r.running l.1 = true ∧ ∀ e a, l.2.action = .event e a → r.Receives addr l.1 e a

variable {addr : ι → SockAddr} {uuid : ι → Uuid} {now : ι → ℤ} {r : Routed ι} {i j : ι} {c : Call}

theorem mem_network {q : ι × Packet} (hq : q ∈ r.flight) : q.2 ∈ r.toWorld.network :=
  List.mem_map_of_mem hq

/-- What is admitted here is admitted in the cluster without addresses. -/
theorem Admits.toWorld (h : r.Admits addr (i, c))
    (hlen : ∀ j, (addr j).addrlen ≤ sizeofSockaddrStorage) : r.toWorld.Admits (i, c) := by
  refine ⟨h.1, ?_⟩
  obtain ⟨env, action⟩ := c
  cases action with
  | event e a =>
    obtain ⟨j, p, hp, -, rfl, harr⟩ := h.2 e a rfl
    exact ⟨hlen j, p, mem_network hp, harr⟩
  | heartbeat | join _ | leave => trivial

/-- A call that can be made: its event, if it is one, is in flight to the node. -/
def Ready (addr : ι → SockAddr) (r : Routed ι) (l : ι × Call) : Prop :=
  r.running l.1 = true ∧ match l.2.action with
    | .event e a =>
      ∃ q ∈ r.flight, q.2.dest = addr l.1 ∧ a = addr q.1 ∧ e = q.2.event.received
    | .heartbeat | .join _ | .leave => True

instance (r : Routed ι) : (l : ι × Call) → Decidable (r.Ready addr l)
  | (_, ⟨_, .event _ _⟩) | (_, ⟨_, .heartbeat⟩) | (_, ⟨_, .join _⟩) | (_, ⟨_, .leave⟩) =>
    inferInstanceAs (Decidable (_ ∧ _))

theorem Ready.admits (hs : r.toWorld.Sound uuid) {l : ι × Call} (h : r.Ready addr l) :
    r.Admits addr l := by
  obtain ⟨i, env, action⟩ := l
  refine ⟨h.1, ?_⟩
  rintro e a rfl
  obtain ⟨⟨j, p⟩, hp, hdest, ha, he⟩ := h.2
  exact ⟨j, p, hp, hdest, ha, he ▸ (hs.network p (mem_network hp)).arrives⟩

variable [DecidableEq ι]

def call (r : Routed ι) (i : ι) (c : Call) : Routed ι where
  nodes := (r.toWorld.call i c).nodes
  running := (r.toWorld.call i c).running
  flight := r.flight ++ (r.toWorld.packets i c).map (Prod.mk i)

def Step (r : Routed ι) (l : ι × Call) (r' : Routed ι) : Prop := r' = r.call l.1 l.2

theorem toWorld_call (r : Routed ι) (i : ι) (c : Call) :
    (r.call i c).toWorld = r.toWorld.call i c := by
  have hflight : (r.call i c).flight.map Prod.snd = (r.toWorld.call i c).network := by
    simp only [call, List.map_append, List.map_map, Function.comp_def, List.map_id']
    rfl
  rw [toWorld, hflight]
  rfl

theorem call_nodes (r : Routed ι) (i : ι) (c : Call) :
    (r.call i c).nodes = Function.update r.nodes i (r.toWorld.result i c) := rfl

theorem mem_flight_call {q : ι × Packet} : q ∈ (r.call i c).flight ↔
    q ∈ r.flight ∨ q.1 = i ∧ q.2 ∈ r.toWorld.packets i c := by
  rw [call, List.mem_append, List.mem_map]
  constructor
  · rintro (hq | ⟨p, hp, rfl⟩)
    · exact .inl hq
    · exact .inr ⟨rfl, hp⟩
  · rintro (hq | ⟨hq, hp⟩)
    · exact .inl hq
    · exact .inr ⟨q.2, hp, by rw [← hq]⟩

theorem sound_call (hs : r.toWorld.Sound uuid) (h : r.Admits addr (i, c))
    (hlen : ∀ j, (addr j).addrlen ≤ sizeofSockaddrStorage) : (r.call i c).toWorld.Sound uuid := by
  rw [toWorld_call]
  exact hs.step (h.toWorld hlen) rfl

/-! ## Scripts

Used to exhibit runs: lists of calls, each of which can be made when its turn comes.
-/

/-- The cluster after the calls of a script. -/
def play (r : Routed ι) (ls : List (ι × Call)) : Routed ι := ls.foldl (fun r l => r.call l.1 l.2) r

def Playable (addr : ι → SockAddr) : Routed ι → List (ι × Call) → Prop
  | _, [] => True
  | r, l :: ls => r.Ready addr l ∧ Playable addr (r.call l.1 l.2) ls

instance decidablePlayable (addr : ι → SockAddr) :
    ∀ (r : Routed ι) (ls : List (ι × Call)), Decidable (Playable addr r ls)
  | _, [] => isTrue trivial
  | r, l :: ls => @instDecidableAnd _ _ inferInstance (decidablePlayable addr (r.call l.1 l.2) ls)

theorem run_of_playable (hlen : ∀ j, (addr j).addrlen ≤ sizeofSockaddrStorage) {r₀ : Routed ι}
    {ls : List (ι × Call)} (h : Playable addr r ls) (hs : r.toWorld.Sound uuid)
    (hrun : Run Step (Admits addr) r₀ r) : Run Step (Admits addr) r₀ (r.play ls) := by
  induction ls generalizing r with
  | nil => exact hrun
  | cons l ls ih =>
    have ha := h.1.admits hs
    exact ih h.2 (sound_call hs ha hlen) (hrun.tail ha rfl)

end Routed
end LibSwim
