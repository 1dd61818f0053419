import LibSwim.Cluster.Invariant
import LibSwim.Server.Loop

/-! # Servers that exchange bytes

Any number of servers, each with an application that starts and stops it, over a network of datagrams
that loses, delays, duplicates and misdelivers them. What happens among them is what happens in the
cluster in which whole events are delivered: every event that is sent is encoded, every datagram that
is received is decoded to the event it was made of, and a round of a server is one or two calls of its
node.
-/

namespace LibSwim

open Foundations

structure Servers (ι : Type) where
  server : ι → Server
  network : List Datagram

section

variable {e : Event} {ps : List Packet}

theorem Event.InRange.fits (h : e.InRange) : e.Fits :=
  ⟨h.join, fun g hg => (h.gossip g hg).addr, h.count.trans (by decide)⟩

theorem headerWire_le (e : Event) : 36 ≤ e.wire.length := by
  rw [Event.wire, List.length_append, headerWire_length]
  exact Nat.le_add_right _ _

/-- A datagram is received as the event it was made of, whatever the buffer held. -/
theorem Event.InRange.recv (h : e.InRange) {buffer : List UInt8}
    (hlen : buffer.length = swimMaxPacketSize) :
    swimRecvEvent e.wire buffer = .ok (some (e.wire.length, e.received)) := by
  have hle : e.wire.length ≤ buffer.length := by
    rw [hlen]
    exact h.wire_length.trans (by decide)
  have hpos := headerWire_le e
  rw [swimRecvEvent, List.take_of_length_le hle]
  rw [if_neg (by omega), decodeEvent_eq h]
  rw [List.length_drop]
  omega

end

namespace Servers

variable {ι : Type}

def init (uuid : ι → Uuid) (now : ι → ℤ) (address : ι → SockAddr) : Servers ι where
  server i := swimServerInit (uuid i) (now i) (address i)
  network := []

/-- A datagram comes from the network, and its sender's address from a `sockaddr_storage`. -/
def Delivers (S : Servers ι) (r : Round) : Prop :=
  r.buffer.length = swimMaxPacketSize ∧ ∀ d ∈ r.received,
    d.addr.addrlen ≤ sizeofSockaddrStorage ∧ ∃ q ∈ S.network, d.bytes = q.bytes

def Admits (S : Servers ι) (l : ι × ServerOp) : Prop :=
  (S.server l.1).running = true ∧ ∀ r, l.2 = .round r → S.Delivers r

variable [DecidableEq ι]

/-- One server performs an operation; the network keeps what it sends. -/
def Step (S : Servers ι) (l : ι × ServerOp) (S' : Servers ι) : Prop :=
  ∃ v ds, (S.server l.1).perform l.2 = some (v, ds) ∧
    S' = ⟨Function.update S.server l.1 v, S.network ++ ds⟩

end Servers

/-! ## Statuses in the cluster -/

namespace World

variable {ι : Type} {uuid : ι → Uuid} {w w' : World ι}

/-- There are names for all statuses, in the views and on their way. -/
def Named (w : World ι) : Prop :=
  w.Upholds (fun n => n.info.status.Named) fun e => ∀ g ∈ e.gossip, g.status.Named

variable [DecidableEq ι]

theorem Named.step {l : ι × Call} (h : w.Named) (hsound : w.Sound uuid) (ha : w.Admits l)
    (hs : w.Step l w') : w'.Named := by
  obtain ⟨i, c⟩ := l
  obtain rfl := hs
  have hbrings : ∀ e addr, c.action = .event e addr → ∀ g ∈ e.gossip, g.status.Named :=
    fun e addr he => (h.brings hsound ha.2 fun _ => id).event he
  refine Upholds.call h hsound (h.views i) (fun _ => id) (fun _ _ _ _ hact => hact.named hbrings)
    (fun _ _ _ hact _ _ _ => hact.named hbrings) ?_ fun e addr _ _ he _ => hbrings e addr he
  intro t time body gossip dest _ _ _ hgossip _ g hg
  obtain ⟨n, hn, rfl⟩ := hgossip g hg
  exact hn

end World

/-! ## The simulation -/

namespace Servers

variable {ι : Type} {uuid : ι → Uuid} {now : ι → ℤ} {address : ι → SockAddr} {S S' : Servers ι}
variable {w : World ι} {i : ι} {v : Server} {op : ServerOp} {ds : List Datagram} {r : Round}

/-- The servers have the nodes of the cluster, and the datagrams are made of its packets. -/
structure Matches (uuid : ι → Uuid) (S : Servers ι) (w : World ι) : Prop where
  sound : w.Sound uuid
  named : w.Named
  nodes : ∀ i, (S.server i).swim = w.nodes i
  running : ∀ i, (S.server i).running = w.running i
  network : S.network = w.network.map Packet.datagram

/-- A round is made of calls that are possible in the cluster, and the printout at its end finds names
for all that these bring. -/
theorem Matches.round (h : Matches uuid S w) (hr : S.Delivers r) :
    r.Named ∧ ∃ cs, (∀ c ∈ cs, c.action.Possible w.network) ∧ ∀ s, r.handle s = runCalls cs s := by
  have hbeat : Action.Possible w.network .heartbeat := trivial
  cases hd : r.received with
  | none =>
    have hev : r.event = .ok none := by rw [Round.event, hd]
    refine ⟨fun e a he => ?_, [⟨r.beat, .heartbeat⟩], by simpa using hbeat, fun s => ?_⟩
    · rw [hev] at he
      cases he
    · rw [Round.handle, hev]
  | some d =>
    obtain ⟨haddr, q, hq, hbytes⟩ := hr.2 d hd
    rw [h.network, List.mem_map] at hq
    obtain ⟨p, hp, rfl⟩ := hq
    have hrange := h.sound.network p hp
    have hrecv : swimRecvEvent d.bytes r.buffer = .ok (some (p.event.wire.length, p.event.received)) := by
      rw [hbytes]
      exact hrange.recv hr.1
    have hev : r.event = .ok (some (.event p.event.received d.addr)) := by
      simp only [Round.event, hd, hrecv]
    have hevent : Action.Possible w.network (.event p.event.received d.addr) :=
      ⟨haddr, p, hp, hrange.arrives⟩
    refine ⟨fun e a he => ?_, [⟨r.env, .event p.event.received d.addr⟩, ⟨r.beat, .heartbeat⟩],
      by simpa using ⟨hevent, hbeat⟩, fun s => ?_⟩
    · rw [hev] at he
      cases he
      exact h.named.network p hp
    · rw [Round.handle, hev]

/-- Whatever a server does is a list of calls of its node. -/
theorem Matches.calls (h : Matches uuid S w) (ha : S.Admits (i, op))
    (hp : (S.server i).perform op = some (v, ds)) :
    ∃ cs, (∀ c ∈ cs, c.action.Possible w.network) ∧
      v.swim = (runCalls cs (w.nodes i)).2.1 ∧
      v.running = ((runCalls cs (w.nodes i)).1.isOk && (transmit (runCalls cs (w.nodes i)).2.2).1.isOk) ∧
      ds = (transmit (runCalls cs (w.nodes i)).2.2).2 := by
  rw [← h.nodes i]
  have hrunning : (S.server i).running = true := ha.1
  cases op with
  | start | stop | wait | test =>
    refine ⟨[], by simp, ?_⟩
    simp only [Server.perform] at hp
    repeat' split at hp
    all_goals cases hp
    all_goals exact ⟨rfl, hrunning, rfl⟩
  | enter env =>
    simp only [Server.perform] at hp
    split_ifs at hp
    cases hp
    refine ⟨(S.server i).entry env, ?_, rfl, rfl, rfl⟩
    unfold Server.entry
    split_ifs <;> simp [Action.Possible]
  | round r =>
    obtain ⟨hnamed, cs, hcs, hhandle⟩ := h.round (ha.2 r rfl)
    have hview : (S.server i).swim.WellFormed ∧ (S.server i).swim.Named := by
      rw [h.nodes i]
      exact ⟨h.sound.wf i, h.named.views i⟩
    simp only [Server.perform] at hp
    split at hp
    all_goals cases hp
    refine ⟨cs, hcs, ?_⟩
    rw [← hhandle, Round.perform_named hview.1 hview.2 hnamed]
    exact ⟨rfl, rfl, rfl⟩

theorem Matches.init (uuid : ι → Uuid) (now : ι → ℤ) (address : ι → SockAddr) :
    Matches uuid (init uuid now address) (World.init uuid now) where
  sound := .init uuid now
  named := .init _ _ uuid now
  nodes _ := rfl
  running _ := rfl
  network := rfl

variable [DecidableEq ι]

/-- An operation of a server is matched by a run of the cluster. -/
theorem Matches.step (h : Matches uuid S w) {l : ι × ServerOp} (ha : S.Admits l) (hs : S.Step l S') :
    ∃ w', Run World.Step World.Admits w w' ∧ Matches uuid S' w' := by
  obtain ⟨i, op⟩ := l
  obtain ⟨v, ds, hp, rfl⟩ := hs
  obtain ⟨cs, hcs, hswim, hrunning, hds⟩ := h.calls ha hp
  have hup : w.running i = true := (h.running i).symm.trans ha.1
  have hrun := World.run_calls hup hcs
  obtain ⟨hsound, hnamed⟩ : (w.calls i cs).Sound uuid ∧ (w.calls i cs).Named :=
    hrun.preserves (I := fun w' => w'.Sound uuid ∧ w'.Named)
      (fun _ _ _ hw hadm hstep => ⟨hw.1.step hadm hstep, hw.2.step hw.1 hadm hstep⟩) ⟨h.sound, h.named⟩
  have hsent : transmit (runCalls cs (w.nodes i)).2.2 =
      (.ok (), (runCalls cs (w.nodes i)).2.2.map Packet.datagram) :=
    transmit_eq fun p hp => (hsound.network p (List.mem_append_right _ hp)).fits
  rw [hsent] at hrunning hds
  refine ⟨w.calls i cs, hrun, hsound, hnamed, fun j => ?_, fun j => ?_, ?_⟩
  · change (Function.update S.server i v j).swim = Function.update w.nodes i _ j
    by_cases hj : j = i
    · subst hj
      rw [Function.update_self, Function.update_self, hswim]
    · rw [Function.update_of_ne hj, Function.update_of_ne hj, h.nodes]
  · change (Function.update S.server i v j).running = Function.update w.running i _ j
    by_cases hj : j = i
    · subst hj
      rw [Function.update_self, Function.update_self, hrunning]
      exact Bool.and_true _
    · rw [Function.update_of_ne hj, Function.update_of_ne hj, h.running]
  · change S.network ++ ds = (w.network ++ _).map Packet.datagram
    rw [h.network, hds, List.map_append]

/-- Every run of the servers is a run of the cluster: the nodes are the same at its end, the same
processes are there, and the datagrams are the packets. No datagram has more than 1784 bytes, each
is what the encoder makes of its packet, and each is decoded to that event by every receiver. -/
theorem servers_refine (h : Run Step Admits (init uuid now address) S) :
    ∃ w, Run World.Step World.Admits (World.init uuid now) w ∧
      (∀ i, (S.server i).swim = w.nodes i ∧ (S.server i).running = w.running i) ∧
      S.network = w.network.map Packet.datagram ∧
      ∀ p ∈ w.network, p.datagram.bytes.length ≤ 1784 ∧
        swimEncodeEvent swimMaxPacketSize p.event = .ok p.datagram.bytes ∧
        ∀ buffer : List UInt8, buffer.length = swimMaxPacketSize →
          swimRecvEvent p.datagram.bytes buffer =
            .ok (some (p.datagram.bytes.length, p.event.received)) := by
  obtain ⟨w, hrun, hm⟩ := h.simulates (R := Matches uuid)
    (fun _ _ _ _ hm ha hs => hm.step ha hs) (.init uuid now address)
  refine ⟨w, hrun, fun i => ⟨hm.nodes i, hm.running i⟩, hm.network, fun p hp => ?_⟩
  have hrange := hm.sound.network p hp
  exact ⟨hrange.wire_length, encodeEvent_eq hrange, fun buffer hlen => hrange.recv hlen⟩

/-- The servers after an operation that can happen. -/
def after (S : Servers ι) (l : ι × ServerOp) : Servers ι :=
  match (S.server l.1).perform l.2 with
  | some (v, ds) => ⟨Function.update S.server l.1 v, S.network ++ ds⟩
  | none => S

theorem step_after {l : ι × ServerOp} (h : ((S.server l.1).perform l.2).isSome = true) :
    S.Step l (S.after l) := by
  obtain ⟨⟨v, ds⟩, hp⟩ := Option.isSome_iff_exists.mp h
  exact ⟨v, ds, hp, by rw [after, hp]⟩

/-- Two servers are started, each with the other as its contact, and one waits for a datagram. -/
def starting : Servers Bool :=
  [(true, .start), (true, .enter (steadyEnv 1000)), (false, .start), (false, .enter (steadyEnv 1000)),
    (false, .test)].foldl after (init World.pair (fun _ => 1000) fun _ => ⟨[7]⟩)

/-- It receives the JOIN of the other. A printout is due at the end of the round. -/
def greeting : Round :=
  ⟨steadyEnv 1010, steadyEnv 1010, 1010, List.replicate 2048 0,
    starting.network.head?.map fun d => ⟨d.bytes, ⟨[5]⟩⟩⟩

theorem greeting_delivers : starting.Delivers greeting := by
  refine ⟨List.length_replicate, fun d hd => ?_⟩
  simp only [greeting, Option.mem_def, Option.map_eq_some_iff] at hd
  obtain ⟨q, hq, rfl⟩ := hd
  exact ⟨(by decide : 1 ≤ sizeofSockaddrStorage), q, List.mem_of_mem_head? hq, rfl⟩

theorem servers_refine_joining :
    let S := starting.after (false, .round greeting)
    (S.server false).swim.members.map (·.uuid) = [World.pair true] ∧ S.network.length = 5 ∧
      ∃ w, Run World.Step World.Admits (World.init World.pair fun _ => 1000) w ∧
        (S.server false).swim = w.nodes false ∧ S.network = w.network.map Packet.datagram := by
  have hstart : Run Step Admits (init World.pair (fun _ => 1000) fun _ => ⟨[7]⟩) starting :=
    (((((Run.refl _).tail (l := (true, .start)) ⟨rfl, by simp⟩ (step_after rfl)).tail
      (l := (true, .enter (steadyEnv 1000))) ⟨rfl, by simp⟩ (step_after rfl)).tail
      (l := (false, .start)) ⟨rfl, by simp⟩ (step_after rfl)).tail
      (l := (false, .enter (steadyEnv 1000))) ⟨rfl, by simp⟩ (step_after rfl)).tail
      (l := (false, .test)) ⟨rfl, by simp⟩ (step_after rfl)
  have hrun := hstart.tail (l := (false, .round greeting))
    ⟨rfl, by rintro _ ⟨⟩; exact greeting_delivers⟩ (step_after rfl)
  obtain ⟨w, hw, hsame, hnetwork, -⟩ := servers_refine hrun
  exact ⟨by decide +kernel, by decide +kernel, w, hw, (hsame false).1, hnetwork⟩

end Servers

end LibSwim
