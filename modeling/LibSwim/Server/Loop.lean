import LibSwim.Run.Frame
import LibSwim.Run.Heartbeat
import LibSwim.Run.Outcomes
import LibSwim.Wire.Bounds

/-! # The server

The functions of `swim/server.c` and `swim/server_pthread.c`, and `swim_send_event` down to the bytes
it hands to `sendto`. A server is a thread that joins the cluster and then receives one datagram after
the other, with a heartbeat after each, until the application stops it.
-/

namespace LibSwim

open Foundations Program

/-- The bytes handed to `sendto` with their destination, or stored by `recvfrom` with the address they
came from. -/
structure Datagram where
  bytes : List UInt8
  addr : SockAddr
  deriving DecidableEq

/-- `swim_send_event` for one event after the other. One that cannot be encoded ends the process: what
follows is not sent. -/
def transmit : List Packet → Except Fault Unit × List Datagram
  | [] => (.ok (), [])
  | p :: ps =>
    match swimEncodeEvent swimMaxPacketSize p.event with
    | .error f => (.error f, [])
    | .ok bytes =>
      match transmit ps with
      | (r, ds) => (r, ⟨bytes, p.dest⟩ :: ds)

/-- What the surroundings do in one round of the loop. -/
structure Round where
  /-- What libc returns while the event is processed, and then during the heartbeat. -/
  env : Env
  beat : Env
  /-- The time that decides about the printout. -/
  nextPrintout : ℤ
  /-- What the stack holds where `swim_recv_event` has its buffer. -/
  buffer : List UInt8
  /-- `none` when `recvfrom` fails, as it does after ten seconds without a datagram. -/
  received : Option Datagram

/-- The event of a round, if there is one: nothing is processed when nothing was received or when what
was received is not an event. -/
def Round.event (r : Round) : Except Fault (Option Action) :=
  match r.received with
  | none => .ok none
  | some d =>
    match swimRecvEvent d.bytes r.buffer with
    | .error f => .error f
    | .ok none => .ok none
    | .ok (some (_, event)) => .ok (some (.event event d.addr))

/-- The body of the loop of `swim_server_loop` up to the printout. -/
def Round.handle (r : Round) (s : SWIM) : Except Fault Unit × SWIM × List Packet :=
  match r.event with
  | .error f => (.error f, s, [])
  | .ok none => runCalls [⟨r.beat, .heartbeat⟩] s
  | .ok (some action) => runCalls [⟨r.env, action⟩, ⟨r.beat, .heartbeat⟩] s

def statusName : List String := ["UNKNOWN", "ALIVE", "SUSPECT", "DEAD"]

/-- A gossiped status may have a code that the table has no entry for. -/
def swimStatusName (status : Status) : Except Fault String :=
  match statusName[status.code]? with
  | some name => .ok name
  | none => .error .outOfBounds

/-- `swim_state_print` for an application that has set no callback: the column that it takes from a
table, for each member. The other columns are text made of the entry. -/
def swimStatePrint (swim : SWIM) : Except Fault (List String) :=
  swim.members.mapM fun node => swimStatusName node.info.status

/-- Whether a round ends with a printout. -/
def Round.Prints (r : Round) (lastPrintout : ℤ) : Prop := lastPrintout + 5 < r.nextPrintout

instance (r : Round) (lastPrintout : ℤ) : Decidable (r.Prints lastPrintout) :=
  inferInstanceAs (Decidable (_ < _))

/-- `time_t last_printout` after a round. -/
def Round.printed (r : Round) (lastPrintout : ℤ) : ℤ :=
  if r.Prints lastPrintout then r.nextPrintout else lastPrintout

/-- The body of the loop of `swim_server_loop`. -/
def Round.perform (r : Round) (lastPrintout : ℤ) (s : SWIM) :
    Except Fault Unit × SWIM × List Packet :=
  match r.handle s with
  | (.error f, s', ps) => (.error f, s', ps)
  | (.ok (), s', ps) =>
    (if r.Prints lastPrintout then (swimStatePrint s').map fun _ => () else .ok (), s', ps)

/-- Where the thread of a server is. -/
inductive Thread where
  | absent
  /-- In `pthread_server_loop`, before the JOIN. -/
  | created
  /-- About to ask `swim_server_running`. -/
  | testing (lastPrintout : ℤ)
  /-- In the body of the loop. -/
  | serving (lastPrintout : ℤ)
  | returned
  deriving DecidableEq

/-- The node with its `PThreadServerState` and the process around them. -/
structure Server where
  swim : SWIM
  stopped : Bool
  address : SockAddr
  thread : Thread
  /-- A fault in the thread ends the process. -/
  running : Bool

/-- `swim_server_init`, where the allocations and the socket succeed. -/
def swimServerInit (uuid : Uuid) (now : ℤ) (address : SockAddr) : Server where
  swim := swimStateInit uuid now
  stopped := false
  address := address
  thread := .absent
  running := true

/-- What the application does, and the steps of the thread. -/
inductive ServerOp where
  | start
  | stop
  /-- `swim_server_wait` returns. -/
  | wait
  | enter (env : Env)
  | test
  | round (r : Round)

namespace Server

/-- The thread does the work `result` and is at `next` afterwards. -/
def act (result : Except Fault Unit × SWIM × List Packet) (next : Thread) (v : Server) :
    Server × List Datagram :=
  ({ v with
      swim := result.2.1
      thread := next
      running := result.1.isOk && (transmit result.2.2).1.isOk },
    (transmit result.2.2).2)

/-- The calls of `pthread_server_loop` before it enters the loop. -/
def entry (v : Server) (env : Env) : List Call :=
  if 0 < v.address.addrlen then [⟨env, .join v.address⟩] else []

/-- The server after an operation, and the datagrams it sent; `none` when the operation is not one that
can happen here. `swim_server_start` makes a thread whenever it is called, so a server whose thread has
returned may be started again. While a thread is under way a second one would race with it for the
node, which is not modelled. `pthread_join` in `swim_server_wait` returns once the thread has. -/
def perform (v : Server) : ServerOp → Option (Server × List Datagram)
  | .start =>
    if v.thread = .absent ∨ v.thread = .returned then some ({ v with thread := .created }, [])
    else none
  | .stop => some ({ v with stopped := true }, [])
  | .wait => if v.thread = .returned then some (v, []) else none
  | .enter env =>
    if v.thread = .created then some (v.act (runCalls (v.entry env) v.swim) (.testing 0)) else none
  | .test =>
    match v.thread with
    | .testing last => some ({ v with thread := if v.stopped then .returned else .serving last }, [])
    | .absent | .created | .serving _ | .returned => none
  | .round r =>
    match v.thread with
    | .serving last => some (v.act (r.perform last v.swim) (.testing (r.printed last)))
    | .absent | .created | .testing _ | .returned => none

def Step (v : Server) (op : ServerOp) (v' : Server) : Prop := ∃ ds, v.perform op = some (v', ds)

end Server

/-! ## Everything sent can be encoded -/

/-- The addresses of an event fit their storage, and it has no more entries than the decoder lets
through. -/
abbrev Event.Fits (e : Event) : Prop := e.Carries (fun g => g.addr.addrlen ≤ sizeofSockaddrStorage) 11

/-- What is sent for a packet. -/
def Packet.datagram (p : Packet) : Datagram := ⟨p.event.wire, p.dest⟩

def Action.Fits : Action → Prop
  | .event e addr => e.Fits ∧ addr.addrlen ≤ sizeofSockaddrStorage
  | .heartbeat | .join _ | .leave => True

/-- The addresses of the members fit their storage. -/
def SWIM.Stores (s : SWIM) : Prop := s.Holds fun n => n.info.addr.addrlen ≤ sizeofSockaddrStorage

section

variable {env : Env} {s s₀ t u : SWIM} {action : Action} {c : Call} {cs : List Call} {f : Fault}
variable {ps : List Packet} {e : Event}

theorem Event.Fits.encode (h : e.Fits) : swimEncodeEvent swimMaxPacketSize e = .ok e.wire := by
  have hlen := eventWire_length h.join h.gossip
  have hcount := h.count
  apply encodeEvent_of_length h.join h.gossip
  rw [swimMaxPacketSize]
  omega

theorem transmit_eq (h : ∀ p ∈ ps, p.event.Fits) : transmit ps = (.ok (), ps.map Packet.datagram) := by
  induction ps with
  | nil => rfl
  | cons p ps ih =>
    have hhead := (h p (by simp)).encode
    have hrest := ih fun q hq => h q (by simp [hq])
    simp only [transmit, hhead, hrest]
    rfl

theorem InsertAct.stores {n : NodeState} (h : InsertAct s₀ t action n) (ha : action.Fits) :
    n.info.addr.addrlen ≤ sizeofSockaddrStorage := by
  cases h with
  | join hb hi _ =>
    rw [hi]
    exact fillJoinAddr_le (ha.1.join _ _ hb) ha.2
  | ack _ hi _ | ackLast _ hi _ _ =>
    rw [hi]
    exact ha.2
  | gossip _ hg _ => exact ha.1.gossip _ hg

/-- A node that stores addresses of the right size does so through a call, and all it sends can be
encoded. -/
theorem Reached.fits (hr : Reached env s₀ action t ps) (h₀ : s₀.Stores) (ha : action.Fits) :
    t.Stores ∧ ∀ p ∈ ps, p.event.Fits := by
  refine hr.carries (R := fun g => g.addr.addrlen ≤ sizeofSockaddrStorage) (m := 11) h₀ (by decide) ?_
    (fun t n n' hn hlen => ?_) fun t n hn => hn.stores ha
  · rintro e addr rfl
    exact ha
  · rwa [(hn.grownTo ⟨rfl, le_rfl⟩).1]

end

/-! ## What ends a server -/

section

variable {env : Env} {s : SWIM} {h : Host} {e : Event} {addr : SockAddr} {u : Uuid} {a : SockAddr}

end

/-! ## Rounds -/

/-- What `swim_recv_event` hands to the decoder. -/
def Round.stored (r : Round) (d : Datagram) : List UInt8 :=
  d.bytes.take r.buffer.length ++ r.buffer.drop (d.bytes.take r.buffer.length).length

/-- The buffer has its size, and the addresses that are decoded or stored fit theirs. -/
structure Round.Fits (r : Round) : Prop where
  buffer : r.buffer.length = swimMaxPacketSize
  addr : ∀ d ∈ r.received, d.addr.addrlen ≤ sizeofSockaddrStorage
  join : ∀ d ∈ r.received, ∀ n e u a, swimRecvEvent d.bytes r.buffer = .ok (some (n, e)) →
    e.body = .join u a → a.addrlen ≤ sizeofSockaddrStorage
  gossip : ∀ d ∈ r.received, ∀ n e, swimRecvEvent d.bytes r.buffer = .ok (some (n, e)) →
    ∀ g ∈ e.gossip, g.addr.addrlen ≤ sizeofSockaddrStorage

/-- There is a name for the status. -/
def Status.Named (status : Status) : Prop := status.code < statusName.length

instance (status : Status) : Decidable status.Named := inferInstanceAs (Decidable (_ < _))

/-- There are names for all that the view holds. -/
def SWIM.Named (s : SWIM) : Prop := s.Holds fun n => n.info.status.Named

/-- There are names for all that the event of the round brings. -/
def Round.Named (r : Round) : Prop :=
  ∀ e a, r.event = .ok (some (.event e a)) → ∀ g ∈ e.gossip, g.status.Named

section

variable {r : Round} {d : Datagram} {s s' : SWIM} {c : Call} {cs : List Call} {f : Fault}
variable {ps : List Packet}

theorem Round.stored_length (r : Round) (d : Datagram) : (r.stored d).length = r.buffer.length := by
  simp only [Round.stored, List.length_append, List.length_take, List.length_drop]
  omega

theorem recvEvent_eq (hlen : r.buffer.length = swimMaxPacketSize) (hd : d.bytes ≠ []) :
    swimRecvEvent d.bytes r.buffer = swimDecodeEvent (r.stored d) := by
  have hpos : (d.bytes.take r.buffer.length).length ≠ 0 := by
    rw [hlen, List.length_take, swimMaxPacketSize]
    have := List.length_pos_of_ne_nil hd
    omega
  simp only [swimRecvEvent, if_neg hpos, Round.stored]

/-- The events of a round are those of accepted packets. -/
theorem Round.Fits.action {action : Action} (hr : r.Fits) (he : r.event = .ok (some action)) :
    action.Fits := by
  unfold Round.event at he
  cases hd : r.received with
  | none => simp [hd] at he
  | some d =>
    simp only [hd] at he
    split at he
    · cases he
    · cases he
    · rename_i n e hrecv
      cases he
      have hmem : d ∈ r.received := hd
      refine ⟨⟨fun u a => hr.join d hmem n e u a hrecv, hr.gossip d hmem n e hrecv, ?_⟩,
        hr.addr d hmem⟩
      have hne : d.bytes ≠ [] := by
        intro hnil
        simp [swimRecvEvent, hnil] at hrecv
      have hlen : (r.stored d).length = swimMaxPacketSize := (r.stored_length d).trans hr.buffer
      rw [recvEvent_eq hr.buffer hne] at hrecv
      obtain ⟨t, hacc, -, rfl⟩ := (decode_iff (by rw [hlen]; decide)).mp hrecv
      exact hacc.count_le hlen

theorem swimStatusName_ok_iff {status : Status} :
    (∃ name, swimStatusName status = .ok name) ↔ status.Named := by
  unfold swimStatusName Status.Named
  cases h : statusName[status.code]? with
  | none => simpa using List.getElem?_eq_none_iff.mp h
  | some name => simpa using (List.getElem?_eq_some_iff.mp h).1

theorem swimStatePrint_ok_iff :
    (∃ names, swimStatePrint s = .ok names) ↔ ∀ n ∈ s.members, n.info.status.Named := by
  unfold swimStatePrint
  induction s.members with
  | nil => exact iff_of_true ⟨[], rfl⟩ (by simp)
  | cons n ns ih =>
    rw [List.forall_mem_cons, ← swimStatusName_ok_iff, ← ih, List.mapM_cons]
    cases swimStatusName n.info.status with
    | error f => exact iff_of_false (by rintro ⟨_, ⟨⟩⟩) (by rintro ⟨⟨_, ⟨⟩⟩, -⟩)
    | ok name =>
      cases ns.mapM fun node => swimStatusName node.info.status with
      | error f => exact iff_of_false (by rintro ⟨_, ⟨⟩⟩) (by rintro ⟨-, _, ⟨⟩⟩)
      | ok names => exact iff_of_true ⟨_, rfl⟩ ⟨⟨_, rfl⟩, _, rfl⟩

theorem NodeAct.named {now : ℤ} {s₀ t : SWIM} {action : Action} {n n' : NodeState}
    (h : NodeAct now s₀ t action n n')
    (ha : ∀ e addr, action = .event e addr → ∀ g ∈ e.gossip, g.status.Named)
    (hn : n.info.status.Named) : n'.info.status.Named := by
  have halive : Status.alive.Named := by decide
  cases h with
  | @notice e addr _ _ _ _ =>
    obtain ⟨seen, status, -, hstatus, hinfo⟩ := n.notice_info e.hdr.time e.hdr.incarnation
    rw [hinfo]
    rcases hstatus with rfl | rfl
    · exact hn
    · exact halive
  | @merge e addr _ info _ hg _ _ =>
    obtain ⟨seen, status, -, hstatus, hinfo⟩ := n.merge_info info
    rw [hinfo]
    rcases hstatus with rfl | rfl
    · exact hn
    · exact ha e addr rfl info hg
  | suspect _ | suspectDead _ _ => exact (by decide : Status.suspect.Named)
  | refute _ _ _ => exact halive
  | del _ | declareDead _ _ => exact (by decide : Status.dead.Named)

theorem InsertAct.named {s₀ t : SWIM} {action : Action} {n : NodeState} (h : InsertAct s₀ t action n)
    (ha : ∀ e addr, action = .event e addr → ∀ g ∈ e.gossip, g.status.Named) :
    n.info.status.Named := by
  cases h with
  | join _ hi _ | ackLast _ hi _ _ =>
    rw [hi]
    exact (by decide : Status.alive.Named)
  | ack _ hi _ =>
    rw [hi]
    exact (by decide : Status.unknown.Named)
  | gossip _ hg _ => exact ha _ _ rfl _ hg

theorem runCalls_named (hwf : s.WellFormed) (hs : s.Named)
    (hcs : ∀ c ∈ cs, ∀ e addr, c.action = .event e addr → ∀ g ∈ e.gossip, g.status.Named) :
    (runCalls cs s).2.1.WellFormed ∧ (runCalls cs s).2.1.Named := by
  induction cs generalizing s with
  | nil => exact ⟨hwf, hs⟩
  | cons c cs ih =>
    rw [List.forall_mem_cons] at hcs
    rcases hstep : runStep c s with ⟨res, s', ps⟩
    have hacc := account hwf hstep
    have hs' : s'.Named := (hacc.reached.holds hs (fun _ _ _ _ hact => hact.named hcs.1)
      fun _ _ _ hact _ _ _ => hact.named hcs.1).1
    cases res with
    | error f =>
      rw [runCalls_error hstep]
      exact ⟨hacc.wf, hs'⟩
    | ok =>
      rw [runCalls_ok hstep]
      exact ih hacc.wf hs' hcs.2

theorem Round.handle_named (hwf : s.WellFormed) (hs : s.Named) (hr : r.Named) :
    (r.handle s).2.1.WellFormed ∧ (r.handle s).2.1.Named := by
  unfold Round.handle
  split
  · exact ⟨hwf, hs⟩
  · exact runCalls_named hwf hs (by simp)
  · rename_i action he
    refine runCalls_named hwf hs (List.forall_mem_cons.mpr ⟨?_, by simp⟩)
    rintro e addr rfl
    exact hr e addr he

/-- The printout finds names for all it prints. -/
theorem Round.perform_named {last : ℤ} (hwf : s.WellFormed) (hs : s.Named) (hr : r.Named) :
    r.perform last s = r.handle s := by
  obtain ⟨hwf', hs'⟩ := Round.handle_named hwf hs hr
  obtain ⟨names, hnames⟩ := swimStatePrint_ok_iff.mpr fun n hn => hs'.of_mem hwf' hn
  unfold Round.perform
  rcases hhandle : r.handle s with ⟨_ | _, s', ps⟩
  · rfl
  · rw [hhandle] at hnames
    simp only [hnames, Except.map, ite_self]

end

/-! ## Runs of a server -/

namespace Server

/-- The process is there, and addresses fit. The datagrams and what the stack holds are arbitrary. -/
def Admits (v : Server) (op : ServerOp) : Prop := v.running = true ∧ ∀ r, op = .round r → r.Fits

variable {v v' : Server} {op : ServerOp} {r : Round} {uuid : Uuid} {now : ℤ} {address : SockAddr}

/-- Joining takes no memory from the heap. -/
theorem entry_ok (v : Server) (env : Env) : (runCalls (v.entry env) v.swim).1 = .ok () := by
  unfold entry
  split_ifs <;> rfl

end Server

end LibSwim
