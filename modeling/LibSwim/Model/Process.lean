import LibSwim.Model.Cluster
import Mathlib.Algebra.Group.Nat.Defs

/-! # Processing events

The functions of `swim/process.c`: one handler for each event type, the gossip that is
piggybacked on events, and the dispatch that first takes notice of the sender.
-/

namespace LibSwim

open Foundations

/-- The node hears that it is suspected. -/
def SWIM.incarnate (swim : SWIM) : SWIM :=
  { swim with incarnation := (swim.incarnation + 1) % 2 ^ 32 }

/-- One round of the loop of `swim_process_gossip`. -/
def processGossipEntry (info : NodeInfo) : SwimM Unit := do
  assert .gossipValid info.Valid
  if uuidCompare info.uuid (← getSwim).uuid = .eq then
    match info.status with
    | .dead => throw .exit
    | .suspect => modifySwim SWIM.incarnate
    | .alive | .unknown => return
    | .other _ => swimStateMerge info
  else swimStateMerge info

def swimProcessGossip (gossip : List NodeInfo) : SwimM Unit := forM gossip processGossipEntry

def swimProcessPing (event : Event) (addr : SockAddr) : SwimM Unit := do
  swimSendAck (← getSwim).uuid addr
  swimProcessGossip event.gossip

def swimProcessPingReq (pingReqUuid : Uuid) (addr : SockAddr) : SwimM Unit := do
  match ← swimStateSuspect pingReqUuid addr with
  | none => return
  | some node =>
    let entry ← nodeAt node
    swimSendPing entry.info.addr

/-- The entry that an ACK is about, added when it is not in the view. -/
def ackNode (event : Event) (ackUuid : Uuid) (addr : SockAddr) : SwimM (Option ℕ) := do
  match ← swimStateGetNode ackUuid with
  | some node => return some node
  | none => swimStateAdd { swimNodeInit ackUuid addr with lastSeen := event.hdr.time }

/-- The switch of `swim_process_ack` on the status of the entry at `node`. -/
def ackSwitch (ackUuid : Uuid) (node : ℕ) : SwimM Unit := do
  let entry ← nodeAt node
  match entry.info.status with
  | .suspect =>
    if swimNodeHasWitness entry then
      swimSendAck ackUuid entry.witness
      modifyNode node swimNodeResetWitness
    swimClusterRefutedDead node
  | .unknown => swimClusterRefutedDead node
  | .dead | .alive | .other _ => return

def swimProcessAck (event : Event) (ackUuid : Uuid) (addr : SockAddr) : SwimM Unit := do
  if uuidCompare ackUuid (← getSwim).uuid = .eq then return
  match ← ackNode event ackUuid addr with
  | none => throw .nullDeref
  | some node =>
    ackSwitch ackUuid node
    swimProcessGossip event.gossip

/-- The address a JOIN is recorded and forwarded with. -/
def fillJoinAddr (joinAddr addr : SockAddr) : SockAddr :=
  if joinAddr.addrlen = 0 then addr else joinAddr

def swimProcessJoin (event : Event) (joinUuid : Uuid) (joinAddr addr : SockAddr) :
    SwimM Unit := do
  let swim ← getSwim
  if uuidCompare swim.uuid joinUuid = .eq then return
  if swim.getNode joinUuid ≠ none then return
  let joinAddr := fillJoinAddr joinAddr addr
  let info : NodeInfo :=
    { swimNodeInit joinUuid joinAddr with status := .alive, lastSeen := event.hdr.time }
  assert .joinValid info.Valid
  let _ ← swimStateAdd info
  forM (List.range (← getSwim).viewSize) fun i => do
    let node ← nodeAt i
    swimSendEvent { event with body := .join joinUuid joinAddr } node.info.addr
  swimSendAck (← getSwim).uuid addr

def swimProcessLeave (leaveUuid : Uuid) (addr : SockAddr) : SwimM Unit := do
  let _ ← swimStateDel leaveUuid
  swimSendAck (← getSwim).uuid addr

/-- The callback that `swim_event_processing` holds for the event. -/
def dispatch (event : Event) (addr : SockAddr) : SwimM Unit :=
  match event.body with
  | .ping => swimProcessPing event addr
  | .pingReq uuid => swimProcessPingReq uuid addr
  | .ack uuid => swimProcessAck event uuid addr
  | .join uuid joinAddr => swimProcessJoin event uuid joinAddr addr
  | .leave uuid => swimProcessLeave uuid addr

def swimProcessEvent (event : Event) (addr : SockAddr) : SwimM Unit := do
  let _ ← swimStateNotice event.hdr.uuid event.hdr.time event.hdr.incarnation
  dispatch event addr

end LibSwim
