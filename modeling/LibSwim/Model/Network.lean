import LibSwim.Model.State

/-! # Building and sending events

The functions of `swim/event.c` and `swim/network.c` that build an event, attach gossip to it
and send it. `sendto` takes the event itself: the bytes are the subject of the encoder, which
accepts every event built here whose addresses fit a `sockaddr_storage`.
-/

namespace LibSwim

open Foundations

def swimEventInit (type : EventType) : SwimM Event := do
  let swim ← getSwim
  let now ← time
  return ⟨⟨swim.uuid, now, swim.incarnation⟩, type.blank, []⟩

/-- `none` when `malloc` fails. -/
def swimEventCreate (type : EventType) (gossipCount : ℕ) : SwimM (Option Event) := do
  assert .createCount (gossipCount ≤ swimMaxGossipSize)
  assert .createSize (sizeofEvent + gossipCount * sizeofNodeInfo < swimMaxPacketSize)
  if ← malloc then
    let event ← swimEventInit type
    return some { event with gossip := List.replicate gossipCount NodeState.zero.info }
  else return none

/-- The copies made by the loop of `swim_fill_gossip`: the whole view when it is small, else
`count` random members. -/
def chooseGossip (count : ℕ) : SwimM (List NodeInfo) := do
  let swim ← getSwim
  if swim.viewSize < swimMaxGossipSize then
    (List.range swim.viewSize).mapM fun i => do
      let node ← nodeAt i
      return swimNodeCopy node.info
  else
    (List.range count).mapM fun _ => do
      let r ← rand
      let node ← nodeAt (r % swim.viewSize)
      return swimNodeCopy node.info

/-- The first entries of the gossip are overwritten, the others keep their zeroes. -/
def swimFillGossip (event : Event) (count : ℕ) : SwimM Event := do
  assert .fillCount (count ≤ event.gossip.length)
  let chosen ← chooseGossip count
  return { event with gossip := chosen ++ event.gossip.drop chosen.length }

def swimSendEvent (event : Event) (addr : SockAddr) : SwimM Unit := sendto event addr

/-- The shape shared by the senders below: create, set the union, attach gossip, send. The
event is used right after its creation, so a failed `malloc` is dereferenced. -/
def sendWithGossip (body : EventBody) (addr : SockAddr) : SwimM Unit := do
  let gossipCount := min (← getSwim).viewSize swimMaxGossipSize
  match ← swimEventCreate body.type gossipCount with
  | none => throw .nullDeref
  | some event =>
    let event ← swimFillGossip { event with body := body } gossipCount
    swimSendEvent event addr

def swimSendAck (uuid : Uuid) (addr : SockAddr) : SwimM Unit := sendWithGossip (.ack uuid) addr

def swimSendPing (addr : SockAddr) : SwimM Unit := sendWithGossip .ping addr

def swimSendPingReq (targetUuid : Uuid) (addr : SockAddr) : SwimM Unit :=
  sendWithGossip (.pingReq targetUuid) addr

end LibSwim
