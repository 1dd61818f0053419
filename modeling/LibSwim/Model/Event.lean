import LibSwim.Model.Node

/-! # Events

The constants of `swim/defs.h` and the events of `swim/event.h`. The type tag of an event and
the member of the union it selects are one inductive type, so that they cannot disagree;
`gossip_count` is the length of the gossip.
-/

namespace LibSwim

def swimProtocolVersion : ℕ := 1
def swimMaxPacketSize : ℕ := 2048
def swimMaxleave : ℕ := 5
def swimMaxGossipSize : ℕ := 10
def swimMaxpingreq : ℕ := 5
def swimHeartbeatInterval : ℤ := 1

/-- `sizeof(NodeInfo)` on x86-64. -/
def sizeofNodeInfo : ℕ := 168

/-- `sizeof(Event)` on x86-64, which is also the offset of its gossip. -/
def sizeofEvent : ℕ := 200

/-- `sizeof(struct sockaddr_storage)`. -/
def sizeofSockaddrStorage : ℕ := 128

/-- The header of an event, less the type tag. -/
structure EventHeader where
  uuid : Uuid
  time : ℤ
  incarnation : ℕ
  deriving DecidableEq, Inhabited

inductive EventType where
  | ping
  | ack
  | pingReq
  | join
  | leave
  deriving DecidableEq, Inhabited

def EventType.code : EventType → ℕ
  | ping => 0
  | ack => 1
  | pingReq => 2
  | join => 16
  | leave => 17

/-- The union of an event, selected by `hdr.type`. -/
inductive EventBody where
  | ping
  | ack (ackUuid : Uuid)
  | pingReq (pingReqUuid : Uuid)
  | join (joinUuid : Uuid) (joinAddr : SockAddr)
  | leave (leaveUuid : Uuid)
  deriving DecidableEq, Inhabited

def EventBody.type : EventBody → EventType
  | ping => .ping
  | ack _ => .ack
  | pingReq _ => .pingReq
  | join _ _ => .join
  | leave _ => .leave

/-- The union as `memset` leaves it. -/
def EventType.blank : EventType → EventBody
  | ping => .ping
  | ack => .ack Uuid.zero
  | pingReq => .pingReq Uuid.zero
  | join => .join Uuid.zero .none
  | leave => .leave Uuid.zero

structure Event where
  hdr : EventHeader
  body : EventBody
  gossip : List NodeInfo
  deriving DecidableEq, Inhabited

/-- An event handed to `sendto` with its destination. -/
structure Packet where
  event : Event
  dest : SockAddr
  deriving DecidableEq, Inhabited

end LibSwim
