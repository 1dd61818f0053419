import LibSwim.Foundations.Bytes
import LibSwim.Foundations.Wire
import LibSwim.Model.Host

/-! # The wire format

The encoders and decoders of `swim/encoding.h` and `swim/encoding.c`, on a little-endian host.
An encoder advances the cursor by the bytes it writes, which is the number the C function
returns; a decoder is left with the bytes behind those it has consumed.
-/

namespace LibSwim

open Foundations Program

abbrev EncodeM := Program Cursor Fault
abbrev DecodeM := Program (List UInt8) Fault

/-- `SWIM_MAKE_ENCODER` for a type of `size` bytes. -/
def swimMakeEncoder (size val : ℕ) : EncodeM Unit :=
  putBytes (.assertion .encodeRoom) (beBytes size val)

/-- `SWIM_MAKE_DECODER` for a type of `size` bytes. -/
def swimMakeDecoder (size : ℕ) : DecodeM ℕ := do
  return beValue (← getBytes (.assertion .decodeRoom) size)

def swimEncodeUint16 (val : ℕ) : EncodeM Unit := swimMakeEncoder 2 val
def swimEncodeUint32 (val : ℕ) : EncodeM Unit := swimMakeEncoder 4 val
def swimEncodeInt16 (val : ℤ) : EncodeM Unit := swimMakeEncoder 2 (unsigned 2 val)
def swimEncodeInt64 (val : ℤ) : EncodeM Unit := swimMakeEncoder 8 (unsigned 8 val)

def swimDecodeUint16 : DecodeM ℕ := swimMakeDecoder 2
def swimDecodeUint32 : DecodeM ℕ := swimMakeDecoder 4
def swimDecodeInt16 : DecodeM ℤ := do return signed 2 (← swimMakeDecoder 2)
def swimDecodeInt64 : DecodeM ℤ := do return signed 8 (← swimMakeDecoder 8)

def swimEncodeFixlen (data : List UInt8) (bytes : ℕ) : EncodeM Unit :=
  putBytes (.assertion .encodeRoom) (data.take bytes)

def swimDecodeFixlen (bytes : ℕ) : DecodeM (List UInt8) := getBytes (.assertion .decodeRoom) bytes

/-- The comparison with the room is made in `size_t`, which a negative length overflows. -/
def swimEncodeVarlen (data : List UInt8) (length : ℤ) : EncodeM Unit := do
  require (.assertion .encodeVarlenRoom) (unsigned 8 length ≤ (← get).room)
  require (.assertion .encodeVarlenMax) (length < 2 ^ 15 - 1)
  swimEncodeInt16 length
  swimEncodeFixlen data length.toNat

def swimDecodeVarlen : DecodeM (List UInt8) := do
  let buflen := (← get).length
  let length ← swimDecodeInt16
  require (.assertion .decodeVarlenRoom) (0 ≤ length ∧ length.toNat ≤ buflen)
  swimDecodeFixlen length.toNat

/-- `memcpy` of sixteen bytes into a `uuid_t`. -/
def Uuid.ofBytes (bs : List UInt8) : Uuid := ⟨(bs ++ List.replicate 16 0).take 16, by simp⟩

def swimEncodeUuid (uuid : Uuid) : EncodeM Unit := swimEncodeFixlen uuid.bytes 16

def swimDecodeUuid : DecodeM Uuid := do return Uuid.ofBytes (← swimDecodeFixlen 16)

/-- The length is narrowed to `int16_t`. -/
def swimEncodeSockaddr (addr : SockAddr) : EncodeM Unit :=
  swimEncodeVarlen addr.bytes (signed 2 addr.addrlen)

def swimDecodeSockaddr : DecodeM SockAddr := do return ⟨← swimDecodeVarlen⟩

/-- The size is written last through a `uint64_t *` to the four bytes reserved for it. -/
def swimEncodeEventHeader (type : ℕ) (header : EventHeader) : EncodeM Unit := do
  let buf := (← get).written.length
  swimEncodeUint16 swimProtocolVersion
  swimEncodeUint16 type
  let plen := (← get).written.length
  swimEncodeUint32 0
  swimEncodeInt64 header.time
  swimEncodeUuid header.uuid
  swimEncodeUint32 header.incarnation
  modify fun c =>
    { c with written := overwrite plen (leBytes 8 (c.written.length - buf)) c.written }

/-- The version and the size are read and not looked at. -/
def swimDecodeEventHeader : DecodeM (ℕ × EventHeader) := do
  let _ ← swimDecodeUint16
  let type ← swimDecodeUint16
  let _ ← swimDecodeUint32
  let time ← swimDecodeInt64
  let uuid ← swimDecodeUuid
  let incarnation ← swimDecodeUint32
  return (type, ⟨uuid, time, incarnation⟩)

def swimEncodeEventAck (ackUuid : Uuid) : EncodeM Unit := swimEncodeUuid ackUuid
def swimEncodeEventPingReq (pingReqUuid : Uuid) : EncodeM Unit := swimEncodeUuid pingReqUuid
def swimEncodeEventLeave (leaveUuid : Uuid) : EncodeM Unit := swimEncodeUuid leaveUuid

def swimEncodeEventJoin (joinUuid : Uuid) (joinAddr : SockAddr) : EncodeM Unit := do
  swimEncodeUuid joinUuid
  swimEncodeSockaddr joinAddr

def swimDecodeEventAck : DecodeM EventBody := do return .ack (← swimDecodeUuid)
def swimDecodeEventPingReq : DecodeM EventBody := do return .pingReq (← swimDecodeUuid)
def swimDecodeEventLeave : DecodeM EventBody := do return .leave (← swimDecodeUuid)

def swimDecodeEventJoin : DecodeM EventBody := do
  let joinUuid ← swimDecodeUuid
  let joinAddr ← swimDecodeSockaddr
  return .join joinUuid joinAddr

def swimEncodeInfo (info : NodeInfo) : EncodeM Unit := do
  swimEncodeFixlen info.uuid.bytes 16
  swimEncodeInt64 info.lastSeen
  swimEncodeUint16 info.status.code
  swimEncodeUint32 info.incarnation
  swimEncodeSockaddr info.addr

def swimDecodeInfo : DecodeM NodeInfo := do
  let uuid ← swimDecodeFixlen 16
  let lastSeen ← swimDecodeInt64
  let status ← swimDecodeUint16
  let incarnation ← swimDecodeUint32
  let addr ← swimDecodeSockaddr
  return ⟨.ofBytes uuid, lastSeen, incarnation, .ofCode status, addr⟩

def swimEncodeGossip (gossip : List NodeInfo) : EncodeM Unit := do
  swimEncodeUint16 gossip.length
  forM gossip swimEncodeInfo

/-- `none` is the result `-1` for a count above the capacity. -/
def swimDecodeGossip (gossipCapacity : ℕ) : DecodeM (Option (List NodeInfo)) := do
  let gossipCount ← swimDecodeUint16
  if gossipCapacity < gossipCount then return none
  return some (← repeatM swimDecodeInfo gossipCount)

/-! ## Events -/

/-- The switch of `swim_encode_event`. -/
def encodeBody : EventBody → EncodeM Unit
  | .ping => return
  | .ack uuid => swimEncodeEventAck uuid
  | .join uuid addr => swimEncodeEventJoin uuid addr
  | .leave uuid => swimEncodeEventLeave uuid
  | .pingReq uuid => swimEncodeEventPingReq uuid

def encodeEvent (event : Event) : EncodeM Unit := do
  swimEncodeEventHeader event.body.type.code event.hdr
  encodeBody event.body
  swimEncodeGossip event.gossip

/-- The bytes written into a buffer of `buflen` bytes; their number is the result in C. -/
def swimEncodeEvent (buflen : ℕ) (event : Event) : Except Fault (List UInt8) :=
  match exec (encodeEvent event) ⟨[], buflen⟩ with
  | (.ok _, c) => .ok c.written
  | (.error e, _) => .error e

def EventType.ofCode : ℕ → Option EventType
  | 0 => some .ping
  | 1 => some .ack
  | 2 => some .pingReq
  | 16 => some .join
  | 17 => some .leave
  | _ => none

/-- The switch of `swim_decode_event`. -/
def decodeBody : EventType → DecodeM EventBody
  | .ping => return .ping
  | .ack => swimDecodeEventAck
  | .join => swimDecodeEventJoin
  | .leave => swimDecodeEventLeave
  | .pingReq => swimDecodeEventPingReq

/-- The capacity computed from the bytes left: a `size_t` subtraction, narrowed to `uint16_t`. -/
def gossipCapacity (left : ℕ) : ℕ := (left + 2 ^ 64 - 2) % 2 ^ 64 / sizeofNodeInfo % 2 ^ 16

def decodeEvent : DecodeM (Option Event) := do
  let (type, hdr) ← swimDecodeEventHeader
  match EventType.ofCode type with
  | none => return none
  | some type =>
    let body ← decodeBody type
    match ← swimDecodeGossip (gossipCapacity (← get).length) with
    | none => return none
    | some gossip => return some ⟨hdr, body, gossip⟩

/-- The number of bytes consumed with the event; `none` is the result `-1`. -/
def swimDecodeEvent (buf : List UInt8) : Except Fault (Option (ℕ × Event)) :=
  match exec decodeEvent buf with
  | (.ok none, _) => .ok none
  | (.ok (some event), rest) => .ok (some (buf.length - rest.length, event))
  | (.error e, _) => .error e

/-- `recvfrom` writes the datagram over the front of the buffer and drops what does not fit. The
decoder is given the whole buffer; `none` is a result that is not positive. -/
def swimRecvEvent (datagram buf : List UInt8) : Except Fault (Option (ℕ × Event)) :=
  let received := datagram.take buf.length
  if received.length = 0 then .ok none
  else swimDecodeEvent (received ++ buf.drop received.length)

end LibSwim
