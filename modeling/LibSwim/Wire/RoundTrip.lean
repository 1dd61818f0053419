import LibSwim.Model.Encoding

/-! # What is encoded is decoded

The bytes of every record are written down once; its encoder writes them and its decoder reads
them back. The header is the exception: the eight bytes of its size overlap the upper half of
the time, of which only the lower four bytes survive.
-/

namespace LibSwim

open Foundations Program

/-! ## The bytes of a record -/

def SockAddr.wire (a : SockAddr) : List UInt8 := beBytes 2 a.addrlen ++ a.bytes

def NodeInfo.wire (info : NodeInfo) : List UInt8 :=
  info.uuid.bytes ++ (beBytes 8 (unsigned 8 info.lastSeen) ++ (beBytes 2 info.status.code ++
    (beBytes 4 info.incarnation ++ info.addr.wire)))

def EventBody.wire : EventBody → List UInt8
  | .ping => []
  | .ack u | .pingReq u | .leave u => u.bytes
  | .join u a => u.bytes ++ a.wire

/-- The size, 36 as a little-endian `uint64_t`, leaves the low four bytes of the time. -/
def EventHeader.wire (type : ℕ) (hdr : EventHeader) : List UInt8 :=
  beBytes 2 swimProtocolVersion ++ (beBytes 2 type ++ (leBytes 8 36 ++
    (beBytes 4 (unsigned 8 hdr.time) ++ (hdr.uuid.bytes ++ beBytes 4 hdr.incarnation))))

def gossipWire (gossip : List NodeInfo) : List UInt8 :=
  beBytes 2 gossip.length ++ gossip.flatMap NodeInfo.wire

def Event.wire (e : Event) : List UInt8 :=
  e.hdr.wire e.body.type.code ++ (e.body.wire ++ gossipWire e.gossip)

/-! ## Events of the sizes the protocol has -/

/-- The fields of a record fit their C types and its address fits its storage. -/
structure NodeInfo.InRange (info : NodeInfo) : Prop where
  lastSeen_ge : -2 ^ 63 ≤ info.lastSeen
  lastSeen_lt : info.lastSeen < 2 ^ 63
  incarnation : info.incarnation < 2 ^ 32
  status : info.status.code < 2 ^ 16
  addr : info.addr.addrlen ≤ sizeofSockaddrStorage

structure Event.InRange (e : Event) : Prop where
  incarnation : e.hdr.incarnation < 2 ^ 32
  join : ∀ u a, e.body = .join u a → a.addrlen ≤ sizeofSockaddrStorage
  count : e.gossip.length ≤ swimMaxGossipSize
  gossip : ∀ g ∈ e.gossip, g.InRange

/-- The header as the receiver finds it. -/
def EventHeader.received (hdr : EventHeader) : EventHeader := { hdr with time := hdr.time % 2 ^ 32 }

def Event.received (e : Event) : Event := { e with hdr := e.hdr.received }

/-! ## Encoders write them -/

theorem writes_uint16 (v : ℕ) : Writes (swimEncodeUint16 v) (beBytes 2 v) := writes_putBytes _ _
theorem writes_uint32 (v : ℕ) : Writes (swimEncodeUint32 v) (beBytes 4 v) := writes_putBytes _ _

theorem writes_int64 (z : ℤ) : Writes (swimEncodeInt64 z) (beBytes 8 (unsigned 8 z)) :=
  writes_putBytes _ _

theorem writes_uuid (u : Uuid) : Writes (swimEncodeUuid u) u.bytes := by
  rw [swimEncodeUuid, swimEncodeFixlen, List.take_of_length_le u.length_eq.le]
  exact writes_putBytes _ _

theorem writes_sockaddr {a : SockAddr} (h : a.addrlen < 2 ^ 15 - 1) :
    Writes (swimEncodeSockaddr a) a.wire := by
  have hlen : unsigned 8 (a.addrlen : ℤ) = a.addrlen := by
    rw [unsigned]
    omega
  have hunsigned : unsigned 2 (a.addrlen : ℤ) = a.addrlen := by
    rw [unsigned]
    omega
  have hbytes : Writes (do
      swimEncodeInt16 a.addrlen
      swimEncodeFixlen a.bytes (a.addrlen : ℤ).toNat) a.wire := by
    refine Writes.seq ?_ ?_
    · rw [swimEncodeInt16, hunsigned]
      exact writes_putBytes _ _
    · rw [swimEncodeFixlen, Int.toNat_natCast, SockAddr.addrlen, List.take_length]
      exact writes_putBytes _ _
  intro w room hroom
  have hwire : a.wire.length = 2 + a.addrlen := by simp [SockAddr.wire, SockAddr.addrlen]
  rw [swimEncodeSockaddr, signed_of_lt (by omega), swimEncodeVarlen, exec_bind_ok (exec_get _),
    exec_bind_ok (exec_require _ (by dsimp only; omega) _),
    exec_bind_ok (exec_require _ (by omega) _)]
  exact hbytes w room hroom

theorem writes_info {info : NodeInfo} (h : info.addr.addrlen < 2 ^ 15 - 1) :
    Writes (swimEncodeInfo info) info.wire :=
  (writes_uuid _).seq ((writes_int64 _).seq ((writes_uint16 _).seq
    ((writes_uint32 _).seq (writes_sockaddr h))))

theorem writes_body {body : EventBody} (h : ∀ u a, body = .join u a → a.addrlen < 2 ^ 15 - 1) :
    Writes (encodeBody body) body.wire := by
  cases body with
  | ping => exact writes_pure
  | ack u | pingReq u | leave u => exact writes_uuid u
  | join u a => exact (writes_uuid u).seq (writes_sockaddr (h u a rfl))

theorem writes_gossip {gossip : List NodeInfo} (h : ∀ g ∈ gossip, g.addr.addrlen < 2 ^ 15 - 1) :
    Writes (swimEncodeGossip gossip) (gossipWire gossip) :=
  (writes_uint16 _).seq (Writes.forM fun g hg => writes_info (h g hg))

/-- Eight bytes written over the end of the reserved four and the first half of the time. -/
theorem overwrite_size {w pre zero time post le : List UInt8} {n : ℕ} (hn : n = (w ++ pre).length)
    (hz : zero.length = 4) (ht : time.length = 8) (hl : le.length = 8) :
    overwrite n le (w ++ pre ++ (zero ++ (time ++ post))) =
      w ++ pre ++ (le ++ (time.drop 4 ++ post)) := by
  subst hn
  rw [overwrite, List.take_left, hl, List.append_assoc]
  congr 2
  rw [show (w ++ pre).length + 8 = (w ++ pre).length + (4 + 4) by rfl, ← List.drop_drop,
    List.drop_left, ← List.drop_drop, List.drop_left' hz,
    List.drop_append_of_le_length (by omega)]

theorem headerWire_length (type : ℕ) (hdr : EventHeader) : (hdr.wire type).length = 36 := by
  simp [EventHeader.wire, hdr.uuid.length_eq]

theorem writes_header (type : ℕ) (hdr : EventHeader) :
    Writes (swimEncodeEventHeader type hdr) (hdr.wire type) := by
  have hpre : Writes (do
      swimEncodeUint16 swimProtocolVersion
      swimEncodeUint16 type) (beBytes 2 swimProtocolVersion ++ beBytes 2 type) :=
    (writes_uint16 _).seq (writes_uint16 _)
  have hpost : Writes (do
      swimEncodeUint32 0
      swimEncodeInt64 hdr.time
      swimEncodeUuid hdr.uuid
      swimEncodeUint32 hdr.incarnation)
      (beBytes 4 0 ++ (beBytes 8 (unsigned 8 hdr.time) ++ (hdr.uuid.bytes ++
        beBytes 4 hdr.incarnation))) :=
    (writes_uint32 _).seq ((writes_int64 _).seq ((writes_uuid _).seq (writes_uint32 _)))
  intro w room hroom
  rw [headerWire_length] at hroom ⊢
  have hprog : swimEncodeEventHeader type hdr = (do
      let c ← get
      (do
        swimEncodeUint16 swimProtocolVersion
        swimEncodeUint16 type)
      let c' ← get
      (do
        swimEncodeUint32 0
        swimEncodeInt64 hdr.time
        swimEncodeUuid hdr.uuid
        swimEncodeUint32 hdr.incarnation)
      modify fun d =>
        { d with written := overwrite c'.written.length
                  (leBytes 8 (d.written.length - c.written.length)) d.written }) := by
    simp only [swimEncodeEventHeader, bind_assoc]
  rw [hprog, exec_bind_ok (exec_get _), exec_bind_ok (hpre _ _ (by simp; omega)),
    exec_bind_ok (exec_get _),
    exec_bind_ok (hpost _ _ (by simp [hdr.uuid.length_eq]; omega)), exec_modify]
  have hsize : (w ++ (beBytes 2 swimProtocolVersion ++ beBytes 2 type) ++ (beBytes 4 0 ++
      (beBytes 8 (unsigned 8 hdr.time) ++ (hdr.uuid.bytes ++ beBytes 4 hdr.incarnation)))).length -
      w.length = 36 := by simp [hdr.uuid.length_eq]
  simp only [hsize]
  rw [overwrite_size rfl (by simp) (by simp) (by simp), beBytes_drop 4 4]
  simp [EventHeader.wire, hdr.uuid.length_eq, Nat.sub_sub]

theorem writes_event {e : Event}
    (hjoin : ∀ u a, e.body = .join u a → a.addrlen ≤ sizeofSockaddrStorage)
    (hgossip : ∀ g ∈ e.gossip, g.addr.addrlen ≤ sizeofSockaddrStorage) :
    Writes (encodeEvent e) e.wire :=
  (writes_header _ _).seq ((writes_body fun u a hj => (hjoin u a hj).trans_lt (by decide)).seq
    (writes_gossip fun g hg => (hgossip g hg).trans_lt (by decide)))

/-! ## Decoders read them -/

theorem reads_beValue {bs : List UInt8} {n : ℕ} (h : bs.length = n) :
    Reads (swimMakeDecoder n) bs (beValue bs) := (reads_getBytes _ h).bind_pure (reads_pure _)

theorem reads_decoder {n v : ℕ} (h : v < 256 ^ n) : Reads (swimMakeDecoder n) (beBytes n v) v := by
  have hread := reads_beValue (beBytes_length n v)
  rwa [beValue_beBytes, Nat.mod_eq_of_lt h] at hread

theorem reads_int64 {z : ℤ} (hl : -2 ^ 63 ≤ z) (hu : z < 2 ^ 63) :
    Reads swimDecodeInt64 (beBytes 8 (unsigned 8 z)) z :=
  (reads_decoder (unsigned_lt 8 z)).bind_pure (by
    rw [signed_unsigned (by omega) (by omega)]
    exact reads_pure z)

theorem reads_int16 {n : ℕ} (h : n < 2 ^ 15) : Reads swimDecodeInt16 (beBytes 2 n) n :=
  (reads_decoder (by omega)).bind_pure (by
    rw [signed_of_lt (by omega)]
    exact reads_pure _)

theorem Uuid.ofBytes_bytes (u : Uuid) : Uuid.ofBytes u.bytes = u := by
  cases u with
  | mk bytes h => simp [Uuid.ofBytes, ← h]

theorem reads_uuid (u : Uuid) : Reads swimDecodeUuid u.bytes u :=
  (reads_getBytes _ u.length_eq).bind_pure (by
    rw [u.ofBytes_bytes]
    exact reads_pure u)

theorem reads_varlen {a : SockAddr} (h : a.addrlen < 2 ^ 15) :
    Reads swimDecodeVarlen a.wire a.bytes := by
  intro rest
  rw [swimDecodeVarlen, exec_bind_ok (exec_get _), SockAddr.wire, List.append_assoc,
    exec_bind_ok (reads_int16 h _), exec_bind_ok (exec_require _ ?_ _)]
  · exact reads_getBytes _ rfl rest
  · simp [SockAddr.addrlen]
    omega

theorem reads_sockaddr {a : SockAddr} (h : a.addrlen < 2 ^ 15) :
    Reads swimDecodeSockaddr a.wire a := (reads_varlen h).bind_pure (reads_pure a)

theorem reads_info {info : NodeInfo} (h : info.InRange) : Reads swimDecodeInfo info.wire info := by
  have haddr : info.addr.addrlen < 2 ^ 15 := h.addr.trans_lt (by decide)
  refine (reads_getBytes _ info.uuid.length_eq).bind ((reads_int64 h.lastSeen_ge h.lastSeen_lt).bind
    ((reads_decoder h.status).bind ((reads_decoder h.incarnation).bind
      ((reads_sockaddr haddr).bind_pure ?_))))
  rw [info.uuid.ofBytes_bytes, Status.ofCode_code]
  exact reads_pure info

theorem reads_gossip {gossip : List NodeInfo} {cap : ℕ} (hcap : gossip.length ≤ cap)
    (hlen : gossip.length < 2 ^ 16) (h : ∀ g ∈ gossip, g.InRange) :
    Reads (swimDecodeGossip cap) (gossipWire gossip) (some gossip) := by
  apply (reads_decoder hlen).bind
  rw [if_neg (by omega)]
  exact (Reads.repeatM fun g hg => reads_info (h g hg)).bind_pure (reads_pure _)

/-- The upper half of the time is read from the zeros of the size. -/
theorem reads_time (hdr : EventHeader) :
    Reads swimDecodeInt64 (List.replicate 4 0 ++ beBytes 4 (unsigned 8 hdr.time))
      hdr.received.time := by
  have hvalue : signed 8 (unsigned 8 hdr.time % 256 ^ 4) = hdr.received.time := by
    simp only [signed, unsigned, EventHeader.received, Int.bmod_def]
    omega
  have hlen : (List.replicate 4 0 ++ beBytes 4 (unsigned 8 hdr.time)).length = 8 := by simp
  apply (reads_beValue hlen).bind_pure
  rw [beValue_zeros_append, beValue_beBytes, hvalue]
  exact reads_pure _

theorem reads_header {type : ℕ} {hdr : EventHeader} (ht : type < 2 ^ 16)
    (hi : hdr.incarnation < 2 ^ 32) :
    Reads swimDecodeEventHeader (hdr.wire type) (type, hdr.received) := by
  have hsize : leBytes 8 36 = leBytes 4 36 ++ List.replicate 4 0 := by rfl
  have hwire : hdr.wire type = beBytes 2 swimProtocolVersion ++ (beBytes 2 type ++ (leBytes 4 36 ++
      ((List.replicate 4 0 ++ beBytes 4 (unsigned 8 hdr.time)) ++ (hdr.uuid.bytes ++
        beBytes 4 hdr.incarnation)))) := by
    rw [EventHeader.wire, hsize, List.append_assoc, List.append_assoc]
  have hversion : swimProtocolVersion < 256 ^ 2 := by decide
  rw [hwire]
  exact (reads_decoder hversion).bind ((reads_decoder ht).bind
    ((reads_beValue (leBytes_length 4 36)).bind ((reads_time hdr).bind
      ((reads_uuid _).bind ((reads_decoder hi).bind_pure (reads_pure _))))))

theorem reads_body {body : EventBody} (h : ∀ u a, body = .join u a → a.addrlen < 2 ^ 15) :
    Reads (decodeBody body.type) body.wire body := by
  cases body with
  | ping => exact reads_pure _
  | ack u | pingReq u | leave u => exact (reads_uuid u).bind_pure (reads_pure _)
  | join u a => exact (reads_uuid u).bind ((reads_sockaddr (h u a rfl)).bind_pure (reads_pure _))

@[simp] theorem EventType.ofCode_code (t : EventType) : ofCode t.code = some t := by
  cases t <;> rfl

theorem EventType.code_lt (t : EventType) : t.code < 2 ^ 16 := by cases t <;> decide

theorem exec_decodeEvent {e : Event} (h : e.InRange) {rest : List UInt8}
    (hcap : e.gossip.length ≤ gossipCapacity (gossipWire e.gossip ++ rest).length) :
    exec decodeEvent (e.wire ++ rest) = (.ok (some e.received), rest) := by
  have hjoin : ∀ u a, e.body = .join u a → a.addrlen < 2 ^ 15 := fun u a hj =>
    (h.join u a hj).trans_lt (by decide)
  have hlen : e.gossip.length < 2 ^ 16 := h.count.trans_lt (by decide)
  rw [decodeEvent, Event.wire, List.append_assoc, List.append_assoc,
    exec_bind_ok (reads_header e.body.type.code_lt h.incarnation _)]
  simp only [EventType.ofCode_code]
  rw [exec_bind_ok (reads_body hjoin _), exec_bind_ok (exec_get _),
    exec_bind_ok (reads_gossip hcap hlen h.gossip _)]
  rfl

/-! ## Events fit a packet -/

theorem infoWire_length {info : NodeInfo} (h : info.addr.addrlen ≤ sizeofSockaddrStorage) :
    info.wire.length ≤ 160 := by
  rw [sizeofSockaddrStorage, SockAddr.addrlen] at h
  simp only [NodeInfo.wire, SockAddr.wire, List.length_append, info.uuid.length_eq, beBytes_length]
  omega

theorem gossipWire_length {gossip : List NodeInfo}
    (h : ∀ g ∈ gossip, g.addr.addrlen ≤ sizeofSockaddrStorage) :
    (gossipWire gossip).length ≤ 2 + 160 * gossip.length := by
  have hentries : (gossip.flatMap NodeInfo.wire).length ≤ 160 * gossip.length := by
    induction gossip with
    | nil => simp
    | cons g gs ih =>
      have hg := infoWire_length (h g (by simp))
      have hgs := ih fun g' hg' => h g' (by simp [hg'])
      simp only [List.flatMap_cons, List.length_append, List.length_cons]
      omega
  simp only [gossipWire, List.length_append, beBytes_length]
  omega

theorem bodyWire_length {body : EventBody}
    (h : ∀ u a, body = .join u a → a.addrlen ≤ sizeofSockaddrStorage) : body.wire.length ≤ 146 := by
  cases body with
  | ping => simp [EventBody.wire]
  | ack u | pingReq u | leave u => simp [EventBody.wire, u.length_eq]
  | join u a =>
    have haddr := h u a rfl
    rw [sizeofSockaddrStorage, SockAddr.addrlen] at haddr
    simp only [EventBody.wire, SockAddr.wire, List.length_append, u.length_eq, beBytes_length]
    omega

/-- The size of an event depends on how many entries it carries. -/
theorem eventWire_length {e : Event}
    (hjoin : ∀ u a, e.body = .join u a → a.addrlen ≤ sizeofSockaddrStorage)
    (hgossip : ∀ g ∈ e.gossip, g.addr.addrlen ≤ sizeofSockaddrStorage) :
    e.wire.length ≤ 184 + 160 * e.gossip.length := by
  have hbody := bodyWire_length hjoin
  have hentries := gossipWire_length hgossip
  simp only [Event.wire, List.length_append, headerWire_length]
  omega

theorem Event.InRange.wire_length {e : Event} (h : e.InRange) : e.wire.length ≤ 1784 := by
  have hlen := eventWire_length h.join fun g hg => (h.gossip g hg).addr
  have hcount := h.count
  rw [swimMaxGossipSize] at hcount
  omega

theorem gossipCapacity_eq {left : ℕ} (h : 2 ≤ left) (h' : left < 2 ^ 16) :
    gossipCapacity left = (left - 2) / 168 := by
  rw [gossipCapacity, sizeofNodeInfo]
  omega

theorem encodeEvent_of_length {e : Event}
    (hjoin : ∀ u a, e.body = .join u a → a.addrlen ≤ sizeofSockaddrStorage)
    (hgossip : ∀ g ∈ e.gossip, g.addr.addrlen ≤ sizeofSockaddrStorage)
    (hlen : e.wire.length ≤ swimMaxPacketSize) :
    swimEncodeEvent swimMaxPacketSize e = .ok e.wire := by
  rw [swimEncodeEvent, writes_event hjoin hgossip [] _ hlen, List.nil_append]

theorem encodeEvent_eq {e : Event} (h : e.InRange) :
    swimEncodeEvent swimMaxPacketSize e = .ok e.wire :=
  encodeEvent_of_length h.join (fun g hg => (h.gossip g hg).addr) (h.wire_length.trans (by decide))

/-- The bytes left behind the body hold more entries than are ever sent. -/
theorem decodeEvent_eq {e : Event} (h : e.InRange) {tail : List UInt8}
    (ht : e.wire.length + tail.length = swimMaxPacketSize) :
    swimDecodeEvent (e.wire ++ tail) = .ok (some (e.wire.length, e.received)) := by
  have hcap : e.gossip.length ≤ gossipCapacity (gossipWire e.gossip ++ tail).length := by
    have hbody := bodyWire_length h.join
    have hcount := h.count
    rw [swimMaxGossipSize] at hcount
    simp only [swimMaxPacketSize, Event.wire, List.length_append, headerWire_length] at ht
    rw [List.length_append, gossipCapacity_eq (by omega) (by omega)]
    omega
  rw [swimDecodeEvent, exec_decodeEvent h hcap]
  simp

theorem Event.received_eq {e : Event} (hl : 0 ≤ e.hdr.time) (hu : e.hdr.time < 2 ^ 32) :
    e.received = e := by
  rw [Event.received, EventHeader.received, Int.emod_eq_of_lt hl hu]

/-- Every event whose time fits four bytes is decoded from its packet as it was encoded, whatever
the buffer holds behind it. -/
theorem event_round_trip {e : Event} (h : e.InRange) (hl : 0 ≤ e.hdr.time)
    (hu : e.hdr.time < 2 ^ 32) :
    ∃ bytes, swimEncodeEvent swimMaxPacketSize e = .ok bytes ∧ bytes.length ≤ swimMaxPacketSize ∧
      ∀ tail, bytes.length + tail.length = swimMaxPacketSize →
        swimDecodeEvent (bytes ++ tail) = .ok (some (bytes.length, e)) := by
  refine ⟨e.wire, encodeEvent_eq h, h.wire_length.trans (by decide), fun tail ht => ?_⟩
  rw [decodeEvent_eq h ht, Event.received_eq hl hu]

theorem event_round_trip_join :
    let e : Event := ⟨⟨Uuid.zero, 1000, 3⟩, .join Uuid.zero ⟨[2, 0, 7]⟩,
      [⟨Uuid.zero, -5, 1, .suspect, ⟨[9]⟩⟩]⟩
    ∃ bytes, swimEncodeEvent swimMaxPacketSize e = .ok bytes ∧ bytes.length ≤ swimMaxPacketSize ∧
      ∀ tail, bytes.length + tail.length = swimMaxPacketSize →
        swimDecodeEvent (bytes ++ tail) = .ok (some (bytes.length, e)) :=
  event_round_trip
    ⟨by decide, by rintro u a ⟨⟩; decide, by decide, by
      intro g hg
      rw [List.mem_singleton] at hg
      subst hg
      exact ⟨by decide, by decide, by decide, by decide, by decide⟩⟩
    (by decide) (by decide)

end LibSwim
