import LibSwim.Wire.Hostile
import LibSwim.Wire.RoundTrip

/-! # What is decoded is encoded again

The bytes of a record are those it is read from, so an accepted packet is the packet of the event
it decodes to, apart from what the decoder reads and drops: the version and the size. The encoder
writes a fixed version there and a fixed size, whose eight bytes take in the upper half of the
time.
-/

namespace LibSwim

open Foundations Program

/-! ## Records -/

section

variable {off n : ℕ} {bs : List UInt8}

theorem take_drop_append (off n : ℕ) (bs : List UInt8) :
    (bs.drop off).take n ++ bs.drop (off + n) = bs.drop off := by
  rw [← List.drop_drop, List.take_append_drop]

theorem beBytes_fieldAt (h : off + n ≤ bs.length) :
    beBytes n (fieldAt off n bs) = (bs.drop off).take n :=
  beBytes_beValue (by rw [List.length_take, List.length_drop]; omega)

theorem fieldAt_lt (off n : ℕ) (bs : List UInt8) : fieldAt off n bs < 256 ^ n :=
  (beValue_lt _).trans_le (Nat.pow_le_pow_right (by decide) (by simp))

theorem signedAt_bytes (h : off + n ≤ bs.length) :
    beBytes n (unsigned n (signed n (fieldAt off n bs))) = (bs.drop off).take n := by
  rw [unsigned_signed (fieldAt_lt off n bs), beBytes_fieldAt h]

theorem uuidAt_bytes (h : off + 16 ≤ bs.length) : (uuidAt off bs).bytes = (bs.drop off).take 16 := by
  have hlen : ((bs.drop off).take 16).length = 16 := by
    rw [List.length_take, List.length_drop]
    omega
  exact List.take_left' hlen

theorem addrAt_wire (h : AddrFits off bs) :
    (addrAt off bs).wire ++ bs.drop (off + 2 + addrlenAt off bs) = bs.drop off := by
  rw [SockAddr.wire, addrlen_addrAt h, addrlenAt, beBytes_fieldAt h.le, List.append_assoc]
  exact (congrArg _ (take_drop_append (off + 2) (addrlenAt off bs) bs)).trans
    (take_drop_append off 2 bs)

end

theorem restores_info : Restores (AddrFits 30) infoAt nextEntry NodeInfo.wire := by
  intro bs h
  have hlen := h.le
  simp only [NodeInfo.wire, infoAt, nextEntry, Status.code_ofCode, List.append_assoc]
  rw [addrAt_wire h, beBytes_fieldAt (by omega), beBytes_fieldAt (by omega),
    signedAt_bytes (by omega), uuidAt_bytes (by omega), take_drop_append 26 4,
    take_drop_append 24 2, take_drop_append 16 8, take_drop_append 0 16, List.drop_zero]

theorem restores_body (t : EventType) : Restores (fun bs => BodyFits bs t) (fun bs => bodyAt bs t)
    (fun bs => afterBody bs t) EventBody.wire := by
  intro bs h
  cases t with
  | ping => rfl
  | ack | pingReq | leave =>
    have hlen : 0 + 16 ≤ bs.length := h
    simp only [bodyAt, afterBody, EventBody.wire]
    rw [uuidAt_bytes hlen]
    exact take_drop_append 0 16 bs
  | join =>
    have hlen := AddrFits.le h
    simp only [bodyAt, afterBody, EventBody.wire, List.append_assoc]
    rw [addrAt_wire h, uuidAt_bytes (by omega)]
    exact take_drop_append 0 16 bs

/-! ## Packets -/

/-- The bytes of an event, with the two of the version and the eight the encoder's size takes. -/
def Event.packet (version size : List UInt8) (e : Event) : List UInt8 :=
  (version ++ (beBytes 2 e.body.type.code ++ (size ++ (beBytes 4 (unsigned 8 e.hdr.time) ++
    (e.hdr.uuid.bytes ++ beBytes 4 e.hdr.incarnation))))) ++ (e.body.wire ++ gossipWire e.gossip)

theorem Event.wire_eq_packet (e : Event) :
    e.wire = e.packet (beBytes 2 swimProtocolVersion) (leBytes 8 36) := rfl

theorem Event.packet_length {version size : List UInt8} (hv : version.length = 2)
    (hs : size.length = 8) (e : Event) :
    (e.packet version size).length = 36 + e.body.wire.length + (gossipWire e.gossip).length := by
  simp only [packet, List.length_append, hv, hs, beBytes_length, e.hdr.uuid.length_eq]
  omega

theorem Event.packet_inj {version version' size size' : List UInt8} (e : Event)
    (hv : version.length = version'.length) (hs : size.length = size'.length) :
    e.packet version size = e.packet version' size' ↔ version = version' ∧ size = size' := by
  rw [packet, packet, List.append_left_inj]
  constructor
  · intro h
    obtain ⟨hversion, hrest⟩ := List.append_inj h hv
    exact ⟨hversion, (List.append_inj (List.append_cancel_left hrest) hs).1⟩
  · rintro ⟨rfl, rfl⟩
    rfl

theorem EventType.code_ofCode {n : ℕ} {t : EventType} (h : t ∈ ofCode n) : t.code = n := by
  unfold ofCode at h
  split at h <;> cases h <;> rfl

theorem type_bodyAt (bs : List UInt8) (t : EventType) : (bodyAt bs t).type = t := by
  cases t <;> rfl

section

variable {buf : List UInt8} {t : EventType}

theorem header_append (hlen : 36 ≤ buf.length) (ht : t ∈ EventType.ofCode (fieldAt 2 2 buf)) :
    (buf.take 2 ++ (beBytes 2 t.code ++ ((buf.drop 4).take 8 ++ (beBytes 4 (unsigned 8
      (headerAt buf).time) ++ ((headerAt buf).uuid.bytes ++ beBytes 4 (headerAt buf).incarnation)))))
      ++ buf.drop 36 = buf := by
  have htime : beBytes 4 (unsigned 8 (headerAt buf).time) = (buf.drop 12).take 4 := by
    rw [← beBytes_drop 4 4, headerAt, signedAt_bytes (by omega), List.drop_take, List.drop_drop]
  simp only [List.append_assoc]
  rw [htime, headerAt, EventType.code_ofCode ht, beBytes_fieldAt (by omega),
    beBytes_fieldAt (by omega), uuidAt_bytes (by omega), take_drop_append 32 4,
    take_drop_append 16 16, take_drop_append 12 4, take_drop_append 4 8, take_drop_append 2 2,
    List.take_append_drop]

/-- An accepted packet consists of the fields of the event decoded from it. -/
theorem Accepted.packet_append (h : Accepted buf t) (hlen : 36 ≤ buf.length) :
    (eventAt buf t).packet (buf.take 2) ((buf.drop 4).take 8) ++ entryAt buf t (gossipCount buf t) =
      buf := by
  obtain ⟨htype, ⟨hbody, hcount⟩, -, hentries⟩ := h
  have hgossip : gossipWire (eventAt buf t).gossip ++ entryAt buf t (gossipCount buf t) =
      gossipPart buf t := by
    have hrange : (eventAt buf t).gossip.length = gossipCount buf t := by simp [eventAt]
    rw [gossipWire, List.append_assoc, hrange, gossipCount, beBytes_fieldAt (by omega), ← gossipCount]
    refine (congrArg _ (restores_info.iterate hentries)).trans ?_
    exact List.take_append_drop 2 (gossipPart buf t)
  rw [Event.packet, List.append_assoc, List.append_assoc (eventAt buf t).body.wire, hgossip]
  simp only [eventAt, type_bodyAt]
  rw [gossipPart, restores_body t (buf.drop 36) hbody, header_append hlen htype]

theorem Accepted.packetSize_eq (h : Accepted buf t) (hlen : 36 ≤ buf.length) : packetSize buf t =
    ((eventAt buf t).packet (buf.take 2) ((buf.drop 4).take 8)).length := by
  have hlength := congrArg List.length (h.packet_append hlen)
  rw [List.length_append] at hlength
  rw [packetSize]
  omega

theorem Accepted.take_packetSize (h : Accepted buf t) (hlen : 36 ≤ buf.length) :
    buf.take (packetSize buf t) =
      (eventAt buf t).packet (buf.take 2) ((buf.drop 4).take 8) := by
  rw [h.packetSize_eq hlen]
  exact (congrArg (List.take _) (h.packet_append hlen)).symm.trans (List.take_left' rfl)

end

/-- Encoding what was decoded reproduces the packet just when it carries the version, and where
the encoder stores the size what the encoder stores there. -/
theorem reencode_iff {buf : List UInt8} (hlen : buf.length = swimMaxPacketSize) {n : ℕ} {e : Event}
    (hdecode : swimDecodeEvent buf = .ok (some (n, e)))
    (hjoin : ∀ u a, e.body = .join u a → a.addrlen ≤ sizeofSockaddrStorage)
    (hgossip : ∀ g ∈ e.gossip, g.addr.addrlen ≤ sizeofSockaddrStorage) :
    (∃ bytes, swimEncodeEvent swimMaxPacketSize e = .ok bytes ∧ bytes.length = n ∧
      bytes = buf.take n) ↔
      buf.take 2 = beBytes 2 swimProtocolVersion ∧ (buf.drop 4).take 8 = leBytes 8 36 := by
  have hbuf : 36 ≤ buf.length := by rw [hlen]; decide
  obtain ⟨t, hacc, rfl, rfl⟩ := (decode_iff hbuf).mp hdecode
  have hversion : (buf.take 2).length = (beBytes 2 swimProtocolVersion).length := by
    rw [List.length_take, beBytes_length]
    omega
  have hsize : ((buf.drop 4).take 8).length = (leBytes 8 36).length := by
    rw [List.length_take, List.length_drop, leBytes_length]
    omega
  have hlength : (eventAt buf t).wire.length = packetSize buf t := by
    rw [hacc.packetSize_eq hbuf, Event.wire_eq_packet, Event.packet_length, Event.packet_length]
      <;> simp [hversion, hsize]
  have hencode := encodeEvent_of_length hjoin hgossip (by
    rw [hlength, packetSize]
    omega)
  rw [hencode, hacc.take_packetSize hbuf]
  simp only [Except.ok.injEq, exists_eq_left', hlength, true_and]
  rw [Event.wire_eq_packet, eq_comm, Event.packet_inj _ hversion hsize]

/-- A PING without gossip, filled up with zeros. -/
def pingPacket (version size : List UInt8) : List UInt8 :=
  version ++ ([0, 0] ++ (size ++ List.replicate 2036 0))

theorem reencode_ping :
    let buf := pingPacket [0, 1] [36, 0, 0, 0, 0, 0, 0, 0]
    swimDecodeEvent buf = .ok (some (38, eventAt buf .ping)) ∧
      ∃ bytes, swimEncodeEvent swimMaxPacketSize (eventAt buf .ping) = .ok bytes ∧
        bytes.length = 38 ∧ bytes = buf.take 38 := by
  intro buf
  have hdecode : swimDecodeEvent buf = .ok (some (38, eventAt buf .ping)) := by decide +kernel
  have hgossip : (eventAt buf .ping).gossip = [] := by decide +kernel
  refine ⟨hdecode, (reencode_iff (by decide +kernel) hdecode ?_ ?_).mpr (by decide +kernel)⟩
  · rintro u a ⟨⟩
  · simp [hgossip]

/-- The buffer holds a PING without gossip, and the encoder makes another packet of its event. -/
def PingAltered (buf : List UInt8) : Prop :=
  buf.length = swimMaxPacketSize ∧ swimDecodeEvent buf = .ok (some (38, eventAt buf .ping)) ∧
    (eventAt buf .ping).gossip = [] ∧
    swimEncodeEvent swimMaxPacketSize (eventAt buf .ping) ≠ .ok (buf.take 38)

/-- PINGs of another version, without a size, and with a time beyond four bytes are accepted. -/
theorem reencode_alters : PingAltered (pingPacket [0, 2] [36, 0, 0, 0, 0, 0, 0, 0]) ∧
    PingAltered (pingPacket [0, 1] [0, 0, 0, 0, 0, 0, 0, 0]) ∧
    PingAltered (pingPacket [0, 1] [36, 0, 0, 0, 0, 0, 0, 1]) := by
  unfold PingAltered
  decide +kernel

end LibSwim
