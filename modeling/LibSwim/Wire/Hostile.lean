import LibSwim.Model.Encoding

/-! # Packets from anyone

The receive buffer holds 2048 bytes that need not come from the encoder. Its fields are read here
at their offsets, and each decoder is compared with them: on which buffers it returns, with what
value, and where the next field starts. The lengths of addresses are the only fields that can make
the decoder stop.
-/

namespace LibSwim

open Foundations Program

/-! ## The fields of a buffer -/

/-- The unsigned integer of `n` bytes at offset `off`. -/
def fieldAt (off n : ℕ) (bs : List UInt8) : ℕ := beValue ((bs.drop off).take n)

def uuidAt (off : ℕ) (bs : List UInt8) : Uuid := .ofBytes ((bs.drop off).take 16)

/-- The length in front of an address, as an unsigned integer. -/
def addrlenAt (off : ℕ) (bs : List UInt8) : ℕ := fieldAt off 2 bs

def addrAt (off : ℕ) (bs : List UInt8) : SockAddr :=
  ⟨(bs.drop (off + 2)).take (addrlenAt off bs)⟩

/-- The length at `off` is not negative as an `int16_t`, and that many bytes follow it. -/
def AddrFits (off : ℕ) (bs : List UInt8) : Prop :=
  addrlenAt off bs < 2 ^ 15 ∧ off + 2 + addrlenAt off bs ≤ bs.length

instance (off : ℕ) (bs : List UInt8) : Decidable (AddrFits off bs) :=
  inferInstanceAs (Decidable (_ ∧ _))

def headerAt (bs : List UInt8) : EventHeader :=
  ⟨uuidAt 16 bs, signed 8 (fieldAt 8 8 bs), fieldAt 32 4 bs⟩

def infoAt (bs : List UInt8) : NodeInfo :=
  ⟨uuidAt 0 bs, signed 8 (fieldAt 16 8 bs), fieldAt 26 4 bs, .ofCode (fieldAt 24 2 bs), addrAt 30 bs⟩

/-- The buffer behind the gossip entry it starts with. -/
def nextEntry (bs : List UInt8) : List UInt8 := bs.drop (32 + addrlenAt 30 bs)

def bodyAt (bs : List UInt8) : EventType → EventBody
  | .ping => .ping
  | .ack => .ack (uuidAt 0 bs)
  | .pingReq => .pingReq (uuidAt 0 bs)
  | .join => .join (uuidAt 0 bs) (addrAt 16 bs)
  | .leave => .leave (uuidAt 0 bs)

def BodyFits (bs : List UInt8) : EventType → Prop
  | .ping => True
  | .ack | .pingReq | .leave => 16 ≤ bs.length
  | .join => AddrFits 16 bs

instance (bs : List UInt8) (t : EventType) : Decidable (BodyFits bs t) := by
  cases t <;> unfold BodyFits <;> infer_instance

def afterBody (bs : List UInt8) : EventType → List UInt8
  | .ping => bs
  | .ack | .pingReq | .leave => bs.drop 16
  | .join => bs.drop (18 + addrlenAt 16 bs)

/-! ## What each decoder does with them -/

theorem addrlenAt_lt (off : ℕ) (bs : List UInt8) : addrlenAt off bs < 2 ^ 16 := by
  have hlt := beValue_lt ((bs.drop off).take 2)
  have hle : 256 ^ ((bs.drop off).take 2).length ≤ 256 ^ 2 :=
    Nat.pow_le_pow_right (by decide) (by simp)
  rw [addrlenAt, fieldAt]
  omega

theorem addrlen_addrAt {off : ℕ} {bs : List UInt8} (h : AddrFits off bs) :
    (addrAt off bs).addrlen = addrlenAt off bs := by
  have := h.2
  simp only [addrAt, SockAddr.addrlen, List.length_take, List.length_drop]
  omega

theorem parses_decoder (n : ℕ) :
    Parses (swimMakeDecoder n) (fun bs => n ≤ bs.length) (fieldAt 0 n) (fun bs => bs.drop n) := by
  intro bs post
  rw [swimMakeDecoder, wp_bind, parses_getBytes]
  rfl

theorem parses_uuid :
    Parses swimDecodeUuid (fun bs => 16 ≤ bs.length) (uuidAt 0) (fun bs => bs.drop 16) := by
  intro bs post
  rw [swimDecodeUuid, wp_bind, swimDecodeFixlen, parses_getBytes]
  rfl

theorem parses_sockaddr :
    Parses swimDecodeSockaddr (AddrFits 0) (addrAt 0) (fun bs => bs.drop (2 + addrlenAt 0 bs)) := by
  intro bs post
  have hfield : fieldAt 0 2 bs = addrlenAt 0 bs := rfl
  have hlt : addrlenAt 0 bs < 256 ^ 2 := addrlenAt_lt 0 bs
  simp only [swimDecodeSockaddr, swimDecodeVarlen, swimDecodeInt16, swimDecodeFixlen, wp_bind,
    wp_get, wp_pure, parses_decoder 2 _, wp_require, if_false_right, parses_getBytes _ _ _, hfield,
    signed_nonneg_iff hlt, AddrFits, addrAt, List.length_drop, List.drop_drop]
  by_cases hs : 2 * addrlenAt 0 bs < 256 ^ 2
  · rw [signed_of_lt hs, Int.toNat_natCast, Nat.zero_add]
    constructor
    · rintro ⟨hb, -, hl, hpost⟩
      exact ⟨⟨by omega, by omega⟩, hpost⟩
    · rintro ⟨⟨-, hl⟩, hpost⟩
      exact ⟨by omega, ⟨hs, by omega⟩, by omega, hpost⟩
  · constructor
    · rintro ⟨-, ⟨hneg, -⟩, -⟩
      exact absurd hneg hs
    · rintro ⟨⟨hneg, -⟩, -⟩
      exact absurd hneg (by omega)

theorem fieldAt_drop (off n k : ℕ) (bs : List UInt8) :
    fieldAt off n (bs.drop k) = fieldAt (k + off) n bs := by
  rw [fieldAt, fieldAt, List.drop_drop]

theorem addrlenAt_drop (off k : ℕ) (bs : List UInt8) :
    addrlenAt off (bs.drop k) = addrlenAt (k + off) bs := fieldAt_drop off 2 k bs

theorem uuidAt_drop (off k : ℕ) (bs : List UInt8) :
    uuidAt off (bs.drop k) = uuidAt (k + off) bs := by
  rw [uuidAt, uuidAt, List.drop_drop]

theorem addrAt_drop (off k : ℕ) (bs : List UInt8) :
    addrAt off (bs.drop k) = addrAt (k + off) bs := by
  rw [addrAt, addrAt, addrlenAt_drop, List.drop_drop, Nat.add_assoc]

theorem addrFits_drop {off k : ℕ} {bs : List UInt8} (h : k ≤ bs.length) :
    AddrFits off (bs.drop k) ↔ AddrFits (k + off) bs := by
  rw [AddrFits, AddrFits, addrlenAt_drop, List.length_drop]
  constructor <;> rintro ⟨hpos, hlen⟩ <;> exact ⟨hpos, by omega⟩

theorem AddrFits.le {off : ℕ} {bs : List UInt8} (h : AddrFits off bs) : off + 2 ≤ bs.length := by
  have := h.2
  omega

theorem parses_header : Parses swimDecodeEventHeader (fun bs => 36 ≤ bs.length)
    (fun bs => (fieldAt 2 2 bs, headerAt bs)) (fun bs => bs.drop 36) := by
  intro bs post
  simp only [swimDecodeEventHeader, swimDecodeUint16, swimDecodeUint32, swimDecodeInt64, wp_bind,
    wp_pure, parses_decoder _ _, parses_uuid _, List.drop_drop, List.length_drop, fieldAt_drop,
    uuidAt_drop, Nat.reduceAdd]
  constructor
  · rintro ⟨-, -, -, -, h, h', hpost⟩
    exact ⟨by omega, hpost⟩
  · rintro ⟨h, hpost⟩
    exact ⟨by omega, by omega, by omega, by omega, by omega, by omega, hpost⟩

theorem parses_info : Parses swimDecodeInfo (AddrFits 30) infoAt nextEntry := by
  intro bs post
  simp only [swimDecodeInfo, swimDecodeUint16, swimDecodeUint32, swimDecodeInt64, wp_bind,
    swimDecodeFixlen, wp_pure, parses_decoder _ _, parses_getBytes _ _ _, parses_sockaddr _,
    List.drop_drop, List.length_drop, fieldAt_drop, addrlenAt_drop, addrAt_drop, ← Nat.add_assoc,
    Nat.reduceAdd]
  constructor
  · rintro ⟨-, -, -, h, haddr, hpost⟩
    exact ⟨(addrFits_drop (by omega)).mp haddr, hpost⟩
  · rintro ⟨haddr, hpost⟩
    have hlen := haddr.le
    exact ⟨by omega, by omega, by omega, by omega, (addrFits_drop (by omega)).mpr haddr, hpost⟩

theorem parses_body (t : EventType) : Parses (decodeBody t) (fun bs => BodyFits bs t)
    (fun bs => bodyAt bs t) (fun bs => afterBody bs t) := by
  intro bs post
  cases t with
  | ping => simp [decodeBody, BodyFits, bodyAt, afterBody]
  | ack | pingReq | leave =>
    simp only [decodeBody, swimDecodeEventAck, swimDecodeEventPingReq, swimDecodeEventLeave, wp_bind,
      wp_pure, parses_uuid _, BodyFits, bodyAt, afterBody]
  | join =>
    simp only [decodeBody, swimDecodeEventJoin, wp_bind, wp_pure, parses_uuid _, parses_sockaddr _,
      BodyFits, bodyAt, afterBody, addrAt_drop, addrlenAt_drop, List.drop_drop, Nat.add_zero,
      ← Nat.add_assoc, Nat.reduceAdd]
    constructor
    · rintro ⟨h, haddr, hpost⟩
      exact ⟨(addrFits_drop h).mp haddr, hpost⟩
    · rintro ⟨haddr, hpost⟩
      have hlen := haddr.le
      exact ⟨by omega, (addrFits_drop (by omega)).mpr haddr, hpost⟩

/-! ## Whole packets -/

/-- The buffer from the count of the gossip on. -/
def gossipPart (buf : List UInt8) (t : EventType) : List UInt8 := afterBody (buf.drop 36) t

def gossipCount (buf : List UInt8) (t : EventType) : ℕ := fieldAt 0 2 (gossipPart buf t)

/-- The buffer from the `i`-th gossip entry on. -/
def entryAt (buf : List UInt8) (t : EventType) (i : ℕ) : List UInt8 :=
  nextEntry^[i] ((gossipPart buf t).drop 2)

def eventAt (buf : List UInt8) (t : EventType) : Event :=
  ⟨headerAt buf, bodyAt (buf.drop 36) t,
    (List.range (gossipCount buf t)).map fun i => infoAt (entryAt buf t i)⟩

def CountAccepted (buf : List UInt8) (t : EventType) : Prop :=
  gossipCount buf t ≤ gossipCapacity (gossipPart buf t).length

def EntriesFit (buf : List UInt8) (t : EventType) : Prop :=
  ∀ i < gossipCount buf t, AddrFits 30 (entryAt buf t i)

/-- What the decoder needs to get past the body and the count. -/
def BodyRead (buf : List UInt8) (t : EventType) : Prop :=
  BodyFits (buf.drop 36) t ∧ 2 ≤ (gossipPart buf t).length

/-- Every length the decoder follows stays inside the buffer. -/
def Decodable (buf : List UInt8) : Prop :=
  ∀ t ∈ EventType.ofCode (fieldAt 2 2 buf),
    BodyRead buf t ∧ (CountAccepted buf t → EntriesFit buf t)

/-- The packets of type `t` that are not dropped. -/
def Accepted (buf : List UInt8) (t : EventType) : Prop :=
  t ∈ EventType.ofCode (fieldAt 2 2 buf) ∧ BodyRead buf t ∧ CountAccepted buf t ∧ EntriesFit buf t

section

variable (buf : List UInt8) (t : EventType)

instance : Decidable (CountAccepted buf t) := inferInstanceAs (Decidable (_ ≤ _))
instance : Decidable (EntriesFit buf t) := inferInstanceAs (Decidable (∀ i < _, AddrFits _ _))
instance : Decidable (BodyRead buf t) := inferInstanceAs (Decidable (_ ∧ _))
instance : Decidable (Decodable buf) := inferInstanceAs (Decidable (∀ t ∈ _, _ ∧ (_ → _)))
instance : Decidable (Accepted buf t) := inferInstanceAs (Decidable (_ ∧ _ ∧ _ ∧ _))

end

theorem wp_decodeGossip {buf : List UInt8} {t : EventType}
    {post : Option (List NodeInfo) → List UInt8 → Prop} :
    wp (swimDecodeGossip (gossipCapacity (gossipPart buf t).length)) post (fun _ _ => False)
        (gossipPart buf t) ↔
      2 ≤ (gossipPart buf t).length ∧
        (¬ CountAccepted buf t → post none ((gossipPart buf t).drop 2)) ∧
        (CountAccepted buf t → EntriesFit buf t ∧
          post (some (eventAt buf t).gossip) (entryAt buf t (gossipCount buf t))) := by
  rw [swimDecodeGossip, wp_bind, swimDecodeUint16, parses_decoder]
  apply and_congr_right
  intro _
  change wp (if gossipCapacity _ < gossipCount buf t then _ else _) _ _ _ ↔ _
  by_cases h : CountAccepted buf t
  · rw [if_neg (not_lt.mpr h), wp_bind, parses_info.repeatM]
    simp only [wp_pure, h, not_true, false_implies, true_and, true_implies]
    rfl
  · rw [if_pos (not_le.mp h)]
    simp only [wp_pure, h, not_false_iff, true_implies, false_implies, and_true]

theorem wp_decodeEvent {buf : List UInt8} (hlen : 36 ≤ buf.length)
    {post : Option Event → List UInt8 → Prop} :
    wp decodeEvent post (fun _ _ => False) buf ↔
      (EventType.ofCode (fieldAt 2 2 buf) = none → post none (buf.drop 36)) ∧
      ∀ t ∈ EventType.ofCode (fieldAt 2 2 buf), BodyRead buf t ∧
        (¬ CountAccepted buf t → post none ((gossipPart buf t).drop 2)) ∧
        (CountAccepted buf t → EntriesFit buf t ∧
          post (some (eventAt buf t)) (entryAt buf t (gossipCount buf t))) := by
  rw [decodeEvent, wp_bind, parses_header]
  simp only [hlen, true_and]
  cases htype : EventType.ofCode (fieldAt 2 2 buf) with
  | none => simp
  | some t =>
    have hbody := parses_body t (buf.drop 36)
    have hpart : afterBody (buf.drop 36) t = gossipPart buf t := rfl
    simp only [wp_bind, wp_get, hbody, hpart, wp_decodeGossip]
    simp [BodyRead, and_assoc, eventAt]

/-- The decoder gets through every buffer of a packet's size, other than those in which the length
of an address leads it out of the buffer or is negative. -/
theorem decode_total_iff {buf : List UInt8} (hlen : buf.length = swimMaxPacketSize) :
    (∃ r, swimDecodeEvent buf = .ok r ∧ ∀ n e, r = some (n, e) → n ≤ swimMaxPacketSize) ↔
      Decodable buf := by
  have hreturns : (∃ r, swimDecodeEvent buf = .ok r ∧ ∀ n e, r = some (n, e) →
      n ≤ swimMaxPacketSize) ↔ wp decodeEvent (fun _ _ => True) (fun _ _ => False) buf := by
    rw [swimDecodeEvent, wp]
    rcases exec decodeEvent buf with ⟨_ | _ | e, rest⟩
    · simp
    · simp
    · simp [← hlen]
  rw [hreturns, wp_decodeEvent (by rw [hlen]; decide), Decodable]
  simp

/-- A JOIN without gossip, filled up with zeros. -/
def joinPacket (addrlen : ℕ) : List UInt8 :=
  [0, 1, 0, 16] ++ List.replicate 48 0 ++ beBytes 2 addrlen ++ List.replicate 1994 0

theorem joinPacket_length (addrlen : ℕ) : (joinPacket addrlen).length = swimMaxPacketSize := by
  simp only [joinPacket, List.length_append, List.length_replicate, beBytes_length]
  rfl

theorem decode_total_join : ∃ r, swimDecodeEvent (joinPacket 16) = .ok r ∧
    ∀ n e, r = some (n, e) → n ≤ swimMaxPacketSize :=
  (decode_total_iff (joinPacket_length 16)).mpr (by decide +kernel)

/-- The length -1 fails an assertion of the decoder. -/
theorem decode_negative_length : (joinPacket 65535).length = swimMaxPacketSize ∧
    swimDecodeEvent (joinPacket 65535) = .error (.assertion .decodeVarlenRoom) :=
  ⟨joinPacket_length _, by decide +kernel⟩

/-- The bytes of an accepted packet. -/
def packetSize (buf : List UInt8) (t : EventType) : ℕ :=
  buf.length - (entryAt buf t (gossipCount buf t)).length

theorem decode_iff {buf : List UInt8} (hlen : 36 ≤ buf.length) {n : ℕ} {e : Event} :
    swimDecodeEvent buf = .ok (some (n, e)) ↔
      ∃ t, Accepted buf t ∧ n = packetSize buf t ∧ e = eventAt buf t := by
  have hreturns : swimDecodeEvent buf = .ok (some (n, e)) ↔
      wp decodeEvent (fun r rest => n = buf.length - rest.length ∧ r = some e)
        (fun _ _ => False) buf := by
    rw [swimDecodeEvent, wp]
    rcases exec decodeEvent buf with ⟨_ | _ | e', rest⟩ <;> simp [eq_comm]
  rw [hreturns, wp_decodeEvent hlen]
  simp only [Accepted]
  cases EventType.ofCode (fieldAt 2 2 buf) with
  | none => simp
  | some t =>
    by_cases hcount : CountAccepted buf t
    · simp [hcount, eq_comm, and_assoc, packetSize]
    · simp [hcount]

theorem decode_none_iff {buf : List UInt8} (hlen : 36 ≤ buf.length) :
    swimDecodeEvent buf = .ok none ↔
      ∀ t ∈ EventType.ofCode (fieldAt 2 2 buf), BodyRead buf t ∧ ¬ CountAccepted buf t := by
  have hreturns : swimDecodeEvent buf = .ok none ↔
      wp decodeEvent (fun r _ => r = none) (fun _ _ => False) buf := by
    rw [swimDecodeEvent, wp]
    rcases exec decodeEvent buf with ⟨_ | _ | e, rest⟩ <;> simp
  rw [hreturns, wp_decodeEvent hlen]
  simp

theorem decode_some_iff {buf : List UInt8} (hlen : 36 ≤ buf.length) {e : Event} :
    (∃ n, swimDecodeEvent buf = .ok (some (n, e))) ↔ ∃ t, Accepted buf t ∧ e = eventAt buf t := by
  simp only [decode_iff hlen]
  constructor
  · rintro ⟨n, t, hacc, -, he⟩
    exact ⟨t, hacc, he⟩
  · rintro ⟨t, hacc, he⟩
    exact ⟨_, t, hacc, rfl, he⟩

theorem mem_gossip_eventAt {buf : List UInt8} {t : EventType} {g : NodeInfo} :
    g ∈ (eventAt buf t).gossip ↔ ∃ i < gossipCount buf t, infoAt (entryAt buf t i) = g := by
  simp [eventAt]

/-- The length in the buffer is the length of the address decoded from it. -/
theorem Accepted.gossip_addrlen {buf : List UInt8} {t : EventType} (h : Accepted buf t) {i : ℕ}
    (hi : i < gossipCount buf t) :
    (infoAt (entryAt buf t i)).addr.addrlen = addrlenAt 30 (entryAt buf t i) :=
  addrlen_addrAt (h.2.2.2 i hi)

theorem Accepted.join_addrlen {buf : List UInt8} (h : Accepted buf .join) :
    (addrAt 16 (buf.drop 36)).addrlen = addrlenAt 52 buf := by
  rw [addrlen_addrAt h.2.1.1, addrlenAt_drop]

/-- The decoded addresses fit their storage just when every length that an accepted packet
carries does. -/
theorem decoded_addresses_fit_iff {buf : List UInt8} (hlen : buf.length = swimMaxPacketSize) :
    (∀ n e, swimDecodeEvent buf = .ok (some (n, e)) →
      (∀ u a, e.body = .join u a → a.addrlen ≤ sizeofSockaddrStorage) ∧
        ∀ g ∈ e.gossip, g.addr.addrlen ≤ sizeofSockaddrStorage) ↔
      ∀ t, Accepted buf t → (t = .join → addrlenAt 52 buf ≤ sizeofSockaddrStorage) ∧
        ∀ i < gossipCount buf t, addrlenAt 30 (entryAt buf t i) ≤ sizeofSockaddrStorage := by
  have hsome := fun e => decode_some_iff (e := e) (show 36 ≤ buf.length by rw [hlen]; decide)
  constructor
  · intro h t hacc
    obtain ⟨n, hdecode⟩ := (hsome _).mpr ⟨t, hacc, rfl⟩
    obtain ⟨hjoin, hgossip⟩ := h n _ hdecode
    refine ⟨?_, fun i hi => ?_⟩
    · rintro rfl
      rw [← hacc.join_addrlen]
      exact hjoin _ _ rfl
    · rw [← hacc.gossip_addrlen hi]
      exact hgossip _ (mem_gossip_eventAt.mpr ⟨i, hi, rfl⟩)
  · intro h n e hdecode
    obtain ⟨t, hacc, rfl⟩ := (hsome e).mp ⟨n, hdecode⟩
    obtain ⟨hjoin, hgossip⟩ := h t hacc
    refine ⟨fun u a hbody => ?_, fun g hg => ?_⟩
    · cases t with
      | join =>
        cases hbody
        rw [hacc.join_addrlen]
        exact hjoin rfl
      | ping | ack | pingReq | leave => cases hbody
    · obtain ⟨i, hi, rfl⟩ := mem_gossip_eventAt.mp hg
      rw [hacc.gossip_addrlen hi]
      exact hgossip i hi

theorem decoded_addresses_fit_join : (joinPacket 16).length = swimMaxPacketSize ∧
    ∀ n e, swimDecodeEvent (joinPacket 16) = .ok (some (n, e)) →
      (∀ u a, e.body = .join u a → a.addrlen ≤ sizeofSockaddrStorage) ∧
        ∀ g ∈ e.gossip, g.addr.addrlen ≤ sizeofSockaddrStorage := by
  refine ⟨joinPacket_length 16, (decoded_addresses_fit_iff (joinPacket_length 16)).mpr fun t => ?_⟩
  cases t <;> decide +kernel

/-- Two hundred bytes are copied into the 128 of `join_addr`. -/
theorem decoded_address_overruns : (joinPacket 200).length = swimMaxPacketSize ∧
    ∃ n e u a, swimDecodeEvent (joinPacket 200) = .ok (some (n, e)) ∧ e.body = .join u a ∧
      sizeofSockaddrStorage < a.addrlen :=
  ⟨joinPacket_length _, 256, eventAt (joinPacket 200) .join, Uuid.zero, addrAt 52 (joinPacket 200),
    by decide +kernel, by decide +kernel, by decide +kernel⟩

end LibSwim
