import LibSwim.Wire.Canonical

/-! # Datagrams shorter than the buffer

A datagram is received at the front of a buffer of 2048 bytes, and the decoder is given the whole
buffer. Whatever it reads behind the datagram was there before. Zeros behind the datagram are one
such case, and they decide about all others.
-/

namespace LibSwim

open Foundations Program

/-! ## Decoders look at nothing behind what they consume -/

theorem scans_decoder (n : ℕ) : Scans (swimMakeDecoder n) :=
  (scans_getBytes _ n).bind fun _ => scans_pure _

theorem scans_int64 : Scans swimDecodeInt64 := (scans_decoder 8).bind fun _ => scans_pure _

theorem scans_uuid : Scans swimDecodeUuid := (scans_getBytes _ 16).bind fun _ => scans_pure _

theorem scans_sockaddr : Scans swimDecodeSockaddr := by
  have hlength : Scans swimDecodeInt16 := (scans_decoder 2).bind fun _ => scans_pure _
  have hvarlen : Scans swimDecodeVarlen := by
    apply scans_get
    · intro bs
      exact hlength.bind fun _ => (scans_require _ _).bind fun _ => scans_getBytes _ _
    · intro bs bs' hlen
      rw [hlen]
  exact hvarlen.bind fun _ => scans_pure _

theorem scans_header : Scans swimDecodeEventHeader :=
  (scans_decoder 2).bind fun _ => (scans_decoder 2).bind fun _ => (scans_decoder 4).bind fun _ =>
    scans_int64.bind fun _ => scans_uuid.bind fun _ => (scans_decoder 4).bind fun _ => scans_pure _

theorem scans_body (t : EventType) : Scans (decodeBody t) := by
  cases t with
  | ping => exact scans_pure _
  | ack | pingReq | leave => exact scans_uuid.bind fun _ => scans_pure _
  | join => exact scans_uuid.bind fun _ => scans_sockaddr.bind fun _ => scans_pure _

theorem scans_info : Scans swimDecodeInfo :=
  (scans_getBytes _ 16).bind fun _ => scans_int64.bind fun _ => (scans_decoder 2).bind fun _ =>
    (scans_decoder 4).bind fun _ => scans_sockaddr.bind fun _ => scans_pure _

theorem scans_gossip (cap : ℕ) : Scans (swimDecodeGossip cap) := by
  apply (scans_decoder 2).bind
  intro count
  split
  · exact scans_pure _
  · exact (scans_info.repeatM count).bind fun _ => scans_pure _

theorem scans_event : Scans decodeEvent := by
  apply scans_header.bind
  rintro ⟨type, hdr⟩
  dsimp only
  cases EventType.ofCode type with
  | none => exact scans_pure _
  | some t =>
    apply (scans_body t).bind
    intro body
    apply scans_get
    · intro bs
      apply (scans_gossip _).bind
      intro gossip
      cases gossip <;> exact scans_pure _
    · intro bs bs' hlen
      rw [hlen]

/-! ## Fields at the end of a datagram -/

section

variable {off n k : ℕ} {d r bs : List UInt8}

theorem fieldAt_append_left (h : off + n ≤ d.length) :
    fieldAt off n (d ++ r) = fieldAt off n d := by
  rw [fieldAt, List.drop_append_of_le_length (by omega),
    List.take_append_of_le_length (by rw [List.length_drop]; omega), fieldAt]

theorem fieldAt_two (h : off + 2 ≤ bs.length) :
    fieldAt off 2 bs = 256 * fieldAt off 1 bs + fieldAt (off + 1) 1 bs := by
  have hbytes : (bs.drop off).take 2 = (bs.drop off).take 1 ++ (bs.drop (off + 1)).take 1 := by
    rw [← List.drop_drop, ← List.take_add]
  obtain ⟨b, hb⟩ : ∃ b, (bs.drop (off + 1)).take 1 = [b] :=
    List.length_eq_one_iff.mp (by rw [List.length_take, List.length_drop]; omega)
  rw [fieldAt, hbytes, fieldAt, fieldAt, hb]
  simp [beValue, leValue, Nat.add_comm]

theorem fieldAt_zeros (h : d.length ≤ off) : fieldAt off n (d ++ List.replicate k 0) = 0 := by
  have hzeros := beValue_zeros_append (min n (k - (off - d.length))) []
  rw [List.append_nil] at hzeros
  rw [fieldAt, List.drop_append, List.drop_of_length_le h, List.nil_append, List.drop_replicate,
    List.take_replicate, hzeros]
  rfl

/-- Zeros give the least value of a field. -/
theorem fieldAt_zeros_le (hlen : (d ++ List.replicate k 0).length = (d ++ r).length)
    (h : off + 2 ≤ (d ++ r).length) :
    fieldAt off 2 (d ++ List.replicate k 0) ≤ fieldAt off 2 (d ++ r) := by
  have hbyte : ∀ i, fieldAt i 1 (d ++ List.replicate k 0) ≤ fieldAt i 1 (d ++ r) := by
    intro i
    rcases lt_or_ge i d.length with hi | hi
    · rw [fieldAt_append_left hi, fieldAt_append_left hi]
    · rw [fieldAt_zeros hi]
      exact Nat.zero_le _
  have hfirst := hbyte off
  have hsecond := hbyte (off + 1)
  rw [fieldAt_two h, fieldAt_two (hlen ▸ h)]
  omega

end

/-! ## Packets cut short -/

/-- Where the gossip starts in a packet of type `t`. -/
def bodyEnd (buf : List UInt8) : EventType → ℕ
  | .ping => 36
  | .ack | .pingReq | .leave => 52
  | .join => 54 + addrlenAt 52 buf

/-- The datagram with zeros behind it. -/
def padded (d : List UInt8) : List UInt8 := d ++ List.replicate (swimMaxPacketSize - d.length) 0

section

variable {d r buf : List UInt8} {t : EventType}

theorem gossipPart_eq (buf : List UInt8) (t : EventType) :
    gossipPart buf t = buf.drop (bodyEnd buf t) := by
  cases t with
  | ping => rfl
  | ack | pingReq | leave => simp only [gossipPart, afterBody, bodyEnd, List.drop_drop]
  | join =>
    simp only [gossipPart, afterBody, bodyEnd, List.drop_drop, addrlenAt_drop, ← Nat.add_assoc,
      Nat.reduceAdd]

theorem gossipCount_eq (buf : List UInt8) (t : EventType) :
    gossipCount buf t = fieldAt (bodyEnd buf t) 2 buf := by
  rw [gossipCount, gossipPart_eq, fieldAt_drop, Nat.add_zero]

theorem bodyRead_iff (hlen : 36 ≤ buf.length) : BodyRead buf t ↔
    (t = .join → addrlenAt 52 buf < 2 ^ 15) ∧ bodyEnd buf t + 2 ≤ buf.length := by
  rw [BodyRead, gossipPart_eq, List.length_drop]
  cases t with
  | ping =>
    simp only [BodyFits, bodyEnd, reduceCtorEq, false_implies, true_and]
    omega
  | ack | pingReq | leave =>
    simp only [BodyFits, bodyEnd, List.length_drop, reduceCtorEq, false_implies, true_and]
    omega
  | join =>
    rw [BodyFits, addrFits_drop hlen, AddrFits, bodyEnd]
    simp only [Nat.reduceAdd, true_implies]
    omega

theorem filled_length (h : d.length ≤ swimMaxPacketSize) (b : UInt8) :
    (d ++ List.replicate (swimMaxPacketSize - d.length) b).length = swimMaxPacketSize := by
  rw [List.length_append, List.length_replicate]
  omega

theorem padded_length (h : d.length ≤ swimMaxPacketSize) :
    (padded d).length = swimMaxPacketSize := filled_length h 0

theorem length_le_of_append (h : (d ++ r).length = swimMaxPacketSize) :
    d.length ≤ swimMaxPacketSize := by
  rw [List.length_append] at h
  omega

theorem EventType.ofCode_eq_none {v : ℕ} (h : 17 < v) : EventType.ofCode v = none := by
  unfold ofCode
  split <;> first | omega | rfl

/-- A type that is unknown with zeros behind the datagram is unknown with any bytes there. -/
theorem ofCode_of_padded (hlen : (d ++ r).length = swimMaxPacketSize)
    (h : EventType.ofCode (fieldAt 2 2 (padded d)) = none) :
    EventType.ofCode (fieldAt 2 2 (d ++ r)) = none := by
  have hpad := padded_length (length_le_of_append hlen)
  rcases le_or_gt 4 d.length with h4 | h4
  · rwa [fieldAt_append_left h4, ← fieldAt_append_left h4]
  · -- The second byte is not received; a type with a first byte other than zero is unknown.
    have hle : fieldAt 2 2 (padded d) ≤ fieldAt 2 2 (d ++ r) :=
      fieldAt_zeros_le (hpad.trans hlen.symm) (by rw [hlen]; decide)
    have htwo : fieldAt 2 2 (padded d) = 256 * fieldAt 2 1 (padded d) + fieldAt 3 1 (padded d) :=
      fieldAt_two (by rw [hpad]; decide)
    have hsecond : fieldAt 3 1 (padded d) = 0 := fieldAt_zeros (by omega)
    apply EventType.ofCode_eq_none
    rcases Nat.eq_zero_or_pos (fieldAt 2 1 (padded d)) with h0 | h0
    · rw [h0, hsecond] at htwo
      rw [htwo] at h
      cases h
    · omega

/-- A count above the capacity with zeros behind the datagram is above it with any bytes there. -/
theorem count_of_padded (hlen : (d ++ r).length = swimMaxPacketSize)
    (ht : t ∈ EventType.ofCode (fieldAt 2 2 (padded d))) (hread : BodyRead (padded d) t)
    (hcount : ¬ CountAccepted (padded d) t) :
    t ∈ EventType.ofCode (fieldAt 2 2 (d ++ r)) ∧ BodyRead (d ++ r) t ∧
      ¬ CountAccepted (d ++ r) t := by
  have hpad := padded_length (length_le_of_append hlen)
  have hbuf : 36 ≤ (d ++ r).length := by rw [hlen]; decide
  rw [CountAccepted, gossipCount_eq, gossipPart_eq, List.length_drop, not_le] at hcount
  have hend : bodyEnd (padded d) t < d.length := by
    by_contra hge
    have hzero : fieldAt (bodyEnd (padded d) t) 2 (padded d) = 0 := fieldAt_zeros (by omega)
    omega
  have hfield : ∀ off n, off + n ≤ d.length → fieldAt off n (d ++ r) = fieldAt off n (padded d) :=
    fun off n h => (fieldAt_append_left h).trans (fieldAt_append_left h).symm
  have haddr : t = .join → addrlenAt 52 (d ++ r) = addrlenAt 52 (padded d) := by
    rintro rfl
    rw [bodyEnd] at hend
    exact hfield 52 2 (by omega)
  have h36 : 36 ≤ bodyEnd (padded d) t := by
    cases t <;> simp only [bodyEnd] <;> omega
  have hsame : bodyEnd (d ++ r) t = bodyEnd (padded d) t := by
    cases t with
    | join => rw [bodyEnd, bodyEnd, haddr rfl]
    | ping | ack | pingReq | leave => rfl
  obtain ⟨hpos, hroom⟩ := (bodyRead_iff (by rw [hpad]; decide)).mp hread
  refine ⟨?_, (bodyRead_iff hbuf).mpr ⟨?_, ?_⟩, ?_⟩
  · rwa [hfield 2 2 (by omega)]
  · intro hjoin
    rw [haddr hjoin]
    exact hpos hjoin
  · rw [hsame, hlen, ← hpad]
    exact hroom
  · have hle : fieldAt (bodyEnd (padded d) t) 2 (padded d) ≤
        fieldAt (bodyEnd (padded d) t) 2 (d ++ r) :=
      fieldAt_zeros_le (hpad.trans hlen.symm) (by rw [hlen, ← hpad]; exact hroom)
    rw [CountAccepted, gossipCount_eq, gossipPart_eq, List.length_drop, hsame, hlen, not_le, ← hpad]
    exact hcount.trans_le hle

/-- An accepted packet that ends within the datagram is the same with any bytes behind it. -/
theorem decode_of_padded (hlen : (d ++ r).length = swimMaxPacketSize) (h : Accepted (padded d) t)
    (hend : packetSize (padded d) t ≤ d.length) :
    swimDecodeEvent (d ++ r) = .ok (some (packetSize (padded d) t, eventAt (padded d) t)) := by
  have hpad := padded_length (length_le_of_append hlen)
  have hdecode := (decode_iff (by rw [hpad]; decide)).mpr ⟨t, h, rfl, rfl⟩
  rw [swimDecodeEvent] at hdecode ⊢
  rcases hexec : exec decodeEvent (padded d) with ⟨_ | _ | e, rest⟩
  · simp [hexec] at hdecode
  · simp [hexec] at hdecode
  · simp only [hexec, Except.ok.injEq, Option.some.injEq, Prod.mk.injEq] at hdecode
    obtain ⟨hsize, rfl⟩ := hdecode
    obtain ⟨read, hread, hscan⟩ := scans_event _ _ _ hexec
    have hsplit := congrArg List.length hread
    rw [List.length_append] at hsplit
    have hdatagram : read <+: d := by
      apply List.prefix_of_prefix_length_le ⟨rest, hread.symm⟩ ⟨_, rfl⟩
      omega
    obtain ⟨tail, rfl⟩ := hdatagram
    rw [List.append_assoc, hscan (tail ++ r) (by
      simp only [List.length_append] at hlen hsplit ⊢
      omega)]
    simp only [List.length_append] at hlen hsplit hsize ⊢
    congr 3
    omega

theorem swimRecvEvent_eq (hpos : 1 ≤ d.length) (hd : d.length ≤ buf.length) :
    swimRecvEvent d buf = swimDecodeEvent (d ++ buf.drop d.length) := by
  rw [swimRecvEvent, List.take_of_length_le hd]
  exact if_neg (by omega)

theorem swimRecvEvent_replicate (hpos : 1 ≤ d.length) (hd : d.length ≤ swimMaxPacketSize)
    (b : UInt8) : swimRecvEvent d (List.replicate swimMaxPacketSize b) =
      swimDecodeEvent (d ++ List.replicate (swimMaxPacketSize - d.length) b) := by
  rw [swimRecvEvent_eq hpos (by rwa [List.length_replicate]), List.drop_replicate]

/-- The bytes of an accepted packet behind its header belong to the event. -/
theorem Accepted.drop_header (h : Accepted buf t) (hlen : 36 ≤ buf.length) :
    (buf.take (packetSize buf t)).drop 36 =
      (eventAt buf t).body.wire ++ gossipWire (eventAt buf t).gossip := by
  rw [h.take_packetSize hlen, Event.packet]
  apply List.drop_left'
  simp only [List.length_append, List.length_take, List.length_drop, beBytes_length, Uuid.length_eq]
  omega

theorem Accepted.packetSize_eq_wire (h : Accepted buf t) (hlen : 36 ≤ buf.length) :
    packetSize buf t =
      38 + ((eventAt buf t).body.wire ++ (eventAt buf t).gossip.flatMap NodeInfo.wire).length := by
  have hv : (buf.take 2).length = 2 := by
    rw [List.length_take]
    omega
  have hs : ((buf.drop 4).take 8).length = 8 := by
    rw [List.length_take, List.length_drop]
    omega
  rw [h.packetSize_eq hlen, Event.packet_length hv hs, gossipWire, List.length_append,
    List.length_append, beBytes_length]
  omega

/-- If the same event is decoded with zeros and with other bytes behind the datagram, the packet
ends within it: its last byte belongs to the event. -/
theorem packetSize_le_of_eventAt_eq {t' : EventType} {b : UInt8} (hb : b ≠ 0)
    (hd : d.length ≤ swimMaxPacketSize) (h : Accepted (padded d) t)
    (h' : Accepted (d ++ List.replicate (swimMaxPacketSize - d.length) b) t')
    (he : eventAt (padded d) t = eventAt (d ++ List.replicate (swimMaxPacketSize - d.length) b) t') :
    packetSize (padded d) t ≤ d.length := by
  have hpad := padded_length hd
  have h36 : 36 ≤ (padded d).length := by rw [hpad]; decide
  have h36' : 36 ≤ (d ++ List.replicate (swimMaxPacketSize - d.length) b).length := by
    rw [filled_length hd b]
    decide
  have hsize := h.packetSize_eq_wire h36
  have hsize' := h'.packetSize_eq_wire h36'
  rw [← he, ← hsize] at hsize'
  have hbytes := (h.drop_header h36).trans (he ▸ (h'.drop_header h36').symm)
  rw [hsize'] at hbytes
  have htotal : packetSize (padded d) t ≤ swimMaxPacketSize := by
    rw [packetSize, hpad]
    exact Nat.sub_le _ _
  by_contra hlt
  have hlast : ∀ c, (((d ++ List.replicate (swimMaxPacketSize - d.length) c).take
      (packetSize (padded d) t)).drop 36)[packetSize (padded d) t - 37]? = some c := by
    intro c
    rw [List.getElem?_drop, List.getElem?_take_of_lt (by omega),
      List.getElem?_append_right (by omega), List.getElem?_replicate_of_lt (by omega)]
  have hzero := hlast 0
  rw [← padded, hbytes, hlast b] at hzero
  exact hb (Option.some.inj hzero)

/-- Both packets are dropped, or both yield the same event. -/
def SameResult (r r' : Except Fault (Option (ℕ × Event))) : Prop :=
  r = .ok none ∧ r' = .ok none ∨ ∃ n n' e, r = .ok (some (n, e)) ∧ r' = .ok (some (n', e))

theorem sameResult_of_eq {r r' : Except Fault (Option (ℕ × Event))} {x : Option (ℕ × Event)}
    (h : r = .ok x) (h' : r' = .ok x) : SameResult r r' := by
  cases x with
  | none => exact .inl ⟨h, h'⟩
  | some x => exact .inr ⟨x.1, x.1, x.2, h, h'⟩

/-- Two buffers show whether a packet ends within the datagram: one of zeros, and one of
bytes other than zero. -/
theorem ends_of_sameResult (hpos : 1 ≤ d.length) (hd : d.length ≤ swimMaxPacketSize)
    (h : SameResult (swimRecvEvent d (List.replicate swimMaxPacketSize 0))
      (swimRecvEvent d (List.replicate swimMaxPacketSize 255))) :
    Decodable (padded d) ∧ ∀ t, Accepted (padded d) t → packetSize (padded d) t ≤ d.length := by
  have h36 : 36 ≤ (padded d).length := by rw [padded_length hd]; decide
  rw [swimRecvEvent_replicate hpos hd, swimRecvEvent_replicate hpos hd, ← padded] at h
  rcases h with ⟨hnone, -⟩ | ⟨n, n', e, hsome, hsome'⟩
  · have hdropped := (decode_none_iff h36).mp hnone
    exact ⟨fun t ht => ⟨(hdropped t ht).1, fun hc => absurd hc (hdropped t ht).2⟩,
      fun t hacc => absurd hacc.2.2.1 (hdropped t hacc.1).2⟩
  · obtain ⟨t, hacc, -, he⟩ := (decode_iff h36).mp hsome
    obtain ⟨t', hacc', -, he'⟩ := (decode_iff (by rw [filled_length hd]; decide)).mp hsome'
    have hunique : ∀ u, u ∈ EventType.ofCode (fieldAt 2 2 (padded d)) → u = t :=
      fun u hu => Option.mem_unique hu hacc.1
    constructor
    · intro u hu
      rw [hunique u hu]
      exact ⟨hacc.2.1, fun _ => hacc.2.2.2⟩
    · intro u hu
      rw [hunique u hu.1]
      exact packetSize_le_of_eventAt_eq (by decide) hd hacc hacc' (he.symm.trans he')

/-- A packet that ends within the datagram, and one that is dropped, are received in one way. -/
theorem received_of_ends (hpos : 1 ≤ d.length) (hd : d.length ≤ swimMaxPacketSize)
    (hdecodable : Decodable (padded d))
    (hend : ∀ t, Accepted (padded d) t → packetSize (padded d) t ≤ d.length) :
    ∃ x, ∀ buf : List UInt8, buf.length = swimMaxPacketSize → swimRecvEvent d buf = .ok x := by
  suffices h : ∃ x, ∀ r : List UInt8, (d ++ r).length = swimMaxPacketSize →
      swimDecodeEvent (d ++ r) = .ok x by
    obtain ⟨x, hx⟩ := h
    refine ⟨x, fun buf hbuf => ?_⟩
    rw [swimRecvEvent_eq hpos (by omega)]
    apply hx
    rw [List.length_append, List.length_drop]
    omega
  cases ht : EventType.ofCode (fieldAt 2 2 (padded d)) with
  | none =>
    refine ⟨none, fun r hlen => ?_⟩
    rw [decode_none_iff (by rw [hlen]; decide), ofCode_of_padded hlen ht]
    simp
  | some t =>
    obtain ⟨hread, hfit⟩ := hdecodable t ht
    by_cases hcount : CountAccepted (padded d) t
    · have hacc : Accepted (padded d) t := ⟨ht, hread, hcount, hfit hcount⟩
      exact ⟨_, fun r hlen => decode_of_padded hlen hacc (hend t hacc)⟩
    · refine ⟨none, fun r hlen => ?_⟩
      obtain ⟨ht', hread', hcount'⟩ := count_of_padded hlen ht hread hcount
      rw [decode_none_iff (by rw [hlen]; decide)]
      intro u hu
      rw [Option.mem_unique hu ht']
      exact ⟨hread', hcount'⟩

end

/-- What is received depends on the datagram alone just when, with zeros behind it, no length leads
the decoder out of the buffer and a packet that is accepted ends within the datagram. -/
theorem received_alone_iff {d : List UInt8} (hpos : 1 ≤ d.length)
    (hd : d.length ≤ swimMaxPacketSize) :
    (∀ buf buf' : List UInt8, buf.length = swimMaxPacketSize → buf'.length = swimMaxPacketSize →
      SameResult (swimRecvEvent d buf) (swimRecvEvent d buf')) ↔
      Decodable (padded d) ∧ ∀ t, Accepted (padded d) t → packetSize (padded d) t ≤ d.length := by
  constructor
  · intro h
    apply ends_of_sameResult hpos hd
    exact h _ _ List.length_replicate List.length_replicate
  · rintro ⟨hdecodable, hend⟩ buf buf' hbuf hbuf'
    obtain ⟨x, hx⟩ := received_of_ends hpos hd hdecodable hend
    exact sameResult_of_eq (hx buf hbuf) (hx buf' hbuf')

/-- A PING of 38 bytes is complete. -/
theorem received_alone_ping :
    let d := (pingPacket [0, 1] [36, 0, 0, 0, 0, 0, 0, 0]).take 38
    d.length = 38 ∧
      ∀ buf buf' : List UInt8, buf.length = swimMaxPacketSize → buf'.length = swimMaxPacketSize →
        SameResult (swimRecvEvent d buf) (swimRecvEvent d buf') := by
  intro d
  refine ⟨by decide +kernel, (received_alone_iff (by decide +kernel) (by decide +kernel)).mpr
    ⟨by decide +kernel, fun t => ?_⟩⟩
  cases t <;> decide +kernel

/-- The first four bytes of a PING are taken for a PING of the node whose UUID the buffer held, or
dropped with the count that it held. -/
theorem received_stale :
    let d : List UInt8 := [0, 1, 0, 0]
    let zeros : List UInt8 := List.replicate 2048 0
    let sevens : List UInt8 := List.replicate 16 0 ++ (List.replicate 16 7 ++ List.replicate 2016 0)
    (∃ n e, swimRecvEvent d zeros = .ok (some (n, e)) ∧ e.hdr.uuid = Uuid.zero) ∧
      (∃ n e, swimRecvEvent d sevens = .ok (some (n, e)) ∧ e.hdr.uuid ≠ Uuid.zero) ∧
      swimRecvEvent d (List.replicate 2048 255) = .ok none := by
  intro d zeros sevens
  exact ⟨⟨38, eventAt (d ++ zeros.drop 4) .ping, by decide +kernel, by decide +kernel⟩,
    ⟨38, eventAt (d ++ sevens.drop 4) .ping, by decide +kernel, by decide +kernel⟩,
    by decide +kernel⟩

end LibSwim
