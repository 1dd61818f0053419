import LibSwim.Run.Steps
import LibSwim.Wire.Hostile
import LibSwim.Wire.RoundTrip

/-! # What is decoded fits its buffers

The decoder derives the number of entries it accepts from the bytes that are left to read, although
the entries go into another buffer, where each of them takes more room than it needs on the wire.
That number is exact for every packet whose body was read: a difference that wraps leaves no room
for the count, and the decoder stops there. So a decoded event fits the buffer it is decoded into,
and a JOIN fits a packet again with an address filled in.
-/

namespace LibSwim

open Foundations Program

section

variable {buf : List UInt8} {t : EventType} {n : ℕ} {e : Event}

theorem afterBody_length_le (bs : List UInt8) (t : EventType) :
    (afterBody bs t).length ≤ bs.length := by
  cases t with
  | ping => exact le_rfl
  | ack | pingReq | leave | join =>
    simp only [afterBody, List.length_drop]
    omega

theorem gossipPart_length_le (buf : List UInt8) (t : EventType) :
    (gossipPart buf t).length ≤ buf.length - 36 := by
  rw [gossipPart, ← List.length_drop]
  exact afterBody_length_le _ t

/-- Neither the subtraction nor the narrowing changes the capacity of a packet that is accepted. -/
theorem Accepted.count_le (h : Accepted buf t) (hlen : buf.length = swimMaxPacketSize) :
    (eventAt buf t).gossip.length ≤ 11 := by
  obtain ⟨-, ⟨-, hread⟩, hcount, -⟩ := h
  have hpart := gossipPart_length_le buf t
  rw [hlen, swimMaxPacketSize] at hpart
  rw [CountAccepted, gossipCapacity_eq hread (by omega)] at hcount
  simp only [eventAt, List.length_map, List.length_range]
  omega

/-- A decoded event fits the buffer of the server. -/
theorem decoded_event_fits (hlen : buf.length = swimMaxPacketSize)
    (hdecode : swimDecodeEvent buf = .ok (some (n, e))) :
    sizeofEvent + e.gossip.length * sizeofNodeInfo ≤ swimMaxPacketSize := by
  obtain ⟨t, hacc, -, rfl⟩ := (decode_iff (by rw [hlen]; decide)).mp hdecode
  have hcount := hacc.count_le hlen
  simp only [sizeofEvent, sizeofNodeInfo, swimMaxPacketSize]
  omega

end

/-- A packet that starts with `front` and carries eleven entries of zeros. -/
def crowdedPacket (front : List UInt8) : List UInt8 :=
  front ++ ([0, 11] ++ List.replicate (2046 - front.length) 0)

/-- A PING with eleven entries fills the buffer to the last byte. -/
theorem decoded_event_fits_ping :
    let buf := crowdedPacket ([0, 1, 0, 0] ++ List.replicate 32 0)
    buf.length = swimMaxPacketSize ∧
      ∃ n e, swimDecodeEvent buf = .ok (some (n, e)) ∧ e.gossip.length = 11 ∧
        sizeofEvent + e.gossip.length * sizeofNodeInfo ≤ swimMaxPacketSize := by
  intro buf
  have hlen : buf.length = swimMaxPacketSize := by decide +kernel
  obtain ⟨hacc, hcount⟩ : Accepted buf .ping ∧ (eventAt buf .ping).gossip.length = 11 := by
    decide +kernel
  have hdecode := (decode_iff (by rw [hlen]; decide)).mpr ⟨_, hacc, rfl, rfl⟩
  exact ⟨hlen, _, _, hdecode, hcount, decoded_event_fits hlen hdecode⟩

section

variable {s s' : SWIM} {env : Env} {e : Event} {u : Uuid} {a addr : SockAddr} {ps : List Packet}

/-- The JOINs that processing a JOIN sends are copies of it, with the address filled in. -/
theorem Reached.forwarded (hr : Reached env s (.event e addr) s' ps) (hbody : e.body = .join u a)
    {p : Packet} (hp : p ∈ ps) (hj : p.event.body.type = .join) :
    p.event = { e with body := .join u (fillJoinAddr a addr) } := by
  generalize hact : Action.event e addr = action at hr
  induction hr with
  | start => cases hp
  | effect _ _ _ he ih =>
    rcases List.mem_append.mp hp with hp | hp
    · exact ih hp
    · cases he with
      | send h _ _ _ =>
        obtain rfl := List.mem_singleton.mp hp
        cases h with
        | join => cases hact
        | answer | relay | indirect | probe | request | leave => cases hj
      | forward ha hb _ =>
        obtain rfl := List.mem_singleton.mp hp
        rw [← hact] at ha
        cases ha
        rw [hbody] at hb
        cases hb
        rfl
      | node | insert | incarnate | idle => cases hp

/-- A JOIN that was received can be sent on, whatever gossip it carries: filling in the address does
not make it too large. -/
theorem forwarded_join_fits {buf : List UInt8} {n : ℕ} (hlen : buf.length = swimMaxPacketSize)
    (hdecode : swimDecodeEvent buf = .ok (some (n, e))) (hbody : e.body = .join u a)
    (ha : a.addrlen ≤ sizeofSockaddrStorage)
    (hgossip : ∀ g ∈ e.gossip, g.addr.addrlen ≤ sizeofSockaddrStorage)
    (haddr : addr.addrlen ≤ sizeofSockaddrStorage) :
    (∃ bytes, swimEncodeEvent swimMaxPacketSize
        { e with body := .join u (fillJoinAddr a addr) } = .ok bytes ∧
      bytes.length ≤ swimMaxPacketSize) ∧
    ∀ c s, s.WellFormed → c.action = .event e addr → ∀ p ∈ (runStep c s).2.2,
      p.event.body.type = .join → p.event = { e with body := .join u (fillJoinAddr a addr) } := by
  constructor
  · obtain ⟨t, hacc, -, rfl⟩ := (decode_iff (by rw [hlen]; decide)).mp hdecode
    have hcount := hacc.count_le hlen
    have hjoin : ∀ v b, EventBody.join u (fillJoinAddr a addr) = .join v b →
        b.addrlen ≤ sizeofSockaddrStorage := by
      rintro v b ⟨⟩
      exact fillJoinAddr_le ha haddr
    have hwire : { eventAt buf t with body := .join u (fillJoinAddr a addr) }.wire.length ≤
        184 + 160 * (eventAt buf t).gossip.length := eventWire_length hjoin hgossip
    have hfits := hwire.trans (show _ ≤ swimMaxPacketSize by rw [swimMaxPacketSize]; omega)
    exact ⟨_, encodeEvent_of_length hjoin hgossip hfits, hfits⟩
  · rintro ⟨env, _⟩ s hwf rfl p hp hj
    exact (account (c := ⟨env, .event e addr⟩) hwf rfl).reached.forwarded hbody hp hj

end

/-- A JOIN without an address and with eleven entries, received from an address of full length. -/
theorem forwarded_join_fits_crowded :
    let buf := crowdedPacket ([0, 1, 0, 16] ++ List.replicate 50 0)
    let addr : SockAddr := ⟨List.replicate 128 7⟩
    ∃ n e bytes, swimDecodeEvent buf = .ok (some (n, e)) ∧ e.body = .join Uuid.zero .none ∧
      e.gossip.length = 11 ∧ swimEncodeEvent swimMaxPacketSize
        { e with body := .join Uuid.zero addr } = .ok bytes ∧ bytes.length ≤ swimMaxPacketSize := by
  intro buf addr
  obtain ⟨hlen, hacc, hbody, hcount, hgossip⟩ : buf.length = swimMaxPacketSize ∧
      Accepted buf .join ∧ (eventAt buf .join).body = .join Uuid.zero .none ∧
      (eventAt buf .join).gossip.length = 11 ∧
      ∀ g ∈ (eventAt buf .join).gossip, g.addr.addrlen ≤ sizeofSockaddrStorage := by
    decide +kernel
  have hdecode := (decode_iff (by rw [hlen]; decide)).mpr ⟨_, hacc, rfl, rfl⟩
  have haddr : addr.addrlen ≤ sizeofSockaddrStorage := by decide +kernel
  obtain ⟨⟨bytes, hbytes, hfits⟩, -⟩ := forwarded_join_fits hlen hdecode hbody (by decide) hgossip haddr
  exact ⟨_, _, bytes, hdecode, hbody, hcount, hbytes, hfits⟩

end LibSwim
