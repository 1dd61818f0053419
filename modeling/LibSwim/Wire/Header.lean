import LibSwim.Wire.RoundTrip

/-! # The size and the time of a header

The size of a header is patched in after its time is written, as a `uint64_t` in the byte order
of the host: the receiver reads another number there, and the first half of the time is gone.
-/

namespace LibSwim

open Foundations Program

/-- The decoder gives back the header written into a buffer of `buflen` bytes and consumes as
many bytes as were written, whatever follows them. -/
def HeaderRestored (buflen type : ℕ) (hdr : EventHeader) : Prop :=
  ∃ c, exec (swimEncodeEventHeader type hdr) ⟨[], buflen⟩ = (.ok (), c) ∧
    ∀ rest, exec swimDecodeEventHeader (c.written ++ rest) = (.ok (type, hdr), rest)

/-- The size field, behind the version and the type, is decoded as the number of bytes written. -/
def HeaderSized (buflen type : ℕ) (hdr : EventHeader) : Prop :=
  ∃ c, exec (swimEncodeEventHeader type hdr) ⟨[], buflen⟩ = (.ok (), c) ∧
    ∃ rest, exec swimDecodeUint32 (c.written.drop 4) = (.ok c.written.length, rest)

theorem exec_encodeHeader {buflen : ℕ} (type : ℕ) (hdr : EventHeader) (hlen : 36 ≤ buflen) :
    exec (swimEncodeEventHeader type hdr) ⟨[], buflen⟩ =
      (.ok (), ⟨hdr.wire type, buflen - 36⟩) := by
  have h := writes_header type hdr [] buflen (by rwa [headerWire_length])
  rwa [headerWire_length] at h

theorem headerRestored_iff {buflen type : ℕ} {hdr : EventHeader} (hlen : 36 ≤ buflen)
    (ht : type < 2 ^ 16) (hi : hdr.incarnation < 2 ^ 32) :
    HeaderRestored buflen type hdr ↔ hdr.received = hdr := by
  unfold HeaderRestored
  rw [exec_encodeHeader type hdr hlen]
  constructor
  · rintro ⟨c, hc, h⟩
    cases hc
    have hread := (reads_header ht hi []).symm.trans (h [])
    simpa using hread
  · intro h
    refine ⟨_, rfl, fun rest => ?_⟩
    rw [reads_header ht hi rest, h]

theorem received_eq_iff {hdr : EventHeader} :
    hdr.received = hdr ↔ 0 ≤ hdr.time ∧ hdr.time < 2 ^ 32 := by
  cases hdr
  simp only [EventHeader.received, EventHeader.mk.injEq, true_and, and_true]
  omega

/-- The bytes of the size, least significant first, are read with the most significant first. -/
theorem reads_size (type : ℕ) (hdr : EventHeader) :
    ∃ rest, exec swimDecodeUint32 ((hdr.wire type).drop 4) = (.ok (36 * 256 ^ 3), rest) := by
  have hpre : (beBytes 2 swimProtocolVersion ++ beBytes 2 type).length = 4 := by simp
  have hsize : leBytes 8 36 = leBytes 4 36 ++ List.replicate 4 0 := by rfl
  have hvalue : beValue (leBytes 4 36) = 36 * 256 ^ 3 := by rfl
  rw [EventHeader.wire, ← List.append_assoc, List.drop_left' hpre, hsize, List.append_assoc,
    ← hvalue]
  exact ⟨_, reads_beValue (leBytes_length 4 36) _⟩

theorem not_headerSized {buflen type : ℕ} {hdr : EventHeader} (hlen : 36 ≤ buflen) :
    ¬ HeaderSized buflen type hdr := by
  rintro ⟨c, hc, rest, h⟩
  rw [exec_encodeHeader type hdr hlen] at hc
  cases hc
  obtain ⟨rest', hread⟩ := reads_size type hdr
  have hvalue := hread.symm.trans h
  rw [headerWire_length] at hvalue
  simp at hvalue

/-- No header is read back with its size; without the size, the headers read back as they were
encoded are those whose time fits four bytes. -/
theorem header_round_trip_iff {buflen type : ℕ} {hdr : EventHeader} (hlen : 36 ≤ buflen)
    (ht : type < 2 ^ 16) (hi : hdr.incarnation < 2 ^ 32) :
    ¬ (HeaderRestored buflen type hdr ∧ HeaderSized buflen type hdr) ∧
      (HeaderRestored buflen type hdr ↔ 0 ≤ hdr.time ∧ hdr.time < 2 ^ 32) := by
  constructor
  · rintro ⟨_, hsized⟩
    exact not_headerSized hlen hsized
  · rw [headerRestored_iff hlen ht hi, received_eq_iff]

theorem header_round_trip_iff_ping :
    let hdr : EventHeader := ⟨Uuid.zero, 1700000000, 3⟩
    ¬ (HeaderRestored 36 0 hdr ∧ HeaderSized 36 0 hdr) ∧ HeaderRestored 36 0 hdr := by
  intro hdr
  have htype : 0 < 2 ^ 16 := by decide
  have hinc : hdr.incarnation < 2 ^ 32 := by decide
  have h := header_round_trip_iff (le_refl 36) htype hinc
  exact ⟨h.1, h.2.mpr (by decide)⟩

/-- A time of 2^32 seconds is read back as 0. -/
theorem header_not_round_trip :
    let hdr : EventHeader := ⟨Uuid.zero, 2 ^ 32, 0⟩
    ¬ HeaderRestored 36 0 hdr ∧ ¬ HeaderSized 36 0 hdr ∧
      ∃ c, exec (swimEncodeEventHeader 0 hdr) ⟨[], 36⟩ = (.ok (), c) ∧
        exec swimDecodeEventHeader c.written = (.ok (0, { hdr with time := 0 }), []) := by
  intro hdr
  have htype : 0 < 2 ^ 16 := by decide
  have hinc : hdr.incarnation < 2 ^ 32 := by decide
  refine ⟨?_, not_headerSized (le_refl 36), _, exec_encodeHeader 0 _ (le_refl 36), ?_⟩
  · rw [headerRestored_iff (le_refl 36) htype hinc, received_eq_iff]
    decide
  · have h := reads_header htype hinc []
    rwa [List.append_nil] at h

end LibSwim
