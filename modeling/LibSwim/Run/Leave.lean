import LibSwim.Run.Outcomes
import LibSwim.Wire.RoundTrip

/-! # Leaving

A node that leaves tells up to five members so. `leave_uuid` is never set, so the event that
arrives is a LEAVE of the all-zero UUID: the receiver notices the sender as alive and then marks
an entry that, in general, is not the sender's.
-/

namespace LibSwim

open Foundations Program

theorem wp_leaveSent {h : Host} (hwf : h.swim.WellFormed) :
    wp swimClusterLeave
      (fun _ t => ∀ p ∈ t.sent, p ∈ h.sent ∨ ∃ time, p.event = leaveEvent h.swim time)
      (fun _ _ => False) h := by
  apply wp_leaveLoop hwf
  · intro t hq p hp
    exact .inl (hq.2.1 ▸ hp)
  · intro t time node ht _ _ p hp
    rcases List.mem_append.mp hp with hp | hp
    · exact ht p hp
    · exact .inr ⟨time, by rw [List.mem_singleton.mp hp]⟩

theorem leaveEvent_inRange {s : SWIM} (h : s.incarnation < 2 ^ 32) (time : ℤ) :
    (leaveEvent s time).InRange where
  incarnation := h
  join _ _ hj := by cases hj
  count := Nat.zero_le _
  gossip _ hg := by cases hg

/-- Noticing a sender leaves its entry DEAD only if it was so and the sender is not newer. -/
theorem notice_status_dead {n : NodeState} {time : ℤ} {incarnation : ℕ} :
    (n.notice time incarnation).info.status = .dead ↔
      n.info.status = .dead ∧ incarnation ≤ n.info.incarnation := by
  rcases lt_trichotomy incarnation n.info.incarnation with hlt | heq | hgt
  · rw [NodeState.notice_stale hlt]
    simp [hlt.le]
  · rw [NodeState.notice, if_neg (by omega), if_pos heq]
    cases hs : n.info.status <;> simp [hs, heq]
  · rw [NodeState.notice_newer hgt]
    simp [hgt]

/-- The entry that the LEAVE of `l` leaves behind for `n`. -/
def leftEntry (l : SWIM) (time : ℤ) (n : NodeState) : NodeState :=
  let noticed := (leaveEvent l time).noticed n
  if n.uuid = Uuid.zero then noticed.del else noticed

section

variable {l r : SWIM} {time : ℤ} {addr : SockAddr} {n : NodeState}

theorem leftEntry_dead (hu : n.uuid = l.uuid) : (leftEntry l time n).info.status = .dead ↔
    l.uuid = Uuid.zero ∨ n.info.status = .dead ∧ l.incarnation ≤ n.info.incarnation := by
  have hnoticed : (leaveEvent l time).noticed n = n.notice time l.incarnation := if_pos hu
  simp only [leftEntry, hnoticed, hu]
  split_ifs with hz
  · exact ⟨fun _ => .inl hz, fun _ => rfl⟩
  · rw [notice_status_dead, or_iff_right hz]

/-- The LEAVE of `l` at a receiver with the entry `n` for it. -/
theorem leave_processed_iff (env : Env) (hwf : r.WellFormed) (hn : r.find l.uuid = some n) :
    (∃ r', Returns r ⟨env, .event (leaveEvent l time) addr⟩ r' ∧
        ∃ m, r'.find l.uuid = some m ∧ m.info.status = .dead) ↔
      n.info.Valid ∧ env.malloc 0 = true ∧
        (l.uuid = Uuid.zero ∨ n.info.status = .dead ∧ l.incarnation ≤ n.info.incarnation) := by
  have hspec : wp (swimProcessEvent (leaveEvent l time) addr)
      (fun _ t => n.info.Valid ∧ env.malloc 0 = true ∧
        t.swim.find l.uuid = some (leftEntry l time n))
      (fun _ _ => ¬ (n.info.Valid ∧ env.malloc 0 = true)) ⟨r, env, []⟩ := by
    refine wp_mono (wp_leaveProcessed hwf rfl) (fun _ t ht => ⟨ht.1 n hn, ht.2.1, ?_⟩)
      fun _ _ hf => ?_
    · rw [ht.2.2, hn, Option.map_some]
      rfl
    · rintro ⟨hvalid, hmalloc⟩
      rcases hf with ⟨m, hm, hinvalid⟩ | hnull
      · exact hinvalid (Option.some.inj (hn.symm.trans hm) ▸ hvalid)
      · exact Bool.false_ne_true (hnull.symm.trans hmalloc)
  rw [← leftEntry_dead (hwf.find_eq_some.mp hn).2]
  constructor
  · rintro ⟨r', ⟨ps, hrun⟩, m, hm, hd⟩
    obtain ⟨t, ⟨hvalid, hmalloc, hfind⟩, rfl, -⟩ := runStep_ok hrun hspec
    exact ⟨hvalid, hmalloc, Option.some.inj (hfind.symm.trans hm) ▸ hd⟩
  · rintro ⟨hvalid, hmalloc, hd⟩
    obtain ⟨t, ⟨-, -, hfind⟩, hrun⟩ :=
      runStep_total (c := ⟨env, .event (leaveEvent l time) addr⟩)
        (wp_mono hspec (fun _ _ ht => ht) fun _ _ hf => hf ⟨hvalid, hmalloc⟩)
    exact ⟨t.swim, ⟨t.sent, hrun⟩, _, hfind, hd⟩

/-- A LEAVE that `l` sends, from the sender through the wire to the receiver `r`: it reaches `r`
as an event, and `r` has `l` as DEAD after it just when `l` has the all-zero UUID, or was DEAD
already with an incarnation that is not older. -/
theorem leave_end_to_end_iff {env : Env} {o : Except Fault Unit} {l' : SWIM} {ps : List Packet}
    {p : Packet} (env' : Env) (addr : SockAddr) (hl : l.WellFormed) (hi : l.incarnation < 2 ^ 32)
    (hsend : runStep ⟨env, .leave⟩ l = (o, l', ps)) (hp : p ∈ ps) (hr : r.WellFormed)
    (hn : r.find l.uuid = some n) :
    ∃ bytes, swimEncodeEvent swimMaxPacketSize p.event = .ok bytes ∧
      ∀ tail, bytes.length + tail.length = swimMaxPacketSize →
        ∃ k e, swimDecodeEvent (bytes ++ tail) = .ok (some (k, e)) ∧
          ((∃ r', Returns r ⟨env', .event e addr⟩ r' ∧
              ∃ m, r'.find l.uuid = some m ∧ m.info.status = .dead) ↔
            n.info.Valid ∧ env'.malloc 0 = true ∧
              (l.uuid = Uuid.zero ∨
                n.info.status = .dead ∧ l.incarnation ≤ n.info.incarnation)) := by
  obtain ⟨_, t, hexec, hsent⟩ := wp_total.mp (wp_leaveSent (h := ⟨l, env, []⟩) hl)
  have hps : t.sent = ps := by
    simp only [runStep, Action.program, hexec, Prod.mk.injEq] at hsend
    exact hsend.2.2
  obtain hp | ⟨time, he⟩ := hsent p (hps ▸ hp)
  · cases hp
  have hrange := leaveEvent_inRange hi time
  rw [he]
  refine ⟨(leaveEvent l time).wire, encodeEvent_eq hrange, fun tail ht => ?_⟩
  exact ⟨_, leaveEvent l (time % 2 ^ 32), decodeEvent_eq hrange ht, leave_processed_iff env' hr hn⟩

end

/-- The node with last byte `b` after it has heard of the node with last byte `other`. -/
def acquainted (b other : UInt8) : SWIM :=
  (runStep (joinCall other .none) (swimStateInit (.ofByte b) 1000)).2.1

theorem acquainted_wellFormed (b other : UInt8) : (acquainted b other).WellFormed :=
  runStep_wf (.init (.ofByte b) 1000) (joinCall other .none)

def leaveStep : Call := ⟨steadyEnv 1000, .leave⟩

theorem leave_end_to_end_zero :
    ∃ bytes, swimEncodeEvent swimMaxPacketSize (leaveEvent (acquainted 0 1) 1000) = .ok bytes ∧
      ∀ tail, bytes.length + tail.length = swimMaxPacketSize →
        ∃ k e, swimDecodeEvent (bytes ++ tail) = .ok (some (k, e)) ∧
          ∃ r', Returns (acquainted 1 0) ⟨steadyEnv 1000, .event e .none⟩ r' ∧
            ∃ m, r'.find Uuid.zero = some m ∧ m.info.status = .dead := by
  have hn : (acquainted 1 0).find Uuid.zero =
      some (((acquainted 1 0).find Uuid.zero).get (by decide)) := (Option.some_get _).symm
  obtain ⟨bytes, hbytes, hdecode⟩ := leave_end_to_end_iff (steadyEnv 1000) .none
    (p := ⟨leaveEvent (acquainted 0 1) 1000, .none⟩) (acquainted_wellFormed 0 1) (by decide)
    (show runStep leaveStep (acquainted 0 1) = (_, _, _) from rfl) (by decide)
    (acquainted_wellFormed 1 0) hn
  refine ⟨bytes, hbytes, fun tail ht => ?_⟩
  obtain ⟨k, e, he, hiff⟩ := hdecode tail ht
  exact ⟨k, e, he, hiff.mpr ⟨by decide, rfl, .inl rfl⟩⟩

/-- Node 1 leaves, and node 2 has it as ALIVE afterwards. -/
theorem leave_unheard :
    (runStep leaveStep (acquainted 1 2)).2.2 = [⟨leaveEvent (acquainted 1 2) 1000, .none⟩] ∧
      (swimEncodeEvent swimMaxPacketSize (leaveEvent (acquainted 1 2) 1000)).bind
        (fun bytes => swimDecodeEvent (bytes ++ List.replicate (2048 - bytes.length) 0)) =
          .ok (some (54, leaveEvent (acquainted 1 2) 1000)) ∧
      Returns (acquainted 2 1) ⟨steadyEnv 1000, .event (leaveEvent (acquainted 1 2) 1000) .none⟩
        (runStep ⟨steadyEnv 1000, .event (leaveEvent (acquainted 1 2) 1000) .none⟩
          (acquainted 2 1)).2.1 ∧
      ((runStep ⟨steadyEnv 1000, .event (leaveEvent (acquainted 1 2) 1000) .none⟩
        (acquainted 2 1)).2.1.find (.ofByte 1)).map (·.info.status) = some .alive :=
  ⟨by decide, by decide +kernel, returns_of_ok (by decide), by decide⟩

end LibSwim
