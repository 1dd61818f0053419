import LibSwim.Model.Cluster

/-! # What the assignments do to an entry

No assignment changes the UUID or the address of an entry; only `notice` and `merge` touch its
incarnation, and they only raise it.
-/

namespace LibSwim

namespace NodeState

def uuid (node : NodeState) : Uuid := node.info.uuid

variable (node : NodeState) (info : NodeInfo) (addr : SockAddr) (time : ℤ) (incarnation : ℕ)

@[simp] theorem suspect_uuid : (node.suspect addr).uuid = node.uuid := rfl
@[simp] theorem del_uuid : node.del.uuid = node.uuid := rfl
@[simp] theorem refute_uuid : node.refute.uuid = node.uuid := rfl
@[simp] theorem suspectDead_uuid : node.suspectDead.uuid = node.uuid := rfl

@[simp] theorem notice_uuid : (node.notice time incarnation).uuid = node.uuid := by
  unfold notice
  split_ifs
  · rfl
  · split <;> rfl
  · rfl

@[simp] theorem merge_uuid : (node.merge info).uuid = node.uuid := by
  unfold merge
  repeat' split
  all_goals rfl

variable {node info time incarnation}

theorem notice_newer (h : node.info.incarnation < incarnation) :
    node.notice time incarnation = { node with info := { node.info with
      incarnation := incarnation, status := .alive, lastSeen := time } } := by
  rw [notice, if_pos h]

theorem notice_stale (h : incarnation < node.info.incarnation) :
    node.notice time incarnation = node := by
  rw [notice, if_neg (by omega), if_neg (by omega)]

theorem merge_newer (h : node.info.incarnation < info.incarnation) :
    node.merge info = swimNodeReset { node with info := { node.info with
      incarnation := info.incarnation, lastSeen := info.lastSeen, status := info.status } } := by
  rw [merge, if_pos h]

theorem merge_stale (h : info.incarnation < node.info.incarnation) : node.merge info = node := by
  rw [merge, if_neg (by omega), if_neg (by omega)]

/-- At equal incarnations `notice` can only end a suspicion. -/
theorem notice_same (h : incarnation = node.info.incarnation) :
    (node.notice time incarnation).info.incarnation = node.info.incarnation ∧
      ((node.notice time incarnation).info.status = .alive ∨
        node.notice time incarnation = node ∧
          (node.info.status = .dead ∨ ∃ n, node.info.status = .other n)) := by
  rw [notice, if_neg (by omega), if_pos h]
  cases hs : node.info.status <;> simp [hs]

/-- A sender that is not stale is ALIVE afterwards, unless it was DEAD. -/
theorem notice_alive (h : node.info.incarnation ≤ incarnation)
    (hs : node.info.status = .alive ∨ node.info.status = .suspect) :
    (node.notice time incarnation).info.status = .alive := by
  rcases h.lt_or_eq with hlt | heq
  · rw [notice_newer hlt]
  · rw [notice, if_neg (by omega), if_pos heq.symm]
    rcases hs with hs | hs <;> simp [hs]

/-- Such a sender was last seen at the time of the event. -/
theorem lastSeen_notice (h : node.info.incarnation ≤ incarnation)
    (hs : node.info.status = .alive ∨ node.info.status = .suspect) :
    (node.notice time incarnation).info.lastSeen = time := by
  rcases h.lt_or_eq with hlt | heq
  · rw [notice_newer hlt]
  · rw [notice, if_neg (by omega), if_pos heq.symm]
    rcases hs with hs | hs <;> simp [hs]

theorem notice_dead (h : incarnation ≤ node.info.incarnation) (hs : node.info.status = .dead) :
    node.notice time incarnation = node := by
  rcases h.lt_or_eq with hlt | heq
  · exact notice_stale hlt
  · rw [notice, if_neg (by omega), if_pos heq, hs]

/-- At equal incarnations `merge` keeps the incarnation. -/
theorem merge_same (h : info.incarnation = node.info.incarnation) :
    (node.merge info).info.incarnation = node.info.incarnation := by
  rw [merge, if_neg (by omega), if_pos h]
  repeat' split
  all_goals rfl

/-! At equal incarnations the status decides, unless the member is DEAD. -/

theorem merge_dead (h : info.incarnation = node.info.incarnation) (hs : node.info.status = .dead) :
    node.merge info = swimNodeReset node := by
  rw [merge, if_neg (by omega), if_pos h, hs]

theorem merge_higher (h : info.incarnation = node.info.incarnation)
    (hs : node.info.status = .alive ∨ node.info.status = .suspect)
    (hlt : node.info.status.code < info.status.code) :
    node.merge info = swimNodeReset { node with info := { node.info with
      status := info.status, lastSeen := info.lastSeen } } := by
  rw [merge, if_neg (by omega), if_pos h]
  rcases hs with hs | hs <;> rw [hs] at hlt ⊢ <;> exact if_pos hlt

theorem merge_lower (h : info.incarnation = node.info.incarnation)
    (hs : node.info.status = .alive ∨ node.info.status = .suspect)
    (hlt : info.status.code < node.info.status.code) : node.merge info = node := by
  have hne : ¬ (info.status = node.info.status ∧ node.info.lastSeen < info.lastSeen) := by
    rintro ⟨he, -⟩
    exact hlt.ne (congrArg Status.code he)
  rw [merge, if_neg (by omega), if_pos h]
  rcases hs with hs | hs <;> rw [hs] at hlt hne ⊢ <;>
    exact (if_neg hlt.not_gt).trans (if_neg hne)

theorem merge_refresh (h : info.incarnation = node.info.incarnation)
    (hs : node.info.status = .alive ∨ node.info.status = .suspect)
    (he : info.status = node.info.status) :
    node.merge info = { node with info := { node.info with
      lastSeen := max node.info.lastSeen info.lastSeen } } := by
  have hmax : (if info.status = node.info.status ∧ node.info.lastSeen < info.lastSeen then
      { node with info := { node.info with lastSeen := info.lastSeen } } else node) =
      { node with info := { node.info with
        lastSeen := max node.info.lastSeen info.lastSeen } } := by
    split_ifs with hlt
    · rw [max_eq_right hlt.2.le]
    · rw [max_eq_left (not_lt.mp fun hl => hlt ⟨he, hl⟩)]
  rw [merge, if_neg (by omega), if_pos h, ← hmax]
  rcases hs with hs | hs <;> rw [hs] at he ⊢ <;> simp [he]

theorem incarnation_notice :
    (node.notice time incarnation).info.incarnation = max node.info.incarnation incarnation := by
  rcases lt_trichotomy incarnation node.info.incarnation with h | h | h
  · rw [notice_stale h, max_eq_left h.le]
  · rw [(notice_same h).1, h, max_self]
  · rw [notice_newer h, max_eq_right h.le]

theorem incarnation_merge :
    (node.merge info).info.incarnation = max node.info.incarnation info.incarnation := by
  rcases lt_trichotomy info.incarnation node.info.incarnation with h | h | h
  · rw [merge_stale h, max_eq_left h.le]
  · rw [merge_same h, h, max_self]
  · rw [merge_newer h, max_eq_right h.le]
    rfl

variable (node info time incarnation)

/-- Each field of a noticed entry is the old one or comes with the event. -/
theorem notice_info : ∃ seen status, (seen = node.info.lastSeen ∨ seen = time) ∧
    (status = node.info.status ∨ status = .alive) ∧
    (node.notice time incarnation).info =
      ⟨node.uuid, seen, max node.info.incarnation incarnation, status, node.info.addr⟩ := by
  rw [← incarnation_notice]
  unfold notice
  split_ifs
  · exact ⟨_, _, .inr rfl, .inr rfl, rfl⟩
  · split
    · exact ⟨_, _, .inr rfl, .inr rfl, rfl⟩
    · exact ⟨_, _, .inr rfl, .inr rfl, rfl⟩
    · exact ⟨_, _, .inr rfl, .inl rfl, rfl⟩
    · exact ⟨_, _, .inl rfl, .inl rfl, rfl⟩
    · exact ⟨_, _, .inl rfl, .inl rfl, rfl⟩
  · exact ⟨_, _, .inl rfl, .inl rfl, rfl⟩

/-- A merge resets the bookkeeping of the entry or leaves all of it alone. -/
theorem merge_books (node : NodeState) (info : NodeInfo) :
    ∃ i, node.merge info = swimNodeReset { node with info := i } ∨
      node.merge info = { node with info := i } := by
  refine ⟨(node.merge info).info, ?_⟩
  unfold merge
  repeat' split
  all_goals simp [swimNodeReset]

/-- Each field of a merged entry is the old one or that of the gossip. -/
theorem merge_info : ∃ seen status, (seen = node.info.lastSeen ∨ seen = info.lastSeen) ∧
    (status = node.info.status ∨ status = info.status) ∧
    (node.merge info).info =
      ⟨node.uuid, seen, max node.info.incarnation info.incarnation, status, node.info.addr⟩ := by
  rw [← incarnation_merge]
  unfold merge
  repeat' split
  all_goals first
    | exact ⟨_, _, .inr rfl, .inr rfl, rfl⟩
    | exact ⟨_, _, .inr rfl, .inl rfl, rfl⟩
    | exact ⟨_, _, .inl rfl, .inl rfl, rfl⟩

end NodeState
end LibSwim
