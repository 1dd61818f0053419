import LibSwim.Run.Death

/-! # Witnesses

The witness of a member is the node that asked for an indirect probe of it, and it is there to be
told when the suspicion ends. Refutation and gossip clear it. The other ways out of SUSPECT do not:
an event of the member itself, its LEAVE, and the heartbeat that declares it dead. A new entry
takes over what its slot holds, which `realloc` does not clear.
-/

namespace LibSwim

open Foundations Program

/-- A recorded witness means that the member is suspected. -/
def NodeState.WitnessOk (n : NodeState) : Prop := swimNodeHasWitness n → n.info.status = .suspect

/-- The slots that `realloc` adds hold no witness. -/
def Env.BlankSlots (env : Env) : Prop :=
  ∀ k junk i, env.reallocView k = some junk → ¬ swimNodeHasWitness (junk i)

/-- An action that does not end the suspicion of `n`, a member with a witness: an event that comes
from `n` is stale, and is not its LEAVE; a heartbeat is not two minutes late. -/
def Action.Spares (now : ℤ) (n : NodeState) : Action → Prop
  | .event e _ =>
    (e.hdr.uuid = n.uuid → e.hdr.incarnation < n.info.incarnation) ∧ e.body ≠ .leave n.uuid
  | .heartbeat => now - 120 < n.info.lastSeen
  | .join _ | .leave => True

def sparing (s : SWIM) (c : Call) : Prop :=
  (∀ n ∈ s.members, swimNodeHasWitness n → c.action.Spares (c.env.time 0) n) ∧ c.env.BlankSlots

section

variable {s s' : SWIM} {n m m' : NodeState} {c : Call} {g : NodeInfo}

theorem NodeState.notice_witness (time : ℤ) (incarnation : ℕ) (n : NodeState) :
    (n.notice time incarnation).witness = n.witness := by
  unfold notice
  split_ifs
  · rfl
  · split <;> rfl
  · rfl

/-- A merge clears the witness or leaves the status alone. -/
theorem NodeState.merge_witness (n : NodeState) (g : NodeInfo) : (n.merge g).witness = .none ∨
    (n.merge g).witness = n.witness ∧ (n.merge g).info.status = n.info.status := by
  unfold merge
  repeat' split
  all_goals first
    | exact .inl rfl
    | exact .inr ⟨rfl, rfl⟩

theorem not_hasWitness_of_none (h : n.witness = .none) : ¬ swimNodeHasWitness n := by
  rw [swimNodeHasWitness, h]
  decide

/-- What holds of an entry at every moment of a sparing call. -/
def Spared (now : ℤ) (action : Action) (n : NodeState) : Prop :=
  swimNodeHasWitness n → n.info.status = .suspect ∧
    (∀ e addr, action = .event e addr → e.body ≠ .leave n.uuid) ∧
    (action = .heartbeat → now - 120 < n.info.lastSeen)

theorem NodeAct.spared {t : SWIM} (h : NodeAct (c.env.time 0) s t c.action m m')
    (hc : sparing s c) (hwf : s.WellFormed) (hm : Spared (c.env.time 0) c.action m) :
    Spared (c.env.time 0) c.action m' := by
  generalize hact : c.action = action at h hm ⊢
  cases h with
  | @notice e addr _ hn hu _ =>
    intro hw
    have hw' : swimNodeHasWitness m := by
      rwa [swimNodeHasWitness, NodeState.notice_witness] at hw
    have hspares := hc.1 m (hwf.find_eq_some.mp hn).1 hw'
    rw [hact] at hspares
    rw [NodeState.notice_stale (hspares.1 hu.symm)]
    exact hm hw'
  | @suspect e addr _ hb =>
    refine fun _ => ⟨rfl, ?_, by simp⟩
    rintro e' addr' ⟨⟩
    simp [hb]
  | @merge e addr _ g _ _ _ _ =>
    intro hw
    rcases m.merge_witness g with hnone | ⟨hsame, hstatus⟩
    · exact absurd hw (not_hasWitness_of_none hnone)
    · rw [swimNodeHasWitness, hsame] at hw
      obtain ⟨hs, hleave, -⟩ := hm hw
      exact ⟨hstatus.trans hs, by rwa [NodeState.merge_uuid], by simp⟩
  | refute _ _ _ => exact fun hw => absurd hw (not_hasWitness_of_none rfl)
  | @del e addr _ hb => exact fun hw => absurd hb ((hm hw).2.1 e addr rfl)
  | suspectDead hs _ =>
    intro hw
    rw [(hm hw).1] at hs
    cases hs
  | declareDead _ hl =>
    intro hw
    have hlt := (hm hw).2.2 rfl
    omega

/-- The slots behind the view hold no witness. -/
def SWIM.BlankSpare (s : SWIM) : Prop := ∀ slot ∈ s.spare, ¬ swimNodeHasWitness slot

theorem Leftover.blank {env : Env} {slot : NodeState} (h : Leftover env s slot)
    (hs : s.BlankSpare) (he : env.BlankSlots) : ¬ swimNodeHasWitness slot := by
  rcases h with hslot | ⟨k, junk, i, hk, rfl⟩
  · exact hs slot hslot
  · exact he k junk i hk

theorem Account.blankSpare {r : Except Fault Unit} {ps : List Packet} (h : Account c s r s' ps)
    (hs : s.BlankSpare) (he : c.env.BlankSlots) : s'.BlankSpare :=
  fun slot hslot => (h.left slot hslot).blank hs he

/-- A new entry has no witness. -/
theorem not_hasWitness_of_leftover {env : Env} (hw : Inherits env s n)
    (hs : s.BlankSpare) (he : env.BlankSlots) : ¬ swimNodeHasWitness n := by
  obtain ⟨slot, hslot, -, -, hnone | hsame⟩ := hw
  · exact not_hasWitness_of_none hnone
  · rw [swimNodeHasWitness, hsame]
    exact hslot.blank hs he

theorem init_blankSpare (uuid : Uuid) (now : ℤ) : (swimStateInit uuid now).BlankSpare := by
  intro slot hslot
  have hzero : slot = NodeState.zero := by
    simp only [SWIM.spare, swimStateInit, List.drop_zero] at hslot
    exact List.eq_of_mem_replicate hslot
  exact not_hasWitness_of_none (by rw [hzero]; rfl)

theorem step_witnessOk (hwf : s.WellFormed) (hs : s.Holds NodeState.WitnessOk) (hb : s.BlankSpare)
    (hc : sparing s c) (h : Returns s c s') : s'.Holds NodeState.WitnessOk ∧ s'.BlankSpare := by
  obtain ⟨ps, hrun⟩ := h
  have hacc := account hwf hrun
  have hstart : s.Holds (Spared (c.env.time 0) c.action) := by
    intro v n hn hw
    have hspares := hc.1 n (hwf.find_eq_some.mp hn).1 hw
    refine ⟨hs v n hn hw, ?_, ?_⟩
    · rintro e addr hact
      rw [hact] at hspares
      exact hspares.2
    · intro hact
      rwa [hact] at hspares
  have hend := (hacc.reached.holds hstart (fun _ _ _ _ ha hm => ha.spared hc hwf hm)
    fun _ n _ _ _ _ hw h => absurd h (not_hasWitness_of_leftover hw hb hc.2)).1
  exact ⟨fun v n hn hw => (hend v n hn hw).1, hacc.blankSpare hb hc.2⟩

end

/-- In every run of sparing calls the members with a witness are suspected. -/
theorem witness_suspected {uuid : Uuid} {now : ℤ} {s : SWIM}
    (h : Run Returns sparing (swimStateInit uuid now) s) :
    ∀ n ∈ s.members, swimNodeHasWitness n → n.info.status = .suspect := by
  obtain ⟨hwf, hok, -⟩ := h.preserves
    (I := fun t => t.WellFormed ∧ t.Holds NodeState.WitnessOk ∧ t.BlankSpare)
    (fun t c t' ht hc hret => ⟨hret.wf ht.1, step_witnessOk ht.1 ht.2.1 ht.2.2 hc hret⟩)
    ⟨.init uuid now, SWIM.holds_init uuid now _, init_blankSpare uuid now⟩
  exact fun n hn => hok.of_mem hwf hn

theorem steadyEnv_blankSlots (now : ℤ) : (steadyEnv now).BlankSlots := by
  rintro k junk i ⟨⟩
  exact not_hasWitness_of_none rfl

/-- Node 3 asks for a probe of node 2. -/
theorem witness_suspected_probe :
    let s := (runStep (pingReqCall 3 2 0 ⟨[7]⟩)
      (runStep (joinCall 2 .none) (swimStateInit (.ofByte 1) 1000)).2.1).2.1
    (∃ n ∈ s.members, swimNodeHasWitness n) ∧
      ∀ n ∈ s.members, swimNodeHasWitness n → n.info.status = .suspect := by
  intro s
  have hjoin : Run Returns sparing (swimStateInit (.ofByte 1) 1000) _ :=
    Run.call (Run.refl _) (joinCall 2 .none)
      ⟨by simp [SWIM.members, swimStateInit], steadyEnv_blankSlots 1000⟩ rfl
  have hprobe : Run Returns sparing (swimStateInit (.ofByte 1) 1000) s :=
    Run.call hjoin (pingReqCall 3 2 0 ⟨[7]⟩) ⟨fun n hn hw => by
      have hnone : ∀ n ∈ (runStep (joinCall 2 .none) (swimStateInit (.ofByte 1) 1000)).2.1.members,
        ¬ swimNodeHasWitness n := by decide
      exact absurd hw (hnone n hn), steadyEnv_blankSlots 1000⟩ (by decide)
  exact ⟨by decide, witness_suspected hprobe⟩

/-- Node 3 asks for a probe of node 2. The next PING of node 2 makes it ALIVE, its LEAVE makes it
DEAD, and so does a heartbeat two minutes later; node 3 stays recorded as its witness. -/
theorem witness_kept :
    let s := (runStep (pingReqCall 3 2 0 ⟨[7]⟩)
      (runStep (joinCall 2 .none) (swimStateInit (.ofByte 1) 1000)).2.1).2.1
    let sPing := (runStep (pingCall 2 0) s).2.1
    let sLeave := (runStep (leaveCall 3 2) s).2.1
    let sLate := (runStep (heartbeatCall 1120) s).2.1
    Run Returns anyCall (swimStateInit (.ofByte 1) 1000) s ∧
      (Returns s (pingCall 2 0) sPing ∧
        ∃ n ∈ sPing.members, swimNodeHasWitness n ∧ n.info.status = .alive) ∧
      (Returns s (leaveCall 3 2) sLeave ∧
        ∃ n ∈ sLeave.members, swimNodeHasWitness n ∧ n.info.status = .dead) ∧
      (Returns s (heartbeatCall 1120) sLate ∧
        ∃ n ∈ sLate.members, swimNodeHasWitness n ∧ n.info.status = .dead) := by
  intro s sPing sLeave sLate
  have hjoin : Run Returns anyCall (swimStateInit (.ofByte 1) 1000) _ :=
    Run.call (Run.refl _) (joinCall 2 .none) trivial rfl
  exact ⟨Run.call hjoin (pingReqCall 3 2 0 ⟨[7]⟩) trivial (by decide),
    ⟨returns_of_ok (by decide), by decide⟩,
    ⟨returns_of_ok (by decide), by decide⟩, ⟨returns_of_ok (by decide), by decide⟩⟩

end LibSwim
