import LibSwim.Run.Steps
import LibSwim.Step.Schedule

/-! # Runs of the whole interface

The functions that `swim/state.h` declares may be called between the calls of a run. A run of
operations takes them in any order, with libc behaving anew in each of them.
-/

namespace LibSwim

open Foundations Program

/-- The calls of a run and the functions of `swim/state.h`. -/
inductive Op where
  | call (action : Action)
  | add (info : NodeInfo)
  | suspect (uuid : Uuid) (addr : SockAddr)
  | del (uuid : Uuid)
  | notice (uuid : Uuid) (time : ℤ) (incarnation : ℕ)
  | merge (info : NodeInfo)
  | probeShuffle
  | probeNext
  | probeInvalidate

def Op.program : Op → SwimM Unit
  | .call action => action.program
  | .add info => do let _ ← swimStateAdd info
  | .suspect uuid addr => do let _ ← swimStateSuspect uuid addr
  | .del uuid => do let _ ← swimStateDel uuid
  | .notice uuid time incarnation => do let _ ← swimStateNotice uuid time incarnation
  | .merge info => swimStateMerge info
  | .probeShuffle => swimProbeShuffle
  | .probeNext => do let _ ← swimProbeNext
  | .probeInvalidate => swimProbeInvalidate

/-- An operation together with what libc returns during it. -/
structure OpCall where
  env : Env
  op : Op

def Call.toOp (c : Call) : OpCall := ⟨c.env, .call c.action⟩

/-- The operation returns and leaves the node in `s'`. -/
def Performs (s : SWIM) (c : OpCall) (s' : SWIM) : Prop :=
  ∃ h', exec c.op.program ⟨s, c.env, []⟩ = (.ok (), h') ∧ h'.swim = s'

/-- Any operation, in any state. -/
def anyOp (_ : SWIM) (_ : OpCall) : Prop := True

section

variable {h h' : Host} {info : NodeInfo}

/-- What every operation keeps: the representation, and that an entry which is new has the
bookkeeping of a slot that was left or is reset. -/
structure Managed (h h' : Host) : Prop where
  wf : h'.swim.WellFormed
  left : FewerLeft h h'
  fresh : ∀ v n, h'.swim.find v = some n → h.swim.find v = none → Inherits h.env h.swim n

namespace Managed

/-- An operation that inserts nothing. -/
theorem of_find (hwf : h'.swim.WellFormed) (hleft : FewerLeft h h')
    (hfind : ∀ v, h.swim.find v = none → h'.swim.find v = none) : Managed h h' where
  wf := hwf
  left := hleft
  fresh v n hn hv := by
    rw [hfind v hv] at hn
    cases hn

theorem scheduled {probe : ProbeSchedule} (hs : Scheduled probe h h') (hwf : h'.swim.WellFormed) :
    Managed h h' :=
  of_find hwf (fewerLeft_of_same hs.later (by rw [hs.swim]; rfl)) fun v hv => by
    rw [SWIM.find, hs.members]
    exact hv

theorem quiet (hq : Quiet h h') (hwf : h.swim.WellFormed) : Managed h h' :=
  scheduled hq.scheduled (hq.1 ▸ hwf)

theorem modifyNode {i : ℕ} {n : NodeState} {f : NodeState → NodeState} (hwf : h.swim.WellFormed)
    (hi : h.swim.members[i]? = some n) (hf : ∀ m, (f m).uuid = m.uuid) :
    Managed h { h with swim := h.swim.modifyNode i f } := by
  refine of_find (hwf.modifyNode hf)
    (fewerLeft_of_same (.refl _) (SWIM.modifyNode_spare f hi)) fun v hv => ?_
  rw [hwf.find_modifyNode hf hi, Function.update_of_ne, hv]
  rintro rfl
  rw [hwf.find_of_get hi] at hv
  cases hv

theorem added {node last : NodeState} (ha : Added h info node last h') : Managed h h' where
  wf := ha.wf
  left := ha.left
  fresh v n hn hv := by
    rw [ha.find, Function.update_apply] at hn
    split_ifs at hn
    · cases hn
      exact ha.slot
    · rw [hv] at hn
      cases hn

end Managed

theorem managed_add (hwf : h.swim.WellFormed) :
    wp (swimStateAdd info) (fun _ h' => Managed h h') (fun _ _ => True) h := by
  by_cases hself : info.uuid = h.swim.uuid
  · simp [swimStateAdd, uuidCompare_eq.mpr hself]
  · by_cases hfresh : h.swim.find info.uuid = none
    · exact wp_swimStateAdd hwf hself hfresh (fun h' hq _ => .quiet hq hwf)
        fun h' _ _ ha => .added ha
    · have hnode : h.swim.getNode info.uuid ≠ none := mt hwf.getNode_eq_none.mp hfresh
      simp [swimStateAdd, hnode]

theorem managed_merge (hwf : h.swim.WellFormed) :
    wp (swimStateMerge info) (fun _ h' => Managed h h') (fun _ _ => True) h := by
  simp only [swimStateMerge, wp_bind, wp_getSwim]
  refine wp_ite (fun _ => .quiet (.refl h) hwf) fun _ => ?_
  rw [wp_bind]
  refine wp_search hwf (fun _ => ?_) fun i node hi _ => ?_
  · rw [wp_bind]
    exact managed_add hwf
  · exact .modifyNode hwf hi fun m => m.merge_uuid info

theorem managed_del {uuid : Uuid} (hwf : h.swim.WellFormed) :
    wp (swimStateDel uuid) (fun _ h' => Managed h h') (fun _ _ => True) h := by
  simp only [swimStateDel, wp_bind, wp_getSwim]
  refine wp_ite (fun _ => .quiet (.refl h) hwf) fun _ => ?_
  rw [wp_bind]
  refine wp_search hwf (fun _ => .quiet (.refl h) hwf) fun i node hi _ => ?_
  have hd : Managed h { h with swim := h.swim.modifyNode i NodeState.del } :=
    .modifyNode hwf hi NodeState.del_uuid
  exact ⟨hd.wf.schedule (.inl rfl), hd.left, hd.fresh⟩

theorem managed_suspect {uuid : Uuid} {addr : SockAddr} (hwf : h.swim.WellFormed) :
    wp (swimStateSuspect uuid addr) (fun _ h' => Managed h h') (fun _ _ => True) h := by
  rw [swimStateSuspect, wp_bind]
  refine wp_search hwf (fun _ => .quiet (.refl h) hwf) fun i node hi _ => ?_
  exact .modifyNode hwf hi fun m => m.suspect_uuid addr

theorem managed_notice {uuid : Uuid} {time : ℤ} {incarnation : ℕ} (hwf : h.swim.WellFormed) :
    wp (swimStateNotice uuid time incarnation) (fun _ h' => Managed h h') (fun _ _ => True) h :=
  wp_swimStateNotice hwf (fun _ => .quiet (.refl h) hwf)
    (fun _ _ hi _ _ => .modifyNode hwf hi fun m => m.notice_uuid time incarnation)
    fun _ _ _ => trivial

theorem managed_shuffle (hwf : h.swim.WellFormed) :
    wp swimProbeShuffle (fun _ h' => Managed h h') (fun _ _ => True) h := by
  refine wp_swimProbeShuffle (fun h' _ hs => .scheduled hs ?_) (fun h' _ _ hq => .quiet hq hwf)
    fun order h' _ _ hperm hs => .scheduled hs ?_
  · rw [hs.swim]
    exact hwf.schedule (.inl rfl)
  · rw [hs.swim]
    exact hwf.schedule (.inr ⟨rfl, hperm⟩)

theorem managed_next (hwf : h.swim.WellFormed) :
    wp swimProbeNext (fun _ h' => Managed h h') (fun _ _ => True) h :=
  wp_swimProbeNext hwf fun _ _ hp => .scheduled hp.scheduled hp.wf

end

section

variable {c : OpCall} {s s' : SWIM} {uuid : Uuid} {now : ℤ}

theorem managed_call {env : Env} {action : Action} (hwf : s.WellFormed) :
    wp action.program (fun _ h' => Managed ⟨s, env, []⟩ h') (fun _ _ => True) ⟨s, env, []⟩ := by
  refine wp_mono (wp_program env action hwf) (fun _ h' hd => ?_) fun _ _ _ => trivial
  exact ⟨hd.wf, hd.left, fun v n hn hv => hd.reached.fresh hwf hd.wf hn hv⟩

theorem wp_op (hwf : s.WellFormed) (env : Env) (op : Op) :
    wp op.program (fun _ h' => Managed ⟨s, env, []⟩ h') (fun _ _ => True) ⟨s, env, []⟩ := by
  cases op with
  | call action => exact managed_call hwf
  | add info => exact (wp_bind _ _).mpr (managed_add hwf)
  | suspect uuid addr => exact (wp_bind _ _).mpr (managed_suspect hwf)
  | del uuid => exact (wp_bind _ _).mpr (managed_del hwf)
  | notice uuid time incarnation => exact (wp_bind _ _).mpr (managed_notice hwf)
  | merge info => exact managed_merge hwf
  | probeShuffle => exact managed_shuffle hwf
  | probeNext => exact (wp_bind _ _).mpr (managed_next hwf)
  | probeInvalidate => exact .scheduled ⟨rfl, rfl, .refl _⟩ (hwf.schedule (.inl rfl))

theorem Performs.managed (h : Performs s c s') (hwf : s.WellFormed) :
    ∃ h', Managed ⟨s, c.env, []⟩ h' ∧ h'.swim = s' := by
  obtain ⟨h', hexec, rfl⟩ := h
  have hspec := wp_op hwf c.env c.op
  exact ⟨h', (wp_iff.mp hspec).1 _ h' hexec, rfl⟩

/-- Every operation keeps the representation invariant. -/
theorem Performs.wf (h : Performs s c s') (hwf : s.WellFormed) : s'.WellFormed := by
  obtain ⟨h', hm, rfl⟩ := h.managed hwf
  exact hm.wf

theorem wellFormed_of_ops {admitted : SWIM → OpCall → Prop}
    (h : Run Performs admitted (swimStateInit uuid now) s) : s.WellFormed :=
  h.preserves (fun _ _ _ ht _ hstep => hstep.wf ht) (.init uuid now)

end

/-! ## Playing a list of operations -/

section

/-- The node after a list of operations. -/
def play (s : SWIM) (cs : List OpCall) : SWIM :=
  cs.foldl (fun s c => (exec c.op.program ⟨s, c.env, []⟩).2.swim) s

/-- Each operation of the list returns. -/
def plays : SWIM → List OpCall → Bool
  | _, [] => true
  | s, c :: cs => (exec c.op.program ⟨s, c.env, []⟩).1.toBool && plays (play s [c]) cs

variable {s₀ s : SWIM} {c : OpCall} {cs : List OpCall}

theorem performs_of_plays (h : plays s [c] = true) : Performs s c (play s [c]) := by
  have hok := (Bool.and_eq_true_iff.mp h).1
  refine ⟨_, Prod.ext ?_ rfl, rfl⟩
  cases hr : (exec c.op.program ⟨s, c.env, []⟩).1 with
  | ok u => rfl
  | error e =>
    rw [hr] at hok
    cases hok

theorem run_of_plays_of {Admits : SWIM → OpCall → Prop} (h : plays s cs = true)
    (hrun : Run Performs Admits s₀ s) (hcs : ∀ c ∈ cs, ∀ t, Admits t c) :
    Run Performs Admits s₀ (play s cs) := by
  induction cs generalizing s with
  | nil => exact hrun
  | cons c cs ih =>
    obtain ⟨hok, hrest⟩ := Bool.and_eq_true_iff.mp h
    rw [List.forall_mem_cons] at hcs
    have hstep : Performs s c (play s [c]) := performs_of_plays (by simp [plays, hok])
    exact ih hrest (hrun.tail (hcs.1 s) hstep) hcs.2

theorem run_of_plays (h : plays s cs = true) (hrun : Run Performs anyOp s₀ s) :
    Run Performs anyOp s₀ (play s cs) := run_of_plays_of h hrun fun _ _ _ => trivial

end

/-- A node that is alive is added by hand. -/
def addCall (b : UInt8) : OpCall :=
  ⟨steadyEnv 1000, .add ⟨.ofByte b, 1000, 0, .alive, .none⟩⟩

end LibSwim
