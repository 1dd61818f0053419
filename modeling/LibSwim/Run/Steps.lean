import LibSwim.Foundations.Transition
import LibSwim.Step.Heartbeat

/-! # Runs of one node

A run calls the interface any number of times, with libc behaving anew in every call. The
representation invariant holds in all states of a run, so the account of a single call applies
at every step of it.
-/

namespace LibSwim

open Foundations Program

/-- A call together with what libc returns during it. -/
structure Call where
  env : Env
  action : Action

/-- How the call ends, the node it leaves behind, and what it sent. -/
def runStep (c : Call) (s : SWIM) : Except Fault Unit × SWIM × List Packet :=
  let (r, h) := exec c.action.program ⟨s, c.env, []⟩
  (r, h.swim, h.sent)

/-- Calls made one after the other, up to the first that does not return. -/
def runCalls : List Call → SWIM → Except Fault Unit × SWIM × List Packet
  | [], s => (.ok (), s, [])
  | c :: cs, s =>
    match runStep c s with
    | (.error f, s', ps) => (.error f, s', ps)
    | (.ok (), s', ps) =>
      match runCalls cs s' with
      | (r, s'', qs) => (r, s'', ps ++ qs)

/-- The call returns and leaves the node in `s'`. -/
def Returns (s : SWIM) (c : Call) (s' : SWIM) : Prop := ∃ ps, runStep c s = (.ok (), s', ps)

/-- Any call, in any state. -/
def anyCall (_ : SWIM) (_ : Call) : Prop := True

section

variable {c : Call} {cs : List Call} {r : Except Fault Unit} {f : Fault} {s s' : SWIM} {ps : List Packet}

theorem runCalls_error (h : runStep c s = (.error f, s', ps)) :
    runCalls (c :: cs) s = (.error f, s', ps) := by rw [runCalls, h]

theorem runCalls_ok (h : runStep c s = (.ok (), s', ps)) : runCalls (c :: cs) s =
    ((runCalls cs s').1, (runCalls cs s').2.1, ps ++ (runCalls cs s').2.2) := by rw [runCalls, h]

/-- The account of a call, however it ends. -/
structure Account (c : Call) (s : SWIM) (r : Except Fault Unit) (s' : SWIM) (ps : List Packet) :
    Prop where
  wf : s'.WellFormed
  reached : Reached c.env s c.action s' ps
  left : ∀ slot ∈ s'.spare, Leftover c.env s slot
  cause : ∀ f, r = .error f → FaultCause c.env s c.action f
  raised : r = .ok () → s'.incarnation = s.raised (c.action.raises s)

theorem account (hwf : s.WellFormed) (h : runStep c s = (r, s', ps)) : Account c s r s' ps := by
  have hspec := wp_program c.env c.action hwf
  simp only [runStep, Prod.mk.injEq] at h
  obtain ⟨rfl, rfl, rfl⟩ := h
  cases hr : (exec c.action.program ⟨s, c.env, []⟩).1 with
  | ok u =>
    have hd := wp_ok hspec (Prod.ext hr rfl)
    exact ⟨hd.wf, hd.reached, fun _ hs => hd.left _ (.inl hs), by simp, fun _ => hd.raised⟩
  | error e =>
    obtain ⟨⟨k, hd⟩, hc⟩ := wp_error hspec (Prod.ext hr rfl)
    exact ⟨hd.wf, hd.reached, fun _ hs => hd.left _ (.inl hs), by rintro f ⟨⟩; exact hc,
      by simp⟩

theorem Account.member {P : NodeState → Prop} {v : Uuid} {n : NodeState}
    (h : Account c s r s' ps) (hwf : s.WellFormed) (hn : s.find v = some n) (hP : P n)
    (hact : ∀ t m m', Midway s t → NodeAct (c.env.time 0) s t c.action m m' → m.uuid = v →
      P m → P m') : ∃ m, s'.find v = some m ∧ P m :=
  h.reached.member hwf h.wf hn hP hact

/-- What is known of a call by symbolic execution holds of the state it returns in. -/
theorem runStep_ok {post : Unit → Host → Prop} {fault : Fault → Host → Prop}
    (h : runStep c s = (.ok (), s', ps)) (hw : wp c.action.program post fault ⟨s, c.env, []⟩) :
    ∃ t, post () t ∧ t.swim = s' ∧ t.sent = ps := by
  simp only [runStep, Prod.mk.injEq] at h
  exact ⟨_, wp_ok hw (Prod.ext h.1 rfl), h.2.1, h.2.2⟩

/-- A call in which no fault is possible returns. -/
theorem runStep_total {post : Unit → Host → Prop}
    (hw : wp c.action.program post (fun _ _ => False) ⟨s, c.env, []⟩) :
    ∃ t, post () t ∧ runStep c s = (.ok (), t.swim, t.sent) := by
  obtain ⟨_, t, hexec, ht⟩ := wp_total.mp hw
  exact ⟨t, ht, by simp [runStep, hexec]⟩

theorem returns_of_ok (h : (runStep c s).1 = .ok ()) : Returns s c (runStep c s).2.1 :=
  ⟨(runStep c s).2.2, Prod.ext h rfl⟩

theorem runStep_wf (hwf : s.WellFormed) (c : Call) : (runStep c s).2.1.WellFormed :=
  (account hwf rfl).wf

theorem Returns.wf (h : Returns s c s') (hwf : s.WellFormed) : s'.WellFormed :=
  have ⟨_, hps⟩ := h
  (account hwf hps).wf

variable {admitted : SWIM → Call → Prop}

theorem Run.call (h : Run Returns admitted s s') (c : Call) (ha : admitted s' c)
    (hok : (runStep c s').1 = .ok ()) : Run Returns admitted s (runStep c s').2.1 :=
  h.tail ha (returns_of_ok hok)

theorem wellFormed_of_run (h : Run Returns admitted s s') (hwf : s.WellFormed) : s'.WellFormed :=
  h.preserves (fun _ _ _ ht _ hstep => hstep.wf ht) hwf

end

/-! ## A concrete surrounding

Used to exhibit runs: a UUID for each last byte, and a libc with a standing clock.
-/

def Uuid.ofByte (b : UInt8) : Uuid := ⟨List.replicate 15 0 ++ [b], by simp⟩

/-- The clock stands at `now` and every allocation succeeds. -/
def steadyEnv (now : ℤ) : Env where
  rand _ := 0
  time _ := now
  malloc _ := true
  reallocOrder _ := true
  reallocView _ := some fun _ => NodeState.zero

theorem steadyEnv_allocates (now : ℤ) : (steadyEnv now).Allocates :=
  ⟨fun _ => rfl, fun _ => rfl, fun _ => rfl⟩

/-- A member at address `addr` hears of a node that joins. -/
def joinCall (b : UInt8) (addr : SockAddr) : Call :=
  ⟨steadyEnv 1000, .event ⟨⟨.ofByte b, 1000, 0⟩, .join (.ofByte b) .none, []⟩ addr⟩

/-- The node with last byte `b` acknowledges for itself. -/
def ackCall (b : UInt8) (incarnation : ℕ) (addr : SockAddr) : Call :=
  ⟨steadyEnv 1000, .event ⟨⟨.ofByte b, 1000, incarnation⟩, .ack (.ofByte b), []⟩ addr⟩

/-- The heartbeat of a node whose clock stands at `now`. -/
def heartbeatCall (now : ℤ) : Call := ⟨steadyEnv now, .heartbeat⟩

/-- The node with last byte `b` asks for an indirect probe of the node with last byte `target`. -/
def pingReqCall (b target : UInt8) (incarnation : ℕ) (addr : SockAddr) : Call :=
  ⟨steadyEnv 1000, .event ⟨⟨.ofByte b, 1000, incarnation⟩, .pingReq (.ofByte target), []⟩ addr⟩

/-- The node with last byte `b` sends a PING. -/
def pingCall (b : UInt8) (incarnation : ℕ) : Call :=
  ⟨steadyEnv 1000, .event ⟨⟨.ofByte b, 1000, incarnation⟩, .ping, []⟩ .none⟩

/-- The node with last byte `b` sends a PING with the gossip `g`. -/
def gossipCall (b : UInt8) (g : NodeInfo) : Call :=
  ⟨steadyEnv 1000, .event ⟨⟨.ofByte b, 1000, 0⟩, .ping, [g]⟩ .none⟩

/-- The view in every state of every run: it is sorted, has no duplicates and leaves out the
node itself, a search is a lookup, and an insertion finds its preconditions met. -/
theorem view_representation {uuid : Uuid} {now : ℤ} {s : SWIM}
    (h : Run Returns anyCall (swimStateInit uuid now) s) :
    s.viewSize ≤ s.viewCapacity ∧ s.members.length = s.viewSize ∧
      s.members.Pairwise (fun a b => uuidCompare a.info.uuid b.info.uuid = .lt) ∧
      (∀ node ∈ s.members, node.info.uuid ≠ s.uuid) ∧
      (∀ u i, s.getNode u = some i ↔ ∃ node, s.members[i]? = some node ∧ node.info.uuid = u) ∧
      (∀ u, s.getNode u = none ↔ ∀ node ∈ s.members, node.info.uuid ≠ u) ∧
      ∀ c a s' ps, runStep c s = (.error (.assertion a), s', ps) →
        a ≠ .addSelf ∧ a ≠ .addMember := by
  have hwf := wellFormed_of_run h (.init uuid now)
  refine ⟨hwf.size_le, hwf.members_length, ?_, hwf.self_notMem, fun u i => hwf.getNode_eq_some,
    fun u => hwf.getNode_eq_none.trans lookup_eq_none, ?_⟩
  · exact hwf.sorted.imp fun hlt => compare_lt_iff_lt.mpr hlt
  · intro c a s' ps hstep
    have hcause := (account hwf hstep).cause _ rfl
    constructor
    · rintro rfl
      exact hcause
    · rintro rfl
      exact hcause

/-- The nodes 4, 2 and 3 join in this order, and 4 a second time. -/
theorem view_representation_joined :
    let s := [4, 2, 3, 4].foldl (fun s b => (runStep (joinCall b .none) s).2.1)
      (swimStateInit (.ofByte 1) 1000)
    s.members.map (fun node => node.info.uuid) = [.ofByte 2, .ofByte 3, .ofByte 4] ∧
      s.members.Pairwise (fun a b => uuidCompare a.info.uuid b.info.uuid = .lt) ∧
      s.getNode (.ofByte 4) = some 2 := by
  intro s
  have hjoin : ∀ s b, Run Returns anyCall (swimStateInit (.ofByte 1) 1000) s →
      (runStep (joinCall b .none) s).1 = .ok () →
      Run Returns anyCall (swimStateInit (.ofByte 1) 1000) (runStep (joinCall b .none) s).2.1 :=
    fun s b hs hok => Run.call hs (joinCall b .none) trivial hok
  have hrun : Run Returns anyCall (swimStateInit (.ofByte 1) 1000) s :=
    hjoin _ 4 (hjoin _ 3 (hjoin _ 2 (hjoin _ 4 (Run.refl _) (by decide +kernel)) (by decide +kernel))
      (by decide +kernel)) (by decide +kernel)
  exact ⟨by decide +kernel, (view_representation hrun).2.2.1, by decide +kernel⟩

end LibSwim
