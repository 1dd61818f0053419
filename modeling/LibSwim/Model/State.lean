import LibSwim.Model.Host

/-! # The state of a node

The functions of `swim/state.c`. What a function does to the entry a pointer designates is a
function on `NodeState` of its own.
-/

namespace LibSwim

open Foundations

/-- The record `swim_state_init` leaves, for the UUID and the time it was given. -/
def swimStateInit (uuid : Uuid) (now : ℤ) : SWIM where
  lastHeartbeat := now
  uuid := uuid
  incarnation := 0
  viewCapacity := 32
  viewSize := 0
  view := List.replicate 32 NodeState.zero
  probe := ⟨[], 0, 0⟩

def SWIM.getNode (swim : SWIM) (uuid : Uuid) : Option ℕ :=
  bsearch (nodeCompare uuid) swim.view swim.viewSize

def swimStateGetNode (uuid : Uuid) : SwimM (Option ℕ) := do return (← getSwim).getNode uuid

def NodeState.suspect (addr : SockAddr) (node : NodeState) : NodeState :=
  { node with info := { node.info with status := .suspect }, witness := addr }

def swimStateSuspect (uuid : Uuid) (addr : SockAddr) : SwimM (Option ℕ) := do
  match ← swimStateGetNode uuid with
  | none => return none
  | some node =>
    modifyNode node (NodeState.suspect addr)
    return some node

def NodeState.notice (time : ℤ) (incarnation : ℕ) (node : NodeState) : NodeState :=
  if node.info.incarnation < incarnation then
    { node with info := { node.info with
        incarnation := incarnation, status := .alive, lastSeen := time } }
  else if incarnation = node.info.incarnation then
    match node.info.status with
    | .unknown | .suspect =>
      { node with info := { node.info with status := .alive, lastSeen := time } }
    | .alive => { node with info := { node.info with lastSeen := time } }
    | .dead | .other _ => node
  else node -- stale

/-- The condition that `swim_state_notice` and `swim_process_gossip` assert. -/
def NodeInfo.Valid (info : NodeInfo) : Prop := 0 < info.lastSeen ∧ info.status ≠ .unknown

instance (info : NodeInfo) : Decidable info.Valid := inferInstanceAs (Decidable (_ ∧ _))

def swimStateNotice (uuid : Uuid) (time : ℤ) (incarnation : ℕ) : SwimM (Option ℕ) := do
  match ← swimStateGetNode uuid with
  | none => return none
  | some node =>
    let entry ← nodeAt node
    assert .noticeValid entry.info.Valid
    modifyNode node (NodeState.notice time incarnation)
    return some node

def swimProbeInvalidate : SwimM Unit :=
  modifySwim fun swim => { swim with probe := { swim.probe with size := 0 } }

/-- The block after `realloc` to twice its capacity, with `junk` in the slots gained. -/
def SWIM.grow (junk : ℕ → NodeState) (swim : SWIM) : SWIM :=
  { swim with
    view := swim.view ++ (List.range swim.viewCapacity).map junk
    viewCapacity := 2 * swim.viewCapacity }

/-- Make room for one more entry; `false` when the block could not grow. -/
def growView : SwimM Bool := do
  let swim ← getSwim
  if swim.viewCapacity ≤ swim.viewSize then
    match ← reallocView with
    | none => return false
    | some junk =>
      modifySwim (SWIM.grow junk)
      return true
  else return true

/-- Write `info` into the slot behind the view and sort. Only `info` of the slot is assigned. -/
def SWIM.insert (info : NodeInfo) (swim : SWIM) : SWIM :=
  { swim with
    view := qsort (fun node => node.info.uuid)
      (swim.view.modify swim.viewSize fun node => { node with info := info }) (swim.viewSize + 1)
    viewSize := swim.viewSize + 1 }

/-- The pointer returned is the one taken before the array was sorted. -/
def swimStateAdd (info : NodeInfo) : SwimM (Option ℕ) := do
  let swim ← getSwim
  assert .addSelf (uuidCompare info.uuid swim.uuid ≠ .eq)
  assert .addMember (swim.getNode info.uuid = none)
  if ← growView then
    modifySwim (SWIM.insert info)
    swimProbeInvalidate
    return some swim.viewSize
  else return none

def NodeState.merge (info : NodeInfo) (node : NodeState) : NodeState :=
  if node.info.incarnation < info.incarnation then
    swimNodeReset { node with info := { node.info with
      incarnation := info.incarnation, lastSeen := info.lastSeen, status := info.status } }
  else if info.incarnation = node.info.incarnation then
    match node.info.status with
    | .alive | .suspect =>
      if node.info.status.code < info.status.code then
        swimNodeReset { node with info := { node.info with
          status := info.status, lastSeen := info.lastSeen } }
      else if info.status = node.info.status ∧ node.info.lastSeen < info.lastSeen then
        { node with info := { node.info with lastSeen := info.lastSeen } }
      else node
    | .dead | .unknown => swimNodeReset node
    | .other _ => node
  else node -- stale

def swimStateMerge (info : NodeInfo) : SwimM Unit := do
  if uuidCompare info.uuid (← getSwim).uuid = .eq then return
  match ← swimStateGetNode info.uuid with
  | none => let _ ← swimStateAdd info
  | some node => modifyNode node (NodeState.merge info)

def NodeState.del (node : NodeState) : NodeState :=
  { node with info := { node.info with status := .dead } }

def swimStateDel (uuid : Uuid) : SwimM (Option ℕ) := do
  if uuidCompare uuid (← getSwim).uuid = .eq then return none
  match ← swimStateGetNode uuid with
  | none => return none
  | some node =>
    modifyNode node NodeState.del
    swimProbeInvalidate
    return some node

/-! ## The probe schedule -/

/-- Exchange two elements of the order array. -/
def swapAt (order : List ℕ) (i j : ℕ) : List ℕ := (order.set i (order.getD j 0)).set j (order.getD i 0)

/-- The Fisher-Yates loop from index `i` down to `1`. -/
def shuffleLoop : ℕ → List ℕ → SwimM (List ℕ)
  | 0, order => return order
  | i + 1, order => do
    let r ← rand
    shuffleLoop i (swapAt order (i + 1) (r % (i + 2)))

def swimProbeShuffle : SwimM Unit := do
  let n := (← getSwim).viewSize
  if n = 0 then
    modifySwim fun swim => { swim with probe := { swim.probe with size := 0, pos := 0 } }
  else if ← reallocOrder then
    let order ← shuffleLoop (n - 1) (List.range n)
    modifySwim fun swim => { swim with probe := ⟨order, 0, n⟩ }

/-- The loop of `swim_probe_next`; `fuel` is the number of positions left in the round. -/
def probeLoop : ℕ → SwimM (Option ℕ)
  | 0 => return none
  | fuel + 1 => do
    let swim ← getSwim
    match swim.probe.order[swim.probe.pos]? with
    | none => throw .outOfBounds
    | some idx =>
      modifySwim fun swim => { swim with probe := { swim.probe with pos := swim.probe.pos + 1 } }
      if idx < swim.viewSize then
        let node ← nodeAt idx
        if node.info.status ≠ .dead then return some idx else probeLoop fuel
      else probeLoop fuel

/-- `none` is the result `-1`. -/
def swimProbeNext : SwimM (Option ℕ) := do
  let swim ← getSwim
  if swim.viewSize = 0 then return none
  if swim.probe.size ≤ swim.probe.pos ∨ swim.probe.size ≠ swim.viewSize then swimProbeShuffle
  let swim ← getSwim
  probeLoop (swim.probe.size - swim.probe.pos)

end LibSwim
