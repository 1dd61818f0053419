import LibSwim.Model.Network

/-! # Cluster operations

The functions of `swim/cluster.c`: joining, leaving, the heartbeat, and what it does with
nodes that have not been heard of.
-/

namespace LibSwim

open Foundations

def swimClusterJoin (addr : SockAddr) : SwimM Unit := do
  let event ← swimEventInit .join
  let swim ← getSwim
  swimSendEvent { event with body := .join swim.uuid .none } addr

/-- The union of the event stays as `swim_event_init` zeroed it. -/
def swimClusterLeave : SwimM Unit := do
  let swim ← getSwim
  if swim.viewSize = 0 then return
  let r ← rand
  let pos := r % swim.viewSize
  let event ← swimEventInit .leave
  forM (List.range (min swim.viewSize swimMaxleave)) fun i => do
    let node ← nodeAt ((pos + i) % swim.viewSize)
    swimSendEvent event node.info.addr

def NodeState.suspectDead (node : NodeState) : NodeState :=
  { node with info := { node.info with status := .suspect } }

/-- The values of `sent` in the loop of `swim_cluster_suspect_dead`: from `first` down to
`start + 1`. -/
def countdown (first start : ℕ) : List ℕ := (List.range (first - start)).map fun k => first - k

def swimClusterSuspectDead (target : ℕ) : SwimM Unit := do
  let swim ← getSwim
  if swim.viewSize = 0 then return
  let r ← rand
  let start := r % swim.viewSize
  let entry ← nodeAt target
  modifyNode target NodeState.suspectDead
  forM (countdown (min swim.viewSize swimMaxpingreq) start) fun sent => do
    let node ← nodeAt ((start + sent) % swim.viewSize)
    if node.info.status = .alive then swimSendPingReq entry.info.uuid node.info.addr

def swimClusterDeclareDead (target : ℕ) : SwimM Unit := modifyNode target NodeState.del

def NodeState.refute (node : NodeState) : NodeState :=
  swimNodeResetWitness { node with info := { node.info with status := .alive } }

def swimClusterRefutedDead (node : ℕ) : SwimM Unit := modifyNode node NodeState.refute

/-- One round of the loop that updates the state of the view. -/
def heartbeatMember (now : ℤ) (i : ℕ) : SwimM Unit := do
  let candidate ← nodeAt i
  match candidate.info.status with
  | .alive => if candidate.info.lastSeen ≤ now - 60 then swimClusterSuspectDead i
  | .suspect => if candidate.info.lastSeen ≤ now - 120 then swimClusterDeclareDead i
  | .dead | .unknown | .other _ => return

def swimClusterHeartbeat : SwimM Unit := do
  let now ← time
  let swim ← getSwim
  if 0 < swim.viewSize ∧ swim.lastHeartbeat + swimHeartbeatInterval < now then
    let target ← swimProbeNext
    modifySwim fun swim => { swim with lastHeartbeat := now }
    match target with
    | none => pure ()
    | some idx =>
      let node ← nodeAt idx
      swimSendPing node.info.addr
    forM (List.range swim.viewSize) (heartbeatMember now)

end LibSwim
