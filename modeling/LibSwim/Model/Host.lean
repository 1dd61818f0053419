import LibSwim.Foundations.Program
import LibSwim.Model.Event

/-! # The process that runs a node

The `SWIM` record of `swim/state.h` together with what the C code takes from its surroundings:
the values of `rand()` and `time()`, the outcome of every allocation, and the events handed to
`sendto`. A `NodeState *` is the index of its slot in the view.
-/

namespace LibSwim

open Foundations

structure ProbeSchedule where
  order : List ℕ
  pos : ℕ
  size : ℕ
  deriving DecidableEq, Inhabited

/-- The socket, its address and the server state are left out: no modelled function reads them. -/
structure SWIM where
  lastHeartbeat : ℤ
  uuid : Uuid
  incarnation : ℕ
  viewCapacity : ℕ
  viewSize : ℕ
  /-- The whole allocated block, of `viewCapacity` slots. -/
  view : List NodeState
  probe : ProbeSchedule
  deriving DecidableEq, Inhabited

/-- The entries that are in the view. -/
def SWIM.members (swim : SWIM) : List NodeState := swim.view.take swim.viewSize

/-- The assertions of the source, by the function they stand in. -/
inductive Assertion where
  | noticeValid
  | addSelf
  | addMember
  | gossipValid
  | joinValid
  | createCount
  | createSize
  | fillCount
  | encodeRoom
  | encodeVarlenRoom
  | encodeVarlenMax
  | decodeRoom
  | decodeVarlenRoom
  deriving DecidableEq

/-- The ways a call does not return. -/
inductive Fault where
  | assertion (a : Assertion)
  | nullDeref
  | outOfBounds
  | exit
  deriving DecidableEq

/-- What the calls into libc return, in the order of the calls. -/
structure Env where
  rand : ℕ → ℕ
  time : ℕ → ℤ
  /-- Whether `malloc` of an event succeeds. -/
  malloc : ℕ → Bool
  /-- Whether `realloc` of the probe order succeeds. -/
  reallocOrder : ℕ → Bool
  /-- `realloc` of the view: `none` for `NULL`, else what the slots gained happen to hold. -/
  reallocView : ℕ → Option (ℕ → NodeState)

structure Host where
  swim : SWIM
  env : Env
  sent : List Packet

abbrev SwimM := Program Host Fault

def getSwim : SwimM SWIM := do return (← get).swim

def modifySwim (f : SWIM → SWIM) : SwimM Unit := modify fun h => { h with swim := f h.swim }

/-- The head of a stream and the stream without it. -/
def rand : SwimM ℕ := do
  let h ← get
  modify fun h => { h with env := { h.env with rand := fun n => h.env.rand (n + 1) } }
  return h.env.rand 0

def time : SwimM ℤ := do
  let h ← get
  modify fun h => { h with env := { h.env with time := fun n => h.env.time (n + 1) } }
  return h.env.time 0

def malloc : SwimM Bool := do
  let h ← get
  modify fun h => { h with env := { h.env with malloc := fun n => h.env.malloc (n + 1) } }
  return h.env.malloc 0

def reallocOrder : SwimM Bool := do
  let h ← get
  modify fun h =>
    { h with env := { h.env with reallocOrder := fun n => h.env.reallocOrder (n + 1) } }
  return h.env.reallocOrder 0

def reallocView : SwimM (Option (ℕ → NodeState)) := do
  let h ← get
  modify fun h =>
    { h with env := { h.env with reallocView := fun n => h.env.reallocView (n + 1) } }
  return h.env.reallocView 0

/-- `sendto`; the datagram is what `swim_encode_event` makes of the event. -/
def sendto (event : Event) (dest : SockAddr) : SwimM Unit :=
  modify fun h => { h with sent := h.sent ++ [⟨event, dest⟩] }

/-- Dereference `&swim->view[i]`. -/
def nodeAt (i : ℕ) : SwimM NodeState := do
  match (← getSwim).view[i]? with
  | some node => pure node
  | none => throw .outOfBounds

/-- Assign through `&swim->view[i]`. -/
def SWIM.modifyNode (swim : SWIM) (i : ℕ) (f : NodeState → NodeState) : SWIM :=
  { swim with view := swim.view.modify i f }

def modifyNode (i : ℕ) (f : NodeState → NodeState) : SwimM Unit :=
  modifySwim fun swim => swim.modifyNode i f

def assert (a : Assertion) (c : Prop) [Decidable c] : SwimM Unit :=
  Program.require (.assertion a) c

end LibSwim
