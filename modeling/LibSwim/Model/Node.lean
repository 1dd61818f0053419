import LibSwim.Foundations.SortedTable
import Mathlib.Data.List.Lex

/-! # Nodes

The records of `swim/node.h` and the functions of `swim/node.c`. An address is kept as the
first `addrlen` bytes of its `sockaddr_storage`: no function of the program looks at the
others. Its length is not bounded by the storage here, since the decoder does not bound it.
-/

namespace LibSwim

/-- The sixteen bytes of a `uuid_t`. -/
structure Uuid where
  bytes : List UInt8
  length_eq : bytes.length = 16

namespace Uuid

/-- The byte values that `uuid_compare` orders lexicographically. -/
def digits (u : Uuid) : List ℕ := u.bytes.map UInt8.toNat

theorem digits_injective : Function.Injective digits := by
  rintro ⟨a, ha⟩ ⟨b, hb⟩ h
  have : a = b := List.map_injective_iff.mpr (fun x y hxy => UInt8.toNat_inj.mp hxy) h
  subst this
  rfl

instance : LinearOrder Uuid := LinearOrder.lift' digits digits_injective

/-- What `memset` leaves in a `uuid_t`. -/
def zero : Uuid := ⟨List.replicate 16 0, rfl⟩

instance : Inhabited Uuid := ⟨zero⟩

end Uuid

/-- `uuid_compare` of libuuid: the lexicographic order of the sixteen bytes. -/
def uuidCompare (a b : Uuid) : Ordering := compare a b

theorem uuidCompare_eq {a b : Uuid} : uuidCompare a b = .eq ↔ a = b := compare_eq_iff_eq

/-- Status of a node. The C enumeration is open: the decoder stores any 16-bit code in it,
and `other n` is the code `n + 4`. -/
inductive Status where
  | unknown
  | alive
  | suspect
  | dead
  | other (n : ℕ)
  deriving DecidableEq, Inhabited

namespace Status

def code : Status → ℕ
  | unknown => 0
  | alive => 1
  | suspect => 2
  | dead => 3
  | other n => n + 4

def ofCode : ℕ → Status
  | 0 => unknown
  | 1 => alive
  | 2 => suspect
  | 3 => dead
  | n + 4 => other n

@[simp] theorem ofCode_code (s : Status) : ofCode s.code = s := by cases s <;> rfl

@[simp] theorem code_ofCode (n : ℕ) : (ofCode n).code = n := by
  unfold ofCode
  split <;> rfl

theorem code_injective : Function.Injective code :=
  Function.LeftInverse.injective ofCode_code

/-- The three states a member can properly be in. -/
def Known (s : Status) : Prop := s = alive ∨ s = suspect ∨ s = dead

instance (s : Status) : Decidable s.Known := inferInstanceAs (Decidable (_ ∨ _ ∨ _))

theorem Known.alive_or_suspect {s : Status} (h : s.Known) (hd : s ≠ dead) :
    s = alive ∨ s = suspect := by
  rcases h with hs | hs | hs
  · exact .inl hs
  · exact .inr hs
  · exact absurd hs hd

end Status

/-- A socket address: the meaningful bytes of a `sockaddr_storage` with its `addrlen`. -/
structure SockAddr where
  bytes : List UInt8
  deriving DecidableEq, Inhabited

def SockAddr.addrlen (a : SockAddr) : ℕ := a.bytes.length

/-- The all-zero address with `addrlen = 0`. -/
def SockAddr.none : SockAddr := ⟨[]⟩

structure NodeInfo where
  uuid : Uuid
  lastSeen : ℤ
  incarnation : ℕ
  status : Status
  addr : SockAddr
  deriving DecidableEq, Inhabited

structure NodeState where
  info : NodeInfo
  pingTime : ℤ
  suspectTime : ℤ
  witness : SockAddr
  deriving DecidableEq, Inhabited

/-- A slot that `calloc` zeroed. -/
def NodeState.zero : NodeState :=
  ⟨⟨Uuid.zero, 0, 0, .unknown, .none⟩, 0, 0, .none⟩

def swimNodeInit (uuid : Uuid) (addr : SockAddr) : NodeInfo :=
  ⟨uuid, 0, 0, .unknown, addr⟩

/-- Every field of `src` is copied, the address up to its `addrlen`. -/
def swimNodeCopy (src : NodeInfo) : NodeInfo :=
  ⟨src.uuid, src.lastSeen, src.incarnation, src.status, src.addr⟩

def swimNodeHasWitness (node : NodeState) : Prop := 0 < node.witness.addrlen

instance (node : NodeState) : Decidable (swimNodeHasWitness node) :=
  inferInstanceAs (Decidable (0 < _))

def swimNodeReset (node : NodeState) : NodeState :=
  { node with pingTime := 0, suspectTime := 0, witness := .none }

def swimNodeResetWitness (node : NodeState) : NodeState := { node with witness := .none }

/-- `node_compare` on the key of a search. -/
def nodeCompare (key : Uuid) (node : NodeState) : Ordering := uuidCompare key node.info.uuid

end LibSwim
