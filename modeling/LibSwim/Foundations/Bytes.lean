import Mathlib.Algebra.Order.Ring.Int
import Mathlib.Data.List.Basic
import Mathlib.Tactic.Positivity
import Mathlib.Tactic.Zify

/-! # Integers as bytes

Unsigned integers of `n` bytes in both byte orders, signed integers as their two's complement,
and the replacement of bytes in the middle of a buffer.
-/

namespace LibSwim.Foundations

/-- The `n` low bytes of `v`, the least significant first. -/
def leBytes : ℕ → ℕ → List UInt8
  | 0, _ => []
  | n + 1, v => UInt8.ofNat v :: leBytes n (v / 256)

def leValue : List UInt8 → ℕ
  | [] => 0
  | b :: bs => b.toNat + 256 * leValue bs

/-- The `n` low bytes of `v`, the most significant first. -/
def beBytes (n v : ℕ) : List UInt8 := (leBytes n v).reverse

def beValue (bs : List UInt8) : ℕ := leValue bs.reverse

/-- The two's complement of `z` in `n` bytes, read as unsigned. -/
def unsigned (n : ℕ) (z : ℤ) : ℕ := (z % 256 ^ n).toNat

/-- The signed integer with the two's complement `v` in `n` bytes. -/
def signed (n v : ℕ) : ℤ := Int.bmod v (256 ^ n)

/-- The buffer with `new` written over it from `pos` on. -/
def overwrite (pos : ℕ) (new bs : List UInt8) : List UInt8 :=
  bs.take pos ++ new ++ bs.drop (pos + new.length)

variable {n v : ℕ} {bs : List UInt8}

@[simp] theorem leBytes_length (n v : ℕ) : (leBytes n v).length = n := by
  induction n generalizing v with
  | zero => rfl
  | succ n ih => simp [leBytes, ih]

@[simp] theorem beBytes_length (n v : ℕ) : (beBytes n v).length = n := by simp [beBytes]

theorem leValue_leBytes (n v : ℕ) : leValue (leBytes n v) = v % 256 ^ n := by
  induction n generalizing v with
  | zero => simp [leBytes, leValue, Nat.mod_one]
  | succ n ih =>
    rw [leBytes, leValue, ih, pow_succ', Nat.mod_mul]
    simp

theorem beValue_beBytes (n v : ℕ) : beValue (beBytes n v) = v % 256 ^ n := by
  rw [beValue, beBytes, List.reverse_reverse, leValue_leBytes]

/-- The bytes are determined by their value and their number. -/
theorem leBytes_leValue (bs : List UInt8) : leBytes bs.length (leValue bs) = bs := by
  induction bs with
  | nil => rfl
  | cons b bs ih =>
    have hb := b.toNat_lt
    have hlow : UInt8.ofNat (b.toNat + 256 * leValue bs) = b := by
      rw [← UInt8.toNat_inj, UInt8.toNat_ofNat']
      omega
    have hhigh : (b.toNat + 256 * leValue bs) / 256 = leValue bs := by omega
    rw [List.length_cons, leBytes, leValue, hlow, hhigh, ih]

theorem beBytes_beValue (h : bs.length = n) : beBytes n (beValue bs) = bs := by
  rw [beBytes, beValue, ← h, ← List.length_reverse, leBytes_leValue, List.reverse_reverse]

theorem leValue_lt (bs : List UInt8) : leValue bs < 256 ^ bs.length := by
  induction bs with
  | nil => simp [leValue]
  | cons b bs ih =>
    have hb := b.toNat_lt
    rw [leValue, List.length_cons, pow_succ']
    omega

theorem beValue_lt (bs : List UInt8) : beValue bs < 256 ^ bs.length := by
  simpa [beValue] using leValue_lt bs.reverse

theorem leBytes_append (n m v : ℕ) :
    leBytes (n + m) v = leBytes n v ++ leBytes m (v / 256 ^ n) := by
  induction n generalizing v with
  | zero => simp [leBytes]
  | succ n ih =>
    rw [show n + 1 + m = (n + m) + 1 by omega, leBytes, ih, leBytes, List.cons_append,
      Nat.div_div_eq_div_mul, ← pow_succ']

/-- The last `n` bytes in network order are the low ones. -/
theorem beBytes_drop (n m v : ℕ) : (beBytes (n + m) v).drop m = beBytes n v := by
  rw [beBytes, leBytes_append, List.reverse_append, List.drop_left' (by simp), beBytes]

theorem leValue_append_zeros (bs : List UInt8) (k : ℕ) :
    leValue (bs ++ List.replicate k 0) = leValue bs := by
  induction bs with
  | nil =>
    induction k with
    | zero => rfl
    | succ k ih =>
      rw [List.nil_append] at ih ⊢
      simp [List.replicate_succ, leValue, ih]
  | cons b bs ih => rw [List.cons_append, leValue, ih, leValue]

theorem beValue_zeros_append (k : ℕ) (bs : List UInt8) :
    beValue (List.replicate k 0 ++ bs) = beValue bs := by
  rw [beValue, List.reverse_append, List.reverse_replicate, leValue_append_zeros, beValue]

/-- A signed integer in range is recovered from its two's complement. -/
theorem signed_unsigned {z : ℤ} (hl : -(256 ^ n) ≤ 2 * z) (hu : 2 * z < 256 ^ n) :
    signed n (unsigned n z) = z := by
  have hpos : (0 : ℤ) < 256 ^ n := by positivity
  have hcast : ((256 ^ n : ℕ) : ℤ) = 256 ^ n := by push_cast; rfl
  rw [signed, unsigned, Int.toNat_of_nonneg (Int.emod_nonneg z hpos.ne'), ← hcast, Int.emod_bmod]
  rw [Int.bmod_def, hcast]
  rcases lt_or_ge z 0 with hz | hz
  · have hmod : z % 256 ^ n = z + 256 ^ n := by
      rw [← Int.add_emod_right, Int.emod_eq_of_lt (by omega) (by omega)]
    rw [hmod]
    split_ifs <;> omega
  · rw [Int.emod_eq_of_lt hz (by omega)]
    split_ifs <;> omega

theorem signed_eq (h : v < 256 ^ n) :
    signed n v = if 2 * v < 256 ^ n then (v : ℤ) else v - (256 ^ n : ℕ) := by
  have hmod : (v : ℤ) % (256 ^ n : ℕ) = v := by
    rw [← Int.natCast_emod, Nat.mod_eq_of_lt h]
  rw [signed, Int.bmod_def, hmod]
  split_ifs <;> omega

theorem signed_of_lt (h : 2 * v < 256 ^ n) : signed n v = v := by
  rw [signed_eq (by omega), if_pos h]

theorem signed_nonneg_iff (h : v < 256 ^ n) : 0 ≤ signed n v ↔ 2 * v < 256 ^ n := by
  rw [signed_eq h]
  split_ifs <;> omega

theorem unsigned_lt (n : ℕ) (z : ℤ) : unsigned n z < 256 ^ n := by
  have hpos : (0 : ℤ) < 256 ^ n := by positivity
  have hlt := Int.emod_lt_of_pos z hpos
  have hnn := Int.emod_nonneg z hpos.ne'
  rw [unsigned]
  zify
  rwa [Int.toNat_of_nonneg hnn]

theorem unsigned_signed (h : v < 256 ^ n) : unsigned n (signed n v) = v := by
  have hcast : ((256 ^ n : ℕ) : ℤ) = 256 ^ n := by push_cast; rfl
  rw [unsigned, signed, ← hcast, Int.bmod_emod, ← Int.natCast_emod, Nat.mod_eq_of_lt h,
    Int.toNat_natCast]

end LibSwim.Foundations
