import Mathlib.Data.Prod.Lex
import Mathlib.Logic.Function.Basic
import Mathlib.Order.MinMax
import Mathlib.Order.WithBot

/-! # Tables that only grow

A table holds for every key the greatest rank heard for it, or nothing. Hearing an item raises
the rank of its key; what a list of items leaves behind depends on the set of items alone.
-/

namespace LibSwim.Foundations

variable {κ α R : Type} [DecidableEq κ] [LinearOrder R] (key : α → κ) (rank : α → R)

/-- Raise the rank of the item's key to that of the item. -/
def raise (t : κ → WithBot R) (a : α) : κ → WithBot R :=
  Function.update t (key a) (max (t (key a)) (rank a))

def raiseAll (t : κ → WithBot R) (as : List α) : κ → WithBot R := as.foldl (raise key rank) t

variable {key rank} {t : κ → WithBot R} {a : α} {as bs : List α} {k : κ} {r : WithBot R}

theorem raise_le_iff :
    raise key rank t a k ≤ r ↔ t k ≤ r ∧ (key a = k → (rank a : WithBot R) ≤ r) := by
  rw [raise, Function.update_apply]
  split_ifs with hk
  · subst hk
    simp
  · simp [Ne.symm hk]

theorem raiseAll_le_iff :
    raiseAll key rank t as k ≤ r ↔
      t k ≤ r ∧ ∀ a ∈ as, key a = k → (rank a : WithBot R) ≤ r := by
  induction as generalizing t with
  | nil => simp [raiseAll]
  | cons a as ih =>
    rw [raiseAll, List.foldl_cons]
    change raiseAll key rank (raise key rank t a) as k ≤ r ↔ _
    rw [ih, raise_le_iff, List.forall_mem_cons, and_assoc]

/-- The rank left for a key was there at the start or is that of an item. -/
theorem raiseAll_mem (t : κ → WithBot R) (as : List α) (k : κ) :
    raiseAll key rank t as k = t k ∨
      ∃ a ∈ as, key a = k ∧ raiseAll key rank t as k = rank a := by
  induction as generalizing t with
  | nil => exact .inl rfl
  | cons a as ih =>
    rcases ih (raise key rank t a) with h | ⟨b, hb, hk, h⟩
    · rw [raise, Function.update_apply] at h
      split_ifs at h with hk
      · subst hk
        rcases max_choice (t (key a)) (rank a) with hm | hm
        · exact .inl (h.trans hm)
        · exact .inr ⟨a, by simp, rfl, h.trans hm⟩
      · exact .inl h
    · exact .inr ⟨b, by simp [hb], hk, h⟩

/-- Order and repetition do not matter. -/
theorem raiseAll_congr (h : ∀ a, a ∈ as ↔ a ∈ bs) :
    raiseAll key rank t as = raiseAll key rank t bs := by
  funext k
  apply eq_of_forall_ge_iff
  intro r
  simp only [raiseAll_le_iff, h]

end LibSwim.Foundations
