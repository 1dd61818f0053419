import Mathlib.Data.List.Basic
import Mathlib.Data.List.Nodup
import Mathlib.Tactic.Common

/-! # The Fisher-Yates shuffle

The positions of a list are settled from the last one down: each is exchanged with a position that
is not settled yet, the position itself included. The choices can be read off the result, and
every permutation of the list results from some choices.
-/

namespace LibSwim.Foundations

variable {α : Type}

/-- The item that is to stand at a position is not among those behind it. -/
theorem exists_choice {l l' : List α} {i : ℕ} (hl : l.Nodup) (hi : i < l.length)
    (hperm : l'.Perm l) (hsame : ∀ k, i < k → l'[k]? = l[k]?) : ∃ j ≤ i, l[j]? = l'[i]? := by
  have hi' : i < l'.length := by rwa [hperm.length_eq]
  obtain ⟨j, hj⟩ := List.mem_iff_getElem?.mp (hperm.subset (List.getElem_mem hi'))
  have hget : l[j]? = l'[i]? := by rw [hj, List.getElem?_eq_getElem hi']
  refine ⟨j, ?_, hget⟩
  by_contra hlt
  rw [← hsame j (by omega)] at hget
  have hij := (List.getElem?_inj hi' (hperm.nodup_iff.mpr hl)).mp hget.symm
  omega

variable [Inhabited α]

/-- The list with the items at two positions exchanged. -/
def exchange (l : List α) (i j : ℕ) : List α := (l.set i (l.getD j default)).set j (l.getD i default)

section

variable {l : List α} {i j k : ℕ}

@[simp] theorem exchange_length (l : List α) (i j : ℕ) : (exchange l i j).length = l.length := by
  simp [exchange]

theorem getElem?_exchange (hi : i < l.length) (hj : j < l.length) :
    (exchange l i j)[k]? = if k = j then l[i]? else if k = i then l[j]? else l[k]? := by
  simp only [exchange, List.getElem?_set, List.length_set, List.getD_eq_getElem?_getD]
  by_cases hkj : k = j
  · simp [hkj, hj, hi]
  · by_cases hki : k = i
    · subst hki
      simp [hi, hj, hkj, Ne.symm hkj]
    · simp [hkj, hki, Ne.symm hkj, Ne.symm hki]

theorem exchange_perm (hi : i < l.length) (hj : j < l.length) : (exchange l i j).Perm l := by
  simpa [exchange, hi, hj] using List.set_set_perm hi hj

end

/-- The positions from `i` down to `1` are settled, each with the choice made for it. -/
def shuffle (choice : ℕ → ℕ) : ℕ → List α → List α
  | 0, l => l
  | i + 1, l => shuffle choice i (exchange l (i + 1) (choice (i + 1)))

section

variable {choice choice' : ℕ → ℕ} {l l' : List α} {i j k : ℕ}

theorem shuffle_congr (h : ∀ j, 0 < j → j ≤ i → choice j = choice' j) :
    shuffle choice i l = shuffle choice' i l := by
  induction i generalizing l with
  | zero => rfl
  | succ i ih =>
    rw [shuffle, shuffle, h (i + 1) (by omega) (Nat.le_refl _)]
    exact ih fun j hpos hj => h j hpos (by omega)

variable (hc : ∀ j, choice j ≤ j)

include hc

theorem shuffle_perm (hi : i < l.length) : (shuffle choice i l).Perm l := by
  induction i generalizing l with
  | zero => exact .refl l
  | succ i ih =>
    have hchoice := hc (i + 1)
    have hlen : i < (exchange l (i + 1) (choice (i + 1))).length := by
      rw [exchange_length]
      omega
    exact (ih hlen).trans (exchange_perm hi (by omega))

/-- The positions behind are settled. -/
theorem getElem?_shuffle_of_lt (hi : i < l.length) (hk : i < k) :
    (shuffle choice i l)[k]? = l[k]? := by
  induction i generalizing l with
  | zero => rfl
  | succ i ih =>
    have hchoice := hc (i + 1)
    rw [shuffle, ih (by rw [exchange_length]; omega) (by omega),
      getElem?_exchange hi (by omega), if_neg (by omega), if_neg (by omega)]

/-- A position gets the item at the position chosen for it. -/
theorem getElem?_shuffle_self (hi : i + 1 < l.length) :
    (shuffle choice (i + 1) l)[i + 1]? = l[choice (i + 1)]? := by
  have hchoice := hc (i + 1)
  rw [shuffle, getElem?_shuffle_of_lt hc (by rw [exchange_length]; omega) (by omega),
    getElem?_exchange hi (by omega)]
  by_cases h : i + 1 = choice (i + 1)
  · rw [if_pos h, ← h]
  · rw [if_neg h, if_pos rfl]

/-- The choices can be read off the result, the last position first. -/
theorem shuffle_injective (hc' : ∀ j, choice' j ≤ j) (hl : l.Nodup) (hi : i < l.length)
    (h : shuffle choice i l = shuffle choice' i l) : ∀ j, 0 < j → j ≤ i → choice j = choice' j := by
  induction i generalizing l with
  | zero => omega
  | succ i ih =>
    have hle := hc (i + 1)
    have hle' := hc' (i + 1)
    have hlast : choice (i + 1) = choice' (i + 1) := by
      have hget := congrArg (·[i + 1]?) h
      simp only [getElem?_shuffle_self hc hi, getElem?_shuffle_self hc' hi] at hget
      rwa [List.getElem?_inj (by omega) hl] at hget
    rw [shuffle, shuffle, ← hlast] at h
    have hperm := exchange_perm hi (show choice (i + 1) < l.length by omega)
    intro j hpos hj
    by_cases hji : j = i + 1
    · rw [hji, hlast]
    · exact ih (hperm.nodup_iff.mpr hl) (by rw [exchange_length]; omega) h j hpos (by omega)

end

section

variable {l l' : List α} {i : ℕ}

/-- Every permutation that leaves the settled positions alone results from some choices. -/
theorem exists_shuffle_eq (hl : l.Nodup) (hi : i < l.length) (hperm : l'.Perm l)
    (hsame : ∀ k, i < k → l'[k]? = l[k]?) :
    ∃ choice : ℕ → ℕ, (∀ j, choice j ≤ j) ∧ shuffle choice i l = l' := by
  induction i generalizing l with
  | zero =>
    obtain ⟨j, hj, hget⟩ := exists_choice hl hi hperm hsame
    obtain rfl := Nat.le_zero.mp hj
    refine ⟨fun _ => 0, fun j => Nat.zero_le j, ?_⟩
    apply List.ext_getElem?
    intro k
    by_cases hk : k = 0
    · rw [hk, shuffle, hget]
    · exact (hsame k (by omega)).symm
  | succ i ih =>
    obtain ⟨j, hj, hget⟩ := exists_choice hl hi hperm hsame
    have hjl : j < l.length := by omega
    have hstep := exchange_perm hi hjl
    have hlen : i < (exchange l (i + 1) j).length := by
      rw [exchange_length]
      omega
    have hsettled : ∀ k, i < k → l'[k]? = (exchange l (i + 1) j)[k]? := by
      intro k hk
      rw [getElem?_exchange hi hjl]
      split_ifs with hkj hki
      · rw [show k = i + 1 by omega, ← hget, show j = i + 1 by omega]
      · rw [hki, hget]
      · exact hsame k (by omega)
    obtain ⟨choice, hchoice, hresult⟩ :=
      ih (hstep.nodup_iff.mpr hl) hlen (hperm.trans hstep.symm) hsettled
    -- the choice for this position is added to those for the positions before it
    refine ⟨Function.update choice (i + 1) j, fun k => ?_, ?_⟩
    · by_cases hk : k = i + 1
      · rw [hk, Function.update_self]
        exact hj
      · rw [Function.update_of_ne hk]
        exact hchoice k
    · rw [shuffle, Function.update_self, ← hresult]
      apply shuffle_congr
      intro k _ hk
      exact Function.update_of_ne (by omega) _ _

end

end LibSwim.Foundations
