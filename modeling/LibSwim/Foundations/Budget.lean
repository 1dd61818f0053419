import LibSwim.Foundations.Program
import Mathlib.Algebra.BigOperators.Group.Finset.Piecewise

/-! # Programs within a budget

A potential measures what the state is still worth. A program pays for what it does out of the credit
it is given and out of the potential it uses up; the sum of both never exceeds the budget, in the end
or where the program stops. Credit that is left is handed on to what comes next.
-/

namespace LibSwim.Foundations.Program

variable {σ ε α β : Type} {J : σ → Prop} {Φ : σ → ℕ} {B : ℕ}

/-- From a state that satisfies `J` and a credit of `k`, the program stays within the budget `B`, and
when it returns, `J` holds and the credit `k'` is left. -/
def Pays (J : σ → Prop) (Φ : σ → ℕ) (B k k' : ℕ) (m : Program σ ε α) : Prop :=
  ∀ s, J s → Φ s + k ≤ B → wp m (fun _ s' => J s' ∧ Φ s' + k' ≤ B) (fun _ s' => Φ s' ≤ B) s

variable {k k' k'' : ℕ} {m m' : Program σ ε α} {f : α → Program σ ε β}

theorem pays_pure (a : α) : Pays J Φ B k k (pure a : Program σ ε α) := fun _ hJ hk => ⟨hJ, hk⟩

theorem pays_throw (e : ε) : Pays J Φ B k k' (throw e : Program σ ε α) :=
  fun _ _ hk => Nat.le_trans (Nat.le_add_right _ _) hk

theorem Pays.bind (h : Pays J Φ B k k' m) (h' : ∀ a, Pays J Φ B k' k'' (f a)) :
    Pays J Φ B k k'' (m >>= f) := by
  intro s hJ hk
  rw [wp_bind]
  exact wp_mono (h s hJ hk) (fun a t ht => h' a t ht.1 ht.2) fun _ _ => id

theorem Pays.spend {l : ℕ} (h : Pays J Φ B k k' m) (hl : k ≤ l) : Pays J Φ B l k' m :=
  fun s hJ hk => h s hJ (by omega)

theorem Pays.keep {l : ℕ} (h : Pays J Φ B k k' m) (hl : l ≤ k') : Pays J Φ B k l m :=
  fun s hJ hk => wp_mono (h s hJ hk) (fun _ _ ht => ⟨ht.1, by omega⟩) fun _ _ => id

theorem pays_ite {c : Prop} [Decidable c] (h : c → Pays J Φ B k k' m) (h' : ¬ c → Pays J Φ B k k' m') :
    Pays J Φ B k k' (if c then m else m') :=
  fun s hJ hk => wp_ite (fun hc => h hc s hJ hk) fun hc => h' hc s hJ hk

theorem pays_forM {γ : Type} {body : γ → Program σ ε PUnit} (xs : List γ)
    (h : ∀ x ∈ xs, Pays J Φ B k k (body x)) : Pays J Φ B k k (forM xs body) := by
  induction xs with
  | nil => exact pays_pure _
  | cons x xs ih =>
    rw [List.forM_cons]
    exact (h x List.mem_cons_self).bind fun _ => ih fun y hy => h y (List.mem_cons_of_mem x hy)

/-- Every round takes the same. -/
theorem pays_forM_cost {γ : Type} {body : γ → Program σ ε PUnit} (xs : List γ) (c : ℕ)
    (h : ∀ x ∈ xs, ∀ k, Pays J Φ B (k + c) k (body x)) :
    Pays J Φ B (k + c * xs.length) k (forM xs body) := by
  induction xs with
  | nil => exact pays_pure _
  | cons x xs ih =>
    rw [List.forM_cons, List.length_cons, Nat.mul_succ, ← Nat.add_assoc]
    exact (h x List.mem_cons_self _).bind fun _ => ih fun y hy => h y (List.mem_cons_of_mem x hy)

end LibSwim.Foundations.Program

namespace LibSwim.Foundations

/-- A potential that is a sum over parts, of which one is replaced. -/
theorem sum_update_add {κ : Type} [DecidableEq κ] {K : Finset κ} {k : κ} (hk : k ∈ K) (f : κ → ℕ) (b : ℕ) :
    ∑ x ∈ K, Function.update f k b x + f k = ∑ x ∈ K, f x + b := by
  rw [Finset.sum_update_of_mem hk, Finset.sum_eq_add_sum_sdiff_singleton_of_mem hk f]
  omega

end LibSwim.Foundations
