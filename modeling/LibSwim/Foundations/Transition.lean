import Mathlib.Algebra.BigOperators.Group.List.Basic
import Mathlib.Algebra.Ring.Nat
import Mathlib.Logic.Relation

/-! # Runs of a labelled transition system

A run takes any number of steps, each with a label that is admitted in the state it is taken
from. Properties of every state reached follow from what one admitted step preserves.
-/

namespace LibSwim.Foundations

variable {σ ℓ : Type} {step : σ → ℓ → σ → Prop} {admitted : σ → ℓ → Prop} {s s' s'' : σ}

/-- There is a run from the first state to the second. -/
def Run (step : σ → ℓ → σ → Prop) (admitted : σ → ℓ → Prop) : σ → σ → Prop :=
  Relation.ReflTransGen fun s s' => ∃ l, admitted s l ∧ step s l s'

namespace Run

theorem refl (s : σ) : Run step admitted s s := Relation.ReflTransGen.refl

theorem tail {l : ℓ} (h : Run step admitted s s') (ha : admitted s' l) (hs : step s' l s'') :
    Run step admitted s s'' := Relation.ReflTransGen.tail h ⟨l, ha, hs⟩

/-- What every admitted step preserves holds at the end of a run when it holds at its start. -/
theorem preserves {I : σ → Prop} (h : Run step admitted s s')
    (hstep : ∀ t l t', I t → admitted t l → step t l t' → I t') (hs : I s) : I s' := by
  induction h with
  | refl => exact hs
  | tail _ hlast ih =>
    obtain ⟨l, ha, hl⟩ := hlast
    exact hstep _ l _ ih ha hl

theorem trans (h : Run step admitted s s') (h' : Run step admitted s' s'') :
    Run step admitted s s'' := Relation.ReflTransGen.trans h h'

/-- A run is one of any system that admits more. -/
theorem weaken {admitted' : σ → ℓ → Prop} (h : Run step admitted s s')
    (hadmits : ∀ t l, admitted t l → admitted' t l) : Run step admitted' s s' := by
  induction h with
  | refl => exact refl s
  | tail _ hlast ih =>
    obtain ⟨l, ha, hl⟩ := hlast
    exact ih.tail (hadmits _ l ha) hl

/-- Forward simulation: when each admitted step is matched by a run of another system, so is
every run. -/
theorem simulates {τ κ : Type} {step' : τ → κ → τ → Prop} {admitted' : τ → κ → Prop}
    {R : σ → τ → Prop} {t : τ} (h : Run step admitted s s')
    (hstep : ∀ u l u' v, R u v → admitted u l → step u l u' →
      ∃ v', Run step' admitted' v v' ∧ R u' v') (hs : R s t) :
    ∃ t', Run step' admitted' t t' ∧ R s' t' := by
  induction h with
  | refl => exact ⟨t, refl t, hs⟩
  | tail _ hlast ih =>
    obtain ⟨v, hrun, hv⟩ := ih
    obtain ⟨l, ha, hl⟩ := hlast
    obtain ⟨v', hrun', hv'⟩ := hstep _ l _ v hv ha hl
    exact ⟨v', hrun.trans hrun', hv'⟩

end Run

/-- A run together with the labels of its steps. -/
inductive Trace (step : σ → ℓ → σ → Prop) (admitted : σ → ℓ → Prop) : σ → List ℓ → σ → Prop
  | nil (s : σ) : Trace step admitted s [] s
  | cons {s t u : σ} {l : ℓ} {ls : List ℓ} (ha : admitted s l) (hs : step s l t)
      (h : Trace step admitted t ls u) : Trace step admitted s (l :: ls) u

namespace Trace

variable {ls : List ℓ}

theorem preserves {I : σ → Prop} (h : Trace step admitted s ls s')
    (hstep : ∀ t l t', I t → admitted t l → step t l t' → I t') (hs : I s) : I s' := by
  induction h with
  | nil => exact hs
  | cons ha hl _ ih => exact ih (hstep _ _ _ hs ha hl)

/-- What the steps that cost nothing keep is kept along a run that costs nothing. -/
theorem preserves_of_free {I : σ → Prop} (cost : ℓ → ℕ) (h : Trace step admitted s ls s')
    (hfree : (ls.map cost).sum = 0) (hstep : ∀ t l t', I t → cost l = 0 → step t l t' → I t')
    (hs : I s) : I s' := by
  induction h with
  | nil => exact hs
  | cons _ hl _ ih =>
    rw [List.map_cons, List.sum_cons, Nat.add_eq_zero_iff] at hfree
    exact ih hfree.2 (hstep _ _ _ hs hfree.1 hl)

/-- What the steps cost is paid out of a potential, and out of what they bring in. -/
theorem cost_le_income {I : σ → Prop} (cost income : ℓ → ℕ) (potential : σ → ℕ)
    (h : Trace step admitted s ls s')
    (hstep : ∀ t l t', I t → admitted t l → step t l t' →
      I t' ∧ cost l + potential t' ≤ potential t + income l) (hs : I s) :
    (ls.map cost).sum + potential s' ≤ potential s + (ls.map income).sum := by
  induction h with
  | nil => simp
  | cons ha hl _ ih =>
    obtain ⟨hi, hle⟩ := hstep _ _ _ hs ha hl
    have hrest := ih hi
    rw [List.map_cons, List.sum_cons, List.map_cons, List.sum_cons]
    omega

theorem cost_le {I : σ → Prop} (cost : ℓ → ℕ) (potential : σ → ℕ)
    (h : Trace step admitted s ls s')
    (hstep : ∀ t l t', I t → admitted t l → step t l t' →
      I t' ∧ cost l + potential t' ≤ potential t) (hs : I s) :
    (ls.map cost).sum + potential s' ≤ potential s := by
  have hle := h.cost_le_income cost (fun _ => 0) potential hstep hs
  rwa [List.map_const', List.sum_replicate_nat, Nat.mul_zero] at hle

end Trace

/-- A run together with what its steps cost, where the cost of a step depends on the state too. -/
inductive Tally (step : σ → ℓ → σ → Prop) (admitted : σ → ℓ → Prop) (cost : σ → ℓ → ℕ) :
    σ → ℕ → σ → Prop
  | nil (s : σ) : Tally step admitted cost s 0 s
  | cons {s t u : σ} {l : ℓ} {k : ℕ} (ha : admitted s l) (hs : step s l t)
      (h : Tally step admitted cost t k u) : Tally step admitted cost s (cost s l + k) u

theorem Tally.add_le {I : σ → Prop} {cost : σ → ℓ → ℕ} {k : ℕ} (potential : σ → ℕ)
    (h : Tally step admitted cost s k s')
    (hstep : ∀ t l t', I t → admitted t l → step t l t' →
      I t' ∧ cost t l + potential t' ≤ potential t) (hs : I s) :
    k + potential s' ≤ potential s := by
  induction h with
  | nil => rw [Nat.zero_add]
  | cons ha hl _ ih =>
    obtain ⟨hi, hle⟩ := hstep _ _ _ hs ha hl
    have hrest := ih hi
    omega

end LibSwim.Foundations
