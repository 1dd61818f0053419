import Mathlib.Control.Monad.Writer
import Mathlib.Data.List.Basic
import Mathlib.Order.Defs.Unbundled
import Mathlib.Tactic.Common

/-! # Programs over a state that may stop with a fault

A program threads one state and either returns a value or stops with a fault; the
state reached is kept in both cases, so what a program did before it stopped is not
lost. Reasoning is by weakest preconditions with one postcondition for each outcome.
-/

namespace LibSwim.Foundations

/-- A computation on `σ` that returns an `α` or stops with an `ε`. -/
abbrev Program (σ ε α : Type) := ExceptT ε (StateM σ) α

namespace Program

variable {σ ε α β : Type}

/-- The outcome of a run together with the state it leaves behind. -/
def exec (m : Program σ ε α) (s : σ) : Except ε α × σ := m.run s

/-- The program stops with `e` unless `c` holds. -/
def require (e : ε) (c : Prop) [Decidable c] : Program σ ε Unit :=
  if c then pure () else throw e

/-- `post` holds of every normal outcome from `s`, and `fault` of every fault. -/
def wp (m : Program σ ε α) (post : α → σ → Prop) (fault : ε → σ → Prop) (s : σ) : Prop :=
  match m.exec s with
  | (.ok a, s') => post a s'
  | (.error e, s') => fault e s'

variable {post post' : α → σ → Prop} {fault fault' : ε → σ → Prop} {s : σ}

@[simp] theorem exec_pure (a : α) (s : σ) :
    exec (pure a : Program σ ε α) s = (.ok a, s) := rfl

@[simp] theorem exec_get (s : σ) : exec (get : Program σ ε σ) s = (.ok s, s) := rfl

@[simp] theorem exec_modify (f : σ → σ) (s : σ) :
    exec (modify f : Program σ ε Unit) s = (.ok (), f s) := rfl

theorem exec_require (e : ε) {c : Prop} [Decidable c] (h : c) (s : σ) :
    exec (require e c : Program σ ε Unit) s = (.ok (), s) := by
  rw [require, if_pos h, exec_pure]

theorem exec_bind (m : Program σ ε α) (f : α → Program σ ε β) (s : σ) :
    exec (m >>= f) s = match exec m s with
      | (.ok a, s') => exec (f a) s'
      | (.error e, s') => (.error e, s') := by
  change (ExceptT.bindCont f (exec m s).1).run (exec m s).2 = _
  rcases exec m s with ⟨_ | _, _⟩ <;> rfl

theorem exec_bind_ok {m : Program σ ε α} {f : α → Program σ ε β} {s s' : σ} {a : α}
    (h : exec m s = (.ok a, s')) : exec (m >>= f) s = exec (f a) s' := by
  rw [exec_bind, h]

theorem exec_bind_eq_ok {m : Program σ ε α} {f : α → Program σ ε β} {s s' : σ} {b : β} :
    exec (m >>= f) s = (.ok b, s') ↔ ∃ a t, exec m s = (.ok a, t) ∧ exec (f a) t = (.ok b, s') := by
  rw [exec_bind]
  rcases exec m s with ⟨_ | a, t⟩
  · simp
  · simp [and_assoc]

theorem exec_require_eq_ok {e : ε} {c : Prop} [Decidable c] {u : Unit} {s s' : σ} :
    exec (require e c : Program σ ε Unit) s = (.ok u, s') ↔ c ∧ s = s' := by
  by_cases hc : c
  · rw [exec_require e hc]
    simp [hc]
  · simp only [require, hc, false_and, iff_false]
    rintro ⟨⟩

/-- A weakest precondition says the same as a statement about every outcome. -/
theorem wp_iff {m : Program σ ε α} : wp m post fault s ↔
    (∀ a s', exec m s = (.ok a, s') → post a s') ∧
      ∀ e s', exec m s = (.error e, s') → fault e s' := by
  unfold wp
  rcases exec m s with ⟨_ | _, _⟩ <;> simp

theorem wp_ok {m : Program σ ε α} {a : α} {s' : σ} (h : wp m post fault s)
    (hm : exec m s = (.ok a, s')) : post a s' := (wp_iff.mp h).1 a s' hm

theorem wp_error {m : Program σ ε α} {e : ε} {s' : σ} (h : wp m post fault s)
    (hm : exec m s = (.error e, s')) : fault e s' := (wp_iff.mp h).2 e s' hm

/-- What holds of the state in either outcome holds of the state left behind. -/
theorem wp_final {m : Program σ ε α} {P : σ → Prop} (h : wp m (fun _ => P) (fun _ => P) s) :
    P (exec m s).2 := by
  unfold wp at h
  rcases hm : exec m s with ⟨_ | _, s'⟩
  · rwa [hm] at h
  · rwa [hm] at h

/-- With no fault allowed the program returns. -/
theorem wp_total {m : Program σ ε α} :
    wp m post (fun _ _ => False) s ↔ ∃ a s', exec m s = (.ok a, s') ∧ post a s' := by
  unfold wp
  rcases hm : exec m s with ⟨_ | a, s'⟩ <;> simp

theorem wp_mono {m : Program σ ε α} (h : wp m post fault s)
    (hp : ∀ a s', post a s' → post' a s') (hf : ∀ e s', fault e s' → fault' e s') :
    wp m post' fault' s := by
  rw [wp_iff] at h ⊢
  exact ⟨fun a s' hm => hp a s' (h.1 a s' hm), fun e s' hm => hf e s' (h.2 e s' hm)⟩

theorem wp_and {m : Program σ ε α} (h : wp m post fault s) (h' : wp m post' fault' s) :
    wp m (fun a t => post a t ∧ post' a t) (fun e t => fault e t ∧ fault' e t) s := by
  rw [wp_iff] at h h' ⊢
  exact ⟨fun a t hm => ⟨h.1 a t hm, h'.1 a t hm⟩, fun e t hm => ⟨h.2 e t hm, h'.2 e t hm⟩⟩

@[simp] theorem wp_pure (a : α) : wp (pure a : Program σ ε α) post fault s ↔ post a s := Iff.rfl

@[simp] theorem wp_throw (e : ε) : wp (throw e : Program σ ε α) post fault s ↔ fault e s := Iff.rfl

@[simp] theorem wp_get {post : σ → σ → Prop} :
    wp (get : Program σ ε σ) post fault s ↔ post s s := Iff.rfl

@[simp] theorem wp_modify {post : Unit → σ → Prop} (f : σ → σ) :
    wp (modify f : Program σ ε Unit) post fault s ↔ post () (f s) := Iff.rfl

@[simp] theorem wp_bind {post : β → σ → Prop} (m : Program σ ε α) (f : α → Program σ ε β) :
    wp (m >>= f) post fault s ↔ wp m (fun a s' => wp (f a) post fault s') fault s := by
  unfold wp
  rw [exec_bind]
  rcases exec m s with ⟨_ | _, _⟩ <;> rfl

@[simp] theorem wp_require {post : Unit → σ → Prop} (e : ε) (c : Prop) [Decidable c] :
    wp (require e c : Program σ ε Unit) post fault s ↔ if c then post () s else fault e s := by
  unfold require
  split_ifs <;> rfl

theorem wp_ite {c : Prop} [Decidable c] {m m' : Program σ ε α}
    (h : c → wp m post fault s) (h' : ¬ c → wp m' post fault s) :
    wp (if c then m else m') post fault s := by
  split_ifs with hc
  · exact h hc
  · exact h' hc

/-- A loop over a list keeps an invariant indexed by what is still to be done. -/
theorem wp_forM {γ : Type} {body : γ → Program σ ε PUnit} (inv : List γ → σ → Prop)
    {xs : List γ} (hbody : ∀ x rest t, x ∈ xs → inv (x :: rest) t →
      wp (body x) (fun _ t' => inv rest t') fault t) (h : inv xs s) :
    wp (forM xs body) (fun _ s' => inv [] s') fault s := by
  induction xs generalizing s with
  | nil => exact h
  | cons x xs ih =>
    rw [List.forM_cons, wp_bind]
    refine wp_mono (hbody x xs s (by simp) h) (fun _ t ht => ?_) (fun _ _ he => he)
    exact ih (fun y rest u hy => hbody y rest u (by simp [hy])) ht

/-- A loop over indices keeps an invariant indexed by how many are done. -/
theorem wp_forM_range {body : ℕ → Program σ ε PUnit} (inv : ℕ → σ → Prop) {n : ℕ}
    (hbody : ∀ k t, k < n → inv k t → wp (body k) (fun _ t' => inv (k + 1) t') fault t)
    (h : inv 0 s) : wp (forM (List.range n) body) (fun _ s' => inv n s') fault s := by
  refine wp_mono (wp_forM (fun rest t => ∃ k ≤ n, rest = (List.range n).drop k ∧ inv k t) ?_
    ⟨0, Nat.zero_le n, rfl, h⟩) ?_ fun _ _ hf => hf
  · rintro x rest t - ⟨k, hle, hrest, ht⟩
    have hk : k < n := by
      by_contra hge
      rw [List.drop_of_length_le (by simpa using hge)] at hrest
      cases hrest
    rw [List.drop_eq_getElem_cons (by simpa using hk), List.getElem_range] at hrest
    obtain ⟨rfl, rfl⟩ := List.cons.inj hrest
    exact wp_mono (hbody x t hk ht) (fun _ _ ht' => ⟨x + 1, hk, rfl, ht'⟩) fun _ _ hf => hf
  · rintro _ t ⟨k, hle, hrest, ht⟩
    have hge := List.drop_eq_nil_iff.mp hrest.symm
    rw [List.length_range] at hge
    rwa [Nat.le_antisymm hge hle]

/-- A loop that collects one result per element; `inv` relates the results so far to the state. -/
theorem wp_mapM {γ δ : Type} {body : γ → Program σ ε δ} (inv : List γ → List δ → σ → Prop)
    {xs : List γ} (hbody : ∀ x done out t, x ∈ xs → inv done out t →
      wp (body x) (fun d t' => inv (done ++ [x]) (out ++ [d]) t') fault t) (h : inv [] [] s) :
    wp (xs.mapM body) (fun out s' => inv xs out s') fault s := by
  suffices hgen : ∀ ys done out t, (∀ y ∈ ys, y ∈ xs) → inv done out t →
      wp (ys.mapM body) (fun out' t' => inv (done ++ ys) (out ++ out') t') fault t by
    simpa using hgen xs [] [] s (fun _ hy => hy) h
  intro ys
  induction ys with
  | nil => intro done out t _ ht; simpa using ht
  | cons y ys ih =>
    intro done out t hy ht
    simp only [List.mapM_cons, wp_bind, wp_pure]
    refine wp_mono (hbody y done out t (hy y (by simp)) ht) (fun d t' hd => ?_) (fun _ _ he => he)
    refine wp_mono (ih _ _ t' (fun z hz => hy z (by simp [hz])) hd) (fun out' u hu => ?_)
      (fun _ _ he => he)
    simpa using hu

/-! ## Programs that keep a relation -/

/-- A program that returns leaves a state related to the one it began in. -/
def Keeps (R : σ → σ → Prop) (m : Program σ ε α) : Prop :=
  ∀ s, wp m (fun _ s' => R s s') (fun _ _ => True) s

section

variable {R : σ → σ → Prop} {m m' : Program σ ε α} {f : α → Program σ ε β}

theorem Keeps.ok {a : α} {s s' : σ} (h : Keeps R m) (hm : exec m s = (.ok a, s')) : R s s' :=
  (wp_iff.mp (h s)).1 a s' hm

theorem Keeps.mono {R' : σ → σ → Prop} (h : Keeps R m) (hR : ∀ s s', R s s' → R' s s') :
    Keeps R' m := fun s => wp_mono (h s) (fun _ s' => hR s s') fun _ _ => id

theorem keeps_throw (e : ε) : Keeps R (throw e : Program σ ε α) := fun _ => trivial

theorem keeps_ite {c : Prop} [Decidable c] (h : c → Keeps R m) (h' : ¬ c → Keeps R m') :
    Keeps R (if c then m else m') := fun s => wp_ite (fun hc => h hc s) fun hc => h' hc s

variable [IsPreorder σ R]

theorem keeps_pure (a : α) : Keeps R (pure a : Program σ ε α) := fun s => refl_of R s

theorem keeps_get : Keeps R (get : Program σ ε σ) := fun s => refl_of R s

theorem Keeps.bind (h : Keeps R m) (h' : ∀ a, Keeps R (f a)) : Keeps R (m >>= f) := by
  intro s
  rw [wp_bind]
  refine wp_mono (h s) (fun a t ht => ?_) fun _ _ => id
  exact wp_mono (h' a t) (fun _ _ => trans_of R ht) fun _ _ => id

theorem keeps_require (e : ε) (c : Prop) [Decidable c] :
    Keeps R (require e c : Program σ ε Unit) := keeps_ite (fun _ => keeps_pure ()) fun _ => keeps_throw e

theorem keeps_forM {γ : Type} {body : γ → Program σ ε PUnit} (xs : List γ)
    (h : ∀ x, Keeps R (body x)) : Keeps R (forM xs body) := by
  induction xs with
  | nil => exact keeps_pure _
  | cons x xs ih =>
    rw [List.forM_cons]
    exact (h x).bind fun _ => ih

theorem keeps_mapM {γ δ : Type} {body : γ → Program σ ε δ} (xs : List γ)
    (h : ∀ x, Keeps R (body x)) : Keeps R (xs.mapM body) := by
  induction xs with
  | nil => exact keeps_pure _
  | cons x xs ih =>
    rw [List.mapM_cons]
    exact (h x).bind fun _ => ih.bind fun _ => keeps_pure _

end

/-! ## Programs that maintain an invariant -/

/-- However the program ends, the invariant holds if it held in the beginning. -/
def Maintains (I : σ → Prop) (m : Program σ ε α) : Prop :=
  ∀ s, I s → wp m (fun _ => I) (fun _ => I) s

section

variable {I : σ → Prop} {m m' : Program σ ε α} {f : α → Program σ ε β}

theorem maintains_pure (a : α) : Maintains I (pure a : Program σ ε α) := fun _ h => h

theorem maintains_throw (e : ε) : Maintains I (throw e : Program σ ε α) := fun _ h => h

theorem maintains_get : Maintains I (get : Program σ ε σ) := fun _ h => h

theorem maintains_modify {f : σ → σ} (h : ∀ s, I s → I (f s)) :
    Maintains I (modify f : Program σ ε Unit) := h

theorem maintains_ite {c : Prop} [Decidable c] (h : c → Maintains I m) (h' : ¬ c → Maintains I m') :
    Maintains I (if c then m else m') :=
  fun s hs => wp_ite (fun hc => h hc s hs) fun hc => h' hc s hs

theorem Maintains.bind (h : Maintains I m) (h' : ∀ a, Maintains I (f a)) : Maintains I (m >>= f) := by
  intro s hs
  rw [wp_bind]
  exact wp_mono (h s hs) (fun a t ht => h' a t ht) fun _ _ => id

theorem maintains_require (e : ε) (c : Prop) [Decidable c] :
    Maintains I (require e c : Program σ ε Unit) :=
  maintains_ite (fun _ => maintains_pure ()) fun _ => maintains_throw e

theorem maintains_forM {γ : Type} {body : γ → Program σ ε PUnit} (xs : List γ)
    (h : ∀ x, Maintains I (body x)) : Maintains I (forM xs body) := by
  induction xs with
  | nil => exact maintains_pure _
  | cons x xs ih =>
    rw [List.forM_cons]
    exact (h x).bind fun _ => ih

theorem maintains_mapM {γ δ : Type} {body : γ → Program σ ε δ} (xs : List γ)
    (h : ∀ x, Maintains I (body x)) : Maintains I (xs.mapM body) := by
  induction xs with
  | nil => exact maintains_pure _
  | cons x xs ih =>
    rw [List.mapM_cons]
    exact (h x).bind fun _ => ih.bind fun _ => maintains_pure _

end

end Program
end LibSwim.Foundations
