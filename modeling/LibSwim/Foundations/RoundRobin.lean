import Mathlib.Data.List.Basic
import Mathlib.Data.List.Nodup
import Mathlib.Data.List.ReduceOption
import Mathlib.Data.Nat.ModEq
import Mathlib.Tactic.Common

/-! # Serving in rounds

A server works through a round, an arrangement of all its items. A turn serves the first item of
the round that is not to be skipped at that moment, and a turn that finds the round exhausted
begins a new one, in any order. An item that is never skipped waits for at most the rest of one
round and one whole round. A server that keeps no round may go around the items as around a ring.
-/

namespace LibSwim.Foundations

variable {α : Type}

/-- The first item that is not skipped, and the rest of the round behind it. -/
def scan (skip : α → Bool) : List α → Option α × List α
  | [] => (none, [])
  | a :: round => if skip a then scan skip round else (some a, round)

section

variable {skip : α → Bool} {round rest : List α} {a : α}

theorem scan_eq_none (h : ∀ a ∈ round, skip a = true) : scan skip round = (none, []) := by
  induction round with
  | nil => rfl
  | cons b round ih =>
    rw [scan, if_pos (h b (by simp))]
    exact ih fun a ha => h a (by simp [ha])

/-- What is served stands in the round, behind items that are skipped. -/
theorem scan_eq_some (h : scan skip round = (some a, rest)) :
    skip a = false ∧ ∃ passed, round = passed ++ a :: rest ∧ ∀ b ∈ passed, skip b = true := by
  induction round with
  | nil => cases h
  | cons b round ih =>
    rw [scan] at h
    split_ifs at h with hb
    · obtain ⟨ha, passed, rfl, hpassed⟩ := ih h
      refine ⟨ha, b :: passed, rfl, ?_⟩
      simpa [hb] using hpassed
    · cases h
      exact ⟨by simpa using hb, [], rfl, by simp⟩

theorem scan_cases (skip : α → Bool) (round : List α) :
    scan skip round = (none, []) ∧ (∀ a ∈ round, skip a = true) ∨
      ∃ a rest, scan skip round = (some a, rest) := by
  rcases h : scan skip round with ⟨_ | a, rest⟩
  · left
    induction round with
    | nil =>
      cases h
      simp
    | cons b round ih =>
      rw [scan] at h
      split_ifs at h with hb
      · obtain ⟨hrest, hskip⟩ := ih h
        exact ⟨hrest, by simpa [hb] using hskip⟩
      · cases h
  · exact .inr ⟨a, rest, rfl⟩

theorem scan_fst_eq_none : (scan skip round).1 = none ↔ ∀ a ∈ round, skip a = true := by
  constructor
  · intro h
    rcases scan_cases skip round with ⟨-, hskip⟩ | ⟨a, rest, hs⟩
    · exact hskip
    · rw [hs] at h
      cases h
  · intro h
    rw [scan_eq_none h]

theorem scan_length_lt (skip : α → Bool) (h : round ≠ []) :
    (scan skip round).2.length < round.length := by
  rcases scan_cases skip round with ⟨hs, -⟩ | ⟨a, rest, hs⟩
  · rw [hs]
    exact List.length_pos_of_ne_nil h
  · obtain ⟨-, passed, rfl, -⟩ := scan_eq_some hs
    simp only [hs, List.length_append, List.length_cons]
    omega

theorem scan_subset (skip : α → Bool) (round : List α) : (scan skip round).2 ⊆ round := by
  rcases scan_cases skip round with ⟨hs, -⟩ | ⟨b, rest, hs⟩
  · rw [hs]
    exact List.nil_subset round
  · obtain ⟨-, passed, rfl, -⟩ := scan_eq_some hs
    rw [hs]
    exact fun c hc => List.mem_append_right _ (List.mem_cons_of_mem b hc)

/-- What is served stands before everything that is served from the rest. -/
theorem scan_sublist {out : List (Option α)}
    (h : out.reduceOption.Sublist (scan skip round).2) :
    ((scan skip round).1 :: out).reduceOption.Sublist round := by
  rcases scan_cases skip round with ⟨hs, -⟩ | ⟨a, rest, hs⟩
  · rw [hs] at h ⊢
    rw [List.reduceOption_cons_of_none]
    exact h.trans (List.nil_sublist round)
  · obtain ⟨-, passed, rfl, -⟩ := scan_eq_some hs
    rw [hs] at h ⊢
    rw [List.reduceOption_cons_of_some]
    exact (h.cons_cons a).trans (List.sublist_append_right passed _)

/-- An item that is not skipped is served or stays in the round. -/
theorem mem_scan (ha : a ∈ round) (hskip : skip a = false) :
    (scan skip round).1 = some a ∨ a ∈ (scan skip round).2 := by
  rcases scan_cases skip round with ⟨-, h⟩ | ⟨b, rest, h⟩
  · simp [h a ha] at hskip
  · obtain ⟨-, passed, rfl, hpassed⟩ := scan_eq_some h
    rw [h]
    rcases List.mem_append.mp ha with ha | ha
    · simp [hpassed a ha] at hskip
    · rcases List.mem_cons.mp ha with rfl | ha
      · exact .inl rfl
      · exact .inr ha

end

/-- The items skipped in a turn, and the round it begins if the last one is exhausted. -/
structure Turn (α : Type) where
  skip : α → Bool
  fresh : List α

/-- What a turn serves, and the rest of the round. -/
def Turn.next (t : Turn α) (round : List α) : Option α × List α :=
  scan t.skip (if round.isEmpty then t.fresh else round)

theorem Turn.next_nil (t : Turn α) : t.next [] = scan t.skip t.fresh := rfl

theorem Turn.next_of_ne_nil (t : Turn α) {round : List α} (h : round ≠ []) :
    t.next round = scan t.skip round := by
  rw [next, if_neg (by simpa using h)]

/-- What the turns serve, in order. -/
def served : List (Turn α) → List α → List (Option α)
  | [], _ => []
  | t :: ts, round => (t.next round).1 :: served ts (t.next round).2

/-- No turn begins a new round. -/
def InRound : List (Turn α) → List α → Prop
  | [], _ => True
  | t :: ts, round => round ≠ [] ∧ InRound ts (t.next round).2

section

variable {t : Turn α} {ts : List (Turn α)} {round : List α} {a : α} {n : ℕ}

/-- A turn that finds the round exhausted acts on the round it begins. -/
theorem served_fresh (t : Turn α) (ts : List (Turn α)) :
    served (t :: ts) [] = served (t :: ts) t.fresh := by
  cases hf : t.fresh with
  | nil => rfl
  | cons a round => rw [served, served, t.next_nil, t.next_of_ne_nil (by simp), hf]

/-- With as many turns as the round has items left, each of them gets its turn. -/
theorem mem_served_of_mem (ha : a ∈ round) (hlen : round.length ≤ ts.length)
    (hskip : ∀ t ∈ ts, t.skip a = false) : some a ∈ served ts round := by
  induction ts generalizing round with
  | nil =>
    have hpos := List.length_pos_of_mem ha
    rw [List.length_nil] at hlen
    omega
  | cons t ts ih =>
    have hne : round ≠ [] := List.ne_nil_of_mem ha
    have hlt := scan_length_lt t.skip hne
    rw [List.length_cons] at hlen
    rw [served, t.next_of_ne_nil hne, List.mem_cons]
    rcases mem_scan ha (hskip t (by simp)) with hserved | hleft
    · exact .inl hserved.symm
    · exact .inr (ih hleft (by omega) fun u hu => hskip u (by simp [hu]))

/-- An item that is in no hurry: the rest of this round and one whole round are enough. -/
theorem mem_served (hfresh : ∀ t ∈ ts, a ∈ t.fresh ∧ t.fresh.length = n)
    (hlen : round.length + n ≤ ts.length) (hn : 0 < n) (hskip : ∀ t ∈ ts, t.skip a = false) :
    some a ∈ served ts round := by
  induction ts generalizing round with
  | nil =>
    rw [List.length_nil] at hlen
    omega
  | cons t ts ih =>
    by_cases hne : round = []
    · subst hne
      obtain ⟨ha, hlen'⟩ := hfresh t (by simp)
      rw [served_fresh]
      apply mem_served_of_mem ha _ hskip
      rwa [hlen', ← Nat.zero_add n]
    · have hlt := scan_length_lt t.skip hne
      rw [List.length_cons] at hlen
      rw [served, t.next_of_ne_nil hne, List.mem_cons]
      right
      apply ih (fun u hu => hfresh u (by simp [hu])) (by omega)
      exact fun u hu => hskip u (by simp [hu])

/-- Within a round the items are served in the order of the round. -/
theorem served_sublist (h : InRound ts round) : (served ts round).reduceOption.Sublist round := by
  induction ts generalizing round with
  | nil => exact List.nil_sublist round
  | cons t ts ih =>
    have hrest := ih h.2
    rw [served]
    rw [t.next_of_ne_nil h.1] at hrest ⊢
    exact scan_sublist hrest

/-- From the turn that begins a round to its end, no item is served twice. -/
theorem served_nodup (hround : round.Nodup) (hfresh : t.fresh.Nodup)
    (h : InRound ts (t.next round).2) : (served (t :: ts) round).reduceOption.Nodup := by
  have hitems : (if round.isEmpty then t.fresh else round).Nodup := by
    split_ifs
    · exact hfresh
    · exact hround
  exact hitems.sublist (scan_sublist (served_sublist h))

end

section

variable [DecidableEq α] {skip : α → Bool} {t : Turn α} {round : List α} {a : α} {n : ℕ}

/-- How many turns can pass in which `a`, one of `n` items, is not served: the items before it in the
round, or the rest of the round and those that may be before it in the next one. -/
def wait (a : α) (n : ℕ) (round : List α) : ℕ :=
  if a ∈ round then round.idxOf a else round.length + (n - 1)

theorem wait_le (ha : a ∈ round ∧ round.length = n ∨ round.length < n) :
    wait a n round ≤ 2 * n - 2 := by
  rw [wait]
  split_ifs with hmem
  · have hlt := List.idxOf_lt_length_of_mem hmem
    omega
  · rcases ha with ⟨hin, -⟩ | hlt
    · exact absurd hin hmem
    · omega

/-- An item that is not served comes nearer to the front. -/
theorem scan_idxOf_lt (ha : a ∈ round) (hskip : skip a = false) (hne : (scan skip round).1 ≠ some a) :
    a ∈ (scan skip round).2 ∧ (scan skip round).2.idxOf a < round.idxOf a := by
  refine ⟨(mem_scan ha hskip).resolve_left hne, ?_⟩
  rcases scan_cases skip round with ⟨-, hall⟩ | ⟨b, rest, hs⟩
  · simp [hall a ha] at hskip
  · obtain ⟨-, passed, rfl, hpassed⟩ := scan_eq_some hs
    rw [hs] at hne ⊢
    have hb : b ≠ a := fun hba => hne (congrArg some hba)
    have hmem : a ∉ passed := fun hin => by simp [hpassed a hin] at hskip
    change rest.idxOf a < (passed ++ b :: rest).idxOf a
    rw [List.idxOf_append_of_notMem hmem, List.idxOf_cons_ne rest hb]
    omega

/-- A turn that does not serve the item, and would not skip it, shortens its wait. -/
theorem Turn.wait_lt (hfresh : a ∈ t.fresh ∧ t.fresh.length = n) (hskip : t.skip a = false)
    (hne : (t.next round).1 ≠ some a) : wait a n (t.next round).2 < wait a n round := by
  by_cases hround : round = []
  · subst hround
    rw [t.next_nil] at hne ⊢
    obtain ⟨hmem, hlt⟩ := scan_idxOf_lt hfresh.1 hskip hne
    have hidx := List.idxOf_lt_length_of_mem hfresh.1
    rw [wait, if_pos hmem, wait, if_neg (List.not_mem_nil), List.length_nil]
    omega
  · rw [t.next_of_ne_nil hround] at hne ⊢
    by_cases ha : a ∈ round
    · obtain ⟨hmem, hlt⟩ := scan_idxOf_lt ha hskip hne
      rwa [wait, if_pos hmem, wait, if_pos ha]
    · have hrest : a ∉ (scan t.skip round).2 := fun hin => ha (scan_subset t.skip round hin)
      have hlen := scan_length_lt t.skip hround
      rw [wait, if_neg hrest, wait, if_neg ha]
      omega

end

/-- No position of a ring comes twice in a stretch that is no longer than the ring. -/
theorem nodup_window {offsets : List ℕ} {n : ℕ} (first start : ℕ) (h : offsets.Nodup)
    (hw : ∀ a ∈ offsets, first ≤ a ∧ a < first + n) :
    (offsets.map fun a => (start + a) % n).Nodup := by
  apply List.Nodup.map_on _ h
  intro a ha b hb hab
  obtain ⟨ha, ha'⟩ := hw a ha
  obtain ⟨hb, hb'⟩ := hw b hb
  have hmod : a ≡ b [MOD n] := Nat.ModEq.add_left_cancel' _ hab
  have hlt : |(b : ℤ) - a| < n := by
    rw [abs_lt]
    omega
  exact hmod.eq_of_abs_lt hlt

end LibSwim.Foundations
