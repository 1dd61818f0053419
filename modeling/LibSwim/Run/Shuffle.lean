import LibSwim.Run.Interface

/-! # The order of a round

`swim_probe_shuffle` is a Fisher-Yates shuffle of the indices of the members. What matters of the
values that `rand` returns is the choice each of them comes to, and the orders of a round are in
bijection with the choices.
-/

namespace LibSwim

open Foundations Program

/-- A choice for each position of `n` but the first: for position `i + 1` one of `0, …, i + 1`. -/
abbrev Choices (n : ℕ) := (i : Fin (n - 1)) → Fin (i + 2)

section

variable {n : ℕ}

/-- The choice for a position. -/
def Choices.at (c : Choices n) : ℕ → ℕ
  | 0 => 0
  | i + 1 => if h : i < n - 1 then c ⟨i, h⟩ else 0

/-- What the values of `rand` come to; the first of them is for the last position. -/
def reducedChoices (n : ℕ) (rand : ℕ → ℕ) : Choices n := fun i =>
  ⟨rand (n - 1 - (i + 1)) % (i + 2), Nat.mod_lt _ (by omega)⟩

theorem Choices.at_le (c : Choices n) (j : ℕ) : c.at j ≤ j := by
  cases j with
  | zero => exact Nat.le_refl 0
  | succ i =>
    rw [Choices.at]
    split_ifs with h
    · exact Nat.lt_succ_iff.mp (c ⟨i, h⟩).isLt
    · exact Nat.zero_le _

theorem Choices.ext_at {c c' : Choices n} (h : ∀ j, 0 < j → j ≤ n - 1 → c.at j = c'.at j) :
    c = c' := by
  funext i
  have hi := h (i + 1) (by omega) (by omega)
  simp only [Choices.at, i.isLt, dif_pos] at hi
  exact Fin.ext hi

/-- Every choice of positions is the choice of some `Choices`. -/
theorem exists_choices {choice : ℕ → ℕ} (h : ∀ j, choice j ≤ j) (n : ℕ) :
    ∃ c : Choices n, ∀ j, 0 < j → j ≤ n - 1 → c.at j = choice j := by
  refine ⟨fun i => ⟨choice (i + 1), Nat.lt_succ_of_le (h (i + 1))⟩, fun j hpos hj => ?_⟩
  obtain ⟨i, rfl⟩ := Nat.exists_eq_succ_of_ne_zero hpos.ne'
  exact dif_pos (Nat.lt_of_succ_le hj)

/-- The order that the choices lead to. -/
def shuffledOrder (c : Choices n) : {order : List ℕ // order.Perm (List.range n)} :=
  ⟨shuffle c.at (n - 1) (List.range n), by
    cases n with
    | zero => exact .refl _
    | succ n => exact shuffle_perm c.at_le (by simp)⟩

/-- Each order of the indices is reached by one sequence of choices. -/
theorem shuffledOrder_bijective (hn : 1 ≤ n) :
    Function.Bijective (shuffledOrder : Choices n → _) := by
  have hlen : n - 1 < (List.range n).length := by
    rw [List.length_range]
    omega
  constructor
  · intro c c' h
    apply Choices.ext_at
    exact shuffle_injective c.at_le c'.at_le List.nodup_range hlen (congrArg Subtype.val h)
  · rintro ⟨order, hperm⟩
    have hbehind : ∀ k, n - 1 < k → order[k]? = (List.range n)[k]? := by
      intro k hk
      rw [List.getElem?_eq_none, List.getElem?_eq_none]
      · rw [List.length_range]
        omega
      · rw [hperm.length_eq, List.length_range]
        omega
    obtain ⟨choice, hchoice, hresult⟩ := exists_shuffle_eq List.nodup_range hlen hperm hbehind
    obtain ⟨c, hc⟩ := exists_choices hchoice n
    refine ⟨c, Subtype.ext ?_⟩
    exact (shuffle_congr hc).trans hresult

end

section

variable {h : Host} {n : ℕ}

theorem swapAt_eq (order : List ℕ) (i j : ℕ) : swapAt order i j = exchange order i j := rfl

/-- The loop makes the exchanges of the shuffle, with the values of `rand` from the first one on. -/
theorem wp_shuffled {i : ℕ} {order : List ℕ} {fault : Fault → Host → Prop} :
    wp (shuffleLoop i order) (fun order' h' =>
      order' = shuffle (fun j => h.env.rand (i - j) % (j + 1)) i order ∧ h'.swim = h.swim)
      fault h := by
  induction i generalizing order h with
  | zero => exact ⟨rfl, rfl⟩
  | succ i ih =>
    simp only [shuffleLoop, rand, wp_bind, wp_get, wp_modify, wp_pure]
    refine wp_mono ih ?_ fun _ _ => id
    rintro order' h' ⟨rfl, hswim⟩
    refine ⟨?_, hswim⟩
    rw [shuffle, Nat.sub_self, swapAt_eq]
    apply shuffle_congr
    intro j _ hj
    rw [Nat.succ_sub hj]

theorem reducedChoices_at {rand : ℕ → ℕ} {j : ℕ} (hpos : 0 < j) (hj : j ≤ n - 1) :
    (reducedChoices n rand).at j = rand (n - 1 - j) % (j + 1) := by
  obtain ⟨i, rfl⟩ := Nat.exists_eq_succ_of_ne_zero hpos.ne'
  exact dif_pos (Nat.lt_of_succ_le hj)

/-- The order of the new round is the one that the choices lead to. -/
theorem wp_shuffleExact {fault : Fault → Host → Prop} (hpos : h.swim.viewSize ≠ 0)
    (halloc : h.env.reallocOrder 0 = true) :
    wp swimProbeShuffle (fun _ h' => h'.swim.probe =
      ⟨(shuffledOrder (reducedChoices h.swim.viewSize h.env.rand)).1, 0, h.swim.viewSize⟩)
      fault h := by
  simp only [swimProbeShuffle, reallocOrder, wp_bind, wp_getSwim, if_neg hpos, wp_get, wp_modify,
    wp_pure, halloc, if_true]
  have horder : (shuffledOrder (reducedChoices h.swim.viewSize h.env.rand)).1 =
      shuffle (fun j => h.env.rand (h.swim.viewSize - 1 - j) % (j + 1)) (h.swim.viewSize - 1)
        (List.range h.swim.viewSize) :=
    shuffle_congr fun j hj hle => reducedChoices_at hj hle
  refine wp_mono wp_shuffled ?_ fun _ _ => id
  rintro order h' ⟨rfl, -⟩
  rw [wp_modifySwim, horder]

end

/-- The shuffle is unbiased: whatever `rand` returns, the order of the new round is a permutation
of the indices, it depends on the choices alone, and each permutation is the order for exactly one
sequence of choices. -/
theorem shuffle_unbiased {n : ℕ} (hn : 1 ≤ n) :
    (∀ h : Host, h.swim.viewSize = n → h.env.reallocOrder 0 = true →
      ∃ h', exec swimProbeShuffle h = (.ok (), h') ∧ h'.swim.probe.order.Perm (List.range n) ∧
        h'.swim.probe = ⟨(shuffledOrder (reducedChoices n h.env.rand)).1, 0, n⟩) ∧
      Function.Bijective
        (shuffledOrder : Choices n → {order : List ℕ // order.Perm (List.range n)}) := by
  refine ⟨fun h hsize halloc => ?_, shuffledOrder_bijective hn⟩
  have hspec : wp swimProbeShuffle _ (fun _ _ => False) h := wp_shuffleExact (by omega) halloc
  obtain ⟨_, h', hexec, hprobe⟩ := wp_total.mp hspec
  rw [hsize] at hprobe
  refine ⟨h', hexec, ?_, hprobe⟩
  rw [hprobe]
  exact (shuffledOrder _).2

/-- A view of three members has six sequences of choices and six orders. -/
theorem shuffle_unbiased_three :
    let s := play (swimStateInit (.ofByte 1) 1000) [addCall 2, addCall 3, addCall 4]
    (∃ h', exec swimProbeShuffle ⟨s, steadyEnv 1000, []⟩ = (.ok (), h') ∧
      h'.swim.probe.order.Perm [0, 1, 2]) ∧
      Function.Bijective
        (shuffledOrder : Choices 3 → {order : List ℕ // order.Perm (List.range 3)}) := by
  intro s
  have hsize : s.viewSize = 3 := by decide +kernel
  have hshuffle := shuffle_unbiased (show 1 ≤ 3 by decide)
  obtain ⟨h', hexec, hperm, -⟩ := hshuffle.1 ⟨s, steadyEnv 1000, []⟩ hsize rfl
  exact ⟨⟨h', hexec, hperm⟩, hshuffle.2⟩

end LibSwim
