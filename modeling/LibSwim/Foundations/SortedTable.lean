import Mathlib.Data.List.Sort
import Mathlib.Logic.Function.Basic
import Mathlib.Tactic.Common
import Mathlib.Order.Compare

/-! # Arrays kept sorted by a key

The C library's `bsearch` on an array that is strictly increasing in its key, and the two
ways such an array changes: one entry is rewritten in place under the same key, or a fresh
entry is appended and the array sorted again. Read through `lookup`, the array is a finite
map and both changes are point updates of it.
-/

namespace LibSwim.Foundations

variable {α κ : Type}

/-- The loop of `bsearch`; `fuel` bounds the number of halvings. -/
def bsearchLoop (compar : α → Ordering) (base : List α) : ℕ → ℕ → ℕ → Option ℕ
  | 0, _, _ => none
  | fuel + 1, l, u =>
    if l < u then
      match base[(l + u) / 2]? with
      | none => none
      | some p =>
        match compar p with
        | .lt => bsearchLoop compar base fuel l ((l + u) / 2)
        | .gt => bsearchLoop compar base fuel ((l + u) / 2 + 1) u
        | .eq => some ((l + u) / 2)
    else none

/-- `bsearch` over the first `nmemb` entries of `base`; the result is the index of the entry. -/
def bsearch (compar : α → Ordering) (base : List α) (nmemb : ℕ) : Option ℕ :=
  bsearchLoop compar base nmemb 0 nmemb

theorem bsearchLoop_sound {compar : α → Ordering} {base : List α} {fuel l u i : ℕ}
    (h : bsearchLoop compar base fuel l u = some i) :
    l ≤ i ∧ i < u ∧ ∃ x, base[i]? = some x ∧ compar x = .eq := by
  induction fuel generalizing l u with
  | zero => simp [bsearchLoop] at h
  | succ fuel ih =>
    rw [bsearchLoop] at h
    split_ifs at h with hlu
    cases hp : base[(l + u) / 2]? with
    | none => simp [hp] at h
    | some p =>
      rw [hp] at h
      cases hc : compar p with
      | lt =>
        simp only [hc] at h
        obtain ⟨h1, h2, h3⟩ := ih h
        exact ⟨h1, by omega, h3⟩
      | gt =>
        simp only [hc] at h
        obtain ⟨h1, h2, h3⟩ := ih h
        exact ⟨by omega, h2, h3⟩
      | eq =>
        simp only [hc, Option.some.injEq] at h
        subst h
        exact ⟨by omega, by omega, p, hp, hc⟩

/-- Entries past the window are never inspected. -/
theorem bsearchLoop_take {compar : α → Ordering} {base : List α} {fuel l u n : ℕ} (hu : u ≤ n) :
    bsearchLoop compar (base.take n) fuel l u = bsearchLoop compar base fuel l u := by
  induction fuel generalizing l u with
  | zero => rfl
  | succ fuel ih =>
    unfold bsearchLoop
    by_cases hlu : l < u
    · rw [List.getElem?_take_of_lt (show (l + u) / 2 < n by omega), ih (by omega), ih hu]
    · simp [hlu]

variable [LinearOrder κ]

/-- Strictly increasing in the key, hence free of repeated keys. -/
def SortedBy (key : α → κ) (xs : List α) : Prop := xs.Pairwise fun a b => key a < key b

/-- The array read as a finite map. -/
def lookup (key : α → κ) (xs : List α) (k : κ) : Option α := xs.find? fun x => key x = k

section

variable {key : α → κ} {xs ys : List α} {x : α} {k : κ} {i j n : ℕ}

theorem SortedBy.key_lt (h : SortedBy key xs) {y : α} (hi : xs[i]? = some x)
    (hj : xs[j]? = some y) (hij : i < j) : key x < key y := by
  obtain ⟨hi', rfl⟩ := List.getElem?_eq_some_iff.mp hi
  obtain ⟨hj', rfl⟩ := List.getElem?_eq_some_iff.mp hj
  exact List.pairwise_iff_getElem.mp h i j hi' hj' hij

theorem SortedBy.index_unique (h : SortedBy key xs) {y : α} (hi : xs[i]? = some x)
    (hj : xs[j]? = some y) (hk : key x = key y) : i = j := by
  rcases lt_trichotomy i j with hlt | he | hgt
  · exact absurd hk (h.key_lt hi hj hlt).ne
  · exact he
  · exact absurd hk (h.key_lt hj hi hgt).ne'

theorem SortedBy.eq_of_key (h : SortedBy key xs) {y : α} (hx : x ∈ xs) (hy : y ∈ xs)
    (hk : key x = key y) : x = y := by
  obtain ⟨i, hi⟩ := List.mem_iff_getElem?.mp hx
  obtain ⟨j, hj⟩ := List.mem_iff_getElem?.mp hy
  obtain rfl := h.index_unique hi hj hk
  exact Option.some.inj (hi.symm.trans hj)

theorem mem_of_lookup (h : lookup key xs k = some x) : x ∈ xs ∧ key x = k :=
  ⟨List.mem_of_find?_eq_some h, by simpa using List.find?_some h⟩

theorem lookup_eq_none : lookup key xs k = none ↔ ∀ x ∈ xs, key x ≠ k := by
  simp [lookup, List.find?_eq_none]

theorem SortedBy.lookup_eq_some (h : SortedBy key xs) :
    lookup key xs k = some x ↔ x ∈ xs ∧ key x = k := by
  refine ⟨mem_of_lookup, fun ⟨hx, hk⟩ => ?_⟩
  cases hl : lookup key xs k with
  | none => exact absurd hk (lookup_eq_none.mp hl x hx)
  | some y =>
    obtain ⟨hy, hky⟩ := mem_of_lookup hl
    rw [h.eq_of_key hy hx (hky.trans hk.symm)]

/-- Keys are ordered as their positions are. -/
theorem SortedBy.index_lt (h : SortedBy key xs) {y : α} (hi : xs[i]? = some x)
    (hj : xs[j]? = some y) (hk : key x < key y) : i < j := by
  rcases lt_trichotomy i j with hlt | rfl | hgt
  · exact hlt
  · rw [hi, Option.some.injEq] at hj
    exact absurd hk (hj ▸ lt_irrefl _)
  · exact absurd (h.key_lt hj hi hgt) hk.not_gt

/-- The window `[l, u)` always holds the key, so a search cannot miss it. -/
theorem bsearchLoop_complete (h : SortedBy key xs) {fuel l u : ℕ} (hf : u - l ≤ fuel)
    (hl : l ≤ i) (hu : i < u) (hi : xs[i]? = some x) (hk : key x = k)
    (hx : u ≤ xs.length) :
    bsearchLoop (fun p => compare k (key p)) xs fuel l u = some i := by
  induction fuel generalizing l u with
  | zero => omega
  | succ fuel ih =>
    obtain ⟨p, hp⟩ : ∃ p, xs[(l + u) / 2]? = some p :=
      ⟨_, List.getElem?_eq_getElem (show (l + u) / 2 < xs.length by omega)⟩
    simp only [bsearchLoop, if_pos (show l < u by omega), hp]
    cases hc : compare k (key p) with
    | lt =>
      have him : i < (l + u) / 2 := h.index_lt hi hp (hk ▸ compare_lt_iff_lt.mp hc)
      exact ih (by omega) hl him (by omega)
    | gt =>
      have him : (l + u) / 2 < i := h.index_lt hp hi (hk ▸ compare_gt_iff_gt.mp hc)
      exact ih (by omega) him hu hx
    | eq =>
      exact congrArg some (h.index_unique hp hi ((compare_eq_iff_eq.mp hc).symm.trans hk.symm))

/-- On a sorted array `bsearch` finds exactly the entry that holds the key. -/
theorem bsearch_eq_some (h : SortedBy key (xs.take n)) (hn : n ≤ xs.length) :
    bsearch (fun p => compare k (key p)) xs n = some i ↔
      ∃ x, (xs.take n)[i]? = some x ∧ key x = k := by
  constructor
  · intro hb
    obtain ⟨-, hi, x, hx, hc⟩ := bsearchLoop_sound hb
    exact ⟨x, by rw [List.getElem?_take_of_lt hi, hx], (compare_eq_iff_eq.mp hc).symm⟩
  · rintro ⟨x, hx, hk⟩
    have hi : i < n := by
      have := (List.getElem?_eq_some_iff.mp hx).1
      simp only [List.length_take] at this
      omega
    have hc := bsearchLoop_complete h (show n - 0 ≤ n by omega) (Nat.zero_le i) hi hx hk
      (by simp [hn])
    rwa [bsearchLoop_take le_rfl] at hc

theorem bsearch_eq_none (h : SortedBy key (xs.take n)) (hn : n ≤ xs.length) :
    bsearch (fun p => compare k (key p)) xs n = none ↔ ∀ x ∈ xs.take n, key x ≠ k := by
  rw [Option.eq_none_iff_forall_ne_some]
  constructor
  · intro hb x hx hk
    obtain ⟨i, hi⟩ := List.mem_iff_getElem?.mp hx
    exact hb i ((bsearch_eq_some h hn).mpr ⟨x, hi, hk⟩)
  · intro hx i hb
    obtain ⟨x, hi, hk⟩ := (bsearch_eq_some h hn).mp hb
    exact hx x (List.mem_of_getElem? hi) hk

/-! ## The two changes -/

theorem SortedBy.modify {f : α → α} (h : SortedBy key xs) (hf : ∀ x, key (f x) = key x) :
    SortedBy key (xs.modify i f) := by
  rw [SortedBy, List.pairwise_iff_getElem] at h ⊢
  intro a b ha hb hab
  have hab' := h a b (by simpa using ha) (by simpa using hb) hab
  simp only [List.getElem_modify]
  split_ifs <;> simpa only [hf] using hab'

theorem mem_modify {f : α → α} {y : α} (hi : xs[i]? = some x) (hy : y ∈ xs.modify i f) :
    y = f x ∨ y ∈ xs := by
  obtain ⟨j, hj⟩ := List.mem_iff_getElem?.mp hy
  rw [List.getElem?_modify] at hj
  by_cases hij : i = j
  · subst hij
    simp only [hi, if_true, Option.map_eq_map, Option.map_some, Option.some.injEq] at hj
    exact .inl hj.symm
  · simp only [hij, if_false, Option.map_eq_map, Option.map_id_fun', id_eq] at hj
    exact .inr (List.mem_of_getElem? hj)

theorem modify_congr {f g : α → α} (hi : xs[i]? = some x) (hfg : f x = g x) :
    xs.modify i f = xs.modify i g := by
  apply List.ext_getElem?
  intro j
  rw [List.getElem?_modify, List.getElem?_modify]
  by_cases hj : i = j
  · subst hj
    simp [hi, hfg]
  · simp [hj]

/-- The entries before position `k` are rewritten: how far a loop over an array has come. -/
def mapBefore (f : α → α) (k : ℕ) (xs : List α) : List α :=
  xs.mapIdx fun j x => if j < k then f x else x

theorem getElem?_mapBefore (f : α → α) (k : ℕ) (xs : List α) (j : ℕ) :
    (mapBefore f k xs)[j]? = xs[j]?.map fun x => if j < k then f x else x := List.getElem?_mapIdx

theorem mapBefore_zero (f : α → α) (xs : List α) : mapBefore f 0 xs = xs := by
  apply List.ext_getElem?
  intro j
  simp [getElem?_mapBefore]

theorem modify_mapBefore (f : α → α) (k : ℕ) (xs : List α) :
    (mapBefore f k xs).modify k f = mapBefore f (k + 1) xs := by
  apply List.ext_getElem?
  intro j
  rw [List.getElem?_modify, getElem?_mapBefore, getElem?_mapBefore]
  cases xs[j]? with
  | none => rfl
  | some x =>
    rcases lt_trichotomy j k with hj | rfl | hj
    · simp [hj, hj.ne', hj.trans (Nat.lt_succ_self k)]
    · simp
    · simp [hj.ne, hj.not_gt, Nat.not_lt.mpr hj]

theorem mapBefore_length (f : α → α) (xs : List α) : mapBefore f xs.length xs = xs.map f := by
  apply List.ext_getElem?
  intro j
  rw [getElem?_mapBefore, List.getElem?_map]
  by_cases hj : j < xs.length
  · simp [hj]
  · simp [List.getElem?_eq_none (not_lt.mp hj)]

/-- Rewriting the entry at one position is a point update at its key. -/
theorem SortedBy.lookup_modify {f : α → α} (h : SortedBy key xs) (hf : ∀ x, key (f x) = key x)
    (hi : xs[i]? = some x) :
    lookup key (xs.modify i f) = Function.update (lookup key xs) (key x) (some (f x)) := by
  have hs := h.modify (i := i) hf
  funext k
  by_cases hk : k = key x
  · subst hk
    rw [Function.update_self, hs.lookup_eq_some]
    refine ⟨List.mem_of_getElem? (i := i) ?_, hf x⟩
    simp [hi]
  · rw [Function.update_of_ne hk]
    apply Option.ext
    intro y
    rw [hs.lookup_eq_some, h.lookup_eq_some]
    refine and_congr_left fun hky => ⟨fun hy => ?_, fun hy => ?_⟩
    · rcases mem_modify hi hy with rfl | hy
      · exact absurd (hky.symm.trans (hf x)) hk
      · exact hy
    · obtain ⟨j, hj⟩ := List.mem_iff_getElem?.mp hy
      have hij : i ≠ j := by
        rintro rfl
        exact hk (hky ▸ congrArg key (Option.some.inj (hj.symm.trans hi)))
      exact List.mem_of_getElem? (i := j) (by simp [hij, hj])

/-- The order `qsort` sorts by when it compares keys. -/
def NotAfter (key : α → κ) (a b : α) : Prop := compare (key a) (key b) ≠ .gt

instance (key : α → κ) : DecidableRel (NotAfter key) := fun _ _ => inferInstanceAs (Decidable (_ ≠ _))

theorem notAfter_iff {a b : α} : NotAfter key a b ↔ key a ≤ key b := compare_le_iff_le

/-- `qsort` of the first `nmemb` entries of `base`. -/
def qsort (key : α → κ) (base : List α) (nmemb : ℕ) : List α :=
  (base.take nmemb).insertionSort (NotAfter key) ++ base.drop nmemb

theorem qsort_length (base : List α) : (qsort key base n).length = base.length := by
  simp only [qsort, List.length_append, List.length_insertionSort, List.length_take,
    List.length_drop]
  omega

theorem sorted_insertionSort (h : xs.Pairwise fun a b => key a ≠ key b) :
    SortedBy key (xs.insertionSort (NotAfter key)) := by
  have : Std.Total (NotAfter key) := ⟨fun a b => by simpa only [notAfter_iff] using le_total _ _⟩
  have : IsTrans α (NotAfter key) :=
    ⟨fun a b c => by simpa only [notAfter_iff] using fun h h' => h.trans h'⟩
  have hle := List.pairwise_insertionSort (NotAfter key) xs
  have hne : (xs.insertionSort (NotAfter key)).Pairwise fun a b => key a ≠ key b :=
    ((List.perm_insertionSort (NotAfter key) xs).symm.pairwise_iff fun h => Ne.symm h).mp h
  exact (hle.and hne).imp fun h => lt_of_le_of_ne (notAfter_iff.mp h.1) h.2

/-- The first `n + 1` entries of the array after `x` was written behind the first `n`. -/
theorem sorted_append (h : SortedBy key xs) (hx : ∀ y ∈ xs, key y ≠ key x) :
    SortedBy key ((xs ++ [x]).insertionSort (NotAfter key)) := by
  apply sorted_insertionSort
  rw [List.pairwise_append]
  refine ⟨h.imp fun hlt => hlt.ne, List.pairwise_singleton _ _, ?_⟩
  intro y hy z hz
  rw [List.mem_singleton.mp hz]
  exact hx y hy

/-- Adding an entry under a fresh key is a point update at that key. -/
theorem SortedBy.lookup_append (h : SortedBy key xs) (hx : ∀ y ∈ xs, key y ≠ key x) :
    lookup key ((xs ++ [x]).insertionSort (NotAfter key)) =
      Function.update (lookup key xs) (key x) (some x) := by
  have hs := sorted_append h hx
  funext k
  by_cases hk : k = key x
  · subst hk
    rw [Function.update_self, hs.lookup_eq_some]
    simp
  · rw [Function.update_of_ne hk]
    apply Option.ext
    intro y
    rw [hs.lookup_eq_some, h.lookup_eq_some]
    apply and_congr_left
    intro hky
    have hyx : y ≠ x := fun hyx => hk (hky ▸ congrArg key hyx)
    simp [hyx]

theorem SortedBy.eq_of_perm (h : SortedBy key xs) (h' : SortedBy key ys) (hp : xs.Perm ys) :
    xs = ys := hp.eq_of_pairwise (fun _ _ _ _ hab hba => absurd hab hba.not_gt) h h'

/-- The array is the sorted one with the entry put in its place. -/
theorem SortedBy.insertionSort_append (h : SortedBy key xs) (hx : ∀ y ∈ xs, key y ≠ key x) :
    (xs ++ [x]).insertionSort (NotAfter key) = xs.orderedInsert (NotAfter key) x := by
  have hfixed : xs.insertionSort (NotAfter key) = xs :=
    List.Pairwise.insertionSort_eq (h.imp fun hlt => notAfter_iff.mpr hlt.le)
  have hcons : xs.orderedInsert (NotAfter key) x = (x :: xs).insertionSort (NotAfter key) := by
    rw [List.insertionSort_cons, hfixed]
  have hsorted : SortedBy key ((x :: xs).insertionSort (NotAfter key)) := by
    apply sorted_insertionSort
    exact List.pairwise_cons.mpr ⟨fun y hy => (hx y hy).symm, h.imp fun hlt => hlt.ne⟩
  rw [hcons]
  apply (sorted_append h hx).eq_of_perm hsorted
  exact (List.perm_insertionSort _ _).trans
    ((List.perm_append_singleton x xs).trans (List.perm_insertionSort _ _).symm)

/-- The last position of the sorted array holds the greatest key, whichever entry was new. -/
theorem last_insertionSort (h : SortedBy key xs) (hx : ∀ y ∈ xs, key y ≠ key x) :
    ∃ z, ((xs ++ [x]).insertionSort (NotAfter key))[xs.length]? = some z ∧
      (z = x ∨ z ∈ xs) ∧ ∀ y, y = x ∨ y ∈ xs → key y ≤ key z := by
  have hs := sorted_append h hx
  have hlen : xs.length < ((xs ++ [x]).insertionSort (NotAfter key)).length := by simp
  refine ⟨_, List.getElem?_eq_getElem hlen, ?_, ?_⟩
  · have hm := List.getElem_mem hlen
    rw [List.mem_insertionSort] at hm
    simpa [or_comm] using hm
  · intro y hy
    have hm : y ∈ (xs ++ [x]).insertionSort (NotAfter key) := by
      rw [List.mem_insertionSort]
      simpa [or_comm] using hy
    obtain ⟨j, hj, rfl⟩ := List.mem_iff_getElem.mp hm
    have hj' : j ≤ xs.length := by simpa [Nat.lt_succ_iff] using hj
    rcases Nat.lt_or_eq_of_le hj' with hlt | rfl
    · exact (List.pairwise_iff_getElem.mp hs j xs.length hj hlen hlt).le
    · exact le_rfl

end

end LibSwim.Foundations
