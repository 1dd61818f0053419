import LibSwim.View.Entries

/-! # The representation invariant of the view

The block has room for the view, the view is strictly increasing in the UUID, the node itself
is not in it, and the probe schedule, when there is one, is a permutation of its indices. Under
this invariant `swim_state_get_node` is the lookup of a finite map, and the two ways the code
changes the view, an assignment through a pointer and an insertion, are point updates of it.
-/

namespace LibSwim

open Foundations

namespace SWIM

/-- The schedule is empty or covers the whole view. -/
def ProbeOk (swim : SWIM) : Prop :=
  swim.probe.size = 0 ∨
    swim.probe.size = swim.viewSize ∧ swim.probe.order.Perm (List.range swim.viewSize)

structure WellFormed (swim : SWIM) : Prop where
  capacity_pos : 0 < swim.viewCapacity
  length_eq : swim.view.length = swim.viewCapacity
  size_le : swim.viewSize ≤ swim.viewCapacity
  sorted : SortedBy NodeState.uuid swim.members
  self_notMem : ∀ node ∈ swim.members, node.uuid ≠ swim.uuid
  probe_ok : swim.ProbeOk

/-- The slots behind the view. -/
def spare (swim : SWIM) : List NodeState := swim.view.drop swim.viewSize

/-- The entry that the view holds for a UUID. -/
def find (swim : SWIM) (u : Uuid) : Option NodeState := lookup NodeState.uuid swim.members u

variable {swim : SWIM} {node : NodeState} {u v : Uuid} {i : ℕ}

theorem ne_of_find (hn : swim.find u = some node) (hv : swim.find v = none) : u ≠ v := by
  rintro rfl
  rw [hv] at hn
  cases hn

/-! The view as an array, whatever it holds. -/

theorem length_members (h : swim.viewSize ≤ swim.view.length) :
    swim.members.length = swim.viewSize := by
  rw [members, List.length_take, Nat.min_eq_left h]

theorem exists_member (h : swim.viewSize ≤ swim.view.length) (hi : i < swim.viewSize) :
    ∃ node, swim.members[i]? = some node :=
  ⟨_, List.getElem?_eq_getElem (by rwa [length_members h])⟩

theorem lt_viewSize (hi : swim.members[i]? = some node) : i < swim.viewSize := by
  have hlt := (List.getElem?_eq_some_iff.mp hi).1
  rw [members, List.length_take] at hlt
  omega

namespace WellFormed

theorem init (uuid : Uuid) (now : ℤ) : (swimStateInit uuid now).WellFormed where
  capacity_pos := by simp [swimStateInit]
  length_eq := by simp [swimStateInit]
  size_le := by simp [swimStateInit]
  sorted := by simp [swimStateInit, members, SortedBy]
  self_notMem := by simp [swimStateInit, members]
  probe_ok := .inl rfl

theorem size_le_length (h : swim.WellFormed) : swim.viewSize ≤ swim.view.length := by
  rw [h.length_eq]
  exact h.size_le

theorem members_length (h : swim.WellFormed) : swim.members.length = swim.viewSize :=
  length_members h.size_le_length

theorem find_eq_some (h : swim.WellFormed) :
    swim.find u = some node ↔ node ∈ swim.members ∧ node.uuid = u := h.sorted.lookup_eq_some

theorem mem_iff_find (h : swim.WellFormed) :
    node ∈ swim.members ↔ swim.find node.uuid = some node := by simp [h.find_eq_some]

/-- An index below `view_size` designates a member. -/
theorem view_get (hi : swim.members[i]? = some node) : swim.view[i]? = some node := by
  have hlt : i < (swim.view.take swim.viewSize).length := (List.getElem?_eq_some_iff.mp hi).1
  rwa [members, List.getElem?_take_of_lt (by simp only [List.length_take] at hlt; omega)] at hi

theorem get_of_lt (h : swim.WellFormed) (hi : i < swim.viewSize) :
    ∃ node, swim.members[i]? = some node := exists_member h.size_le_length hi

theorem getNode_eq_some (h : swim.WellFormed) :
    swim.getNode u = some i ↔ ∃ node, swim.members[i]? = some node ∧ node.uuid = u :=
  bsearch_eq_some h.sorted h.size_le_length

theorem getNode_eq_none (h : swim.WellFormed) : swim.getNode u = none ↔ swim.find u = none :=
  (bsearch_eq_none h.sorted h.size_le_length).trans lookup_eq_none.symm

theorem find_of_get (h : swim.WellFormed) (hi : swim.members[i]? = some node) :
    swim.find node.uuid = some node :=
  h.mem_iff_find.mp (List.mem_of_getElem? hi)

theorem find_self (h : swim.WellFormed) : swim.find swim.uuid = none := by
  rw [find, lookup_eq_none]
  exact h.self_notMem

theorem ne_self (h : swim.WellFormed) (hn : swim.find u = some node) : u ≠ swim.uuid :=
  ne_of_find hn h.find_self

end WellFormed

/-! ## Assignment through a pointer -/

theorem modifyNode_members (f : NodeState → NodeState) :
    (swim.modifyNode i f).members = swim.members.modify i f := List.take_modify f i _ _

/-- A member's slot is not one of those behind the view. -/
theorem modifyNode_spare (f : NodeState → NodeState) (hi : swim.members[i]? = some node) :
    (swim.modifyNode i f).spare = swim.spare := by
  have hlt : i < swim.members.length := (List.getElem?_eq_some_iff.mp hi).1
  apply List.ext_getElem?
  intro j
  simp only [members, List.length_take] at hlt
  simp only [spare, modifyNode, List.getElem?_drop, List.getElem?_modify]
  simp [show i ≠ swim.viewSize + j by omega]

theorem modifyNode_get {f : NodeState → NodeState} (hi : swim.members[i]? = some node) :
    (swim.modifyNode i f).members[i]? = some (f node) := by
  rw [modifyNode_members, List.getElem?_modify, hi]
  simp

theorem modifyNode_modifyNode (f g : NodeState → NodeState) :
    (swim.modifyNode i f).modifyNode i g = swim.modifyNode i (g ∘ f) := by
  simp [modifyNode, List.modify_modify_eq]

theorem WellFormed.modifyNode {f : NodeState → NodeState} (h : swim.WellFormed)
    (hf : ∀ node, (f node).uuid = node.uuid) : (swim.modifyNode i f).WellFormed where
  capacity_pos := h.capacity_pos
  length_eq := by simpa [SWIM.modifyNode] using h.length_eq
  size_le := h.size_le
  sorted := by
    rw [modifyNode_members]
    exact h.sorted.modify hf
  self_notMem := by
    intro node hn
    rw [modifyNode_members] at hn
    obtain ⟨j, hj⟩ := List.mem_iff_getElem?.mp hn
    rw [List.getElem?_modify, Option.map_eq_map, Option.map_eq_some_iff] at hj
    obtain ⟨m, hm, rfl⟩ := hj
    split_ifs
    · rw [hf]
      exact h.self_notMem m (List.mem_of_getElem? hm)
    · exact h.self_notMem m (List.mem_of_getElem? hm)
  probe_ok := h.probe_ok

theorem WellFormed.invalidate (h : swim.WellFormed) :
    { swim with probe := { swim.probe with size := 0 } }.WellFormed :=
  ⟨h.capacity_pos, h.length_eq, h.size_le, h.sorted, h.self_notMem, .inl rfl⟩

theorem WellFormed.find_modifyNode {f : NodeState → NodeState} (h : swim.WellFormed)
    (hf : ∀ node, (f node).uuid = node.uuid) (hi : swim.members[i]? = some node) :
    (swim.modifyNode i f).find = Function.update swim.find node.uuid (some (f node)) := by
  funext u
  rw [find, modifyNode_members, h.sorted.lookup_modify hf hi]
  rfl

/-! The same, read as rewriting the entry for `v` wherever it is. -/

theorem WellFormed.find_eq_map (h : swim.WellFormed) {v : Uuid} (f : NodeState → NodeState)
    (hu : u ≠ v ∨ swim.find v = none) :
    swim.find u = (swim.find u).map fun n => if n.uuid = v then f n else n := by
  cases hn : swim.find u with
  | none => rfl
  | some n =>
    have hne : n.uuid ≠ v := by
      rw [(h.find_eq_some.mp hn).2]
      rintro rfl
      simp [hn] at hu
    rw [Option.map_some, if_neg hne]

theorem WellFormed.find_modifyNode_map {f : NodeState → NodeState} (h : swim.WellFormed)
    (hf : ∀ node, (f node).uuid = node.uuid) (hi : swim.members[i]? = some node) (u : Uuid) :
    (swim.modifyNode i f).find u =
      (swim.find u).map fun n => if n.uuid = node.uuid then f n else n := by
  rw [h.find_modifyNode hf hi, Function.update_apply]
  split_ifs with hu
  · rw [hu, h.find_of_get hi, Option.map_some, if_pos rfl]
  · exact h.find_eq_map f (.inl hu)

/-! ## Insertion -/

theorem grow_members {junk : ℕ → NodeState} (h : swim.viewSize ≤ swim.view.length) :
    (swim.grow junk).members = swim.members := by
  simp only [members, grow]
  rw [List.take_append_of_le_length h]

theorem grow_spare {junk : ℕ → NodeState} (h : swim.viewSize ≤ swim.view.length) :
    (swim.grow junk).spare = swim.spare ++ (List.range swim.viewCapacity).map junk := by
  simp only [spare, grow]
  rw [List.drop_append_of_le_length h]

theorem WellFormed.grow {junk : ℕ → NodeState} (h : swim.WellFormed) :
    (swim.grow junk).WellFormed where
  capacity_pos := by have := h.capacity_pos; simp only [SWIM.grow]; omega
  length_eq := by simp only [SWIM.grow, List.length_append, List.length_map, List.length_range,
    h.length_eq]; omega
  size_le := by have := h.size_le; simp only [SWIM.grow]; omega
  sorted := by rw [grow_members h.size_le_length]; exact h.sorted
  self_notMem := by rw [grow_members h.size_le_length]; exact h.self_notMem
  probe_ok := h.probe_ok

/-- Insertion as `swim_state_add` leaves it, with the schedule invalidated. -/
def inserted (info : NodeInfo) (swim : SWIM) : SWIM :=
  { swim.insert info with probe := { swim.probe with size := 0 } }

/-- The view gains the slot behind it, with `info` assigned, and is sorted. -/
theorem inserted_members (hlt : swim.viewSize < swim.view.length) (info : NodeInfo) :
    ∃ node : NodeState, node.info = info ∧
      (∃ slot ∈ swim.spare, node = { slot with info := info }) ∧
      (swim.inserted info).members =
        (swim.members ++ [node]).insertionSort (NotAfter NodeState.uuid) := by
  have hslot : swim.view[swim.viewSize] ∈ swim.spare := by
    rw [spare, List.drop_eq_getElem_cons hlt]
    exact List.mem_cons_self
  refine ⟨{ swim.view[swim.viewSize] with info := info }, rfl, ⟨_, hslot, rfl⟩, ?_⟩
  have htake : (swim.view.modify swim.viewSize fun node => { node with info := info }).take
      (swim.viewSize + 1) = swim.members ++ [{ swim.view[swim.viewSize] with info := info }] := by
    rw [List.take_modify, List.take_succ_eq_append_getElem hlt, members]
    apply List.ext_getElem?
    intro j
    have hlen : (swim.view.take swim.viewSize).length = swim.viewSize := by
      rw [List.length_take]; omega
    rw [List.getElem?_modify]
    rcases lt_trichotomy j swim.viewSize with hj | rfl | hj
    · rw [List.getElem?_append_left (by omega), List.getElem?_append_left (by omega)]
      simp [hj.ne']
    · rw [List.getElem?_append_right (by omega), List.getElem?_append_right (by omega)]
      simp [hlen]
    · rw [List.getElem?_append_right (by omega), List.getElem?_append_right (by omega)]
      obtain ⟨k, hk⟩ := Nat.exists_eq_succ_of_ne_zero
        (show j - (swim.view.take swim.viewSize).length ≠ 0 by omega)
      rw [hk]
      rfl
  simp only [SWIM.inserted, SWIM.insert, members]
  rw [qsort, List.take_append_of_le_length (by simp; omega), List.take_of_length_le (by simp)]
  change List.insertionSort (NotAfter NodeState.uuid) _ = _
  rw [htake]
  rfl

/-- The slot that an insertion takes is no longer behind the view. -/
theorem WellFormed.inserted_spare (h : swim.WellFormed) (hroom : swim.viewSize < swim.viewCapacity)
    (info : NodeInfo) : (swim.inserted info).spare = swim.spare.drop 1 := by
  have hlen := h.length_eq
  simp only [spare, SWIM.inserted, SWIM.insert, qsort, List.drop_drop]
  rw [List.drop_left' (by simp; omega)]
  apply List.ext_getElem?
  intro j
  simp [show swim.viewSize ≠ swim.viewSize + 1 + j by omega]

/-- What an insertion does: it is a point update, and the last slot holds the greatest UUID. -/
theorem WellFormed.inserted (h : swim.WellFormed) (hroom : swim.viewSize < swim.viewCapacity)
    {info : NodeInfo} (hself : info.uuid ≠ swim.uuid) (hfresh : swim.find info.uuid = none) :
    (swim.inserted info).WellFormed ∧ ∃ node : NodeState, node.info = info ∧
      (∃ slot ∈ swim.spare, node = { slot with info := info }) ∧
      (swim.inserted info).find = Function.update swim.find info.uuid (some node) ∧
      ∃ last, (swim.inserted info).members[swim.viewSize]? = some last ∧
        (last = node ∨ last ∈ swim.members) ∧
        ∀ m, m = node ∨ m ∈ swim.members → m.uuid ≤ last.uuid := by
  obtain ⟨node, rfl, hslot, hmem⟩ := inserted_members (h.length_eq ▸ hroom) info
  have hne : ∀ m ∈ swim.members, m.uuid ≠ node.uuid := lookup_eq_none.mp hfresh
  have hsorted : SortedBy NodeState.uuid (swim.inserted node.info).members := by
    rw [hmem]
    exact sorted_append h.sorted hne
  refine ⟨⟨h.capacity_pos, ?_, hroom, hsorted, ?_, .inl rfl⟩, node, rfl, hslot, ?_, ?_⟩
  · simp only [SWIM.inserted, SWIM.insert, qsort_length, List.length_modify, h.length_eq]
  · intro m hm
    rw [hmem, List.mem_insertionSort, List.mem_append, List.mem_singleton] at hm
    rcases hm with hm | rfl
    · exact h.self_notMem m hm
    · exact hself
  · funext u
    rw [find, hmem, h.sorted.lookup_append hne]
    rfl
  · rw [hmem, ← h.members_length]
    exact last_insertionSort h.sorted hne

end SWIM
end LibSwim
