import LibSwim.Run.Interface

/-! # Inserting a member

`swim_state_add` takes its pointer before it sorts and assigns only `info` of the slot: what the
pointer designates depends on the UUIDs of the other members, and the bookkeeping of the new
member on what the slot held before.
-/

namespace LibSwim

open Foundations Program

variable {h h' : Host} {info : NodeInfo} {k : ℕ}

/-! ## The pointer returned -/

/-- The array is as long as the capacity says and has room for the view. -/
structure SWIM.Laid (s : SWIM) : Prop where
  capacity_pos : 0 < s.viewCapacity
  length_eq : s.view.length = s.viewCapacity
  size_le : s.viewSize ≤ s.viewCapacity

theorem SWIM.WellFormed.laid {s : SWIM} (hwf : s.WellFormed) : s.Laid :=
  ⟨hwf.capacity_pos, hwf.length_eq, hwf.size_le⟩

/-- The entry at index `k` is the one added, and the view is the old one with it put in its
place. -/
def AddedAt (k : ℕ) (info : NodeInfo) (s s' : SWIM) : Prop :=
  ∃ e, s'.members[k]? = some e ∧ e.info = info ∧
    s'.members = s.members.orderedInsert (NotAfter NodeState.uuid) e

/-- Once the array has grown where it must, there is a slot behind the view. -/
theorem wp_growRoom (hl : h.swim.Laid) :
    wp growView (fun r h₁ => r = true → h₁.swim.members = h.swim.members ∧
      h₁.swim.viewSize < h₁.swim.view.length)
      (fun _ _ => True) h := by
  have hle : h.swim.viewSize ≤ h.swim.view.length := by rw [hl.length_eq]; exact hl.size_le
  simp only [growView, wp_bind, wp_getSwim]
  split_ifs with hfull
  · rw [wp_bind]
    apply wp_reallocView
    intro h₁ hq
    cases h.env.reallocView 0 with
    | none => simp
    | some junk =>
      have hpos := hl.capacity_pos
      simp only [wp_bind, wp_modifySwim, wp_pure, hq.1]
      refine fun _ => ⟨SWIM.grow_members hle, ?_⟩
      simp only [SWIM.grow, List.length_append, List.length_map, List.length_range]
      omega
  · rw [wp_pure, hl.length_eq]
    exact fun _ => ⟨rfl, not_le.mp hfull⟩

/-- A new entry stands behind the view when the view is sorted. -/
theorem add_outcome (hl : h.swim.Laid) (hexec : exec (swimStateAdd info) h = (.ok (some k), h')) :
    k = h.swim.viewSize ∧ ∃ node : NodeState, node.info = info ∧ h'.swim.members =
      (h.swim.members ++ [node]).insertionSort (NotAfter NodeState.uuid) := by
  have hspec : wp (swimStateAdd info) (fun r h' => ∀ k, r = some k → k = h.swim.viewSize ∧
      ∃ node : NodeState, node.info = info ∧ h'.swim.members =
        (h.swim.members ++ [node]).insertionSort (NotAfter NodeState.uuid)) (fun _ _ => True) h := by
    simp only [swimStateAdd, wp_bind, wp_getSwim, wp_assert]
    split_ifs
    refine wp_mono (wp_growRoom hl) (fun r h₁ hroom => ?_) fun _ _ => id
    cases r with
    | false => simp
    | true =>
      obtain ⟨hmembers, hlt⟩ := hroom rfl
      obtain ⟨node, hinfo, -, hmem⟩ := SWIM.inserted_members hlt info
      rw [hmembers] at hmem
      rintro k ⟨⟩
      exact ⟨rfl, node, hinfo, hmem⟩
  exact wp_ok hspec hexec k rfl

/-- The pointer designates the new member exactly when its UUID is the greatest. -/
theorem add_returns_new_iff (hl : h.swim.Laid) (hsorted : SortedBy NodeState.uuid h.swim.members)
    (hfresh : ∀ m ∈ h.swim.members, m.uuid ≠ info.uuid)
    (hexec : exec (swimStateAdd info) h = (.ok (some k), h')) :
    AddedAt k info h.swim h'.swim ↔ ∀ m ∈ h.swim.members, m.uuid < info.uuid := by
  obtain ⟨rfl, node, rfl, hmem⟩ := add_outcome hl hexec
  have hlen : h.swim.members.length = h.swim.viewSize := by
    rw [SWIM.members, List.length_take, hl.length_eq]
    exact Nat.min_eq_left hl.size_le
  obtain ⟨last, hget, hlast, hmax⟩ := last_insertionSort hsorted hfresh
  rw [← hmem, hlen] at hget
  constructor
  · rintro ⟨e, he, hinfo, -⟩ m hm
    obtain rfl : last = e := Option.some.inj (hget.symm.trans he)
    have hle : m.uuid ≤ node.uuid := (hmax m (.inr hm)).trans_eq (congrArg NodeInfo.uuid hinfo)
    exact lt_of_le_of_ne hle (hfresh m hm)
  · intro hlt
    have hnode : last = node := by
      rcases hlast with heq | hin
      · exact heq
      · exact absurd (hlt last hin) (hmax node (.inl rfl)).not_gt
    subst hnode
    exact ⟨last, hget, rfl, hmem.trans (hsorted.insertionSort_append hfresh)⟩

/-- A node with one member. -/
def oneMember : Host := ⟨play (swimStateInit (.ofByte 1) 1000) [addCall 3], steadyEnv 1000, []⟩

def aliveInfo (b : UInt8) : NodeInfo := ⟨.ofByte b, 1000, 0, .alive, .none⟩

theorem oneMember_wellFormed : oneMember.swim.WellFormed :=
  wellFormed_of_ops (run_of_plays (by decide +kernel) (.refl _))

/-- The UUID of the new member is the greatest. -/
theorem add_returns_new_greatest :
    ∃ h', exec (swimStateAdd (aliveInfo 5)) oneMember = (.ok (some 1), h') ∧
      AddedAt 1 (aliveInfo 5) oneMember.swim h'.swim := by
  obtain ⟨hok, hfresh, hgreater⟩ :
      (exec (swimStateAdd (aliveInfo 5)) oneMember).1 = .ok (some 1) ∧
      (∀ m ∈ oneMember.swim.members, m.uuid ≠ (aliveInfo 5).uuid) ∧
      ∀ m ∈ oneMember.swim.members, m.uuid < (aliveInfo 5).uuid := by decide +kernel
  have hexec : exec (swimStateAdd (aliveInfo 5)) oneMember = (.ok (some 1), _) := Prod.ext hok rfl
  exact ⟨_, hexec, (add_returns_new_iff oneMember_wellFormed.laid oneMember_wellFormed.sorted
    hfresh hexec).mpr hgreater⟩

/-- Node 2 is added to a view with node 3, and the pointer returned designates node 3. -/
theorem add_returns_other :
    oneMember.swim.WellFormed ∧
      ∃ h' e, exec (swimStateAdd (aliveInfo 2)) oneMember = (.ok (some 1), h') ∧
        h'.swim.members[1]? = some e ∧ e.info ≠ aliveInfo 2 := by
  obtain ⟨hok, hother⟩ : (exec (swimStateAdd (aliveInfo 2)) oneMember).1 = .ok (some 1) ∧
      (exec (swimStateAdd (aliveInfo 2)) oneMember).2.swim.members[1]?.any
        (fun e => e.info ≠ aliveInfo 2) = true := by decide +kernel
  obtain ⟨e, he, hne⟩ := (Option.any_eq_true _ _).mp hother
  exact ⟨oneMember_wellFormed, _, e, Prod.ext hok rfl, he, by simpa using hne⟩

/-! ## The bookkeeping of a new member -/

/-- No probe is out, no suspicion and no witness is recorded. -/
def NodeState.Clean (n : NodeState) : Prop :=
  n.pingTime = 0 ∧ n.suspectTime = 0 ∧ n.witness.addrlen = 0

instance (n : NodeState) : Decidable n.Clean := inferInstanceAs (Decidable (_ ∧ _ ∧ _))

def SWIM.CleanSpare (s : SWIM) : Prop := ∀ slot ∈ s.spare, slot.Clean

/-- The slots that `realloc` adds happen to hold zeroes where a member has its bookkeeping. -/
def Env.CleanSlots (env : Env) : Prop := ∀ k junk i, env.reallocView k = some junk → (junk i).Clean

theorem Leftover.clean {env : Env} {s : SWIM} {slot : NodeState} (h : Leftover env s slot)
    (hs : s.CleanSpare) (he : env.CleanSlots) : slot.Clean := by
  rcases h with hslot | ⟨k, junk, i, hk, rfl⟩
  · exact hs slot hslot
  · exact he k junk i hk

theorem Inherits.clean {env : Env} {s : SWIM} {n : NodeState} (h : Inherits env s n)
    (hs : s.CleanSpare) (he : env.CleanSlots) : n.Clean := by
  obtain ⟨slot, hslot, hping, hsuspect, hwitness⟩ := h
  obtain ⟨hping', hsuspect', hwitness'⟩ := hslot.clean hs he
  refine ⟨?_, ?_, ?_⟩
  · exact hping.elim id fun h => h.trans hping'
  · exact hsuspect.elim id fun h => h.trans hsuspect'
  · rcases hwitness with hnone | hsame
    · rw [hnone]
      rfl
    · rw [hsame]
      exact hwitness'

theorem init_cleanSpare (uuid : Uuid) (now : ℤ) : (swimStateInit uuid now).CleanSpare := by
  intro slot hslot
  simp only [SWIM.spare, swimStateInit, List.drop_zero] at hslot
  rw [List.eq_of_mem_replicate hslot]
  decide

/-- Operations during which `realloc` adds no slot but clean ones. -/
def cleanOps (_ : SWIM) (c : OpCall) : Prop := c.env.CleanSlots

section

variable {uuid : Uuid} {now : ℤ} {s s' : SWIM} {c : OpCall}

theorem Performs.cleanSpare (h : Performs s c s') (hwf : s.WellFormed) (hs : s.CleanSpare)
    (hc : c.env.CleanSlots) : s'.CleanSpare := by
  obtain ⟨h', hm, rfl⟩ := h.managed hwf
  exact fun slot hslot => (hm.left slot (.inl hslot)).clean hs hc

theorem cleanSpare_of_run (hrun : Run Performs cleanOps (swimStateInit uuid now) s) :
    s.CleanSpare := by
  have hinv := hrun.preserves (I := fun t => t.WellFormed ∧ t.CleanSpare) ?_
    ⟨.init uuid now, init_cleanSpare uuid now⟩
  · exact hinv.2
  · rintro t c t' ⟨hwf, hs⟩ hc hstep
    exact ⟨hstep.wf hwf, hstep.cleanSpare hwf hs hc⟩

/-- Over every run in which `realloc` adds clean slots, every member starts with clean
bookkeeping. -/
theorem insertion_clean (hrun : Run Performs cleanOps (swimStateInit uuid now) s)
    (hc : cleanOps s c) (hstep : Performs s c s') :
    ∀ n ∈ s'.members, (∀ m ∈ s.members, m.uuid ≠ n.uuid) → n.Clean := by
  intro n hn hnew
  have hwf := wellFormed_of_ops hrun
  obtain ⟨h', hm, rfl⟩ := hstep.managed hwf
  have hin := hm.fresh n.uuid n (hm.wf.mem_iff_find.mp hn) (lookup_eq_none.mpr hnew)
  exact hin.clean (cleanSpare_of_run hrun) hc

theorem steadyEnv_cleanSlots (now : ℤ) : (steadyEnv now).CleanSlots := by
  rintro k junk i hk
  obtain rfl := Option.some.inj hk
  exact ⟨rfl, rfl, rfl⟩

/-- Thirty-two members with UUIDs in ascending order. -/
def fullView : List OpCall := (List.range 32).map fun i =>
  ⟨steadyEnv 1000, .add ⟨⟨UInt8.ofNat (i + 2) :: List.replicate 15 0, by simp⟩, 1000, 0,
    .alive, .none⟩⟩

/-- The array is full, and the new member takes a slot that `realloc` added. -/
theorem insertion_clean_grown :
    let s := play (swimStateInit (.ofByte 1) 1000) fullView
    ∃ s', Performs s (addCall 40) s' ∧ s.viewSize = s.viewCapacity ∧ s'.viewSize = 33 ∧
      ∀ n ∈ s'.members, (∀ m ∈ s.members, m.uuid ≠ n.uuid) → n.Clean := by
  intro s
  obtain ⟨hplays, hok, hfull, hsize⟩ : plays (swimStateInit (.ofByte 1) 1000) fullView = true ∧
      plays s [addCall 40] = true ∧ s.viewSize = s.viewCapacity ∧
      (play s [addCall 40]).viewSize = 33 := by decide +kernel
  have hrun : Run Performs cleanOps (swimStateInit (.ofByte 1) 1000) s := by
    refine run_of_plays_of hplays (.refl _) fun c hc _ => ?_
    obtain ⟨i, -, rfl⟩ := List.mem_map.mp hc
    exact steadyEnv_cleanSlots 1000
  have hstep := performs_of_plays hok
  exact ⟨_, hstep, hfull, hsize, insertion_clean (c := addCall 40) hrun
    (steadyEnv_cleanSlots 1000) hstep⟩

/-- A heap that has been in use: `realloc` returns slots that hold something else. -/
def usedHeap : Env :=
  { steadyEnv 1000 with
    reallocView := fun _ => some fun _ =>
      { NodeState.zero with pingTime := 5, suspectTime := 6, witness := ⟨[7]⟩ } }

/-- The first 32 members take the slots that `calloc` zeroed; the next one starts with a probe time,
a suspicion time and a witness of nobody's. -/
theorem insertion_not_clean :
    let s := play (swimStateInit (.ofByte 1) 1000) fullView
    let c : OpCall := ⟨usedHeap, .add (aliveInfo 40)⟩
    Run Performs anyOp (swimStateInit (.ofByte 1) 1000) s ∧ ∃ s', Performs s c s' ∧
      ∃ n ∈ s'.members, (∀ m ∈ s.members, m.uuid ≠ n.uuid) ∧
        n.pingTime = 5 ∧ n.suspectTime = 6 ∧ swimNodeHasWitness n := by
  intro s c
  obtain ⟨hplays, hok, hdirty⟩ : plays (swimStateInit (.ofByte 1) 1000) fullView = true ∧
      plays s [c] = true ∧
      ∃ n ∈ (play s [c]).members, (∀ m ∈ s.members, m.uuid ≠ n.uuid) ∧
        n.pingTime = 5 ∧ n.suspectTime = 6 ∧ swimNodeHasWitness n := by decide +kernel
  exact ⟨run_of_plays hplays (.refl _), _, performs_of_plays hok, hdirty⟩

end

end LibSwim
