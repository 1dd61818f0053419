import LibSwim.Gossip.Convergence
import LibSwim.Run.Outcomes

/-! # What becomes of piggybacked gossip

Senders attach gossip to PING, ACK and PING_REQ. Seen from one UUID, processing a list of entries
is a fold over the record of that UUID, if there is one. Where the fold is run on records of known
status nothing is lost. It is not run for a PING_REQ, nor for an ACK of the node's own UUID, and an
ACK can leave a record of unknown status behind, which entries of incarnation zero do not change.
-/

namespace LibSwim

open Foundations Program

/-! ## The record of one UUID -/

/-- What a merge makes of a record. -/
def NodeInfo.merged (info g : NodeInfo) : NodeInfo := (NodeState.merge g ⟨info, 0, 0, .none⟩).info

/-- What one gossip entry makes of the record of `v`. -/
def absorb (v : Uuid) (o : Option NodeInfo) (g : NodeInfo) : Option NodeInfo :=
  if g.uuid = v then some (o.elim g fun info => info.merged g) else o

def absorbAll (v : Uuid) (gs : List NodeInfo) (o : Option NodeInfo) : Option NodeInfo :=
  gs.foldl (absorb v) o

/-- The record is at least as recent as the entry. -/
def Covers (o : Option NodeInfo) (g : NodeInfo) : Prop := ∃ m ∈ o, g.standing ≤ m.standing

section

variable {v : Uuid} {o : Option NodeInfo} {info g : NodeInfo} {gs : List NodeInfo}

theorem NodeState.info_merge (n : NodeState) (g : NodeInfo) : (n.merge g).info = n.info.merged g := by
  cases n with
  | mk info pingTime suspectTime witness =>
    unfold NodeInfo.merged merge
    dsimp only
    by_cases hlt : info.incarnation < g.incarnation
    · rw [if_pos hlt, if_pos hlt]
      rfl
    · rw [if_neg hlt, if_neg hlt]
      by_cases heq : g.incarnation = info.incarnation
      · rw [if_pos heq, if_pos heq]
        cases info.status with
        | alive | suspect =>
          dsimp only
          split_ifs <;> rfl
        | dead | unknown | other k => rfl
      · rw [if_neg heq, if_neg heq]

theorem NodeInfo.merged_known (hi : info.status.Known) (hg : g.status.Known) :
    (info.merged g).status.Known := NodeState.merge_known hi hg

/-- Records of known status only rise. -/
theorem NodeInfo.standing_merged (hi : info.status.Known) (hg : g.status.Known) :
    info.standing ≤ (info.merged g).standing ∧ g.standing ≤ (info.merged g).standing := by
  have hrank : (info.merged g).rank = max info.rank g.rank := by
    change ((⟨info, 0, 0, .none⟩ : NodeState).merge g).info.rank = _
    exact NodeState.merge_rank hi hg
  exact ⟨standing_le (hrank ▸ le_max_left _ _), standing_le (hrank ▸ le_max_right _ _)⟩

theorem Covers.trans {a b : NodeInfo} (h : Covers o b) (hab : a.standing ≤ b.standing) :
    Covers o a := by
  obtain ⟨m, hm, hle⟩ := h
  exact ⟨m, hm, hab.trans hle⟩

theorem absorb_known (ho : ∀ i ∈ o, i.status.Known) (hg : g.status.Known) :
    ∀ i ∈ absorb v o g, i.status.Known := by
  intro i hi
  rw [absorb] at hi
  split_ifs at hi
  · cases o with
    | none => exact Option.some.inj hi ▸ hg
    | some info => exact Option.some.inj hi ▸ NodeInfo.merged_known (ho info rfl) hg
  · exact ho i hi

theorem absorb_covers (ho : ∀ i ∈ o, i.status.Known) (hg : g.status.Known) :
    (∀ i ∈ o, Covers (absorb v o g) i) ∧ (g.uuid = v → Covers (absorb v o g) g) := by
  rw [absorb]
  split_ifs with hv
  · cases o with
    | none => exact ⟨by simp, fun _ => ⟨g, rfl, le_rfl⟩⟩
    | some info =>
      obtain ⟨hle, hle'⟩ := NodeInfo.standing_merged (ho info rfl) hg
      refine ⟨?_, fun _ => ⟨_, rfl, hle'⟩⟩
      rintro _ ⟨⟩
      exact ⟨_, rfl, hle⟩
  · exact ⟨fun i hi => ⟨i, hi, le_rfl⟩, fun h => absurd h hv⟩

/-- From a record of known status, or none, nothing that is heard is lost. -/
theorem absorbAll_covers (ho : ∀ i ∈ o, i.status.Known) (hgs : ∀ g ∈ gs, g.status.Known) :
    (∀ i ∈ o, Covers (absorbAll v gs o) i) ∧
      ∀ g ∈ gs, g.uuid = v → Covers (absorbAll v gs o) g := by
  induction gs generalizing o with
  | nil => exact ⟨fun i hi => ⟨i, hi, le_rfl⟩, by simp⟩
  | cons g gs ih =>
    rw [List.forall_mem_cons] at hgs
    obtain ⟨hold, hnew⟩ := absorb_covers (v := v) ho hgs.1
    obtain ⟨hkept, hlater⟩ := ih (absorb_known (v := v) ho hgs.1) hgs.2
    have hpass : ∀ i, Covers (absorb v o g) i → Covers (absorbAll v (g :: gs) o) i := by
      rintro i ⟨m, hm, hle⟩
      exact (hkept m hm).trans hle
    refine ⟨fun i hi => hpass i (hold i hi), fun g' hg' hv => ?_⟩
    rcases List.mem_cons.mp hg' with rfl | hg'
    · exact hpass g' (hnew hv)
    · exact hlater g' hg' hv

/-! A record of unknown status and incarnation zero, as an ACK can leave it. -/

theorem absorb_stuck (hu : info.status = .unknown) (hz : info.incarnation = 0)
    (hg : g.uuid = v → g.incarnation = 0) : absorb v (some info) g = some info := by
  rw [absorb]
  split_ifs with hv
  · have hzero := hg hv
    simp [NodeInfo.merged, NodeState.merge, hz, hzero, hu, swimNodeReset]
  · rfl

theorem absorbAll_stuck (hu : info.status = .unknown) (hz : info.incarnation = 0)
    (hgs : ∀ g ∈ gs, g.uuid = v → g.incarnation = 0) : absorbAll v gs (some info) = some info := by
  induction gs with
  | nil => rfl
  | cons g gs ih =>
    rw [List.forall_mem_cons] at hgs
    rw [absorbAll, List.foldl_cons, absorb_stuck hu hz hgs.1]
    exact ih hgs.2

theorem merged_unknown (hz : info.incarnation = 0) (hg : 0 < g.incarnation) :
    (info.merged g).status = g.status ∧ (info.merged g).standing = g.standing := by
  have hmerged : info.merged g = { info with
      incarnation := g.incarnation, lastSeen := g.lastSeen, status := g.status } := by
    simp [NodeInfo.merged, NodeState.merge, hz, hg, swimNodeReset]
  rw [hmerged]
  exact ⟨rfl, rfl⟩

theorem Covers.of_incarnation_zero {a b : NodeInfo} (h : Covers o b) (hb : 0 < b.incarnation)
    (ha : a.incarnation = 0) : Covers o a :=
  h.trans (Prod.Lex.toLex_le_toLex.mpr (.inl (ha ▸ hb)))

/-- An entry with a later incarnation makes up for those that were ignored before it. -/
theorem absorbAll_freed (hu : info.status = .unknown) (hz : info.incarnation = 0)
    (hgs : ∀ g ∈ gs, g.status.Known) (h : ∃ g ∈ gs, g.uuid = v ∧ 0 < g.incarnation) :
    ∀ g ∈ gs, g.uuid = v → Covers (absorbAll v gs (some info)) g := by
  induction gs with
  | nil => simp
  | cons g gs ih =>
    rw [List.forall_mem_cons] at hgs
    rw [absorbAll, List.foldl_cons]
    by_cases hfirst : g.uuid = v ∧ 0 < g.incarnation
    · obtain ⟨hstatus, hstanding⟩ := merged_unknown hz hfirst.2
      have habsorb : absorb v (some info) g = some (info.merged g) := if_pos hfirst.1
      obtain ⟨hkept, hlater⟩ := absorbAll_covers (v := v) (o := absorb v (some info) g) (by
        rw [habsorb]
        rintro _ ⟨⟩
        exact hstatus ▸ hgs.1) hgs.2
      rw [List.forall_mem_cons]
      exact ⟨fun _ => (hkept _ habsorb).trans hstanding.ge, hlater⟩
    · have hzero : g.uuid = v → g.incarnation = 0 := by
        intro hv
        by_contra hne
        exact hfirst ⟨hv, by omega⟩
      have hrest : ∃ g ∈ gs, g.uuid = v ∧ 0 < g.incarnation := by
        obtain ⟨g', hg', hlater⟩ := h
        rcases List.mem_cons.mp hg' with rfl | hg'
        · exact absurd hlater hfirst
        · exact ⟨g', hg', hlater⟩
      obtain ⟨g', hg', hv', hpos⟩ := hrest
      have hcovers := ih hgs.2 ⟨g', hg', hv', hpos⟩
      rw [absorb_stuck hu hz hzero, List.forall_mem_cons]
      exact ⟨fun hv => (hcovers g' hg' hv').of_incarnation_zero hpos (hzero hv), hcovers⟩

/-- From such a record nothing is lost when nothing is said of the node, or something with a later
incarnation. -/
theorem absorbAll_unknown_iff (hu : info.status = .unknown) (hz : info.incarnation = 0)
    (hgs : ∀ g ∈ gs, g.status.Known) :
    (∀ g ∈ gs, g.uuid = v → Covers (absorbAll v gs (some info)) g) ↔
      (∀ g ∈ gs, g.uuid ≠ v) ∨ ∃ g ∈ gs, g.uuid = v ∧ 0 < g.incarnation := by
  constructor
  · intro h
    by_contra hnot
    push Not at hnot
    obtain ⟨⟨g, hg, hv⟩, hzero⟩ := hnot
    have hcovers := h g hg hv
    rw [absorbAll_stuck hu hz fun g' hg' hv' => Nat.le_zero.mp (hzero g' hg' hv')] at hcovers
    obtain ⟨m, ⟨⟩, hle⟩ := hcovers
    rcases Prod.Lex.toLex_le_toLex.mp hle with hlt | ⟨-, hcode⟩
    · rw [hz] at hlt
      exact Nat.not_lt_zero _ hlt
    · rw [hu] at hcode
      rcases hgs g hg with hs | hs | hs <;> rw [hs] at hcode <;> simp [Status.code] at hcode
  · rintro (hnone | hsome)
    · exact fun g hg hv => absurd hv (hnone g hg)
    · exact absorbAll_freed hu hz hgs hsome

end

/-! ## Events -/

def SWIM.record (s : SWIM) (v : Uuid) : Option NodeInfo := (s.find v).map (·.info)

section

variable {post : Unit → Host → Prop} {fault : Fault → Host → Prop} {h h' : Host} {v : Uuid}
variable {g : NodeInfo} {gs : List NodeInfo}

theorem Merged.record {env : Env} {t u : SWIM} (hm : Merged env g t u) (hv : v ≠ t.uuid) :
    u.record v = absorb v (t.record v) g := by
  rw [absorb, SWIM.record, SWIM.record]
  cases hm with
  | self hself hu => rw [hu, if_neg (hself ▸ Ne.symm hv)]
  | known hn hu =>
    rw [hu, Function.update_apply]
    by_cases hg : v = g.uuid
    · rw [if_pos hg, if_pos hg.symm, hg, hn, Option.map_some, NodeState.info_merge]
      rfl
    · rw [if_neg hg, if_neg (Ne.symm hg)]
  | new _ hn hi _ hu =>
    rw [hu, Function.update_apply]
    by_cases hg : v = g.uuid
    · rw [if_pos hg, if_pos hg.symm, hg, hn, Option.map_some, hi]
      rfl
    · rw [if_neg hg, if_neg (Ne.symm hg)]

/-- While gossip is processed: absorbing the rest leads to where absorbing all leads. -/
structure Absorbing (h : Host) (gs rest : List NodeInfo) (t : Host) : Prop where
  wf : t.swim.WellFormed
  uuid : t.swim.uuid = h.swim.uuid
  alloc : t.env.Allocates
  record : ∀ v ≠ h.swim.uuid,
    absorbAll v rest (t.swim.record v) = absorbAll v gs (h.swim.record v)

/-- Processing gossip is, for each UUID, the fold over its record. -/
theorem wp_gossipRecords (hwf : h.swim.WellFormed) (ha : h.env.Allocates)
    (hgs : ∀ g ∈ gs, g.Processable h.swim.uuid) :
    wp (swimProcessGossip gs) (fun _ h' => h'.swim.WellFormed ∧ h'.swim.uuid = h.swim.uuid ∧
      ∀ v ≠ h.swim.uuid, h'.swim.record v = absorbAll v gs (h.swim.record v))
      (fun _ _ => False) h := by
  refine wp_mono (wp_forM (Absorbing h gs) (fun g rest t hg ht => ?_) ⟨hwf, rfl, ha, fun _ _ => rfl⟩)
    (fun _ h' hend => ⟨hend.wf, hend.uuid, hend.record⟩) fun _ _ hf => hf
  refine wp_gossipStep ht.wf (fun t' _ hself hwf' hu hfind _ henv _ => ?_) (fun _ => ?_)
    fun _ hbad => hbad (ht.uuid ▸ hgs g hg)
  · refine ⟨hwf', hu.trans ht.uuid, henv ▸ ht.alloc, fun v hv => ?_⟩
    have hne : g.uuid ≠ v := by
      rintro rfl
      exact hv (hself.trans ht.uuid)
    rw [← ht.record v hv, absorbAll, absorbAll, List.foldl_cons, absorb, if_neg hne, SWIM.record,
      hfind, SWIM.record]
  · refine wp_swimStateMerge ht.wf (fun t' hwf' hsame _ hlater _ hm => ?_)
      fun t' _ hna _ _ => absurd ht.alloc hna
    refine ⟨hwf', hsame.1.trans ht.uuid, hlater.allocates ht.alloc, fun v hv => ?_⟩
    rw [← ht.record v hv, hm.record (ht.uuid ▸ hv)]
    rfl

/-- No entry is lost: for each that is about another node the view has a record as recent. -/
def GossipKept (gs : List NodeInfo) (s : SWIM) : Prop :=
  ∀ g ∈ gs, g.uuid ≠ s.uuid → ∃ n ∈ s.members, n.uuid = g.uuid ∧ g.standing ≤ n.info.standing

theorem gossipKept_iff {s : SWIM} (hwf : s.WellFormed) :
    GossipKept gs s ↔ ∀ g ∈ gs, g.uuid ≠ s.uuid → Covers (s.record g.uuid) g := by
  have hcovers : ∀ g : NodeInfo, Covers (s.record g.uuid) g ↔
      ∃ n ∈ s.members, n.uuid = g.uuid ∧ g.standing ≤ n.info.standing := by
    intro g
    constructor
    · rintro ⟨m, hm, hle⟩
      obtain ⟨n, hn, rfl⟩ := Option.map_eq_some_iff.mp hm
      obtain ⟨hmem, hu⟩ := hwf.find_eq_some.mp hn
      exact ⟨n, hmem, hu, hle⟩
    · rintro ⟨n, hn, hu, hle⟩
      exact ⟨n.info, Option.map_eq_some_iff.mpr ⟨n, hwf.find_eq_some.mpr ⟨hn, hu⟩, rfl⟩, hle⟩
  simp only [GossipKept, hcovers]

/-- Where gossip is processed, whether it is kept depends on each record on its own. -/
theorem wp_gossipKept (hwf : h.swim.WellFormed) (ha : h.env.Allocates)
    (hgs : ∀ g ∈ gs, g.Processable h.swim.uuid) :
    wp (swimProcessGossip gs) (fun _ h' => GossipKept gs h'.swim ↔
      ∀ g ∈ gs, g.uuid ≠ h.swim.uuid → Covers (absorbAll g.uuid gs (h.swim.record g.uuid)) g)
      (fun _ _ => False) h := by
  refine wp_mono (wp_gossipRecords hwf ha hgs) (fun _ h' hend => ?_) fun _ _ hf => hf
  obtain ⟨hwf', hu, hrecord⟩ := hend
  rw [gossipKept_iff hwf', hu]
  refine forall₂_congr fun g _ => forall_congr' fun hg => ?_
  rw [hrecord g.uuid hg]

end

/-- The standing in which an event whose gossip is not processed leaves a member: its sender is
ALIVE unless it is stale or was DEAD, and a PING_REQ suspects the node it names. -/
def Event.leaves (e : Event) (info : NodeInfo) : ℕ ×ₗ ℕ :=
  toLex (if info.uuid = e.hdr.uuid then max info.incarnation e.hdr.incarnation
      else info.incarnation,
    if e.body = .pingReq info.uuid then Status.suspect.code
    else if info.uuid = e.hdr.uuid ∧ (info.incarnation < e.hdr.incarnation ∨
      info.incarnation = e.hdr.incarnation ∧ info.status ≠ .dead) then Status.alive.code
    else info.status.code)

/-- All that the gossip says about other nodes is known without it. -/
def Event.NoNews (e : Event) (s : SWIM) : Prop :=
  ∀ g ∈ e.gossip, g.uuid ≠ s.uuid → ∃ n ∈ s.members, n.uuid = g.uuid ∧ g.standing ≤ e.leaves n.info

/-- The gossip of the event is processed and finds no record of unknown status, or loses nothing
by it; where it is not processed it is no news. -/
def Event.KeepsGossip (e : Event) (s : SWIM) : Prop :=
  match e.body with
  | .pingReq _ => e.NoNews s
  | .ack u =>
    if u = s.uuid then e.NoNews s
    else (∃ n ∈ s.members, n.uuid = u) ∨ (∀ n ∈ s.members, n.uuid < u) ∨
      (∀ g ∈ e.gossip, g.uuid ≠ u) ∨ ∃ g ∈ e.gossip, g.uuid = u ∧ 0 < g.incarnation
  | .ping | .join _ _ | .leave _ => True

section

variable {s t : SWIM} {env : Env} {e : Event} {addr : SockAddr} {h₁ : Host} {u v : Uuid}
variable {n : NodeState}

theorem Event.noticed_known (hn : n.info.status.Known) : (e.noticed n).info.status.Known := by
  unfold Event.noticed
  split_ifs
  · unfold NodeState.notice
    split_ifs
    · exact .inl rfl
    · rcases hn with hs | hs | hs <;> rw [hs]
      · exact .inl hs
      · exact .inl rfl
      · exact .inr (.inr hs)
    · exact hn
  · exact hn

theorem NodeState.acked_known (hn : n.info.status.Known) : n.acked.info.status.Known := by
  unfold acked
  split
  · exact .inl rfl
  · exact .inl rfl
  all_goals exact hn

theorem NodeState.status_notice {time : ℤ} {incarnation : ℕ} (hn : n.info.status.Known) :
    (n.notice time incarnation).info.status =
      if n.info.incarnation < incarnation ∨
        n.info.incarnation = incarnation ∧ n.info.status ≠ .dead then .alive else n.info.status := by
  rcases lt_trichotomy n.info.incarnation incarnation with hlt | heq | hgt
  · rw [notice_newer hlt, if_pos (.inl hlt)]
  · by_cases hdead : n.info.status = .dead
    · rw [notice_dead heq.ge hdead, if_neg (by simp [heq, hdead])]
    · rw [notice_alive heq.le (hn.alive_or_suspect hdead), if_pos (.inr ⟨heq, hdead⟩)]
  · rw [notice_stale hgt, if_neg (by omega)]

/-- Where the gossip is not processed, the sender is noticed all the same. -/
theorem Event.noticed_leaves (hn : n.info.status.Known) (hb : e.body ≠ .pingReq n.uuid) :
    (e.noticed n).info.standing = e.leaves n.info := by
  have hb' : e.body ≠ .pingReq n.info.uuid := hb
  rw [Event.noticed, NodeInfo.standing, Event.leaves, if_neg hb']
  by_cases hu : n.uuid = e.hdr.uuid
  · have hu' : n.info.uuid = e.hdr.uuid := hu
    rw [if_pos hu, if_pos hu', NodeState.incarnation_notice, NodeState.status_notice hn]
    simp only [hu', true_and, apply_ite Status.code]
  · have hu' : ¬ n.info.uuid = e.hdr.uuid := hu
    rw [if_neg hu, if_neg hu', if_neg fun h => hu' h.1]

theorem Event.suspected_leaves (hb : e.body = .pingReq n.uuid) :
    ((e.noticed n).suspect addr).info.standing = e.leaves n.info := by
  have hb' : e.body = .pingReq n.info.uuid := hb
  have hinc : ((e.noticed n).suspect addr).info.incarnation = (e.noticed n).info.incarnation := rfl
  rw [NodeInfo.standing, hinc, Event.leaves, if_pos hb', Event.noticed]
  by_cases hu : n.uuid = e.hdr.uuid
  · rw [if_pos hu, if_pos (show n.info.uuid = e.hdr.uuid from hu), NodeState.incarnation_notice]
    rfl
  · rw [if_neg hu, if_neg (show ¬ n.info.uuid = e.hdr.uuid from hu)]
    rfl

/-- Where no record is added and every one is left in the standing foreseen, what is kept is what
is no news. -/
theorem gossipKept_iff_noNews {f : NodeState → NodeState} (ht : t.WellFormed) (hwf : s.WellFormed)
    (hu : t.uuid = s.uuid) (hfind : ∀ v, t.find v = (s.find v).map f)
    (hf : ∀ n ∈ s.members, (f n).info.standing = e.leaves n.info) :
    GossipKept e.gossip t ↔ e.NoNews s := by
  rw [gossipKept_iff ht, Event.NoNews, hu]
  refine forall₂_congr fun g _ => forall_congr' fun _ => ?_
  rw [SWIM.record, hfind, Option.map_map]
  constructor
  · rintro ⟨m, hm, hle⟩
    obtain ⟨n, hn, rfl⟩ := Option.map_eq_some_iff.mp hm
    obtain ⟨hmem, hnu⟩ := hwf.find_eq_some.mp hn
    exact ⟨n, hmem, hnu, hle.trans_eq (hf n hmem)⟩
  · rintro ⟨n, hn, hnu, hle⟩
    exact ⟨_, Option.map_eq_some_iff.mpr ⟨n, hwf.find_eq_some.mpr ⟨hn, hnu⟩, rfl⟩,
      hle.trans_eq (hf n hn).symm⟩

/-- Where gossip is processed on records of known status, all of it is kept. -/
theorem wp_gossipKept_known {h : Host} {gs : List NodeInfo} (hwf : h.swim.WellFormed)
    (ha : h.env.Allocates) (hgs : ∀ g ∈ gs, g.Processable h.swim.uuid ∧ g.status.Known)
    (hk : h.swim.Holds fun n => n.info.status.Known) :
    wp (swimProcessGossip gs) (fun _ h' => GossipKept gs h'.swim) (fun _ _ => False) h := by
  refine wp_mono (wp_gossipKept hwf ha fun g hg => (hgs g hg).1) (fun _ h' hiff => ?_)
    fun _ _ hf => hf
  refine hiff.mpr fun g hg _ => ?_
  refine (absorbAll_covers ?_ fun g hg => (hgs g hg).2).2 g hg rfl
  intro i hi
  obtain ⟨n, hn, rfl⟩ := Option.map_eq_some_iff.mp hi
  exact hk _ n hn

/-! The handlers, after the sender has been noticed. -/

/-- What holds when the handler is called. -/
structure Carried (s : SWIM) (env : Env) (e : Event) (h : Host) : Prop where
  start : s.WellFormed
  known : s.Holds fun n => n.info.status.Known
  alloc : env.Allocates
  gossip : ∀ g ∈ e.gossip, g.Processable s.uuid ∧ g.status.Known
  noticed : Noticed e ⟨s, env, []⟩ h

theorem Carried.holds (hc : Carried s env e h₁) : h₁.swim.Holds fun n => n.info.status.Known := by
  intro v n hn
  rw [hc.noticed.find] at hn
  obtain ⟨m, hm, rfl⟩ := Option.map_eq_some_iff.mp hn
  exact e.noticed_known (hc.known v m hm)

theorem Carried.allocates (hc : Carried s env e h₁) : h₁.env.Allocates := hc.noticed.env ▸ hc.alloc

theorem Carried.ping (hc : Carried s env e h₁) :
    wp (swimProcessPing e addr) (fun _ h' => GossipKept e.gossip h'.swim) (fun _ _ => False) h₁ := by
  simp only [swimProcessPing, swimSendAck, wp_bind, wp_getSwim]
  refine wp_sendWithGossip hc.noticed.wf (fun h' _ hs => ?_) fun _ hm _ =>
    Bool.false_ne_true (hm.symm.trans (hc.allocates.1 0))
  refine wp_gossipKept_known (hs.swim ▸ hc.noticed.wf) (hs.later.allocates hc.allocates) ?_
    (hs.swim ▸ hc.holds)
  rw [hs.swim, hc.noticed.same.1]
  exact hc.gossip

theorem Carried.ackSelf (hc : Carried s env e h₁) (hb : e.body = .ack s.uuid) :
    wp (swimProcessAck e s.uuid addr) (fun _ h' => GossipKept e.gossip h'.swim ↔ e.NoNews s)
      (fun _ _ => False) h₁ := by
  simp only [swimProcessAck, wp_bind, wp_getSwim, uuidCompare_eq]
  rw [if_pos hc.noticed.same.1.symm]
  exact gossipKept_iff_noNews hc.noticed.wf hc.start hc.noticed.same.1 hc.noticed.find fun n hn =>
    e.noticed_leaves (hc.known.of_mem hc.start hn) (by simp [hb])

theorem Carried.pingReq (hc : Carried s env e h₁) (hb : e.body = .pingReq v) :
    wp (swimProcessPingReq v addr) (fun _ h' => GossipKept e.gossip h'.swim ↔ e.NoNews s)
      (fun _ _ => False) h₁ := by
  refine wp_pingReqEntries hc.noticed.wf (fun h' hwf hsame hfind => ?_) fun _ _ hna =>
    hna hc.allocates
  refine gossipKept_iff_noNews hwf hc.start (hsame.1.trans hc.noticed.same.1)
    (fun u => (hfind u).trans (by rw [hc.noticed.find, Option.map_map])) fun n hn => ?_
  simp only [Function.comp_def, Event.noticed_uuid]
  split_ifs with hu
  · exact e.suspected_leaves (hu ▸ hb)
  · exact e.noticed_leaves (hc.known.of_mem hc.start hn) (by simpa [hb] using Ne.symm hu)

theorem Switched.known {node : NodeState} {h h' : Host} (hs : Switched node h h')
    (hk : ∀ n, h.swim.find v = some n → n.info.status.Known) (hn : h'.swim.find v = some n) :
    n.info.status.Known := by
  rw [hs.find] at hn
  obtain ⟨m, hm, rfl⟩ := Option.map_eq_some_iff.mp hn
  split_ifs
  · exact NodeState.acked_known (hk m hm)
  · exact hk m hm

theorem Carried.ackMember (hc : Carried s env e h₁) (hn : s.find v = some n) :
    wp (swimProcessAck e v addr) (fun _ h' => GossipKept e.gossip h'.swim) (fun _ _ => False) h₁ := by
  have hfind : h₁.swim.find v = some (e.noticed n) := by rw [hc.noticed.find, hn, Option.map_some]
  refine wp_ackMember hc.noticed.wf hfind (fun h' hs => ?_) fun _ _ hna => hna hc.allocates
  refine wp_gossipKept_known hs.wf (hs.later.allocates hc.allocates) ?_
    fun u _ hm => hs.known (hc.holds u) hm
  rw [hs.same.1, hc.noticed.same.1]
  exact hc.gossip

/-- The pointer that the switch gets designates the new entry just when its UUID is the greatest. -/
theorem Carried.last_iff {h₂ : Host} {node last : NodeState} (hc : Carried s env e h₁)
    (hn : s.find v = none) (ha : Added h₁ (ackInfo e v addr) node last h₂) :
    last.uuid = v ↔ ∀ n ∈ s.members, n.uuid < v := by
  have hnode : node.uuid = v := congrArg NodeInfo.uuid ha.info_eq
  constructor
  · intro hlast n hmem
    have hfind : h₁.swim.find n.uuid = some (e.noticed n) := by
      rw [hc.noticed.find, hc.start.mem_iff_find.mp hmem, Option.map_some]
    have hle := ha.last_max _ (.inr (hc.noticed.wf.find_eq_some.mp hfind).1)
    rw [Event.noticed_uuid, hlast] at hle
    exact lt_of_le_of_ne hle (lookup_eq_none.mp hn n hmem)
  · intro hmax
    rcases ha.last_mem with rfl | hmem
    · exact hnode
    · have hfind := hc.noticed.wf.mem_iff_find.mp hmem
      rw [hc.noticed.find] at hfind
      obtain ⟨m, hm, -⟩ := Option.map_eq_some_iff.mp hfind
      obtain ⟨hmem', hu⟩ := hc.start.find_eq_some.mp hm
      have hle := ha.last_max node (.inl rfl)
      rw [hnode, ← hu] at hle
      exact absurd hle (not_le.mpr (hmax m hmem'))

section

variable {h₂ h' : Host} {node last : NodeState}

theorem Carried.fresh_others (hc : Carried s env e h₁)
    (ha : Added h₁ (ackInfo e v addr) node last h₂) (hs : Switched last h₂ h') {u : Uuid}
    (hu : u ≠ v) (hm : h'.swim.find u = some n) : n.info.status.Known := by
  have hadded : h₂.swim.find = Function.update h₁.swim.find v (some node) := ha.find
  refine hs.known (fun k hk => ?_) hm
  rw [hadded, Function.update_of_ne hu] at hk
  exact hc.holds u k hk

theorem Added.find_switched (ha : Added h₁ (ackInfo e v addr) node last h₂)
    (hs : Switched last h₂ h') :
    h'.swim.find v = some (if last.uuid = v then node.acked else node) := by
  have hadded : h₂.swim.find = Function.update h₁.swim.find v (some node) := ha.find
  have hnode : node.uuid = v := congrArg NodeInfo.uuid ha.info_eq
  rw [hs.find, hadded, Function.update_self, Option.map_some, hnode]
  simp only [eq_comm]

/-- The switch makes the new entry ALIVE when the pointer designates it. -/
theorem Carried.fresh_known (hc : Carried s env e h₁)
    (ha : Added h₁ (ackInfo e v addr) node last h₂) (hs : Switched last h₂ h')
    (hmax : last.uuid = v) : h'.swim.Holds fun n => n.info.status.Known := by
  intro u m hm
  by_cases hu : u = v
  · rw [hu, ha.find_switched hs, if_pos hmax] at hm
    obtain rfl := Option.some.inj hm
    have hst : node.info.status = .unknown := by rw [ha.info_eq]; rfl
    simp only [NodeState.acked, hst]
    exact .inl rfl
  · exact hc.fresh_others ha hs hu hm

/-- The records are those of members, except for the new one. -/
theorem Carried.fresh_kept_iff (hc : Carried s env e h₁) (hself : v ≠ h'.swim.uuid)
    (ha : Added h₁ (ackInfo e v addr) node last h₂) (hs : Switched last h₂ h')
    (hmax : last.uuid ≠ v) :
    (∀ g ∈ e.gossip, g.uuid ≠ h'.swim.uuid →
        Covers (absorbAll g.uuid e.gossip (h'.swim.record g.uuid)) g) ↔
      (∀ g ∈ e.gossip, g.uuid ≠ v) ∨ ∃ g ∈ e.gossip, g.uuid = v ∧ 0 < g.incarnation := by
  have hrecord : h'.swim.record v = some (ackInfo e v addr) := by
    rw [SWIM.record, ha.find_switched hs, if_neg hmax, Option.map_some, ha.info_eq]
  have hunknown : (ackInfo e v addr).status = .unknown := rfl
  have hknown : ∀ g ∈ e.gossip, g.status.Known := fun g hg => (hc.gossip g hg).2
  rw [← absorbAll_unknown_iff hunknown rfl hknown, ← hrecord]
  constructor
  · rintro hall g hg rfl
    exact hall g hg hself
  · intro hv g hg _
    by_cases hu : g.uuid = v
    · rw [hu]
      exact hv g hg hu
    · refine (absorbAll_covers (fun i hi => ?_) hknown).2 g hg rfl
      obtain ⟨m, hm, rfl⟩ := Option.map_eq_some_iff.mp hi
      exact hc.fresh_others ha hs hu hm

end

/-- The node that an ACK adds has no status, unless its UUID is the greatest. -/
theorem Carried.ackFresh (hc : Carried s env e h₁) (hself : v ≠ s.uuid) (hn : s.find v = none) :
    wp (swimProcessAck e v addr) (fun _ h' => GossipKept e.gossip h'.swim ↔
      (∀ n ∈ s.members, n.uuid < v) ∨ (∀ g ∈ e.gossip, g.uuid ≠ v) ∨
        ∃ g ∈ e.gossip, g.uuid = v ∧ 0 < g.incarnation) (fun _ _ => False) h₁ := by
  have hfresh : h₁.swim.find v = none := by rw [hc.noticed.find, hn, Option.map_none]
  refine wp_ackFresh hc.noticed.wf (hc.noticed.same.1 ▸ hself) hfresh
    (fun h₂ h' node last ha hs => ?_) fun _ _ hna => hna hc.allocates
  have halloc : h'.env.Allocates := hs.later.allocates (ha.later.allocates hc.allocates)
  have huuid : h'.swim.uuid = s.uuid := hs.same.1.trans (ha.same.1.trans hc.noticed.same.1)
  have hgossip : ∀ g ∈ e.gossip, g.Processable h'.swim.uuid ∧ g.status.Known := huuid ▸ hc.gossip
  by_cases hmax : last.uuid = v
  · refine wp_mono (wp_gossipKept_known hs.wf halloc hgossip (hc.fresh_known ha hs hmax))
      (fun _ _ hkept => ?_) fun _ _ hf => hf
    exact iff_of_true hkept (.inl ((hc.last_iff hn ha).mp hmax))
  · refine wp_mono (wp_gossipKept hs.wf halloc fun g hg => (hgossip g hg).1) (fun _ _ hiff => ?_)
      fun _ _ hf => hf
    rw [hiff, or_iff_right (mt (hc.last_iff hn ha).mpr hmax)]
    exact hc.fresh_kept_iff (huuid ▸ hself) ha hs hmax

/-- The event is processed unless the record of its sender fails the assertion. -/
theorem wp_piggyback (addr : SockAddr) (hwf : s.WellFormed)
    (hk : s.Holds fun n => n.info.status.Known) (ha : env.Allocates)
    (hgs : ∀ g ∈ e.gossip, g.Processable s.uuid ∧ g.status.Known)
    (hb : e.body = .ping ∨ (∃ u, e.body = .ack u) ∨ ∃ u, e.body = .pingReq u) :
    wp (swimProcessEvent e addr)
      (fun _ h' => (∀ n, s.find e.hdr.uuid = some n → n.info.Valid) ∧
        (GossipKept e.gossip h'.swim ↔ e.KeepsGossip s))
      (fun _ _ => ∃ n, s.find e.hdr.uuid = some n ∧ ¬ n.info.Valid) ⟨s, env, []⟩ := by
  rw [swimProcessEvent, wp_bind]
  refine wp_noticed hwf (fun _ h₁ hn => ?_) fun n hn hv => ⟨n, hn, hv⟩
  have hc : Carried s env e h₁ := ⟨hwf, hk, ha, hgs, hn⟩
  suffices h : wp (dispatch e addr) (fun _ h' => GossipKept e.gossip h'.swim ↔ e.KeepsGossip s)
      (fun _ _ => False) h₁ from wp_mono h (fun _ _ hiff => ⟨hn.valid, hiff⟩) fun _ _ hf => hf.elim
  rcases hb with hb | ⟨u, hb⟩ | ⟨u, hb⟩
  · rw [dispatch, hb]
    refine wp_mono hc.ping (fun _ _ hkept => iff_of_true hkept ?_) fun _ _ hf => hf
    rw [Event.KeepsGossip, hb]
    trivial
  · simp only [dispatch, Event.KeepsGossip, hb]
    by_cases hself : u = s.uuid
    · simp only [if_pos hself]
      subst hself
      exact hc.ackSelf hb
    · simp only [if_neg hself]
      cases hm : s.find u with
      | some n =>
        refine wp_mono (hc.ackMember hm) (fun _ _ hkept => iff_of_true hkept ?_) fun _ _ hf => hf
        exact .inl ⟨n, hwf.find_eq_some.mp hm⟩
      | none =>
        refine wp_mono (hc.ackFresh hself hm) (fun _ _ hiff => hiff.trans (or_iff_right ?_).symm)
          fun _ _ hf => hf
        rintro ⟨n, hmem, hu⟩
        exact lookup_eq_none.mp hm n hmem hu
  · simp only [dispatch, Event.KeepsGossip, hb]
    exact hc.pingReq hb

end

/-- A PING, ACK or PING_REQ is processed and none of its gossip is lost just when the record of its
sender, if there is one, is valid, and the event keeps its gossip. -/
theorem gossip_kept_iff {s : SWIM} {e : Event} {env : Env} {addr : SockAddr} (hwf : s.WellFormed)
    (hs : ∀ n ∈ s.members, n.info.status.Known)
    (hb : e.body = .ping ∨ (∃ u, e.body = .ack u) ∨ ∃ u, e.body = .pingReq u)
    (hgs : ∀ g ∈ e.gossip, g.status.Known ∧ 0 < g.lastSeen)
    (hdead : ∀ g ∈ e.gossip, g.uuid = s.uuid → g.status ≠ .dead) (ha : env.Allocates) :
    (∃ s', Returns s ⟨env, .event e addr⟩ s' ∧ GossipKept e.gossip s') ↔
      (∀ n ∈ s.members, n.uuid = e.hdr.uuid → 0 < n.info.lastSeen) ∧ e.KeepsGossip s := by
  have hproc : ∀ g ∈ e.gossip, g.Processable s.uuid ∧ g.status.Known := by
    intro g hg
    obtain ⟨hk, hl⟩ := hgs g hg
    refine ⟨⟨⟨hl, ?_⟩, fun hself => hdead g hg hself.1 hself.2⟩, hk⟩
    intro hu
    rw [hu] at hk
    exact absurd hk (by decide)
  have hwp := wp_piggyback addr hwf (fun v n hn => hs n (hwf.find_eq_some.mp hn).1) ha hproc hb
  constructor
  · rintro ⟨s', ⟨ps, hrun⟩, hkept⟩
    obtain ⟨t, ⟨hvalid, hiff⟩, rfl, -⟩ := runStep_ok hrun hwp
    exact ⟨fun n hn hu => (hvalid n (hwf.find_eq_some.mpr ⟨hn, hu⟩)).1, hiff.mp hkept⟩
  · rintro ⟨hseen, hkeeps⟩
    have hvalid : ¬ ∃ n, s.find e.hdr.uuid = some n ∧ ¬ n.info.Valid := by
      rintro ⟨n, hn, hinvalid⟩
      obtain ⟨hmem, hu⟩ := hwf.find_eq_some.mp hn
      refine hinvalid ⟨hseen n hmem hu, fun hunknown => ?_⟩
      have hknown := hs n hmem
      rw [hunknown] at hknown
      exact absurd hknown (by decide)
    obtain ⟨t, ⟨-, hiff⟩, hrun⟩ := runStep_total (c := ⟨env, .event e addr⟩)
      (wp_mono hwp (fun _ _ ht => ht) fun _ _ hf => hvalid hf)
    exact ⟨t.swim, ⟨t.sent, hrun⟩, hiff.mpr hkeeps⟩

/-- An event of node 3 with an entry about node 4, which is new. -/
def newsCall (body : EventBody) : Call :=
  ⟨steadyEnv 1000, .event ⟨⟨.ofByte 3, 1000, 0⟩, body, [⟨.ofByte 4, 900, 0, .alive, .none⟩]⟩ .none⟩

/-- Nodes 3 and 5 are members; node 3 sends a PING that suspects node 5 and brings node 4. -/
theorem gossip_kept_ping :
    let s := (runStep (joinCall 5 .none) (runStep (joinCall 3 .none)
      (swimStateInit (.ofByte 1) 1000)).2.1).2.1
    let news : List NodeInfo :=
      [⟨.ofByte 5, 1010, 0, .suspect, .none⟩, ⟨.ofByte 4, 900, 0, .alive, .none⟩]
    let e : Event := ⟨⟨.ofByte 3, 1010, 0⟩, .ping, news⟩
    s.viewSize = 2 ∧ ∃ s', Returns s ⟨steadyEnv 1000, .event e .none⟩ s' ∧ GossipKept news s' := by
  intro s news e
  have hjoined : (runStep (joinCall 3 .none) (swimStateInit (.ofByte 1) 1000)).2.1.WellFormed :=
    (account (c := joinCall 3 .none) (.init (.ofByte 1) 1000) rfl).wf
  have hwf : s.WellFormed := (account (c := joinCall 5 .none) hjoined rfl).wf
  obtain ⟨hsize, hknown, hdead, hseen⟩ : s.viewSize = 2 ∧
      (∀ n ∈ s.members, n.info.status.Known) ∧
      (∀ g ∈ news, g.uuid = s.uuid → g.status ≠ .dead) ∧
      (∀ n ∈ s.members, n.uuid = .ofByte 3 → 0 < n.info.lastSeen) := by decide +kernel
  exact ⟨hsize, (gossip_kept_iff hwf hknown (.inl rfl) (by decide) hdead
    (steadyEnv_allocates 1000)).mpr ⟨hseen, trivial⟩⟩

/-- The entry is lost on a PING_REQ, on an ACK of the receiver's own UUID, and on an ACK of node 4
itself when node 5 is a member. -/
theorem gossip_lost :
    let news : NodeInfo := ⟨.ofByte 4, 900, 0, .alive, .none⟩
    let s := swimStateInit (.ofByte 1) 1000
    let s₅ := (runStep (joinCall 5 .none) s).2.1
    let sReq := (runStep (newsCall (.pingReq (.ofByte 2))) s).2.1
    let sAck := (runStep (newsCall (.ack (.ofByte 1))) s).2.1
    let sNew := (runStep (newsCall (.ack (.ofByte 4))) s₅).2.1
    (Returns s (newsCall (.pingReq (.ofByte 2))) sReq ∧ ¬ GossipKept [news] sReq) ∧
      (Returns s (newsCall (.ack (.ofByte 1))) sAck ∧ ¬ GossipKept [news] sAck) ∧
      Run Returns anyCall s s₅ ∧ (∀ n ∈ s₅.members, n.info.status.Known) ∧
      (Returns s₅ (newsCall (.ack (.ofByte 4))) sNew ∧ ¬ GossipKept [news] sNew) := by
  intro news s s₅ sReq sAck sNew
  unfold GossipKept
  refine ⟨⟨returns_of_ok ?_, ?_⟩, ⟨returns_of_ok ?_, ?_⟩,
    (Run.refl s).tail trivial (returns_of_ok ?_), ?_, ⟨returns_of_ok ?_, ?_⟩⟩
  all_goals decide +kernel

end LibSwim
