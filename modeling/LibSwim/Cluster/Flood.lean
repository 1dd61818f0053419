import LibSwim.Cluster.World
import LibSwim.Run.Outcomes

/-! # JOINs are flooded once

A node that hears of a JOIN for a node it does not know adds it and sends the JOIN on to its whole
view. Whoever has sent it on has the node in its view from then on, and a JOIN for a member is not
sent on: the flood ends.
-/

namespace LibSwim

open Foundations Program

/-- The event is a JOIN for `u`. -/
def EventBody.IsJoin (u : Uuid) : EventBody → Prop
  | .join v _ => v = u
  | .ping | .ack _ | .pingReq _ | .leave _ => False

instance (u : Uuid) : (body : EventBody) → Decidable (body.IsJoin u)
  | .join v _ => inferInstanceAs (Decidable (v = u))
  | .ping | .ack _ | .pingReq _ | .leave _ => .isFalse id

/-- The JOINs for `u` among the packets. -/
def joinsFor (u : Uuid) (ps : List Packet) : List Packet :=
  ps.filter fun p => p.event.body.IsJoin u

/-! ## What a JOIN makes a node send -/

section

variable {h h' : Host} {e : Event} {u v : Uuid} {addr joinAddr : SockAddr} {s : SWIM} {env : Env}
variable {ps : List Packet}

/-- A JOIN for the node itself or for a member is not sent on. Any other is sent to the whole view,
which the new member then belongs to, and the sender gets an ACK. -/
theorem wp_joinSent (hwf : h.swim.WellFormed) (ha : h.env.Allocates) :
    wp (swimProcessJoin e u joinAddr addr)
      (fun _ h' => h'.sent = h.sent ∨ u ≠ h.swim.uuid ∧ h.swim.find u = none ∧
        h'.swim.find u ≠ none ∧ ∃ ack : Packet, ack.event.body = .ack h.swim.uuid ∧
          h'.sent = h.sent ++ (h'.swim.members.map fun n =>
            ⟨{ e with body := .join u (fillJoinAddr joinAddr addr) }, n.info.addr⟩) ++ [ack])
      (fun _ h' => h'.sent = h.sent) h := by
  simp only [swimProcessJoin, wp_bind, wp_getSwim, uuidCompare_eq]
  refine wp_ite (fun _ => .inl rfl) fun hself => ?_
  refine wp_ite (fun _ => .inl rfl) fun hfresh => ?_
  rw [not_not, hwf.getNode_eq_none] at hfresh
  simp only [wp_bind, wp_assert, wp_getSwim]
  split_ifs
  refine wp_swimStateAdd hwf (Ne.symm hself) hfresh (fun _ _ hna => absurd ha hna)
    fun h₁ node last hadd => ?_
  refine wp_sendToAll hadd.wf ?_
  rw [swimSendAck]
  refine wp_sendWithGossip hadd.wf (fun h₂ _ hs => .inr ⟨Ne.symm hself, hfresh, ?_, ?_⟩)
    fun _ hm _ => absurd (hm.symm.trans ((hadd.later.allocates ha).1 0)) Bool.false_ne_true
  · have hfind : h₁.swim.find u = some node := by
      rw [hadd.find]
      exact Function.update_self _ _ _
    rw [hs.swim, hfind]
    exact Option.some_ne_none _
  · obtain ⟨time, gossip, -, -, hsent⟩ := hs.packet
    exact ⟨⟨⟨⟨h₁.swim.uuid, time, h₁.swim.incarnation⟩, .ack h₁.swim.uuid, gossip⟩, addr⟩,
      congrArg EventBody.ack hadd.same.1, by rw [hsent, hs.swim, hadd.sent]⟩

/-- Only a JOIN for `u` makes a node that processes an event send one. -/
theorem Reached.isJoin {t : SWIM} (hr : Reached env s (.event e addr) t ps) {p : Packet}
    (hp : p ∈ ps) (hj : p.event.body.IsJoin u) : ∃ a, e.body = .join u a := by
  generalize hact : Action.event e addr = action at hr
  induction hr with
  | start => cases hp
  | effect _ _ _ he ih =>
    rcases List.mem_append.mp hp with hp | hp
    · exact ih hp
    · cases he with
      | send h _ _ _ =>
        obtain rfl := List.mem_singleton.mp hp
        cases h with
        | join => cases hact
        | answer | relay | indirect | probe | request | leave => exact hj.elim
      | @forward _ _ joinUuid joinAddr _ ha hb _ =>
        obtain rfl := List.mem_singleton.mp hp
        rw [← hact] at ha
        cases ha
        have hu : joinUuid = u := hj
        exact ⟨joinAddr, hu ▸ hb⟩
      | node | insert | incarnate | idle => cases hp

/-- What the node sends on for `u` in an event, if it does: one copy of the JOIN to each member. -/
structure Flooded (e : Event) (addr : SockAddr) (u : Uuid) (s s' : SWIM) (ps : List Packet) :
    Prop where
  other : u ≠ s.uuid
  fresh : s.find u = none
  added : s'.find u ≠ none
  copies : ∃ joinAddr, e.body = .join u joinAddr ∧ joinsFor u ps = s'.members.map fun n =>
    ⟨{ e with body := .join u (fillJoinAddr joinAddr addr) }, n.info.addr⟩

theorem joinsFor_copies {ns : List NodeState} {ack : Packet} (hack : ack.event.body = .ack v) :
    joinsFor u ((ns.map fun n => ⟨{ e with body := .join u joinAddr }, n.info.addr⟩) ++ [ack]) =
      ns.map fun n => ⟨{ e with body := .join u joinAddr }, n.info.addr⟩ := by
  rw [joinsFor, List.filter_append, List.filter_eq_self.mpr, List.filter_eq_nil_iff.mpr,
    List.append_nil]
  · intro p hp
    obtain rfl := List.mem_singleton.mp hp
    simp [hack, EventBody.IsJoin]
  · intro p hp
    obtain ⟨n, -, rfl⟩ := List.mem_map.mp hp
    simp [EventBody.IsJoin]

theorem flooded_of_joins (hwf : s.WellFormed) (ha : env.Allocates)
    (hj : joinsFor u (runStep ⟨env, .event e addr⟩ s).2.2 ≠ []) :
    Flooded e addr u s (runStep ⟨env, .event e addr⟩ s).2.1
      (runStep ⟨env, .event e addr⟩ s).2.2 := by
  obtain ⟨p, hp⟩ := List.exists_mem_of_ne_nil _ hj
  obtain ⟨hp, hjoin⟩ := List.mem_filter.mp hp
  obtain ⟨joinAddr, hb⟩ :=
    (account (c := ⟨env, .event e addr⟩) hwf rfl).reached.isJoin hp (of_decide_eq_true hjoin)
  have hwp : wp (swimProcessEvent e addr) (fun _ h' => h'.sent = [] ∨
      Flooded e addr u s h'.swim h'.sent) (fun _ h' => h'.sent = []) ⟨s, env, []⟩ := by
    rw [swimProcessEvent, wp_bind]
    refine wp_noticed hwf (fun _ h₁ hn => ?_) fun _ _ _ => rfl
    rw [dispatch, hb]
    refine wp_mono (wp_joinSent hn.wf (hn.env ▸ ha)) (fun _ h' hsent => ?_) fun _ h' hsent =>
      hsent.trans hn.sent
    rcases hsent with hsent | ⟨hself, hfresh, hadded, ack, hack, hsent⟩
    · exact .inl (hsent.trans hn.sent)
    · rw [hn.sent, List.nil_append] at hsent
      rw [hn.find, Option.map_eq_none_iff] at hfresh
      exact .inr ⟨hn.same.1 ▸ hself, hfresh, hadded, joinAddr, hb, by
        rw [hsent, joinsFor_copies hack]⟩
  have hne : (runStep ⟨env, .event e addr⟩ s).2.2 ≠ [] := List.ne_nil_of_mem hp
  have hcases := wp_iff.mp hwp
  cases hr : (exec (swimProcessEvent e addr) ⟨s, env, []⟩).1 with
  | ok x =>
    rcases hcases.1 x _ (Prod.ext hr rfl) with hnil | hflood
    · exact absurd hnil hne
    · exact hflood
  | error f => exact absurd (hcases.2 f _ (Prod.ext hr rfl)) hne

end

/-! ## Over a run of the cluster -/

namespace World

variable {ι : Type} [DecidableEq ι] {uuid : ι → Uuid} {now : ι → ℤ} {w w' : World ι} {i : ι}
variable {u : Uuid} {c : Call}

/-- The call is an event in which node `i` sends a JOIN for `u` on. -/
def Forwards (w : World ι) (i : ι) (c : Call) (u : Uuid) : Prop :=
  (∃ e addr, c.action = .event e addr) ∧ joinsFor u (w.packets i c) ≠ []

/-- Allocation succeeds, and `recvfrom` reports an address. -/
def Served (w : World ι) (l : ι × Call) : Prop :=
  w.Admits l ∧ l.2.env.Allocates ∧ ∀ e addr, l.2.action = .event e addr → 0 < addr.addrlen

theorem sound_of_served (h : Run Step Served w w') (hw : w.Sound uuid) : w'.Sound uuid :=
  h.preserves (fun _ _ _ ht ha hs => ht.step ha.1 hs) hw

theorem member_of_run (h : Run Step Served w w') (hw : w.Sound uuid)
    (hu : (w.nodes i).find u ≠ none) : (w'.nodes i).find u ≠ none := by
  refine (h.preserves (I := fun t => t.Sound uuid ∧ (t.nodes i).find u ≠ none) ?_ ⟨hw, hu⟩).2
  rintro t ⟨j, c⟩ _ ⟨ht, hmem⟩ ha rfl
  exact ⟨ht.step ha.1 rfl, ht.find_call hmem⟩

/-- In every run: a node sends JOINs for a node on in one event at most, never for itself, one copy
to each member of its view, and each with an address. -/
theorem join_flooded_once (h : Run Step Served (World.init uuid now) w) (hs : w.Served (i, c))
    (hf : w.Forwards i c u) :
    u ≠ uuid i ∧
      (∃ e addr joinAddr, c.action = .event e addr ∧ 0 < joinAddr.addrlen ∧
        joinsFor u (w.packets i c) = ((w.call i c).nodes i).members.map fun n =>
          ⟨{ e with body := .join u joinAddr }, n.info.addr⟩) ∧
      ∀ w' c', Run Step Served (w.call i c) w' → w'.Served (i, c') → ¬ w'.Forwards i c' u := by
  have hsound := sound_of_served h (.init uuid now)
  have hsound' : (w.call i c).Sound uuid := hsound.step hs.1 rfl
  obtain ⟨⟨e, addr, hact⟩, hjoins⟩ := hf
  obtain ⟨env, action⟩ := c
  subst hact
  have hflood := flooded_of_joins (hsound.wf i) hs.2.1 hjoins
  refine ⟨hsound.uuid i ▸ hflood.other, ?_, ?_⟩
  · obtain ⟨joinAddr, -, hcopies⟩ := hflood.copies
    refine ⟨e, addr, fillJoinAddr joinAddr addr, rfl, ?_, ?_⟩
    · unfold fillJoinAddr
      split_ifs with hzero
      · exact hs.2.2 e addr rfl
      · exact Nat.pos_of_ne_zero hzero
    · rw [call_nodes, Function.update_self]
      exact hcopies
  · rintro w' ⟨env', action'⟩ hrun hs' ⟨⟨e', addr', rfl⟩, hjoins'⟩
    have hmem : ((w.call i ⟨env, .event e addr⟩).nodes i).find u ≠ none := by
      rw [call_nodes, Function.update_self]
      exact hflood.added
    have hflood' := flooded_of_joins ((sound_of_served hrun hsound').wf i) hs'.2.1 hjoins'
    exact member_of_run hrun hsound' hmem hflood'.fresh

/-- Node 3 is a member of the view of node 1 when node 2 asks to join, and is told of it. -/
theorem join_flooded_once_triple :
    let w := ((World.init triple fun _ => 1000).gather 2).call 1 ⟨steadyEnv 1000, .join .none⟩
    let c : Call := ⟨steadyEnv 1000, .event (joinOf (triple 1)) (addressOfTriple 1)⟩
    w.Forwards 0 c (triple 1) ∧
      (joinsFor (triple 1) (w.packets 0 c)).map (·.dest) = [addressOfTriple 1, addressOfTriple 2] ∧
      ∀ w' c', Run Step Served (w.call 0 c) w' → w'.Served (0, c') →
        ¬ w'.Forwards 0 c' (triple 1) := by
  intro w c
  have hinit : (World.init triple fun _ => 1000).Sound triple := .init _ _
  have hjoins {w : World (Fin 3)} {i : Fin 3} (ha : w.Admits (i, ⟨steadyEnv 1000, .join .none⟩)) :
      w.Served (i, ⟨steadyEnv 1000, .join .none⟩) :=
    ⟨ha, steadyEnv_allocates 1000, by rintro _ _ ⟨⟩⟩
  have hdelivers {w : World (Fin 3)} {e : Event} {i : Fin 3}
      (ha : w.Admits (0, ⟨steadyEnv 1000, .event e (addressOfTriple i)⟩)) :
      w.Served (0, ⟨steadyEnv 1000, .event e (addressOfTriple i)⟩) :=
    ⟨ha, steadyEnv_allocates 1000, by rintro _ _ ⟨⟩; exact Nat.one_pos⟩
  obtain ⟨hfirst, hheard⟩ := gather_admits hinit 2 rfl (by decide) (by decide)
  have hsound := (hinit.step hfirst rfl).step hheard rfl
  obtain ⟨hnext, hserved⟩ := gather_admits hsound 1 (by decide) (by decide) (by decide)
  have hrun : Run Step Served (World.init triple fun _ => 1000) w :=
    (((Run.refl _).tail (hjoins hfirst) rfl).tail (hdelivers hheard) rfl).tail (hjoins hnext) rfl
  have hforwards : w.Forwards 0 c (triple 1) := ⟨⟨_, _, rfl⟩, by decide⟩
  exact ⟨hforwards, by decide, (join_flooded_once hrun (hdelivers hserved) hforwards).2.2⟩

end World

end LibSwim
