import Mixnet.FloodOnce

/-! Re-elections. A node that falls back on itself may learn its own old route back from a node
that had it from there, and then next hops form a cycle. They form none as long as a node falls
back only when no such offer is in flight. -/
namespace Mixnet
open Relation Pointers
variable {V : Type*} {T : Topology V}

/-- A re-election of `u` is safe when no packet in flight that names a root smaller than `u` was
sent by a node whose next hops lead to `u`; a packet is safe unless its path length is the
largest. -/
def Net.Gentle (s : Net T) : Event T → Prop
  | .deliver v i => ∀ f ∈ (s.chan (T.peer v i) v).head?, f.packet.type = .stp →
      f.packet.payload.pathLength ≠ 65535
  | .reelect u => ∀ x y, ReflTransGen s.hop x u → ∀ f ∈ s.chan x y, f.packet.type = .stp →
      ¬ f.packet.payload.rootAddress < T.addr u
  | .fail _ _ => False
  | _ => True

def Control.hop (c : Control T) (v u : V) : Prop :=
  (c.node v).rootAddr ≠ (c.node v).myAddr ∧ (c.node v).nextHop = T.addr u

def Control.pairs (c : Control T) (v : V) : ℕ ×ₗ ℕ := (c.node v).pair

/-- What is left of the calm invariant: a packet in flight is not better than anything its
sender relies on. -/
structure PointerInv (c : Control T) : Prop where
  narrow : ∀ v, (c.node v).pathLen < 2^16
  stale : ∀ x y, ∀ p ∈ c.queue x y, Capped c.hop c.pairs x p.pair
  acyclic : ∀ v, ¬ TransGen c.hop v v

theorem hop_free {c : Control T} {v : V} (h : (c.node v).rootAddr = (c.node v).myAddr) (u : V) :
    ¬ c.hop v u := fun hop => hop.1 h

theorem capped_free {c : Control T} {v : V} (h : (c.node v).rootAddr = (c.node v).myAddr) :
    Capped c.hop c.pairs v (c.pairs v) :=
  capped_of_next le_rfl fun u hu => absurd hu (hop_free h u)

variable [DecidableEq V]

theorem PointerInv.init : PointerInv (Control.init T) where
  narrow := fun v => by simp [Control.init, initNode]
  stale := by
    intro x y p hp
    have hpair : p.pair = (Control.init T).pairs x := by
      simp only [Control.init] at hp
      split_ifs at hp
      · obtain rfl := List.mem_singleton.mp hp
        simp [Control.pairs, Control.init, initNode, Node.pair, StpPayload.pair]
      · simp at hp
    rw [hpair]
    exact capped_free rfl
  acyclic := by
    intro v hcycle
    obtain ⟨u, hvu, _⟩ := TransGen.head'_iff.mp hcycle
    exact hop_free rfl u hvu

theorem PointerInv.take {c : Control T} (h : PointerInv c) {v : V} {i : Fin (T.deg v)}
    {p : StpPayload} {rest : List StpPayload} (hq : c.queue (T.peer v i) v = p :: rest) :
    PointerInv (c.take v i rest) :=
  ⟨h.narrow, fun x y q hmem => h.stale x y q (mem_take_queue hq hmem), h.acyclic⟩

omit [DecidableEq V] in
theorem advert_pair {n : ℕ} {node : Node n} (h : node.pathLen < 2^16) :
    node.advert.payload.pair = node.pair := by
  have hmod : node.pathLen % 65536 = node.pathLen := Nat.mod_eq_of_lt h
  simp [StpPayload.pair, Node.pair, Node.advert, initializeStpPacket, hmod]

section Commit
variable {c : Control T} {v : V} {o : Outcome (T.deg v)}

theorem commit_pairs_self : (c.commit v o).pairs v = o.node.pair := by
  rw [Control.pairs, commit_node_self]

theorem commit_pairs_ne {w : V} (h : w ≠ v) : (c.commit v o).pairs w = c.pairs w := by
  rw [Control.pairs, Control.pairs, commit_node_ne _ _ _ h]

theorem commit_pairs_le (h : o.node.pair ≤ c.pairs v) (w : V) :
    (c.commit v o).pairs w ≤ c.pairs w :=
  commit_forall c v o (P := fun w node => node.pair ≤ c.pairs w) h (fun _ => le_rfl) w

theorem commit_hop {x y : V} (h : (c.commit v o).hop x y) :
    c.hop x y ∨ x = v ∧ o.node.rootAddr ≠ o.node.myAddr ∧ o.node.nextHop = T.addr y := by
  by_cases hx : x = v
  · subst hx
    rw [Control.hop, commit_node_self] at h
    exact Or.inr ⟨rfl, h⟩
  · rw [Control.hop, commit_node_ne _ _ _ hx] at h
    exact Or.inl h

theorem commit_hop_self {y : V} : (c.commit v o).hop v y ↔
    o.node.rootAddr ≠ o.node.myAddr ∧ o.node.nextHop = T.addr y := by
  rw [Control.hop, commit_node_self]

theorem PointerInv.commit (h : PointerInv c) (hlen : o.node.pathLen < 2^16)
    (hold : ∀ x y, ∀ p ∈ c.queue x y, Capped (c.commit v o).hop (c.commit v o).pairs x p.pair)
    (hnew : o.sends ≠ [] → Capped (c.commit v o).hop (c.commit v o).pairs v o.node.pair)
    (hac : ∀ w, ¬ TransGen (c.commit v o).hop w w) : PointerInv (c.commit v o) where
  narrow := commit_forall c v o (P := fun _ node => node.pathLen < 2^16) hlen h.narrow
  stale := by
    intro x y q hmem
    by_cases hx : x = v
    · subst hx
      rw [commit_queue_self, List.mem_append] at hmem
      obtain hmem | hmem := hmem
      · exact hold x y q hmem
      · split_ifs at hmem with hs
        · obtain rfl := List.mem_singleton.mp hmem
          rw [advert_pair hlen]
          exact hnew hs.2.2
        · simp at hmem
    · rw [commit_queue_ne _ _ _ hx] at hmem
      exact hold x y q hmem
  acyclic := hac

theorem PointerInv.commit_same (h : PointerInv c) (hroute : o.node.route = (c.node v).route)
    (hmy : o.node.myAddr = (c.node v).myAddr)
    (hown : o.sends ≠ [] → Capped c.hop c.pairs v (c.pairs v)) : PointerInv (c.commit v o) := by
  obtain ⟨hroot, hlen, hnext⟩ := route_eq_iff.mp hroute
  have hpair : o.node.pair = c.pairs v := by rw [Control.pairs, Node.pair, Node.pair, hroot, hlen]
  have hhop : ∀ x y, (c.commit v o).hop x y → c.hop x y := by
    intro x y hxy
    obtain hold | ⟨rfl, hne, haddr⟩ := commit_hop hxy
    · exact hold
    · exact ⟨hroot ▸ hmy ▸ hne, hnext ▸ haddr⟩
  have hkeep : ∀ {x b}, Capped c.hop c.pairs x b →
      Capped (c.commit v o).hop (c.commit v o).pairs x b := by
    intro x b hcap
    refine hcap.drop (v := v) hhop (fun y _ => commit_pairs_le hpair.le y) ?_
    intro hxv
    rw [commit_pairs_self, hpair]
    exact hcap v hxv
  refine h.commit ?_ (fun x y p hp => hkeep (h.stale x y p hp)) ?_
    (acyclic_of_subset hhop h.acyclic)
  · rw [hlen]
    exact h.narrow v
  · intro hs
    rw [hpair]
    exact hkeep (hown hs)

end Commit

omit [DecidableEq V] in
/-- A parent's packet bounds what `v` relies on: `v` is one hop worse than the packet. -/
theorem PointerInv.capped_echo {c : Control T} (h : PointerInv c) (hl : LinkInv c) {u v : V}
    {p : StpPayload} (hp : p ∈ c.queue u v) (hecho : p.offer = (c.node v).route) :
    Capped c.hop c.pairs v (c.pairs v) := by
  obtain ⟨hroot, hlen, hnext⟩ := (matchesParent_iff _ _).mpr hecho
  refine capped_of_next le_rfl ?_
  intro w hw
  have hwu : w = u := T.addr_injective (hw.2.symm.trans (hnext.symm.trans (hl.sender u v p hp)))
  rw [hwu]
  refine (h.stale u v p hp).trans ?_
  rw [Control.pairs, Node.pair, StpPayload.pair, Prod.Lex.toLex_le_toLex, hroot, ← hlen]
  exact Or.inr ⟨rfl, Nat.le_succ _⟩

/-- The sender of a better offer does not rely on `v`: all it relies on is at most the offer. -/
theorem PointerInv.adopt {c : Control T} (h : PointerInv c) (hl : LinkInv c) {v : V}
    {i : Fin (T.deg v)} {p : StpPayload} {rest : List StpPayload}
    (hq : c.queue (T.peer v i) v = p :: rest) (hlt : p.offer < (c.node v).route)
    (hp : p.pathLength ≠ 65535) :
    PointerInv ((c.take v i rest).commit v
      ⟨(c.node v).adopt i p, sendStp ((c.node v).adopt i p), false⟩) := by
  have hmem : p ∈ c.queue (T.peer v i) v := by simp [hq]
  have hsender := hl.sender _ _ p hmem
  have hle : ((c.node v).adopt i p).pair ≤ c.pairs v := offer_pair hlt
  have hgt : p.pair < ((c.node v).adopt i p).pair := by
    rw [StpPayload.pair, Node.pair, Prod.Lex.toLex_lt_toLex]
    exact Or.inr ⟨rfl, Nat.lt_succ_self _⟩
  have hstale := h.stale _ _ p hmem
  have hback : ¬ ReflTransGen c.hop (T.peer v i) v :=
    fun hv => (hgt.trans_le hle).not_ge (hstale v hv)
  have hcap : Capped c.hop c.pairs (T.peer v i) (c.pairs v) := hstale.trans (hgt.le.trans hle)
  have hr : Redirects c.hop ((c.take v i rest).commit v
      ⟨(c.node v).adopt i p, sendStp ((c.node v).adopt i p), false⟩).hop v (T.peer v i) := by
    intro x y hxy
    obtain hold | ⟨rfl, _, hnext⟩ := commit_hop hxy
    · exact Or.inl hold
    · exact Or.inr ⟨rfl, T.addr_injective (hnext.symm.trans hsender)⟩
  refine (h.take hq).commit ?_ ?_ ?_ (hr.acyclic hback h.acyclic)
  · have hbound := p.pathLength.toNat_lt
    have hne : p.pathLength.toNat ≠ 65535 := fun he => hp (UInt16.toNat_inj.mp he)
    change p.pathLength.toNat + 1 < 2^16
    omega
  · intro x y q hq'
    exact (h.stale x y q (mem_take_queue hq hq')).redirect hr (commit_pairs_le hle) hcap
  · intro _
    refine capped_of_next commit_pairs_self.le ?_
    intro y hy
    have hyu : y = T.peer v i :=
      T.addr_injective ((commit_hop_self.mp hy).2.symm.trans hsender)
    rw [hyu]
    exact (hstale.trans hgt.le).redirect hr (commit_pairs_le hle) hcap

/-- Falling back raises the pair of `v` to its own address and 0. Whatever is in flight from a
node that relies on `v` names no smaller root, so it stays above. -/
theorem PointerInv.reelect {c : Control T} (h : PointerInv c) (hl : LinkInv c) {v : V}
    (hflight : ∀ x y, ReflTransGen c.hop x v → ∀ p ∈ c.queue x y,
      ¬ p.rootAddress < T.addr v) : PointerInv (c.commit v (Mixnet.reelect (c.node v))) := by
  have hpair : (Mixnet.reelect (c.node v)).node.pair = toLex ((T.addr v).toNat, 0) := by
    rw [← hl.myAddr v]
    rfl
  have hhop : ∀ x y, (c.commit v (Mixnet.reelect (c.node v))).hop x y → c.hop x y := by
    intro x y hxy
    obtain hold | ⟨_, hne, _⟩ := commit_hop hxy
    · exact hold
    · exact absurd rfl hne
  refine h.commit ?_ ?_ ?_ (acyclic_of_subset hhop h.acyclic)
  · simp [Mixnet.reelect]
  · intro x y p hp
    refine (h.stale x y p hp).drop (v := v) hhop (fun w hw => (commit_pairs_ne hw).le) ?_
    intro hxv
    have hroot := hflight x y hxv p hp
    rw [UInt16.lt_iff_toNat_lt] at hroot
    rw [commit_pairs_self, hpair, StpPayload.pair, Prod.Lex.toLex_le_toLex]
    simp only
    omega
  · intro _
    refine capped_of_next commit_pairs_self.le ?_
    intro y hy
    exact absurd rfl (commit_hop_self.mp hy).1

theorem PointerInv.step {s : Net T} {c' : Control T} {e : Event T} (h : PointerInv s.control)
    (hl : LinkInv s.control) (hg : s.Gentle e) (hstp : s.Stp e)
    (hs : ControlStep s.control e c') : PointerInv c' := by
  cases hs with
  | receive v i p rest o hq hc =>
    obtain ⟨f, rest', hchan, ht⟩ := hstp
    have hhead : p = f.packet.payload := by
      have hstps := stps_of_chan hchan ht
      exact (List.cons.inj (hq.symm.trans hstps)).1
    have hp : p.pathLength ≠ 65535 := by
      rw [hhead]
      exact hg f (by simp [hchan]) ht
    have hmem : p ∈ s.control.queue (T.peer v i) v := by simp [hq]
    cases hc with
    | echo hoffer => exact (h.take hq).commit_same rfl rfl fun _ => h.capped_echo hl hmem hoffer
    | firstContact _ _ => exact (h.take hq).commit_same rfl rfl fun hne => absurd rfl hne
    | ignore _ _ => exact (h.take hq).commit_same rfl rfl fun hne => absurd rfl hne
    | adopt hoffer _ => exact h.adopt hl hq hoffer hp
  | hello v hroot => exact h.commit_same rfl rfl fun _ => capped_free hroot
  | reelect v hroot =>
    refine h.reelect hl fun x y hxv p hp => ?_
    obtain ⟨f, hf, hfp⟩ := List.mem_filterMap.mp hp
    split_ifs at hfp with ht
    obtain rfl := Option.some.inj hfp
    exact hg x y hxv f hf ht
  | fail a b => exact absurd hg id

theorem gentle_reach {s : Net T} (h : Net.Reach Net.Gentle (Net.init T) s) :
    LinkInv s.control ∧ PointerInv s.control := by
  refine control_invariant_net (P := fun c => LinkInv c ∧ PointerInv c) h ?_ ?_
  · rw [control_init]
    exact ⟨LinkInv.init, PointerInv.init⟩
  · intro u c' e hu hg hstp hstep
    exact ⟨hu.1.step hstep, hu.2.step hu.1 hg hstp hstep⟩

/-- In a run whose re-elections are all gentle, next-hop pointers never form a cycle. -/
theorem no_loop_when_gentle (T : Topology V) (s : Net T)
    (h : Net.Reach Net.Gentle (Net.init T) s) (v : V) : ¬ TransGen s.hop v v :=
  (gentle_reach h).2.acyclic v

omit [DecidableEq V] in
/-- It is safe to fall back while no STP packet is in flight. -/
theorem gentle_of_quiet {s : Net T} (h : ∀ u v, s.stps u v = []) (u : V) :
    s.Gentle (.reelect u) := by
  intro x y _ f hf ht
  have hmem := mem_stps hf ht
  rw [h x y] at hmem
  exact absurd hmem List.not_mem_nil

/-- It is safe to fall back when neither a node that points here nor a packet sent from here
names a smaller root: then nothing in flight from further down does. -/
theorem gentle_of_children {s : Net T} (h : Net.Reach Net.Gentle (Net.init T) s) {u : V}
    (hbelow : ∀ v, s.hop v u → ¬ (s.node v).rootAddr < T.addr u)
    (hown : ∀ y, ∀ f ∈ s.chan u y, f.packet.type = .stp →
      ¬ f.packet.payload.rootAddress < T.addr u) : s.Gentle (.reelect u) := by
  intro x y hxu f hf ht
  obtain rfl | ⟨v, hxv, hvu⟩ := hxu.cases_tail
  · exact hown y f hf ht
  · have hcap := (gentle_reach h).2.stale x y _ (mem_stps hf ht) v hxv
    have hroot := hbelow v hvu
    change (s.node v).pair ≤ _ at hcap
    rw [Node.pair, StpPayload.pair, Prod.Lex.toLex_le_toLex] at hcap
    rw [UInt16.lt_iff_toNat_lt] at hroot ⊢
    simp only at hcap
    omega

/-- A check that implies `Net.Gentle`: nobody falls back while an STP packet is in flight. -/
def Net.Patient (s : Net T) : Event T → Prop
  | .deliver v i => s.Gentle (.deliver v i)
  | .reelect _ => ∀ u v, s.stps u v = []
  | .fail _ _ => False
  | _ => True

instance [Fintype V] (s : Net T) : DecidablePred s.Patient
  | .deliver v i => inferInstanceAs (Decidable (∀ f ∈ (s.chan (T.peer v i) v).head?, _ → _))
  | .reelect _ => inferInstanceAs (Decidable (∀ u v, s.stps u v = []))
  | .fail _ _ => .isFalse id
  | .inject _ _ | .hello _ => .isTrue trivial

omit [DecidableEq V] in
theorem Net.Patient.gentle {s : Net T} : ∀ e, s.Patient e → s.Gentle e
  | .deliver _ _, h => h
  | .reelect u, h => gentle_of_quiet h u
  | .fail _ _, h => h
  | .inject _ _, h | .hello _, h => h

theorem no_loop_when_gentle_square : ∃ s : Net square,
    Runs.run (fun u e => if u.Patient e then u.step e else none) squareFallsBack
      (Net.init square) = some s ∧ s.hop 2 1 ∧ s.hop 1 0 ∧ ∀ v, ¬ TransGen s.hop v v := by
  have hrun : ((Runs.run (fun u e => if u.Patient e then u.step e else none) squareFallsBack
      (Net.init square)).any fun s => decide
        (((s.node 2).rootAddr ≠ (s.node 2).myAddr ∧ (s.node 2).nextHop = square.addr 1) ∧
          (s.node 1).rootAddr ≠ (s.node 1).myAddr ∧ (s.node 1).nextHop = square.addr 0))
      = true := by decide +kernel
  obtain ⟨s, hs, hhops⟩ := (Option.any_eq_true _ _).mp hrun
  obtain ⟨hfar, hnear⟩ := of_decide_eq_true hhops
  refine ⟨s, hs, hfar, hnear, no_loop_when_gentle square s ?_⟩
  exact (Runs.reach_of_checked hs).mono fun _ => Net.Patient.gentle

/-- Node 3 has its route to node 1 from node 2. When node 2 falls back on itself it learns that
route back: nodes 2 and 3 are each other's next hop. -/
theorem loop_after_reelection : ∃ s : Net triangle,
    Net.Reach (fun _ e => e.Lossless) (Net.init triangle) s ∧
      (s.node 1).rootAddr = 1 ∧ (s.node 2).rootAddr = 1 ∧ Relation.TransGen s.hop 1 1 := by
  have hrun : ((Runs.run Net.step [.deliver 0 0, .deliver 0 1, .deliver 1 0, .deliver 1 1,
      .deliver 2 0, .deliver 2 1, .hello 0, .deliver 1 1, .deliver 2 1, .reelect 1, .deliver 1 0]
      (Net.init triangle)).any fun s => decide ((s.node 1).rootAddr = 1 ∧
        (s.node 2).rootAddr = 1 ∧ (s.node 1).myAddr = 2 ∧ (s.node 2).myAddr = 3 ∧
        (s.node 1).nextHop = 3 ∧ (s.node 2).nextHop = 2)) = true := by decide +kernel
  obtain ⟨s, hs, hall⟩ := (Option.any_eq_true _ _).mp hrun
  obtain ⟨hone, htwo, hmy, hmy', hnext, hnext'⟩ := of_decide_eq_true hall
  have hhop : s.hop 1 2 := ⟨by rw [hone, hmy]; decide, hnext⟩
  have hhop' : s.hop 2 1 := ⟨by rw [htwo, hmy']; decide, hnext'⟩
  refine ⟨s, Runs.reach_of_run ?_ hs, hone, htwo, .tail (.single hhop) hhop'⟩
  simp [Event.Lossless]

end Mixnet
