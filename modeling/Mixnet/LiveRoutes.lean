import Mixnet.Settled

/-! Routes over the links that are left. In a run without further failures and re-elections every
route, held or in flight, stays backed by a path of live links, once it has been so; and a link has
carried what its sender sent. -/
namespace Mixnet
variable {V : Type*} {T : Topology V}

/-- The route promises no more than the live links can give. -/
structure Backed (c : Control T) (u : V) (r k : ℕ) : Prop where
  chain : Chain c u r k
  near : ∃ w, c.liveGraph.Reachable u w ∧ (T.addr w).toNat = r ∧ c.liveGraph.dist u w ≤ k

theorem Backed.mono {c c' : Control T} {u : V} {r k : ℕ} (h : Backed c u r k)
    (hlive : c'.live = c.live) (hle : ∀ x, (c'.node x).pair ≤ (c.node x).pair) :
    Backed c' u r k where
  chain := h.chain.mono hle
  near := by
    rw [liveGraph_congr hlive]
    exact h.near

theorem Backed.cons {c c' : Control T} {u v : V} {r k : ℕ} (h : Backed c u r k)
    (hlive : c'.live = c.live) (hadj : c.liveGraph.Adj v u)
    (hlt : toLex (r, k) < (c.node v).pair) (hle : ∀ x, (c'.node x).pair ≤ (c.node x).pair)
    (hv : (c'.node v).pair ≤ toLex (r, k + 1)) : Backed c' v r (k + 1) where
  chain := h.chain.cons hadj.1 hlt hle hv
  near := by
    rw [liveGraph_congr hlive]
    obtain ⟨w, hreach, hr, hdist⟩ := h.near
    obtain ⟨p, hp⟩ := hreach.exists_walk_length_eq_dist
    have hstep := SimpleGraph.dist_le (.cons hadj p)
    rw [SimpleGraph.Walk.length_cons] at hstep
    exact ⟨w, hadj.reachable.trans hreach, hr, by omega⟩

theorem Backed.root {c : Control T} {v : V} (h : (c.node v).pair ≤ toLex ((T.addr v).toNat, 0)) :
    Backed c v (T.addr v).toNat 0 where
  chain := by
    refine ⟨v, .nil, SimpleGraph.Walk.IsPath.nil, rfl, rfl, fun i => ?_⟩
    rw [SimpleGraph.Walk.getVert_nil, Nat.zero_sub]
    exact h
  near := ⟨v, .refl v, rfl, by rw [SimpleGraph.dist_self]⟩

/-- Every route is backed, and a node's parent is behind a live link and no worse off. -/
structure LiveRoutes (c : Control T) : Prop where
  node : ∀ v, Backed c v (c.node v).rootAddr.toNat (c.node v).pathLen
  packet : ∀ u v, ∀ p ∈ c.queue u v, Backed c u p.rootAddress.toNat p.pathLength.toNat
  parent : ∀ v, (c.node v).rootAddr ≠ T.addr v → ∃ u, c.liveGraph.Adj v u ∧
    (c.node v).nextHop = T.addr u ∧
    toLex ((c.node u).rootAddr.toNat, (c.node u).pathLen + 1) ≤ (c.node v).pair

variable [DecidableEq V]

theorem LiveRoutes.take {c : Control T} (h : LiveRoutes c) {v : V} {i : Fin (T.deg v)}
    {p : StpPayload} {rest : List StpPayload} (hq : c.queue (T.peer v i) v = p :: rest) :
    LiveRoutes (c.take v i rest) where
  node := fun w => (h.node w).mono rfl fun _ => le_rfl
  packet := fun x y q hmem => (h.packet x y q (mem_take_queue hq hmem)).mono rfl fun _ => le_rfl
  parent := h.parent

theorem LiveRoutes.commit [Fintype V] {c : Control T} (h : LiveRoutes c) {v : V}
    {o : Outcome (T.deg v)} (hle : o.node.pair ≤ (c.node v).pair)
    (hnode : Backed (c.commit v o) v o.node.rootAddr.toNat o.node.pathLen)
    (hparent : o.node.rootAddr ≠ T.addr v → ∃ u, c.liveGraph.Adj v u ∧
      o.node.nextHop = T.addr u ∧
      toLex ((c.node u).rootAddr.toNat, (c.node u).pathLen + 1) ≤ o.node.pair) :
    LiveRoutes (c.commit v o) where
  node := commit_forall c v o (P := fun w node =>
    Backed (c.commit v o) w node.rootAddr.toNat node.pathLen) hnode
      fun w => (h.node w).mono rfl (commit_pair_le hle)
  packet := by
    intro x y q hmem
    obtain hold | ⟨rfl, rfl⟩ := mem_commit_queue hmem
    · exact (h.packet x y q hold).mono rfl (commit_pair_le hle)
    · have hmod : o.node.pathLen % 65536 = o.node.pathLen :=
        Nat.mod_eq_of_lt hnode.chain.narrow
      simpa [Node.advert, initializeStpPacket, hmod] using hnode
  parent := by
    intro w hw
    have hold : ∃ u, c.liveGraph.Adj w u ∧ ((c.commit v o).node w).nextHop = T.addr u ∧
        toLex ((c.node u).rootAddr.toNat, (c.node u).pathLen + 1) ≤
          ((c.commit v o).node w).pair :=
      commit_forall c v o (P := fun w node => node.rootAddr ≠ T.addr w →
        ∃ u, c.liveGraph.Adj w u ∧ node.nextHop = T.addr u ∧
          toLex ((c.node u).rootAddr.toNat, (c.node u).pathLen + 1) ≤ node.pair)
        hparent h.parent w hw
    obtain ⟨u, hadj, hnext, hpair⟩ := hold
    exact ⟨u, hadj, hnext, (succ_le_of_pair_le (commit_pair_le hle u)).trans hpair⟩

theorem LiveRoutes.commit_same [Fintype V] {c : Control T} (h : LiveRoutes c) {v : V}
    {o : Outcome (T.deg v)} (hr : o.node.route = (c.node v).route) :
    LiveRoutes (c.commit v o) := by
  obtain ⟨hroot, hlen, hnext⟩ := route_eq_iff.mp hr
  have hpair : o.node.pair = (c.node v).pair := by rw [Node.pair, Node.pair, hroot, hlen]
  refine h.commit hpair.le ?_ ?_
  · rw [hroot, hlen]
    exact (h.node v).mono rfl (commit_pair_le hpair.le)
  · rw [hroot, hnext, hpair]
    exact h.parent v

theorem LiveRoutes.step [Fintype V] {c c' : Control T} {e : Event T} (h : LiveRoutes c)
    (hp : PortInv c) (hcalm : e.Calm) (hs : ControlStep c e c') : LiveRoutes c' := by
  cases hs with
  | receive v i p rest o hq hc =>
    have ht := h.take hq
    cases hc with
    | echo _ => exact ht.commit_same rfl
    | firstContact _ _ => exact ht.commit_same rfl
    | ignore _ _ => exact ht.commit_same rfl
    | adopt hlt _ =>
      have hmem : p ∈ c.queue (T.peer v i) v := by simp [hq]
      have hback := h.packet _ _ p hmem
      obtain ⟨hadj, hlive⟩ := hp.links.link _ _ (List.ne_nil_of_mem hmem)
      have hladj : c.liveGraph.Adj v (T.peer v i) := (hp.liveGraph_adj.mpr ⟨hadj, hlive⟩).symm
      have hle : ((c.node v).adopt i p).pair ≤ (c.node v).pair := offer_pair hlt
      have hall := commit_pair_le (c := c.take v i rest)
        (o := ⟨(c.node v).adopt i p, sendStp ((c.node v).adopt i p), false⟩) hle
      have hstep : (toLex (p.rootAddress.toNat, p.pathLength.toNat) : ℕ ×ₗ ℕ) <
          toLex (p.rootAddress.toNat, p.pathLength.toNat + 1) := by
        rw [Prod.Lex.toLex_lt_toLex]
        exact Or.inr ⟨rfl, Nat.lt_succ_self _⟩
      refine ht.commit hle ?_ fun _ => ⟨T.peer v i, hladj, hp.links.sender _ _ p hmem, ?_⟩
      · refine hback.cons rfl hladj (hstep.trans_le hle) hall ?_
        rw [commit_node_self]
        exact le_rfl
      · have htop := hback.chain.top
        rw [Node.pair, Prod.Lex.toLex_le_toLex] at htop
        rw [Node.pair, Prod.Lex.toLex_le_toLex]
        simp only [take_node, Node.adopt] at htop ⊢
        omega
  | hello v hroot => exact h.commit_same rfl
  | reelect v hroot => exact absurd hcalm id
  | fail u v => exact absurd hcalm id

/-- A live link has delivered what was sent over it, but for what is in flight. -/
structure Counted (c : Control T) : Prop where
  sent : ∀ u j, 1 ≤ c.sentStp u j
  balance : ∀ u v i j, T.peer v i = u → T.peer u j = v → c.live u v = true →
    c.processed v i + (c.queue u v).length = c.sentStp u j

theorem Counted.init : Counted (Control.init T) where
  sent := fun _ _ => le_rfl
  balance := by
    intro u v i j hu hv _
    have hadj : T.graph.Adj u v := ⟨j, hv⟩
    simp [Control.init, hadj]

theorem Counted.take {c : Control T} (h : Counted c) {w : V} {k : Fin (T.deg w)}
    {p : StpPayload} {rest : List StpPayload} (hq : c.queue (T.peer w k) w = p :: rest) :
    Counted (c.take w k rest) where
  sent := h.sent
  balance := by
    intro u v i j hu hv hlive
    have hold := h.balance u v i j hu hv hlive
    by_cases hvw : v = w
    · subst hvw
      by_cases hik : i = k
      · subst hik
        subst hu
        rw [take_processed_self, take_queue_self]
        rw [hq, List.length_cons] at hold
        change _ = c.sentStp _ j
        omega
      · have hne : ¬ (u = T.peer v k ∧ v = v) := fun hx =>
          hik (T.peer_injective v (hu.trans hx.1))
        rw [take_processed_port _ _ _ _ hik, take_queue_ne _ _ _ _ hne]
        exact hold
    · rw [take_processed_ne _ _ _ _ hvw, take_queue_ne _ _ _ _ fun hx => hvw hx.2]
      exact hold

theorem commit_sentStp_self (c : Control T) (v : V) (o : Outcome (T.deg v)) (j : Fin (T.deg v)) :
    (c.commit v o).sentStp v j = c.sentStp v j + if o.sends ≠ [] then 1 else 0 := by
  simp [Control.commit]

theorem commit_sentStp_ne (c : Control T) {v u : V} (o : Outcome (T.deg v)) (h : u ≠ v) :
    (c.commit v o).sentStp u = c.sentStp u := by
  simp [Control.commit, h]

theorem le_commit_sentStp (c : Control T) (v : V) (o : Outcome (T.deg v)) (u : V)
    (j : Fin (T.deg u)) : c.sentStp u j ≤ (c.commit v o).sentStp u j := by
  by_cases hu : u = v
  · subst hu
    rw [commit_sentStp_self]
    exact Nat.le_add_right _ _
  · rw [commit_sentStp_ne c o hu]

theorem Counted.commit {c : Control T} (h : Counted c) (w : V) (o : Outcome (T.deg w)) :
    Counted (c.commit w o) where
  sent := fun u j => (h.sent u j).trans (le_commit_sentStp c w o u j)
  balance := by
    intro u v i j hu hv (hlive : c.live u v = true)
    have hold := h.balance u v i j hu hv hlive
    have hadj : T.graph.Adj u v := ⟨j, hv⟩
    rw [commit_processed]
    by_cases huw : u = w
    · subst huw
      rw [commit_queue_self, commit_sentStp_self]
      by_cases hs : o.sends = []
      · simp only [hs, ne_eq, not_true_eq_false, and_false, if_false, List.append_nil]
        exact hold
      · rw [if_pos ⟨hadj, hlive, hs⟩, if_pos hs, List.length_append, List.length_singleton]
        omega
    · rw [commit_queue_ne _ _ _ huw, commit_sentStp_ne c o huw]
      exact hold

theorem Counted.step {c c' : Control T} {e : Event T} (h : Counted c)
    (hs : ControlStep c e c') : Counted c' := by
  cases hs with
  | receive v i p rest o hq hc => exact (h.take hq).commit v o
  | hello v hroot => exact h.commit v _
  | reelect v hroot => exact h.commit v _
  | fail a b =>
    refine ⟨h.sent, fun u v i j hu hv hlive => ?_⟩
    obtain ⟨hlive', hq, -⟩ := cut_live hlive
    rw [hq]
    exact h.balance u v i j hu hv hlive'

end Mixnet
