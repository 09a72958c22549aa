import Mathlib.Combinatorics.SimpleGraph.Metric
import Mathlib.Data.Fintype.Card
import Mixnet.PortInvariant

/-! Runs without re-elections and link failures. Nodes only ever improve, so every route, held
or in flight, is backed by a path of distinct nodes down to the root it names. -/
namespace Mixnet
variable {V : Type*}

/-- The events of a run without re-election and link change. -/
def Event.Calm {T : Topology V} : Event T → Prop
  | .reelect _ | .fail _ _ => False
  | _ => True

def Event.Lossless {T : Topology V} : Event T → Prop
  | .fail _ _ => False
  | _ => True

instance {T : Topology V} : DecidablePred (Event.Calm (T := T))
  | .deliver _ _ | .inject _ _ | .hello _ => .isTrue trivial
  | .reelect _ | .fail _ _ => .isFalse id

def Node.pair {n : ℕ} (node : Node n) : ℕ ×ₗ ℕ := toLex (node.rootAddr.toNat, node.pathLen)

def StpPayload.pair (p : StpPayload) : ℕ ×ₗ ℕ := toLex (p.rootAddress.toNat, p.pathLength.toNat)

variable {T : Topology V}

/-- A path of `k` hops from `u` to the node with address `r`, along which the pairs of the
nodes are at most what the path promises. -/
def Chain (c : Control T) (u : V) (r k : ℕ) : Prop :=
  ∃ w, ∃ p : T.graph.Walk u w, p.IsPath ∧ p.length = k ∧ (T.addr w).toNat = r ∧
    ∀ i, (c.node (p.getVert i)).pair ≤ toLex (r, k - i)

theorem Chain.mono {c c' : Control T} {u : V} {r k : ℕ} (h : Chain c u r k)
    (hle : ∀ x, (c'.node x).pair ≤ (c.node x).pair) : Chain c' u r k := by
  obtain ⟨w, p, hp, hlen, hr, hpair⟩ := h
  exact ⟨w, p, hp, hlen, hr, fun i => (hle _).trans (hpair i)⟩

theorem Chain.top {c : Control T} {u : V} {r k : ℕ} (h : Chain c u r k) :
    (c.node u).pair ≤ toLex (r, k) := by
  obtain ⟨w, p, _, _, _, hpair⟩ := h
  have h0 := hpair 0
  rwa [p.getVert_zero, Nat.sub_zero] at h0

/-- A node that holds more than the chain promises is not on it, and can be put on top. -/
theorem Chain.cons {c c' : Control T} {u v : V} {r k : ℕ} (h : Chain c u r k)
    (hadj : T.graph.Adj v u) (hlt : toLex (r, k) < (c.node v).pair)
    (hle : ∀ x, (c'.node x).pair ≤ (c.node x).pair)
    (hv : (c'.node v).pair ≤ toLex (r, k + 1)) : Chain c' v r (k + 1) := by
  obtain ⟨w, p, hp, hlen, hr, hpair⟩ := h
  have hnot : v ∉ p.support := by
    intro hmem
    obtain ⟨i, hi, _⟩ := SimpleGraph.Walk.mem_support_iff_exists_getVert.mp hmem
    have hbound := hpair i
    rw [hi] at hbound
    have hmono : (toLex (r, k - i) : ℕ ×ₗ ℕ) ≤ toLex (r, k) := by
      rw [Prod.Lex.toLex_le_toLex]
      exact Or.inr ⟨rfl, Nat.sub_le k i⟩
    exact absurd (hlt.trans_le hbound) (not_lt.mpr hmono)
  refine ⟨w, .cons hadj p, hp.cons hnot, ?_, hr, ?_⟩
  · rw [SimpleGraph.Walk.length_cons, hlen]
  · intro i
    cases i with
    | zero => exact hv
    | succ i =>
      rw [SimpleGraph.Walk.getVert_cons_succ, Nat.add_sub_add_right]
      exact (hle _).trans (hpair i)

theorem Chain.length_lt [Fintype V] {c : Control T} {u : V} {r k : ℕ} (h : Chain c u r k) :
    k < Fintype.card V := by
  obtain ⟨w, p, hp, hlen, _⟩ := h
  rw [← hlen]
  exact hp.length_lt

theorem Topology.card_le [Fintype V] (T : Topology V) : Fintype.card V ≤ 65535 := by
  have hlt : ∀ v, (T.addr v).toNat < 65535 := by
    intro v
    have hbound := (T.addr v).toNat_lt
    have hne : (T.addr v).toNat ≠ 65535 := fun he => T.addr_valid v (UInt16.toNat_inj.mp he)
    omega
  have hcard := Fintype.card_le_of_injective (fun v => (⟨(T.addr v).toNat, hlt v⟩ : Fin 65535))
    (fun u v huv => T.addr_injective (UInt16.toNat_inj.mp (Fin.mk.inj huv)))
  rwa [Fintype.card_fin] at hcard

theorem Chain.narrow [Fintype V] {c : Control T} {u : V} {r k : ℕ} (h : Chain c u r k) :
    k < 2^16 := by
  have hlt := h.length_lt
  have hcard := T.card_le
  omega

structure RouteInv (c : Control T) : Prop where
  live : ∀ u v, c.live u v = true
  chain : ∀ v, Chain c v (c.node v).rootAddr.toNat (c.node v).pathLen
  packet : ∀ u v, ∀ p ∈ c.queue u v, Chain c u p.rootAddress.toNat p.pathLength.toNat
  parent : ∀ v, (c.node v).rootAddr ≠ T.addr v → ∃ u, T.graph.Adj v u ∧
    (c.node v).nextHop = T.addr u ∧
    toLex ((c.node u).rootAddr.toNat, (c.node u).pathLen + 1) ≤ (c.node v).pair

variable [DecidableEq V]

theorem RouteInv.init : RouteInv (Control.init T) where
  live := fun _ _ => rfl
  chain := by
    intro v
    refine ⟨v, .nil, SimpleGraph.Walk.IsPath.nil, rfl, rfl, ?_⟩
    intro i
    simp [Control.init, initNode, Node.pair]
  packet := by
    intro u v p hp
    simp only [Control.init] at hp
    split_ifs at hp
    · obtain rfl := List.mem_singleton.mp hp
      refine ⟨u, .nil, SimpleGraph.Walk.IsPath.nil, rfl, rfl, ?_⟩
      intro i
      simp [Control.init, initNode, Node.pair]
    · simp at hp
  parent := fun v h => absurd rfl h

theorem RouteInv.take {c : Control T} (h : RouteInv c) {v : V} {i : Fin (T.deg v)}
    {p : StpPayload} {rest : List StpPayload} (hq : c.queue (T.peer v i) v = p :: rest) :
    RouteInv (c.take v i rest) where
  live := h.live
  chain := h.chain
  packet := fun x y q hmem => h.packet x y q (mem_take_queue hq hmem)
  parent := h.parent

/-- What an activity must respect for the calm invariant to survive it. -/
structure Outcome.Improves (c : Control T) (v : V) (o : Outcome (T.deg v)) : Prop where
  le : o.node.pair ≤ (c.node v).pair
  chain : Chain (c.commit v o) v o.node.rootAddr.toNat o.node.pathLen
  parent : o.node.rootAddr ≠ T.addr v → ∃ u, T.graph.Adj v u ∧ o.node.nextHop = T.addr u ∧
    toLex ((c.node u).rootAddr.toNat, (c.node u).pathLen + 1) ≤ o.node.pair

theorem commit_pair_le {c : Control T} {v : V} {o : Outcome (T.deg v)}
    (h : o.node.pair ≤ (c.node v).pair) (x : V) :
    ((c.commit v o).node x).pair ≤ (c.node x).pair :=
  commit_forall c v o (P := fun x node => node.pair ≤ (c.node x).pair) h (fun _ => le_rfl) x

omit [DecidableEq V] in
theorem succ_le_of_pair_le {m n : ℕ} {a : Node m} {b : Node n} (h : a.pair ≤ b.pair) :
    (toLex (a.rootAddr.toNat, a.pathLen + 1) : ℕ ×ₗ ℕ) ≤
      toLex (b.rootAddr.toNat, b.pathLen + 1) := by
  rw [Node.pair, Node.pair, Prod.Lex.toLex_le_toLex] at h
  rw [Prod.Lex.toLex_le_toLex]
  simp only at h ⊢
  omega

theorem RouteInv.commit [Fintype V] {c : Control T} (h : RouteInv c) {v : V}
    {o : Outcome (T.deg v)} (hi : o.Improves c v) : RouteInv (c.commit v o) where
  live := h.live
  chain := commit_forall c v o (P := fun w node =>
    Chain (c.commit v o) w node.rootAddr.toNat node.pathLen) hi.chain
      fun w => (h.chain w).mono (commit_pair_le hi.le)
  packet := by
    intro x y q hmem
    obtain hold | ⟨rfl, rfl⟩ := mem_commit_queue hmem
    · exact (h.packet x y q hold).mono (commit_pair_le hi.le)
    · have hmod : o.node.pathLen % 65536 = o.node.pathLen :=
        Nat.mod_eq_of_lt hi.chain.narrow
      simpa [Node.advert, initializeStpPacket, hmod] using hi.chain
  parent := by
    intro w hw
    have hold : ∃ u, T.graph.Adj w u ∧ ((c.commit v o).node w).nextHop = T.addr u ∧
        toLex ((c.node u).rootAddr.toNat, (c.node u).pathLen + 1) ≤
          ((c.commit v o).node w).pair :=
      commit_forall c v o (P := fun w node => node.rootAddr ≠ T.addr w →
        ∃ u, T.graph.Adj w u ∧ node.nextHop = T.addr u ∧
          toLex ((c.node u).rootAddr.toNat, (c.node u).pathLen + 1) ≤ node.pair)
        hi.parent h.parent w hw
    obtain ⟨u, hadj, hnext, hle⟩ := hold
    exact ⟨u, hadj, hnext, (succ_le_of_pair_le (commit_pair_le hi.le u)).trans hle⟩

theorem RouteInv.improves_of_route {c : Control T} (h : RouteInv c) {v : V}
    {o : Outcome (T.deg v)} (hr : o.node.route = (c.node v).route) : o.Improves c v := by
  obtain ⟨hroot, hlen, hnext⟩ := route_eq_iff.mp hr
  have hpair : o.node.pair = (c.node v).pair := by rw [Node.pair, Node.pair, hroot, hlen]
  refine ⟨hpair.le, ?_, ?_⟩
  · rw [hroot, hlen]
    exact (h.chain v).mono (commit_pair_le hpair.le)
  · rw [hroot, hnext, hpair]
    exact h.parent v

omit [DecidableEq V] in
theorem offer_pair {n : ℕ} {node : Node n} {p : StpPayload} (h : p.offer < node.route) :
    (toLex (p.rootAddress.toNat, p.pathLength.toNat + 1) : ℕ ×ₗ ℕ) ≤ node.pair := by
  rw [StpPayload.offer, Node.route, route_lt_iff] at h
  rw [Node.pair, Prod.Lex.toLex_le_toLex]
  simp only
  omega

theorem RouteInv.step [Fintype V] {c c' : Control T} {e : Event T} (h : RouteInv c)
    (hl : LinkInv c) (hcalm : e.Calm) (hs : ControlStep c e c') : RouteInv c' := by
  cases hs with
  | receive v i p rest o hq hc =>
    have ht := h.take hq
    refine ht.commit ?_
    cases hc with
    | echo _ => exact ht.improves_of_route rfl
    | firstContact _ _ => exact ht.improves_of_route rfl
    | ignore _ _ => exact ht.improves_of_route rfl
    | adopt hlt _ =>
      have hmem : p ∈ c.queue (T.peer v i) v := by simp [hq]
      have hchain := h.packet _ _ p hmem
      have hle : ((c.node v).adopt i p).pair ≤ (c.node v).pair := offer_pair hlt
      have hall := commit_pair_le (c := c.take v i rest)
        (o := ⟨(c.node v).adopt i p, sendStp ((c.node v).adopt i p), false⟩) hle
      have hstep : (toLex (p.rootAddress.toNat, p.pathLength.toNat) : ℕ ×ₗ ℕ) <
          toLex (p.rootAddress.toNat, p.pathLength.toNat + 1) := by
        rw [Prod.Lex.toLex_lt_toLex]
        exact Or.inr ⟨rfl, Nat.lt_succ_self _⟩
      refine ⟨hle, ?_, fun _ => ⟨T.peer v i, T.adj_peer v i, hl.sender _ _ p hmem, ?_⟩⟩
      · refine hchain.cons (T.adj_peer v i) (hstep.trans_le hle) hall ?_
        rw [commit_node_self]
        exact le_rfl
      · have htop := hchain.top
        rw [Node.pair, Prod.Lex.toLex_le_toLex] at htop
        rw [Node.pair, Prod.Lex.toLex_le_toLex]
        simp only [take_node, Node.adopt] at htop ⊢
        omega
  | hello v hroot => exact h.commit (h.improves_of_route rfl)
  | reelect v hroot => exact absurd hcalm id
  | fail u v => exact absurd hcalm id

structure CalmInv (c : Control T) : Prop extends PortInv c where
  routes : RouteInv c

theorem CalmInv.init : CalmInv (Control.init T) := ⟨PortInv.init, RouteInv.init⟩

theorem CalmInv.step [Fintype V] {c c' : Control T} {e : Event T} (h : CalmInv c)
    (hcalm : e.Calm) (hs : ControlStep c e c') : CalmInv c' :=
  ⟨h.toPortInv.step hs, h.routes.step h.links hcalm hs⟩

theorem calm_reach [Fintype V] {s t : Net T} (h : Net.Reach (fun _ e => e.Calm) s t)
    (hs : CalmInv s.control) : CalmInv t.control :=
  control_invariant (A := fun _ e => e.Calm) h hs fun _ _ _ hc hok hstep => hc.step hok hstep

end Mixnet
