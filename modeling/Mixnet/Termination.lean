import Mathlib.Algebra.BigOperators.Group.Finset.Piecewise
import Mathlib.Algebra.Order.BigOperators.Group.Finset
import Mixnet.LoopFree

/-! STP traffic dies out once the timers rest. A node that changes its route improves it; an
echo of its parent's packet is worth less than the packet, counted by the path length. -/
namespace Mixnet
open scoped BigOperators
variable {V : Type*} {T : Topology V}

/-- The route of a node as one number, for routes no longer than 16 bits. -/
def Node.code {n : ℕ} (node : Node n) : ℕ :=
  (node.rootAddr.toNat * 65536 + node.pathLen) * 65536 + node.nextHop.toNat

theorem code_lt_code {m n : ℕ} {a : Node m} {b : Node n} (h : a.route < b.route)
    (ha : a.pathLen < 2^16) : a.code < b.code := by
  rw [Node.route, Node.route, route_lt_iff] at h
  have hnext := a.nextHop.toNat_lt
  simp only [Node.code]
  omega

theorem code_congr {m n : ℕ} {a : Node m} {b : Node n} (h : a.route = b.route) :
    a.code = b.code := by
  obtain ⟨hroot, hlen, hnext⟩ := route_eq_iff.mp h
  rw [Node.code, Node.code, hroot, hlen, hnext]

/-- What a packet is worth: more than the at most 255 echoes it can cause together. -/
def StpPayload.weight (p : StpPayload) : ℕ := 256 ^ (65536 - p.pathLength.toNat)

def Control.load (c : Control T) (x y : V) : ℕ := ((c.queue x y).map StpPayload.weight).sum

def Control.totalLoad [Fintype V] (c : Control T) : ℕ := ∑ x, ∑ y, c.load x y

def Control.measure [Fintype V] (c : Control T) : ℕ ×ₗ ℕ :=
  toLex (∑ v, (c.node v).code, c.totalLoad)

variable [DecidableEq V]

theorem take_totalLoad [Fintype V] {c : Control T} {v : V} {i : Fin (T.deg v)}
    {p : StpPayload} {rest : List StpPayload} (hq : c.queue (T.peer v i) v = p :: rest) :
    (c.take v i rest).totalLoad + p.weight = c.totalLoad := by
  have hload : ∀ x y, c.load x y =
      (c.take v i rest).load x y + if x = T.peer v i then if y = v then p.weight else 0 else 0 := by
    intro x y
    by_cases hxy : x = T.peer v i ∧ y = v
    · rw [hxy.1, hxy.2, Control.load, Control.load, hq, take_queue_self]
      simp [Nat.add_comm]
    · rw [Control.load, Control.load, take_queue_ne _ _ _ _ hxy]
      by_cases hx : x = T.peer v i
      · have hy : y ≠ v := fun hy => hxy ⟨hx, hy⟩
        simp [hx, hy]
      · simp [hx]
  simp only [Control.totalLoad, hload, Finset.sum_add_distrib]
  simp

omit [DecidableEq V] in
theorem card_neighbors [Fintype V] (T : Topology V) [DecidableRel T.graph.Adj] (v : V) :
    (Finset.univ.filter fun y => T.graph.Adj v y).card ≤ 255 := by
  classical
  have himage : (Finset.univ.filter fun y => T.graph.Adj v y) =
      Finset.univ.image (T.peer v) := by
    ext y
    simp only [Finset.mem_filter, Finset.mem_univ, true_and, Finset.mem_image]
    rfl
  rw [himage]
  refine Finset.card_image_le.trans ?_
  rw [Finset.card_univ, Fintype.card_fin]
  exact T.deg_le v

/-- An activity adds at most one packet to each of at most 255 links. -/
theorem commit_totalLoad [Fintype V] (c : Control T) (v : V) (o : Outcome (T.deg v)) :
    (c.commit v o).totalLoad ≤
      c.totalLoad + if o.sends ≠ [] then 255 * o.node.advert.payload.weight else 0 := by
  by_cases hs : o.sends = []
  · have hload : ∀ x y, (c.commit v o).load x y = c.load x y := by
      intro x y
      simp [Control.load, Control.commit, hs]
    simp [Control.totalLoad, hload, hs]
  · have hload : ∀ x y, (c.commit v o).load x y ≤ c.load x y +
        if x = v then if T.graph.Adj v y then o.node.advert.payload.weight else 0 else 0 := by
      intro x y
      simp only [Control.load, Control.commit, List.map_append, List.sum_append]
      by_cases hx : x = v
      · by_cases hy : T.graph.Adj v y
        · by_cases hl : c.live v y <;> simp [hx, hy, hl, hs]
        · simp [hx, hy]
      · simp [hx]
    have hsum : (c.commit v o).totalLoad ≤ ∑ x, ∑ y, (c.load x y +
        if x = v then if T.graph.Adj v y then o.node.advert.payload.weight else 0 else 0) :=
      Finset.sum_le_sum fun x _ => Finset.sum_le_sum fun y _ => hload x y
    have hnew : ∑ x, ∑ y, (if x = v then
        if T.graph.Adj v y then o.node.advert.payload.weight else 0 else 0) =
        (Finset.univ.filter fun y => T.graph.Adj v y).card * o.node.advert.payload.weight := by
      rw [Finset.sum_comm]
      simp [Finset.sum_ite]
    simp only [Finset.sum_add_distrib] at hsum
    rw [hnew] at hsum
    have hcard := Nat.mul_le_mul_right o.node.advert.payload.weight (card_neighbors T v)
    rw [if_pos hs]
    exact hsum.trans (Nat.add_le_add_left hcard _)

theorem weight_echo {n : ℕ} {node : Node n} {p : StpPayload} (h : p.offer = node.route)
    (hlen : node.pathLen < 2^16) : 255 * node.advert.payload.weight < p.weight := by
  have hm := (matchesParent_iff _ _).mpr h
  have hmod : node.pathLen % 65536 = node.pathLen := Nat.mod_eq_of_lt hlen
  have hadv : node.advert.payload.pathLength.toNat = p.pathLength.toNat + 1 := by
    rw [hm.2.1]
    simpa [Node.advert, initializeStpPacket] using hmod
  have hexp : 65536 - p.pathLength.toNat = (65536 - (p.pathLength.toNat + 1)) + 1 := by
    have hlt := hm.2.1
    omega
  rw [StpPayload.weight, StpPayload.weight, hadv, hexp, pow_succ]
  have hpos : 0 < 256 ^ (65536 - (p.pathLength.toNat + 1)) := Nat.pow_pos (by decide)
  omega

omit [DecidableEq V] in
theorem measure_lt_iff [Fintype V] {c c' : Control T} : c'.measure < c.measure ↔
    ∑ v, (c'.node v).code < ∑ v, (c.node v).code ∨
      ∑ v, (c'.node v).code = ∑ v, (c.node v).code ∧ c'.totalLoad < c.totalLoad := by
  simp [Control.measure, Prod.Lex.toLex_lt_toLex]

theorem receive_measure [Fintype V] {c : Control T} (h : CalmInv c) {v : V}
    {i : Fin (T.deg v)} {p : StpPayload} {rest : List StpPayload} {o : Outcome (T.deg v)}
    (hq : c.queue (T.peer v i) v = p :: rest) (hc : StpCase (c.node v) i p o) :
    ((c.take v i rest).commit v o).measure < c.measure := by
  have hother : ∀ w, w ≠ v → ((c.take v i rest).commit v o).node w = c.node w :=
    fun w hw => commit_node_ne _ _ _ hw
  have hsame : o.node.route = (c.node v).route →
      ∑ w, (((c.take v i rest).commit v o).node w).code = ∑ w, (c.node w).code := by
    intro hroute
    refine Finset.sum_congr rfl fun w _ => ?_
    by_cases hw : w = v
    · subst hw
      rw [commit_node_self]
      exact code_congr hroute
    · rw [hother w hw]
  have htake := take_totalLoad hq
  have hcommit := commit_totalLoad (c.take v i rest) v o
  have hnext : CalmInv ((c.take v i rest).commit v o) :=
    h.step (e := .deliver v i) trivial (.receive v i p rest o hq hc)
  have hweight : 0 < p.weight := Nat.pow_pos (by decide)
  rw [measure_lt_iff]
  cases hc with
  | echo heq =>
    have hecho := weight_echo heq (h.routes.chain v).narrow
    rw [if_pos (sendStp_ne_nil _ i)] at hcommit
    dsimp only at hcommit
    exact Or.inr ⟨hsame rfl, by omega⟩
  | firstContact _ _ =>
    rw [if_neg (by simp)] at hcommit
    exact Or.inr ⟨hsame rfl, by omega⟩
  | ignore _ _ =>
    rw [if_neg (by simp)] at hcommit
    exact Or.inr ⟨hsame rfl, by omega⟩
  | adopt hlt _ =>
    -- the new route is short, since the state after the step is again one of a calm run
    have hshort : ((c.node v).adopt i p).pathLen < 2^16 := by
      have hafter := (hnext.routes.chain v).narrow
      rwa [commit_node_self] at hafter
    left
    have hcode : ((c.node v).adopt i p).code < (c.node v).code := code_lt_code hlt hshort
    refine Finset.sum_lt_sum (fun w _ => ?_) ⟨v, Finset.mem_univ v, ?_⟩
    · by_cases hw : w = v
      · subst hw
        rw [commit_node_self]
        exact hcode.le
      · rw [hother w hw]
    · rw [commit_node_self]
      exact hcode

/-- Some FLOOD activity, then the delivery of one STP packet. -/
def Net.Delivers (s t : Net T) : Prop :=
  ∃ m v i, Net.Reach (fun u e => ¬ u.Stp e) s m ∧ m.Stp (.deliver v i) ∧
    m.step (.deliver v i) = some t

theorem control_of_flood {s t : Net T} (h : Net.Reach (fun u e => ¬ u.Stp e) s t) :
    t.control = s.control := by
  refine Runs.Reach.invariant (P := fun u => u.control = s.control) h rfl ?_
  intro u u' e hu hno hstep
  obtain ⟨hstp, _⟩ | ⟨_, hsame⟩ := control_step hstep
  · exact absurd hstp hno
  · rw [hsame, hu]

theorem Net.Delivers.receive {s t : Net T} (h : s.Delivers t) : ∃ v i,
    ControlStep s.control (.deliver v i) t.control := by
  obtain ⟨m, v, i, hreach, hstp, hstep⟩ := h
  obtain ⟨_, hcontrol⟩ | ⟨hno, _⟩ := control_step hstep
  · rw [control_of_flood hreach] at hcontrol
    exact ⟨v, i, hcontrol⟩
  · exact absurd hstp hno

/-- Once no timer fires any more, every sequence of STP deliveries is finite, whatever FLOOD
traffic runs in between. -/
theorem stp_traffic_dies_out [Fintype V] (T : Topology V) (s : Net T)
    (h : Net.Reach (fun _ e => e.Calm) (Net.init T) s) :
    Acc (fun t u : Net T => u.Delivers t) s := by
  have hinv : CalmInv s.control := calm_reach h (control_init T ▸ CalmInv.init)
  refine Runs.acc_of_decreasing (P := fun u => CalmInv u.control)
    (fun u => u.control.measure) ?_ ?_ s hinv
  · intro u t hu hd
    obtain ⟨v, i, hstep⟩ := hd.receive
    exact hu.step (e := .deliver v i) trivial hstep
  · intro u t hu hd
    obtain ⟨v, i, hstep⟩ := hd.receive
    generalize t.control = c' at hstep
    cases hstep with
    | receive v i p rest o hq hc => exact receive_measure hu hq hc

/-- Two nodes, both first packets and a hello in flight. -/
theorem stp_traffic_dies_out_two : ∃ s : Net twoNodes,
    Runs.run Net.step [.hello 0] (Net.init twoNodes) = some s ∧ (s.stps 0 1).length = 2 ∧
      Acc (fun t u : Net twoNodes => u.Delivers t) s := by
  have hrun : ∃ s, Runs.run Net.step [.hello 0] (Net.init twoNodes) = some s ∧
      (s.stps 0 1).length = 2 := ⟨_, rfl, by decide +kernel⟩
  obtain ⟨s, hs, hlen⟩ := hrun
  refine ⟨s, hs, hlen, stp_traffic_dies_out twoNodes s (Runs.reach_of_run ?_ hs)⟩
  simp [Event.Calm]

end Mixnet
