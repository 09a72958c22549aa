import Mathlib.Data.Fin.VecNotation
import Mixnet.Pointers
import Mixnet.Routes

/-! Routes are real and loop-free as long as nobody re-elects itself. -/
namespace Mixnet
variable {V : Type*} {T : Topology V}

def Net.hop (s : Net T) (v u : V) : Prop :=
  (s.node v).rootAddr ≠ (s.node v).myAddr ∧ (s.node v).nextHop = T.addr u

/-- What a packet in flight from `u` says about `u`; `len` is the int it was made from. -/
structure Net.Honest (s : Net T) (u : V) (f : Flight) : Prop where
  sender : f.packet.payload.nodeAddress = T.addr u
  stale : (s.node u).pair ≤ f.packet.payload.pair
  narrow : f.packet.payload.pathLength.toNat = f.len

structure Net.LoopFree [Fintype V] (s : Net T) : Prop where
  root : ∀ v, ∃ r, (s.node v).rootAddr = T.addr r ∧ T.graph.Reachable v r ∧
    T.graph.dist v r ≤ (s.node v).pathLen
  bound : ∀ v, (s.node v).pathLen ≤ Fintype.card V - 1
  parent : ∀ v, (s.node v).rootAddr ≠ (s.node v).myAddr → ∃ u, T.graph.Adj v u ∧
    (s.node v).nextHop = T.addr u ∧ (s.node u).pair < (s.node v).pair
  acyclic : ∀ v, ¬ Relation.TransGen s.hop v v
  packets : ∀ u v, ∀ f ∈ s.chan u v, f.packet.type = .stp → s.Honest u f

variable [DecidableEq V]

omit [DecidableEq V] in
theorem mem_stps {s : Net T} {u v : V} {f : Flight} (hf : f ∈ s.chan u v)
    (ht : f.packet.type = .stp) : f.packet.payload ∈ s.stps u v :=
  List.mem_filterMap.mpr ⟨f, hf, if_pos ht⟩

def Narrowed (s : Net T) : Prop := ∀ u v, ∀ f ∈ s.chan u v, f.packet.type = .stp →
  f.packet.payload.pathLength = UInt16.ofNat f.len ∧ f.len < 2^16

theorem Narrowed.commit {s : Net T} (h : Narrowed s) {v : V} {flood : ℕ}
    {o : Outcome (T.deg v)} (ho : o.IsStp) (hlen : o.node.pathLen < 2^16) :
    Narrowed (s.commit v flood o) := by
  intro x y f hf ht
  obtain hold | ⟨_, hnew⟩ := mem_commit_chan hf
  · exact h x y f hold ht
  · cases ho with
    | inl hs =>
      have hw := wire_sendStp v y o.node o.node o.refreshed flood
      rw [← hs] at hw
      rw [hw] at hnew
      split_ifs at hnew
      · obtain rfl := List.mem_singleton.mp hnew
        exact ⟨rfl, hlen⟩
      · simp at hnew
    | inr hs => simp [Topology.wire, hs] at hnew

theorem Narrowed.commit_quiet {s : Net T} (h : Narrowed s) {v : V} {flood : ℕ}
    {o : Outcome (T.deg v)} (hs : ∀ q ∈ o.sends, q.2.type ≠ .stp) :
    Narrowed (s.commit v flood o) := by
  intro x y f hf ht
  obtain hold | ⟨_, hnew⟩ := mem_commit_chan hf
  · exact h x y f hold ht
  · obtain ⟨_, q, hq, hpacket⟩ := mem_wire hnew
    rw [← hpacket] at ht
    exact absurd ht (hs q hq)

theorem Narrowed.take {s : Net T} (h : Narrowed s) {v : V} {i : Fin (T.deg v)} {f : Flight}
    {rest : List Flight} (hchan : s.chan (T.peer v i) v = f :: rest) :
    Narrowed (s.take v i f rest) :=
  fun x y g hg => h x y g (mem_take_chan hchan hg)

/-- One step keeps narrowing exact when every node it leaves behind has a short route. -/
theorem Narrowed.step {s s' : Net T} {e : Event T} (h : Narrowed s) (hcalm : e.Calm)
    (hlen : ∀ v, (s'.node v).pathLen < 2^16) (hs : s.step e = some s') : Narrowed s' := by
  have hself : ∀ (t : Net T) (v : V) (flood : ℕ) (o : Outcome (T.deg v)),
      (t.commit v flood o).node v = o.node := fun t v flood o => by simp [Net.commit]
  cases step_case hs with
  | stp v i f rest o hchan ht hc =>
    refine (h.take hchan).commit hc.isStp ?_
    have hv := hlen v
    rwa [hself] at hv
  | flood v i f rest hchan ht =>
    refine (h.take hchan).commit_quiet ?_
    intro q hq
    cases hb : (s.node v).neighborsBlocked i with
    | true => simp [hb] at hq
    | false => exact sendFlood_no_stp _ _ q (by simpa [hb] using hq)
  | other v i f rest hchan _ _ => exact (h.take hchan).commit_quiet (by simp)
  | inject v payload => exact Narrowed.commit_quiet h (sendFlood_no_stp _ _)
  | hello v hroot =>
    refine h.commit (Or.inl rfl) ?_
    have hv := hlen v
    rwa [hself] at hv
  | reelect v hroot => exact absurd hcalm id
  | fail u v => exact absurd hcalm id

theorem Narrowed.init : Narrowed (Net.init T) := by
  intro u v f hf ht
  simp only [Net.init, rootHello, wire_sendStp] at hf
  split_ifs at hf
  · obtain rfl := List.mem_singleton.mp hf
    exact ⟨rfl, by simp [initNode]⟩
  · simp at hf

theorem narrowed_reach [Fintype V] {s : Net T}
    (h : Net.Reach (fun _ e => e.Calm) (Net.init T) s) : Narrowed s := by
  refine Runs.Reach.invariant_of_reach h Narrowed.init ?_
  intro t u e hreach ht hcalm hstep
  have hinv : CalmInv u.control :=
    calm_reach (.tail hreach hcalm hstep) (control_init T ▸ CalmInv.init)
  exact ht.step hcalm (fun v => (hinv.routes.chain v).narrow) hstep

/-- In every state of a calm run every route is real: its root is a node, no further away than
`path_len`, the next hop is a neighbour with a smaller pair, and packets are never too good. -/
theorem routes_loop_free [Fintype V] (T : Topology V) (s : Net T)
    (h : Net.Reach (fun _ e => e.Calm) (Net.init T) s) : s.LoopFree := by
  have hinv : CalmInv s.control := calm_reach h (control_init T ▸ CalmInv.init)
  have hnarrow := narrowed_reach h
  have hparent : ∀ v, (s.node v).rootAddr ≠ (s.node v).myAddr → ∃ u, T.graph.Adj v u ∧
      (s.node v).nextHop = T.addr u ∧ (s.node u).pair < (s.node v).pair := by
    intro v hv
    have hmy : (s.node v).myAddr = T.addr v := hinv.links.myAddr v
    rw [hmy] at hv
    obtain ⟨u, hadj, hnext, hle⟩ := hinv.routes.parent v hv
    refine ⟨u, hadj, hnext, lt_of_lt_of_le ?_ hle⟩
    rw [Node.pair, Prod.Lex.toLex_lt_toLex]
    exact Or.inr ⟨rfl, Nat.lt_succ_self _⟩
  refine ⟨fun v => ?_, fun v => ?_, hparent, ?_, fun u v f hf ht => ?_⟩
  · obtain ⟨w, p, _, hlen, hr, _⟩ := hinv.routes.chain v
    refine ⟨w, (UInt16.toNat_inj.mp hr).symm, p.reachable, ?_⟩
    exact (SimpleGraph.dist_le p).trans hlen.le
  · have hlt := (hinv.routes.chain v).length_lt
    exact Nat.le_sub_one_of_lt hlt
  · refine Pointers.no_cycle_of_decreasing (fun v => (s.node v).pair) ?_
    intro v u hhop
    obtain ⟨u', _, hnext, hlt⟩ := hparent v hhop.1
    rw [T.addr_injective (hhop.2.symm.trans hnext)]
    exact hlt
  · have hmem := mem_stps hf ht
    obtain ⟨hlen, hlt⟩ := hnarrow u v f hf ht
    refine ⟨hinv.links.sender u v _ hmem, (hinv.routes.packet u v _ hmem).top, ?_⟩
    rw [hlen]
    exact Nat.mod_eq_of_lt hlt

abbrev twoNodes : Topology (Fin 2) where
  addr := ![1, 2]
  deg := fun _ => 1
  peer := fun v _ => 1 - v
  addr_injective := by decide
  addr_valid := by decide
  deg_le := by decide
  peer_injective := by decide
  peer_ne := by decide
  peer_symm := by decide

/-- Node 2 records node 1, hears its hello and adopts it. -/
theorem routes_loop_free_two : ∃ s : Net twoNodes,
    Runs.run Net.step [.deliver 1 0, .hello 0, .deliver 1 0] (Net.init twoNodes) = some s ∧
      (s.node 1).rootAddr = 1 ∧ s.LoopFree := by
  have hrun : (Runs.run Net.step [.deliver 1 0, .hello 0, .deliver 1 0]
      (Net.init twoNodes)).map (fun s => (s.node 1).rootAddr) = some 1 := by decide +kernel
  obtain ⟨s, hs, hroot⟩ := Option.map_eq_some_iff.mp hrun
  refine ⟨s, hs, hroot, routes_loop_free twoNodes s (Runs.reach_of_run ?_ hs)⟩
  simp [Event.Calm]

abbrev triangle : Topology (Fin 3) where
  addr := ![1, 2, 3]
  deg := fun _ => 2
  peer := ![![1, 2], ![2, 0], ![0, 1]]
  addr_injective := by decide
  addr_valid := by decide
  deg_le := by decide
  peer_injective := by decide
  peer_ne := by decide
  peer_symm := by decide

/-- First contact on every port, then one hello wave of node 1: the triangle has settled. -/
def triangleSettles : List (Event triangle) :=
  [.deliver 0 0, .deliver 0 1, .deliver 1 0, .deliver 1 1, .deliver 2 0, .deliver 2 1, .hello 0,
    .deliver 1 1, .deliver 0 0, .deliver 2 0, .deliver 0 1, .deliver 1 0, .deliver 2 1]

/-- The link between nodes 1 and 2 of the settled triangle fails and node 2 falls back on itself. -/
def triangleFallsBack : List (Event triangle) := triangleSettles ++ [.fail 0 1, .reelect 1]

abbrev farSide (v u : Fin 3) : Prop := v ≠ 0 ∧ u ≠ 0

abbrev square : Topology (Fin 4) where
  addr := ![1, 2, 3, 4]
  deg := fun _ => 2
  peer := fun v i => if i = 0 then v + 1 else v - 1
  addr_injective := by decide
  addr_valid := by decide
  deg_le := by decide
  peer_injective := by decide
  peer_ne := by decide
  peer_symm := by decide

/-- Node 3 has its route to node 1 from node 2; when nothing is in flight any more, node 2 falls
back on itself, and then hears node 1 again. -/
def squareFallsBack : List (Event square) :=
  [.deliver 0 0, .deliver 0 1, .deliver 1 0, .deliver 1 1, .deliver 2 0, .deliver 2 1,
    .deliver 3 0, .deliver 3 1, .hello 0, .deliver 1 1, .deliver 3 0, .deliver 0 0, .deliver 0 1,
    .deliver 2 1, .deliver 2 0, .deliver 1 0, .deliver 3 1, .reelect 1, .deliver 0 0, .deliver 2 1,
    .hello 0, .deliver 1 1]

end Mixnet
