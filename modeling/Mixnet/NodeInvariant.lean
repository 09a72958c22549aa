import Mathlib.Order.Basic
import Mixnet.NodeRules

/-! The representation invariant of `struct node`, for one node under arbitrary packets.
`sender i` is the fixed address behind neighbour port `i`. -/
namespace Mixnet
variable {n : ℕ}

def Node.SelfRooted (node : Node n) : Prop :=
  node.rootAddr = node.myAddr ∧ node.pathLen = 0 ∧ node.nextHop = node.myAddr

def Node.HasParent (sender : Fin n → UInt16) (node : Node n) : Prop :=
  node.rootAddr < node.myAddr ∧ 1 ≤ node.pathLen ∧
    ∃ i, node.nextHop = sender i ∧ node.neighborsAddy i ≠ -1 ∧
      node.neighborsBlocked i = false

structure NodeInv (sender : Fin n → UInt16) (node : Node n) : Prop where
  root_le : node.rootAddr ≤ node.myAddr
  shape : node.SelfRooted ∨ node.HasParent sender
  recorded : ∀ i, node.neighborsAddy i = -1 ∨ node.neighborsAddy i = (sender i).toInt16

/-- STP packets arrive on neighbour ports only, each from the sender behind its port. -/
def Admissible (sender : Fin n → UInt16) : NodeEvent n → Prop
  | .packet port packet => packet.type = .stp →
      ∃ i : Fin n, port = i.castSucc ∧ packet.payload.nodeAddress = sender i
  | .hello | .reelection => True

theorem initNode_inv (sender : Fin n → UInt16) (nodeAddr : UInt16) :
    NodeInv sender (initNode n nodeAddr) where
  root_le := UInt16.le_refl _
  shape := Or.inl ⟨rfl, rfl, rfl⟩
  recorded := fun _ => Or.inl rfl

theorem NodeInv.adopt_root_lt {sender : Fin n → UInt16} {node : Node n} {p : StpPayload}
    (h : NodeInv sender node) (hlt : p.offer < node.route) : p.rootAddress < node.myAddr := by
  rw [StpPayload.offer, Node.route, route_lt_iff] at hlt
  have hle := UInt16.le_iff_toNat_le.mp h.root_le
  rw [UInt16.lt_iff_toNat_lt]
  cases h.shape with
  | inl hs =>
    have hlen := hs.2.1
    omega
  | inr hp =>
    have hroot := UInt16.lt_iff_toNat_lt.mp hp.1
    omega

theorem StpCase.node_inv {sender : Fin n → UInt16} {node : Node n} {i : Fin n}
    {p : StpPayload} {o : Outcome n} (hc : StpCase node i p o) (h : NodeInv sender node)
    (hp : p.nodeAddress = sender i) : NodeInv sender o.node := by
  cases hc with
  | echo _ => exact h
  | firstContact _ hrec =>
    refine ⟨h.root_le, ?_, ?_⟩
    · obtain hs | ⟨hr, hl, j, hj, haddr, hb⟩ := h.shape
      · exact Or.inl hs
      · have hji : j ≠ i := fun he => haddr (he ▸ hrec)
        refine Or.inr ⟨hr, hl, j, hj, ?_, ?_⟩
        · simpa [Node.record, hji] using haddr
        · simpa [Node.record, hji] using hb
    · intro j
      by_cases hji : j = i
      · subst hji
        exact Or.inr (by simp [Node.record, hp])
      · simpa [Node.record, hji] using h.recorded j
  | adopt hlt hrec =>
    have hroot := h.adopt_root_lt hlt
    refine ⟨UInt16.le_of_lt hroot, ?_, h.recorded⟩
    exact Or.inr ⟨hroot, Nat.le_add_left 1 _, i, hp, hrec, by simp [Node.adopt]⟩
  | ignore _ _ =>
    refine ⟨h.root_le, ?_, h.recorded⟩
    obtain hs | ⟨hr, hl, j, hj, haddr, hb⟩ := h.shape
    · exact Or.inl hs
    · refine Or.inr ⟨hr, hl, j, hj, haddr, ?_⟩
      by_cases hji : j = i
      · subst hji
        simp [Node.setBlocked, Node.blocks, hp, ← hj]
      · simpa [Node.setBlocked, hji] using hb

theorem NodeInv.reelect {sender : Fin n → UInt16} {node : Node n} (h : NodeInv sender node) :
    NodeInv sender (Mixnet.reelect node).node where
  root_le := UInt16.le_refl _
  shape := Or.inl ⟨rfl, rfl, rfl⟩
  recorded := h.recorded

theorem NodeInv.step {sender : Fin n → UInt16} {node : Node n} {e : NodeEvent n}
    {o : Outcome n} (h : NodeInv sender node) (ha : Admissible sender e)
    (hs : node.step e = some o) : NodeInv sender o.node := by
  cases e with
  | packet port packet =>
    by_cases ht : packet.type = .stp
    · obtain ⟨i, rfl, hp⟩ := ha ht
      obtain ⟨o', ho', hc⟩ := processPacket_stp node i ht
      obtain rfl : o' = o := Option.some.inj (ho'.symm.trans hs)
      exact hc.node_inv h hp
    · rw [(processPacket_node ht hs).1]
      exact h
  | hello =>
    simp only [Node.step] at hs
    split_ifs at hs
    obtain rfl := Option.some.inj hs
    exact h
  | reelection =>
    simp only [Node.step] at hs
    split_ifs at hs
    obtain rfl := Option.some.inj hs
    exact h.reelect

def Node.after (node : Node n) (events : List (NodeEvent n)) : Option (Node n) :=
  Runs.run (fun node e => (Node.step node e).map Outcome.node) events node

theorem NodeInv.after {sender : Fin n → UInt16} {node node' : Node n}
    {events : List (NodeEvent n)} (h : NodeInv sender node)
    (ha : ∀ e ∈ events, Admissible sender e) (hr : node.after events = some node') :
    NodeInv sender node' := by
  induction events generalizing node with
  | nil =>
    obtain rfl : node = node' := by simpa [Node.after, Runs.run] using hr
    exact h
  | cons e es ih =>
    obtain ⟨m, hm, hrest⟩ := Option.bind_eq_some_iff.mp hr
    obtain ⟨o, ho, rfl⟩ := Option.map_eq_some_iff.mp hm
    exact ih (h.step (ha e (by simp)) ho) (fun e' he' => ha e' (by simp [he'])) hrest

/-- In every state a single node can reach it is either its own root, with path length 0 and
itself as next hop, or a strictly smaller root is reached through a recorded, open port. -/
theorem node_representation (sender : Fin n → UInt16) (nodeAddr : UInt16)
    (events : List (NodeEvent n)) (ha : ∀ e ∈ events, Admissible sender e) (node : Node n)
    (hr : (initNode n nodeAddr).after events = some node) :
    node.rootAddr ≤ node.myAddr ∧ (node.SelfRooted ∨ node.HasParent sender) := by
  have h := (initNode_inv sender nodeAddr).after ha hr
  exact ⟨h.root_le, h.shape⟩

/-- Node 2 hears twice from its neighbour 1: recorded first, then adopted as the root. -/
theorem node_representation_two : ∃ node : Node 1,
    (initNode 1 2).after (List.replicate 2 (.packet 0 (initializeStpPacket 1 0 1))) = some node ∧
      node.rootAddr = 1 ∧ node.rootAddr ≤ node.myAddr ∧
      (node.SelfRooted ∨ node.HasParent fun _ => 1) := by
  have hrun : ((initNode 1 2).after
      (List.replicate 2 (.packet 0 (initializeStpPacket 1 0 1)))).map Node.rootAddr = some 1 := by
    decide
  obtain ⟨node, hnode, hroot⟩ := Option.map_eq_some_iff.mp hrun
  refine ⟨node, hnode, hroot, node_representation (fun _ => 1) 2 _ ?_ node hnode⟩
  intro e he
  rw [List.eq_of_mem_replicate he]
  exact fun _ => ⟨0, rfl, rfl⟩

end Mixnet
