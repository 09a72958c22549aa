import Mixnet.NodeInvariant

/-! What a node makes of an advertisement. On a port that it has heard before, a node ends up
with the better of its own route and the offer; the first advertisement on a port only records
the sender, whatever it offers. -/
namespace Mixnet
variable {n : ℕ}

@[simp] theorem record_route (node : Node n) (port : Fin n) (address : UInt16) :
    (node.record port address).route = node.route := rfl

@[simp] theorem adopt_route (node : Node n) (port : Fin n) (p : StpPayload) :
    (node.adopt port p).route = p.offer := rfl

theorem StpCase.route_heard {node : Node n} {i : Fin n} {p : StpPayload} {o : Outcome n}
    (hc : StpCase node i p o) (hrec : node.neighborsAddy i ≠ -1) :
    o.node.route = min node.route p.offer := by
  cases hc with
  | echo h => rw [h, min_self]
  | firstContact _ hnone => exact absurd hnone hrec
  | adopt hlt _ => rw [adopt_route, min_eq_right hlt.le]
  | ignore hlt _ => rw [setBlocked_route, min_eq_left hlt.le]

theorem StpCase.route_unheard {node : Node n} {i : Fin n} {p : StpPayload} {o : Outcome n}
    (hc : StpCase node i p o) (hrec : node.neighborsAddy i = -1) : o.node.route = node.route := by
  cases hc with
  | echo _ => rfl
  | firstContact _ _ => rfl
  | adopt _ hheard => exact absurd hrec hheard
  | ignore _ hheard => exact absurd hrec hheard

theorem StpCase.route_eq_min_iff {node : Node n} {i : Fin n} {p : StpPayload} {o : Outcome n}
    (hc : StpCase node i p o) : o.node.route = min node.route p.offer ↔
      node.neighborsAddy i ≠ -1 ∨ node.route ≤ p.offer := by
  by_cases hrec : node.neighborsAddy i = -1
  · rw [hc.route_unheard hrec, left_eq_inf]
    exact ⟨Or.inr, fun h => h.resolve_left fun hne => hne hrec⟩
  · exact ⟨fun _ => Or.inl hrec, fun _ => hc.route_heard hrec⟩

/-- In every state of a node, reachable or not, an STP packet `(r, l, a)` on a neighbour port
leaves the node with the better of its route and `(r, l + 1, a)` exactly when the port has been
heard before or the offer is no better than the route. -/
theorem advertisement_taken_iff (node : Node n) (i : Fin n) (packet : Packet)
    (ht : packet.type = .stp) : ∃ o, node.step (.packet i.castSucc packet) = some o ∧
      (o.node.route = min node.route packet.payload.offer ↔
        node.neighborsAddy i ≠ -1 ∨ node.route ≤ packet.payload.offer) := by
  obtain ⟨o, ho, hc⟩ := processPacket_stp node i ht
  exact ⟨o, ho, hc.route_eq_min_iff⟩

/-- Node 2, which has recorded its neighbour 1, hears from it again. -/
theorem advertisement_taken_iff_two : ∃ node : Node 1,
    (initNode 1 2).after [.packet 0 (initializeStpPacket 1 0 1)] = some node ∧
    ∃ o, node.step (.packet (0 : Fin 1).castSucc (initializeStpPacket 1 0 1)) = some o ∧
      (o.node.route = min node.route (initializeStpPacket 1 0 1).payload.offer ↔
        node.neighborsAddy 0 ≠ -1 ∨ node.route ≤ (initializeStpPacket 1 0 1).payload.offer) := by
  have hrun : ((initNode 1 2).after [.packet 0 (initializeStpPacket 1 0 1)]).isSome = true := by
    decide
  obtain ⟨node, hnode⟩ := Option.isSome_iff_exists.mp hrun
  exact ⟨node, hnode, advertisement_taken_iff node 0 _ rfl⟩

/-- Node 2 drops the first offer of its neighbour 1, which is the better root. -/
theorem first_advertisement_dropped : ∃ o : Outcome 1,
    (initNode 1 2).step (.packet (0 : Fin 1).castSucc (initializeStpPacket 1 0 1)) = some o ∧
      (initializeStpPacket 1 0 1).payload.nodeAddress ≠ (initNode 1 2).myAddr ∧
      (initializeStpPacket 1 0 1).payload.nodeAddress ≠ 0xFFFF ∧
      o.node.route ≠ min (initNode 1 2).route (initializeStpPacket 1 0 1).payload.offer := by
  refine ⟨_, rfl, ?_, ?_, ?_⟩
  · decide
  · decide
  · decide

/-- The node is not about to drop an offer that is better than its route. -/
def Node.Heeds (node : Node n) : NodeEvent n → Prop
  | .packet port packet => packet.type = .stp → ∃ i : Fin n, port = i.castSucc ∧
      (node.neighborsAddy i ≠ -1 ∨ node.route ≤ packet.payload.offer)
  | .hello => True
  | .reelection => False

instance (node : Node n) : DecidablePred node.Heeds
  | .packet _ _ => inferInstanceAs (Decidable (_ → ∃ _, _ ∧ (_ ∨ _)))
  | .hello => .isTrue trivial
  | .reelection => .isFalse id

def NodeEvent.offers : NodeEvent n → List Route
  | .packet _ p => if p.type = .stp then [p.payload.offer] else []
  | _ => []

theorem Node.step_route {node : Node n} {e : NodeEvent n} {o : Outcome n} (h : node.Heeds e)
    (hs : node.step e = some o) : o.node.route = e.offers.foldl min node.route := by
  cases e with
  | packet port pkt =>
    by_cases ht : pkt.type = .stp
    · obtain ⟨i, rfl, hheeds⟩ := h ht
      obtain ⟨o', ho', hmin⟩ := advertisement_taken_iff node i pkt ht
      obtain rfl : o' = o := Option.some.inj (ho'.symm.trans hs)
      simpa [NodeEvent.offers, ht] using hmin.mpr hheeds
    · rw [(processPacket_node ht hs).1]
      simp [NodeEvent.offers, ht]
  | hello =>
    simp only [Node.step] at hs
    split_ifs at hs
    obtain rfl := Option.some.inj hs
    rfl
  | reelection => exact h.elim

/-- Between re-elections, the route of a node that drops no better offer is the least of the
route it started with and all the offers it has received. -/
theorem Node.run_route {node node' : Node n} {events : List (NodeEvent n)}
    (hr : Runs.run (fun node e => if node.Heeds e then (node.step e).map Outcome.node else none)
      events node = some node') :
    node'.route = (events.flatMap NodeEvent.offers).foldl min node.route := by
  induction events generalizing node with
  | nil =>
    obtain rfl : node = node' := by simpa [Runs.run] using hr
    rfl
  | cons e es ih =>
    obtain ⟨mid, hm, hrest⟩ := Option.bind_eq_some_iff.mp hr
    dsimp only at hm
    split_ifs at hm with hheeds
    obtain ⟨o, ho, rfl⟩ := Option.map_eq_some_iff.mp hm
    rw [ih hrest, Node.step_route hheeds ho, List.flatMap_cons, List.foldl_append]

end Mixnet
