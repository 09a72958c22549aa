import Mathlib.Order.Defs.LinearOrder
import Mathlib.Data.Prod.Lex
import Mixnet.Node

/-! What one activity of a node can do, said once: the route a node holds, the offer an STP
packet makes, and the cases of every loop-body activity. Later modules split on these. -/
namespace Mixnet
variable {n : ℕ}

/-- Routes are compared lexicographically: root, path length, next hop. -/
abbrev Route := ℕ ×ₗ ℕ ×ₗ ℕ

def Node.route (node : Node n) : Route :=
  toLex (node.rootAddr.toNat, toLex (node.pathLen, node.nextHop.toNat))

def StpPayload.offer (p : StpPayload) : Route :=
  toLex (p.rootAddress.toNat, toLex (p.pathLength.toNat + 1, p.nodeAddress.toNat))

theorem route_lt_iff {a b c a' b' c' : ℕ} :
    (toLex (a, toLex (b, c)) : Route) < toLex (a', toLex (b', c')) ↔
      a < a' ∨ a = a' ∧ (b < b' ∨ b = b' ∧ c < c') := by
  simp [Prod.Lex.toLex_lt_toLex]

theorem matchesParent_iff (node : Node n) (p : StpPayload) :
    node.matchesParent p ↔ p.offer = node.route := by
  simp [Node.matchesParent, StpPayload.offer, Node.route, UInt16.toNat_inj]

/-- The node after it has adopted the offer of `p`, received on `port`: every other port is
blocked and the port of the new parent is open. -/
def Node.adopt (node : Node n) (port : Fin n) (p : StpPayload) : Node n :=
  { node with
    rootAddr := p.rootAddress
    pathLen := p.pathLength.toNat + 1
    nextHop := p.nodeAddress
    neighborsBlocked := Function.update (fun _ => true) port false }

@[simp] theorem setBlocked_route (node : Node n) (port : Fin n) (b : Bool) :
    (node.setBlocked port b).route = node.route := rfl

theorem improve_of_lt {node : Node n} {p : StpPayload} (h : p.offer < node.route) :
    improve node p = ({ node with
      rootAddr := p.rootAddress
      pathLen := p.pathLength.toNat + 1
      nextHop := p.nodeAddress }, true) := by
  rw [StpPayload.offer, Node.route, route_lt_iff] at h
  rcases h with h | ⟨hr, h | ⟨hl, h⟩⟩
  · simp [improve, UInt16.lt_iff_toNat_lt.mpr h]
  · have hr' := UInt16.toNat_inj.mp hr
    simp [improve, hr', h]
  · have hr' := UInt16.toNat_inj.mp hr
    have hn := UInt16.lt_iff_toNat_lt.mpr h
    simp [improve, hr', hl, hn]

theorem improve_of_gt {node : Node n} {p : StpPayload} (h : node.route < p.offer) :
    improve node p = (node, false) := by
  rw [StpPayload.offer, Node.route, route_lt_iff] at h
  simp only [improve, UInt16.lt_iff_toNat_lt, ← UInt16.toNat_inj]
  rw [if_neg (by omega), if_neg (by omega), if_neg (by omega)]

/-- Whether the port of a packet that changes nothing is left blocked. -/
def Node.blocks (node : Node n) (p : StpPayload) : Bool :=
  !(decide (p.nodeAddress = node.nextHop) ||
    decide (p.rootAddress = node.rootAddr ∧ p.pathLength.toNat = node.pathLen + 1))

theorem blockLogic_eq (node : Node n) (port : Fin n) (p : StpPayload) :
    blockLogic node port p = node.setBlocked port (node.blocks p) := by
  by_cases h : p.nodeAddress = node.nextHop
  · simp [blockLogic, Node.blocks, h]
  · by_cases h' : p.rootAddress = node.rootAddr ∧ p.pathLength.toNat = node.pathLen + 1
    · simp [blockLogic, Node.blocks, h, h']
    · simp only [blockLogic, Node.blocks, h, h', if_false, decide_false, Bool.or_self,
        Bool.not_false]

theorem Node.blocks_down {node : Node n} {p : StpPayload}
    (hroot : p.rootAddress = node.rootAddr) (hlen : p.pathLength.toNat = node.pathLen + 1) :
    node.blocks p = false := by
  simp [Node.blocks, hroot, hlen]

theorem Node.blocks_other {node : Node n} {p : StpPayload}
    (hnext : p.nodeAddress ≠ node.nextHop)
    (hdown : ¬ (p.rootAddress = node.rootAddr ∧ p.pathLength.toNat = node.pathLen + 1)) :
    node.blocks p = true := by
  simp only [Node.blocks, hnext, hdown, decide_false, Bool.or_self, Bool.not_false]

theorem advert_congr {a b : Node n} (hr : a.rootAddr = b.rootAddr)
    (hl : a.pathLen = b.pathLen) (hm : a.myAddr = b.myAddr) : a.advert = b.advert := by
  simp [Node.advert, hr, hl, hm]

theorem receiveStp_adopt {node : Node n} {i : Fin n} {p : StpPayload}
    (hrec : node.neighborsAddy i ≠ -1) (h : p.offer < node.route) :
    receiveStp node i p = (node.adopt i p, sendStp (node.adopt i p)) := by
  simp only [receiveStp, if_neg hrec, improve_of_lt h, if_true]
  exact Prod.ext (by simp [blockLogic, Node.setBlocked, Node.blockAll, Node.adopt]) rfl

theorem receiveStp_ignore {node : Node n} {i : Fin n} {p : StpPayload}
    (hrec : node.neighborsAddy i ≠ -1) (h : node.route < p.offer) :
    receiveStp node i p = (node.setBlocked i (node.blocks p), []) := by
  simp [receiveStp, if_neg hrec, improve_of_gt h, blockLogic_eq]

/-- Everything an STP packet on a neighbour port can do. -/
inductive StpCase (node : Node n) (i : Fin n) (p : StpPayload) : Outcome n → Prop
  | echo (h : p.offer = node.route) : StpCase node i p ⟨node, sendStp node, true⟩
  | firstContact (hne : p.offer ≠ node.route) (hrec : node.neighborsAddy i = -1) :
      StpCase node i p ⟨node.record i p.nodeAddress, [], false⟩
  | adopt (hlt : p.offer < node.route) (hrec : node.neighborsAddy i ≠ -1) :
      StpCase node i p ⟨node.adopt i p, sendStp (node.adopt i p), false⟩
  | ignore (hlt : node.route < p.offer) (hrec : node.neighborsAddy i ≠ -1) :
      StpCase node i p ⟨node.setBlocked i (node.blocks p), [], false⟩

theorem processPacket_stp (node : Node n) (i : Fin n) {packet : Packet}
    (ht : packet.type = .stp) :
    ∃ o, processPacket node i.castSucc packet = some o ∧ StpCase node i packet.payload o := by
  have hi : i.castSucc.val < n := i.isLt
  have heta : (⟨i.castSucc.val, hi⟩ : Fin n) = i := rfl
  by_cases hm : node.matchesParent packet.payload
  · refine ⟨⟨node, sendStp node, true⟩, ?_, .echo ((matchesParent_iff _ _).mp hm)⟩
    simp [processPacket, ht, hm]
  · have hne : packet.payload.offer ≠ node.route := fun h => hm ((matchesParent_iff _ _).mpr h)
    simp only [processPacket, ht, if_neg hm, dif_pos hi, heta]
    by_cases hrec : node.neighborsAddy i = -1
    · exact ⟨_, rfl, by simpa [receiveStp, hrec] using StpCase.firstContact hne hrec⟩
    · rcases lt_or_gt_of_ne hne with hlt | hgt
      · exact ⟨_, rfl, by simpa [receiveStp_adopt hrec hlt] using StpCase.adopt hlt hrec⟩
      · exact ⟨_, rfl, by simpa [receiveStp_ignore hrec hgt] using StpCase.ignore hgt hrec⟩

theorem processPacket_node {node : Node n} {port : Fin (n+1)} {packet : Packet} {o : Outcome n}
    (ht : packet.type ≠ .stp) (h : processPacket node port packet = some o) :
    o.node = node ∧ o.refreshed = false := by
  cases hty : packet.type with
  | stp => exact absurd hty ht
  | flood =>
    simp only [processPacket, hty] at h
    split_ifs at h <;> cases h <;> exact ⟨rfl, rfl⟩
  | lsa | data | ping =>
    simp only [processPacket, hty, Option.some.injEq] at h
    subst h
    exact ⟨rfl, rfl⟩

theorem sendFlood_no_stp (node : Node n) (port : Fin (n+1)) :
    ∀ q ∈ sendFlood node port, q.2.type ≠ .stp := by
  intro q hq
  simp only [sendFlood, List.mem_append, List.mem_map] at hq
  obtain ⟨i, _, rfl⟩ | hu := hq
  · simp [initializeFloodPacket]
  · split_ifs at hu
    · obtain rfl := List.mem_singleton.mp hu
      simp [initializeFloodPacket]
    · simp at hu

theorem processPacket_no_stp {node : Node n} {port : Fin (n+1)} {packet : Packet} {o : Outcome n}
    (ht : packet.type ≠ .stp) (h : processPacket node port packet = some o) :
    ∀ q ∈ o.sends, q.2.type ≠ .stp := by
  cases hty : packet.type with
  | stp => exact absurd hty ht
  | flood =>
    simp only [processPacket, hty] at h
    split_ifs at h <;> cases h
    · exact sendFlood_no_stp node port
    · exact sendFlood_no_stp node port
    · simp
  | lsa | data | ping =>
    simp only [processPacket, hty, Option.some.injEq] at h
    subst h
    simp

theorem processPacket_user_stp {node : Node n} {packet : Packet} {o : Outcome n}
    (ht : packet.type = .stp) (h : processPacket node (Fin.last n) packet = some o) :
    o = ⟨node, sendStp node, true⟩ := by
  simp only [processPacket, ht, Fin.val_last, lt_irrefl, dif_neg, not_false_eq_true] at h
  split_ifs at h
  exact (Option.some.inj h).symm

theorem processPacket_flood (node : Node n) (i : Fin n) {packet : Packet}
    (ht : packet.type = .flood) :
    processPacket node i.castSucc packet = some
      ⟨node, if node.neighborsBlocked i then [] else sendFlood node i.castSucc, false⟩ := by
  have hl : i.castSucc ≠ Fin.last n := (Fin.castSucc_lt_last i).ne
  cases hb : node.neighborsBlocked i <;> simp [processPacket, ht, hl, hb]

theorem processPacket_user (node : Node n) (packet : Packet) (ht : packet.type = .flood) :
    processPacket node (Fin.last n) packet = some ⟨node, sendFlood node (Fin.last n), false⟩ := by
  simp [processPacket, ht]

end Mixnet
