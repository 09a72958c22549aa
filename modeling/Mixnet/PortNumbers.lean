import Mixnet.Capture
import Mixnet.NodeRecv

/-! Port numbers. `num_neighbors` is 16 bits wide in the framework and 8 in `struct node`; so is the
port that `mixnet_recv` and `mixnet_send` hand over. -/
namespace Mixnet.PortNumbers
open NodeRecv (recvPort)

section Ports

def numNeighbors (d : UInt16) : UInt8 := d.toUInt8

def sendStpPorts (numNeighbors : UInt8) : List UInt8 :=
  (List.range numNeighbors.toNat).map UInt8.ofNat

def sendFloodPorts (numNeighbors : UInt8) (neighborsBlocked : ℕ → Bool) (senderPort : UInt16) :
    List UInt8 :=
  ((List.range numNeighbors.toNat).filter fun i =>
      !neighborsBlocked i && i ≠ senderPort.toNat).map UInt8.ofNat ++
    if senderPort.toNat ≠ numNeighbors.toNat then [numNeighbors] else []

def nodeSendPort (d : UInt16) (port : UInt8) : Option (Fin (d.toNat + 1)) :=
  if h : port.toNat ≤ d.toNat then some ⟨port.toNat, Nat.lt_succ_of_le h⟩ else none

/-- What ports `0..d` are to the framework they are to a node with `d` neighbours. -/
structure Kept (d : UInt16) : Prop where
  unique : ∀ i j : Fin (d.toNat + 1), recvPort i = recvPort j → i = j
  user : ∀ i : Fin (d.toNat + 1), recvPort i = numNeighbors d ↔ i = Fin.last d.toNat
  stp : (sendStpPorts (numNeighbors d)).map (nodeSendPort d) =
    (List.finRange d.toNat).map fun i => some i.castSucc
  flood : ∀ (neighborsBlocked : ℕ → Bool) (sender : Fin (d.toNat + 1)),
    (sendFloodPorts (numNeighbors d) neighborsBlocked (recvPort sender).toUInt16).map
        (nodeSendPort d) =
      ((List.finRange d.toNat).filter fun i : Fin d.toNat =>
          !neighborsBlocked i && i.castSucc ≠ sender).map (fun i => some i.castSucc) ++
        if sender ≠ Fin.last d.toNat then [some (Fin.last d.toNat)] else []

end Ports

section Narrow
variable {d : UInt16}

theorem recvPort_toNat (h : d.toNat ≤ 255) (i : Fin (d.toNat + 1)) :
    (recvPort i).toNat = i.val := by
  rw [recvPort, UInt8.toNat_ofNat_of_lt']
  have hi := i.isLt
  exact lt_of_le_of_lt (Nat.le_of_lt_succ hi) (Nat.lt_succ_of_le h)

theorem numNeighbors_toNat (h : d.toNat ≤ 255) : (numNeighbors d).toNat = d.toNat := by
  rw [numNeighbors, UInt16.toNat_toUInt8]
  exact Nat.mod_eq_of_lt (Nat.lt_succ_of_le h)

theorem nodeSendPort_recvPort (h : d.toNat ≤ 255) (i : Fin (d.toNat + 1)) :
    nodeSendPort d (recvPort i) = some i := by
  have hi := recvPort_toNat h i
  have hle : (recvPort i).toNat ≤ d.toNat := hi ▸ Nat.le_of_lt_succ i.isLt
  rw [nodeSendPort, dif_pos hle]
  exact congrArg some (Fin.ext hi)

theorem recvPort_last (h : d.toNat ≤ 255) :
    recvPort (Fin.last d.toNat) = numNeighbors d := by
  rw [← UInt8.toNat_inj, recvPort_toNat h, numNeighbors_toNat h, Fin.val_last]

theorem recvPort_injective (h : d.toNat ≤ 255) {i j : Fin (d.toNat + 1)}
    (hij : recvPort i = recvPort j) : i = j := by
  apply Fin.ext
  rw [← recvPort_toNat h i, ← recvPort_toNat h j, hij]

theorem nodeSendPort_loop (h : d.toNat ≤ 255) (P : ℕ → Bool) :
    (((List.range d.toNat).filter P).map UInt8.ofNat).map (nodeSendPort d) =
      ((List.finRange d.toNat).filter fun i : Fin d.toNat => P i).map
        fun i => some i.castSucc := by
  rw [← List.map_coe_finRange_eq_range, List.filter_map, List.map_map, List.map_map]
  apply List.map_congr_left
  intro i _
  exact nodeSendPort_recvPort h i.castSucc

theorem kept_of_le (h : d.toNat ≤ 255) : Kept d := by
  have hnum := numNeighbors_toNat h
  refine ⟨fun i j => recvPort_injective h, fun i => ?_, ?_, fun blocked sender => ?_⟩
  · rw [← recvPort_last h]
    exact ⟨recvPort_injective h, congrArg recvPort⟩
  · have hloop := nodeSendPort_loop h fun _ => true
    rw [List.filter_true, List.filter_true] at hloop
    rw [sendStpPorts, hnum]
    exact hloop
  · have hsender : (recvPort sender).toUInt16.toNat = sender.val := by
      rw [UInt8.toNat_toUInt16, recvPort_toNat h]
    have huser : sender.val ≠ d.toNat ↔ sender ≠ Fin.last d.toNat := by
      rw [ne_eq, ne_eq, Fin.ext_iff, Fin.val_last]
    rw [sendFloodPorts, List.map_append, hnum, hsender, nodeSendPort_loop h, ← recvPort_last h]
    simp only [huser, Fin.ne_iff_vne, Fin.val_castSucc]
    congr 1
    split_ifs with hlast
    · rw [List.map_singleton, nodeSendPort_recvPort h]
    · rfl

/-- Ports keep their identity exactly up to 255 neighbours. -/
theorem ports_kept_iff (d : UInt16) : Kept d ↔ d.toNat ≤ 255 := by
  constructor
  · intro h
    by_contra hgt
    have hlt : 256 < d.toNat + 1 := by omega
    have hsame : recvPort ⟨0, Nat.succ_pos d.toNat⟩ = recvPort ⟨256, hlt⟩ := by
      change UInt8.ofNat 0 = UInt8.ofNat 256
      decide
    have hzero : 0 = 256 := Fin.ext_iff.mp (h.unique _ _ hsame)
    omega
  · exact kept_of_le

/-- With 256 neighbours the user port and the first neighbour have one number, and `run_node`
takes it for the user port. -/
theorem ports_confused : ∃ i j : Fin ((256 : UInt16).toNat + 1),
    i ≠ j ∧ recvPort i = recvPort j ∧ i ≠ Fin.last _ ∧ recvPort i = numNeighbors 256 := by
  refine ⟨⟨0, by decide⟩, Fin.last _, ?_, ?_, ?_, ?_⟩
  · decide
  · decide
  · decide
  · decide

end Narrow

section Node
variable {d : UInt16}

theorem sendStp_ports (h : d.toNat ≤ 255) (node : Node d.toNat) :
    (sendStpPorts (numNeighbors d)).map (nodeSendPort d) =
      (sendStp node).map fun s => some s.1 := by
  rw [(kept_of_le h).stp, sendStp, List.map_map]
  rfl

theorem sendFlood_ports (h : d.toNat ≤ 255) (node : Node d.toNat) {neighborsBlocked : ℕ → Bool}
    (hblocked : ∀ i : Fin d.toNat, neighborsBlocked i = node.neighborsBlocked i)
    (sender : Fin (d.toNat + 1)) :
    (sendFloodPorts (numNeighbors d) neighborsBlocked (recvPort sender).toUInt16).map
        (nodeSendPort d) = (sendFlood node sender).map fun s => some s.1 := by
  rw [(kept_of_le h).flood, sendFlood, List.map_append, List.map_map]
  simp only [hblocked]
  congr 1
  split_ifs <;> rfl

theorem nodeSendPort_transmitted {subscribed : Bool} {port : UInt8} {packet : Buffer}
    (h : Capture.nodeSend d subscribed port packet = .transmitted) :
    ∃ i : Fin d.toNat, nodeSendPort d port = some i.castSucc := by
  obtain ⟨-, -, hlt, -⟩ := Capture.nodeSend_transmitted h
  exact ⟨⟨port.toNat, hlt⟩, dif_pos hlt.le⟩

theorem nodeSendPort_mirrored {subscribed : Bool} {port : UInt8} {packet : Buffer}
    (h : Capture.nodeSend d subscribed port packet = .mirrored) :
    nodeSendPort d port = some (Fin.last d.toNat) := by
  obtain ⟨-, -, huser, -⟩ := Capture.nodeSend_mirrored h
  rw [nodeSendPort, dif_pos huser.le]
  exact congrArg some (Fin.ext huser)

end Node

end Mixnet.PortNumbers
