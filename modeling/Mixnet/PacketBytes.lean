import Mathlib.Tactic.IntervalCases
import Mixnet.Control
import Mixnet.LinkState
import Mixnet.PacketAccess

/-! The bytes of a node's packets: `initialize_STP_packet` and `initialize_FLOOD_packet` fill a
block of memory, `node_send` takes it, and whoever reads its bytes from a stream reads the
packet. -/
namespace Mixnet
open Capture (nodeSend bleach bleach_apply packetType packetTypes totalSize validateSize
  totalSize_bleach)
open PacketAccess (packetType_bleach)
open Codec (u16At setU16 setU16_self setU16_of_ne u16At_congr)

section Memory

def typeValue (type : PacketType) : UInt16 := UInt16.ofNat (packetTypes.idxOf type)

/-- What a `mixnet_packet *` points at once the packet has been initialized in a block of memory
fresh from `malloc`, which has left something in the reserved field and behind the packet. -/
def Packet.memory (packet : Packet) (heap : Buffer) : Buffer :=
  let b := setU16 (setU16 heap 0 packet.totalSize) 2 (typeValue packet.type)
  let b := setU16 (setU16 b 12 packet.payload.rootAddress) 14 packet.payload.pathLength
  setU16 b 16 packet.payload.nodeAddress

def packetAt (memory : Buffer) : Option Packet :=
  (packetType memory).map fun type => ⟨totalSize memory, type, PacketAccess.update memory⟩

def Packet.Sized (packet : Packet) : Prop :=
  packet.type = .stp ∧ packet.totalSize = 18 ∨ packet.type = .flood ∧ packet.totalSize = 12

/-- What `run_node` reads of a packet is the same. -/
structure Packet.Alike (p q : Packet) : Prop where
  size : p.totalSize = q.totalSize
  type : p.type = q.type
  payload : p.type = .stp → p.payload = q.payload

variable {packet : Packet} {heap memory : Buffer}

theorem packetTypes_value (type : PacketType) :
    packetTypes[(typeValue type).toNat]? = some type := by
  cases type <;> rfl

theorem u16At_setU16_of_ne {offset offset' : ℕ} (v : UInt16)
    (h : offset + 2 ≤ offset' ∨ offset' + 2 ≤ offset) :
    u16At (setU16 memory offset' v) offset = u16At memory offset :=
  u16At_congr (setU16_of_ne v (by omega)) (setU16_of_ne v (by omega))

theorem memory_fields (packet : Packet) (heap : Buffer) :
    totalSize (packet.memory heap) = packet.totalSize ∧
      packetType (packet.memory heap) = some packet.type ∧
      PacketAccess.update (packet.memory heap) = packet.payload := by
  refine ⟨?_, ?_, ?_⟩
  · simp [totalSize, Packet.memory, u16At_setU16_of_ne, setU16_self]
  · rw [packetType]
    simp [Packet.memory, u16At_setU16_of_ne, setU16_self, packetTypes_value]
  · simp [PacketAccess.update, Packet.memory, u16At_setU16_of_ne, setU16_self]

end Memory

section Wire

def Packet.bytes (packet : Packet) : List UInt8 := messageAt (bleach (packet.memory fun _ => 0))

variable {packet : Packet}

theorem Packet.Sized.le (h : packet.Sized) : 12 ≤ packet.totalSize.toNat ∧
    packet.totalSize.toNat ≤ 18 := by
  obtain ⟨-, hsize⟩ | ⟨-, hsize⟩ := h
  · rw [hsize]
    decide
  · rw [hsize]
    decide

theorem lengthField_memory (packet : Packet) (heap : Buffer) :
    lengthField (bleach (packet.memory heap)) = packet.totalSize.toNat := by
  rw [← Codec.u16At_zero]
  exact congrArg UInt16.toNat ((totalSize_bleach _).trans (memory_fields packet heap).1)

theorem bytes_length (packet : Packet) : packet.bytes.length = packet.totalSize.toNat := by
  rw [Packet.bytes, messageAt_length, lengthField_memory]

theorem Packet.Sized.bytes_ne_nil (h : packet.Sized) : packet.bytes ≠ [] := by
  have hle := h.le.1
  rw [← bytes_length] at hle
  exact List.length_pos_iff.mp (by omega)

/-- Nothing of what `malloc` left in the block gets on the stream. -/
theorem messageAt_memory (h : packet.Sized) (heap : Buffer) :
    messageAt (bleach (packet.memory heap)) = packet.bytes := by
  have hle := h.le.2
  rw [Packet.bytes, messageAt, messageAt, lengthField_memory, lengthField_memory]
  refine Codec.bytesAt_congr fun i _ hi => ?_
  rw [bleach_apply, bleach_apply]
  split_ifs with hreserved
  · rfl
  · have hi' : i < 18 := by omega
    have hcases : i < 4 ∨ 12 ≤ i := by omega
    interval_cases i
    all_goals first | rfl | omega

def Packet.message (packet : Packet) (h : packet.Sized) : LinkState.Packet where
  bytes := packet.bytes
  length_field := by
    have htwo : 2 ≤ lengthField (bleach (packet.memory fun _ => 0)) := by
      rw [lengthField_memory]
      exact le_trans (by decide) h.le.1
    exact messageAt_lengthField _ htwo
  min_le := by
    rw [bytes_length]
    exact h.le.1
  le_max := by
    rw [bytes_length]
    exact h.le.2.trans (by decide)

theorem packetAt_of_bytes (h : packet.Sized) {memory : Buffer}
    (hbytes : ∀ i < packet.bytes.length, memory i = packet.bytes.getD i 0) :
    ∃ p, packetAt memory = some p ∧ packet.Alike p := by
  let sent := bleach (packet.memory fun _ => 0)
  have hlen : lengthField sent = packet.totalSize.toNat := lengthField_memory packet _
  have hsame : ∀ i < packet.totalSize.toNat, memory i = packet.memory (fun _ => 0) i ∨
      4 ≤ i ∧ i < 12 := by
    intro i hi
    rw [hbytes i (by rwa [bytes_length]), Packet.bytes, messageAt_getD _ (by rwa [hlen]) 0,
      bleach_apply]
    split_ifs with hreserved
    · exact Or.inr hreserved
    · exact Or.inl rfl
  have hword : ∀ k, k + 1 < packet.totalSize.toNat → k + 1 < 4 ∨ 12 ≤ k →
      u16At memory k = u16At (packet.memory fun _ => 0) k := by
    intro k hk hfield
    refine u16At_congr ((hsame k (by omega)).resolve_right (by omega))
      ((hsame (k + 1) (by omega)).resolve_right (by omega))
  obtain ⟨hsize, htype, hpayload⟩ := memory_fields packet fun _ => 0
  have hmin := h.le.1
  have hsize' : totalSize memory = packet.totalSize := (hword 0 (by omega) (by omega)).trans hsize
  have htype' : packetType memory = some packet.type := by
    rw [packetType, hword 2 (by omega) (by omega)]
    exact htype
  refine ⟨⟨packet.totalSize, packet.type, PacketAccess.update memory⟩, ?_, rfl, rfl,
    fun hstp => ?_⟩
  · rw [packetAt, htype', hsize']
    rfl
  have hlong : packet.totalSize.toNat = 18 := by
    obtain ⟨-, hs⟩ | ⟨hflood, -⟩ := h
    · rw [hs]
      rfl
    · rw [hstp] at hflood
      exact absurd hflood (by decide)
  rw [← hpayload, PacketAccess.update, PacketAccess.update, hword 12 (by omega) (by omega),
    hword 14 (by omega) (by omega), hword 16 (by omega) (by omega)]

theorem packetAt_store (h : packet.Sized) (heap : Buffer) :
    ∃ p, packetAt (store heap 0 packet.bytes) = some p ∧ packet.Alike p :=
  packetAt_of_bytes h fun i hi => store_ge (Nat.zero_le i) hi 0

end Wire

section Accepted
variable {packet : Packet}

theorem validateSize_memory (h : packet.Sized) (heap : Buffer) :
    validateSize (bleach (packet.memory heap)) = true := by
  obtain ⟨hsize, htype, -⟩ := memory_fields packet heap
  simp only [validateSize, totalSize_bleach, packetType_bleach, hsize, htype]
  obtain ⟨ht, hs⟩ | ⟨ht, hs⟩ := h
  · rw [ht, hs]
    rfl
  · rw [ht, hs]
    rfl

theorem nodeSend_memory (h : packet.Sized) (heap : Buffer) {d : UInt16} {subscribed : Bool}
    {port : UInt8} (hport : port.toNat ≤ d.toNat)
    (huser : port.toNat = d.toNat → packet.type = .flood) :
    nodeSend d subscribed port (packet.memory heap) =
      if port.toNat = d.toNat then if subscribed then .mirrored else .freed else .transmitted := by
  obtain ⟨hsize, htype, -⟩ := memory_fields packet heap
  have hbounds : ¬ (packet.totalSize < 12 ∨
      Orchestrator.maxMixnetPacketSize < packet.totalSize) := by
    have hle := h.le
    simp only [UInt16.lt_iff_toNat_lt, not_or, not_lt]
    exact ⟨hle.1, hle.2.trans (by decide)⟩
  simp only [nodeSend, hsize, if_neg hbounds, validateSize_memory h heap, packetType_bleach, htype]
  rw [if_neg (Nat.not_lt.mpr hport), if_neg (by simp)]
  by_cases hlast : port.toNat = d.toNat
  · simp [hlast, huser hlast]
  · simp [hlast]

end Accepted

/-- A packet that the node cannot tell from another has the same effect. -/
theorem processPacket_alike {n : ℕ} {p q : Packet} (h : p.Alike q) (node : Node n)
    (port : Fin (n+1)) : processPacket node port p = processPacket node port q := by
  cases htype : p.type with
  | stp =>
    have hq : q.type = .stp := h.type.symm.trans htype
    simp only [processPacket, htype, hq, h.payload htype]
  | flood | lsa | data | ping =>
    have hq := h.type.symm.trans htype
    simp only [processPacket, htype, hq]

theorem sendStp_sized {n : ℕ} (node : Node n) : ∀ q ∈ sendStp node, q.2.Sized ∧
    (q.1 = Fin.last n → q.2.type = .flood) := by
  intro q hq
  obtain ⟨i, -, rfl⟩ := List.mem_map.mp hq
  exact ⟨Or.inl ⟨rfl, rfl⟩, fun hlast => absurd hlast i.castSucc_lt_last.ne⟩

theorem sendFlood_sized {n : ℕ} (node : Node n) (port : Fin (n+1)) :
    ∀ q ∈ sendFlood node port, q.2.Sized ∧ (q.1 = Fin.last n → q.2.type = .flood) := by
  intro q hq
  have hflood : q.2 = initializeFloodPacket node.rootAddr (UInt16.ofNat node.pathLen)
      node.myAddr := by
    simp only [sendFlood, List.mem_append, List.mem_map] at hq
    obtain ⟨i, _, rfl⟩ | hu := hq
    · rfl
    · split_ifs at hu
      · obtain rfl := List.mem_singleton.mp hu
        rfl
      · simp at hu
  rw [hflood]
  exact ⟨Or.inr ⟨rfl, rfl⟩, fun _ => rfl⟩

theorem step_sized {n : ℕ} {node : Node n} {e : NodeEvent n} {o : Outcome n}
    (h : node.step e = some o) : ∀ q ∈ o.sends, q.2.Sized ∧
      (q.1 = Fin.last n → q.2.type = .flood) := by
  cases e with
  | hello =>
    simp only [Node.step] at h
    split_ifs at h
    obtain rfl := Option.some.inj h
    exact sendStp_sized node
  | reelection =>
    simp only [Node.step] at h
    split_ifs at h
    obtain rfl := Option.some.inj h
    exact sendStp_sized _
  | packet port packet =>
    cases htype : packet.type with
    | stp =>
      induction port using Fin.lastCases with
      | last =>
        obtain rfl := processPacket_user_stp htype h
        exact sendStp_sized node
      | cast i =>
        obtain ⟨o', ho', hc⟩ := processPacket_stp node i htype
        obtain rfl : o' = o := Option.some.inj (ho'.symm.trans h)
        obtain hs | hs := hc.isStp
        · rw [hs]
          exact sendStp_sized o'.node
        · simp [hs]
    | flood =>
      simp only [Node.step, processPacket, htype] at h
      split_ifs at h <;> cases h
      · exact sendFlood_sized node port
      · exact sendFlood_sized node port
      · simp
    | lsa | data | ping =>
      simp only [Node.step, processPacket, htype, Option.some.injEq] at h
      subst h
      simp

end Mixnet
