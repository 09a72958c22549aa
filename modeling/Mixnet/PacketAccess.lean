import Mixnet.Capture
import Mixnet.NodeRules

/-! What `run_node` reads of a packet, and which entries of `neighbors_addy` and `neighbors_blocked`
it touches. A packet is the memory behind its pointer, of which `size` bytes are its own. -/
namespace Mixnet.PacketAccess
open Capture (nodeSend nodeSend_transmitted bleach packetType totalSize validateSize)
open Codec (u16At setU16)
variable {n : ℕ}

section Handler

/-- A byte of the packet, or an entry of one of the arrays of `struct node`. -/
inductive Access where
  | packet (offset : ℕ)
  | neighborsAddy (port : ℕ)
  | neighborsBlocked (port : ℕ)
deriving DecidableEq

def Access.InBounds (size n : ℕ) : Access → Prop
  | .packet offset => offset < size
  | .neighborsAddy port | .neighborsBlocked port => port < n

instance (size n : ℕ) : DecidablePred (Access.InBounds size n)
  | .packet _ => inferInstanceAs (Decidable (_ < _))
  | .neighborsAddy _ | .neighborsBlocked _ => inferInstanceAs (Decidable (_ < _))

def copyUpdate : List Access := (List.range 6).map fun i => .packet (12 + i)

def update (memory : Buffer) : StpPayload := ⟨u16At memory 12, u16At memory 14, u16At memory 16⟩

def allBlocked (n : ℕ) : List Access := (List.range n).map .neighborsBlocked

/-- What `receive_STP` reads and writes, up to the first index out of bounds. -/
def receiveStp (node : Node n) (port : Fin (n+1)) (memory : Buffer) : List Access :=
  copyUpdate ++ .neighborsAddy port ::
    if h : port = Fin.last n then []
    else if node.neighborsAddy (port.castPred h) = -1 then
      [.neighborsAddy port, .neighborsBlocked port]
    else
      (if (improve node (update memory)).2 then allBlocked n else []) ++ [.neighborsBlocked port]

/-- The `if (recv)` part of the loop body. -/
def handler (node : Node n) (port : Fin (n+1)) (memory : Buffer) : List Access :=
  copyUpdate ++ [.packet 2, .packet 3] ++
    match packetType memory with
    | some .stp => if node.matchesParent (update memory) then [] else receiveStp node port memory
    | some .flood =>
      if h : port = Fin.last n then allBlocked n
      else .neighborsBlocked port ::
        if !node.neighborsBlocked (port.castPred h) then allBlocked n else []
    | _ => []

end Handler

section Handed

structure SendPacket where
  type : UInt16
  srcMixaddr : UInt16
  dstMixaddr : UInt16
  data : List UInt8

def maxMixnetDataSize : ℕ := 4096 - 12 - (8 + 2 * 256)

def SendPacket.Accepted (p : SendPacket) : Prop := p.data.length ≤ maxMixnetDataSize

/-- The packet that `task_send_packet` makes of the request, in memory fresh from `malloc`. -/
def taskSendPacket (heap : Buffer) (p : SendPacket) : Buffer :=
  let packet := setU16 heap 2 p.type
  if p.type = 3 ∨ p.type = 4 then
    let packet := setU16 (setU16 (setU16 (setU16 packet 12 p.srcMixaddr) 14 p.dstMixaddr) 16 0) 18 0
    if p.type = 3 then
      setU16 (store packet 20 p.data) 0 (12 + 8 + UInt16.ofNat p.data.length)
    else setU16 packet 0 (12 + 8)
  else setU16 packet 0 12

/-- A packet in the hands of `run_node`: what a neighbour's `node_send` has taken arrives in a block
of `total_size` bytes, what is injected in one of 4096. -/
inductive Handed : Fin (n+1) → Buffer → ℕ → Prop
  | neighbour (i : Fin n) {d : UInt16} {subscribed : Bool} {port : UInt8} {packet memory : Buffer}
      (hsend : nodeSend d subscribed port packet = .transmitted)
      (hrecv : messageAt memory = messageAt (bleach packet)) :
      Handed i.castSucc memory (totalSize packet).toNat
  | user (heap : Buffer) (p : SendPacket) (haccepted : p.Accepted) :
      Handed (Fin.last n) (taskSendPacket heap p) 4096

end Handed

section Bounds
variable {node : Node n} {port : Fin (n+1)} {memory : Buffer} {size : ℕ}

theorem copyUpdate_inBounds : (∀ a ∈ copyUpdate, a.InBounds size n) ↔ 18 ≤ size := by
  constructor
  · intro h
    have hlast : (Access.packet 17).InBounds size n := h _ (by decide)
    exact hlast
  · intro h a ha
    obtain ⟨i, hi, rfl⟩ := List.mem_map.mp ha
    have hlt := List.mem_range.mp hi
    change 12 + i < size
    omega

theorem allBlocked_inBounds : ∀ a ∈ allBlocked n, a.InBounds size n := by
  intro a ha
  obtain ⟨i, hi, rfl⟩ := List.mem_map.mp ha
  exact List.mem_range.mp hi

theorem port_lt (h : port ≠ Fin.last n) : port.val < n := Fin.val_lt_last h

theorem receiveStp_inBounds (hsize : 18 ≤ size) :
    (∀ a ∈ receiveStp node port memory, a.InBounds size n) ↔ port ≠ Fin.last n := by
  rw [receiveStp, List.forall_mem_append, List.forall_mem_cons,
    and_iff_right (copyUpdate_inBounds.mpr hsize)]
  constructor
  · rintro ⟨hport, -⟩ rfl
    exact absurd hport (lt_irrefl n)
  · intro hport
    have hlt : port.val < n := port_lt hport
    refine ⟨hlt, ?_⟩
    rw [dif_neg hport]
    split_ifs
    · simp [Access.InBounds, hlt]
    · exact List.forall_mem_append.mpr ⟨allBlocked_inBounds, by simpa [Access.InBounds] using hlt⟩
    · simpa [Access.InBounds] using hlt

theorem handler_inBounds (node : Node n) (port : Fin (n+1)) (memory : Buffer) (size : ℕ) :
    (∀ a ∈ handler node port memory, a.InBounds size n) ↔
      18 ≤ size ∧ (port = Fin.last n → packetType memory = some .stp →
        node.matchesParent (update memory)) := by
  rw [handler, List.forall_mem_append, List.forall_mem_append, copyUpdate_inBounds, and_assoc]
  refine and_congr_right fun hsize => ?_
  have htype : ∀ a ∈ [Access.packet 2, .packet 3], a.InBounds size n := by
    simp only [List.forall_mem_cons, Access.InBounds]
    exact ⟨by omega, by omega, by simp⟩
  rw [and_iff_right htype]
  split
  · next hstp =>
    split_ifs with hparent
    · simp [hparent]
    · rw [receiveStp_inBounds hsize]
      exact ⟨fun hne he => absurd he hne, fun h he => hparent (h he hstp)⟩
  · next hflood =>
    refine iff_of_true ?_ fun _ hstp => by simp [hflood] at hstp
    split_ifs with hport
    · exact allBlocked_inBounds
    · exact List.forall_mem_cons.mpr ⟨port_lt hport, allBlocked_inBounds⟩
    · exact List.forall_mem_cons.mpr ⟨port_lt hport, by simp⟩
  · next hstp _ => exact iff_of_true (by simp) fun _ he => (hstp he).elim

/-- With a packet that the framework hands over, the handler stays in bounds exactly if one from a
neighbour has the bytes of an STP update, and one from the user that is of type STP is not compared
with anything but the parent. -/
theorem handler_in_bounds_iff (node : Node n) (hhanded : Handed port memory size) :
    (∀ a ∈ handler node port memory, a.InBounds size n) ↔
      (port ≠ Fin.last n → 18 ≤ size) ∧
        (port = Fin.last n → packetType memory = some .stp →
          node.matchesParent (update memory)) := by
  rw [handler_inBounds]
  refine and_congr_left fun _ => ?_
  cases hhanded with
  | neighbour i _ _ => exact ⟨fun h _ => h, fun h => h (Fin.castSucc_lt_last i).ne⟩
  | user heap p _ => exact iff_of_true (by decide) fun hne => absurd rfl hne

/-- The node model has an outcome exactly where the handler, given enough bytes, is in bounds. -/
theorem processPacket_isSome_iff {type : PacketType} (htype : packetType memory = some type) :
    (processPacket node port ⟨totalSize memory, type, update memory⟩).isSome ↔
      ∀ a ∈ handler node port memory, a.InBounds 18 n := by
  rw [handler_inBounds, and_iff_right le_rfl, htype]
  cases Fin.eq_castSucc_or_eq_last port with
  | inl hcast =>
    obtain ⟨i, rfl⟩ := hcast
    refine iff_of_true ?_ fun he => absurd he (Fin.castSucc_lt_last i).ne
    by_cases hstp : type = .stp
    · obtain ⟨o, ho, -⟩ := @processPacket_stp n node i ⟨_, type, update memory⟩ hstp
      rw [ho]
      rfl
    · by_cases hflood : type = .flood
      · rw [processPacket_flood node i hflood]
        rfl
      · cases type <;> first | rfl | contradiction
  | inr hlast =>
    subst hlast
    cases type with
    | stp =>
      by_cases hparent : node.matchesParent (update memory)
      · simp [processPacket, hparent]
      · simp [processPacket, hparent]
    | flood =>
      rw [processPacket_user node _ rfl]
      simp
    | lsa | data | ping => simp [processPacket]

/-- A FLOOD from the user of node 2, injected with data that it does not carry. -/
theorem handler_in_bounds_iff_user :
    let memory := taskSendPacket (fun _ => 0) ⟨1, 1, 2, []⟩
    (∀ a ∈ handler (initNode 1 2) (Fin.last 1) memory, a.InBounds 4096 1) ↔
      (Fin.last 1 ≠ Fin.last 1 → 18 ≤ 4096) ∧
        (Fin.last 1 = Fin.last 1 → packetType memory = some .stp →
          (initNode 1 2).matchesParent (update memory)) :=
  handler_in_bounds_iff (initNode 1 2) (.user (fun _ => 0) ⟨1, 1, 2, []⟩ (Nat.zero_le _))

def flood : Buffer := fun i => if i = 0 then 12 else if i = 2 then 1 else 0

/-- A FLOOD from a neighbour is handed over in twelve bytes, and six more are read. -/
theorem handler_out_of_bounds : ∃ (memory : Buffer) (size : ℕ),
    Handed (n := 1) (Fin.castSucc 0) memory size ∧
      ¬ ∀ a ∈ handler (initNode 1 2) (Fin.castSucc 0) memory, a.InBounds size 1 := by
  have hsend : nodeSend 1 false 0 flood = .transmitted := by decide
  refine ⟨bleach flood, (totalSize flood).toNat, .neighbour 0 hsend rfl, ?_⟩
  decide

/-- An STP packet that the user of node 2 has injected reaches the comparison with an entry behind
`neighbors_addy`. -/
theorem injected_stp_out_of_bounds : ∃ memory : Buffer, Handed (n := 1) (Fin.last 1) memory 4096 ∧
    Access.neighborsAddy 1 ∈ handler (initNode 1 2) (Fin.last 1) memory := by
  refine ⟨taskSendPacket (fun _ => 0) ⟨0, 1, 2, []⟩, .user _ _ (Nat.zero_le _), ?_⟩
  decide

end Bounds

section Sizes
variable {d : UInt16} {subscribed : Bool} {port : UInt8} {packet memory : Buffer}

theorem packetType_bleach (packet : Buffer) : packetType (bleach packet) = packetType packet := by
  have hcode : u16At (bleach packet) 2 = u16At packet 2 :=
    Codec.u16At_congr (by simp [Capture.bleach_apply]) (by simp [Capture.bleach_apply])
  rw [packetType, packetType, hcode]

theorem payload_size (h : 12 ≤ totalSize packet) :
    (totalSize packet - 12).toNat = (totalSize packet).toNat - 12 :=
  UInt16.toNat_sub_of_le _ _ h

theorem transmitted_stp (h : nodeSend d subscribed port packet = .transmitted)
    (htype : packetType packet = some .stp) : (totalSize packet).toNat = 18 := by
  obtain ⟨hmin, -, -, hvalid⟩ := nodeSend_transmitted h
  rw [← packetType_bleach] at htype
  simp only [validateSize, htype, Capture.totalSize_bleach, payload_size hmin,
    decide_eq_true_eq] at hvalid
  omega

theorem transmitted_flood (h : nodeSend d subscribed port packet = .transmitted)
    (htype : packetType packet = some .flood) : (totalSize packet).toNat = 12 := by
  obtain ⟨hmin, -, -, hvalid⟩ := nodeSend_transmitted h
  have h12 := UInt16.le_iff_toNat_le.mp hmin
  rw [← packetType_bleach] at htype
  simp only [validateSize, htype, Capture.totalSize_bleach, payload_size hmin,
    decide_eq_true_eq] at hvalid
  change 12 ≤ _ at h12
  omega

variable {node : Node n} {i : Fin n}

theorem stp_in_bounds (h : nodeSend d subscribed port packet = .transmitted)
    (htype : packetType packet = some .stp) :
    ∀ a ∈ handler node i.castSucc memory, a.InBounds (totalSize packet).toNat n := by
  rw [transmitted_stp h htype]
  exact (handler_inBounds node i.castSucc memory 18).mpr
    ⟨le_rfl, fun he => absurd he (Fin.castSucc_lt_last i).ne⟩

theorem flood_out_of_bounds (h : nodeSend d subscribed port packet = .transmitted)
    (htype : packetType packet = some .flood) :
    ¬ ∀ a ∈ handler node i.castSucc memory, a.InBounds (totalSize packet).toNat n := by
  rw [transmitted_flood h htype, handler_inBounds]
  rintro ⟨hsize, -⟩
  omega

end Sizes

end Mixnet.PacketAccess
