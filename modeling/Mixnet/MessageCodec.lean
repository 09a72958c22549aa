import Mixnet.MessageFraming

/-! The codec of framework/message.cpp: a header, a payload whose length depends on type,
direction and the payload itself, and a canary behind it. -/
namespace Mixnet.Codec

section Words

def u16At (buffer : Buffer) (offset : ℕ) : UInt16 :=
  UInt16.ofNat ((buffer offset).toNat + 256 * (buffer (offset + 1)).toNat)

def u16Bytes (v : UInt16) : List UInt8 := [v.toUInt8, (v >>> 8).toUInt8]

def setU16 (buffer : Buffer) (offset : ℕ) (v : UInt16) : Buffer :=
  store buffer offset (u16Bytes v)

theorem u16At_toNat (buffer : Buffer) (offset : ℕ) : (u16At buffer offset).toNat =
    (buffer offset).toNat + 256 * (buffer (offset + 1)).toNat := by
  have h0 := (buffer offset).toNat_lt
  have h1 := (buffer (offset + 1)).toNat_lt
  rw [u16At, UInt16.toNat_ofNat', Nat.mod_eq_of_lt (by omega)]

theorem u16At_zero (buffer : Buffer) : (u16At buffer 0).toNat = lengthField buffer :=
  u16At_toNat buffer 0

theorem u16At_congr {a b : Buffer} {offset offset' : ℕ} (h0 : a offset = b offset')
    (h1 : a (offset + 1) = b (offset' + 1)) : u16At a offset = u16At b offset' := by
  rw [u16At, u16At, h0, h1]

theorem setU16_self (buffer : Buffer) (offset : ℕ) (v : UInt16) :
    u16At (setU16 buffer offset v) offset = v := by
  have hlow : setU16 buffer offset v offset = v.toUInt8 := by simp [setU16, store, u16Bytes]
  have hhigh : setU16 buffer offset v (offset + 1) = (v >>> 8).toUInt8 := by
    simp [setU16, store, u16Bytes]
  have hv := v.toNat_lt
  rw [← UInt16.toNat_inj, u16At_toNat, hlow, hhigh, UInt16.toNat_toUInt8, UInt16.toNat_toUInt8,
    UInt16.toNat_shiftRight, Nat.shiftRight_eq_div_pow]
  change v.toNat % 2^8 + 256 * (v.toNat / 2^8 % 2^8) = v.toNat
  omega

theorem store_of_ge {buffer : Buffer} {offset i : ℕ} {bytes : List UInt8}
    (h : offset + bytes.length ≤ i) : store buffer offset bytes i = buffer i := by
  have hi : bytes.length ≤ i - offset := by omega
  simp [store, List.getD, hi]

theorem setU16_of_ne {buffer : Buffer} {offset i : ℕ} (v : UInt16)
    (h : i < offset ∨ offset + 2 ≤ i) : setU16 buffer offset v i = buffer i := by
  obtain h | h := h
  · exact store_lt _ h
  · exact store_of_ge h

theorem bytesAt_store (buffer : Buffer) (offset : ℕ) (bytes : List UInt8) :
    bytesAt (store buffer offset bytes) offset bytes.length = bytes := by
  refine List.ext_getElem (by simp [bytesAt]) fun i hi hi' => ?_
  simp only [bytesAt, List.getElem_map, List.getElem_range]
  rw [store_ge (by omega) (by omega) 0, Nat.add_sub_cancel_left]
  simp [hi']

theorem bytesAt_congr {a b : Buffer} {offset n : ℕ}
    (h : ∀ i, offset ≤ i → i < offset + n → a i = b i) :
    bytesAt a offset n = bytesAt b offset n := by
  refine List.map_congr_left fun i hi => ?_
  have hlt := List.mem_range.mp hi
  exact h _ (by omega) (by omega)

end Words

inductive MessageType where
  | noop
  | setupCtrl
  | setupPcap
  | topology
  | startMixnetServer
  | startMixnetClients
  | resolveMixnetConns
  | changeLinkState
  | pcapData
  | pcapSubscription
  | sendPacket
  | startTestcase
  | endTestcase
  | shutdown
deriving DecidableEq, Repr

def messageTypes : List MessageType :=
  [.noop, .setupCtrl, .setupPcap, .topology, .startMixnetServer, .startMixnetClients,
    .resolveMixnetConns, .changeLinkState, .pcapData, .pcapSubscription, .sendPacket,
    .startTestcase, .endTestcase, .shutdown]

def errorCodes : List ErrorCode :=
  [.none, .pollError, .forkFailed, .execFailed, .badTestcase, .badFragmentId, .badMessageCode,
    .malformedMessage, .recvZeroPending, .recvWaitTimeout, .sendReqsTimeout, .fragmentException,
    .socketBindFailed, .socketAcceptFailed, .socketCreateFailed, .socketListenFailed,
    .socketBadOperation, .socketConnectFailed, .socketOptionsFailed, .socketAcceptTimeout,
    .fragmentPcapMqFull, .ctrlConnectionBroken, .pcapConnectionBroken, .fragmentInvalidSaddr,
    .fragmentInvalidCaddr, .mixnetBadPacketSize, .mixnetConnectionBroken,
    .fragmentBadNeighborCount, .fragmentThreadsNonresponsive, .fragmentDuplicateLocalAddrs]

def MessageType.value (type : MessageType) : UInt16 := UInt16.ofNat (messageTypes.idxOf type)

def errorValue (code : ErrorCode) : UInt16 := UInt16.ofNat (errorCodes.idxOf code)

def codeCreate (isRequest : Bool) (type : MessageType) : UInt16 :=
  (if !isRequest then (1 : UInt16) else 0) <<< 15 ||| type.value &&& 0x7FFF

def codeIsRequest (code : UInt16) : Bool := code &&& 0x8000 = 0

def codeToType (code : UInt16) : Option MessageType := messageTypes[(code &&& 0x7FFF).toNat]?

theorem codeIsRequest_create (isRequest : Bool) (type : MessageType) :
    codeIsRequest (codeCreate isRequest type) = isRequest := by
  cases isRequest <;> cases type <;> decide

theorem codeToType_create (isRequest : Bool) (type : MessageType) :
    codeToType (codeCreate isRequest type) = some type := by
  cases isRequest <;> cases type <;> decide

theorem errorCodes_value {code : ErrorCode} (h : code ≠ .enumerationLimit) :
    errorCodes[(errorValue code).toNat]? = some code := by
  cases code with
  | enumerationLimit => exact absurd rfl h
  | _ => decide

/-- Sent as the last four bytes, the least significant one first. -/
def canary : List UInt8 := [0xef, 0xbe, 0xad, 0xde]

def isRequest (buffer : Buffer) : Bool := codeIsRequest (u16At buffer 2)

def getType (buffer : Buffer) : Option MessageType := codeToType (u16At buffer 2)

def getFragmentId (buffer : Buffer) : UInt16 := u16At buffer 4

def getErrorCode (buffer : Buffer) : Option ErrorCode := errorCodes[(u16At buffer 6).toNat]?

def getTotalLength (buffer : Buffer) : UInt16 := u16At buffer 0

def payload (buffer : Buffer) : Buffer := fun i => buffer (8 + i)

def topologyLength (payload : Buffer) : UInt16 := 16 + u16At payload 2 * 2

/-- `length()` of `start_mixnet_clients`, both directions, and `resolve_mixnet_connections`. -/
def netaddrsLength (payload : Buffer) : UInt16 := 8 + u16At payload 0 * 16

def sendPacketLength (payload : Buffer) : UInt16 := 8 + u16At payload 6 * 1

def payloadLength (request : Bool) (type : MessageType) (payload : Buffer) : Option UInt16 :=
  match type with
  | .setupCtrl => some (if request then 1 else 4)
  | .setupPcap => some (if request then 16 else 0)
  | .topology => some (if request then topologyLength payload else 0)
  | .startMixnetServer => some (if request then 0 else 16)
  | .startMixnetClients => some (netaddrsLength payload)
  | .resolveMixnetConns => some (if request then netaddrsLength payload else 0)
  | .changeLinkState => some (if request then 4 else 0)
  | .pcapData => some (if request then 0 else u16At payload 0)
  | .pcapSubscription => some (if request then 1 else 0)
  | .sendPacket => some (if request then sendPacketLength payload else 0)
  | .startTestcase | .endTestcase | .shutdown => some 0
  | .noop => none

def computeTotalLength (buffer : Buffer) : Option UInt16 :=
  (getType buffer).bind fun type =>
    (payloadLength (isRequest buffer) type (payload buffer)).map fun length => 8 + length + 4

/-- The upper bound 65535 of the source is the largest value of the type. -/
def validate (buffer : Buffer) : Option Bool :=
  (computeTotalLength buffer).map fun length =>
    12 ≤ length && bytesAt buffer (length.toNat - 4) 4 = canary

def finalize (buffer : Buffer) : Option Buffer :=
  (computeTotalLength buffer).bind fun length =>
    if 12 ≤ length then some (store (setU16 buffer 0 length) (length.toNat - 4) canary) else none

def setCode (buffer : Buffer) (isRequest : Bool) (type : MessageType) : Buffer :=
  setU16 buffer 2 (codeCreate isRequest type)

def setFragmentId (buffer : Buffer) (fragmentId : UInt16) : Buffer := setU16 buffer 4 fragmentId

def setErrorCode (buffer : Buffer) (code : ErrorCode) : Buffer :=
  setU16 buffer 6 (errorValue code)

def fill (buffer : Buffer) (payload : List UInt8) : Buffer := store buffer 8 payload

def copy (other buffer : Buffer) (n : ℕ) : Buffer := store other 0 (bytesAt buffer 0 n)

section Payloads

def field (payload : List UInt8) (offset : ℕ) : UInt16 := u16At (fun i => payload.getD i 0) offset

/-- The bytes that the payload structs of message.h occupy: the struct itself and the array whose
elements it counts. A captured packet counts all its bytes. -/
def payloadSize (isRequest : Bool) (type : MessageType) (payload : List UInt8) : ℕ :=
  match type, isRequest with
  | .setupCtrl, true => 1
  | .setupCtrl, false => 4
  | .setupPcap, true => 16
  | .topology, true => 16 + 2 * (field payload 2).toNat
  | .startMixnetServer, false => 16
  | .startMixnetClients, _ => 8 + 16 * (field payload 0).toNat
  | .resolveMixnetConns, true => 8 + 16 * (field payload 0).toNat
  | .changeLinkState, true => 4
  | .pcapData, false => (field payload 0).toNat
  | .pcapSubscription, true => 1
  | .sendPacket, true => 8 + (field payload 6).toNat
  | _, _ => 0

structure Exact (isRequest : Bool) (type : MessageType) (payload : List UInt8) : Prop where
  size : payload.length = payloadSize isRequest type payload
  captured : type = .pcapData → isRequest = false → 2 ≤ payload.length

theorem u16_sum (base width : ℕ) (v : UInt16) :
    UInt16.ofNat base + v * UInt16.ofNat width = UInt16.ofNat (base + width * v.toNat) := by
  rw [UInt16.ofNat_add, UInt16.ofNat_mul, UInt16.ofNat_toNat, UInt16.mul_comm]

variable {request : Bool} {type : MessageType} {bytes : List UInt8} {buffer : Buffer}

theorem u16At_field (h : ∀ i < bytes.length, buffer i = bytes.getD i 0) {offset : ℕ}
    (ho : offset + 2 ≤ bytes.length) : u16At buffer offset = field bytes offset :=
  u16At_congr (h offset (by omega)) (h (offset + 1) (by omega))

/-- The switch finds the length of a payload from the payload. -/
theorem payloadLength_exact (hx : Exact request type bytes) (htype : type ≠ .noop)
    (h : ∀ i < bytes.length, buffer i = bytes.getD i 0) :
    payloadLength request type buffer = some (UInt16.ofNat bytes.length) := by
  have hsize := hx.size
  cases type with
  | noop => exact absurd rfl htype
  | topology =>
    cases request with
    | false => simp_all [payloadLength, payloadSize]
    | true =>
      simp only [payloadSize] at hsize
      rw [payloadLength, if_pos rfl, topologyLength, u16At_field h (by omega), hsize]
      exact congrArg some (u16_sum 16 2 _)
  | startMixnetClients =>
    simp only [payloadSize] at hsize
    rw [payloadLength, netaddrsLength, u16At_field h (by omega), hsize]
    exact congrArg some (u16_sum 8 16 _)
  | resolveMixnetConns =>
    cases request with
    | false => simp_all [payloadLength, payloadSize]
    | true =>
      simp only [payloadSize] at hsize
      rw [payloadLength, if_pos rfl, netaddrsLength, u16At_field h (by omega), hsize]
      exact congrArg some (u16_sum 8 16 _)
  | pcapData =>
    cases request with
    | true => simp_all [payloadLength, payloadSize]
    | false =>
      have hlong := hx.captured rfl rfl
      simp only [payloadSize] at hsize
      rw [payloadLength, if_neg (by decide), u16At_field h hlong, hsize, UInt16.ofNat_toNat]
  | sendPacket =>
    cases request with
    | false => simp_all [payloadLength, payloadSize]
    | true =>
      simp only [payloadSize] at hsize
      rw [payloadLength, if_pos rfl, sendPacketLength, u16At_field h (by omega), hsize]
      simp
  | _ => cases request <;> simp_all [payloadLength, payloadSize]

theorem field_append {front back : List UInt8} {offset : ℕ} (h : offset + 2 ≤ front.length) :
    field (front ++ back) offset = field front offset := by
  have hget : ∀ i, i < front.length → (front ++ back).getD i 0 = front.getD i 0 := fun i hi => by
    rw [List.getD_eq_getElem?_getD, List.getElem?_append_left hi, List.getD_eq_getElem?_getD]
  exact u16At_congr (hget _ (by omega)) (hget _ (by omega))

theorem exact_topology {front : List UInt8} {linkCosts : List UInt16} (hfront : front.length = 16)
    (hcount : (field front 2).toNat = linkCosts.length) :
    Exact true .topology (front ++ linkCosts.flatMap u16Bytes) where
  size := by
    have hcosts : (linkCosts.flatMap u16Bytes).length = 2 * linkCosts.length := by
      simp [List.length_flatMap, u16Bytes, Nat.mul_comm]
    rw [payloadSize, field_append (by omega), List.length_append, hfront, hcosts, hcount]
  captured := fun h => absurd h (by decide)

theorem exact_netaddrs {front : List UInt8} {netaddrs : List (List UInt8)}
    (hfront : front.length = 8) (haddr : ∀ a ∈ netaddrs, a.length = 16)
    (hcount : (field front 0).toNat = netaddrs.length) :
    Exact true .startMixnetClients (front ++ netaddrs.flatten) ∧
      Exact false .startMixnetClients (front ++ netaddrs.flatten) ∧
      Exact true .resolveMixnetConns (front ++ netaddrs.flatten) := by
  have hflat : netaddrs.flatten.length = 16 * netaddrs.length := by
    rw [List.length_flatten, List.map_congr_left haddr]
    simp [Nat.mul_comm]
  have hsize : (front ++ netaddrs.flatten).length =
      8 + 16 * (field (front ++ netaddrs.flatten) 0).toNat := by
    rw [field_append (by omega), List.length_append, hfront, hflat, hcount]
  exact ⟨⟨hsize, fun h => absurd h (by decide)⟩, ⟨hsize, fun h => absurd h (by decide)⟩,
    ⟨hsize, fun h => absurd h (by decide)⟩⟩

theorem exact_sendPacket {front data : List UInt8} (hfront : front.length = 8)
    (hcount : (field front 6).toNat = data.length) : Exact true .sendPacket (front ++ data) where
  size := by rw [payloadSize, field_append (by omega), List.length_append, hfront, hcount]
  captured := fun h => absurd h (by decide)

theorem exact_pcapData {packet : List UInt8} (hsize : (field packet 0).toNat = packet.length)
    (hmin : 2 ≤ packet.length) : Exact false .pcapData packet :=
  ⟨hsize.symm, fun _ _ => hmin⟩

end Payloads

section RoundTrip

/-- {Header, payload, canary}. -/
def exactTotal (bytes : List UInt8) : UInt16 := 8 + UInt16.ofNat bytes.length + 4

theorem exactTotal_toNat {bytes : List UInt8} (hmax : 8 + bytes.length + 4 ≤ 65535) :
    (exactTotal bytes).toNat = 8 + bytes.length + 4 := by
  have hsum : exactTotal bytes = UInt16.ofNat (8 + bytes.length + 4) := by
    rw [UInt16.ofNat_add, UInt16.ofNat_add]
    rfl
  rw [hsum, UInt16.toNat_ofNat', Nat.mod_eq_of_lt (by omega)]

theorem exactTotal_min {bytes : List UInt8} (hmax : 8 + bytes.length + 4 ≤ 65535) :
    12 ≤ exactTotal bytes := by
  rw [UInt16.le_iff_toNat_le, exactTotal_toNat hmax]
  change 12 ≤ _
  omega

structure Holds (buffer : Buffer) (request : Bool) (type : MessageType) (fragmentId : UInt16)
    (code : ErrorCode) (bytes : List UInt8) : Prop where
  code_field : u16At buffer 2 = codeCreate request type
  id_field : u16At buffer 4 = fragmentId
  error_field : u16At buffer 6 = errorValue code
  payload_bytes : ∀ i < bytes.length, payload buffer i = bytes.getD i 0

structure Finalized (buffer : Buffer) (request : Bool) (type : MessageType) (fragmentId : UInt16)
    (code : ErrorCode) (bytes : List UInt8) : Prop
    extends Holds buffer request type fragmentId code bytes where
  length_field : getTotalLength buffer = exactTotal bytes
  canary_bytes : bytesAt buffer (8 + bytes.length) 4 = canary

variable {request : Bool} {type : MessageType} {fragmentId : UInt16} {code : ErrorCode}
  {bytes : List UInt8} {buffer buffer' : Buffer}

theorem Holds.congr (h : Holds buffer request type fragmentId code bytes)
    (hb : ∀ i, 2 ≤ i → i < 8 + bytes.length → buffer' i = buffer i) :
    Holds buffer' request type fragmentId code bytes where
  code_field := (u16At_congr (hb 2 (by omega) (by omega)) (hb 3 (by omega) (by omega))).trans
    h.code_field
  id_field := (u16At_congr (hb 4 (by omega) (by omega)) (hb 5 (by omega) (by omega))).trans
    h.id_field
  error_field := (u16At_congr (hb 6 (by omega) (by omega)) (hb 7 (by omega) (by omega))).trans
    h.error_field
  payload_bytes := fun i hi => (hb (8 + i) (by omega) (by omega)).trans (h.payload_bytes i hi)

/-- What the accessors say about a message, finalized or not. -/
theorem Holds.accessors (h : Holds buffer request type fragmentId code bytes)
    (hcode : code ≠ .enumerationLimit) :
    isRequest buffer = request ∧ getType buffer = some type ∧
      getFragmentId buffer = fragmentId ∧ getErrorCode buffer = some code := by
  refine ⟨?_, ?_, h.id_field, ?_⟩
  · rw [isRequest, h.code_field, codeIsRequest_create]
  · rw [getType, h.code_field, codeToType_create]
  · rw [getErrorCode, h.error_field, errorCodes_value hcode]

theorem Holds.computeTotalLength (h : Holds buffer request type fragmentId code bytes)
    (hx : Exact request type bytes) (htype : type ≠ .noop) :
    Codec.computeTotalLength buffer = some (exactTotal bytes) := by
  have htype' : getType buffer = some type := by rw [getType, h.code_field, codeToType_create]
  have hreq : isRequest buffer = request := by rw [isRequest, h.code_field, codeIsRequest_create]
  rw [Codec.computeTotalLength, htype', hreq, Option.bind_some,
    payloadLength_exact hx htype h.payload_bytes, Option.map_some]
  rfl

def build (old : Buffer) (request : Bool) (type : MessageType) (fragmentId : UInt16)
    (code : ErrorCode) (bytes : List UInt8) : Buffer :=
  fill (setErrorCode (setFragmentId (setCode old request type) fragmentId) code) bytes

theorem build_holds (old : Buffer) (fragmentId : UInt16) (code : ErrorCode) :
    Holds (build old request type fragmentId code bytes) request type fragmentId code bytes := by
  have hhead : ∀ offset, offset + 2 ≤ 8 →
      u16At (build old request type fragmentId code bytes) offset =
      u16At (setErrorCode (setFragmentId (setCode old request type) fragmentId) code) offset :=
    fun offset ho => u16At_congr (store_lt _ (by omega)) (store_lt _ (by omega))
  have hpass : ∀ (b : Buffer) (v : UInt16) (at' offset : ℕ), offset + 2 ≤ at' →
      u16At (setU16 b at' v) offset = u16At b offset := fun b v at' offset ho =>
    u16At_congr (setU16_of_ne v (Or.inl (by omega))) (setU16_of_ne v (Or.inl (by omega)))
  refine ⟨?_, ?_, ?_, fun i hi => ?_⟩
  · rw [hhead 2 (by omega), setErrorCode, hpass _ _ 6 2 (by omega), setFragmentId,
      hpass _ _ 4 2 (by omega), setCode, setU16_self]
  · rw [hhead 4 (by omega), setErrorCode, hpass _ _ 6 4 (by omega), setFragmentId, setU16_self]
  · rw [hhead 6 (by omega), setErrorCode, setU16_self]
  · rw [payload, build, fill, store_ge (by omega) (by omega) 0, Nat.add_sub_cancel_left]

/-- `finalize` adds the length and the canary and changes nothing else. -/
theorem Holds.finalize (h : Holds buffer request type fragmentId code bytes)
    (hx : Exact request type bytes) (htype : type ≠ .noop) (hmax : 8 + bytes.length + 4 ≤ 65535) :
    ∃ sent, Codec.finalize buffer = some sent ∧
      Finalized sent request type fragmentId code bytes := by
  have hat : (exactTotal bytes).toNat - 4 = 8 + bytes.length := by
    rw [exactTotal_toNat hmax, Nat.add_sub_cancel]
  have hfin : Codec.finalize buffer =
      some (store (setU16 buffer 0 (exactTotal bytes)) (8 + bytes.length) canary) := by
    rw [Codec.finalize, h.computeTotalLength hx htype, Option.bind_some,
      if_pos (exactTotal_min hmax), hat]
  refine ⟨_, hfin, h.congr ?_, ?_, bytesAt_store _ _ canary⟩
  · intro i hi hi'
    rw [store_lt _ hi', setU16_of_ne _ (Or.inr (by omega))]
  · rw [getTotalLength, u16At_congr (store_lt _ (by omega)) (store_lt _ (by omega)), setU16_self]

theorem Finalized.congr (h : Finalized buffer request type fragmentId code bytes)
    (hb : ∀ i < 8 + bytes.length + 4, buffer' i = buffer i) :
    Finalized buffer' request type fragmentId code bytes where
  toHolds := h.toHolds.congr fun i _ hi => hb i (by omega)
  length_field := (u16At_congr (hb 0 (by omega)) (hb 1 (by omega))).trans h.length_field
  canary_bytes := (bytesAt_congr fun i _ hi => hb i (by omega)).trans h.canary_bytes

theorem copy_apply {other : Buffer} {n i : ℕ} (hi : i < n) : copy other buffer n i = buffer i := by
  rw [copy, store_ge (Nat.zero_le i) (by simpa [bytesAt] using hi) 0]
  simp [bytesAt, hi]

theorem Finalized.validate (h : Finalized buffer request type fragmentId code bytes)
    (hx : Exact request type bytes) (htype : type ≠ .noop) (hmax : 8 + bytes.length + 4 ≤ 65535) :
    Codec.validate buffer = some true := by
  have hat : (exactTotal bytes).toNat - 4 = 8 + bytes.length := by
    rw [exactTotal_toNat hmax, Nat.add_sub_cancel]
  rw [Codec.validate, h.toHolds.computeTotalLength hx htype, Option.map_some, hat,
    h.canary_bytes]
  simp [exactTotal_min hmax]

theorem Finalized.message (h : Finalized buffer request type fragmentId code bytes)
    (hmax : 8 + bytes.length + 4 ≤ 65535) :
    ∃ m : Message 12 65535, m.bytes = messageAt buffer ∧ m.bytes.length = 8 + bytes.length + 4 := by
  have hlength : lengthField buffer = 8 + bytes.length + 4 := by
    rw [← u16At_zero, ← exactTotal_toNat hmax]
    exact congrArg UInt16.toNat h.length_field
  have hbytes : (messageAt buffer).length = 8 + bytes.length + 4 := by
    rw [messageAt_length, hlength]
  refine ⟨⟨messageAt buffer, ?_, ?_, ?_⟩, rfl, hbytes⟩
  · rw [messageAt_lengthField buffer (by omega), messageAt_length]
  · rw [hbytes]
    change 12 ≤ _
    omega
  · rw [hbytes]
    exact hmax

theorem Finalized.received (h : Finalized buffer request type fragmentId code bytes)
    (hmax : 8 + bytes.length + 4 ≤ 65535) (hm : messageAt buffer' = messageAt buffer) :
    Finalized buffer' request type fragmentId code bytes := by
  have hlength : lengthField buffer = 8 + bytes.length + 4 := by
    rw [← u16At_zero, ← exactTotal_toNat hmax]
    exact congrArg UInt16.toNat h.length_field
  have hlength' : lengthField buffer' = 8 + bytes.length + 4 := by
    rw [← messageAt_length, hm, messageAt_length, hlength]
  refine h.congr fun i hi => ?_
  rw [← messageAt_getD buffer' (by omega) 0, hm, messageAt_getD buffer (by omega) 0]

/-- Every message survives the trip: its sender sets the header, fills in the payload and
finalizes it, and the receiver finds all of it in the first `total_length` bytes, whatever its
buffer held before. -/
theorem codec_round_trip (old other : Buffer) (request : Bool) (type : MessageType)
    (fragmentId : UInt16) (code : ErrorCode) (bytes : List UInt8) (htype : type ≠ .noop)
    (hcode : code ≠ .enumerationLimit) (hx : Exact request type bytes)
    (hmax : 8 + bytes.length + 4 ≤ 65535) :
    ∃ sent, finalize (build old request type fragmentId code bytes) = some sent ∧
      let received := copy other sent (getTotalLength sent).toNat
      validate received = some true ∧
      (getTotalLength received).toNat = 8 + bytes.length + 4 ∧
      computeTotalLength received = some (getTotalLength received) ∧
      isRequest received = request ∧ getType received = some type ∧
      getFragmentId received = fragmentId ∧ getErrorCode received = some code ∧
      bytesAt received 8 bytes.length = bytes := by
  obtain ⟨sent, hsent, hfin⟩ :=
    (build_holds old fragmentId code).finalize hx htype hmax
  have hlength : (getTotalLength sent).toNat = 8 + bytes.length + 4 := by
    rw [hfin.length_field, exactTotal_toNat hmax]
  have hrec : Finalized (copy other sent (getTotalLength sent).toNat) request type fragmentId
      code bytes := hfin.congr fun i hi => copy_apply (by omega)
  obtain ⟨hreq, htype', hid, herr⟩ := hrec.toHolds.accessors hcode
  refine ⟨sent, hsent, hrec.validate hx htype hmax, ?_, ?_, hreq, htype', hid, herr, ?_⟩
  · rw [hrec.length_field, exactTotal_toNat hmax]
  · rw [hrec.toHolds.computeTotalLength hx htype, hrec.length_field]
  · refine List.ext_getElem (by simp [bytesAt]) fun i hi hi' => ?_
    simpa [bytesAt, payload, hi'] using hrec.payload_bytes i hi'

/-- A two-byte packet string, into a buffer full of ones. -/
theorem codec_round_trip_data : ∃ sent, finalize (build (fun _ => 0) true .sendPacket 7 .none
      [1, 0, 1, 0, 2, 0, 2, 0, 104, 105]) = some sent ∧
    let received := copy (fun _ => 255) sent (getTotalLength sent).toNat
    validate received = some true ∧ (getTotalLength received).toNat = 22 ∧
      bytesAt received 8 10 = [1, 0, 1, 0, 2, 0, 2, 0, 104, 105] := by
  obtain ⟨sent, hsent, hvalid, hlength, -, -, -, -, -, hbytes⟩ :=
    codec_round_trip (fun _ => 0) (fun _ => 255) true .sendPacket 7 .none
      [1, 0, 1, 0, 2, 0, 2, 0, 104, 105] (by decide) (by decide) ⟨by decide, by decide⟩ (by decide)
  exact ⟨sent, hsent, hvalid, hlength, hbytes⟩

end RoundTrip

end Mixnet.Codec
