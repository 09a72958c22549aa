import Mixnet.Handshakes

/-! The length of a message, computed from its type and from counts in its payload, in 16 bits:
what `finalize` makes of a payload that is too long, and what the two `check_header` see of a frame
when the computed length is not that of the frame. -/
namespace Mixnet.MessageLength
open Codec

section Finalize

def exactPayload (request : Bool) (type : MessageType) (payload : Buffer) : ℕ :=
  match type, request with
  | .setupCtrl, true => 1
  | .setupCtrl, false => 4
  | .setupPcap, true => 16
  | .topology, true => 16 + 2 * (u16At payload 2).toNat
  | .startMixnetServer, false => 16
  | .startMixnetClients, _ => 8 + 16 * (u16At payload 0).toNat
  | .resolveMixnetConns, true => 8 + 16 * (u16At payload 0).toNat
  | .changeLinkState, true => 4
  | .pcapData, false => (u16At payload 0).toNat
  | .pcapSubscription, true => 1
  | .sendPacket, true => 8 + (u16At payload 6).toNat
  | _, _ => 0

def exactLength (request : Bool) (type : MessageType) (payload : Buffer) : ℕ :=
  8 + exactPayload request type payload + 4

variable {buffer : Buffer} {request : Bool} {type : MessageType}

theorem payloadLength_eq (htype : type ≠ .noop) (payload : Buffer) :
    payloadLength request type payload =
      some (UInt16.ofNat (exactPayload request type payload)) := by
  cases type with
  | noop => exact absurd rfl htype
  | topology =>
    cases request with
    | false => rfl
    | true => exact congrArg some (u16_sum 16 2 _)
  | startMixnetClients => cases request <;> exact congrArg some (u16_sum 8 16 _)
  | resolveMixnetConns =>
    cases request with
    | false => rfl
    | true => exact congrArg some (u16_sum 8 16 _)
  | pcapData =>
    cases request with
    | false => exact congrArg some UInt16.ofNat_toNat.symm
    | true => rfl
  | sendPacket =>
    cases request with
    | false => rfl
    | true =>
      have hsum := u16_sum 8 1 (u16At payload 6)
      rw [Nat.one_mul] at hsum
      exact congrArg some hsum
  | _ => cases request <;> rfl

theorem computeTotalLength_eq (h : getType buffer = some type) (htype : type ≠ .noop) :
    computeTotalLength buffer =
      some (UInt16.ofNat (exactLength (isRequest buffer) type (payload buffer))) := by
  rw [computeTotalLength, h, Option.bind_some, payloadLength_eq htype, Option.map_some,
    exactLength, UInt16.ofNat_add, UInt16.ofNat_add]
  rfl

theorem computeTotalLength_noop (h : getType buffer = some .noop) :
    computeTotalLength buffer = none := by
  rw [computeTotalLength, h]
  rfl

theorem finalize_eq {length : UInt16} (h : computeTotalLength buffer = some length) :
    (finalize buffer).map getTotalLength = if 12 ≤ length then some length else none := by
  rw [finalize, h, Option.bind_some]
  split_ifs with hmin
  · have h12 : 12 ≤ length.toNat := UInt16.le_iff_toNat_le.mp hmin
    rw [Option.map_some, getTotalLength, u16At_congr (store_lt _ (by omega))
      (store_lt _ (by omega)), setU16_self]
  · rfl

theorem setCode_fields (buffer : Buffer) (request : Bool) (type : MessageType) :
    isRequest (setCode buffer request type) = request ∧
      getType (setCode buffer request type) = some type := by
  have hcode : u16At (setCode buffer request type) 2 = codeCreate request type := setU16_self ..
  exact ⟨by rw [isRequest, hcode, codeIsRequest_create], by rw [getType, hcode, codeToType_create]⟩

theorem finalize_stores (h : getType buffer = some type) (htype : type ≠ .noop) {length : ℕ}
    (hlength : exactLength (isRequest buffer) type (payload buffer) = length) :
    (∀ sent, finalize buffer = some sent → (getTotalLength sent).toNat = length) ↔
      (12 ≤ length % 65536 → length % 65536 = length) := by
  have heq := finalize_eq (computeTotalLength_eq h htype)
  rw [hlength] at heq
  have hnat : (UInt16.ofNat length).toNat = length % 65536 := UInt16.toNat_ofNat'
  have h12 : 12 ≤ UInt16.ofNat length ↔ 12 ≤ length % 65536 := by
    rw [UInt16.le_iff_toNat_le, hnat]
    rfl
  simp only [h12] at heq
  constructor
  · intro hstores hmin
    rw [if_pos hmin] at heq
    obtain ⟨sent, hsent, htotal⟩ := Option.map_eq_some_iff.mp heq
    calc length % 65536 = (getTotalLength sent).toNat := by rw [htotal, hnat]
      _ = length := hstores sent hsent
  · intro hfits sent hsent
    rw [hsent, Option.map_some] at heq
    split_ifs at heq with hmin
    rw [Option.some.inj heq, hnat, hfits hmin]

/-- `finalize` trips an assertion or stores the exact length exactly if the length fits in 16 bits,
or what 16 bits hold of it falls short of a header and a canary. -/
theorem finalize_exact_iff (buffer : Buffer) (request : Bool) (type : MessageType) :
    let m := setCode buffer request type
    let length := exactLength request type (payload m)
    (∀ sent, finalize m = some sent → (getTotalLength sent).toNat = length) ↔
      length ≤ 65535 ∨ length % 65536 < 12 := by
  intro m length
  obtain ⟨hreq, htype⟩ := setCode_fields buffer request type
  by_cases hnoop : type = .noop
  · subst hnoop
    refine iff_of_true (fun sent hsent => ?_) (Or.inl ?_)
    · rw [finalize, computeTotalLength_noop htype] at hsent
      cases hsent
    · cases request <;> exact (by decide : 8 + 0 + 4 ≤ 65535)
  · rw [finalize_stores htype hnoop (by rw [hreq])]
    omega

/-- The counts that `finalize` catches or gets right, type by type. -/
theorem length_caught_iff (request : Bool) (type : MessageType) (payload : Buffer) :
    exactLength request type payload ≤ 65535 ∨ exactLength request type payload % 65536 < 12 ↔
      match type, request with
      | .topology, true =>
        (u16At payload 2).toNat < 32760 ∨
          65522 ≤ (u16At payload 2).toNat ∧ (u16At payload 2).toNat < 65528
      | .startMixnetClients, _ | .resolveMixnetConns, true =>
        (u16At payload 0).toNat < 4096 ∨ (u16At payload 0).toNat % 4096 = 4095
      | .sendPacket, true => (u16At payload 6).toNat < 65528
      | _, _ => True := by
  have h0 := (u16At payload 0).toNat_lt
  have h2 := (u16At payload 2).toNat_lt
  have h6 := (u16At payload 6).toNat_lt
  cases type <;> cases request <;> simp only [exactLength, exactPayload, iff_true] <;> omega

/-- A START_MIXNET_CLIENTS request for 4096 neighbours: of 65556 bytes 20 are left. -/
theorem finalize_drops : ∃ buffer sent : Buffer,
    finalize (setCode buffer true .startMixnetClients) = some sent ∧
      (getTotalLength sent).toNat = 20 ∧
      exactLength true .startMixnetClients
        (payload (setCode buffer true .startMixnetClients)) = 65556 := by
  refine ⟨setU16 (fun _ => 0) 8 4096, _, rfl, ?_, ?_⟩
  · decide
  · decide

end Finalize

section Frame

/-- A frame as `recv_generic` delivers it. -/
abbrev Frame := Message 12 65535

/-- `check_header` of the fragment on the bytes of a message; no result where an accessor's
assertion fails. -/
def fragmentCheckHeader (buffer : Buffer) (checkId checkType : Bool) (fid : UInt16)
    (type : MessageType) : Option ErrorCode :=
  (Codec.validate buffer).bind fun valid =>
    if !valid then some .malformedMessage
    else if !isRequest buffer then some .badMessageCode
    else if checkId && getFragmentId buffer ≠ fid then some .badFragmentId
    else (getType buffer).bind fun t =>
      if checkType && t ≠ type then some .badMessageCode
      else (getErrorCode buffer).map fun ec =>
        if ec ≠ .none then .fragmentException else .none

structure Check where
  orchestrator : Bool
  checkId : Bool
  checkType : Bool
  fid : UInt16
  type : MessageType

def Check.run (c : Check) (buffer : Buffer) : Option ErrorCode :=
  if c.orchestrator then Orchestrator.checkHeaderAt buffer c.checkId c.fid c.type
  else fragmentCheckHeader buffer c.checkId c.checkType c.fid c.type

/-- What is asked of the checks of a frame: they end, whatever the buffer held before it has no part
in them, and a frame is accepted only at the length that it has, with its canary inside. -/
structure Checked (m : Frame) : Prop where
  total : ∀ b, messageAt b = m.bytes → ∀ c : Check, ∃ code, c.run b = some code
  same : ∀ b b', messageAt b = m.bytes → messageAt b' = m.bytes → ∀ c : Check, c.run b = c.run b'
  length : ∀ b, messageAt b = m.bytes → ∀ c : Check, c.run b = some .none →
    ∃ length, computeTotalLength b = some length ∧ length.toNat = m.bytes.length

def alone (m : Frame) : Buffer := fun i => m.bytes.getD i 0

/-- The length that the type and the counts of a frame stand for, in 16 bits. -/
def countedLength (m : Frame) (type : MessageType) : ℕ :=
  exactLength (isRequest (alone m)) type (payload (alone m)) % 65536

/-- No byte of the frame contradicts a canary that ends a message of this length. -/
def CanaryFits (m : Frame) (length : ℕ) : Prop :=
  ∀ k < 4, length - 4 + k < m.bytes.length →
    m.bytes.getD (length - 4 + k) 0 = canary.getD k 0

def Sound (m : Frame) : Prop :=
  ∃ type, getType (alone m) = some type ∧ type ≠ .noop ∧
    (12 ≤ countedLength m type → CanaryFits m (countedLength m type) →
      countedLength m type ≤ m.bytes.length ∧
      ∃ ec, getErrorCode (alone m) = some ec ∧
        (ec = .none → countedLength m type = m.bytes.length))

variable {m : Frame} {b b' : Buffer} {length : UInt16}

theorem agree (h : messageAt b = m.bytes) {i : ℕ} (hi : i < m.bytes.length) : b i = alone m i := by
  have hlt : i < lengthField b := by rwa [← messageAt_length, h]
  rw [alone, ← h, messageAt_getD b hlt]

theorem alone_beyond {i : ℕ} (h : m.bytes.length ≤ i) : alone m i = 0 := by
  simp [alone, List.getD_eq_getElem?_getD, h]

theorem messageAt_of_agree (h : ∀ i < m.bytes.length, b i = alone m i) : messageAt b = m.bytes := by
  have hmin : 12 ≤ m.bytes.length := m.min_le
  have hlen : lengthField b = m.bytes.length := by
    rw [← m.length_field, lengthField, h 0 (by omega), h 1 (by omega)]
    rfl
  refine List.ext_getElem (by rw [messageAt_length, hlen]) fun i hi hi' => ?_
  have hget : (messageAt b)[i] = b i := by simp [messageAt, bytesAt]
  rw [hget, h i hi', alone, List.getD_eq_getElem?_getD, List.getElem?_eq_getElem hi',
    Option.getD_some]

theorem messageAt_alone (m : Frame) : messageAt (alone m) = m.bytes :=
  messageAt_of_agree fun _ _ => rfl

theorem header_congr (h : ∀ i, 2 ≤ i → i < 8 → b i = b' i) :
    isRequest b = isRequest b' ∧ getType b = getType b' ∧ getFragmentId b = getFragmentId b' ∧
      getErrorCode b = getErrorCode b' := by
  have hcode : u16At b 2 = u16At b' 2 := u16At_congr (h 2 (by omega) (by omega)) (h 3 (by omega)
    (by omega))
  have hid : u16At b 4 = u16At b' 4 := u16At_congr (h 4 (by omega) (by omega)) (h 5 (by omega)
    (by omega))
  have herr : u16At b 6 = u16At b' 6 := u16At_congr (h 6 (by omega) (by omega)) (h 7 (by omega)
    (by omega))
  simp only [isRequest, getType, getFragmentId, getErrorCode, hcode, hid, herr, and_self]

theorem header_frame (h : messageAt b = m.bytes) :
    getType b = getType (alone m) ∧ getErrorCode b = getErrorCode (alone m) := by
  have hmin : 12 ≤ m.bytes.length := m.min_le
  obtain ⟨-, htype, -, hec⟩ := @header_congr b (alone m) fun i _ hi => agree h (by omega)
  exact ⟨htype, hec⟩

/-- The counts of a message are in its first twelve bytes, but for one. -/
theorem computeTotalLength_congr (h : ∀ i, 2 ≤ i → i < 12 → b i = b' i)
    (hsend : isRequest b = true → getType b = some .sendPacket → b 14 = b' 14 ∧ b 15 = b' 15) :
    computeTotalLength b = computeTotalLength b' := by
  obtain ⟨hreq, htype, -, -⟩ := header_congr fun i hi hi' => h i hi (by omega)
  have h8 : u16At (payload b) 0 = u16At (payload b') 0 :=
    u16At_congr (h 8 (by omega) (by omega)) (h 9 (by omega) (by omega))
  have h10 : u16At (payload b) 2 = u16At (payload b') 2 :=
    u16At_congr (h 10 (by omega) (by omega)) (h 11 (by omega) (by omega))
  cases ht : getType b with
  | none => rw [computeTotalLength, computeTotalLength, ← htype, ht]; rfl
  | some type =>
    have hpayload : payloadLength (isRequest b) type (payload b) =
        payloadLength (isRequest b) type (payload b') := by
      cases type with
      | sendPacket =>
        cases hr : isRequest b with
        | false => rfl
        | true =>
          obtain ⟨h14, h15⟩ := hsend hr ht
          have hcount : u16At (payload b) 6 = u16At (payload b') 6 := u16At_congr h14 h15
          simp only [payloadLength, sendPacketLength, hcount]
      | _ => simp only [payloadLength, topologyLength, netaddrsLength, h8, h10]
    rw [computeTotalLength, computeTotalLength, ← htype, ht, Option.bind_some, Option.bind_some,
      ← hreq, hpayload]

theorem canary_iff (b : Buffer) (offset : ℕ) :
    bytesAt b offset 4 = canary ↔ ∀ k < 4, b (offset + k) = canary.getD k 0 := by
  constructor
  · intro h k hk
    have hget : (bytesAt b offset 4).getD k 0 = b (offset + k) := by
      simp [bytesAt, List.getD_eq_getElem?_getD, hk]
    rw [← hget, h]
  · intro h
    simp only [bytesAt, List.range_succ, List.range_zero, List.nil_append, List.map_append,
      List.map_cons, List.map_nil, h 0 (by omega), h 1 (by omega), h 2 (by omega), h 3 (by omega)]
    rfl

def HasCanary (b : Buffer) (length : ℕ) : Prop :=
  12 ≤ length ∧ ∀ k < 4, b (length - 4 + k) = canary.getD k 0

theorem validate_iff (h : computeTotalLength b = some length) :
    ∃ valid, Codec.validate b = some valid ∧ (valid = true ↔ HasCanary b length.toNat) := by
  refine ⟨_, by rw [Codec.validate, h, Option.map_some], ?_⟩
  rw [Bool.and_eq_true, decide_eq_true_eq, decide_eq_true_eq, canary_iff, UInt16.le_iff_toNat_le]
  rfl

section Run
variable (c : Check)

theorem Check.run_none (h : computeTotalLength b = none) : c.run b = none := by
  have hvalid : Codec.validate b = none := by rw [Codec.validate, h, Option.map_none]
  rw [Check.run, Orchestrator.checkHeaderAt, fragmentCheckHeader, hvalid]
  exact ite_self none

theorem Check.run_invalid (h : Codec.validate b = some false) :
    c.run b = some .malformedMessage := by
  rw [Check.run, Orchestrator.checkHeaderAt, fragmentCheckHeader, h]
  exact ite_self _

theorem Check.run_congr (hvalid : Codec.validate b = Codec.validate b')
    (h : ∀ i, 2 ≤ i → i < 8 → b i = b' i) : c.run b = c.run b' := by
  obtain ⟨hreq, htype, hid, hec⟩ := header_congr h
  rw [Check.run, Check.run, Orchestrator.checkHeaderAt, Orchestrator.checkHeaderAt,
    fragmentCheckHeader, fragmentCheckHeader, hvalid, hreq, htype, hid, hec]

theorem Check.run_total {type : MessageType} {ec : ErrorCode} (htype : getType b = some type)
    (hec : getErrorCode b = some ec) (hvalid : Codec.validate b = some true) :
    ∃ code, c.run b = some code := by
  rw [Check.run, Orchestrator.checkHeaderAt, fragmentCheckHeader, hvalid, htype, hec]
  simp only [Option.bind_some, Option.map_some]
  split_ifs <;> exact ⟨_, rfl⟩

theorem reports_none (h : (getErrorCode b).map (fun ec =>
    if ec ≠ .none then ErrorCode.fragmentException else .none) = some .none) :
    getErrorCode b = some .none := by
  obtain ⟨ec, hec, h⟩ := Option.map_eq_some_iff.mp h
  split_ifs at h with hnone
  rw [hec, not_not.mp hnone]

theorem Check.run_accepts (h : c.run b = some .none) :
    Codec.validate b = some true ∧ getErrorCode b = some .none := by
  rw [Check.run] at h
  split_ifs at h with horchestrator
  · obtain ⟨valid, hvalid, h⟩ := Option.bind_eq_some_iff.mp h
    split_ifs at h with hcanary hid
    · cases h
    · cases h
    · obtain ⟨type, htype, h⟩ := Option.bind_eq_some_iff.mp h
      split_ifs at h with hcode
      · cases h
      · exact ⟨by simpa [hvalid] using hcanary, reports_none h⟩
  · obtain ⟨valid, hvalid, h⟩ := Option.bind_eq_some_iff.mp h
    split_ifs at h with hcanary hreq hid
    · cases h
    · cases h
    · cases h
    · obtain ⟨type, htype, h⟩ := Option.bind_eq_some_iff.mp h
      split_ifs at h with hcode
      · cases h
      · exact ⟨by simpa [hvalid] using hcanary, reports_none h⟩

theorem run_noop {type : MessageType} (htype : getType b = some type) (hnoop : type ≠ .noop)
    (hvalid : Codec.validate b = some true) :
    Check.run ⟨true, false, false, 0, .noop⟩ b = some .badMessageCode := by
  simp [Check.run, Orchestrator.checkHeaderAt, hvalid, htype, hnoop]

theorem run_error {type : MessageType} (htype : getType b = some type)
    (hvalid : Codec.validate b = some true) :
    Check.run ⟨!isRequest b, false, false, 0, type⟩ b = (getErrorCode b).map fun ec =>
      if ec ≠ .none then .fragmentException else .none := by
  cases hreq : isRequest b with
  | false => simp [Check.run, Orchestrator.checkHeaderAt, hvalid, htype, hreq]
  | true => simp [Check.run, fragmentCheckHeader, hvalid, htype, hreq]

end Run

section Counted
variable {type : MessageType}

theorem countedLength_eq (htype : getType (alone m) = some type) (hnoop : type ≠ .noop) :
    ∃ length, computeTotalLength (alone m) = some length ∧
      length.toNat = countedLength m type :=
  ⟨_, computeTotalLength_eq htype hnoop, UInt16.toNat_ofNat'⟩

theorem countedLength_send (hreq : isRequest (alone m) = true) (hshort : m.bytes.length < 16) :
    countedLength m .sendPacket = 20 + (alone m 14).toNat := by
  have hzero : alone m 15 = 0 := alone_beyond (by omega)
  have h14 := (alone m 14).toNat_lt
  have hcount : (u16At (payload (alone m)) 6).toNat = (alone m 14).toNat := by
    rw [u16At_toNat]
    change (alone m 14).toNat + 256 * (alone m 15).toNat = _
    rw [hzero]
    rfl
  rw [countedLength, hreq, exactLength, exactPayload, hcount]
  omega

theorem computed_frame (h : messageAt b = m.bytes) (hlong : isRequest (alone m) = true →
      getType (alone m) = some .sendPacket → 16 ≤ m.bytes.length ∨
        (b 14 = alone m 14 ∧ b 15 = alone m 15)) :
    computeTotalLength b = computeTotalLength (alone m) := by
  have hmin : 12 ≤ m.bytes.length := m.min_le
  refine (computeTotalLength_congr (fun i _ hi => (agree h (by omega)).symm) ?_).symm
  intro hreq htype
  cases hlong hreq htype with
  | inl hle => exact ⟨(agree h (by omega)).symm, (agree h (by omega)).symm⟩
  | inr hsame => exact ⟨hsame.1.symm, hsame.2.symm⟩

def withCanary (m : Frame) (length : ℕ) : Buffer := store (alone m) (length - 4) canary

theorem withCanary_before {length i : ℕ} (h : i < length - 4) :
    withCanary m length i = alone m i := store_lt _ h

theorem withCanary_at {length k : ℕ} (hk : k < 4) :
    withCanary m length (length - 4 + k) = canary.getD k 0 := by
  have hlt : length - 4 + k - (length - 4) < canary.length := by
    rw [Nat.add_sub_cancel_left]
    exact hk
  rw [withCanary, store_ge (Nat.le_add_right _ k) hlt 0, Nat.add_sub_cancel_left]

theorem withCanary_frame {length : ℕ} (hfits : CanaryFits m length)
    (hlt : m.bytes.length < length) : messageAt (withCanary m length) = m.bytes := by
  refine messageAt_of_agree fun i hi => ?_
  by_cases hbefore : i < length - 4
  · exact withCanary_before hbefore
  · obtain ⟨k, rfl⟩ := Nat.exists_eq_add_of_le (Nat.not_lt.mp hbefore)
    rw [withCanary_at (by omega), ← hfits k (by omega) hi, alone]

theorem not_hasCanary_alone {length : ℕ} (hlt : m.bytes.length < length) :
    ¬ HasCanary (alone m) length := by
  intro h
  have hlast := h.2 3 (by decide)
  have hmin : 12 ≤ m.bytes.length := m.min_le
  rw [alone_beyond (by omega)] at hlast
  exact absurd hlast (by decide)

theorem computed_withCanary (htype : getType (alone m) = some type) (hnoop : type ≠ .noop)
    (hfits : CanaryFits m (countedLength m type))
    (hlt : m.bytes.length < countedLength m type) :
    computeTotalLength (withCanary m (countedLength m type)) = computeTotalLength (alone m) := by
  refine computed_frame (withCanary_frame hfits hlt) fun hreq hsend => ?_
  by_cases hle : 16 ≤ m.bytes.length
  · exact Or.inl hle
  · obtain rfl := Option.some.inj (htype.symm.trans hsend)
    have hcount := countedLength_send hreq (by omega)
    exact Or.inr ⟨withCanary_before (by omega), withCanary_before (by omega)⟩

/-- A canary that no byte of the frame contradicts, and that is not inside it, may or may not be
what the buffer held before. -/
theorem Checked.inside (h : Checked m) (htype : getType (alone m) = some type)
    (hnoop : type ≠ .noop) (hmin : 12 ≤ countedLength m type)
    (hfits : CanaryFits m (countedLength m type)) : countedLength m type ≤ m.bytes.length := by
  by_contra hlt
  have hlt := Nat.not_le.mp hlt
  obtain ⟨length, hlength, heq⟩ := countedLength_eq htype hnoop
  have hframe := withCanary_frame hfits hlt
  have hcomputed := (computed_withCanary htype hnoop hfits hlt).trans hlength
  have hvalid : Codec.validate (withCanary m (countedLength m type)) = some true := by
    obtain ⟨valid, hvalid, hiff⟩ := validate_iff hcomputed
    rw [hvalid, hiff.mpr]
    rw [heq]
    exact ⟨hmin, fun k hk => withCanary_at hk⟩
  have hinvalid : Codec.validate (alone m) = some false := by
    obtain ⟨valid, hvalid, hiff⟩ := validate_iff hlength
    rw [heq] at hiff
    rw [hvalid, Bool.eq_false_iff.mpr fun hv => not_hasCanary_alone hlt (hiff.mp hv)]
  have hsame := h.same _ (alone m) hframe (messageAt_alone m) ⟨true, false, false, 0, .noop⟩
  rw [run_noop ((header_frame hframe).1.trans htype) hnoop hvalid, Check.run_invalid _ hinvalid]
    at hsame
  cases hsame

theorem Checked.sound (h : Checked m) : Sound m := by
  have hself := messageAt_alone m
  have htotal : computeTotalLength (alone m) ≠ none := by
    intro hnone
    obtain ⟨code, hcode⟩ := h.total (alone m) hself ⟨true, false, false, 0, .noop⟩
    rw [Check.run_none _ hnone] at hcode
    cases hcode
  cases htype : getType (alone m) with
  | none =>
    refine absurd ?_ htotal
    rw [computeTotalLength, htype, Option.bind_none]
  | some type =>
    have hnoop : type ≠ .noop := by
      rintro rfl
      exact htotal (computeTotalLength_noop htype)
    refine ⟨type, htype, hnoop, fun hmin hfits => ?_⟩
    have hinside := h.inside htype hnoop hmin hfits
    obtain ⟨length, hlength, heq⟩ := countedLength_eq htype hnoop
    obtain ⟨valid, hvalid, hiff⟩ := validate_iff hlength
    have hcanary : HasCanary (alone m) length.toNat := by
      rw [heq]
      exact ⟨hmin, fun k hk => hfits k hk (by omega)⟩
    rw [hiff.mpr hcanary] at hvalid
    have hrun := run_error htype hvalid
    obtain ⟨code, hcode⟩ := h.total (alone m) hself _
    rw [hrun] at hcode
    obtain ⟨ec, hec, -⟩ := Option.map_eq_some_iff.mp hcode
    refine ⟨hinside, ec, hec, ?_⟩
    rintro rfl
    rw [hec] at hrun
    obtain ⟨length', hlength', hlen⟩ := h.length (alone m) hself _ hrun
    obtain rfl := Option.some.inj (hlength.symm.trans hlength')
    rw [← heq, hlen]

theorem Sound.long (h : Sound m) (hreq : isRequest (alone m) = true)
    (htype : getType (alone m) = some .sendPacket) : 16 ≤ m.bytes.length := by
  obtain ⟨type, htype', -, hsound⟩ := h
  obtain rfl := Option.some.inj (htype.symm.trans htype')
  by_contra hlt
  rw [countedLength_send hreq (by omega)] at hsound
  have hinside := (hsound (by omega) fun k hk hin => absurd hin (by omega)).1
  omega

theorem Sound.validate (h : Sound m) (hb : messageAt b = m.bytes) :
    ∃ type length valid, getType (alone m) = some type ∧ computeTotalLength b = some length ∧
      length.toNat = countedLength m type ∧ Codec.validate b = some valid ∧
      (valid = true ↔ 12 ≤ countedLength m type ∧ CanaryFits m (countedLength m type)) := by
  have hcomputed := computed_frame hb fun hreq htype => Or.inl (h.long hreq htype)
  obtain ⟨type, htype, hnoop, hsound⟩ := h
  obtain ⟨length, hlength, heq⟩ := countedLength_eq htype hnoop
  rw [hlength] at hcomputed
  obtain ⟨valid, hvalid, hiff⟩ := validate_iff hcomputed
  refine ⟨type, length, valid, htype, hcomputed, heq, hvalid, hiff.trans ?_⟩
  rw [HasCanary, heq]
  refine and_congr_right fun hmin => ⟨fun hcanary k hk hin => ?_, fun hfits k hk => ?_⟩
  · rw [← hcanary k hk, agree hb hin, alone]
  · have hinside := (hsound hmin hfits).1
    rw [agree hb (by omega), alone, hfits k hk (by omega)]

theorem Sound.checked (h : Sound m) : Checked m where
  total := by
    intro b hb c
    obtain ⟨type, -, valid, htype, -, -, hvalid, hiff⟩ := h.validate hb
    cases valid with
    | false => exact ⟨_, c.run_invalid hvalid⟩
    | true =>
      obtain ⟨type', htype', -, hsound⟩ := h
      obtain rfl := Option.some.inj (htype.symm.trans htype')
      obtain ⟨hlength, hfits⟩ := hiff.mp rfl
      obtain ⟨-, ec, hec, -⟩ := hsound hlength hfits
      obtain ⟨hgettype, hgetec⟩ := header_frame hb
      exact c.run_total (hgettype.trans htype) (hgetec.trans hec) hvalid
  same := by
    intro b b' hb hb' c
    obtain ⟨type, -, valid, htype, -, -, hvalid, hiff⟩ := h.validate hb
    obtain ⟨type', -, valid', htype', -, -, hvalid', hiff'⟩ := h.validate hb'
    obtain rfl := Option.some.inj (htype.symm.trans htype')
    have hmin : 12 ≤ m.bytes.length := m.min_le
    refine c.run_congr ?_ fun i _ hi => (agree hb (by omega)).trans (agree hb' (by omega)).symm
    rw [hvalid, hvalid', Bool.eq_iff_iff.mpr (hiff.trans hiff'.symm)]
  length := by
    intro b hb c haccepts
    obtain ⟨hvalid, hec⟩ := Check.run_accepts c haccepts
    obtain ⟨type, length, valid, htype, hlength, heq, hvalid', hiff⟩ := h.validate hb
    obtain ⟨type', htype', -, hsound⟩ := h
    obtain rfl := Option.some.inj (htype.symm.trans htype')
    obtain rfl := Option.some.inj (hvalid.symm.trans hvalid')
    obtain ⟨hcounted, hfits⟩ := hiff.mp rfl
    obtain ⟨-, ec, hec', hnone⟩ := hsound hcounted hfits
    have hgetec := (header_frame hb).2
    rw [hec, hec'] at hgetec
    exact ⟨length, hlength, heq.trans (hnone (Option.some.inj hgetec).symm)⟩

/-- The checks of a frame end, with the same result whatever the buffer held before, and accept it
only at its own length, exactly if it meets the condition. -/
theorem frame_checked_iff (m : Frame) : Checked m ↔ Sound m := ⟨Checked.sound, Sound.checked⟩

/-- Twelve bytes that claim to be a START_MIXNET_CLIENTS response: the canary is looked for behind
them, and the response is accepted if it is what the buffer held there before. -/
theorem stale_canary_accepted : ∃ (m : Frame) (b b' : Buffer),
    messageAt b = m.bytes ∧ messageAt b' = m.bytes ∧
      Check.run ⟨true, true, true, 0, .startMixnetClients⟩ b = some .none ∧
      Check.run ⟨true, true, true, 0, .startMixnetClients⟩ b' = some .malformedMessage ∧
      m.bytes.length = 12 := by
  let m : Frame := ⟨[12, 0, 5, 128, 0, 0, 0, 0, 0, 0, 0, 0], by decide, by decide, by decide⟩
  refine ⟨m, store (alone m) 16 canary, alone m, ?_, ?_, ?_, ?_, ?_⟩
  · decide
  · decide
  · decide
  · decide
  · decide

end Counted

section Finalized
variable {request : Bool} {type : MessageType} {fragmentId : UInt16} {code : ErrorCode}
  {bytes : List UInt8} {buffer : Buffer}

theorem fragmentCheckHeader_finalized (h : Finalized buffer request type fragmentId code bytes)
    (hx : Exact request type bytes) (htype : type ≠ .noop) (hcode : code ≠ .enumerationLimit)
    (hmax : 8 + bytes.length + 4 ≤ 65535) (checkId checkType : Bool) (fid : UInt16)
    (expected : MessageType) :
    fragmentCheckHeader buffer checkId checkType fid expected =
      some (Orchestrator.checkRequest
        { isRequest := request, type := type, fragmentId := fragmentId, errorCode := code }
        checkId checkType fid expected) := by
  obtain ⟨hreq, hgettype, hid, hec⟩ := h.toHolds.accessors hcode
  simp only [fragmentCheckHeader, h.validate hx htype hmax, hreq, hgettype, hid, hec,
    Option.bind_some, Option.map_some, Orchestrator.checkRequest]
  split_ifs <;> rfl

theorem checked_of_finalized (h : Finalized buffer request type fragmentId code bytes)
    (hx : Exact request type bytes) (htype : type ≠ .noop) (hcode : code ≠ .enumerationLimit)
    (hmax : 8 + bytes.length + 4 ≤ 65535) (hm : messageAt buffer = m.bytes) : Checked m where
  total := by
    intro b hb c
    have hfin := h.received hmax (hb.trans hm.symm)
    obtain ⟨-, hgettype, -, hec⟩ := hfin.toHolds.accessors hcode
    exact c.run_total hgettype hec (hfin.validate hx htype hmax)
  same := by
    intro b b' hb hb' c
    have hfin := h.received hmax (hb.trans hm.symm)
    have hfin' := h.received hmax (hb'.trans hm.symm)
    have hmin : 12 ≤ m.bytes.length := m.min_le
    refine c.run_congr ?_ fun i _ hi => (agree hb (by omega)).trans (agree hb' (by omega)).symm
    rw [hfin.validate hx htype hmax, hfin'.validate hx htype hmax]
  length := by
    intro b hb c _
    have hfin := h.received hmax (hb.trans hm.symm)
    refine ⟨_, hfin.toHolds.computeTotalLength hx htype, ?_⟩
    rw [← hfin.length_field, getTotalLength, u16At_zero, ← messageAt_length, hb]

end Finalized

end Frame

end Mixnet.MessageLength
