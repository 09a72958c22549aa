import Mixnet.Gather
import Mixnet.Runs

/-! The calls of a testcase to one fragment. A call sends a request and waits for a response; the
fragment answers its requests one after the other. Nothing in a response says which request it
answers. -/
namespace Mixnet.Requests
open Codec (MessageType)

inductive RequestType where
  | changeLinkState | pcapSubscription | sendPacket
deriving DecidableEq, Repr

def RequestType.type : RequestType → MessageType
  | .changeLinkState => .changeLinkState
  | .pcapSubscription => .pcapSubscription
  | .sendPacket => .sendPacket

/-- A finished `fragment_request_response`: what `recv_with_timeout` has returned in it, what it
has returned itself, and which bytes of the response stream it has consumed. -/
structure Return where
  call : ℕ
  received : ErrorCode
  code : ErrorCode
  first : ℕ
  last : ℕ
deriving DecidableEq

/-- The ctrl connection to a fragment in RUN_TESTCASE, and `msg_ctrl_` of the orchestrator. Calls
are numbered; `answered` are those whose response the fragment has written, `consumed` counts the
bytes that the orchestrator has read. -/
structure Link where
  buffer : Buffer := fun _ => 0
  calls : ℕ := 0
  current : Option (ℕ × RequestType) := none
  requests : List (ℕ × RequestType) := []
  unread : List UInt8 := []
  answered : List ℕ := []
  consumed : ℕ := 0
  returns : List Return := []

inductive Event where
  | call (type : RequestType) (payload : List UInt8)
  | process (ec : ErrorCode)
  | recv (flags : Option Bool) (env : List (RecvResult × ℕ))

def responseBytes (fid : UInt16) (type : RequestType) (ec : ErrorCode) : Option (List UInt8) :=
  (Codec.finalize (Codec.build (fun _ => 0) false type.type fid ec [])).map messageAt

def recvWithTimeout (timeoutMs : UInt64) (buffer : Buffer) (flags : Option Bool)
    (env : List (RecvResult × ℕ)) (unread : List UInt8) : Option RecvReturn :=
  recvGeneric .ctrlConnectionBroken 12 65535
    ⟨{ mode := .rxTxTimeout, timeoutMs := timeoutMs }, flags, buffer, env⟩ unread

variable (fid : UInt16) (timeoutMs : UInt64)

/-- A call up to its wait, one turn of the fragment's loop (`ec` is what the task reports), and the
end of a call's wait. -/
def Link.step (s : Link) : Event → Option Link
  | .call type payload =>
    if s.current = none then
      (Codec.finalize (Codec.build s.buffer true type.type fid .none payload)).map fun buffer =>
        { s with
          buffer := buffer
          calls := s.calls + 1
          current := some (s.calls, type)
          requests := s.requests ++ [(s.calls, type)] }
    else none
  | .process ec =>
    match s.requests with
    | [] => none
    | (call, type) :: requests => (responseBytes fid type ec).map fun bytes =>
      { s with
        requests := requests
        unread := s.unread ++ bytes
        answered := s.answered ++ [call] }
  | .recv flags env =>
    match s.current with
    | none => none
    | some (call, type) =>
      (recvWithTimeout timeoutMs s.buffer flags env s.unread).bind fun r =>
        let last := s.consumed + (s.unread.length - r.unread.length)
        (if r.code ≠ .none then some r.code
          else Orchestrator.checkHeaderAt r.buffer true fid type.type).map fun code =>
          { s with
            buffer := r.buffer
            current := none
            unread := r.unread
            consumed := last
            returns := s.returns ++ [⟨call, r.code, code, s.consumed, last⟩] }

/-- The fragment has processed the request of the call, and what the call has consumed is the
response to it: responses are 12 bytes each. -/
def Link.Own (s : Link) (ret : Return) : Prop :=
  ∃ k, s.answered[k]? = some ret.call ∧ ret.first = 12 * k ∧ ret.last = 12 * k + 12

instance (s : Link) (ret : Return) : Decidable (s.Own ret) :=
  decidable_of_iff (∃ k < s.answered.length, s.answered[k]? = some ret.call ∧
      ret.first = 12 * k ∧ ret.last = 12 * k + 12) <| by
    constructor
    · rintro ⟨k, -, h⟩
      exact ⟨k, h⟩
    · rintro ⟨k, h⟩
      exact ⟨k, (List.getElem?_eq_some_iff.mp h.1).1, h⟩

variable {fid timeoutMs}

theorem responseBytes_message {type : RequestType} {ec : ErrorCode} {bytes : List UInt8}
    (h : responseBytes fid type ec = some bytes) :
    ∃ m : Message 12 65535, bytes = m.bytes ∧ m.bytes.length = 12 := by
  have hx : Codec.Exact false type.type [] := by cases type <;> exact ⟨rfl, by decide⟩
  have ht : type.type ≠ .noop := by cases type <;> decide
  obtain ⟨sent, hsent, hfin⟩ := (Codec.build_holds (fun _ => 0) fid
    ec).finalize hx ht (by decide)
  rw [responseBytes, hsent] at h
  obtain ⟨m, hm, hlength⟩ := hfin.message (by decide)
  exact ⟨m, (Option.some.inj h).symm.trans hm.symm, by simpa using hlength⟩

section Steps
variable {s s' : Link}

theorem Link.step_call {type : RequestType} {payload : List UInt8}
    (hs : s.step fid timeoutMs (.call type payload) = some s') :
    s.current = none ∧ ∃ buffer, s' = { s with
      buffer := buffer
      calls := s.calls + 1
      current := some (s.calls, type)
      requests := s.requests ++ [(s.calls, type)] } := by
  simp only [Link.step] at hs
  split_ifs at hs with hcur
  obtain ⟨buffer, -, rfl⟩ := Option.map_eq_some_iff.mp hs
  exact ⟨hcur, buffer, rfl⟩

theorem Link.step_process {ec : ErrorCode} (hs : s.step fid timeoutMs (.process ec) = some s') :
    ∃ (call : ℕ) (type : RequestType) (requests : List (ℕ × RequestType)) (m : Message 12 65535),
      s.requests = (call, type) :: requests ∧ m.bytes.length = 12 ∧ s' = { s with
        requests := requests
        unread := s.unread ++ m.bytes
        answered := s.answered ++ [call] } := by
  simp only [Link.step] at hs
  cases hreq : s.requests with
  | nil => rw [hreq] at hs; exact absurd hs (by simp)
  | cons request requests =>
    obtain ⟨call, type⟩ := request
    rw [hreq] at hs
    obtain ⟨bytes, hbytes, rfl⟩ := Option.map_eq_some_iff.mp hs
    obtain ⟨m, rfl, hm⟩ := responseBytes_message hbytes
    exact ⟨call, type, requests, m, rfl, hm, rfl⟩

theorem Link.step_recv {flags : Option Bool} {env : List (RecvResult × ℕ)}
    (hs : s.step fid timeoutMs (.recv flags env) = some s') :
    ∃ (call : ℕ) (type : RequestType) (r : RecvReturn) (code : ErrorCode),
      s.current = some (call, type) ∧
      recvWithTimeout timeoutMs s.buffer flags env s.unread = some r ∧
      (code = .none → r.code = .none) ∧ s' = { s with
        buffer := r.buffer
        current := none
        unread := r.unread
        consumed := s.consumed + (s.unread.length - r.unread.length)
        returns := s.returns ++ [⟨call, r.code, code, s.consumed,
          s.consumed + (s.unread.length - r.unread.length)⟩] } := by
  simp only [Link.step] at hs
  cases hcur : s.current with
  | none => rw [hcur] at hs; exact absurd hs (by simp)
  | some current =>
    obtain ⟨call, type⟩ := current
    rw [hcur] at hs
    obtain ⟨r, hr, hs⟩ := Option.bind_eq_some_iff.mp hs
    obtain ⟨code, hcode, rfl⟩ := Option.map_eq_some_iff.mp hs
    refine ⟨call, type, r, code, rfl, hr, fun hnone => ?_, rfl⟩
    by_contra hne
    rw [if_pos hne] at hcode
    exact hne ((Option.some.inj hcode).trans hnone)

theorem split_concat {returns pre post : List Return} {ret r : Return}
    (h : returns ++ [ret] = pre ++ r :: post) :
    pre = returns ∧ r = ret ∨ ∃ rest, returns = pre ++ r :: rest := by
  obtain rfl | ⟨rest, last, rfl⟩ := List.eq_nil_or_concat post
  · obtain ⟨rfl, hlast⟩ := List.append_inj' h rfl
    exact Or.inl ⟨rfl, (List.singleton_inj.mp hlast).symm⟩
  · have h' : returns ++ [ret] = (pre ++ r :: rest) ++ [last] := by simpa using h
    exact Or.inr ⟨rest, (List.append_inj' h' rfl).1⟩

end Steps

/-- The calls so far have all received a response: number `k` has consumed the response number
`k`, and at most one request or response is on its way, that of the call that waits. -/
structure Link.Sync (s : Link) : Prop where
  consumed : s.consumed = 12 * s.returns.length
  answered : s.answered = List.range s.answered.length
  waiting : match s.current with
    | none => s.calls = s.returns.length ∧ s.answered.length = s.calls ∧ s.requests = [] ∧
        s.unread = []
    | some (call, type) => call = s.returns.length ∧ s.calls = call + 1 ∧
        (s.requests = [(call, type)] ∧ s.unread = [] ∧ s.answered.length = call ∨
          s.requests = [] ∧ s.answered.length = call + 1 ∧
            ∃ m : Message 12 65535, s.unread = m.bytes ∧ m.bytes.length = 12)

theorem range_append {l : List ℕ} {n : ℕ} (h : l = List.range l.length) (hn : l.length = n) :
    l ++ [n] = List.range (l ++ [n]).length := by
  rw [List.length_append, List.length_singleton, List.range_succ, ← h, hn]

theorem Link.Sync.call {s s' : Link} {type : RequestType} {payload : List UInt8} (h : s.Sync)
    (hs : s.step fid timeoutMs (.call type payload) = some s') : s'.Sync := by
  obtain ⟨hcur, buffer, rfl⟩ := Link.step_call hs
  have hw := h.waiting
  rw [hcur] at hw
  obtain ⟨hcalls, hlength, hreq, hunread⟩ := hw
  exact ⟨h.consumed, h.answered, hcalls, rfl, Or.inl ⟨by rw [hreq]; rfl, hunread, hlength⟩⟩

theorem Link.Sync.process {s s' : Link} {ec : ErrorCode} (h : s.Sync)
    (hs : s.step fid timeoutMs (.process ec) = some s') : s'.Sync := by
  obtain ⟨call, type, requests, m, hreq, hm, rfl⟩ := Link.step_process hs
  have hw := h.waiting
  cases hcur : s.current with
  | none =>
    rw [hcur, hreq] at hw
    exact absurd hw.2.2.1 (by simp)
  | some current =>
    obtain ⟨call', type'⟩ := current
    rw [hcur, hreq] at hw
    obtain ⟨hcall, hcalls, ⟨hone, hunread, hlength⟩ | ⟨hnone, -⟩⟩ := hw
    · obtain ⟨hhead, hrest⟩ := List.cons.inj hone
      obtain ⟨rfl, rfl⟩ := Prod.mk.inj hhead
      refine ⟨h.consumed, range_append h.answered hlength, ?_⟩
      dsimp only
      exact ⟨hcall, hcalls, Or.inr ⟨hrest, by simp [hlength], m, by simp [hunread], hm⟩⟩
    · exact absurd hnone (by simp)

theorem recvWithTimeout_empty {buffer : Buffer} {flags : Option Bool}
    {env : List (RecvResult × ℕ)} {r : RecvReturn}
    (h : recvWithTimeout timeoutMs buffer flags env [] = some r) : r.code ≠ .none :=
  recvGeneric_empty (by decide) h

theorem recvWithTimeout_message {buffer : Buffer} {flags : Option Bool}
    {env : List (RecvResult × ℕ)} {r : RecvReturn} {m : Message 12 65535}
    (h : recvWithTimeout timeoutMs buffer flags env m.bytes = some r) (hr : r.code = .none) :
    messageAt r.buffer = m.bytes ∧ r.unread = [] := by
  rw [recvWithTimeout, ← List.append_nil m.bytes] at h
  exact recvGeneric_delivers (by decide) (by decide) h hr

/-- In lockstep, a call that receives a response receives its own, and stays in lockstep. -/
theorem Link.Sync.recv {s s' : Link} {flags : Option Bool} {env : List (RecvResult × ℕ)}
    (h : s.Sync) (hs : s.step fid timeoutMs (.recv flags env) = some s') :
    ∃ ret, s'.returns = s.returns ++ [ret] ∧ s'.answered = s.answered ∧
      (ret.code = .none → ret.received = .none) ∧
      (ret.received = .none → s'.Sync ∧ s'.Own ret) := by
  obtain ⟨call, type, r, code, hcur, hr, hcode, rfl⟩ := Link.step_recv hs
  have hw := h.waiting
  rw [hcur] at hw
  refine ⟨_, rfl, rfl, hcode, fun hnone => ?_⟩
  obtain ⟨hcall, hcalls, ⟨-, hunread, -⟩ | ⟨hreq, hlength, m, hunread, hm⟩⟩ := hw
  · rw [hunread] at hr
    exact absurd hnone (recvWithTimeout_empty hr)
  · rw [hunread] at hr
    obtain ⟨-, hleft⟩ := recvWithTimeout_message hr hnone
    have hlast : s.consumed + (s.unread.length - r.unread.length) =
        12 * s.returns.length + 12 := by
      rw [h.consumed, hunread, hleft, hm]
      rfl
    refine ⟨⟨?_, h.answered, ?_⟩, s.returns.length, ?_, h.consumed, hlast⟩
    · change s.consumed + (s.unread.length - r.unread.length) = _
      rw [hlast, List.length_append, List.length_singleton]
      omega
    · exact ⟨by rw [List.length_append, hcalls, hcall]; rfl, by rw [hlength, hcalls], hreq,
        hleft⟩
    · change s.answered[s.returns.length]? = some call
      rw [h.answered, List.getElem?_range (by omega), hcall]

/-- What holds of every state: lockstep until a call has failed to receive a response, and every
call that returns NONE before that has received its own. -/
structure Link.Inv (s : Link) : Prop where
  sync : (∀ ret ∈ s.returns, ret.received = .none) → s.Sync
  own : ∀ pre ret post, s.returns = pre ++ ret :: post → (∀ r ∈ pre, r.received = .none) →
    ret.code = .none → s.Own ret

theorem Link.Own.grow {s s' : Link} {ret : Return} (h : s.Own ret)
    (hgrow : s.answered <+: s'.answered) : s'.Own ret := by
  obtain ⟨k, hk, hfirst, hlast⟩ := h
  obtain ⟨more, hmore⟩ := hgrow
  have hlt := (List.getElem?_eq_some_iff.mp hk).1
  exact ⟨k, by rw [← hmore, List.getElem?_append_left hlt, hk], hfirst, hlast⟩

theorem Link.Inv.keep {s s' : Link} (h : s.Inv) (hret : s'.returns = s.returns)
    (hgrow : s.answered <+: s'.answered) (hsync : s.Sync → s'.Sync) : s'.Inv where
  sync := fun hall => hsync (h.sync (hret ▸ hall))
  own := fun pre ret post hsplit hpre hcode =>
    (h.own pre ret post (hret ▸ hsplit) hpre hcode).grow hgrow

theorem Link.Inv.step {s s' : Link} {e : Event} (h : s.Inv)
    (hs : s.step fid timeoutMs e = some s') : s'.Inv := by
  cases e with
  | call type payload =>
    have hsync : s.Sync → s'.Sync := fun hsync => hsync.call hs
    obtain ⟨-, buffer, rfl⟩ := Link.step_call hs
    exact h.keep rfl List.prefix_rfl hsync
  | process ec =>
    have hsync : s.Sync → s'.Sync := fun hsync => hsync.process hs
    obtain ⟨call, type, requests, m, -, -, rfl⟩ := Link.step_process hs
    exact h.keep rfl (List.prefix_append _ _) hsync
  | recv flags env =>
    obtain ⟨call, type, r, code, -, -, hcode, hs'⟩ := Link.step_recv hs
    generalize hret : (⟨call, r.code, code, s.consumed,
      s.consumed + (s.unread.length - r.unread.length)⟩ : Return) = ret at hs'
    have hnone : ret.code = .none → ret.received = .none := by rw [← hret]; exact hcode
    have hreturns : s'.returns = s.returns ++ [ret] := by rw [hs']
    have hanswered : s'.answered = s.answered := by rw [hs']
    have hnew : (∀ r ∈ s.returns, r.received = .none) → ret.received = .none →
        s'.Sync ∧ s'.Own ret := by
      intro hall
      obtain ⟨ret', hret', -, -, hown⟩ := (h.sync hall).recv hs
      obtain rfl := List.singleton_inj.mp (List.append_cancel_left (hreturns.symm.trans hret'))
      exact hown
    refine ⟨fun hall => ?_, fun pre r post hsplit hpre hcode => ?_⟩
    · rw [hreturns] at hall
      exact (hnew (fun r hr => hall r (List.mem_append_left _ hr)) (hall ret (by simp))).1
    · rw [hreturns] at hsplit
      obtain ⟨rfl, rfl⟩ | ⟨rest, hrest⟩ := split_concat hsplit
      · exact (hnew hpre (hnone hcode)).2
      · exact (h.own pre r rest hrest hpre hcode).grow (hanswered ▸ List.prefix_rfl)

section Late

def received (returns : List Return) : ℕ := returns.countP (·.received = .none)

def Link.Whole (s : Link) : Prop :=
  ∀ r ∈ s.returns, r.received ≠ .recvWaitTimeout ∧ r.received ≠ .ctrlConnectionBroken

/-- The responses stand on the stream in the order of the calls, and every call that has received
one has taken the oldest. -/
structure Link.Aligned (s : Link) : Prop where
  order : s.answered ++ s.requests.map Prod.fst = List.range s.calls
  idle : s.current = none → s.calls = s.returns.length
  waiting : ∀ call type, s.current = some (call, type) →
    call = s.returns.length ∧ s.calls = call + 1
  consumed : s.consumed = 12 * received s.returns
  unread : ∃ ms : List (Message 12 65535), s.unread = (ms.map (·.bytes)).flatten ∧
    (∀ m ∈ ms, m.bytes.length = 12) ∧ received s.returns + ms.length = s.answered.length
  taken : ∀ pre ret post, s.returns = pre ++ ret :: post → ret.call = pre.length ∧
    ret.first = 12 * received pre ∧ (ret.code = .none → ret.received = .none) ∧
    (ret.received = .none → ret.last = ret.first + 12)

theorem received_append (returns : List Return) (ret : Return) :
    received (returns ++ [ret]) = received returns + if ret.received = .none then 1 else 0 := by
  simp [received, List.countP_append, List.countP_singleton]

variable {s s' : Link}

theorem Link.Aligned.call {type : RequestType} {payload : List UInt8} (h : s.Aligned)
    (hs : s.step fid timeoutMs (.call type payload) = some s') : s'.Aligned := by
  obtain ⟨hcur, buffer, rfl⟩ := Link.step_call hs
  have hcalls := h.idle hcur
  exact
    { h with
      order := by
        rw [List.map_append, ← List.append_assoc, h.order]
        exact List.range_succ.symm
      idle := fun hnone => absurd hnone (by simp)
      waiting := fun call type' he => by
        obtain ⟨rfl, -⟩ := Prod.mk.inj (Option.some.inj he)
        exact ⟨hcalls, rfl⟩ }

theorem Link.Aligned.process {ec : ErrorCode} (h : s.Aligned)
    (hs : s.step fid timeoutMs (.process ec) = some s') : s'.Aligned := by
  obtain ⟨call, type, requests, m, hreq, hm, rfl⟩ := Link.step_process hs
  obtain ⟨ms, hunread, hlength, hcount⟩ := h.unread
  exact
    { h with
      order := by
        have horder := h.order
        rw [hreq, List.map_cons, List.append_cons] at horder
        exact horder
      unread := by
        refine ⟨ms ++ [m], by simp [hunread], fun m' hm' => ?_, ?_⟩
        · obtain hm' | hm' := List.mem_append.mp hm'
          · exact hlength m' hm'
          · rw [List.mem_singleton.mp hm', hm]
        · rw [List.length_append, List.length_append, ← hcount]
          rfl }

theorem Link.Aligned.taken_oldest (h : s.Aligned) {flags : Option Bool}
    {env : List (RecvResult × ℕ)} {r : RecvReturn}
    (hr : recvWithTimeout timeoutMs s.buffer flags env s.unread = some r)
    (hwhole : r.code ≠ .recvWaitTimeout ∧ r.code ≠ .ctrlConnectionBroken) :
    s.unread.length - r.unread.length = (if r.code = .none then 12 else 0) ∧
      ∃ ms : List (Message 12 65535), r.unread = (ms.map (·.bytes)).flatten ∧
        (∀ m ∈ ms, m.bytes.length = 12) ∧
        received s.returns + (if r.code = .none then 1 else 0) + ms.length = s.answered.length := by
  obtain ⟨ms, hunread, hlength, hcount⟩ := h.unread
  by_cases hnone : r.code = .none
  · simp only [if_pos hnone]
    have hstream : s.unread ++ [] = (ms.map (·.bytes)).flatten := by rw [List.append_nil, hunread]
    obtain ⟨m, rest, rfl, -, hrest⟩ :=
      recvGeneric_arrived (by decide) (by decide) hstream hr hnone
    rw [List.append_nil] at hrest
    refine ⟨?_, rest, hrest, fun m' hm' => hlength m' (List.mem_cons_of_mem _ hm'), ?_⟩
    · rw [hunread, hrest, List.map_cons, List.flatten_cons, List.length_append,
        hlength m List.mem_cons_self]
      omega
    · rw [← hcount, List.length_cons]
      omega
  · simp only [if_neg hnone]
    have hkept : r.unread = s.unread := by
      obtain hcode | hcode | hcode | hkept := recvGeneric_keeps (by decide) hr
      · exact absurd hcode hnone
      · exact absurd hcode hwhole.2
      · exact absurd hcode hwhole.1
      · exact hkept
    exact ⟨by rw [hkept, Nat.sub_self], ms, hkept.trans hunread, hlength, hcount⟩

theorem Link.Aligned.recv {flags : Option Bool} {env : List (RecvResult × ℕ)} (h : s.Aligned)
    (hs : s.step fid timeoutMs (.recv flags env) = some s') (hwhole : s'.Whole) : s'.Aligned := by
  obtain ⟨call, type, r, code, hcur, hr, hcode, hs'⟩ := Link.step_recv hs
  have hret : (⟨call, r.code, code, s.consumed,
      s.consumed + (s.unread.length - r.unread.length)⟩ : Return) ∈ s'.returns := by
    rw [hs']
    exact List.mem_append_right _ (List.mem_singleton_self _)
  obtain ⟨hlength, hunread⟩ := h.taken_oldest hr (hwhole _ hret)
  subst hs'
  obtain ⟨hcall, hcalls⟩ := h.waiting call type hcur
  exact
    { order := h.order
      idle := fun _ => by
        rw [List.length_append, ← hcall]
        exact hcalls
      waiting := fun _ _ he => absurd he (by simp)
      consumed := by
        dsimp only
        rw [received_append, hlength, h.consumed]
        by_cases hnone : r.code = .none <;> simp [hnone]
        omega
      unread := by
        rw [received_append]
        exact hunread
      taken := fun pre ret post hsplit => by
        obtain ⟨rfl, rfl⟩ | ⟨rest, hrest⟩ := split_concat hsplit
        · refine ⟨hcall, h.consumed, hcode, fun hnone => ?_⟩
          dsimp only at hnone ⊢
          rw [hlength, if_pos hnone]
        · exact h.taken pre ret rest hrest }

theorem Link.step_returns {e : Event} (hs : s.step fid timeoutMs e = some s') :
    s.returns <+: s'.returns := by
  cases e with
  | call type payload =>
    obtain ⟨-, buffer, rfl⟩ := Link.step_call hs
    exact List.prefix_rfl
  | process ec =>
    obtain ⟨call, type, requests, m, -, -, rfl⟩ := Link.step_process hs
    exact List.prefix_rfl
  | recv flags env =>
    obtain ⟨call, type, r, code, -, -, -, rfl⟩ := Link.step_recv hs
    exact List.prefix_append _ _

theorem Link.aligned_of_reach
    (h : Runs.Reach (Link.step fid timeoutMs) (fun _ _ => True) {} s) (hwhole : s.Whole) :
    s.Aligned := by
  have hstart : Link.Aligned {} :=
    ⟨rfl, fun _ => rfl, fun _ _ he => absurd he (by simp), rfl, ⟨[], rfl, by simp, rfl⟩,
      fun pre ret post hnil => absurd hnil (by simp)⟩
  refine h.invariant (P := fun s => s.Whole → s.Aligned) (fun _ => hstart)
    (fun s s' e hs _ hstep hwhole => ?_) hwhole
  have haligned := hs fun r hr => hwhole r ((Link.step_returns hstep).subset hr)
  cases e with
  | call type payload => exact haligned.call hstep
  | process ec => exact haligned.process hstep
  | recv flags env => exact haligned.recv hstep hwhole

/-- Where no call stops within a response, a call that returns NONE has consumed its own response
exactly when all calls before it have received one: after a call that has timed out, no later one
is answered. -/
theorem own_iff_received (h : Runs.Reach (Link.step fid timeoutMs) (fun _ _ => True) {} s)
    (hwhole : s.Whole) {pre post : List Return} {ret : Return}
    (hsplit : s.returns = pre ++ ret :: post) (hcode : ret.code = .none) :
    s.Own ret ↔ ∀ r ∈ pre, r.received = .none := by
  have haligned := Link.aligned_of_reach h hwhole
  obtain ⟨hcall, hfirst, hreceived, hlast⟩ := haligned.taken pre ret post hsplit
  have hall : received pre = pre.length ↔ ∀ r ∈ pre, r.received = .none := by
    rw [received, List.countP_eq_length]
    simp only [decide_eq_true_eq]
  rw [← hall]
  have hanswered : ∀ k < s.answered.length, s.answered[k]? = some k := fun k hk => by
    rw [← List.getElem?_append_left hk, haligned.order, List.getElem?_range]
    rw [← List.length_range (n := s.calls), ← haligned.order, List.length_append]
    omega
  constructor
  · rintro ⟨k, hk, hown, -⟩
    have hlt := (List.getElem?_eq_some_iff.mp hk).1
    obtain rfl : k = ret.call := Option.some.inj ((hanswered k hlt).symm.trans hk)
    omega
  · intro hcount
    have hlt : ret.call < s.answered.length := by
      obtain ⟨ms, -, -, hsum⟩ := haligned.unread
      have hmore : received s.returns = received pre + received (ret :: post) := by
        rw [hsplit, received, received, received, List.countP_append]
      have hone : 0 < received (ret :: post) :=
        List.countP_pos_iff.mpr ⟨ret, List.mem_cons_self, decide_eq_true (hreceived hcode)⟩
      omega
    refine ⟨ret.call, hanswered _ hlt, ?_, ?_⟩
    · rw [hfirst, hcount, hcall]
    · rw [hlast (hreceived hcode), hfirst, hcount, hcall]

end Late

/-- In every state that calls, the fragment and the delays of its responses can lead to: a call
that returns NONE, after calls that have all received a response, has been answered by the
fragment, and with the response that it has consumed. -/
theorem request_executed (fid : UInt16) (timeoutMs : UInt64) (s : Link)
    (h : Runs.Reach (Link.step fid timeoutMs) (fun _ _ => True) {} s) (pre : List Return)
    (ret : Return) (post : List Return) (hsplit : s.returns = pre ++ ret :: post)
    (hpre : ∀ r ∈ pre, r.received = .none) (hcode : ret.code = .none) : s.Own ret := by
  have hstart : Link.Inv {} := by
    refine ⟨fun _ => ⟨rfl, rfl, rfl, rfl, rfl, rfl⟩, fun pre ret post hnil => ?_⟩
    exact absurd hnil (by simp)
  have hinv : s.Inv := h.invariant hstart fun _ _ _ ht _ hs => ht.step hs
  exact hinv.own pre ret post hsplit hpre hcode

/-- A link change is answered with an error, and then a subscription is carried out. -/
theorem request_executed_subscribe : ∃ (s : Link) (ret : Return),
    s.returns = [⟨0, .none, .fragmentException, 0, 12⟩, ret] ∧ ret.call = 1 ∧ ret.code = .none ∧
      s.Own ret := by
  have hrun : ((Runs.run (Link.step 7 5000) [.call .changeLinkState [0, 0, 0],
      .process .fragmentException,
      .recv (some true) [(.bytes 2, 0), (.bytes 12, 0), (.bytes 12, 0)],
      .call .pcapSubscription [1], .process .none,
      .recv (some true) [(.bytes 2, 0), (.bytes 12, 0), (.bytes 12, 0)]] {}).any fun s =>
      decide (s.returns = [⟨0, .none, .fragmentException, 0, 12⟩, ⟨1, .none, .none, 12, 24⟩])) =
      true := by decide +kernel
  obtain ⟨s, hs, hret⟩ := (Option.any_eq_true _ _).mp hrun
  have hret := of_decide_eq_true hret
  exact ⟨s, _, hret, rfl, rfl, request_executed 7 5000 s
    (Runs.reach_of_run (fun _ _ _ => trivial) hs) [_] _ [] hret (by simp) rfl⟩

/-- A subscription that times out and is then revoked: the revocation returns NONE with the
response to the subscription, before the fragment has seen it. -/
theorem late_response_taken : ∃ (s : Link) (ret : Return),
    Runs.Reach (Link.step 7 5000) (fun _ _ => True) {} s ∧
    s.returns = [⟨0, .recvZeroPending, .recvZeroPending, 0, 0⟩, ret] ∧
    ret.code = .none ∧ ret.call = 1 ∧ s.answered = [0] ∧ ¬ s.Own ret := by
  have hrun : ((Runs.run (Link.step 7 5000) [.call .pcapSubscription [1],
      .recv (some true) [(.stalled, 5000)], .process .none, .call .pcapSubscription [0],
      .recv (some true) [(.bytes 2, 0), (.bytes 12, 0), (.bytes 12, 0)]] {}).any fun s =>
      decide (s.returns = [⟨0, .recvZeroPending, .recvZeroPending, 0, 0⟩,
        ⟨1, .none, .none, 0, 12⟩] ∧ s.answered = [0] ∧ ¬ s.Own ⟨1, .none, .none, 0, 12⟩)) =
      true := by decide +kernel
  obtain ⟨s, hs, hall⟩ := (Option.any_eq_true _ _).mp hrun
  obtain ⟨hret, hans, hown⟩ := of_decide_eq_true hall
  exact ⟨s, _, Runs.reach_of_run (fun _ _ _ => trivial) hs, hret, rfl, rfl, hans, hown⟩

end Mixnet.Requests
