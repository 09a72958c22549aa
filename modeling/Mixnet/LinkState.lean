import Mixnet.MessageFraming
import Mixnet.Runs

/-! Link states. The neighbour behind a port writes packets to a stream and is never told whether
the link is up; disabling the link drains the stream, and `node_recv` reads it only while the link
is enabled. -/
namespace Mixnet.LinkState

section RecvOnce

/-- A packet on the wire: `total_size` is its first field. -/
abbrev Packet := Message 12 4096

/-- What `recv` answers on a socket that does not fail: as many bytes as are there, up to those
asked for. -/
def answer (unread : List UInt8) (asked : ℕ) : RecvResult :=
  if unread = [] then .stalled else .bytes (min asked unread.length)

def once : Config := { mode := .rxTryOnce }

def onceCall (buffer : Buffer) (unread : List UInt8) : RecvCall :=
  let asked := lengthField fun i => unread.getD i 0
  ⟨once, some true, buffer,
    [(answer unread 2, 0), (answer unread asked, 0), (answer unread asked, 0)]⟩

def recvOnce (buffer : Buffer) (unread : List UInt8) : Option RecvReturn :=
  recvGeneric .mixnetConnectionBroken 12 4096 (onceCall buffer unread) unread

theorem recvOnce_eq (buffer : Buffer) (unread : List UInt8) : recvOnce buffer unread =
    (recvLoop once .mixnetConnectionBroken 12 4096 (onceCall buffer unread).env 0
      ⟨unread, buffer, 0, true, false, 2, 0⟩).map fun p => ⟨p.1, p.2.buffer, p.2.unread⟩ := rfl

theorem recvLoop_once {s s₁ : RecvState} {r : RecvResult} (hr : s.recv r = some s₁)
    (env : List (RecvResult × ℕ)) :
    recvLoop once .mixnetConnectionBroken 12 4096 ((r, 0) :: env) 0 s =
      match s₁.handle once .mixnetConnectionBroken 12 4096 r with
      | .error code => some (code, s₁)
      | .ok s₂ => recvLoop once .mixnetConnectionBroken 12 4096 env 0 s₂ := by
  rw [recvLoop, if_pos (by decide), hr]
  rfl

theorem answer_bytes {unread : List UInt8} {asked n : ℕ} (hn : min asked unread.length = n)
    (hpos : 0 < n) : answer unread asked = .bytes n := by
  have hne : unread ≠ [] := by
    rintro rfl
    simp at hn
    omega
  rw [answer, if_neg hne, hn]

theorem recvOnce_length (buffer : Buffer) (unread : List UInt8) {m : Packet} {rest : List UInt8}
    (h2 : 2 ≤ unread.length) (hm : unread <+: m.bytes ++ rest) (env : List (RecvResult × ℕ)) :
    recvLoop once .mixnetConnectionBroken 12 4096 ((answer unread 2, 0) :: env) 0
      ⟨unread, buffer, 0, true, false, 2, 0⟩ =
    recvLoop once .mixnetConnectionBroken 12 4096 env 0
      ⟨unread, store buffer 0 (unread.take 2), 0, true, false, m.bytes.length, m.bytes.length⟩ := by
  have hmin : 12 ≤ m.bytes.length := m.min_le
  have hmax : m.bytes.length ≤ 4096 := m.le_max
  obtain ⟨more, hmore⟩ := hm
  have htake : unread.take 2 = (m.bytes ++ rest).take 2 := by
    rw [← hmore, List.take_append_of_le_length h2]
  have hfield := decoded_length (m := m) rest buffer (by decide)
  rw [← htake] at hfield
  have hrecv : RecvState.recv ⟨unread, buffer, 0, true, false, 2, 0⟩ (.bytes 2) =
      some ⟨unread, store buffer 0 (unread.take 2), 0, true, false, 2, 0⟩ := by
    simp [RecvState.recv, h2]
  rw [answer_bytes (n := 2) (by omega) (by omega), recvLoop_once hrecv]
  simp only [RecvState.handle, hfield]
  simp [once, Config.block, Nat.not_lt.mpr hmin, Nat.not_lt.mpr hmax]

theorem handle_body {s : RecvState} {n : ℕ} (hlen : s.msgLength ≠ 0) :
    s.handle once .mixnetConnectionBroken 12 4096 (.bytes n) =
      if n = s.expectedSize then
        if s.recvStarted then .error .none
        else .ok { s with peek := false, recvStarted := true }
      else .error (if s.recvStarted then .mixnetConnectionBroken else .recvZeroPending) := by
  obtain ⟨unread, buffer, offset, peek, started, expected, msgLength⟩ := s
  cases started <;> simp [RecvState.handle, once, Config.tryOnce, hlen]

theorem recvOnce_complete (buffer : Buffer) (m : Packet) (tail : List UInt8) :
    ∃ r, recvOnce buffer (m.bytes ++ tail) = some r ∧ r.code = .none ∧
      messageAt r.buffer = m.bytes ∧ r.unread = tail := by
  have hmin : 12 ≤ m.bytes.length := m.min_le
  have hlong : m.bytes.length ≤ (m.bytes ++ tail).length := by simp
  have hasked : (lengthField fun i => (m.bytes ++ tail).getD i 0) = m.bytes.length := by
    rw [← m.length_field]
    simp only [lengthField, List.getD_eq_getElem?_getD]
    rw [List.getElem?_append_left (by omega), List.getElem?_append_left (by omega)]
  have hanswer : answer (m.bytes ++ tail) m.bytes.length = .bytes m.bytes.length :=
    answer_bytes (by omega) (by omega)
  have hrecv : ∀ (b : Buffer) (peek started : Bool),
      RecvState.recv ⟨m.bytes ++ tail, b, 0, peek, started, m.bytes.length, m.bytes.length⟩
        (.bytes m.bytes.length) =
      some ⟨if peek then m.bytes ++ tail else (m.bytes ++ tail).drop m.bytes.length,
        store b 0 ((m.bytes ++ tail).take m.bytes.length), 0, peek, started, m.bytes.length,
        m.bytes.length⟩ := fun b peek started => by
    rw [RecvState.recv, if_pos ⟨by omega, le_rfl, hlong⟩]
  have hne : m.bytes.length ≠ 0 := by omega
  have hcode : ∃ r, recvOnce buffer (m.bytes ++ tail) = some r ∧ r.code = .none := by
    rw [recvOnce_eq, onceCall]
    dsimp only
    rw [hasked, recvOnce_length buffer _ (by omega) List.prefix_rfl, hanswer,
      recvLoop_once (hrecv _ true false), handle_body hne, if_pos rfl, if_neg (by simp)]
    simp only [if_true]
    rw [recvLoop_once (hrecv _ false true), handle_body hne, if_pos rfl, if_pos rfl]
    exact ⟨_, rfl, rfl⟩
  obtain ⟨r, hr, hnone⟩ := hcode
  rw [recvOnce] at hr
  obtain ⟨hbytes, hunread⟩ := recvGeneric_delivers (by decide) (by decide) hr hnone
  exact ⟨r, hr, hnone, hbytes, hunread⟩

theorem recvOnce_partial (buffer : Buffer) {m : Packet} {unread rest : List UInt8}
    (hm : unread <+: m.bytes ++ rest) (hshort : unread.length < m.bytes.length) :
    ∃ r, recvOnce buffer unread = some r ∧ r.code = .recvZeroPending ∧ r.unread = unread := by
  have hmin : 12 ≤ m.bytes.length := m.min_le
  rw [recvOnce_eq, onceCall]
  dsimp only
  by_cases h2 : 2 ≤ unread.length
  · have hpos : 0 < unread.length := by omega
    have hasked : (lengthField fun i => unread.getD i 0) = m.bytes.length := by
      obtain ⟨more, hmore⟩ := hm
      rw [← m.length_field]
      simp only [lengthField, List.getD_eq_getElem?_getD]
      have hget : ∀ i, i < 2 → unread[i]? = m.bytes[i]? := fun i hi => by
        have hu : i < unread.length := by omega
        have hb : i < m.bytes.length := by omega
        have hi : (unread ++ more)[i]? = (m.bytes ++ rest)[i]? := by rw [hmore]
        rwa [List.getElem?_append_left hu, List.getElem?_append_left hb] at hi
      rw [hget 0 (by omega), hget 1 (by omega)]
    have hrecv : RecvState.recv ⟨unread, store buffer 0 (unread.take 2), 0, true, false,
        m.bytes.length, m.bytes.length⟩ (.bytes unread.length) = some ⟨unread,
        store (store buffer 0 (unread.take 2)) 0 (unread.take unread.length), 0, true, false,
        m.bytes.length, m.bytes.length⟩ := by
      rw [RecvState.recv, if_pos ⟨hpos, hshort.le, le_rfl⟩]
      rfl
    have hne : m.bytes.length ≠ 0 := by omega
    rw [hasked, recvOnce_length buffer unread h2 hm,
      answer_bytes (Nat.min_eq_right hshort.le) hpos, recvLoop_once hrecv, handle_body hne,
      if_neg hshort.ne]
    exact ⟨_, rfl, rfl, rfl⟩
  · by_cases h0 : unread = []
    · subst h0
      exact ⟨_, rfl, rfl, rfl⟩
    · have h1 : unread.length = 1 := by
        have hpos := List.length_pos_of_ne_nil h0
        omega
      have hrecv : RecvState.recv ⟨unread, buffer, 0, true, false, 2, 0⟩ (.bytes 1) =
          some ⟨unread, store buffer 0 (unread.take 1), 0, true, false, 2, 0⟩ := by
        rw [RecvState.recv, if_pos ⟨Nat.one_pos, Nat.le_succ 1, h1.ge⟩]
        rfl
      have hmin2 : min 2 unread.length = 1 := by omega
      rw [answer_bytes hmin2 Nat.one_pos, recvLoop_once hrecv]
      exact ⟨_, rfl, rfl, rfl⟩

end RecvOnce

section Port

/-- A packet that the neighbour has begun to write: whether the link was enabled at some time while
it was being written, and whether it was unread when the link was disabled. -/
structure Sent where
  packet : Packet
  seenEnabled : Bool
  unreadAtDisable : Bool

def Sent.Doomed (p : Sent) : Prop := p.seenEnabled = false ∨ p.unreadAtDisable = true

instance (p : Sent) : Decidable p.Doomed := inferInstanceAs (Decidable (_ ∨ _))

/-- A port of a node. `draining` says that `task_update_link_state` holds the mutex of the port,
`writing` is what the neighbour still has to write of its packet, `inFlight` what it has written and
has not arrived, `delivered` what `node_recv` has returned. `sent` lists the packets behind
`unread`, `inFlight` and `writing`, `returned` those behind `delivered`. -/
structure Port where
  linkState : Bool := true
  draining : Bool := false
  unread : List UInt8 := []
  inFlight : List UInt8 := []
  writing : List UInt8 := []
  delivered : List (List UInt8) := []
  sent : List Sent := []
  returned : List Sent := []

inductive Event where
  | nodeSend (packet : Packet) (n : ℕ)
  | write (n : ℕ)
  | arrive (n : ℕ)
  | updateLinkState (state : Bool)
  | drain
  | nodeRecv

def Port.meet (s : Port) : List Sent :=
  if s.writing = [] then s.sent
  else s.sent.dropLast ++ s.sent.getLast?.toList.map fun p => { p with seenEnabled := true }

/-- The neighbour writes a packet in pieces, which arrive in pieces, the fragment sets the link
state and drains the stream, one packet in a turn, and the node reads. -/
def Port.step (s : Port) : Event → Option Port
  | .nodeSend packet n =>
    if s.writing = [] ∧ 0 < n ∧ n ≤ packet.bytes.length then
      some { s with
        inFlight := s.inFlight ++ packet.bytes.take n
        writing := packet.bytes.drop n
        sent := s.sent ++ [⟨packet, s.linkState, false⟩] }
    else none
  | .write n =>
    if 0 < n ∧ n ≤ s.writing.length then
      some { s with inFlight := s.inFlight ++ s.writing.take n, writing := s.writing.drop n }
    else none
  | .arrive n =>
    if 0 < n ∧ n ≤ s.inFlight.length then
      some { s with unread := s.unread ++ s.inFlight.take n, inFlight := s.inFlight.drop n }
    else none
  | .updateLinkState state =>
    if s.draining then none
    else if state then some { s with linkState := true, sent := s.meet }
    else some { s with
      linkState := false
      draining := true
      sent := s.sent.map fun p => { p with unreadAtDisable := true } }
  | .drain =>
    if s.draining then
      (recvOnce (fun _ => 0) s.unread).map fun r =>
        if r.code = .none then { s with unread := r.unread, sent := s.sent.tail }
        else { s with draining := false }
    else none
  | .nodeRecv =>
    if s.draining then none
    else if s.linkState then
      (recvOnce (fun _ => 0) s.unread).map fun r =>
        if r.code = .none then
          { s with
            unread := r.unread
            delivered := s.delivered ++ [messageAt r.buffer]
            sent := s.sent.tail
            returned := s.returned ++ s.sent.head?.toList }
        else s
    else some s

def stream (sent : List Sent) : List UInt8 := (sent.map fun p => p.packet.bytes).flatten

@[simp] theorem stream_append (sent more : List Sent) :
    stream (sent ++ more) = stream sent ++ stream more := by
  simp [stream]

/-- What `_recv_once` does to a stream of packets, the last of which may still be written. -/
theorem recvOnce_spec (buffer : Buffer) {unread missing : List UInt8} {sent : List Sent}
    (h : unread ++ missing = stream sent) : ∃ r, recvOnce buffer unread = some r ∧
      (r.code = .none ∧ (∃ p rest, sent = p :: rest ∧ messageAt r.buffer = p.packet.bytes ∧
          r.unread ++ missing = stream rest) ∨
        r.code = .recvZeroPending) := by
  cases sent with
  | nil =>
    obtain rfl : unread = [] := (List.append_eq_nil_iff.mp h).1
    exact ⟨_, rfl, Or.inr rfl⟩
  | cons p rest =>
    have hcons : unread ++ missing = p.packet.bytes ++ stream rest := h
    by_cases hlong : p.packet.bytes.length ≤ unread.length
    · obtain ⟨tail, rfl⟩ := List.prefix_of_prefix_length_le ⟨stream rest, hcons.symm⟩
        ⟨missing, rfl⟩ hlong
      obtain ⟨r, hr, hnone, hbytes, hunread⟩ := recvOnce_complete buffer p.packet tail
      refine ⟨r, hr, Or.inl ⟨hnone, p, rest, rfl, hbytes, ?_⟩⟩
      rw [hunread]
      exact List.append_cancel_left ((List.append_assoc _ _ _).symm.trans hcons)
    · obtain ⟨r, hr, hpending, -⟩ :=
        recvOnce_partial buffer ⟨missing, hcons⟩ (Nat.not_le.mp hlong)
      exact ⟨r, hr, Or.inr hpending⟩

/-- Nothing is on the link except the beginning of a packet that the neighbour has begun to write
since the link was last disabled and is still writing. -/
def Port.Quiet (s : Port) : Prop :=
  s.sent.length ≤ 1 ∧ ∀ p ∈ s.sent, s.writing ≠ [] ∧ p.unreadAtDisable = false

def Port.Ready (s : Port) : Event → Prop
  | .updateLinkState true => s.linkState = false → s.Quiet
  | _ => True

instance (s : Port) : DecidablePred s.Ready
  | .updateLinkState true => inferInstanceAs (Decidable (_ → _ ∧ ∀ p ∈ s.sent, _ ∧ _))
  | .updateLinkState false | .nodeSend _ _ | .write _ | .arrive _ | .drain | .nodeRecv =>
    .isTrue trivial

structure Port.Framed (s : Port) : Prop where
  stream : s.unread ++ (s.inFlight ++ s.writing) = stream s.sent
  delivered : s.delivered = s.returned.map fun p => p.packet.bytes
  disabled : s.linkState = false → ∀ p ∈ s.sent, p.Doomed

structure Port.Kept (s : Port) : Prop where
  enabled : s.linkState = true → ∀ p ∈ s.sent, ¬ p.Doomed
  returned : ∀ p ∈ s.returned, ¬ p.Doomed

variable {s s' : Port} {e : Event}

theorem Port.meet_stream (s : Port) : LinkState.stream s.meet = LinkState.stream s.sent := by
  rw [Port.meet]
  split_ifs
  · rfl
  · cases hlast : s.sent.getLast? with
    | none => simp [List.getLast?_eq_none_iff.mp hlast, LinkState.stream]
    | some p =>
      obtain ⟨front, hfront⟩ := List.getLast?_eq_some_iff.mp hlast
      simp [hfront, LinkState.stream]

theorem Port.meet_enabled (h : ∀ p ∈ s.sent, ¬ p.Doomed) : ∀ p ∈ s.meet, ¬ p.Doomed := by
  rw [Port.meet]
  split_ifs
  · exact h
  · intro p hp
    rcases List.mem_append.mp hp with hp | hp
    · exact h p (List.dropLast_subset _ hp)
    · obtain ⟨q, hq, rfl⟩ := List.mem_map.mp hp
      have hlast : q ∈ s.sent := List.mem_of_getLast? (Option.mem_toList.mp hq)
      have hfresh : ¬ q.unreadAtDisable = true := fun hd => h q hlast (Or.inr hd)
      simp [Sent.Doomed, hfresh]

theorem Port.meet_quiet (h : s.Quiet) : ∀ p ∈ s.meet, ¬ p.Doomed := by
  obtain ⟨hlen, hall⟩ := h
  match hsent : s.sent with
  | [] => simp [Port.meet, hsent]
  | [p] =>
    obtain ⟨hwriting, hfresh⟩ := hall p (by simp [hsent])
    simp [Port.meet, hsent, hwriting, Sent.Doomed, hfresh]
  | _ :: _ :: _ => simp [hsent] at hlen

theorem Port.Framed.step (h : s.Framed) (hs : s.step e = some s') : s'.Framed := by
  cases e with
  | nodeSend packet n =>
    rw [Port.step] at hs
    split_ifs at hs with hcond
    obtain rfl := Option.some.inj hs
    have hstream := h.stream
    rw [hcond.1, List.append_nil] at hstream
    refine ⟨?_, h.delivered, fun hlink p hp => ?_⟩
    · rw [stream_append, ← hstream]
      simp [LinkState.stream]
    · rcases List.mem_append.mp hp with hp | hp
      · exact h.disabled hlink p hp
      · obtain rfl := List.mem_singleton.mp hp
        exact Or.inl hlink
  | write n =>
    rw [Port.step] at hs
    split_ifs at hs
    obtain rfl := Option.some.inj hs
    exact ⟨by simpa using h.stream, h.delivered, h.disabled⟩
  | arrive n =>
    rw [Port.step] at hs
    split_ifs at hs
    obtain rfl := Option.some.inj hs
    refine ⟨?_, h.delivered, h.disabled⟩
    rw [← h.stream]
    simp [← List.append_assoc (s.inFlight.take n)]
  | updateLinkState state =>
    rw [Port.step] at hs
    split_ifs at hs
    · obtain rfl := Option.some.inj hs
      exact ⟨h.stream.trans s.meet_stream.symm, h.delivered, fun hlink => nomatch hlink⟩
    · obtain rfl := Option.some.inj hs
      refine ⟨?_, h.delivered, fun _ p hp => ?_⟩
      · simpa [LinkState.stream, Function.comp_def] using h.stream
      · obtain ⟨q, -, rfl⟩ := List.mem_map.mp hp
        exact Or.inr rfl
  | drain =>
    rw [Port.step] at hs
    split_ifs at hs
    obtain ⟨r, hr, hcase⟩ := recvOnce_spec (fun _ => 0) h.stream
    rw [hr, Option.map_some] at hs
    obtain rfl := Option.some.inj hs
    obtain ⟨hnone, p, rest, hsent, -, hrest⟩ | hpending := hcase
    · rw [if_pos hnone]
      refine ⟨by simpa [hsent] using hrest, h.delivered, fun hlink q hq => ?_⟩
      exact h.disabled hlink q (List.mem_of_mem_tail hq)
    · rw [if_neg (by simp [hpending])]
      exact ⟨h.stream, h.delivered, h.disabled⟩
  | nodeRecv =>
    rw [Port.step] at hs
    split_ifs at hs
    · obtain ⟨r, hr, hcase⟩ := recvOnce_spec (fun _ => 0) h.stream
      rw [hr, Option.map_some] at hs
      obtain rfl := Option.some.inj hs
      obtain ⟨hnone, p, rest, hsent, hbytes, hrest⟩ | hpending := hcase
      · rw [if_pos hnone]
        refine ⟨by simpa [hsent] using hrest, by simp [h.delivered, hsent, hbytes],
          fun hlink q hq => ?_⟩
        exact h.disabled hlink q (List.mem_of_mem_tail hq)
      · rwa [if_neg (by simp [hpending])]
    · obtain rfl := Option.some.inj hs
      exact h

theorem Port.Kept.step (h : s.Kept) (hok : s.Ready e) (hs : s.step e = some s') : s'.Kept := by
  cases e with
  | nodeSend packet n =>
    rw [Port.step] at hs
    split_ifs at hs
    obtain rfl := Option.some.inj hs
    refine ⟨fun hlink p hp => ?_, h.returned⟩
    rcases List.mem_append.mp hp with hp | hp
    · exact h.enabled hlink p hp
    · obtain rfl := List.mem_singleton.mp hp
      simpa [Sent.Doomed] using hlink
  | write n =>
    rw [Port.step] at hs
    split_ifs at hs
    obtain rfl := Option.some.inj hs
    exact ⟨h.enabled, h.returned⟩
  | arrive n =>
    rw [Port.step] at hs
    split_ifs at hs
    obtain rfl := Option.some.inj hs
    exact ⟨h.enabled, h.returned⟩
  | updateLinkState state =>
    rw [Port.step] at hs
    split_ifs at hs with hdrain hstate
    · obtain rfl := Option.some.inj hs
      subst hstate
      refine ⟨fun _ => ?_, h.returned⟩
      cases hlink : s.linkState with
      | false => exact Port.meet_quiet (hok hlink)
      | true => exact Port.meet_enabled (h.enabled hlink)
    · obtain rfl := Option.some.inj hs
      exact ⟨(fun hlink => nomatch hlink), h.returned⟩
  | drain =>
    rw [Port.step] at hs
    split_ifs at hs
    obtain ⟨r, -, rfl⟩ := Option.map_eq_some_iff.mp hs
    by_cases hnone : r.code = .none
    · rw [if_pos hnone]
      exact ⟨fun hlink q hq => h.enabled hlink q (List.mem_of_mem_tail hq), h.returned⟩
    · rw [if_neg hnone]
      exact ⟨h.enabled, h.returned⟩
  | nodeRecv =>
    rw [Port.step] at hs
    split_ifs at hs with hdrain hlink
    · obtain ⟨r, -, rfl⟩ := Option.map_eq_some_iff.mp hs
      by_cases hnone : r.code = .none
      · rw [if_pos hnone]
        refine ⟨fun _ q hq => h.enabled hlink q (List.mem_of_mem_tail hq), fun q hq => ?_⟩
        rcases List.mem_append.mp hq with hq | hq
        · exact h.returned q hq
        · exact h.enabled hlink q (List.mem_of_mem_head? (Option.mem_toList.mp hq))
      · rwa [if_neg hnone]
    · obtain rfl := Option.some.inj hs
      exact h

theorem Port.framed_of_reach {ok : Port → Event → Prop} (h : Runs.Reach Port.step ok {} s) :
    s.Framed :=
  h.invariant ⟨rfl, rfl, fun hlink => nomatch hlink⟩ fun _ _ _ ht _ hs => ht.step hs

/-- While a disabled link is enabled only when it is quiet, `node_recv` returns packets of the
neighbour, and none that was written entirely while the link was disabled or was unread when it was
disabled. -/
theorem disabled_link_loses (h : Runs.Reach Port.step Port.Ready {} s) :
    s.delivered = s.returned.map (fun p => p.packet.bytes) ∧ ∀ p ∈ s.returned, ¬ p.Doomed := by
  have hkept : s.Kept := by
    refine h.invariant ⟨?_, ?_⟩ fun _ _ _ ht hok hs => ht.step hok hs
    · exact fun _ p hp => absurd hp List.not_mem_nil
    · exact fun p hp => absurd hp List.not_mem_nil
  exact ⟨(Port.framed_of_reach h).delivered, hkept.returned⟩

def floodPacket : Packet where
  bytes := [12, 0, 1, 0, 0, 0, 0, 0, 0, 0, 0, 0]
  length_field := rfl
  min_le := by decide
  le_max := by decide

/-- The link is disabled and drained, a packet of which one byte has been written meanwhile is
completed after it has been enabled, and is returned. -/
theorem disabled_link_loses_flood : ∃ s : Port, s.returned.map Sent.seenEnabled = [true] ∧
    s.delivered = s.returned.map (fun p => p.packet.bytes) ∧ ∀ p ∈ s.returned, ¬ p.Doomed := by
  have hrun : ((Runs.run (fun s e => if Port.Ready s e then s.step e else none)
      [.nodeSend floodPacket 12, .arrive 12, .updateLinkState false, .drain,
        .nodeSend floodPacket 1, .drain, .arrive 1, .updateLinkState true, .write 11, .arrive 11,
        .nodeRecv] {}).any fun s => decide (s.returned.map Sent.seenEnabled = [true])) = true := by
    decide +kernel
  obtain ⟨s, hs, hseen⟩ := (Option.any_eq_true _ _).mp hrun
  exact ⟨s, of_decide_eq_true hseen, disabled_link_loses (Runs.reach_of_checked hs)⟩

/-- A packet that the neighbour writes while the link is disabled stays in the stream and is
returned once the link has been enabled. -/
theorem packet_of_disabled_link_returned : ∃ s : Port,
    Runs.Reach Port.step (fun _ _ => True) {} s ∧ s.delivered = [floodPacket.bytes] ∧
      s.returned.map Sent.seenEnabled = [false] := by
  have hrun : ((Runs.run Port.step [.updateLinkState false, .drain, .nodeSend floodPacket 12,
      .arrive 12, .updateLinkState true, .nodeRecv] {}).any fun s =>
        decide (s.delivered = [floodPacket.bytes] ∧ s.returned.map Sent.seenEnabled = [false])) =
      true := by
    decide +kernel
  obtain ⟨s, hs, hall⟩ := (Option.any_eq_true _ _).mp hrun
  exact ⟨s, Runs.reach_of_run (fun _ _ _ => trivial) hs, of_decide_eq_true hall⟩

theorem Port.meet_unquiet (hdoomed : ∀ p ∈ s.sent, p.Doomed) (hq : ¬ s.Quiet) :
    ∃ p rest, s.meet = p :: rest ∧ p.Doomed := by
  match hsent : s.sent with
  | [] => exact absurd ⟨by simp [hsent], by simp [hsent]⟩ hq
  | [p] =>
    have hp : p.Doomed := hdoomed p (by simp [hsent])
    by_cases hwriting : s.writing = []
    · exact ⟨p, [], by simp [Port.meet, hwriting, hsent], hp⟩
    · have hunread : p.unreadAtDisable = true := by
        by_contra hfresh
        exact hq ⟨by simp [hsent], by simp [hsent, hwriting, hfresh]⟩
      exact ⟨{ p with seenEnabled := true }, [], by simp [Port.meet, hwriting, hsent],
        Or.inr hunread⟩
  | p :: q :: rest =>
    have hp : p.Doomed := hdoomed p (by simp [hsent])
    rw [Port.meet]
    split_ifs
    · exact ⟨p, q :: rest, hsent, hp⟩
    · exact ⟨p, _, by rw [hsent, List.dropLast_cons_cons, List.cons_append], hp⟩

theorem Port.flush (s : Port) : Runs.Reach Port.step (fun _ _ => True) s
    { s with unread := s.unread ++ (s.inFlight ++ s.writing), inFlight := [], writing := [] } := by
  have hwrite : Runs.Reach Port.step (fun _ _ => True) s
      { s with inFlight := s.inFlight ++ s.writing, writing := [] } := by
    by_cases hw : s.writing = []
    · obtain ⟨_, _, _, _, writing, _, _, _⟩ := s
      obtain rfl : writing = [] := hw
      simpa using Runs.Reach.refl
    · refine .tail (e := .write s.writing.length) .refl trivial ?_
      simp [Port.step, List.length_pos_iff.mpr hw]
  refine hwrite.trans ?_
  by_cases ha : s.inFlight ++ s.writing = []
  · rw [ha, List.append_nil]
    exact .refl
  · refine .tail (e := .arrive (s.inFlight ++ s.writing).length) .refl trivial ?_
    rw [Port.step, if_pos ⟨List.length_pos_iff.mpr ha, le_rfl⟩, List.take_length,
      List.drop_length]

/-- Whenever a disabled link is enabled while it is not quiet, `node_recv` may return a packet that
the link should have lost. -/
theorem unquiet_link_keeps {ok : Port → Event → Prop} (h : Runs.Reach Port.step ok {} s)
    (hlink : s.linkState = false) (hidle : s.draining = false) (hq : ¬ s.Quiet) :
    ∃ s₁ s₂, s.step (.updateLinkState true) = some s₁ ∧
      Runs.Reach Port.step (fun _ _ => True) s₁ s₂ ∧ ∃ p ∈ s₂.returned, p.Doomed := by
  have hframed := Port.framed_of_reach h
  obtain ⟨p, rest, hmeet, hp⟩ := Port.meet_unquiet (hframed.disabled hlink) hq
  have hstep : s.step (.updateLinkState true) =
      some { s with linkState := true, sent := s.meet } := by
    rw [Port.step, if_neg (by simp [hidle]), if_pos rfl]
  have hstream : (s.unread ++ (s.inFlight ++ s.writing)) ++ [] = stream s.meet := by
    rw [List.append_nil, s.meet_stream, hframed.stream]
  have hhead : stream s.meet = p.packet.bytes ++ stream rest := by rw [hmeet]; rfl
  rw [List.append_nil, hhead] at hstream
  obtain ⟨r, hr, hnone, -⟩ := recvOnce_complete (fun _ => 0) p.packet (stream rest)
  let s₂ : Port := { s with
    linkState := true, unread := r.unread, inFlight := [], writing := [], sent := s.meet.tail,
    delivered := s.delivered ++ [messageAt r.buffer],
    returned := s.returned ++ s.meet.head?.toList }
  refine ⟨_, s₂, hstep, (Port.flush _).tail (e := .nodeRecv) trivial ?_, p, ?_, hp⟩
  · rw [Port.step, if_neg (by simp [hidle]), if_pos rfl]
    dsimp only
    rw [hstream, hr, Option.map_some, if_pos hnone]
  · simp [s₂, hmeet]

end Port

end Mixnet.LinkState
