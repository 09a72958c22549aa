import Mixnet.Gather
import Mixnet.Runs

/-! `foreach_fragment_recv_generic`, with its poll entries, its descriptors and the messages read
from them: every descriptor is heard at most once, and nothing is reported only if all are. -/
namespace Mixnet.Collector
open Codec (MessageType)
open Orchestrator (accumulate firstError checkHeaderAt)
open Runs (Ends foldlM_ends)

structure PollFd where
  fd : ℤ
  events : UInt16
  revents : UInt16

def pollIn : UInt16 := 1

/-- `poll`, with what it finds at the entries that it looks at; it may fail. -/
def poll (found : Option (ℕ → UInt16)) (numFds : ℕ) (pfds : ℕ → PollFd) : ℤ × (ℕ → PollFd) :=
  match found with
  | none => (-1, pfds)
  | some found =>
    let pfds' := fun idx =>
      { pfds idx with revents := if (pfds idx).fd < 0 then 0 else found idx }
    ((List.range numFds).countP fun idx => (pfds' idx).revents ≠ 0, pfds')

structure Answers where
  flags : Option Bool
  env : List (RecvResult × ℕ)

/-- One turn of the loop: what `poll` finds, what the receive calls meet, and the time left. -/
structure Turn where
  found : Option (ℕ → UInt16)
  answers : ℕ → Answers
  timer : ℤ

/-- What came of one descriptor: the receive call, and, as far as they were reached, the codes of
`check_header` and of the callback. -/
structure Visit where
  idx : ℕ
  received : RecvReturn
  header : Option ErrorCode
  called : Option ErrorCode

/-- `current_ec`. -/
def Visit.code (v : Visit) : ErrorCode :=
  match v.called, v.header with
  | some ec, _ => ec
  | none, some ec => ec
  | none, none => v.received.code

/-- The variables of the loop, with the bytes that each descriptor has still to give, the state
that the callback works on, and the visits so far. -/
structure Loop (σ : Type*) where
  errorCode : ErrorCode
  numPending : ℕ
  pfds : ℕ → PollFd
  msgCtrl : Buffer
  streams : ℤ → List UInt8
  state : σ
  visits : List Visit

/-- Where the loop is when it has not returned: waiting for another turn or for a receive call to
return, or at an assertion of an accessor or of its own. -/
inductive Stop where
  | turn | receive | header | pending
deriving DecidableEq, Repr

structure Call (σ : Type*) where
  checkFragmentIds : Bool
  fds : List ℤ
  type : MessageType
  lambda : UInt16 → Buffer → σ → ErrorCode × σ
  connectionError : ErrorCode
  connectionError_ne : connectionError ≠ .none

section Model
variable {σ : Type*} (x : Call σ)

def Call.fd (idx : ℕ) : ℤ := x.fds.getD idx (-1)

def Call.recvWithTimeout (t : ℤ) (answers : Answers) (msgCtrl : Buffer) (unread : List UInt8) :
    Option RecvReturn :=
  recvGeneric x.connectionError 12 65535
    ⟨⟨.rxTxTimeout, UInt64.ofInt t⟩, answers.flags, msgCtrl, answers.env⟩ unread

def Call.checkHeader (idx : ℕ) (msgCtrl : Buffer) : Option ErrorCode :=
  checkHeaderAt msgCtrl x.checkFragmentIds (UInt16.ofNat idx) x.type

/-- A receive call has returned: check the header, then process the payload. -/
def Call.hear (idx : ℕ) (r : RecvReturn) (state : σ) : Option (Visit × σ) :=
  if r.code = .none then
    (x.checkHeader idx r.buffer).map fun ec =>
      if ec = .none then
        let (ec', state') := x.lambda (UInt16.ofNat idx) r.buffer state
        (⟨idx, r, some ec, some ec'⟩, state')
      else (⟨idx, r, some ec, none⟩, state)
  else some (⟨idx, r, none, none⟩, state)

def Call.record (s : Loop σ) (v : Visit) (state : σ) : Loop σ where
  errorCode := accumulate s.errorCode v.code
  numPending := s.numPending - 1
  pfds := Function.update s.pfds v.idx { s.pfds v.idx with events := 0, fd := -1 }
  msgCtrl := v.received.buffer
  streams := Function.update s.streams (x.fd v.idx) v.received.unread
  state := state
  visits := s.visits ++ [v]

def Call.visit (timer : ℤ) (turn : Turn) (s : Loop σ) (idx : ℕ) :
    Except (Stop × Loop σ) (Loop σ) :=
  if (s.pfds idx).revents = pollIn ∧ 0 < (s.pfds idx).fd then
    match x.recvWithTimeout timer (turn.answers idx) s.msgCtrl (s.streams (x.fd idx)) with
    | none => .error (.receive, s)
    | some r =>
      match x.hear idx r s.state with
      | none => .error (.header, s)
      | some (v, state) => .ok (x.record s v state)
  else .ok s

def Call.loop (x : Call σ) : List Turn → ℤ → Loop σ → Except (Stop × Loop σ) (Loop σ)
  | turns, timer, s =>
    if s.numPending ≠ 0 ∧ 0 < timer then
      match turns with
      | [] => .error (.turn, s)
      | turn :: turns =>
        let (rc, pfds) := poll turn.found x.fds.length s.pfds
        let s := { s with pfds := pfds }
        if rc = 0 then .ok s
        else if 0 < rc then
          if rc ≤ s.numPending then
            match (List.range x.fds.length).foldlM (x.visit timer turn) s with
            | .error e => .error e
            | .ok s => x.loop turns turn.timer s
          else .error (.pending, s)
        else x.loop turns turn.timer s
    else .ok s

def Call.start (msgCtrl : Buffer) (streams : ℤ → List UInt8) (state : σ) : Loop σ where
  errorCode := .none
  numPending := x.fds.length
  pfds := fun idx => ⟨x.fd idx, pollIn, 0⟩
  msgCtrl := msgCtrl
  streams := streams
  state := state
  visits := []

def Loop.result (s : Loop σ) : ErrorCode :=
  if s.errorCode = .none ∧ s.numPending ≠ 0 then .recvWaitTimeout else s.errorCode

def Call.foreachFragmentRecvGeneric (timeout : ℤ) (turns : List Turn) (msgCtrl : Buffer)
    (streams : ℤ → List UInt8) (state : σ) : Except (Stop × Loop σ) (ErrorCode × Loop σ) :=
  (x.loop turns timeout (x.start msgCtrl streams state)).map fun s => (s.result, s)

end Model

section Spec
variable {σ : Type*} (x : Call σ) (streams : ℤ → List UInt8)

def Call.process (x : Call σ) (state : σ) (v : Visit) : Option ErrorCode × σ :=
  if v.header = some .none then
    let (ec, state') := x.lambda (UInt16.ofNat v.idx) v.received.buffer state
    (some ec, state')
  else (none, state)

def Call.folded (x : Call σ) (first : σ) (visits : List Visit) : σ :=
  visits.foldl (fun state v => (x.process state v).2) first

/-- A visit is one message, or none, off its own descriptor; the callback is given exactly what
`check_header` has passed. -/
structure Call.Heard (v : Visit) : Prop where
  lt : v.idx < x.fds.length
  received : ∃ timer answers msgCtrl,
    x.recvWithTimeout timer answers msgCtrl (streams (x.fd v.idx)) = some v.received
  taken : v.received.code = .none → ∃ m : Message 12 65535,
    streams (x.fd v.idx) = m.bytes ++ v.received.unread ∧ messageAt v.received.buffer = m.bytes
  header : v.header.isSome ↔ v.received.code = .none
  checked : ∀ ec, v.header = some ec → x.checkHeader v.idx v.received.buffer = some ec
  called : v.called.isSome ↔ v.header = some .none

/-- No descriptor is visited twice, of each the loop has read what its visit has, and the callback
has been applied to the messages that have passed in their order, from the state `first` on. -/
structure Call.HeardOnce (first : σ) (s : Loop σ) : Prop where
  once : (s.visits.map (·.idx)).Nodup
  heard : ∀ v ∈ s.visits, x.Heard streams v
  read : ∀ v ∈ s.visits, s.streams (x.fd v.idx) = v.received.unread
  unread : ∀ fd, (∀ v ∈ s.visits, x.fd v.idx ≠ fd) → s.streams fd = streams fd
  state : s.state = x.folded first s.visits
  callback : ∀ before v after, s.visits = before ++ v :: after →
    v.called = (x.process (x.folded first before) v).1

structure Call.InStep (first : σ) (s : Loop σ) : Prop extends x.HeardOnce streams first s where
  pending : s.numPending + s.visits.length = x.fds.length
  polled : ∀ idx, (s.pfds idx).fd =
    if idx ∈ s.visits.map (·.idx) then -1 else x.fd idx
  errors : s.errorCode = firstError (s.visits.map Visit.code)

variable {x streams} {first : σ} {s : Loop σ}

theorem Call.fd_inj (hfds : x.fds.Nodup) {i j : ℕ} (hi : i < x.fds.length) (hj : j < x.fds.length)
    (h : x.fd i = x.fd j) : i = j := by
  rw [Call.fd, Call.fd, List.getD_eq_getElem?_getD, List.getD_eq_getElem?_getD,
    List.getElem?_eq_getElem hi, List.getElem?_eq_getElem hj] at h
  exact hfds.getElem_inj_iff.mp h

theorem Call.InStep.start (msgCtrl : Buffer) :
    x.InStep streams first (x.start msgCtrl streams first) where
  once := List.nodup_nil
  heard := fun _ hv => absurd hv List.not_mem_nil
  read := fun _ hv => absurd hv List.not_mem_nil
  unread := fun _ _ => rfl
  state := rfl
  callback := fun before v after hsplit => by simp [Call.start] at hsplit
  pending := rfl
  polled := fun _ => rfl
  errors := rfl

theorem Call.InStep.poll (h : x.InStep streams first s) (found : Option (ℕ → UInt16)) :
    x.InStep streams first { s with pfds := (poll found x.fds.length s.pfds).2 } := by
  refine { h with polled := fun idx => ?_ }
  cases found with
  | none => exact h.polled idx
  | some found => exact h.polled idx

theorem count_pending {p : ℕ → Prop} [DecidablePred p] {n : ℕ} {visited : List ℕ}
    (hnodup : visited.Nodup) (hlt : ∀ i ∈ visited, i < n) (hp : ∀ i ∈ visited, ¬ p i) :
    (List.range n).countP p + visited.length ≤ n := by
  have hsub : visited.Subperm ((List.range n).filter fun i => !decide (p i)) := by
    refine List.subperm_of_subset hnodup fun i hi => List.mem_filter.mpr ⟨?_, ?_⟩
    · exact List.mem_range.mpr (hlt i hi)
    · simpa using hp i hi
  have hsplit := List.length_eq_countP_add_countP p (l := List.range n)
  have hle := hsub.length_le
  rw [← List.countP_eq_length_filter] at hle
  simp only [List.length_range, decide_eq_true_eq, decide_not] at hsplit
  omega

theorem Call.HeardOnce.visits_lt (h : x.HeardOnce streams first s) :
    ∀ i ∈ s.visits.map (·.idx), i < x.fds.length := by
  intro i hi
  obtain ⟨v, hv, rfl⟩ := List.mem_map.mp hi
  exact (h.heard v hv).lt

theorem firstError_singleton (ec : ErrorCode) : firstError [ec] = ec := by
  by_cases hec : ec = .none <;> simp [firstError, hec]

/-- The assertion: only entries that are still polled are found ready. -/
theorem Call.InStep.ready_le (h : x.InStep streams first s) (found : Option (ℕ → UInt16)) :
    (Collector.poll found x.fds.length s.pfds).1 ≤ s.numPending := by
  cases found with
  | none =>
    change (-1 : ℤ) ≤ s.numPending
    omega
  | some found =>
    have hcount := count_pending (p := fun idx =>
      (if (s.pfds idx).fd < 0 then 0 else found idx) ≠ 0) h.once h.visits_lt ?_
    · rw [List.length_map] at hcount
      have hpending := h.pending
      change (((List.range x.fds.length).countP fun idx =>
        (if (s.pfds idx).fd < 0 then 0 else found idx) ≠ 0 : ℕ) : ℤ) ≤ s.numPending
      omega
    · intro i hi
      simp [h.polled i, hi]

theorem Call.heard_of_hear {idx : ℕ} {r : RecvReturn} {state state' : σ} {v : Visit} {timer : ℤ}
    {answers : Answers} {msgCtrl : Buffer} (hidx : idx < x.fds.length)
    (hrecv : x.recvWithTimeout timer answers msgCtrl (streams (x.fd idx)) = some r)
    (h : x.hear idx r state = some (v, state')) :
    v.idx = idx ∧ v.received = r ∧ x.Heard streams v ∧ (v.called, state') = x.process state v := by
  have htaken : r.code = .none → ∃ m : Message 12 65535,
      streams (x.fd idx) = m.bytes ++ r.unread ∧ messageAt r.buffer = m.bytes := fun hcode =>
    recvGeneric_takes (by decide) x.connectionError_ne hrecv hcode
  have hreceived : ∃ timer answers msgCtrl,
      x.recvWithTimeout timer answers msgCtrl (streams (x.fd idx)) = some r :=
    ⟨timer, answers, msgCtrl, hrecv⟩
  rw [Call.hear] at h
  split_ifs at h with hcode
  · obtain ⟨ec, hec, hv⟩ := Option.map_eq_some_iff.mp h
    have hchecked : ∀ ec', some ec = some ec' → x.checkHeader idx r.buffer = some ec' :=
      fun ec' heq => hec.trans heq
    split_ifs at hv with hnone
    · obtain ⟨rfl, rfl⟩ := Prod.mk.inj hv
      exact ⟨rfl, rfl, ⟨hidx, hreceived, htaken, by simp [hcode], hchecked, by simp [hnone]⟩,
        by simp [Call.process, hnone]⟩
    · obtain ⟨rfl, rfl⟩ := Prod.mk.inj hv
      exact ⟨rfl, rfl, ⟨hidx, hreceived, htaken, by simp [hcode], hchecked, by simp [hnone]⟩,
        by simp [Call.process, hnone]⟩
  · obtain ⟨rfl, rfl⟩ := Prod.mk.inj (Option.some.inj h)
    exact ⟨rfl, rfl, ⟨hidx, hreceived, htaken, by simp [hcode], fun _ hchecked => absurd hchecked
      (by simp), by simp⟩, by simp [Call.process]⟩

def Call.Excused (x : Call σ) (streams : ℤ → List UInt8) (turns : List Turn) : Stop → Prop
  | .turn => ∀ turn ∈ turns, 0 < turn.timer
  | .receive => ∃ turn ∈ turns, ∃ idx timer msgCtrl, x.recvWithTimeout timer (turn.answers idx)
      msgCtrl (streams (x.fd idx)) = none
  | .header => ∃ turn ∈ turns, ∃ idx timer msgCtrl r, x.recvWithTimeout timer (turn.answers idx)
      msgCtrl (streams (x.fd idx)) = some r ∧ r.code = .none ∧ x.checkHeader idx r.buffer = none
  | .pending => False

theorem Call.Excused.mono {turns turns' : List Turn} {stop : Stop} (hne : stop ≠ .turn)
    (h : x.Excused streams turns stop) (hsub : turns ⊆ turns') :
    x.Excused streams turns' stop := by
  cases stop with
  | turn => exact absurd rfl hne
  | receive | header =>
    obtain ⟨turn, hturn, hstop⟩ := h
    exact ⟨turn, hsub hturn, hstop⟩
  | pending => exact h

section Record
variable {v : Visit} {state : σ}

theorem mem_record {w : Visit} (hw : w ∈ (x.record s v state).visits) : w ∈ s.visits ∨ w = v :=
  (List.mem_append.mp hw).imp_right List.mem_singleton.mp

theorem Call.HeardOnce.record (h : x.HeardOnce streams first s) (hfds : x.fds.Nodup)
    (hv : x.Heard streams v) (hcalled : (v.called, state) = x.process s.state v)
    (hnew : ∀ w ∈ s.visits, w.idx ≠ v.idx) :
    x.HeardOnce streams first (x.record s v state) where
  once := by
    change ((s.visits ++ [v]).map (·.idx)).Nodup
    rw [List.map_append, List.nodup_append]
    refine ⟨h.once, List.nodup_singleton _, fun i hi j hj => ?_⟩
    obtain ⟨w, hw, rfl⟩ := List.mem_map.mp hi
    obtain rfl := List.mem_singleton.mp hj
    exact hnew w hw
  heard := by
    intro w hw
    cases mem_record hw with
    | inl hold => exact h.heard w hold
    | inr heq => exact heq ▸ hv
  read := by
    intro w hw
    change Function.update s.streams (x.fd v.idx) v.received.unread (x.fd w.idx) = _
    cases mem_record hw with
    | inl hold =>
      have hother : x.fd w.idx ≠ x.fd v.idx := fun heq =>
        hnew w hold (x.fd_inj hfds (h.heard w hold).lt hv.lt heq)
      rw [Function.update_of_ne hother, h.read w hold]
    | inr heq =>
      subst heq
      rw [Function.update_self]
  unread := by
    intro fd hfd
    change Function.update s.streams (x.fd v.idx) v.received.unread fd = _
    rw [Function.update_of_ne (hfd v (List.mem_append_right _ List.mem_cons_self)).symm]
    exact h.unread fd fun w hw => hfd w (List.mem_append_left _ hw)
  state := by
    change state = x.folded first (s.visits ++ [v])
    have hfold : x.folded first (s.visits ++ [v]) =
        (x.process (x.folded first s.visits) v).2 := List.foldl_concat ..
    rw [hfold, ← h.state, ← hcalled]
  callback := by
    intro before w after hsplit
    change s.visits ++ [v] = before ++ w :: after at hsplit
    obtain rfl | ⟨after, last, rfl⟩ := after.eq_nil_or_concat
    · -- the new visit
      obtain ⟨rfl, hw⟩ := List.append_inj' hsplit rfl
      obtain rfl : v = w := List.singleton_inj.mp hw
      rw [← h.state, ← hcalled]
    · rw [List.concat_eq_append, ← List.cons_append, ← List.append_assoc] at hsplit
      exact h.callback before w after (List.append_inj' hsplit rfl).1

theorem Call.HeardOnce.length_lt (h : x.HeardOnce streams first s) (hv : v.idx < x.fds.length)
    (hnew : ∀ w ∈ s.visits, w.idx ≠ v.idx) : s.visits.length < x.fds.length := by
  have hother : ∀ i ∈ s.visits.map (·.idx), i ≠ v.idx := by
    intro i hi
    obtain ⟨w, hw, rfl⟩ := List.mem_map.mp hi
    exact hnew w hw
  have hcount := count_pending (p := (· = v.idx)) h.once h.visits_lt hother
  have hone : 0 < (List.range x.fds.length).countP (· = v.idx) :=
    List.countP_pos_iff.mpr ⟨v.idx, List.mem_range.mpr hv, decide_eq_true rfl⟩
  rw [List.length_map] at hcount
  omega

theorem Call.InStep.record (h : x.InStep streams first s) (hfds : x.fds.Nodup)
    (hv : x.Heard streams v) (hcalled : (v.called, state) = x.process s.state v)
    (hnew : ∀ w ∈ s.visits, w.idx ≠ v.idx) :
    x.InStep streams first (x.record s v state) where
  toHeardOnce := h.toHeardOnce.record hfds hv hcalled hnew
  pending := by
    have hpending := h.pending
    have hlt := h.length_lt hv.lt hnew
    change s.numPending - 1 + (s.visits ++ [v]).length = _
    rw [List.length_append, List.length_singleton]
    omega
  polled := by
    intro idx
    change (Function.update s.pfds v.idx { s.pfds v.idx with events := 0, fd := -1 } idx).fd =
      if idx ∈ (s.visits ++ [v]).map (·.idx) then -1 else x.fd idx
    by_cases hidx : idx = v.idx
    · subst hidx
      simp
    · rw [Function.update_of_ne hidx, h.polled idx]
      simp [hidx]
  errors := by
    change accumulate s.errorCode v.code = firstError ((s.visits ++ [v]).map Visit.code)
    rw [List.map_append, Orchestrator.firstError_append, h.errors, List.map_singleton,
      firstError_singleton]

end Record

inductive Call.Step (x : Call σ) (streams : ℤ → List UInt8) (s : Loop σ) : Loop σ → Prop
  | stay : x.Step streams s s
  | record {idx : ℕ} {timer : ℤ} {answers : Answers} {r : RecvReturn} {v : Visit} {state : σ}
      (hidx : idx < x.fds.length) (hfd : 0 < x.fd idx) (hnew : ∀ w ∈ s.visits, w.idx ≠ idx)
      (hrecv : x.recvWithTimeout timer answers s.msgCtrl (streams (x.fd idx)) = some r)
      (hhear : x.hear idx r s.state = some (v, state)) : x.Step streams s (x.record s v state)

theorem Call.InStep.visit (h : x.InStep streams first s) (hfds : x.fds.Nodup) {idx : ℕ}
    (hidx : idx < x.fds.length) (timer : ℤ) (turn : Turn) :
    Ends (x.Step streams s) (fun e => x.InStep streams first e.2 ∧ e.1 ≠ .turn ∧
      x.Excused streams [turn] e.1) (x.visit timer turn s idx) := by
  rw [Call.visit]
  split_ifs with hready
  · have hpolled := h.polled idx
    have hpos := hready.2
    -- the entry is not disabled
    have hnew : ∀ w ∈ s.visits, w.idx ≠ idx := by
      rintro w hw rfl
      rw [if_pos (List.mem_map_of_mem hw)] at hpolled
      omega
    have hfd : 0 < x.fd idx := by
      split_ifs at hpolled
      · omega
      · rwa [← hpolled]
    have hunread := h.unread (x.fd idx) fun w hw heq =>
      hnew w hw (x.fd_inj hfds (h.heard w hw).lt hidx heq)
    rw [hunread]
    cases hrecv : x.recvWithTimeout timer (turn.answers idx) s.msgCtrl (streams (x.fd idx)) with
    | none =>
      exact .error ⟨h, Stop.noConfusion, turn, List.mem_cons_self, idx, timer, s.msgCtrl, hrecv⟩
    | some r =>
      dsimp only
      cases hhear : x.hear idx r s.state with
      | none =>
        rw [Call.hear] at hhear
        split_ifs at hhear with hcode
        rw [Option.map_eq_none_iff] at hhear
        exact .error ⟨h, Stop.noConfusion, turn, List.mem_cons_self, idx, timer, s.msgCtrl, r,
          hrecv, hcode, hhear⟩
      | some p => exact .ok (.record hidx hfd hnew hrecv hhear)
  · exact .ok .stay

theorem Call.InStep.step (h : x.InStep streams first s) (hfds : x.fds.Nodup) {s' : Loop σ}
    (hs : x.Step streams s s') : x.InStep streams first s' := by
  cases hs with
  | stay => exact h
  | record hidx _ hnew hrecv hhear =>
    obtain ⟨rfl, -, hv, hcalled⟩ := x.heard_of_hear hidx hrecv hhear
    exact h.record hfds hv hcalled hnew

def Call.Stopped (x : Call σ) (streams : ℤ → List UInt8) (first : σ) (turns : List Turn) (timer : ℤ)
    (e : Stop × Loop σ) : Prop :=
  x.InStep streams first e.2 ∧ x.Excused streams turns e.1 ∧ (e.1 = .turn → 0 < timer)

theorem Call.Stopped.cons {turns : List Turn} {turn : Turn} {timer : ℤ} (htimer : 0 < timer)
    {e : Stop × Loop σ} (h : x.Stopped streams first turns turn.timer e) :
    x.Stopped streams first (turn :: turns) timer e := by
  obtain ⟨stop, s⟩ := e
  obtain ⟨hs, hexcused, hleft⟩ := h
  refine ⟨hs, ?_, fun _ => htimer⟩
  by_cases hstop : stop = .turn
  · subst hstop
    intro t ht
    obtain rfl | ht := List.mem_cons.mp ht
    · exact hleft rfl
    · exact hexcused t ht
  · exact hexcused.mono hstop (List.subset_cons_self turn turns)

/-- The loop rule: the records stay in step, and what polling and every step preserve holds. -/
theorem Call.InStep.loop {P : Loop σ → Prop} (hfds : x.fds.Nodup)
    (hpoll : ∀ s pfds, P s → P { s with pfds := pfds })
    (hstep : ∀ s s', x.InStep streams first s → P s → x.Step streams s s' → P s')
    (turns : List Turn) (timer : ℤ) (h : x.InStep streams first s) (hP : P s) :
    Ends (fun s' => x.InStep streams first s' ∧ P s') (x.Stopped streams first turns timer)
      (x.loop turns timer s) := by
  induction turns generalizing timer s with
  | nil =>
    rw [Call.loop]
    split_ifs with hrun
    · exact .error ⟨h, fun _ hturn => absurd hturn List.not_mem_nil, fun _ => hrun.2⟩
    · exact .ok ⟨h, hP⟩
  | cons turn turns ih =>
    have hpolled := h.poll turn.found
    have hP' := hpoll s (Collector.poll turn.found x.fds.length s.pfds).2 hP
    have hle := h.ready_le turn.found
    have hnext : ∀ s', x.InStep streams first s' → P s' → 0 < timer →
        Ends (fun s' => x.InStep streams first s' ∧ P s')
          (x.Stopped streams first (turn :: turns) timer) (x.loop turns turn.timer s') :=
      fun s' hs' hPs' htimer => (ih turn.timer hs' hPs').mono (fun _ ha => ha) fun _ => Stopped.cons htimer
    rw [Call.loop]
    split_ifs with hrun
    · dsimp only
      split_ifs with hzero hready
      · exact .ok ⟨hpolled, hP'⟩
      · have hround := foldlM_ends (f := x.visit timer turn)
          (I := fun s' => x.InStep streams first s' ∧ P s') (List.range x.fds.length)
          (fun a ha idx hidx => (ha.1.visit hfds (List.mem_range.mp hidx) timer turn).mono
            (fun s' hs' => ⟨ha.1.step hfds hs', hstep a s' ha.1 ha.2 hs'⟩) fun _ he => he)
          ⟨hpolled, hP'⟩
        generalize (List.range x.fds.length).foldlM (x.visit timer turn) _ = r at hround ⊢
        cases hround with
        | error hstop =>
          obtain ⟨hs', hne, hexcused⟩ := hstop
          exact .error ⟨hs', hexcused.mono hne (List.cons_subset_cons turn (List.nil_subset turns)),
            fun hturn => absurd hturn hne⟩
        | ok hs' => exact hnext _ hs'.1 hs'.2 hrun.2
      · exact hnext _ hpolled hP' hrun.2
    · exact .ok ⟨h, hP⟩

def Visit.Accepted (v : Visit) : Prop :=
  v.received.code = .none ∧ v.header = some .none ∧ v.called = some .none

theorem Call.Heard.code_eq_none_iff {v : Visit} (h : x.Heard streams v) :
    v.code = .none ↔ v.Accepted := by
  obtain ⟨idx, received, header, called⟩ := v
  have hheader := h.header
  have hcalled := h.called
  cases called with
  | some ec =>
    have hpassed : header = some .none := hcalled.mp rfl
    have hcode : received.code = .none := hheader.mp (by rw [hpassed]; rfl)
    exact ⟨fun hec => ⟨hcode, hpassed, congrArg some hec⟩, fun hec => Option.some.inj hec.2.2⟩
  | none =>
    refine iff_of_false (fun hnone => ?_) fun hec => absurd hec.2.2 (by simp)
    cases header with
    | some ec =>
      obtain rfl : ec = .none := hnone
      exact absurd (hcalled.mpr rfl) (by simp)
    | none => exact absurd (hheader.mpr hnone) (by simp)

structure Call.Reports (x : Call σ) (s : Loop σ) (code : ErrorCode) : Prop where
  none_iff : code = .none ↔ ∀ idx < x.fds.length, ∃ v ∈ s.visits, v.idx = idx ∧ v.Accepted
  first : (∃ v ∈ s.visits, v.code ≠ .none) → ∃ before v after, s.visits = before ++ v :: after ∧
    (∀ w ∈ before, w.code = .none) ∧ code = v.code ∧ code ≠ .none
  timeout : code ≠ .none → (∀ v ∈ s.visits, v.code = .none) →
    code = .recvWaitTimeout ∧ ∃ idx < x.fds.length, ∀ v ∈ s.visits, v.idx ≠ idx

theorem exists_first {visits : List Visit} (h : ∃ v ∈ visits, v.code ≠ .none) :
    ∃ before v after, visits = before ++ v :: after ∧ (∀ w ∈ before, w.code = .none) ∧
      firstError (visits.map Visit.code) = v.code ∧ v.code ≠ .none := by
  induction visits with
  | nil =>
    obtain ⟨v, hv, -⟩ := h
    exact absurd hv List.not_mem_nil
  | cons w visits ih =>
    by_cases hw : w.code = .none
    · obtain ⟨v, hv, hcode⟩ := h
      have hin : v ∈ visits := (List.mem_cons.mp hv).resolve_left fun heq => hcode (heq ▸ hw)
      obtain ⟨before, v, after, rfl, hbefore, hfirst, hne⟩ := ih ⟨v, hin, hcode⟩
      refine ⟨w :: before, v, after, rfl, List.forall_mem_cons.mpr ⟨hw, hbefore⟩, ?_, hne⟩
      rw [← hfirst]
      simp [firstError, hw]
    · exact ⟨[], w, visits, rfl, fun _ hin => absurd hin List.not_mem_nil,
        by simp [firstError, hw], hw⟩

theorem Call.InStep.numPending_eq_zero_iff (h : x.InStep streams first s) :
    s.numPending = 0 ↔ ∀ idx < x.fds.length, ∃ v ∈ s.visits, v.idx = idx := by
  have hpending := h.pending
  have hsub : s.visits.map (·.idx) ⊆ List.range x.fds.length := fun i hi =>
    List.mem_range.mpr (h.visits_lt i hi)
  have hperm := List.subperm_of_subset h.once hsub
  constructor
  · intro hzero idx hidx
    have hall := hperm.perm_of_length_le (by rw [List.length_range, List.length_map]; omega)
    exact List.mem_map.mp (hall.mem_iff.mpr (List.mem_range.mpr hidx))
  · intro hall
    have hback : List.range x.fds.length ⊆ s.visits.map (·.idx) := fun idx hidx =>
      List.mem_map.mpr (hall idx (List.mem_range.mp hidx))
    have hle := (List.subperm_of_subset List.nodup_range hback).length_le
    rw [List.length_range, List.length_map] at hle
    omega

theorem Call.InStep.reports (h : x.InStep streams first s) : x.Reports s s.result := by
  have herrors := h.errors
  have hzero := h.numPending_eq_zero_iff
  have hnone : s.errorCode = .none ↔ ∀ v ∈ s.visits, v.code = .none := by
    rw [herrors, Orchestrator.firstError_eq_none_iff, List.forall_mem_map]
  constructor
  · rw [Loop.result]
    split_ifs with hwait
    · refine iff_of_false (by decide) fun hall => hwait.2 (hzero.mpr fun idx hidx => ?_)
      obtain ⟨v, hv, hvidx, -⟩ := hall idx hidx
      exact ⟨v, hv, hvidx⟩
    · constructor
      · intro hcode idx hidx
        have hdone := hzero.mp (not_not.mp fun hne => hwait ⟨hcode, hne⟩)
        obtain ⟨v, hv, hvidx⟩ := hdone idx hidx
        exact ⟨v, hv, hvidx, (h.heard v hv).code_eq_none_iff.mp (hnone.mp hcode v hv)⟩
      · intro hall
        refine hnone.mpr fun v hv => ?_
        obtain ⟨w, hw, hidx, haccepted⟩ := hall v.idx (h.heard v hv).lt
        obtain rfl := List.inj_on_of_nodup_map h.once hw hv hidx
        exact (h.heard w hw).code_eq_none_iff.mpr haccepted
  · intro hsome
    have hne : s.errorCode ≠ .none := by
      intro hec
      obtain ⟨v, hv, hcode⟩ := hsome
      exact hcode (hnone.mp hec v hv)
    have hresult : s.result = s.errorCode := if_neg fun hwait => hne hwait.1
    rw [hresult]
    obtain ⟨before, v, after, hsplit, hbefore, hfirst, hcode⟩ := exists_first hsome
    exact ⟨before, v, after, hsplit, hbefore, herrors.trans hfirst, hne⟩
  · intro hcode hall
    have hec := hnone.mpr hall
    rw [Loop.result] at hcode ⊢
    split_ifs at hcode ⊢ with hwait
    · refine ⟨rfl, ?_⟩
      by_contra hno
      push Not at hno
      exact hwait.2 (hzero.mpr hno)
    · exact absurd hec hcode

/-- The 16-bit numbers under which the callback is told of the descriptors do not clash. -/
def Call.Numbered (x : Call σ) (s : Loop σ) : Prop :=
  x.fds.length ≤ 65536 → (s.visits.map fun v => UInt16.ofNat v.idx).Nodup

theorem Call.HeardOnce.numbered (h : x.HeardOnce streams first s) : x.Numbered s := by
  intro hlen
  refine h.once.of_map.map_on fun v hv w hw heq => List.inj_on_of_nodup_map h.once hv hw ?_
  have hv' := (h.heard v hv).lt
  have hw' := (h.heard w hw).lt
  have hmod := congrArg UInt16.toNat heq
  rw [UInt16.toNat_ofNat', UInt16.toNat_ofNat', Nat.mod_eq_of_lt (by omega),
    Nat.mod_eq_of_lt (by omega)] at hmod
  exact hmod

/-- In every run, whatever is found and whenever: every descriptor is heard at most once, the loop's
own assertion holds, and the code that is returned is `NONE` only if all have been accepted. -/
theorem each_heard_once (x : Call σ) (hfds : x.fds.Nodup) (timeout : ℤ) (turns : List Turn)
    (msgCtrl : Buffer) (streams : ℤ → List UInt8) (state : σ) :
    Ends (fun p => x.HeardOnce streams state p.2 ∧ x.Numbered p.2 ∧ x.Reports p.2 p.1)
      (fun e => x.HeardOnce streams state e.2 ∧ x.Numbered e.2 ∧ x.Excused streams turns e.1)
      (x.foreachFragmentRecvGeneric timeout turns msgCtrl streams state) := by
  have hstart : x.InStep streams state (x.start msgCtrl streams state) := .start msgCtrl
  have hloop := hstart.loop (P := fun _ => True) hfds (fun _ _ _ => trivial)
    (fun _ _ _ _ _ => trivial) turns timeout trivial
  rw [Call.foreachFragmentRecvGeneric]
  generalize x.loop turns timeout _ = r at hloop ⊢
  cases hloop with
  | ok hs => exact .ok ⟨hs.1.toHeardOnce, hs.1.numbered, hs.1.reports⟩
  | error hstop => exact .error ⟨hstop.1.toHeardOnce, hstop.1.numbered, hstop.2.1⟩

end Spec

section Two

def startTestcaseResponse (fragmentId : UInt8) : List UInt8 :=
  [12, 0, 11, 128, fragmentId, 0, 0, 0, 0xef, 0xbe, 0xad, 0xde]

def twoFragments : Call ℕ where
  checkFragmentIds := true
  fds := [5, 7]
  type := .startTestcase
  lambda := fun _ _ heard => (.none, heard + 1)
  connectionError := .ctrlConnectionBroken
  connectionError_ne := by decide

def twoTurns : List Turn :=
  let answers := fun _ => ⟨some true, [(.bytes 2, 0), (.bytes 12, 0), (.bytes 12, 0)]⟩
  [⟨some fun idx => if idx = 1 then pollIn else 0, answers, 8⟩,
    ⟨some fun idx => if idx = 0 then pollIn else 0, answers, 3⟩]

def twoStreams (fd : ℤ) : List UInt8 := startTestcaseResponse (if fd = 5 then 0 else 1)

def twoResult : Option (ErrorCode × ℕ) :=
  match twoFragments.foreachFragmentRecvGeneric 10 twoTurns (fun _ => 0) twoStreams 0 with
  | .ok (code, s) => some (code, s.state)
  | .error _ => none

theorem each_heard_once_two : ∃ s, twoFragments.foreachFragmentRecvGeneric 10 twoTurns
    (fun _ => 0) twoStreams 0 = .ok (.none, s) ∧ s.state = 2 ∧
    twoFragments.HeardOnce twoStreams 0 s ∧ twoFragments.Numbered s ∧
    twoFragments.Reports s .none := by
  have h := each_heard_once twoFragments (by decide) 10 twoTurns (fun _ => 0) twoStreams 0
  have hresult : twoResult = some (.none, 2) := by decide +kernel
  rw [twoResult] at hresult
  cases hrun : twoFragments.foreachFragmentRecvGeneric 10 twoTurns (fun _ => 0) twoStreams 0 with
  | error e =>
    rw [hrun] at hresult
    cases hresult
  | ok p =>
    obtain ⟨code, s⟩ := p
    rw [hrun] at hresult h
    obtain ⟨rfl, hstate⟩ := Prod.mk.inj (Option.some.inj hresult)
    cases h with
    | ok hs => exact ⟨s, rfl, hstate, hs⟩

end Two

section Refinement
open Orchestrator (Reply Answer Round Gather Exchange checkHeader)

/-- What the accessors of message.cpp make of a message, with the first fields of its payload. -/
def replyAt (buffer : Buffer) : Reply where
  valid := Codec.validate buffer = some true
  isRequest := Codec.isRequest buffer
  type := (Codec.getType buffer).getD .noop
  fragmentId := Codec.getFragmentId buffer
  errorCode := (Codec.getErrorCode buffer).getD .none
  pid := Int.bmod ((Codec.u16At (Codec.payload buffer) 0).toNat +
    65536 * (Codec.u16At (Codec.payload buffer) 2).toNat) 4294967296
  totalSize := Codec.u16At (Codec.payload buffer) 0

theorem checkHeaderAt_replyAt {buffer : Buffer} {checkId : Bool} {fid : UInt16} {type : MessageType}
    {code : ErrorCode} (h : checkHeaderAt buffer checkId fid type = some code) :
    code = checkHeader (replyAt buffer) checkId fid type := by
  obtain ⟨valid, hvalid, h⟩ := Option.bind_eq_some_iff.mp h
  rw [checkHeader, replyAt]
  cases valid with
  | false => simpa [hvalid] using h.symm
  | true =>
    simp only [Bool.not_true, Bool.false_eq_true, if_false, hvalid, decide_true] at h ⊢
    split_ifs at h with hid
    · rw [if_pos hid, Option.some.inj h]
    · obtain ⟨t, ht, h⟩ := Option.bind_eq_some_iff.mp h
      rw [if_neg hid, ht, Option.getD_some]
      split_ifs at h with htype
      · rw [if_pos htype, Option.some.inj h]
      · obtain ⟨ec, hec, rfl⟩ := Option.map_eq_some_iff.mp h
        rw [if_neg htype, hec, Option.getD_some]

variable {σ : Type*} {x : Call σ} {process : ℕ → Reply → σ → ErrorCode × σ}

def Call.exchange (x : Call σ) (process : ℕ → Reply → σ → ErrorCode × σ) : Exchange σ :=
  ⟨x.checkFragmentIds, x.fds, x.type, process⟩

def Visit.answer (v : Visit) : Answer :=
  if h : v.received.code = .none then .message (replyAt v.received.buffer)
  else .failed v.received.code h

theorem answer_of_hear {idx : ℕ} {r : RecvReturn} {state state' : σ} {v : Visit}
    (hprocess : ∀ buffer state, x.lambda (UInt16.ofNat idx) buffer state =
      process idx (replyAt buffer) state)
    (h : x.hear idx r state = some (v, state')) :
    (x.exchange process).answer idx state v.answer = (v.code, state') := by
  rw [Call.hear] at h
  split_ifs at h with hcode
  · obtain ⟨ec, hec, hv⟩ := Option.map_eq_some_iff.mp h
    have hheader := checkHeaderAt_replyAt hec
    split_ifs at hv with hnone
    · obtain ⟨rfl, rfl⟩ := Prod.mk.inj hv
      rw [hnone] at hheader
      simp [Visit.answer, hcode, Exchange.answer, Call.exchange, ← hheader, Visit.code, hprocess]
    · obtain ⟨rfl, rfl⟩ := Prod.mk.inj hv
      simp [Visit.answer, hcode, Exchange.answer, Call.exchange, ← hheader, Visit.code, hnone]
  · obtain ⟨rfl, rfl⟩ := Prod.mk.inj (Option.some.inj h)
    simp [Visit.answer, hcode, Exchange.answer, Visit.code]

def Loop.gathered (s : Loop σ) : Gather σ :=
  ⟨s.errorCode, (s.visits.map (·.idx)).reverse, s.numPending, s.state⟩

theorem take_gathered {s : Loop σ} {v : Visit} {state : σ}
    (h : (x.exchange process).answer v.idx s.state v.answer = (v.code, state)) :
    (x.exchange process).take s.gathered v.idx v.answer = (x.record s v state).gathered := by
  have hvisits : ((s.visits ++ [v]).map (·.idx)).reverse =
      v.idx :: (s.visits.map (·.idx)).reverse := by simp
  rw [Exchange.take, Loop.gathered, h, Loop.gathered, Call.record, hvisits]

def oneAnswer (idx : ℕ) (a : Answer) : Round := fun i => if i = idx then some a else none

theorem foldl_oneAnswer (X : Exchange σ) (idx : ℕ) (a : Answer) {idxs : List ℕ}
    (hnodup : idxs.Nodup) (hidx : idx ∈ idxs) (g : Gather σ) :
    idxs.foldl (X.visit (oneAnswer idx a)) g = X.visit (oneAnswer idx a) g idx := by
  obtain ⟨before, after, rfl⟩ := List.append_of_mem hidx
  have hnew : idx ∉ before ++ after := (List.nodup_middle.mp hnodup).notMem
  have hother : ∀ i ∈ before ++ after, oneAnswer idx a i = none := by
    intro i hi
    refine if_neg ?_
    rintro rfl
    exact hnew hi
  rw [List.foldl_append, List.foldl_cons,
    X.foldl_visit_none fun i hi => hother i (List.mem_append_left _ hi),
    X.foldl_visit_none fun i hi => hother i (List.mem_append_right _ hi)]

theorem Call.Step.exchange {streams : ℤ → List UInt8} {s s' : Loop σ} {first : σ}
    (h : x.Step streams s s') (hs : x.InStep streams first s)
    (hprocess : ∀ idx < x.fds.length, ∀ buffer state,
      x.lambda (UInt16.ofNat idx) buffer state = process idx (replyAt buffer) state) :
    s' = s ∨ ∃ round, (x.exchange process).loop [round] s.gathered = s'.gathered := by
  cases h with
  | stay => exact Or.inl rfl
  | @record idx timer answers r v state hidx hfd hnew hrecv hhear =>
    obtain ⟨rfl, -⟩ := x.heard_of_hear hidx hrecv hhear
    have hanswer := answer_of_hear (hprocess v.idx hidx) hhear
    have hpending : s.gathered.numPending ≠ 0 := by
      intro hzero
      obtain ⟨w, hw, heq⟩ := hs.numPending_eq_zero_iff.mp hzero v.idx hidx
      exact hnew w hw heq
    have hpolled : 0 < (x.exchange process).fds.getD v.idx (-1) ∧
        v.idx ∉ s.gathered.answered := by
      refine ⟨hfd, fun hin => ?_⟩
      obtain ⟨w, hw, heq⟩ := List.mem_map.mp (List.mem_reverse.mp hin)
      exact hnew w hw heq
    have hmem : v.idx ∈ List.range (x.exchange process).fds.length := List.mem_range.mpr hidx
    refine Or.inr ⟨oneAnswer v.idx v.answer, ?_⟩
    rw [Exchange.loop, if_pos hpending, Exchange.loop,
      foldl_oneAnswer _ _ _ List.nodup_range hmem, Exchange.visit, oneAnswer, if_pos rfl]
    dsimp only
    rw [if_pos hpolled, take_gathered hanswer]

/-- The loop refines the exchange: with a callback that looks at the modelled fields only, what is
returned and the state are those of some order of answers. -/
theorem exchange_refined (x : Call σ) (hfds : x.fds.Nodup)
    (hprocess : ∀ idx < x.fds.length, ∀ buffer state,
      x.lambda (UInt16.ofNat idx) buffer state = process idx (replyAt buffer) state)
    {timeout : ℤ} {turns : List Turn} {msgCtrl : Buffer} {streams : ℤ → List UInt8} {state : σ}
    {code : ErrorCode} {s : Loop σ}
    (h : x.foreachFragmentRecvGeneric timeout turns msgCtrl streams state = .ok (code, s)) :
    ∃ rounds, (x.exchange process).recv rounds state = (code, s.state) := by
  have hstart : x.InStep streams state (x.start msgCtrl streams state) := .start msgCtrl
  have hloop := hstart.loop (P := fun s => ∃ rounds, (x.exchange process).loop rounds
      ((x.exchange process).start state) = s.gathered) hfds (fun _ _ hP => hP) ?_ turns timeout
    ⟨[], rfl⟩
  · rw [Call.foreachFragmentRecvGeneric] at h
    cases hrun : x.loop turns timeout (x.start msgCtrl streams state) with
    | error e =>
      rw [hrun] at h
      cases h
    | ok s' =>
      rw [hrun] at h hloop
      obtain ⟨rfl, rfl⟩ := Prod.mk.inj (Except.ok.inj h)
      cases hloop with
      | ok hs =>
        obtain ⟨rounds, hrounds⟩ := hs.2
        refine ⟨rounds, ?_⟩
        rw [Exchange.recv, hrounds]
        rfl
  · rintro s s' hs ⟨rounds, hrounds⟩ hstep
    obtain rfl | ⟨round, hround⟩ := hstep.exchange hs hprocess
    · exact ⟨rounds, hrounds⟩
    · exact ⟨rounds ++ [round], by rw [Exchange.loop_append, hrounds, hround]⟩

end Refinement

end Mixnet.Collector
