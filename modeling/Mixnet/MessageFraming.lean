import Mixnet.RecvRules

/-! Message framing. The stream is a sequence of messages; a receive call that returns `NONE`
takes the next one off it, and a call that reports nothing pending or a malformed message
takes nothing. -/
namespace Mixnet

/-- A message as it stands on the stream: its length field is its length, within bounds. -/
structure Message (minLen maxLen : UInt16) where
  bytes : List UInt8
  length_field : lengthField (fun i => bytes.getD i 0) = bytes.length
  min_le : minLen.toNat ≤ bytes.length
  le_max : bytes.length ≤ maxLen.toNat

variable {c : Config} {connectionError : ErrorCode} {minLen maxLen : UInt16}

section Send

theorem bytesAt_append (buffer : Buffer) (k n : ℕ) :
    bytesAt buffer 0 k ++ bytesAt buffer k n = bytesAt buffer 0 (k + n) := by
  simp [bytesAt, List.range_add]

theorem send_exit {buffer : Buffer} {k n : ℕ} {written : List UInt8}
    (h : some (if n = 0 then ErrorCode.none else .sendReqsTimeout, bytesAt buffer 0 k) =
      some (.none, written)) : written = bytesAt buffer 0 (k + n) := by
  obtain ⟨hcode, rfl⟩ := Prod.mk.inj (Option.some.inj h)
  by_cases hn : n = 0
  · rw [hn, Nat.add_zero]
  · rw [if_neg hn] at hcode
    exact absurd hcode (by decide)

theorem sendLoop_written {buffer : Buffer} (env : List (SendResult × ℕ)) (delta k n : ℕ)
    {written : List UInt8}
    (h : sendLoop c connectionError buffer env delta k n (bytesAt buffer 0 k) =
      some (.none, written)) (hconn : connectionError ≠ .none) :
    written = bytesAt buffer 0 (k + n) := by
  induction env generalizing delta k n with
  | nil =>
    unfold sendLoop at h
    by_cases hrun : n ≠ 0 ∧ (!c.useTimeout || delta < c.timeout) = true
    · rw [if_pos hrun] at h
      exact absurd h (by simp)
    · rw [if_neg hrun] at h
      exact send_exit h
  | cons turn env ih =>
    obtain ⟨r, elapsed⟩ := turn
    unfold sendLoop at h
    by_cases hrun : n ≠ 0 ∧ (!c.useTimeout || delta < c.timeout) = true
    · rw [if_pos hrun] at h
      cases r with
      | failed => exact absurd (Prod.mk.inj (Option.some.inj h)).1 hconn
      | stalled => exact ih _ k n h
      | accepted m =>
        by_cases hm : 0 < m ∧ m ≤ n
        · dsimp only at h
          rw [if_pos hm, bytesAt_append] at h
          have hwritten := ih _ (k + m) (n - m) h
          have hsum : k + m + (n - m) = k + n := by omega
          rw [hwritten, hsum]
        · dsimp only at h
          rw [if_neg hm] at h
          exact absurd h (by simp)
    · rw [if_neg hrun] at h
      exact send_exit h

theorem messageAt_length (buffer : Buffer) : (messageAt buffer).length = lengthField buffer := by
  simp [messageAt, bytesAt]

theorem messageAt_getD (buffer : Buffer) {i : ℕ} (h : i < lengthField buffer) (d : UInt8) :
    (messageAt buffer).getD i d = buffer i := by
  simp [messageAt, bytesAt, List.getD, h]

theorem messageAt_lengthField (buffer : Buffer) (h : 2 ≤ lengthField buffer) :
    lengthField (fun i => (messageAt buffer).getD i 0) = (messageAt buffer).length := by
  rw [messageAt_length]
  change ((messageAt buffer).getD 0 0).toNat + 256 * ((messageAt buffer).getD 1 0).toNat = _
  rw [messageAt_getD buffer (by omega), messageAt_getD buffer (by omega)]
  rfl

theorem sendGeneric_none {call : SendCall} {written : List UInt8}
    (h : sendGeneric connectionError minLen maxLen call = some (.none, written))
    (hconn : connectionError ≠ .none) (hmin : 2 ≤ minLen.toNat) :
    written = messageAt call.buffer ∧ ∃ m : Message minLen maxLen, m.bytes = written := by
  rw [sendGeneric] at h
  dsimp only at h
  split_ifs at h with hvalid hbounds
  · exact absurd (Prod.mk.inj (Option.some.inj h)).1 hvalid
  · exact absurd (Prod.mk.inj (Option.some.inj h)).1 (by decide)
  · have hwritten := sendLoop_written call.env 0 0 _ h hconn
    rw [Nat.zero_add] at hwritten
    refine ⟨hwritten, ⟨messageAt call.buffer, ?_, ?_, ?_⟩, hwritten.symm⟩
    · exact messageAt_lengthField _ (by omega)
    · rw [messageAt_length]
      omega
    · rw [messageAt_length]
      omega

end Send

section Untouched

/-- Nothing has been taken from the stream `u` unless the call is committed to a message. -/
structure Untouched (c : Config) (u : List UInt8) (s : RecvState) : Prop where
  peeking : s.peek = true → s.unread = u
  taking : s.peek = false → s.msgLength ≠ 0 ∧ (c.block = true ∨ s.recvStarted = true)
  waiting : s.recvStarted = false → s.unread = u
  once : c.tryOnce = true → s.unread = u

theorem Untouched.of_peek {u : List UInt8} {s : RecvState} (hp : s.peek = true)
    (hu : s.unread = u) : Untouched c u s where
  peeking _ := hu
  taking hf := by
    rw [hp] at hf
    exact absurd hf (by simp)
  waiting _ := hu
  once _ := hu

theorem Untouched.after_recv {u : List UInt8} {s s₁ : RecvState} {r : RecvResult}
    (h : Untouched c u s) (hr : s.recv r = some s₁) :
    (s₁.peek = true → s₁.unread = u) ∧
      (s₁.peek = false → s₁.msgLength ≠ 0 ∧ (c.block = true ∨ s₁.recvStarted = true)) := by
  obtain ⟨rfl, _⟩ | ⟨n, _, _, _, _, rfl⟩ := recv_cases hr
  · exact ⟨h.peeking, h.taking⟩
  · refine ⟨fun hp => ?_, h.taking⟩
    dsimp only at hp ⊢
    rw [if_pos hp]
    exact h.peeking hp

/-- One turn: the call goes on without having taken anything it may still give up, or it
returns, and then it has taken nothing or its code is `NONE` or the connection error. -/
theorem Untouched.turn {u : List UInt8} {s s₁ : RecvState} {r : RecvResult}
    {x : Except ErrorCode RecvState} (h : Untouched c u s) (hmin : 2 ≤ minLen.toNat)
    (hr : s.recv r = some s₁) (hx : Handled c connectionError minLen maxLen s₁ r x) :
    Turn (Untouched c u) (fun code s => code = .none ∨ code = connectionError ∨
      code = .recvWaitTimeout ∨ s.unread = u) s₁ x := by
  obtain ⟨hu, htaking⟩ := h.after_recv hr
  -- the length field is only ever peeked at
  have hlength : s₁.msgLength = 0 → s₁.peek = true := by
    intro hlen
    by_contra hp
    exact (htaking (by simpa using hp)).1 hlen
  -- outside blocking mode the flag is cleared when the call commits itself
  have hwaiting : c.tryOnce = true ∨ c.useTimeout = true → s₁.recvStarted = false →
      s₁.peek = true := by
    intro hmode hno
    by_contra hp
    obtain ⟨_, hblock | hstarted⟩ := htaking (by simpa using hp)
    · simp [block_of_mode hblock] at hmode
    · rw [hno] at hstarted
      exact absurd hstarted (by simp)
  have huntouched : s₁.peek = true → Untouched c u s₁ := fun hp => .of_peek hp (hu hp)
  cases hx with
  | failed | closed => exact Or.inr (Or.inl rfl)
  | stalledOnce hone =>
    obtain rfl := Option.some.inj hr
    exact Or.inr (Or.inr (Or.inr (h.once hone)))
  | stalled hone =>
    obtain rfl := Option.some.inj hr
    exact h
  | malformed n hlen hn hbad => exact Or.inr (Or.inr (Or.inr (hu (hlength hlen))))
  | length n hlen hn hgood =>
    have hp := hlength hlen
    refine ⟨fun _ => hu hp, fun hf => ⟨?_, ?_⟩, fun _ => hu hp, fun _ => hu hp⟩
    · dsimp only
      omega
    · left
      by_contra hblock
      simp [hblock, hp] at hf
  | wait n hn hone hwait =>
    apply huntouched
    obtain hlen | ⟨htimeout, hno⟩ := hwait
    · exact hlength hlen
    · exact hwaiting (Or.inr htimeout) hno
  | giveUp n hn hone hwait =>
    right; right; right
    apply hu
    obtain hlen | hno := hwait
    · exact hlength hlen
    · exact hwaiting (Or.inl hone) hno
  | shortRead n hlen hn hone hstarted => exact Or.inr (Or.inl rfl)
  | commit n hlen hn hmode hno =>
    have hp := hwaiting hmode hno
    exact ⟨fun _ => hu hp, fun _ => ⟨hlen, Or.inr rfl⟩, fun _ => hu hp, fun _ => hu hp⟩
  | finishOnce | finish => exact Or.inl rfl
  | advance n hlen hone hstarted hmore =>
    refine ⟨hu, fun _ => ⟨hlen, Or.inr rfl⟩, fun hf => absurd hf (by simp), fun ho => ?_⟩
    rw [hone] at ho
    exact absurd ho (by simp)

/-- A receive call on any stream takes nothing from it unless it returns `NONE`, the connection
error or `RECV_WAIT_TIMEOUT`. -/
theorem recvGeneric_keeps {call : RecvCall} {u : List UInt8} {r : RecvReturn}
    (hmin : 2 ≤ minLen.toNat)
    (h : recvGeneric connectionError minLen maxLen call u = some r) :
    r.code = .none ∨ r.code = connectionError ∨ r.code = .recvWaitTimeout ∨ r.unread = u := by
  have hstart : Untouched call.config u (recvStart call u) :=
    ⟨fun _ => rfl, fun hf => by simp [recvStart] at hf, fun _ => rfl, fun _ => rfl⟩
  have hreturn := recvGeneric_rule (I := Untouched call.config u)
    (fun s s₁ x y hs hx hy => hs.turn hmin hx hy) ?_ hstart h
  · obtain ⟨_, hu⟩ | ⟨s, hq, _, hu⟩ := hreturn
    · exact Or.inr (Or.inr (Or.inr hu))
    · rw [hu]
      exact hq
  · intro s hs
    cases hst : s.recvStarted with
    | true => exact Or.inr (Or.inr (Or.inl rfl))
    | false => exact Or.inr (Or.inr (Or.inr (hs.waiting hst)))

end Untouched

section Reading

theorem store_lt {buffer : Buffer} {offset i : ℕ} (bytes : List UInt8) (h : i < offset) :
    store buffer offset bytes i = buffer i := by
  simp [store, Nat.not_le.mpr h]

theorem store_ge {buffer : Buffer} {offset i : ℕ} {bytes : List UInt8} (h : offset ≤ i)
    (hi : i - offset < bytes.length) (d : UInt8) :
    store buffer offset bytes i = bytes.getD (i - offset) d := by
  simp [store, h, List.getD, hi]

/-- The states of a call that found the message `m` at the head of the stream: waiting for its
length, waiting for its body, or with its first `k` bytes taken. -/
inductive Reading (c : Config) (m tail : List UInt8) : RecvState → Prop
  | length (buffer : Buffer) : Reading c m tail ⟨m ++ tail, buffer, 0, true, false, 2, 0⟩
  | body (buffer : Buffer) (hc : c.block = false) :
      Reading c m tail ⟨m ++ tail, buffer, 0, true, false, m.length, m.length⟩
  | taking (buffer : Buffer) (k : ℕ) (started : Bool) (hk : k < m.length)
      (hbuf : ∀ i, i < k → buffer i = m.getD i 0) (hc : c.block = true ∨ started = true)
      (hone : c.tryOnce = true → k = 0) :
      Reading c m tail ⟨m.drop k ++ tail, buffer, k, false, started, m.length - k, m.length⟩

structure Delivered (m tail : List UInt8) (s : RecvState) : Prop where
  unread : s.unread = tail
  buffer : ∀ i, i < m.length → s.buffer i = m.getD i 0

def Finished (m tail : List UInt8) (code : ErrorCode) (s : RecvState) : Prop :=
  code = .none → Delivered m tail s

theorem Turn.of_no_bytes {I : RecvState → Prop} {Q : ErrorCode → RecvState → Prop}
    {s : RecvState} {r : RecvResult} {x : Except ErrorCode RecvState} (hn : ∀ n, r ≠ .bytes n)
    (hconn : connectionError ≠ .none) (hx : Handled c connectionError minLen maxLen s r x)
    (hI : I s) (hQ : ∀ code, code ≠ .none → Q code s) : Turn I Q s x := by
  cases hx with
  | failed | closed => exact hQ _ hconn
  | stalledOnce hone => exact hQ _ (by decide)
  | stalled hone => exact hI
  | malformed n | length n | wait n | giveUp n | shortRead n | commit n | finishOnce n | finish n
    | advance n => exact absurd rfl (hn n)

theorem Message.two_le (m : Message minLen maxLen) (hmin : 2 ≤ minLen.toNat) :
    2 ≤ m.bytes.length :=
  Nat.le_trans hmin m.min_le

theorem getD_take_append {l tail : List UInt8} {n i : ℕ} (hi : i < n) (hl : i < l.length) :
    ((l ++ tail).take n).getD i 0 = l.getD i 0 := by
  simp [List.getD, hi, List.getElem?_append_left hl]

theorem decoded_take {u : List UInt8} (buffer : Buffer) (h : 2 ≤ u.length) :
    lengthField (fun i => store buffer 0 (u.take 2) (0 + i)) = lengthField fun i => u.getD i 0 := by
  have hbyte : ∀ i, i < 2 → store buffer 0 (u.take 2) (0 + i) = u.getD i 0 := by
    intro i hi
    rw [Nat.zero_add, store_ge (Nat.zero_le i) (by rw [List.length_take]; omega) 0, Nat.sub_zero,
      List.getD_eq_getElem?_getD, List.getElem?_take_of_lt hi, ← List.getD_eq_getElem?_getD]
  rw [lengthField, lengthField, hbyte 0 (by decide), hbyte 1 (by decide)]

theorem lengthField_append {u : List UInt8} (later : List UInt8) (h : 2 ≤ u.length) :
    lengthField (fun i => (u ++ later).getD i 0) = lengthField fun i => u.getD i 0 := by
  have hbyte : ∀ i < 2, (u ++ later).getD i 0 = u.getD i 0 := by
    intro i hi
    rw [List.getD_eq_getElem?_getD, List.getElem?_append_left (by omega),
      ← List.getD_eq_getElem?_getD]
  rw [lengthField, lengthField, hbyte 0 (by decide), hbyte 1 (by decide)]

theorem decoded_length {m : Message minLen maxLen} (tail : List UInt8) (buffer : Buffer)
    (hmin : 2 ≤ minLen.toNat) :
    lengthField (fun i => store buffer 0 ((m.bytes ++ tail).take 2) (0 + i)) =
      m.bytes.length := by
  have htwo := m.two_le hmin
  have hlong : 2 ≤ (m.bytes ++ tail).length := by
    rw [List.length_append]
    omega
  rw [decoded_take buffer hlong, lengthField_append tail htwo, m.length_field]

theorem Reading.length_turn {m : Message minLen maxLen} {tail : List UInt8} {buffer : Buffer}
    {s₁ : RecvState} {r : RecvResult} {x : Except ErrorCode RecvState}
    (hmin : 2 ≤ minLen.toNat) (hconn : connectionError ≠ .none)
    (hr : RecvState.recv ⟨m.bytes ++ tail, buffer, 0, true, false, 2, 0⟩ r = some s₁)
    (hx : Handled c connectionError minLen maxLen s₁ r x) :
    Turn (Reading c m.bytes tail) (Finished m.bytes tail) s₁ x := by
  have htwo := m.two_le hmin
  obtain ⟨rfl, hno⟩ | ⟨n, rfl, _, _, _, rfl⟩ := recv_cases hr
  · exact .of_no_bytes hno hconn hx (.length _) fun code hcode hc => absurd hc hcode
  · cases hx with
    | malformed n hlen hn hbad => exact fun hc => absurd hc (by decide)
    | length n hlen hn hgood =>
      obtain rfl : n = 2 := hn
      have hdecoded := decoded_length (m := m) tail buffer hmin
      simp only [Turn, RecvState.decoded, if_true, hdecoded]
      cases hb : c.block with
      | true => exact .taking _ 0 false (by omega) (fun i hi => by omega) (Or.inl hb) (fun _ => rfl)
      | false => exact .body _ hb
    | wait n hn hone hwait => exact .length _
    | giveUp n hn hone hwait => exact fun hc => absurd hc (by decide)
    | shortRead n hlen | commit n hlen | finishOnce n hlen | finish n hlen | advance n hlen =>
      exact absurd rfl hlen

theorem Reading.body_turn {m : Message minLen maxLen} {tail : List UInt8} {buffer : Buffer}
    {s₁ : RecvState} {r : RecvResult} {x : Except ErrorCode RecvState}
    (hmin : 2 ≤ minLen.toNat) (hconn : connectionError ≠ .none) (hblock : c.block = false)
    (hr : RecvState.recv ⟨m.bytes ++ tail, buffer, 0, true, false, m.bytes.length,
      m.bytes.length⟩ r = some s₁)
    (hx : Handled c connectionError minLen maxLen s₁ r x) :
    Turn (Reading c m.bytes tail) (Finished m.bytes tail) s₁ x := by
  have htwo := m.two_le hmin
  have hne : m.bytes.length ≠ 0 := by omega
  obtain ⟨rfl, hno⟩ | ⟨n, rfl, _, _, _, rfl⟩ := recv_cases hr
  · exact .of_no_bytes hno hconn hx (.body _ hblock) fun code hcode hc => absurd hc hcode
  · cases hx with
    | malformed n hlen | length n hlen => exact absurd hlen hne
    | wait n hn hone hwait => exact .body _ hblock
    | giveUp n hn hone hwait => exact fun hc => absurd hc (by decide)
    | shortRead n hlen hn hone hstarted | finishOnce n hlen hn hone hstarted =>
      exact absurd hstarted (by simp)
    | commit n hlen hn hmode hno =>
      exact .taking _ 0 true (by omega) (fun i hi => by omega) (Or.inr rfl) (fun _ => rfl)
    | finish n hlen hone hstarted | advance n hlen hone hstarted =>
      simp [mode_of_not_block hblock hone] at hstarted

theorem taking_buffer {m : Message minLen maxLen} (tail : List UInt8) {buffer : Buffer}
    {k n : ℕ} (hn : k + n ≤ m.bytes.length) (hbuf : ∀ i, i < k → buffer i = m.bytes.getD i 0) :
    ∀ i, i < k + n →
      store buffer k ((m.bytes.drop k ++ tail).take n) i = m.bytes.getD i 0 := by
  intro i hi
  by_cases hik : i < k
  · rw [store_lt _ hik]
    exact hbuf i hik
  · have hlen : i - k < (m.bytes.drop k).length := by
      rw [List.length_drop]
      omega
    rw [store_ge (by omega) _ 0, getD_take_append (by omega) hlen]
    · simp only [List.getD, List.getElem?_drop]
      congr 2
      omega
    · rw [List.length_take, List.length_append, List.length_drop]
      omega

theorem drop_taking {m : List UInt8} (tail : List UInt8) {k n : ℕ} (hn : k + n ≤ m.length) :
    (m.drop k ++ tail).drop n = m.drop (k + n) ++ tail := by
  rw [List.drop_append_of_le_length (by rw [List.length_drop]; omega), List.drop_drop]

theorem Reading.taking_turn {m : Message minLen maxLen} {tail : List UInt8} {buffer : Buffer}
    {s₁ : RecvState} {r : RecvResult} {x : Except ErrorCode RecvState} {k : ℕ} {started : Bool}
    (hconn : connectionError ≠ .none) (hk : k < m.bytes.length)
    (hbuf : ∀ i, i < k → buffer i = m.bytes.getD i 0)
    (hc : c.block = true ∨ started = true) (honce : c.tryOnce = true → k = 0)
    (hr : RecvState.recv ⟨m.bytes.drop k ++ tail, buffer, k, false, started,
      m.bytes.length - k, m.bytes.length⟩ r = some s₁)
    (hx : Handled c connectionError minLen maxLen s₁ r x) :
    Turn (Reading c m.bytes tail) (Finished m.bytes tail) s₁ x := by
  have hne : m.bytes.length ≠ 0 := by omega
  have hcommitted : c.tryOnce = true ∨ c.useTimeout = true → started = true := by
    intro hmode
    obtain hblock | hstarted := hc
    · simp [block_of_mode hblock] at hmode
    · exact hstarted
  obtain ⟨rfl, hno⟩ | ⟨n, rfl, hpos, hle, _, rfl⟩ := recv_cases hr
  · exact .of_no_bytes hno hconn hx (.taking _ k started hk hbuf hc honce)
      fun code hcode hc => absurd hc hcode
  · dsimp only at hle
    have hn : k + n ≤ m.bytes.length := by omega
    have hbuf' := taking_buffer tail hn hbuf
    have hdrop := drop_taking tail hn
    have hdelivered : k + n = m.bytes.length → Delivered m.bytes tail
        ⟨(m.bytes.drop k ++ tail).drop n, store buffer k ((m.bytes.drop k ++ tail).take n), k,
          false, started, m.bytes.length - k, m.bytes.length⟩ := by
      intro hall
      constructor
      · rw [hdrop, hall, List.drop_length, List.nil_append]
      · exact fun i hi => hbuf' i (by omega)
    cases hx with
    | malformed n hlen | length n hlen => exact absurd hlen hne
    | wait n hn hone hwait =>
      obtain hlen | ⟨htimeout, hno⟩ := hwait
      · exact absurd hlen hne
      · rw [hcommitted (Or.inr htimeout)] at hno
        exact absurd hno (by simp)
    | giveUp n hn hone hwait => exact fun hc => absurd hc (by decide)
    | shortRead n hlen hn hone hstarted => exact fun hc => absurd hc hconn
    | commit n hlen hn hmode hno =>
      rw [hcommitted hmode] at hno
      exact absurd hno (by simp)
    | finishOnce n hlen hfull hone hstarted =>
      dsimp only at hfull
      exact fun _ => hdelivered (by omega)
    | finish n hlen hone hstarted hdone =>
      dsimp only at hdone
      exact fun _ => hdelivered (by omega)
    | advance n hlen hone hstarted hmore =>
      dsimp only at hmore
      have hnext : Reading c m.bytes tail ⟨m.bytes.drop (k + n) ++ tail, _, k + n, false, true,
          m.bytes.length - (k + n), m.bytes.length⟩ :=
        .taking _ (k + n) true (by omega) hbuf' (Or.inr rfl)
          (fun ho => absurd (hone.symm.trans ho) (by simp))
      rw [← hdrop, Nat.sub_add_eq] at hnext
      exact hnext

/-- One turn at the head message: the call goes on reading it, or returns `NONE` with the
message delivered, or returns another code. -/
theorem Reading.turn {m : Message minLen maxLen} {tail : List UInt8} {s s₁ : RecvState}
    {r : RecvResult} {x : Except ErrorCode RecvState} (h : Reading c m.bytes tail s)
    (hmin : 2 ≤ minLen.toNat) (hconn : connectionError ≠ .none) (hr : s.recv r = some s₁)
    (hx : Handled c connectionError minLen maxLen s₁ r x) :
    Turn (Reading c m.bytes tail) (Finished m.bytes tail) s₁ x := by
  cases h with
  | length buffer => exact Reading.length_turn hmin hconn hr hx
  | body buffer hblock => exact Reading.body_turn hmin hconn hblock hr hx
  | taking buffer k started hk hbuf hc honce =>
    exact Reading.taking_turn hconn hk hbuf hc honce hr hx

/-- A receive call that returns `NONE` with a message at the head of the stream has delivered
that message and taken exactly it. -/
theorem recvGeneric_delivers {call : RecvCall} {m : Message minLen maxLen} {tail : List UInt8}
    {r : RecvReturn} (hmin : 2 ≤ minLen.toNat) (hconn : connectionError ≠ .none)
    (h : recvGeneric connectionError minLen maxLen call (m.bytes ++ tail) = some r)
    (hcode : r.code = .none) : messageAt r.buffer = m.bytes ∧ r.unread = tail := by
  have hreturn := recvGeneric_rule (I := Reading call.config m.bytes tail)
    (fun s s₁ x y hs hx hy => hs.turn hmin hconn hx hy) ?_ (.length _) h
  · obtain ⟨hne, _⟩ | ⟨s, hq, hbuffer, hunread⟩ := hreturn
    · exact absurd hcode hne
    · have hd := hq hcode
      have htwo := m.two_le hmin
      have hfield : lengthField r.buffer = m.bytes.length := by
        rw [← m.length_field, lengthField, lengthField, hbuffer, hd.buffer 0 (by omega),
          hd.buffer 1 (by omega)]
      refine ⟨List.ext_getElem ?_ fun i hi hi' => ?_, hunread.trans hd.unread⟩
      · rw [messageAt_length, hfield]
      · have hbyte := hd.buffer i hi'
        rw [← hbuffer] at hbyte
        simpa [messageAt, bytesAt, List.getD, hi'] using hbyte
  · intro s _ he
    split_ifs at he

theorem recvGeneric_no_length {call : RecvCall} {u : List UInt8} {r : RecvReturn}
    (hconn : connectionError ≠ .none)
    (hu : ¬ (2 ≤ u.length ∧ minLen.toNat ≤ lengthField (fun i => u.getD i 0) ∧
      lengthField (fun i => u.getD i 0) ≤ maxLen.toNat))
    (h : recvGeneric connectionError minLen maxLen call u = some r) : r.code ≠ .none := by
  have hreturn := recvGeneric_rule (I := fun s => s.unread = u ∧ s.msgLength = 0 ∧
      s.expectedSize = 2 ∧ s.offset = 0 ∧ s.peek = true)
    (Q := fun code _ => code ≠ .none) ?_ ?_ ⟨rfl, rfl, rfl, rfl, rfl⟩ h
  · obtain ⟨hne, -⟩ | ⟨s, hq, -⟩ := hreturn
    · exact hne
    · exact hq
  · rintro s s₁ x y ⟨hunread, hlength, hsize, hoffset, hpeek⟩ hx hy
    obtain ⟨rfl, hno⟩ | ⟨n, rfl, -, -, hle, rfl⟩ := recv_cases hx
    · exact .of_no_bytes hno hconn hy ⟨hunread, hlength, hsize, hoffset, hpeek⟩ fun _ hcode => hcode
    · have hkeep : (if s.peek = true then s.unread else s.unread.drop n) = u := by
        rw [if_pos hpeek, hunread]
      cases hy with
      | malformed n hlen hn hbad => exact (by decide : ErrorCode.malformedMessage ≠ .none)
      | giveUp n hn hone hwait => exact (by decide : ErrorCode.recvZeroPending ≠ .none)
      | wait n hn hone hwait => exact ⟨hkeep, hlength, hsize, hoffset, hpeek⟩
      | length n hlen hn hgood =>
        obtain rfl : n = 2 := hn.trans hsize
        rw [hunread] at hle
        have hdecoded := decoded_take s.buffer hle
        rw [RecvState.decoded, hoffset, hunread, hdecoded] at hgood
        exact absurd ⟨hle, hgood⟩ hu
      | shortRead n hlen | commit n hlen | finishOnce n hlen | finish n hlen | advance n hlen =>
        exact absurd hlength hlen
  · intro s _ he
    split_ifs at he

theorem recvGeneric_empty {call : RecvCall} {r : RecvReturn} (hconn : connectionError ≠ .none)
    (h : recvGeneric connectionError minLen maxLen call [] = some r) : r.code ≠ .none :=
  recvGeneric_no_length hconn (fun hlong => absurd hlong.1 (by decide)) h

end Reading

section Arrival

def RecvState.more (s : RecvState) (later : List UInt8) : RecvState :=
  { s with unread := s.unread ++ later }

theorem RecvState.recv_more {s s₁ : RecvState} {r : RecvResult} (h : s.recv r = some s₁)
    (later : List UInt8) : (s.more later).recv r = some (s₁.more later) := by
  obtain ⟨rfl, hno⟩ | ⟨n, rfl, hpos, hle, hlen, rfl⟩ := recv_cases h
  · cases r with
    | bytes n => exact absurd rfl (hno n)
    | stalled | closed | failed => rfl
  · have hlong : n ≤ (s.unread ++ later).length := by
      rw [List.length_append]
      omega
    rw [RecvState.recv, if_pos ⟨hpos, hle, hlong⟩]
    simp only [RecvState.more, List.take_append_of_le_length hlen,
      List.drop_append_of_le_length hlen]
    split_ifs <;> rfl

theorem RecvState.handle_more (s : RecvState) (r : RecvResult) (later : List UInt8) :
    (s.more later).handle c connectionError minLen maxLen r =
      (s.handle c connectionError minLen maxLen r).map (·.more later) := by
  cases r with
  | bytes n =>
    simp only [RecvState.handle, RecvState.more, apply_ite (Except.map _)]
    rfl
  | stalled =>
    simp only [RecvState.handle, apply_ite (Except.map _)]
    rfl
  | closed | failed => rfl

theorem recvLoop_more {env : List (RecvResult × ℕ)} {delta : ℕ} {s s₁ : RecvState}
    {code : ErrorCode} (h : recvLoop c connectionError minLen maxLen env delta s = some (code, s₁))
    (later : List UInt8) : recvLoop c connectionError minLen maxLen env delta (s.more later) =
      some (code, s₁.more later) := by
  induction env generalizing delta s with
  | nil =>
    rw [recvLoop] at h ⊢
    by_cases hgo : (!c.useTimeout || delta < c.timeout) = true
    · rw [if_pos hgo] at h
      exact absurd h (by simp)
    · rw [if_neg hgo] at h ⊢
      obtain ⟨rfl, rfl⟩ := Prod.mk.inj (Option.some.inj h)
      rfl
  | cons turn env ih =>
    obtain ⟨r, elapsed⟩ := turn
    rw [recvLoop] at h ⊢
    by_cases hgo : (!c.useTimeout || delta < c.timeout) = true
    · rw [if_pos hgo] at h ⊢
      cases hr : s.recv r with
      | none => simp [hr] at h
      | some s₂ =>
        simp only [hr] at h
        simp only [RecvState.recv_more hr, RecvState.handle_more]
        cases hx : s₂.handle c connectionError minLen maxLen r with
        | error code' =>
          simp only [hx] at h
          obtain ⟨rfl, rfl⟩ := Prod.mk.inj (Option.some.inj h)
          rfl
        | ok s₃ =>
          simp only [hx] at h
          exact ih h
    · rw [if_neg hgo] at h ⊢
      obtain ⟨rfl, rfl⟩ := Prod.mk.inj (Option.some.inj h)
      rfl

/-- What a call does depends on no byte that it has not seen. -/
theorem recvGeneric_more {call : RecvCall} {u : List UInt8} {r : RecvReturn}
    (h : recvGeneric connectionError minLen maxLen call u = some r) (later : List UInt8) :
    recvGeneric connectionError minLen maxLen call (u ++ later) =
      some { r with unread := r.unread ++ later } := by
  rw [recvGeneric] at h ⊢
  split_ifs at h ⊢
  · obtain rfl := Option.some.inj h
    rfl
  · obtain ⟨⟨code, s⟩, hloop, rfl⟩ := Option.map_eq_some_iff.mp h
    have hmore := recvLoop_more hloop later
    rw [RecvState.more, recvStart] at hmore
    rw [recvStart, hmore]
    rfl

theorem message_begins {u : List UInt8} (hmin : 2 ≤ minLen.toNat)
    (hlower : minLen.toNat ≤ lengthField fun i => u.getD i 0)
    (hupper : (lengthField fun i => u.getD i 0) ≤ maxLen.toNat)
    (hlong : (lengthField fun i => u.getD i 0) ≤ u.length) :
    ∃ (m : Message minLen maxLen) (tail : List UInt8), u = m.bytes ++ tail := by
  obtain ⟨len, hlen⟩ : ∃ len, lengthField (fun i => u.getD i 0) = len := ⟨_, rfl⟩
  rw [hlen] at hlower hupper hlong
  have hlength : (u.take len).length = len := by rw [List.length_take, Nat.min_eq_left hlong]
  have hbyte : ∀ i < 2, (u.take len).getD i 0 = u.getD i 0 := by
    intro i hi
    rw [List.getD_eq_getElem?_getD, List.getD_eq_getElem?_getD,
      List.getElem?_take_of_lt (by omega)]
  have hfield : lengthField (fun i => (u.take len).getD i 0) = (u.take len).length := by
    rw [hlength, lengthField, hbyte 0 (by decide), hbyte 1 (by decide)]
    exact hlen
  exact ⟨⟨u.take len, hfield, by rwa [hlength], by rwa [hlength]⟩, u.drop len,
    (List.take_append_drop len u).symm⟩

/-- A call that returns `NONE`, on any stream, has taken one whole message off it. -/
theorem recvGeneric_takes {call : RecvCall} {u : List UInt8} {r : RecvReturn}
    (hmin : 2 ≤ minLen.toNat) (hconn : connectionError ≠ .none)
    (h : recvGeneric connectionError minLen maxLen call u = some r) (hcode : r.code = .none) :
    ∃ m : Message minLen maxLen, u = m.bytes ++ r.unread ∧ messageAt r.buffer = m.bytes := by
  by_cases hu : 2 ≤ u.length ∧ minLen.toNat ≤ lengthField (fun i => u.getD i 0) ∧
      lengthField (fun i => u.getD i 0) ≤ maxLen.toNat
  · obtain ⟨htwo, hlower, hupper⟩ := hu
    -- the rest of a message that is cut off, which no call has seen
    let later := List.replicate (lengthField (fun i => u.getD i 0) - u.length) (0 : UInt8)
    have hfield := lengthField_append later htwo
    obtain ⟨m, tail, hm⟩ := @message_begins minLen maxLen (u ++ later) hmin (by rwa [hfield])
      (by rwa [hfield]) (by rw [hfield, List.length_append, List.length_replicate]; omega)
    have hmore := recvGeneric_more h later
    rw [hm] at hmore
    obtain ⟨hdelivered, hunread⟩ := recvGeneric_delivers hmin hconn hmore hcode
    refine ⟨m, ?_, hdelivered⟩
    rw [← hunread, ← List.append_assoc] at hm
    exact List.append_cancel_right hm
  · exact absurd hcode (recvGeneric_no_length hconn hu h)

theorem recvGeneric_arrived {call : RecvCall} {ms : List (Message minLen maxLen)}
    {u later : List UInt8} {r : RecvReturn} (hmin : 2 ≤ minLen.toNat)
    (hconn : connectionError ≠ .none) (hu : u ++ later = (ms.map (·.bytes)).flatten)
    (h : recvGeneric connectionError minLen maxLen call u = some r) (hcode : r.code = .none) :
    ∃ m rest, ms = m :: rest ∧ messageAt r.buffer = m.bytes ∧
      r.unread ++ later = (rest.map (·.bytes)).flatten := by
  have hmore := recvGeneric_more h later
  rw [hu] at hmore
  cases ms with
  | nil =>
    rw [List.map_nil, List.flatten_nil] at hmore
    exact (recvGeneric_empty hconn hmore hcode).elim
  | cons m rest =>
    rw [List.map_cons, List.flatten_cons] at hmore
    obtain ⟨hbytes, hunread⟩ := recvGeneric_delivers hmin hconn hmore hcode
    exact ⟨m, rest, rfl, hbytes, hunread⟩

end Arrival

section Session

def unreadAfter (stream : List UInt8) : List RecvReturn → List UInt8
  | [] => stream
  | r :: rs => unreadAfter r.unread rs

def received (rs : List RecvReturn) : List (List UInt8) :=
  rs.filterMap fun r => if r.code = .none then some (messageAt r.buffer) else none

/-- No call has given up in the middle of a message. -/
def Intact (connectionError : ErrorCode) (rs : List RecvReturn) : Prop :=
  ∀ r ∈ rs, r.code ≠ .recvWaitTimeout ∧ r.code ≠ connectionError

def streamOf (ms : List (Message minLen maxLen)) : List UInt8 := (ms.map Message.bytes).flatten

theorem streamOf_cons (m : Message minLen maxLen) (ms : List (Message minLen maxLen)) :
    streamOf (m :: ms) = m.bytes ++ streamOf ms := rfl

theorem recvCalls_cons {call : RecvCall} {calls : List RecvCall} {u : List UInt8}
    {rs : List RecvReturn}
    (h : recvCalls connectionError minLen maxLen (call :: calls) u = some rs) :
    ∃ r rs', recvGeneric connectionError minLen maxLen call u = some r ∧
      recvCalls connectionError minLen maxLen calls r.unread = some rs' ∧ rs = r :: rs' := by
  rw [recvCalls, Option.bind_eq_some_iff] at h
  obtain ⟨r, hr, h⟩ := h
  obtain ⟨rs', hrs', rfl⟩ := Option.map_eq_some_iff.mp h
  exact ⟨r, rs', hr, hrs', rfl⟩

theorem Intact.tail {r : RecvReturn} {rs : List RecvReturn}
    (h : Intact connectionError (r :: rs)) : Intact connectionError rs :=
  fun r' hr' => h r' (List.mem_cons_of_mem r hr')

theorem recv_message {ms : List (Message minLen maxLen)} {call : RecvCall} {r : RecvReturn}
    (hmin : 2 ≤ minLen.toNat) (hconn : connectionError ≠ .none)
    (h : recvGeneric connectionError minLen maxLen call (streamOf ms) = some r)
    (hr : r.code ≠ .recvWaitTimeout ∧ r.code ≠ connectionError) :
    r.code ≠ .none ∧ r.unread = streamOf ms ∨
      r.code = .none ∧ ∃ m tail, ms = m :: tail ∧ messageAt r.buffer = m.bytes ∧
        r.unread = streamOf tail := by
  by_cases hcode : r.code = .none
  · right
    cases ms with
    | nil => exact absurd hcode (recvGeneric_empty hconn h)
    | cons m tail =>
      rw [streamOf_cons] at h
      obtain ⟨hbytes, hunread⟩ := recvGeneric_delivers hmin hconn h hcode
      exact ⟨hcode, m, tail, rfl, hbytes, hunread⟩
  · left
    obtain hn | hc | hw | hu := recvGeneric_keeps hmin h
    · exact absurd hn hcode
    · exact absurd hc hr.2
    · exact absurd hw hr.1
    · exact ⟨hcode, hu⟩

/-- As long as the calls stay intact, what they have delivered is a prefix of the messages and
what is left of the stream is the rest of them. -/
theorem received_of_intact {ms : List (Message minLen maxLen)} {calls : List RecvCall}
    {rs : List RecvReturn} (hmin : 2 ≤ minLen.toNat) (hconn : connectionError ≠ .none)
    (h : recvCalls connectionError minLen maxLen calls (streamOf ms) = some rs)
    (hintact : Intact connectionError rs) :
    ∃ k, k ≤ ms.length ∧ received rs = (ms.take k).map Message.bytes ∧
      unreadAfter (streamOf ms) rs = streamOf (ms.drop k) := by
  induction calls generalizing ms rs with
  | nil =>
    obtain rfl := Option.some.inj h
    exact ⟨0, Nat.zero_le _, rfl, rfl⟩
  | cons call calls ih =>
    obtain ⟨r, rs', hr, hrs', rfl⟩ := recvCalls_cons h
    obtain ⟨hcode, hu⟩ | ⟨hcode, m, tail, rfl, hbytes, hu⟩ :=
      recv_message hmin hconn hr (hintact r List.mem_cons_self)
    · rw [hu] at hrs'
      obtain ⟨k, hk, hreceived, hleft⟩ := ih hrs' hintact.tail
      refine ⟨k, hk, ?_, ?_⟩
      · rw [← hreceived]
        simp [received, hcode]
      · rw [← hleft, unreadAfter, hu]
    · rw [hu] at hrs'
      obtain ⟨k, hk, hreceived, hleft⟩ := ih hrs' hintact.tail
      refine ⟨k + 1, Nat.succ_le_succ hk, ?_, ?_⟩
      · rw [List.take_succ_cons, List.map_cons, ← hreceived, ← hbytes]
        simp [received, hcode]
      · rw [List.drop_succ_cons, ← hleft, unreadAfter, hu]

theorem recvCalls_split {pre post : List RecvReturn} {r : RecvReturn} {calls : List RecvCall}
    {u : List UInt8}
    (h : recvCalls connectionError minLen maxLen calls u = some (pre ++ r :: post)) :
    ∃ earlier call, recvCalls connectionError minLen maxLen earlier u = some pre ∧
      recvGeneric connectionError minLen maxLen call (unreadAfter u pre) = some r := by
  induction pre generalizing calls u with
  | nil =>
    cases calls with
    | nil => simp [recvCalls] at h
    | cons call calls =>
      obtain ⟨r', rs', hr, _, heq⟩ := recvCalls_cons h
      obtain ⟨rfl, _⟩ := List.cons.inj heq
      exact ⟨[], call, rfl, hr⟩
  | cons r₀ pre ih =>
    cases calls with
    | nil => simp [recvCalls] at h
    | cons call calls =>
      obtain ⟨r', rs', hr, hrs', heq⟩ := recvCalls_cons h
      obtain ⟨rfl, rfl⟩ := List.cons.inj heq
      obtain ⟨earlier, call', hearlier, hcall'⟩ := ih hrs'
      refine ⟨call :: earlier, call', ?_, hcall'⟩
      simp [recvCalls, hr, hearlier]

def streamSent (sent : List (ErrorCode × List UInt8)) : List UInt8 :=
  (sent.map Prod.snd).flatten

def messagesIn (sends : List SendCall) : List (List UInt8) :=
  sends.map fun call => messageAt call.buffer

theorem messages_of_sends {sends : List SendCall} {sent : List (ErrorCode × List UInt8)}
    (hmin : 2 ≤ minLen.toNat) (hconn : connectionError ≠ .none)
    (h : sendCalls connectionError minLen maxLen sends = some sent)
    (hnone : ∀ p ∈ sent, p.1 = .none) :
    ∃ ms : List (Message minLen maxLen), ms.map Message.bytes = messagesIn sends ∧
      streamOf ms = streamSent sent := by
  induction sends generalizing sent with
  | nil =>
    obtain rfl := Option.some.inj h
    exact ⟨[], rfl, rfl⟩
  | cons call sends ih =>
    rw [sendCalls, Option.bind_eq_some_iff] at h
    obtain ⟨⟨code, written⟩, hcall, h⟩ := h
    obtain ⟨sent', hsent', rfl⟩ := Option.map_eq_some_iff.mp h
    obtain rfl : code = .none := hnone _ List.mem_cons_self
    obtain ⟨hwritten, m, hm⟩ := sendGeneric_none hcall hconn hmin
    obtain ⟨ms, hms, hstream⟩ := ih hsent' fun p hp => hnone p (List.mem_cons_of_mem _ hp)
    refine ⟨m :: ms, ?_, ?_⟩
    · rw [List.map_cons, hms, hm, hwritten]
      rfl
    · rw [streamOf_cons, hstream, hm]
      rfl

/-- What the receiver of `stream`, written as the messages `sent`, can rely on. -/
structure Framed (connectionError : ErrorCode) (sent : List (List UInt8)) (stream : List UInt8)
    (rs : List RecvReturn) : Prop where
  takes_nothing : ∀ pre r post, rs = pre ++ r :: post →
    r.code = .recvZeroPending ∨ r.code = .malformedMessage → r.unread = unreadAfter stream pre
  delivers : ∀ pre r post, rs = pre ++ r :: post → Intact connectionError pre →
    r.code = .none → unreadAfter stream pre = messageAt r.buffer ++ r.unread ∧
      received pre ++ [messageAt r.buffer] <+: sent
  received_prefix : Intact connectionError rs →
    received rs <+: sent ∧ stream = (received rs).flatten ++ unreadAfter stream rs

theorem ErrorCode.Broken.ne {e : ErrorCode} (h : e.Broken) :
    e ≠ .none ∧ e ≠ .recvZeroPending ∧ e ≠ .malformedMessage := by
  obtain rfl | rfl | rfl := h <;> decide

/-- Calls on a stream of messages written by send calls that all returned `NONE`. -/
theorem framed_while_intact {sendError : ErrorCode} {sends : List SendCall}
    {sent : List (ErrorCode × List UInt8)} {calls : List RecvCall} {rs : List RecvReturn}
    (hmin : 2 ≤ minLen.toNat) (hsendError : sendError.Broken)
    (hconnectionError : connectionError.Broken)
    (hsends : sendCalls sendError minLen maxLen sends = some sent)
    (hnone : ∀ p ∈ sent, p.1 = .none)
    (hcalls : recvCalls connectionError minLen maxLen calls (streamSent sent) = some rs) :
    Framed connectionError (messagesIn sends) (streamSent sent) rs := by
  obtain ⟨hconn, hzero, hmalformed⟩ := hconnectionError.ne
  obtain ⟨ms, hms, hstream⟩ := messages_of_sends hmin hsendError.ne.1 hsends hnone
  rw [← hms, ← hstream]
  rw [← hstream] at hcalls
  constructor
  · intro pre r post hrs hcode
    rw [hrs] at hcalls
    obtain ⟨earlier, call, _, hcall⟩ := recvCalls_split hcalls
    obtain hn | hc | hw | hu := recvGeneric_keeps hmin hcall
    · obtain h | h := hcode <;> rw [hn] at h <;> exact absurd h (by decide)
    · obtain h | h := hcode
      · exact absurd (hc.symm.trans h) hzero
      · exact absurd (hc.symm.trans h) hmalformed
    · obtain h | h := hcode <;> rw [hw] at h <;> exact absurd h (by decide)
    · exact hu
  · intro pre r post hrs hintact hcode
    rw [hrs] at hcalls
    obtain ⟨earlier, call, hearlier, hcall⟩ := recvCalls_split hcalls
    obtain ⟨k, hk, hreceived, hleft⟩ := received_of_intact hmin hconn hearlier hintact
    have hsplit : ms = ms.take k ++ ms.drop k := (List.take_append_drop k ms).symm
    rw [hleft] at hcall ⊢
    cases hdrop : ms.drop k with
    | nil =>
      rw [hdrop] at hcall
      exact absurd hcode (recvGeneric_empty hconn hcall)
    | cons m tail =>
      rw [hdrop, streamOf_cons] at hcall
      obtain ⟨hbytes, hunread⟩ := recvGeneric_delivers hmin hconn hcall hcode
      rw [hdrop] at hsplit
      refine ⟨?_, tail.map Message.bytes, ?_⟩
      · rw [hbytes, hunread, streamOf_cons]
      · rw [hreceived, hbytes]
        conv_rhs => rw [hsplit]
        simp
  · intro hintact
    obtain ⟨k, hk, hreceived, hleft⟩ := received_of_intact hmin hconn hcalls hintact
    rw [hreceived, hleft]
    constructor
    · exact (List.take_prefix k ms).map _
    · rw [streamOf, streamOf, ← List.flatten_append, ← List.map_append, List.take_append_drop]

def twoSends : List SendCall :=
  [⟨⟨.rxTxBlocking, 0⟩, some false, fun i => [4, 0, 2, 0].getD i 0,
    [(.accepted 3, 0), (.stalled, 0), (.accepted 1, 0)]⟩,
   ⟨⟨.rxTxTimeout, 10⟩, some true, fun i => [2, 0].getD i 0, [(.accepted 2, 1)]⟩]

theorem framed_while_intact_two :
    ∃ rs, recvCalls .mixnetConnectionBroken 2 4
        [⟨⟨.rxTryOnce, 0⟩, some true, fun _ => 0, [(.bytes 2, 0), (.bytes 3, 0)]⟩,
         ⟨⟨.rxTxTimeout, 10⟩, some true, fun _ => 0,
          [(.bytes 2, 0), (.bytes 4, 1), (.bytes 3, 2), (.bytes 1, 3)]⟩,
         ⟨⟨.rxTxBlocking, 0⟩, some true, fun _ => 0, [(.bytes 1, 0), (.bytes 2, 0),
          (.bytes 2, 0)]⟩] [4, 0, 2, 0, 2, 0] = some rs ∧
      rs.map (·.code) = [.recvZeroPending, .none, .none] ∧
      Framed .mixnetConnectionBroken [[4, 0, 2, 0], [2, 0]] [4, 0, 2, 0, 2, 0] rs := by
  have hsends : sendCalls .ctrlConnectionBroken 2 4 twoSends =
      some [(.none, [4, 0, 2, 0]), (.none, [2, 0])] := by decide +kernel
  have hcodes : (recvCalls .mixnetConnectionBroken 2 4
      [⟨⟨.rxTryOnce, 0⟩, some true, fun _ => 0, [(.bytes 2, 0), (.bytes 3, 0)]⟩,
       ⟨⟨.rxTxTimeout, 10⟩, some true, fun _ => 0,
        [(.bytes 2, 0), (.bytes 4, 1), (.bytes 3, 2), (.bytes 1, 3)]⟩,
       ⟨⟨.rxTxBlocking, 0⟩, some true, fun _ => 0, [(.bytes 1, 0), (.bytes 2, 0),
        (.bytes 2, 0)]⟩] [4, 0, 2, 0, 2, 0]).map (·.map (·.code)) =
      some [.recvZeroPending, .none, .none] := by decide +kernel
  obtain ⟨rs, hrs, hmap⟩ := Option.map_eq_some_iff.mp hcodes
  refine ⟨rs, hrs, hmap, ?_⟩
  exact framed_while_intact (by decide) (Or.inl rfl) (Or.inr (Or.inr rfl)) hsends (by decide) hrs

/-- A call whose time is up in the middle of a message leaves the rest of it at the head of the
stream, where the next call takes it for a message. -/
theorem message_split_after_timeout :
    sendCalls .ctrlConnectionBroken 2 4 (twoSends.take 1) = some [(.none, [4, 0, 2, 0])] ∧
      (recvCalls .ctrlConnectionBroken 2 4
        [⟨⟨.rxTxTimeout, 10⟩, some true, fun _ => 0,
          [(.bytes 2, 0), (.bytes 4, 0), (.bytes 2, 100)]⟩,
         ⟨⟨.rxTxBlocking, 0⟩, some true, fun _ => 0, [(.bytes 2, 0), (.bytes 2, 0)]⟩]
        [4, 0, 2, 0]).map (·.map fun r => (r.code, r.unread)) =
        some [(.recvWaitTimeout, [2, 0]), (.none, [])] ∧
      (recvCalls .ctrlConnectionBroken 2 4
        [⟨⟨.rxTxTimeout, 10⟩, some true, fun _ => 0,
          [(.bytes 2, 0), (.bytes 4, 0), (.bytes 2, 100)]⟩,
         ⟨⟨.rxTxBlocking, 0⟩, some true, fun _ => 0, [(.bytes 2, 0), (.bytes 2, 0)]⟩]
        [4, 0, 2, 0]).map received = some [[2, 0]] ∧
      [2, 0] ∉ messagesIn (twoSends.take 1) := by
  decide +kernel

end Session

end Mixnet
