import Mixnet.Networking

/-! One turn of the loop of `recv_generic`, case by case, and the rules for the loop and for a
call that come from it. -/
namespace Mixnet

theorem block_of_mode {c : Config} : c.block = true → c.tryOnce = false ∧ c.useTimeout = false := by
  intro h
  cases hm : c.mode <;> simp_all [Config.block, Config.tryOnce, Config.useTimeout]

theorem mode_of_not_block {c : Config} :
    c.block = false → c.tryOnce = false → c.useTimeout = true := by
  intro h h'
  cases hm : c.mode <;> simp_all [Config.block, Config.tryOnce, Config.useTimeout]

theorem recv_cases {s s₁ : RecvState} {r : RecvResult} (h : s.recv r = some s₁) :
    s₁ = s ∧ (∀ n, r ≠ .bytes n) ∨ ∃ n, r = .bytes n ∧ 0 < n ∧ n ≤ s.expectedSize ∧
      n ≤ s.unread.length ∧ s₁ = { s with
        buffer := store s.buffer s.offset (s.unread.take n)
        unread := if s.peek then s.unread else s.unread.drop n } := by
  cases r with
  | bytes n =>
    rw [RecvState.recv] at h
    by_cases hn : 0 < n ∧ n ≤ s.expectedSize ∧ n ≤ s.unread.length
    · rw [if_pos hn] at h
      obtain rfl := Option.some.inj h
      exact Or.inr ⟨n, rfl, hn.1, hn.2.1, hn.2.2, rfl⟩
    · rw [if_neg hn] at h
      exact absurd h (by simp)
  | stalled | closed | failed =>
    obtain rfl := Option.some.inj h
    exact Or.inl ⟨rfl, by simp⟩

def RecvState.decoded (s : RecvState) : ℕ := lengthField fun i => s.buffer (s.offset + i)

variable (c : Config) (connectionError : ErrorCode) (minLen maxLen : UInt16)

inductive Handled (s : RecvState) : RecvResult → Except ErrorCode RecvState → Prop
  | failed : Handled s .failed (.error connectionError)
  | closed : Handled s .closed (.error connectionError)
  | stalledOnce (hone : c.tryOnce = true) : Handled s .stalled (.error .recvZeroPending)
  | stalled (hone : c.tryOnce = false) : Handled s .stalled (.ok s)
  | malformed (n : ℕ) (hlen : s.msgLength = 0) (hn : n = s.expectedSize)
      (hbad : s.decoded < minLen.toNat ∨ maxLen.toNat < s.decoded) :
      Handled s (.bytes n) (.error .malformedMessage)
  | length (n : ℕ) (hlen : s.msgLength = 0) (hn : n = s.expectedSize)
      (hgood : minLen.toNat ≤ s.decoded ∧ s.decoded ≤ maxLen.toNat) :
      Handled s (.bytes n) (.ok { s with
        msgLength := s.decoded
        expectedSize := s.decoded
        peek := if c.block then false else s.peek })
  | wait (n : ℕ) (hn : n ≠ s.expectedSize) (hone : c.tryOnce = false)
      (hwait : s.msgLength = 0 ∨ c.useTimeout = true ∧ s.recvStarted = false) :
      Handled s (.bytes n) (.ok s)
  | giveUp (n : ℕ) (hn : n ≠ s.expectedSize) (hone : c.tryOnce = true)
      (hwait : s.msgLength = 0 ∨ s.recvStarted = false) :
      Handled s (.bytes n) (.error .recvZeroPending)
  | shortRead (n : ℕ) (hlen : s.msgLength ≠ 0) (hn : n ≠ s.expectedSize)
      (hone : c.tryOnce = true) (hstarted : s.recvStarted = true) :
      Handled s (.bytes n) (.error connectionError)
  | commit (n : ℕ) (hlen : s.msgLength ≠ 0) (hn : n = s.expectedSize)
      (hmode : c.tryOnce = true ∨ c.useTimeout = true) (hstarted : s.recvStarted = false) :
      Handled s (.bytes n) (.ok { s with peek := false, recvStarted := true })
  | finishOnce (n : ℕ) (hlen : s.msgLength ≠ 0) (hn : n = s.expectedSize)
      (hone : c.tryOnce = true) (hstarted : s.recvStarted = true) :
      Handled s (.bytes n) (.error .none)
  | finish (n : ℕ) (hlen : s.msgLength ≠ 0) (hone : c.tryOnce = false)
      (hstarted : c.useTimeout = false ∨ s.recvStarted = true)
      (hdone : s.expectedSize - n = 0) : Handled s (.bytes n) (.error .none)
  | advance (n : ℕ) (hlen : s.msgLength ≠ 0) (hone : c.tryOnce = false)
      (hstarted : c.useTimeout = false ∨ s.recvStarted = true)
      (hmore : s.expectedSize - n ≠ 0) : Handled s (.bytes n) (.ok { s with
        recvStarted := true
        expectedSize := s.expectedSize - n
        offset := s.offset + n })

variable {c connectionError minLen maxLen}

theorem handled_length (s : RecvState) (n : ℕ) (hlen : s.msgLength = 0) :
    Handled c connectionError minLen maxLen s (.bytes n)
      (s.handle c connectionError minLen maxLen (.bytes n)) := by
  rw [RecvState.handle, if_pos hlen]
  by_cases hfull : n = s.expectedSize
  · rw [if_pos hfull]
    change Handled c connectionError minLen maxLen s _
      (if s.decoded < minLen.toNat ∨ maxLen.toNat < s.decoded then _ else _)
    by_cases hbad : s.decoded < minLen.toNat ∨ maxLen.toNat < s.decoded
    · rw [if_pos hbad]
      exact .malformed n hlen hfull hbad
    · rw [if_neg hbad]
      exact .length n hlen hfull (by omega)
  · rw [if_neg hfull]
    cases hone : c.tryOnce with
    | true => exact .giveUp n hfull hone (Or.inl hlen)
    | false => exact .wait n hfull hone (Or.inl hlen)

theorem handled_body (s : RecvState) (n : ℕ) (hlen : s.msgLength ≠ 0) :
    Handled c connectionError minLen maxLen s (.bytes n)
      (s.handle c connectionError minLen maxLen (.bytes n)) := by
  rw [RecvState.handle, if_neg hlen]
  by_cases hcheck : (c.tryOnce || (c.useTimeout && !s.recvStarted)) = true
  · rw [if_pos hcheck]
    by_cases hfull : n = s.expectedSize
    · rw [if_pos hfull]
      cases hstarted : s.recvStarted with
      | false => exact .commit n hlen hfull (by simpa [hstarted] using hcheck) hstarted
      | true => exact .finishOnce n hlen hfull (by simpa [hstarted] using hcheck) hstarted
    · rw [if_neg hfull]
      cases hone : c.tryOnce with
      | false =>
        have htimeout : c.useTimeout = true ∧ s.recvStarted = false := by
          simpa [hone] using hcheck
        exact .wait n hfull hone (Or.inr htimeout)
      | true =>
        cases hstarted : s.recvStarted with
        | false => exact .giveUp n hfull hone (Or.inr hstarted)
        | true => exact .shortRead n hlen hfull hone hstarted
  · rw [if_neg hcheck]
    have hmode : c.tryOnce = false ∧ (c.useTimeout = false ∨ s.recvStarted = true) := by
      cases hone : c.tryOnce <;> cases htimeout : c.useTimeout <;>
        cases hstarted : s.recvStarted <;> simp_all
    dsimp only
    by_cases hdone : s.expectedSize - n = 0
    · rw [if_pos hdone]
      exact .finish n hlen hmode.1 hmode.2 hdone
    · rw [if_neg hdone]
      exact .advance n hlen hmode.1 hmode.2 hdone

theorem handled (s : RecvState) (r : RecvResult) : Handled c connectionError minLen maxLen s r
    (s.handle c connectionError minLen maxLen r) := by
  cases r with
  | failed => exact .failed
  | closed => exact .closed
  | stalled =>
    cases hone : c.tryOnce with
    | true =>
      rw [RecvState.handle, hone]
      exact .stalledOnce hone
    | false =>
      rw [RecvState.handle, hone]
      exact .stalled hone
  | bytes n =>
    by_cases hlen : s.msgLength = 0
    · exact handled_length s n hlen
    · exact handled_body s n hlen

def Turn (I : RecvState → Prop) (Q : ErrorCode → RecvState → Prop) (s : RecvState) :
    Except ErrorCode RecvState → Prop
  | .ok s' => I s'
  | .error code => Q code s

/-- The loop rule of `recv_generic`: `I` holds at the head of every turn, and the call returns
with `Q`, from within a turn or because its time is up. -/
theorem recvLoop_rule {I : RecvState → Prop} {Q : ErrorCode → RecvState → Prop}
    (hturn : ∀ s s₁ r x, I s → s.recv r = some s₁ →
      Handled c connectionError minLen maxLen s₁ r x → Turn I Q s₁ x)
    (hexit : ∀ s, I s → Q (if s.recvStarted then .recvWaitTimeout else .recvZeroPending) s)
    (env : List (RecvResult × ℕ)) (delta : ℕ) {s s' : RecvState} {code : ErrorCode} (h : I s)
    (hl : recvLoop c connectionError minLen maxLen env delta s = some (code, s')) :
    Q code s' := by
  have hout : ∀ {t : RecvState}, I t → some (if t.recvStarted then ErrorCode.recvWaitTimeout
      else .recvZeroPending, t) = some (code, s') → Q code s' := by
    intro t ht he
    obtain ⟨rfl, rfl⟩ := Prod.mk.inj (Option.some.inj he)
    exact hexit t ht
  induction env generalizing delta s with
  | nil =>
    unfold recvLoop at hl
    by_cases hrun : (!c.useTimeout || delta < c.timeout) = true
    · rw [if_pos hrun] at hl
      exact absurd hl (by simp)
    · rw [if_neg hrun] at hl
      exact hout h hl
  | cons turn env ih =>
    obtain ⟨r, elapsed⟩ := turn
    unfold recvLoop at hl
    by_cases hrun : (!c.useTimeout || delta < c.timeout) = true
    · rw [if_pos hrun] at hl
      dsimp only at hl
      cases hr : s.recv r with
      | none => simp [hr] at hl
      | some s₁ =>
        have hnext := hturn s s₁ r _ h hr (handled s₁ r)
        rw [hr] at hl
        dsimp only at hl
        cases hx : s₁.handle c connectionError minLen maxLen r with
        | error code' =>
          rw [hx] at hl hnext
          obtain ⟨rfl, rfl⟩ := Prod.mk.inj (Option.some.inj hl)
          exact hnext
        | ok s₂ =>
          rw [hx] at hl hnext
          exact ih _ hnext hl
    · rw [if_neg hrun] at hl
      exact hout h hl

theorem recvGeneric_rule {I : RecvState → Prop} {Q : ErrorCode → RecvState → Prop}
    {call : RecvCall} {u : List UInt8} {ret : RecvReturn}
    (hturn : ∀ s s₁ r x, I s → s.recv r = some s₁ →
      Handled call.config connectionError minLen maxLen s₁ r x → Turn I Q s₁ x)
    (hexit : ∀ s, I s → Q (if s.recvStarted then .recvWaitTimeout else .recvZeroPending) s)
    (hstart : I (recvStart call u))
    (h : recvGeneric connectionError minLen maxLen call u = some ret) :
    ret.code ≠ .none ∧ ret.unread = u ∨
      ∃ s, Q ret.code s ∧ ret.buffer = s.buffer ∧ ret.unread = s.unread := by
  rw [recvGeneric] at h
  by_cases hv : validate call.flags call.config false ≠ .none
  · rw [if_pos hv] at h
    obtain rfl := Option.some.inj h
    exact Or.inl ⟨hv, rfl⟩
  · rw [if_neg hv] at h
    obtain ⟨p, hp, rfl⟩ := Option.map_eq_some_iff.mp h
    exact Or.inr ⟨p.2, recvLoop_rule hturn hexit call.env 0 hstart hp, rfl, rfl⟩

end Mixnet
