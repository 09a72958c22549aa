import Mixnet.Duality
import Mixnet.Session

/-! The protocol between the orchestrator and one fragment: which message takes either of them from
one stage to the next. -/
namespace Mixnet.Session
open Codec (MessageType)
open Requests (RequestType)

def Phase.rank : Phase → ℕ
  | .setupPcap => 2
  | .topology => 6
  | .startMixnetServer => 8
  | .startMixnetClients => 10
  | .resolveMixnetConns => 12
  | .startTestcase => 14
  | .endTestcase => 16
  | .shutdown => 18

def Stage.rank : Stage → ℕ
  | .hello .ctrl => 0
  | .welcome .ctrl => 1
  | .hello .pcap => 4
  | .welcome .pcap => 5
  | .request p => p.rank
  | .answer p => p.rank + 1
  | .reply _ => 16
  | .done => 20

def Stage.channel : Stage → Option (Overlay × Bool)
  | .hello v => some (v, false)
  | .welcome v => some (v, true)
  | .request _ => some (.ctrl, true)
  | .answer _ | .reply _ => some (.ctrl, false)
  | .done => none

def Stage.step : Stage → MessageType → Option Stage
  | .hello v, t => if t = v.type then some (.welcome v) else none
  | .welcome v, t => if t = v.type then some v.after else none
  | .request .endTestcase, t => dispatch t
  | .request p, t => if t = p.type then some (.answer p) else none
  | .answer p, t => if t = p.type then some p.after else none
  | .reply r, t => if t = r.type then some (.request .endTestcase) else none
  | .done, _ => none

structure Label where
  overlay : Overlay
  isRequest : Bool
  type : MessageType
deriving DecidableEq

def Label.channel (a : Label) : Overlay × Bool := (a.overlay, a.isRequest)

def protocol : Duality.Protocol Stage Label (Overlay × Bool) where
  next s a := if s.channel = some a.channel then s.step a.type else none
  chan := Label.channel
  directed := by
    intro s a b x y ha hb
    have hchan : ∀ {c z}, (if s.channel = some (Label.channel c) then s.step c.type else none) =
        some z → s.channel = some c.channel := fun {c z} h => by
      by_contra hne
      rw [if_neg hne] at h
      exact absurd h (by simp)
    exact Option.some.inj ((hchan ha).symm.trans (hchan hb))

variable {s s' x y : Stage} {a b : Label}

theorem next_iff : protocol.next s a = some s' ↔
    s.channel = some a.channel ∧ s.step a.type = some s' := by
  change (if s.channel = some a.channel then s.step a.type else none) = some s' ↔ _
  split_ifs with hchan
  · simp [hchan]
  · simp [hchan]

theorem dispatch_cases {t : MessageType} (h : dispatch t = some s) :
    (∃ r : RequestType, t = r.type ∧ s = .reply r) ∨
      t = .endTestcase ∧ s = .answer .endTestcase := by
  cases t with
  | changeLinkState => exact Or.inl ⟨.changeLinkState, rfl, (Option.some.inj h).symm⟩
  | pcapSubscription => exact Or.inl ⟨.pcapSubscription, rfl, (Option.some.inj h).symm⟩
  | sendPacket => exact Or.inl ⟨.sendPacket, rfl, (Option.some.inj h).symm⟩
  | endTestcase => exact Or.inr ⟨rfl, (Option.some.inj h).symm⟩
  | _ => exact absurd h (by simp [dispatch])

theorem dispatch_request (r : RequestType) : dispatch r.type = some (.reply r) := by
  cases r <;> rfl

theorem step_request {p : Phase} {t : MessageType} (hp : p ≠ .endTestcase)
    (h : (Stage.request p).step t = some s) : t = p.type ∧ s = .answer p := by
  cases p with
  | endTestcase => exact absurd rfl hp
  | _ =>
    simp only [Stage.step] at h
    split_ifs at h with ht
    exact ⟨ht, (Option.some.inj h).symm⟩

theorem step_rank {t : MessageType} (h : s.step t = some s') :
    s.rank ≤ s'.rank ∧ s'.rank ≤ s.rank + 1 := by
  cases s with
  | hello v => cases v <;> simp only [Stage.step] at h <;> split_ifs at h <;> cases h <;> decide
  | welcome v => cases v <;> simp only [Stage.step] at h <;> split_ifs at h <;> cases h <;> decide
  | request p =>
    cases p with
    | endTestcase =>
      obtain ⟨r, -, rfl⟩ | ⟨-, rfl⟩ := dispatch_cases h
      · exact ⟨Nat.le_refl 16, Nat.le_succ 16⟩
      · decide
    | _ =>
      obtain ⟨-, rfl⟩ := step_request (by decide) h
      decide
  | answer p => cases p <;> simp only [Stage.step] at h <;> split_ifs at h <;> cases h <;> decide
  | reply r =>
    simp only [Stage.step] at h
    split_ifs at h
    cases h
    exact ⟨Nat.le_refl 16, Nat.le_succ 16⟩
  | done => exact absurd h (by simp [Stage.step])

theorem response_unique {v : Overlay} (hs : s.channel = some (v, false)) {t t' : MessageType}
    (hx : s.step t = some x) (hy : s.step t' = some y) : t = t' ∧ x = y := by
  cases s with
  | hello v =>
    simp only [Stage.step] at hx hy
    split_ifs at hx hy with ht ht'
    exact ⟨ht.trans ht'.symm, Option.some.inj (hx.symm.trans hy)⟩
  | answer p =>
    simp only [Stage.step] at hx hy
    split_ifs at hx hy with ht ht'
    exact ⟨ht.trans ht'.symm, Option.some.inj (hx.symm.trans hy)⟩
  | reply r =>
    simp only [Stage.step] at hx hy
    split_ifs at hx hy with ht ht'
    exact ⟨ht.trans ht'.symm, Option.some.inj (hx.symm.trans hy)⟩
  | welcome v => simp [Stage.channel] at hs
  | request p => simp [Stage.channel] at hs
  | done => simp [Stage.channel] at hs

theorem request_at {r : ℕ} (hs : s.rank = r) (hr : r ∈ [1, 2, 5, 6, 8, 10, 12, 14, 18])
    (v : Overlay) :
    s.channel ≠ some (v, false) := by
  subst hs
  cases s with
  | hello u => cases u <;> exact absurd hr (by decide)
  | answer p => cases p <;> exact absurd hr (by decide)
  | reply t => simp [Stage.rank] at hr
  | welcome u => simp [Stage.channel]
  | request p => simp [Stage.channel]
  | done => simp [Stage.channel]

theorem response_at {r : ℕ} (hs : s.rank = r) (hr : r ∈ [0, 3, 4, 7, 9, 11, 13, 15, 17, 19])
    (v : Overlay) : s.channel ≠ some (v, true) := by
  subst hs
  cases s with
  | welcome u => cases u <;> exact absurd hr (by decide)
  | request p => cases p <;> exact absurd hr (by decide)
  | hello u => simp [Stage.channel]
  | answer p => simp [Stage.channel]
  | reply t => simp [Stage.channel]
  | done => simp [Stage.channel]

def ofOrc (c : Overlay × Bool) : Bool := c.2

variable {queue : Overlay × Bool → List Label}

/-- A stage that no response leads to is not behind the orchestrator's back. -/
theorem orc_reaches (h : protocol.Coherent ofOrc x y queue) {r : ℕ}
    (hr : ∀ s : Stage, s.rank + 1 = r → ∀ v, s.channel ≠ some (v, false)) (hy : r ≤ y.rank) :
    r ≤ x.rank := by
  have hup : ∀ s a s', r ≤ s.rank → protocol.next s a = some s' → r ≤ s'.rank :=
    fun s a s' hs hnext => Nat.le_trans hs (step_rank (next_iff.mp hnext).2).1
  obtain h | h := h
  · exact h.keeps (I := fun s => r ≤ s.rank) hy fun s a s' hs _ => hup s a s' hs
  · by_contra hlt
    refine absurd hy (Nat.not_le.mpr ?_)
    refine h.keeps (I := fun s => s.rank < r) (Nat.not_le.mp hlt) fun s a s' hs ha hnext => ?_
    obtain ⟨hchan, hstep⟩ := next_iff.mp hnext
    have hresponse : a.channel = (a.overlay, false) :=
      Prod.ext rfl (by simpa [ofOrc, protocol] using ha)
    have hrank := (step_rank hstep).2
    have hne : s.rank + 1 ≠ r := fun he => hr s he a.overlay (hchan.trans (by rw [hresponse]))
    omega

/-- A stage that no request leads to is reached by the fragment first. -/
theorem fragment_reaches (h : protocol.Coherent ofOrc x y queue) {r : ℕ}
    (hr : ∀ s : Stage, s.rank + 1 = r → ∀ v, s.channel ≠ some (v, true)) (hx : r ≤ x.rank) :
    r ≤ y.rank := by
  have hup : ∀ s a s', r ≤ s.rank → protocol.next s a = some s' → r ≤ s'.rank :=
    fun s a s' hs hnext => Nat.le_trans hs (step_rank (next_iff.mp hnext).2).1
  obtain h | h := h
  · by_contra hlt
    refine absurd hx (Nat.not_le.mpr ?_)
    refine h.keeps (I := fun s => s.rank < r) (Nat.not_le.mp hlt) fun s a s' hs ha hnext => ?_
    obtain ⟨hchan, hstep⟩ := next_iff.mp hnext
    have hrequest : a.channel = (a.overlay, true) :=
      Prod.ext rfl (by simpa [ofOrc, protocol] using ha)
    have hrank := (step_rank hstep).2
    have hne : s.rank + 1 ≠ r := fun he => hr s he a.overlay (hchan.trans (by rw [hrequest]))
    omega
  · exact h.keeps (I := fun s => r ≤ s.rank) hx fun s a s' hs _ => hup s a s' hs

theorem pcap_silent (h : protocol.Coherent ofOrc x y queue)
    (hx : (Stage.welcome .pcap).rank ≤ x.rank) :
    queue (.pcap, false) = [] := by
  obtain h | h := h
  · exact h.queue_of_other rfl
  · refine h.queue_nil (I := fun s => (Stage.welcome .pcap).rank ≤ s.rank) hx
      fun s a s' hs _ hnext => ?_
    obtain ⟨hchan, hstep⟩ := next_iff.mp hnext
    refine ⟨Nat.le_trans hs (step_rank hstep).1, fun hpcap => ?_⟩
    have hs' : s.channel = some (.pcap, false) := hchan.trans (congrArg some hpcap)
    cases s with
    | hello v =>
      obtain rfl : v = .pcap := by simpa [Stage.channel] using hs'
      exact absurd hs (by decide)
    | _ => simp [Stage.channel] at hs'

end Mixnet.Session
