import Mathlib.Data.List.GetD
import Mathlib.Data.Set.Function
import Mixnet.SessionProtocol

/-! What holds between the orchestrator and its fragments in every state: the stage that the
orchestrator has reached for a process, the descriptors and ids that go with it, and the messages
on their way. -/
namespace Mixnet.Session
open Codec (MessageType)
open Orchestrator (World)
open Requests (RequestType)

section Numbers
variable {n : ℕ} {l : List ℕ}

theorem getD_bijOn (hnodup : l.Nodup) (hlt : ∀ q ∈ l, q < n) (hlen : l.length = n) :
    Set.BijOn (fun idx => l.getD idx n) (Set.Iio n) (Set.Iio n) := by
  subst hlen
  have hget : ∀ {idx} (h : idx < l.length), l.getD idx l.length = l[idx] := fun h =>
    List.getD_eq_getElem _ _ h
  refine ⟨fun idx hidx => ?_, fun i hi j hj he => ?_, fun q hq => ?_⟩
  · change l.getD idx l.length < l.length
    rw [hget hidx]
    exact hlt _ (List.getElem_mem _)
  · dsimp only at he
    rw [hget hi, hget hj] at he
    exact (List.Nodup.getElem_inj_iff hnodup).mp he
  · have hsub : l.Subperm (List.range l.length) :=
      List.subperm_of_subset hnodup fun p hp => List.mem_range.mpr (hlt p hp)
    have hperm := hsub.perm_of_length_le (by rw [List.length_range])
    obtain ⟨idx, hidx, rfl⟩ := List.getElem_of_mem (hperm.mem_iff.mpr (List.mem_range.mpr hq))
    exact ⟨idx, hidx, hget hidx⟩

theorem getD_append_of_ne {m : List ℕ} {idx : ℕ} (h : l.getD idx n ≠ n) :
    (l ++ m).getD idx n = l.getD idx n := by
  have hlt : idx < l.length := by
    by_contra hge
    exact h (List.getD_eq_default _ _ (Nat.not_lt.mp hge))
  exact List.getD_append _ _ _ _ hlt

end Numbers

section Steps

/-- The stage of a process before a step of the orchestrator has got to it. -/
def Op.before : Op → Stage
  | .accept v | .hello v => .hello v
  | .welcome v => .welcome v
  | .request p => .request p
  | .answers p => .answer p
  | .testcase => .request .endTestcase
  | .finished => .done

def Op.after : Op → Stage
  | .accept v => .hello v
  | .hello v => .welcome v
  | .welcome v => v.after
  | .request p => .answer p
  | .answers p => p.after
  | .testcase => .request .endTestcase
  | .finished => .done

def Op.receives : Op → Bool
  | .hello _ | .answers _ => true
  | _ => false

def Op.met (op : Op) (v : Overlay) : Prop := op ≠ .accept v ∧ (Stage.hello v).rank ≤ op.before.rank

theorem next_before (op : Op) {ec : ErrorCode} (hec : op ≠ .testcase → ec = .none) :
    (op.next ec).before = op.after := by
  cases op with
  | testcase =>
    unfold Op.next
    split_ifs <;> rfl
  | accept v =>
    rw [hec (by simp)]
    rfl
  | hello v =>
    rw [hec (by simp)]
    rfl
  | welcome v =>
    rw [hec (by simp)]
    cases v <;> rfl
  | request p =>
    rw [hec (by simp)]
    rfl
  | answers p =>
    rw [hec (by simp)]
    cases p <;> rfl
  | finished =>
    rw [hec (by simp)]
    rfl

theorem Op.after_rank (op : Op) :
    op.before.rank ≤ op.after.rank ∧ op.after.rank ≤ op.before.rank + 1 := by
  cases op with
  | accept v | hello v | welcome v => cases v <;> decide
  | request p | answers p => cases p <;> decide
  | testcase | finished => decide

theorem Op.after_past {op : Op} {v : Overlay} (hop : op ≠ .hello v) :
    (Stage.hello v).rank < op.after.rank ↔ (Stage.hello v).rank < op.before.rank := by
  cases op with
  | accept u => exact Iff.rfl
  | hello u =>
    cases u <;> cases v
    · exact absurd rfl hop
    · decide
    · decide
    · exact absurd rfl hop
  | welcome u => cases u <;> cases v <;> decide
  | request p => cases p <;> cases v <;> decide
  | answers p => cases p <;> cases v <;> decide
  | testcase => cases v <;> decide
  | finished => cases v <;> decide

theorem Op.sends_next {op : Op} {type : MessageType} (h : op.sends = some type) :
    protocol.next op.before ⟨op.overlay, true, type⟩ = some op.after := by
  cases op with
  | welcome v =>
    obtain rfl := Option.some.inj h
    cases v <;> rfl
  | request p =>
    obtain rfl := Option.some.inj h
    cases p <;> rfl
  | accept v | hello v | answers p => exact absurd h (by simp [Op.sends])
  | testcase | finished => exact absurd h (by simp [Op.sends])

theorem Op.pcap_next {op : Op} : op.before.rank < (Stage.hello .pcap).rank →
    (Stage.hello .pcap).rank ≤ op.after.rank → op = .answers .setupPcap := by
  cases op with
  | accept v | hello v | welcome v => cases v <;> decide
  | request p | answers p => cases p <;> decide
  | testcase | finished => decide

theorem Op.met_next {op : Op} {ec : ErrorCode} {v : Overlay} (hec : op ≠ .testcase → ec = .none)
    (h : (op.next ec).met v) : op.met v ∨ op = .accept v := by
  obtain ⟨hne, hrank⟩ := h
  rw [next_before op hec] at hrank
  by_cases hop : op = .accept v
  · exact Or.inr hop
  · refine Or.inl ⟨hop, ?_⟩
    by_contra hlt
    cases v with
    | ctrl => exact hlt (Nat.zero_le _)
    | pcap =>
      obtain rfl := Op.pcap_next (Nat.not_le.mp hlt) hrank
      rw [hec (by simp)] at hne
      exact hne rfl

end Steps

section Orc
variable (S : Setting) (o : Orc)

def Setting.owner (fid : ℕ) : ℕ :=
  if S.autotestMode then fid else (o.accepted .ctrl).getD fid S.size

def Setting.who (idx : ℕ) : ℕ :=
  match o.op with
  | .hello v => (o.accepted v).getD idx S.size
  | _ => S.owner o idx

def Orc.passed (idx : ℕ) : Prop := idx < o.sent ∨ idx ∈ o.gather.answered

instance (idx : ℕ) : Decidable (o.passed idx) := inferInstanceAs (Decidable (_ ∨ _))

/-- The stage that the orchestrator has reached for process `q`. -/
def Setting.stage (q : ℕ) : Stage :=
  match o.call with
  | some (fid, t) => if S.owner o fid = q then .reply t else o.op.before
  | none => if ∃ idx < S.size, S.who o idx = q ∧ o.passed idx then o.op.after else o.op.before

structure Setting.Is (q id : ℕ) : Prop where
  lt : id < S.size
  owner : S.owner o id = q

def descriptor (d : Orchestrator.Metadata) : Overlay → ℤ
  | .ctrl => d.fdCtrl
  | .pcap => d.fdPcap

/-- The orchestrator has reported no error, and has the descriptors of the processes that it is past
the handshake with. -/
structure OrcInv : Prop where
  size : o.gather.state.size = S.size
  code : o.gather.errorCode = .none
  nodup : ∀ v, (o.accepted v).Nodup
  lt : ∀ v, ∀ q ∈ o.accepted v, q < S.size
  full : ∀ v, o.op.met v → (o.accepted v).length = S.size
  pids : o.op = .accept .ctrl ∨ o.op = .hello .ctrl → S.autotestMode = true →
    ∀ fid < S.size, (o.gather.state.fragments fid).pid = S.pid fid
  fds : ∀ v, ∀ fid < S.size, descriptor (o.gather.state.fragments fid) v =
    if (Stage.hello v).rank < (S.stage o (S.owner o fid)).rank then S.fd v (S.owner o fid) else -1
  pending : o.gather.numPending + o.gather.answered.length = S.size
  answered : o.gather.answered.Nodup
  answered_lt : ∀ idx ∈ o.gather.answered, idx < S.size
  sent : o.sent ≤ S.size
  sends : o.op.sends = none → o.sent = 0
  receives : o.op.receives = false → o.gather.answered = []
  call : ∀ fid t, o.call = some (fid, t) → o.op = .testcase ∧ fid < S.size

variable {S o} {o' : Orc} {q id fid idx : ℕ}

theorem Setting.Is.unique {id' : ℕ} (h : OrcInv S o) (hq : q < S.size) (hid : S.Is o q id)
    (hid' : S.Is o q id') : id = id' := by
  have he := hid.owner.trans hid'.owner.symm
  simp only [Setting.owner] at he
  have howner := hid.owner
  have howner' := hid'.owner
  simp only [Setting.owner] at howner howner'
  split_ifs at he howner howner'
  · exact he
  · have hlt : ∀ {i}, (o.accepted .ctrl).getD i S.size = q → i < (o.accepted .ctrl).length := by
      intro i hi
      by_contra hge
      rw [List.getD_eq_default _ _ (Nat.not_lt.mp hge)] at hi
      omega
    rw [List.getD_eq_getElem _ _ (hlt howner), List.getD_eq_getElem _ _ (hlt howner')] at he
    exact (List.Nodup.getElem_inj_iff (h.nodup .ctrl)).mp he

theorem OrcInv.accepted_bijOn (h : OrcInv S o) {v : Overlay} (hmet : o.op.met v) :
    Set.BijOn (fun idx => (o.accepted v).getD idx S.size) (Set.Iio S.size) (Set.Iio S.size) :=
  getD_bijOn (h.nodup v) (h.lt v) (h.full v hmet)

theorem OrcInv.owner_bijOn (h : OrcInv S o) (hop : o.op ≠ .accept .ctrl) :
    Set.BijOn (S.owner o) (Set.Iio S.size) (Set.Iio S.size) := by
  by_cases hmode : S.autotestMode = true
  · have howner : S.owner o = id := funext fun fid => if_pos hmode
    rw [howner]
    exact Set.bijOn_id _
  · have howner : S.owner o = fun fid => (o.accepted .ctrl).getD fid S.size :=
      funext fun fid => if_neg hmode
    rw [howner]
    exact h.accepted_bijOn ⟨hop, Nat.zero_le _⟩

theorem who_eq_owner (hhello : ∀ v, o.op ≠ .hello v) : S.who o = S.owner o := funext fun idx => by
  rw [Setting.who]
  split
  · exact absurd ‹_› (hhello _)
  · rfl

theorem OrcInv.who_bijOn (h : OrcInv S o) (hop : o.op ≠ .accept .ctrl) :
    Set.BijOn (S.who o) (Set.Iio S.size) (Set.Iio S.size) := by
  by_cases hhello : ∃ v, o.op = .hello v
  · obtain ⟨v, hv⟩ := hhello
    have hwho : S.who o = fun idx => (o.accepted v).getD idx S.size :=
      funext fun idx => by rw [Setting.who, hv]
    rw [hwho]
    exact h.accepted_bijOn ⟨by rw [hv]; simp, by rw [hv]; exact Nat.le_refl _⟩
  · rw [who_eq_owner (not_exists.mp hhello)]
    exact h.owner_bijOn hop

theorem Setting.stage_who (hbij : Set.BijOn (S.who o) (Set.Iio S.size) (Set.Iio S.size))
    (hcall : o.call = none) (hidx : idx < S.size) :
    S.stage o (S.who o idx) = if o.passed idx then o.op.after else o.op.before := by
  have hiff : (∃ i < S.size, S.who o i = S.who o idx ∧ o.passed i) ↔ o.passed idx := by
    constructor
    · rintro ⟨i, hi, he, hpassed⟩
      obtain rfl := hbij.injOn hi hidx he
      exact hpassed
    · exact fun hpassed => ⟨idx, hidx, rfl, hpassed⟩
  rw [Setting.stage, hcall]
  simp only [hiff]

theorem OrcInv.stage_rank (h : OrcInv S o) (q : ℕ) :
    o.op.before.rank ≤ (S.stage o q).rank ∧ (S.stage o q).rank ≤ o.op.before.rank + 1 := by
  have hafter := o.op.after_rank
  rw [Setting.stage]
  split
  next fid t hcall =>
    obtain ⟨hop, -⟩ := h.call fid t hcall
    split_ifs
    · rw [hop]
      exact ⟨Nat.le_refl 16, Nat.le_succ 16⟩
    · exact ⟨Nat.le_refl _, Nat.le_succ _⟩
  next =>
    split_ifs
    · exact hafter
    · exact ⟨Nat.le_refl _, Nat.le_succ _⟩

theorem Setting.stage_idle (hcall : o.call = none) (hsent : o.sent = 0)
    (hanswered : o.gather.answered = []) (q : ℕ) : S.stage o q = o.op.before := by
  rw [Setting.stage, hcall]
  refine if_neg ?_
  rintro ⟨idx, -, -, hpassed⟩
  obtain hlt | hmem := hpassed
  · rw [hsent] at hlt
    exact Nat.not_lt_zero _ hlt
  · rw [hanswered] at hmem
    exact List.not_mem_nil hmem

theorem OrcInv.stage_idle (h : OrcInv S o) (hcall : o.call = none) (hsends : o.op.sends = none)
    (hreceives : o.op.receives = false) (q : ℕ) : S.stage o q = o.op.before :=
  S.stage_idle hcall (h.sends hsends) (h.receives hreceives) q

theorem Setting.peer_fd {v : Overlay} (hq : q < S.size) : S.peer v (S.fd v q) = q := by
  have hfind : (List.range S.size).find? (fun p => decide (S.fd v p = S.fd v q)) = some q := by
    refine List.find?_range_eq_some.mpr ⟨decide_eq_true rfl, List.mem_range.mpr hq, fun p hp => ?_⟩
    have hne : S.fd v p ≠ S.fd v q := fun he => Nat.ne_of_lt hp (S.fd_injective v he)
    simpa using hne
  rw [Setting.peer, hfind]
  rfl

theorem ctrl_order (hop : o.op.receives = true ∨ o.op.sends ≠ none) (hhello : ∀ v, o.op ≠ .hello v)
    (hwelcome : o.op ≠ .welcome .pcap) :
    S.fds o = o.gather.state.ctrlFds ∧ o.op.overlay = .ctrl ∧ S.who o = S.owner o ∧
      0 < o.op.before.rank := by
  have hwho : S.who o = S.owner o := who_eq_owner hhello
  rw [Setting.fds]
  rcases ho : o.op with v | v | v | p | p | _ | _
  · simp [ho, Op.receives, Op.sends] at hop
  · exact absurd ho (hhello v)
  · cases v with
    | ctrl => exact ⟨rfl, rfl, hwho, by decide⟩
    | pcap => exact absurd ho hwelcome
  · exact ⟨rfl, rfl, hwho, by cases p <;> decide⟩
  · exact ⟨rfl, rfl, hwho, Nat.succ_pos _⟩
  · simp [ho, Op.receives, Op.sends] at hop
  · simp [ho, Op.receives, Op.sends] at hop

theorem OrcInv.fds_getD (h : OrcInv S o) (hop : o.op.receives = true ∨ o.op.sends ≠ none) :
    (S.fds o).length = S.size ∧
      ∀ idx < S.size, (S.fds o).getD idx (-1) = S.fd o.op.overlay (S.who o idx) := by
  have hassigned : ∀ v, (Stage.hello v).rank < o.op.before.rank → ∀ idx < S.size,
      descriptor (o.gather.state.fragments idx) v = S.fd v (S.owner o idx) := by
    intro v hv idx hidx
    rw [h.fds v idx hidx, if_pos (Nat.lt_of_lt_of_le hv (h.stage_rank _).1)]
  by_cases hhello : ∃ v, o.op = .hello v
  · obtain ⟨v, hv⟩ := hhello
    have hfull := h.full v ⟨by rw [hv]; simp, by rw [hv]; exact Nat.le_refl _⟩
    simp only [Setting.fds, Setting.who, hv, Op.overlay]
    refine ⟨by rw [List.length_map, hfull], fun idx hidx => ?_⟩
    rw [List.getD_eq_getElem _ _ (by rw [List.length_map, hfull]; exact hidx), List.getElem_map,
      List.getD_eq_getElem _ _ (hfull ▸ hidx)]
  · by_cases hwelcome : o.op = .welcome .pcap
    · simp only [Setting.fds, Setting.who, hwelcome, Op.overlay]
      refine ⟨by simp [h.size], fun idx hidx => ?_⟩
      rw [← hassigned .pcap (by rw [hwelcome]; decide) idx hidx]
      simp [h.size, hidx, descriptor]
    · obtain ⟨hfds, hv, hwho, hrank⟩ := ctrl_order (S := S) hop (not_exists.mp hhello) hwelcome
      rw [hfds, hv, hwho]
      refine ⟨by simp [Orchestrator.World.ctrlFds, h.size], fun idx hidx => ?_⟩
      rw [← hassigned .ctrl hrank idx hidx]
      simp [Orchestrator.World.ctrlFds, h.size, hidx, descriptor]

theorem OrcInv.target (h : OrcInv S o) (hop : o.op.receives = true ∨ o.op.sends ≠ none)
    (hidx : idx < S.size) : S.target o idx = S.who o idx ∧ S.who o idx < S.size := by
  have haccept : o.op ≠ .accept .ctrl := fun he => by
    simp [he, Op.receives, Op.sends] at hop
  have hlt : S.who o idx < S.size := (h.who_bijOn haccept).mapsTo hidx
  refine ⟨?_, hlt⟩
  rw [Setting.target, (h.fds_getD hop).2 idx hidx, S.peer_fd hlt]

end Orc

section Peers
variable (S : Setting) (w : System)

/-- The messages of the protocol on a channel; captured packets are none of them. -/
def System.queue (q : ℕ) (c : Overlay × Bool) : List Label :=
  if c.2 then (w.requests (q, c.1)).map fun m => ⟨c.1, true, m.type⟩
  else ((w.responses (q, c.1)).filter (·.type ≠ .pcapData)).map fun m => ⟨c.1, false, m.type⟩

structure Setting.Told (o : Orc) (q : ℕ) (m : Response) : Prop where
  valid : m.valid = true
  direction : m.isRequest = false
  pid : m.pid = S.pid q
  id : m.type = .setupCtrl ∨ ∃ id, S.Is o q id ∧ m.fragmentId = UInt16.ofNat id ∧
    ∀ p : Phase, m.type = p.type → S.check p id m = .none
  code : m.errorCode = .none ∨ ∃ t : RequestType, m.type = t.type

structure PeerInv (q : ℕ) : Prop where
  coherent : protocol.Coherent ofOrc (S.stage w.orc q) (w.fragment q).stage (w.queue q)
  requests : ∀ v, ∀ m ∈ w.requests (q, v), ∃ type id, S.Is w.orc q id ∧ m = S.request type id
  responses : ∀ v, ∀ m ∈ w.responses (q, v), S.Told w.orc q m
  pid : (w.fragment q).process.pid = S.pid q
  joined : (Stage.request .setupPcap).rank ≤ (w.fragment q).stage.rank →
    ∃ id, S.Is w.orc q id ∧ (w.fragment q).process.fid = UInt16.ofNat id
  neighbors : (Stage.answer .topology).rank ≤ (w.fragment q).stage.rank →
    ∃ id, S.Is w.orc q id ∧ (w.fragment q).numNeighbors = S.numNeighbors id
  launched : (w.fragment q).launched = true →
    (Stage.request .endTestcase).rank ≤ (w.fragment q).stage.rank
  packets : ∀ v, ∀ m ∈ w.responses (q, v), m.type = .pcapData →
    v = .pcap ∧ (w.fragment q).launched = true

variable {S w} {w' : System} {q : ℕ} {v : Overlay}

theorem Setting.Told.congr {o o' : Orc} {m : Response} (h : S.Told o q m)
    (his : ∀ id, S.Is o q id → S.Is o' q id) : S.Told o' q m where
  valid := h.valid
  direction := h.direction
  pid := h.pid
  id := h.id.imp_right fun ⟨id, hid, hrest⟩ => ⟨id, his id hid, hrest⟩
  code := h.code

theorem queue_congr (hrequests : ∀ v, w'.requests (q, v) = w.requests (q, v))
    (hresponses : ∀ v, w'.responses (q, v) = w.responses (q, v)) : w'.queue q = w.queue q := by
  funext c
  rw [System.queue, System.queue, hrequests, hresponses]

theorem PeerInv.channels (h : PeerInv S w q)
    (hcoherent : protocol.Coherent ofOrc (S.stage w'.orc q) (w.fragment q).stage (w'.queue q))
    (his : ∀ id, S.Is w.orc q id → S.Is w'.orc q id) (hfragment : w'.fragment q = w.fragment q)
    (hrequests : ∀ v, ∀ m ∈ w'.requests (q, v), m ∈ w.requests (q, v) ∨
      ∃ type id, S.Is w.orc q id ∧ m = S.request type id)
    (hresponses : ∀ v, ∀ m ∈ w'.responses (q, v), m ∈ w.responses (q, v)) : PeerInv S w' q where
  coherent := by
    rw [hfragment]
    exact hcoherent
  requests v m hm := by
    obtain ⟨type, id, hid, he⟩ := (hrequests v m hm).elim (h.requests v m) fun hnew => hnew
    exact ⟨type, id, his id hid, he⟩
  responses v m hm := (h.responses v m (hresponses v m hm)).congr his
  pid := by rw [hfragment]; exact h.pid
  joined hrank := by
    rw [hfragment] at hrank ⊢
    obtain ⟨id, hid, he⟩ := h.joined hrank
    exact ⟨id, his id hid, he⟩
  neighbors hrank := by
    rw [hfragment] at hrank ⊢
    obtain ⟨id, hid, he⟩ := h.neighbors hrank
    exact ⟨id, his id hid, he⟩
  launched := by rw [hfragment]; exact h.launched
  packets v m hm := by
    rw [hfragment]
    exact h.packets v m (hresponses v m hm)

theorem PeerInv.congr (h : PeerInv S w q) (hstage : S.stage w'.orc q = S.stage w.orc q)
    (his : ∀ id, S.Is w.orc q id → S.Is w'.orc q id) (hfragment : w'.fragment q = w.fragment q)
    (hrequests : ∀ v, w'.requests (q, v) = w.requests (q, v))
    (hresponses : ∀ v, w'.responses (q, v) = w.responses (q, v)) : PeerInv S w' q := by
  refine h.channels ?_ his hfragment (fun v m hm => Or.inl (hrequests v ▸ hm))
    fun v m hm => hresponses v ▸ hm
  rw [hstage, queue_congr hrequests hresponses]
  exact h.coherent

theorem queue_others {b : Bool} (hrequests : ∀ u, (u, true) ≠ (v, b) →
      w'.requests (q, u) = w.requests (q, u))
    (hresponses : ∀ u, (u, false) ≠ (v, b) → w'.responses (q, u) = w.responses (q, u))
    (c : Overlay × Bool) (hc : c ≠ (v, b)) : w'.queue q c = w.queue q c := by
  obtain ⟨u, isRequest⟩ := c
  cases isRequest with
  | true => simp [System.queue, hrequests u hc]
  | false => simp [System.queue, hresponses u hc]

theorem queue_request {m : Request} (hrequests : w'.requests (q, v) = w.requests (q, v) ++ [m])
    (hothers : ∀ u, u ≠ v → w'.requests (q, u) = w.requests (q, u))
    (hresponses : ∀ u, w'.responses (q, u) = w.responses (q, u)) (c : Overlay × Bool) :
    w'.queue q c = if c = (v, true) then w.queue q c ++ [⟨v, true, m.type⟩] else w.queue q c := by
  by_cases hc : c = (v, true)
  · rw [if_pos hc, hc]
    simp [System.queue, hrequests]
  · rw [if_neg hc]
    exact queue_others (fun u hu => hothers u (by simpa using hu)) (fun u _ => hresponses u) c hc

theorem queue_requested {m : Request} {rest : List Request}
    (hhead : w.requests (q, v) = m :: rest) (hrequests : w'.requests (q, v) = rest)
    (hothers : ∀ u, u ≠ v → w'.requests (q, u) = w.requests (q, u))
    (hresponses : ∀ u, w'.responses (q, u) = w.responses (q, u)) :
    w.queue q (v, true) = ⟨v, true, m.type⟩ :: w'.queue q (v, true) ∧
      ∀ c, w'.queue q c = if c = (v, true) then w'.queue q (v, true) else w.queue q c := by
  refine ⟨by simp [System.queue, hhead, hrequests], fun c => ?_⟩
  by_cases hc : c = (v, true)
  · rw [if_pos hc, hc]
  · rw [if_neg hc]
    exact queue_others (fun u hu => hothers u (by simpa using hu)) (fun u _ => hresponses u) c hc

theorem queue_response {m : Response} (hm : m.type ≠ .pcapData)
    (hresponses : w'.responses (q, v) = w.responses (q, v) ++ [m])
    (hothers : ∀ u, u ≠ v → w'.responses (q, u) = w.responses (q, u))
    (hrequests : ∀ u, w'.requests (q, u) = w.requests (q, u)) (c : Overlay × Bool) :
    w'.queue q c = if c = (v, false) then w.queue q c ++ [⟨v, false, m.type⟩] else w.queue q c := by
  by_cases hc : c = (v, false)
  · rw [if_pos hc, hc]
    simp [System.queue, hresponses, hm]
  · rw [if_neg hc]
    exact queue_others (fun u _ => hrequests u) (fun u hu => hothers u (by simpa using hu)) c hc

theorem queue_responded {m : Response} {rest : List Response} (hm : m.type ≠ .pcapData)
    (hhead : w.responses (q, v) = m :: rest) (hresponses : w'.responses (q, v) = rest)
    (hothers : ∀ u, u ≠ v → w'.responses (q, u) = w.responses (q, u))
    (hrequests : ∀ u, w'.requests (q, u) = w.requests (q, u)) :
    w.queue q (v, false) = ⟨v, false, m.type⟩ :: w'.queue q (v, false) ∧
      ∀ c, w'.queue q c = if c = (v, false) then w'.queue q (v, false) else w.queue q c := by
  refine ⟨by simp [System.queue, hhead, hresponses, hm], fun c => ?_⟩
  by_cases hc : c = (v, false)
  · rw [if_pos hc, hc]
  · rw [if_neg hc]
    exact queue_others (fun u _ => hrequests u) (fun u hu => hothers u (by simpa using hu)) c hc

theorem queue_packet (hresponses : ∀ u, (w'.responses (q, u)).filter (·.type ≠ .pcapData) =
      (w.responses (q, u)).filter (·.type ≠ .pcapData))
    (hrequests : ∀ u, w'.requests (q, u) = w.requests (q, u)) : w'.queue q = w.queue q := by
  funext c
  rw [System.queue, System.queue, hrequests, hresponses]

theorem PeerInv.started (h : PeerInv S w q) (hlaunched : (w.fragment q).launched = true) :
    (Stage.answer .startTestcase).rank ≤ (S.stage w.orc q).rank := by
  refine orc_reaches h.coherent (fun s hs => ?_) (Nat.le_trans (by decide) (h.launched hlaunched))
  exact request_at (Nat.succ_injective hs) (by decide)

theorem PeerInv.resolved (h : PeerInv S w q)
    (horc : (Stage.request .startTestcase).rank ≤ (S.stage w.orc q).rank) :
    (Stage.request .startTestcase).rank ≤ (w.fragment q).stage.rank := by
  refine fragment_reaches h.coherent (fun s hs => ?_) horc
  exact response_at (Nat.succ_injective hs) (by decide)

end Peers

end Mixnet.Session
