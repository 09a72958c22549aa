import Mixnet.SessionFragment

/-! What the steps of the orchestrator do to the invariant: everybody that a step deals with goes to
its next stage, and the responses that it reads are those that it waits for. -/
namespace Mixnet.Session
open Codec (MessageType)
open Orchestrator (Exchange World)
open Requests (RequestType)

section Advance
variable {S : Setting} {o o' : Orc} {q idx : ℕ}

theorem owner_congr (h : o'.accepted .ctrl = o.accepted .ctrl) : S.owner o' = S.owner o :=
  funext fun fid => by rw [Setting.owner, Setting.owner, h]

theorem who_congr (hop : o'.op = o.op) (h : o'.accepted = o.accepted) : S.who o' = S.who o :=
  funext fun idx => by rw [Setting.who, Setting.who, hop, h, owner_congr (congrFun h .ctrl)]

theorem Setting.Is.congr {id : ℕ} (h : o'.accepted .ctrl = o.accepted .ctrl) (hid : S.Is o q id) :
    S.Is o' q id := ⟨hid.lt, by rw [owner_congr h]; exact hid.owner⟩

structure Advances (o o' : Orc) (idx : ℕ) : Prop where
  op : o'.op = o.op
  accepted : o'.accepted = o.accepted
  before : o.call = none
  call : o'.call = none
  passed : ∀ i, o'.passed i ↔ o.passed i ∨ i = idx

theorem Advances.stage (ha : Advances o o' idx) (h : OrcInv S o) (haccept : o.op ≠ .accept .ctrl)
    (hidx : idx < S.size) (hq : q < S.size) :
    S.stage o' q = if q = S.who o idx then o.op.after else S.stage o q := by
  have hwho := who_congr (S := S) ha.op ha.accepted
  have hbij := h.who_bijOn haccept
  obtain ⟨i, hi, rfl⟩ := hbij.surjOn hq
  have hafter := S.stage_who (o := o') (by rw [hwho]; exact hbij) ha.call hi
  rw [hwho, ha.op] at hafter
  rw [hafter, S.stage_who hbij ha.before hi]
  have hiff : S.who o i = S.who o idx ↔ i = idx :=
    ⟨fun he => hbij.injOn hi hidx he, fun he => by rw [he]⟩
  simp only [ha.passed, hiff]
  by_cases hii : i = idx <;> simp [hii]

theorem Advances.fds (ha : Advances o o' idx) (h : OrcInv S o) (haccept : o.op ≠ .accept .ctrl)
    (hidx : idx < S.size) (hnew : ¬ o.passed idx)
    (hfds : ∀ v, ∀ fid < S.size, descriptor (o'.gather.state.fragments fid) v =
      if o.op = .hello v ∧ S.owner o fid = S.who o idx then S.fd v (S.who o idx)
      else descriptor (o.gather.state.fragments fid) v) (v : Overlay) (fid : ℕ) (hfid : fid < S.size) :
    descriptor (o'.gather.state.fragments fid) v =
      if (Stage.hello v).rank < (S.stage o' (S.owner o' fid)).rank then S.fd v (S.owner o' fid)
      else -1 := by
  have howner : S.owner o' = S.owner o := owner_congr (congrFun ha.accepted .ctrl)
  have hlt : S.owner o fid < S.size := (h.owner_bijOn haccept).mapsTo hfid
  rw [hfds v fid hfid, h.fds v fid hfid, howner, ha.stage h haccept hidx hlt]
  by_cases hwho : S.owner o fid = S.who o idx
  · have hbefore := S.stage_who (h.who_bijOn haccept) ha.before hidx
    rw [if_neg hnew] at hbefore
    rw [if_pos hwho, hwho, hbefore]
    by_cases hhello : o.op = .hello v
    · rw [if_pos ⟨hhello, rfl⟩, hhello]
      cases v <;> exact (if_pos (by decide)).symm
    · rw [if_neg (fun hand => hhello hand.1)]
      simp only [Op.after_past hhello]
  · rw [if_neg (fun hand => hwho hand.2), if_neg hwho]

end Advance

section Channels
variable {S : Setting} {w w' : System} {q : ℕ} {v : Overlay}

theorem PeerInv.request (h : PeerInv S w q) (v : Overlay) (type : MessageType) (id : ℕ)
    (hnext : protocol.next (S.stage w.orc q) ⟨v, true, type⟩ = some (S.stage w'.orc q))
    (hid : S.Is w.orc q id) (his : ∀ id, S.Is w.orc q id → S.Is w'.orc q id)
    (hself : w'.requests (q, v) = w.requests (q, v) ++ [S.request type id])
    (hothers : ∀ u, u ≠ v → w'.requests (q, u) = w.requests (q, u))
    (hresponses : w'.responses = w.responses) (hfragment : w'.fragment = w.fragment) :
    PeerInv S w' q := by
  refine h.channels ?_ his (by rw [hfragment]) (fun u m hm => ?_) fun u m hm => hresponses ▸ hm
  · exact h.coherent.send hnext rfl (queue_request hself hothers fun u => by rw [hresponses])
  · by_cases hu : u = v
    · subst hu
      rw [hself] at hm
      refine (List.mem_append.mp hm).imp_right fun hnew => ?_
      exact ⟨type, id, hid, List.mem_singleton.mp hnew⟩
    · exact Or.inl (hothers u hu ▸ hm)

theorem PeerInv.responded (h : PeerInv S w q) {m : Response} {rest : List Response}
    (hcoherent : protocol.Coherent ofOrc (S.stage w'.orc q) (w.fragment q).stage (w'.queue q))
    (his : ∀ id, S.Is w.orc q id → S.Is w'.orc q id) (hhead : w.responses (q, v) = m :: rest)
    (hself : w'.responses (q, v) = rest)
    (hothers : ∀ u, u ≠ v → w'.responses (q, u) = w.responses (q, u))
    (hrequests : w'.requests = w.requests) (hfragment : w'.fragment = w.fragment) :
    PeerInv S w' q := by
  refine h.channels hcoherent his (by rw [hfragment]) (fun u e he => Or.inl (hrequests ▸ he))
    fun u e he => ?_
  by_cases hu : u = v
  · subst hu
    rw [hhead]
    exact List.mem_cons_of_mem _ (hself ▸ he)
  · exact hothers u hu ▸ he

end Channels

section Send
variable {S : Setting} {w w' : System}

theorem sends_ne_accept {op : Op} (h : op.receives = true ∨ op.sends ≠ none) :
    op ≠ .accept .ctrl := by
  rintro rfl
  simp [Op.receives, Op.sends] at h

theorem OrcInv.call_none {o : Orc} (h : OrcInv S o)
    (hop : o.op.receives = true ∨ o.op.sends ≠ none) :
    o.call = none := by
  cases hcall : o.call with
  | none => rfl
  | some p =>
    rw [(h.call p.1 p.2 hcall).1] at hop
    simp [Op.receives, Op.sends] at hop

theorem OrcInv.stage_waiting {o : Orc} {idx : ℕ} (h : OrcInv S o)
    (hop : o.op.receives = true ∨ o.op.sends ≠ none) (hidx : idx < S.size) (hnot : ¬ o.passed idx) :
    S.stage o (S.who o idx) = o.op.before := by
  rw [S.stage_who (h.who_bijOn (sends_ne_accept hop)) (h.call_none hop) hidx, if_neg hnot]

theorem sends_not_receives {op : Op} {type : MessageType} (h : op.sends = some type) :
    op.receives = false ∧ ∀ v, op ≠ .hello v := by
  cases op with
  | welcome v => exact ⟨rfl, by simp⟩
  | request p => exact ⟨rfl, by simp⟩
  | accept v | hello v | answers p => exact absurd h (by simp [Op.sends])
  | testcase | finished => exact absurd h (by simp [Op.sends])

/-- What the orchestrator's steps leave to be shown: the process that they deal with. -/
theorem SystemInv.advance {o' : Orc} {idx : ℕ} (h : SystemInv S w) (horc : OrcInv S o')
    (hop : w.orc.op.receives = true ∨ w.orc.op.sends ≠ none) (hidx : idx < S.size)
    (ha : Advances w.orc o' idx) (hw' : w'.orc = o') (hfragment : w'.fragment = w.fragment)
    (hpeer : PeerInv S w' (S.who w.orc idx))
    (hrequests : ∀ p ≠ S.who w.orc idx, ∀ v, w'.requests (p, v) = w.requests (p, v))
    (hresponses : ∀ p ≠ S.who w.orc idx, ∀ v, w'.responses (p, v) = w.responses (p, v)) :
    SystemInv S w' := by
  refine ⟨hw' ▸ horc, fun p hp => ?_⟩
  by_cases hpw : p = S.who w.orc idx
  · exact hpw ▸ hpeer
  · refine (h.peers p hp).congr ?_ (fun id hid => ?_) (by rw [hfragment]) (hrequests p hpw)
      (hresponses p hpw)
    · rw [hw', ha.stage h.orc (sends_ne_accept hop) hidx hp, if_neg hpw]
    · rw [hw']
      exact hid.congr (congrFun ha.accepted .ctrl)

theorem SystemInv.send (h : SystemInv S w) (hs : w.send S = some w') : SystemInv S w' := by
  obtain ⟨type, htype, hs⟩ := Option.bind_eq_some_iff.mp hs
  split_ifs at hs with hlt
  obtain rfl := Option.some.inj hs
  have hop : w.orc.op.receives = true ∨ w.orc.op.sends ≠ none := Or.inr (by rw [htype]; simp)
  obtain ⟨hreceives, hhello⟩ := sends_not_receives htype
  have haccept := sends_ne_accept hop
  have hanswered := h.orc.receives hreceives
  have hidx : w.orc.sent < S.size := (h.orc.fds_getD hop).1 ▸ hlt
  obtain ⟨htarget, hq⟩ := h.orc.target hop hidx
  have hnew : ¬ w.orc.passed w.orc.sent := by
    rintro (hlt | hmem)
    · exact Nat.lt_irrefl _ hlt
    · rw [hanswered] at hmem
      exact List.not_mem_nil hmem
  have hcall := h.orc.call_none hop
  have ha : Advances w.orc { w.orc with sent := w.orc.sent + 1 } w.orc.sent := by
    refine ⟨rfl, rfl, hcall, hcall, fun i => ?_⟩
    simp only [Orc.passed, Nat.lt_succ_iff_lt_or_eq, or_right_comm]
  have horc : OrcInv S { w.orc with sent := w.orc.sent + 1 } :=
    { h.orc with
      fds := ha.fds h.orc haccept hidx hnew fun v fid _ =>
        (if_neg fun hand => hhello v hand.1).symm
      sent := hidx
      sends := fun hnone => absurd (htype.symm.trans hnone) (by simp) }
  have hbefore := h.orc.stage_waiting hop hidx hnew
  have hself := ha.stage h.orc haccept hidx hq
  rw [if_pos rfl] at hself
  rw [htarget]
  generalize hw' : ({ w.setRequests (S.who w.orc w.orc.sent, w.orc.op.overlay)
    (w.requests (S.who w.orc w.orc.sent, w.orc.op.overlay) ++ [S.request type w.orc.sent]) with
    orc := { w.orc with sent := w.orc.sent + 1 } } : System) = w'
  have horc' : w'.orc = { w.orc with sent := w.orc.sent + 1 } := by rw [← hw']
  have hrequests : ∀ c ≠ (S.who w.orc w.orc.sent, w.orc.op.overlay), w'.requests c = w.requests c :=
    fun c hc => by
      rw [← hw']
      exact System.setRequests_ne _ hc
  have hresponses : w'.responses = w.responses := by rw [← hw']; rfl
  have hfragment : w'.fragment = w.fragment := by rw [← hw']; rfl
  have hpeer := h.peers _ hq
  refine h.advance horc hop hidx ha horc' hfragment ?_ (fun p hp v => hrequests _ (by simp [hp]))
    fun _ _ _ => by rw [hresponses]
  refine (h.peers _ hq).request w.orc.op.overlay type w.orc.sent ?_ ⟨hidx, by rw [who_eq_owner hhello]⟩
    (fun id hid => ?_) ?_ (fun u hu => hrequests _ (by simp [hu])) hresponses hfragment
  · rw [horc', hself, hbefore]
    exact Op.sends_next htype
  · rw [horc']
    exact ⟨hid.lt, hid.owner⟩
  · rw [← hw']
    exact System.setRequests_self ..

end Send

section Gather
variable {S : Setting} {o : Orc} {w w' : System} {idx : ℕ} {m m' : Response} {x : Exchange World}

theorem exchange_cases (hx : S.exchange o m = some x) :
    o.op = .hello .ctrl ∧ x = Orchestrator.ctrlHandshake S.autotestMode (S.fds o) ∨
      o.op = .hello .pcap ∧ x = Orchestrator.pcapHandshake (S.fds o) ∨
      o.op = .answers .shutdown ∧ x = Orchestrator.shutdownExchange o.gather.state ∨
      ∃ p, o.op = .answers p ∧ x = { Orchestrator.acknowledgement p.type o.gather.state with
        process := fun idx _ w => (S.check p idx m, w) } := by
  rw [Setting.exchange] at hx
  split at hx
  next hop => exact Or.inl ⟨hop, (Option.some.inj hx).symm⟩
  next hop => exact Or.inr (Or.inl ⟨hop, (Option.some.inj hx).symm⟩)
  next hop => exact Or.inr (Or.inr (Or.inl ⟨hop, (Option.some.inj hx).symm⟩))
  next p _ hop => exact Or.inr (Or.inr (Or.inr ⟨p, hop, (Option.some.inj hx).symm⟩))
  next => exact absurd hx (by simp)

/-- The exchange of a step that receives: it goes through the descriptors of the step, and the
response that it waits for is the next message of the protocol. -/
theorem exchange_spec (hx : S.exchange o m = some x) :
    o.op.receives = true ∧ x.fds = S.fds o ∧
      protocol.next o.op.before ⟨o.op.overlay, false, x.type⟩ = some o.op.after ∧
      (x.type = .setupCtrl ∧ x.checkFragmentIds = false ∨ ∃ p : Phase, x.type = p.type) ∧
      (x.checkFragmentIds = true → ∀ v, o.op ≠ .hello v) := by
  obtain ⟨hop, rfl⟩ | ⟨hop, rfl⟩ | ⟨hop, rfl⟩ | ⟨p, hop, rfl⟩ := exchange_cases hx
  · rw [hop]
    exact ⟨rfl, rfl, rfl, Or.inl ⟨rfl, rfl⟩, fun h => absurd h Bool.false_ne_true⟩
  · rw [hop]
    exact ⟨rfl, rfl, rfl, Or.inr ⟨.setupPcap, rfl⟩, fun h => absurd h Bool.false_ne_true⟩
  · rw [Setting.fds, hop]
    exact ⟨rfl, rfl, rfl, Or.inr ⟨.shutdown, rfl⟩, by simp⟩
  · rw [Setting.fds, hop]
    refine ⟨rfl, rfl, ?_, Or.inr ⟨p, rfl⟩, by simp⟩
    cases p <;> rfl

theorem phase_ne_call (p : Phase) (t : RequestType) : p.type ≠ t.type := by
  cases p <;> cases t <;> decide

theorem response_next {x y z : Stage} {v : Overlay} {t t' : MessageType}
    (hy : protocol.next x ⟨v, false, t⟩ = some y) (hz : protocol.next x ⟨v, false, t'⟩ = some z) :
    t = t' ∧ y = z := by
  obtain ⟨hchan, hy⟩ := next_iff.mp hy
  exact response_unique hchan hy (next_iff.mp hz).2

theorem PeerInv.expected (h : PeerInv S w (S.who w.orc idx)) (horc : OrcInv S w.orc)
    (hx : S.exchange w.orc m' = some x) (hidx : idx < S.size) (hnew : idx ∉ w.orc.gather.answered)
    {rest : List Response}
    (hhead : w.responses (S.who w.orc idx, w.orc.op.overlay) = m :: rest) :
    S.Told w.orc (S.who w.orc idx) m ∧ m.type = x.type ∧ ¬ w.orc.passed idx ∧
      (∀ u, (w.setResponses (S.who w.orc idx, w.orc.op.overlay) rest).queue (S.who w.orc idx) = u →
        protocol.Coherent ofOrc w.orc.op.after (w.fragment (S.who w.orc idx)).stage u) := by
  obtain ⟨hreceives, -, hnext, -, -⟩ := exchange_spec hx
  have hop : w.orc.op.receives = true ∨ w.orc.op.sends ≠ none := Or.inl hreceives
  have hnot : ¬ w.orc.passed idx := by
    rintro (hlt | hmem)
    · cases hsends : w.orc.op.sends with
      | none => exact absurd (horc.sends hsends ▸ hlt) (Nat.not_lt_zero _)
      | some type => exact absurd ((sends_not_receives hsends).1.symm.trans hreceives) (by decide)
    · exact hnew hmem
  have hstage := horc.stage_waiting hop hidx hnot
  have htold := h.responses _ m (hhead ▸ List.mem_cons_self)
  -- A captured packet would have been sent by a node that is not yet running.
  have htype : m.type ≠ .pcapData := fun he => by
    obtain ⟨hv, hlaunched⟩ := h.packets _ m (hhead ▸ List.mem_cons_self) he
    have hstarted := h.started hlaunched
    rw [hstage] at hstarted
    obtain ⟨hop', -⟩ | ⟨hop', -⟩ | ⟨hop', -⟩ | ⟨p, hop', -⟩ := exchange_cases hx
    · rw [hop'] at hv
      exact absurd hv (by decide)
    · rw [hop'] at hstarted
      exact absurd hstarted (by decide)
    · rw [hop'] at hv
      exact absurd hv (by decide)
    · rw [hop'] at hv
      exact absurd hv (by simp [Op.overlay])
  obtain ⟨hqueue, hqueues⟩ := queue_responded htype hhead (System.setResponses_self ..)
    (fun u hu => System.setResponses_ne _ (by simp [hu])) fun _ => rfl
  rw [← hstage] at hnext
  obtain ⟨z, hz, hcoherent⟩ := h.coherent.recv hnext rfl hqueue hqueues
  obtain ⟨hsame, rfl⟩ := response_next hz hnext
  exact ⟨htold, hsame, hnot, fun u hu => hu ▸ hcoherent⟩

theorem OrcInv.unassigned (h : OrcInv S o) {v : Overlay} (hop : o.op = .hello v)
    (hidx : idx < S.size) (hnot : ¬ o.passed idx) :
    (S.fds o).getD idx (-1) = S.fd v (S.who o idx) ∧ ∀ id, S.Is o (S.who o idx) id →
      descriptor (o.gather.state.fragments id) v = -1 := by
  have hsteps : o.op.receives = true ∨ o.op.sends ≠ none := Or.inl (by rw [hop]; rfl)
  have hstage := h.stage_waiting hsteps hidx hnot
  refine ⟨?_, fun id hid => ?_⟩
  · rw [(h.fds_getD hsteps).2 idx hidx, hop]
    rfl
  · rw [h.fds v id hid.lt, hid.owner, hstage, hop]
    exact if_neg (Nat.lt_irrefl _)

/-- The descriptor of an answer in the handshake on the ctrl overlay goes to the fragment that the
process is to be. -/
theorem OrcInv.claimCtrl (h : OrcInv S o) (hop : o.op = .hello .ctrl) (hidx : idx < S.size)
    (hnot : ¬ o.passed idx) (hpid : m.pid = S.pid (S.who o idx)) :
    ∃ id, S.Is o (S.who o idx) id ∧
      Orchestrator.claimCtrl S.autotestMode (S.fds o) idx m.toReply o.gather.state =
        (.none, o.gather.state.set id fun f => { f with fdCtrl := S.fd .ctrl (S.who o idx) }) := by
  obtain ⟨hfd, hfree⟩ := h.unassigned hop hidx hnot
  simp only [descriptor] at hfree
  by_cases hmode : S.autotestMode = true
  · have howner : S.owner o (S.who o idx) = S.who o idx := if_pos hmode
    have hlt : S.who o idx < S.size := (h.who_bijOn (by rw [hop]; simp)).mapsTo hidx
    have hfind : (List.range o.gather.state.size).find?
        (fun fid => decide ((o.gather.state.fragments fid).pid = m.pid)) = some (S.who o idx) := by
      have hpids := h.pids (Or.inr hop) hmode
      refine List.find?_range_eq_some.mpr
        ⟨decide_eq_true ((hpids _ hlt).trans hpid.symm), List.mem_range.mpr (h.size ▸ hlt), ?_⟩
      intro fid hfid
      have hne : (o.gather.state.fragments fid).pid ≠ m.pid := fun he => by
        rw [hpids fid (Nat.lt_trans hfid hlt), hpid] at he
        exact Nat.ne_of_lt hfid (S.pid_injective hmode (Int.natCast_inj.mp he))
      simpa using hne
    refine ⟨_, ⟨hlt, howner⟩, ?_⟩
    simp only [Orchestrator.claimCtrl, if_pos hmode, hfind, hfree _ ⟨hlt, howner⟩, hfd]
    rfl
  · have howner : S.owner o idx = S.who o idx := by
      simp only [Setting.owner, Setting.who, hop, if_neg hmode]
    refine ⟨idx, ⟨hidx, howner⟩, ?_⟩
    simp only [Orchestrator.claimCtrl, if_neg hmode, hfree _ ⟨hidx, howner⟩, hfd]
    rfl

/-- The descriptor of an answer in the handshake on the pcap overlay goes to the fragment whose id
it carries. -/
theorem OrcInv.claimPcap (h : OrcInv S o) (hop : o.op = .hello .pcap) (hidx : idx < S.size)
    (hnot : ¬ o.passed idx) {id : ℕ} (hid : S.Is o (S.who o idx) id)
    (hfid : m.fragmentId = UInt16.ofNat id) :
    Orchestrator.claimPcap (S.fds o) idx m.toReply o.gather.state =
      (.none, o.gather.state.set id fun f => { f with fdPcap := S.fd .pcap (S.who o idx) }) := by
  obtain ⟨hfd, hfree⟩ := h.unassigned hop hidx hnot
  simp only [descriptor] at hfree
  have hnum : m.fragmentId.toNat = id := by
    have hlt := S.numNodes.toNat_lt
    have hsize : S.size = S.numNodes.toNat := rfl
    rw [hfid, UInt16.toNat_ofNat', Nat.mod_eq_of_lt (by have := hid.lt; omega)]
  simp only [Orchestrator.claimPcap, hnum, hfree id hid, hfd]
  rw [if_neg (by rw [h.size]; exact Nat.not_le.mpr hid.lt), if_neg (by simp)]

theorem OrcInv.header (h : OrcInv S o) (hx : S.exchange o m' = some x) (hidx : idx < S.size)
    (htold : S.Told o (S.who o idx) m) (htype : m.type = x.type) :
    (x.checkFragmentIds = true → m.fragmentId = UInt16.ofNat idx) ∧
      Orchestrator.checkHeader m.toReply x.checkFragmentIds (UInt16.ofNat idx) x.type = .none := by
  obtain ⟨hreceives, -, -, hsetup, hchecks⟩ := exchange_spec hx
  have hq := (h.target (Or.inl hreceives) hidx).2
  have hid : x.checkFragmentIds = true → m.fragmentId = UInt16.ofNat idx := fun hcheck => by
    obtain hctrl | ⟨id, hid, hfid, -⟩ := htold.id
    · obtain ⟨-, hunchecked⟩ | ⟨p, hp⟩ := hsetup
      · exact absurd (hcheck.symm.trans hunchecked) (by decide)
      · rw [← htype, hctrl] at hp
        cases p <;> exact absurd hp (by decide)
    · have hself : S.Is o (S.who o idx) idx := ⟨hidx, by rw [who_eq_owner (hchecks hcheck)]⟩
      rw [hfid, hid.unique h hq hself]
  refine ⟨hid, Orchestrator.checkHeader_eq_none_iff.mpr ⟨htold.valid, hid, htold.direction, htype, ?_⟩⟩
  obtain hcode | ⟨t, ht⟩ := htold.code
  · exact hcode
  · obtain ⟨hctrl, -⟩ | ⟨p, hp⟩ := hsetup
    · rw [htype, hctrl] at ht
      cases t <;> exact absurd ht (by decide)
    · exact absurd (hp.symm.trans (htype.symm.trans ht)) (phase_ne_call p t)

theorem OrcInv.answer (h : OrcInv S o) (hx : S.exchange o m = some x) (hidx : idx < S.size)
    (hnot : ¬ o.passed idx) (htold : S.Told o (S.who o idx) m) (htype : m.type = x.type) :
    ∃ w, x.answer idx o.gather.state (.message m.toReply) = (.none, w) ∧
      w.size = o.gather.state.size ∧
      (o.op = .hello .ctrl → ∀ fid, (w.fragments fid).pid = (o.gather.state.fragments fid).pid) ∧
      ∀ v, ∀ fid < S.size, descriptor (w.fragments fid) v =
        if o.op = .hello v ∧ S.owner o fid = S.who o idx then S.fd v (S.who o idx)
        else descriptor (o.gather.state.fragments fid) v := by
  have hheader := (h.header hx hidx htold htype).2
  obtain ⟨hreceives, -, -, -, -⟩ := exchange_spec hx
  have hsteps : o.op.receives = true ∨ o.op.sends ≠ none := Or.inl hreceives
  have hq := (h.target hsteps hidx).2
  have howner : ∀ {id}, S.Is o (S.who o idx) id → ∀ fid < S.size,
      (S.owner o fid = S.who o idx ↔ fid = id) := fun {id} hid fid hfid =>
    ⟨fun he => Setting.Is.unique h hq ⟨hfid, he⟩ hid, fun he => he ▸ hid.owner⟩
  rw [Exchange.answer]
  simp only [hheader, if_true]
  obtain ⟨hop, rfl⟩ | ⟨hop, rfl⟩ | ⟨hop, rfl⟩ | ⟨p, hop, rfl⟩ := exchange_cases hx
  · obtain ⟨id, hid, hclaim⟩ := h.claimCtrl hop hidx hnot htold.pid
    refine ⟨_, hclaim, rfl, fun _ => World.set_field Orchestrator.Metadata.pid (by simp),
      fun v fid hfid => ?_⟩
    simp only [howner hid fid hfid, hop]
    by_cases hfi : fid = id
    · subst hfi
      cases v <;> simp [descriptor]
    · simp [hfi]
  · obtain ⟨id, hid, hfid, -⟩ := htold.id.resolve_left fun hctrl => by
      rw [htype] at hctrl
      exact absurd hctrl (by simp [Orchestrator.pcapHandshake])
    refine ⟨_, h.claimPcap hop hidx hnot hid hfid, rfl, fun he => ?_, fun v fid hlt => ?_⟩
    · exact absurd (hop.symm.trans he) (by simp)
    · simp only [howner hid fid hlt, hop]
      by_cases hfi : fid = id
      · subst hfi
        cases v <;> simp [descriptor]
      · simp [hfi]
  · refine ⟨_, rfl, rfl, fun he => absurd (hop.symm.trans he) (by simp), fun v fid hlt => ?_⟩
    rw [hop, if_neg (by simp)]
    change descriptor ((o.gather.state.set idx fun f => { f with pid := -1 }).fragments fid) v = _
    exact World.set_field (descriptor · v) (fun d => by cases v <;> rfl) fid
  · have hself : S.Is o (S.who o idx) idx := ⟨hidx, by rw [who_eq_owner (by rw [hop]; simp)]⟩
    obtain ⟨id, hid, -, hcheck⟩ := htold.id.resolve_left fun hctrl => by
      have hp : p.type = .setupCtrl := htype.symm.trans hctrl
      cases p <;> exact absurd hp (by decide)
    obtain rfl := hid.unique h hq hself
    refine ⟨o.gather.state, ?_, rfl, fun _ _ => rfl, fun v fid _ => ?_⟩
    · exact congrArg (·, o.gather.state) (hcheck p htype)
    · rw [hop, if_neg (by simp)]

theorem SystemInv.gather (h : SystemInv S w) (hs : w.gather S idx = some w') : SystemInv S w' := by
  rw [System.gather] at hs
  cases hhead : w.responses (S.target w.orc idx, w.orc.op.overlay) with
  | nil => simp [hhead] at hs
  | cons m rest =>
    simp only [hhead] at hs
    obtain ⟨x, hx, hs⟩ := Option.bind_eq_some_iff.mp hs
    split_ifs at hs with hready
    obtain rfl := Option.some.inj hs
    obtain ⟨hreceives, hfds, -, -, -⟩ := exchange_spec hx
    have hop : w.orc.op.receives = true ∨ w.orc.op.sends ≠ none := Or.inl hreceives
    have haccept := sends_ne_accept hop
    have hcall := h.orc.call_none hop
    obtain ⟨hlt, -, hnew, hpending⟩ := hready
    have hidx : idx < S.size := by
      rw [hfds, (h.orc.fds_getD hop).1] at hlt
      exact hlt
    obtain ⟨htarget, hq⟩ := h.orc.target hop hidx
    rw [htarget] at hhead ⊢
    have hpeer := h.peers _ hq
    obtain ⟨htold, htype, hnot, hcoherent⟩ := hpeer.expected h.orc hx hidx hnew hhead
    obtain ⟨world, hanswer, hsize, hpids, hdescriptors⟩ :=
      h.orc.answer hx hidx hnot htold htype
    have htake : x.take w.orc.gather idx (.message m.toReply) =
        ⟨.none, idx :: w.orc.gather.answered, w.orc.gather.numPending - 1, world⟩ := by
      rw [Exchange.take, hanswer, h.orc.code]
      rfl
    rw [htake]
    have hsent : w.orc.sent = 0 := h.orc.sends (by
      cases hsends : w.orc.op.sends with
      | none => rfl
      | some type => exact absurd ((sends_not_receives hsends).1.symm.trans hreceives) (by decide))
    generalize ho' : ({ w.orc with gather := ⟨.none, idx :: w.orc.gather.answered,
      w.orc.gather.numPending - 1, world⟩ } : Orc) = o'
    have ha : Advances w.orc o' idx := by
      subst ho'
      refine ⟨rfl, rfl, hcall, hcall, fun i => ?_⟩
      simp only [Orc.passed, List.mem_cons, or_comm, or_left_comm]
    have horc : OrcInv S o' := by
      have hfds' := ha.fds h.orc haccept hidx hnot (by subst ho'; exact hdescriptors)
      subst ho'
      exact
        { h.orc with
          size := hsize.trans h.orc.size
          code := rfl
          pids := fun hstep hmode fid hfid => by
            rw [hpids (hstep.resolve_left haccept) fid]
            exact h.orc.pids hstep hmode fid hfid
          fds := hfds'
          pending := by
            have hsum := h.orc.pending
            rw [List.length_cons]
            dsimp only
            omega
          answered := List.nodup_cons.mpr ⟨hnew, h.orc.answered⟩
          answered_lt := fun i hi => by
            obtain rfl | hi := List.mem_cons.mp hi
            · exact hidx
            · exact h.orc.answered_lt i hi
          receives := fun hnone => absurd (hreceives.symm.trans hnone) (by decide) }
    refine h.advance horc hop hidx ha rfl rfl ?_ (fun _ _ _ => rfl)
      fun p hp v => System.setResponses_ne _ (by simp [hp])
    refine hpeer.responded ?_ (fun id hid => hid.congr (congrFun ha.accepted .ctrl)) hhead
      (System.setResponses_self ..) (fun u hu => System.setResponses_ne _ (by simp [hu])) rfl rfl
    have hself := ha.stage h.orc haccept hidx hq
    rw [if_pos rfl] at hself
    rw [hself]
    exact hcoherent _ (queue_congr (fun _ => rfl) fun _ => rfl)

end Gather

section Next
variable {S : Setting} {o : Orc} {w w' : System} {ec : ErrorCode}

theorem OrcInv.stage_over (h : OrcInv S o) (hover : S.over o = true) {q : ℕ} (hq : q < S.size) :
    S.stage o q = o.op.after := by
  have hall : o.op.receives = true ∨ o.op.sends ≠ none → (∀ idx < S.size, o.passed idx) →
      S.stage o q = o.op.after := by
    intro hsteps hpassed
    have hbij := h.who_bijOn (sends_ne_accept hsteps)
    obtain ⟨idx, hidx, rfl⟩ := hbij.surjOn hq
    rw [S.stage_who hbij (h.call_none hsteps) hidx, if_pos (hpassed idx hidx)]
  have hidle : o.op.sends = none → o.op.receives = false → o.call = none →
      o.op.before = o.op.after → S.stage o q = o.op.after := fun hsends hreceives hcall hsame =>
    (h.stage_idle hcall hsends hreceives q).trans hsame
  have hcall : o.op ≠ .testcase → o.call = none := fun hne => by
    cases hcall : o.call with
    | none => rfl
    | some p => exact absurd (h.call p.1 p.2 hcall).1 hne
  have hanswered : o.gather.numPending = 0 → ∀ idx < S.size, o.passed idx := by
    intro hzero idx hidx
    have hsum := h.pending
    have hsub := List.subperm_of_subset h.answered fun i hi => List.mem_range.mpr (h.answered_lt i hi)
    have hperm := hsub.perm_of_length_le (by rw [List.length_range]; omega)
    exact Or.inr (hperm.mem_iff.mpr (List.mem_range.mpr hidx))
  have hsent : o.op.sends ≠ none → o.sent = (S.fds o).length → ∀ idx < S.size, o.passed idx := by
    intro hsends hlen idx hidx
    rw [(h.fds_getD (Or.inr hsends)).1] at hlen
    exact Or.inl (hlen ▸ hidx)
  rw [Setting.over] at hover
  cases hop : o.op with
  | accept v =>
    rw [← hop]
    exact hidle (by rw [hop]; rfl) (by rw [hop]; rfl) (hcall (by rw [hop]; simp)) (by rw [hop]; rfl)
  | hello v | answers p =>
    rw [hop] at hover
    rw [← hop]
    have hreceives : o.op.receives = true := by rw [hop]; rfl
    exact hall (Or.inl hreceives) (hanswered (of_decide_eq_true hover))
  | welcome v | request p =>
    rw [hop] at hover
    rw [← hop]
    have hsends : o.op.sends ≠ none := by rw [hop]; simp [Op.sends]
    exact hall (Or.inr hsends) (hsent hsends (of_decide_eq_true hover))
  | testcase =>
    rw [hop] at hover
    rw [← hop]
    exact hidle (by rw [hop]; rfl) (by rw [hop]; rfl) (of_decide_eq_true hover) (by rw [hop]; rfl)
  | finished =>
    rw [hop] at hover
    exact absurd hover (by simp)

theorem OrcInv.call_over (h : OrcInv S o) (hover : S.over o = true) : o.call = none := by
  cases hcall : o.call with
  | none => rfl
  | some p =>
    rw [Setting.over, (h.call p.1 p.2 hcall).1] at hover
    exact (of_decide_eq_true hover).symm.trans hcall |>.symm

theorem OrcInv.enter (h : OrcInv S o) (hover : S.over o = true)
    (hec : o.op ≠ .testcase → ec = .none) :
    OrcInv S (o.enter (o.op.next ec)) ∧
      ∀ q < S.size, S.stage (o.enter (o.op.next ec)) q = S.stage o q := by
  have hcall := h.call_over hover
  have hbefore : ∀ q, S.stage (o.enter (o.op.next ec)) q = o.op.after := fun q => by
    rw [S.stage_idle (o := o.enter (o.op.next ec)) hcall rfl rfl q]
    exact next_before o.op hec
  have hsame : ∀ q < S.size, S.stage (o.enter (o.op.next ec)) q = S.stage o q := fun q hq => by
    rw [hbefore, h.stage_over hover hq]
  have howner : S.owner (o.enter (o.op.next ec)) = S.owner o := owner_congr rfl
  refine ⟨?_, hsame⟩
  exact
    { size := h.size
      code := rfl
      nodup := h.nodup
      lt := h.lt
      full := fun v hmet => by
        obtain hmet | hop := Op.met_next hec hmet
        · exact h.full v hmet
        · rw [Setting.over, hop] at hover
          exact of_decide_eq_true hover
      pids := fun hstep hmode fid hfid => by
        have hafter : o.op.after = .hello .ctrl := by
          rw [← next_before o.op hec]
          obtain hstep | hstep := hstep
          · rw [show o.op.next ec = .accept .ctrl from hstep]
            rfl
          · rw [show o.op.next ec = .hello .ctrl from hstep]
            rfl
        refine h.pids (Or.inl ?_) hmode fid hfid
        cases hop : o.op with
        | accept v =>
          rw [hop] at hafter
          obtain rfl : v = .ctrl := by simpa [Op.after] using hafter
          rfl
        | hello v => simp [hop, Op.after] at hafter
        | welcome v => cases v <;> simp [hop, Op.after, Overlay.after] at hafter
        | request p => simp [hop, Op.after] at hafter
        | answers p => cases p <;> simp [hop, Op.after, Phase.after] at hafter
        | testcase | finished => simp [hop, Op.after] at hafter
      fds := fun v fid hfid => by
        have hlast : S.stage o (S.owner o fid) = o.op.after := by
          by_cases hop : o.op = .accept .ctrl
          · rw [h.stage_idle hcall (by rw [hop]; rfl) (by rw [hop]; rfl), hop]
            rfl
          · exact h.stage_over hover ((h.owner_bijOn hop).mapsTo hfid)
        have hold := h.fds v fid hfid
        rw [hlast] at hold
        rw [howner, hbefore]
        exact hold
      pending := by
        change o.gather.state.size + 0 = S.size
        rw [h.size, Nat.add_zero]
      answered := List.nodup_nil
      answered_lt := fun idx hidx => absurd hidx List.not_mem_nil
      sent := Nat.zero_le _
      sends := fun _ => rfl
      receives := fun _ => rfl
      call := fun fid t he => absurd (hcall.symm.trans he) (by simp) }

theorem SystemInv.next (h : SystemInv S w) (hs : w.next S ec = some w') : SystemInv S w' := by
  rw [System.next] at hs
  by_cases hover : S.over w.orc = true
  swap
  · rw [if_neg hover] at hs
    exact absurd hs (by simp)
  rw [if_pos hover] at hs
  obtain rfl := Option.some.inj hs
  have hec : w.orc.op ≠ .testcase →
      (if w.orc.op = .testcase then ec else w.orc.gather.errorCode) = .none := fun hne => by
    rw [if_neg hne, h.orc.code]
  obtain ⟨horc, hstage⟩ := h.orc.enter hover hec
  refine ⟨horc, fun q hq => ?_⟩
  exact (h.peers q hq).congr (hstage q hq) (fun id hid => ⟨hid.lt, hid.owner⟩) rfl (fun _ => rfl)
    fun _ => rfl

end Next

section Accept
variable {S : Setting} {o : Orc} {w w' : System} {p q : ℕ} {v : Overlay}

theorem listens_cases {op : Op} (h : op.listens v = true) :
    ¬ op.met v ∧ (v = .ctrl ∧ op = .accept .ctrl ∨ v = .pcap ∧ ∀ u, op ≠ .hello u) := by
  cases op with
  | accept u =>
    cases u <;> cases v
    · exact ⟨fun hmet => hmet.1 rfl, Or.inl ⟨rfl, rfl⟩⟩
    · exact absurd h (by decide)
    · exact absurd h (by decide)
    · exact ⟨fun hmet => hmet.1 rfl, Or.inr ⟨rfl, by simp⟩⟩
  | request p =>
    cases p <;> cases v <;> first | exact absurd h (by decide) | skip
    exact ⟨fun hmet => absurd hmet.2 (by decide), Or.inr ⟨rfl, by simp⟩⟩
  | answers p =>
    cases p <;> cases v <;> first | exact absurd h (by decide) | skip
    exact ⟨fun hmet => absurd hmet.2 (by decide), Or.inr ⟨rfl, by simp⟩⟩
  | hello u | welcome u => exact absurd h (by simp [Op.listens])
  | testcase | finished => exact absurd h (by simp [Op.listens])

theorem Setting.Is.grow {accepted : Overlay → List ℕ} {id : ℕ} {more : List ℕ} (hid : S.Is o q id)
    (hq : q < S.size) (hgrow : accepted .ctrl = o.accepted .ctrl ++ more) :
    S.Is { o with accepted := accepted } q id := by
  refine ⟨hid.lt, ?_⟩
  have howner := hid.owner
  simp only [Setting.owner] at howner ⊢
  split_ifs at howner ⊢
  · exact howner
  · rw [hgrow, getD_append_of_ne (by omega), howner]

theorem SystemInv.accept (h : SystemInv S w) (hs : w.accept S q v = some w') : SystemInv S w' := by
  rw [System.accept] at hs
  split_ifs at hs with hcond
  obtain rfl := Option.some.inj hs
  obtain ⟨hlistens, hq, -, hnew, -⟩ := hcond
  obtain ⟨hmet, hcases⟩ := listens_cases hlistens
  generalize haccepted : Function.update w.orc.accepted v (w.orc.accepted v ++ [q]) = accepted
  have hself : accepted v = w.orc.accepted v ++ [q] := by
    rw [← haccepted, Function.update_self]
  have hother : ∀ u, u ≠ v → accepted u = w.orc.accepted u := fun u hu => by
    rw [← haccepted, Function.update_of_ne hu]
  have hgrow : ∃ more, accepted .ctrl = w.orc.accepted .ctrl ++ more := by
    by_cases hv : v = .ctrl
    · exact ⟨[q], hv ▸ hself⟩
    · exact ⟨[], by rw [hother .ctrl (Ne.symm hv), List.append_nil]⟩
  obtain ⟨more, hgrow⟩ := hgrow
  have hfds : (∀ p, S.stage { w.orc with accepted := accepted } p = S.stage w.orc p) ∧
      ∀ u, ∀ fid < S.size, descriptor (w.orc.gather.state.fragments fid) u =
        if (Stage.hello u).rank <
            (S.stage w.orc (S.owner { w.orc with accepted := accepted } fid)).rank
        then S.fd u (S.owner { w.orc with accepted := accepted } fid) else -1 := by
    obtain ⟨rfl, hop⟩ | ⟨rfl, hhello⟩ := hcases
    · have hcall : w.orc.call = none := by
        cases hcall : w.orc.call with
        | none => rfl
        | some c => exact absurd ((h.orc.call c.1 c.2 hcall).1.symm.trans hop) (by simp)
      have hsent := h.orc.sends (by rw [hop]; rfl)
      have hanswered := h.orc.receives (by rw [hop]; rfl)
      have hidle := S.stage_idle hcall hsent hanswered
      refine ⟨fun p => ?_, fun u fid hfid => ?_⟩
      · rw [S.stage_idle (o := { w.orc with accepted := accepted }) hcall hsent hanswered, hidle]
      · have hold := h.orc.fds u fid hfid
        rw [hidle, hop] at hold ⊢
        cases u <;> exact hold
    · have howner : S.owner { w.orc with accepted := accepted } = S.owner w.orc :=
        owner_congr (hother .ctrl (by decide))
      have hwho : S.who { w.orc with accepted := accepted } = S.who w.orc := by
        rw [who_eq_owner (o := { w.orc with accepted := accepted }) hhello, who_eq_owner hhello, howner]
      refine ⟨fun p => ?_, fun u fid hfid => ?_⟩
      · simp only [Setting.stage, howner, hwho]
        rfl
      · rw [howner]
        exact h.orc.fds u fid hfid
  have hnodup : ∀ u, (accepted u).Nodup := fun u => by
    by_cases hu : u = v
    · subst hu
      rw [hself]
      simpa using List.Nodup.concat hnew (h.orc.nodup u)
    · rw [hother u hu]
      exact h.orc.nodup u
  have hlt : ∀ u, ∀ a ∈ accepted u, a < S.size := fun u a ha => by
    by_cases hu : u = v
    · subst hu
      rw [hself] at ha
      obtain ha | ha := List.mem_append.mp ha
      · exact h.orc.lt u a ha
      · exact List.mem_singleton.mp ha ▸ hq
    · rw [hother u hu] at ha
      exact h.orc.lt u a ha
  have hfull : ∀ u, w.orc.op.met u → (accepted u).length = S.size := fun u hu => by
    have huv : u ≠ v := fun he => hmet (he ▸ hu)
    rw [hother u huv]
    exact h.orc.full u hu
  refine ⟨?_, fun p hp => ?_⟩
  · exact
      { h.orc with
        nodup := hnodup
        lt := hlt
        full := hfull
        fds := fun u fid hfid => by
          rw [hfds.1]
          exact hfds.2 u fid hfid }
  · exact (h.peers p hp).congr (hfds.1 p) (fun id hid => hid.grow hp hgrow) rfl (fun _ => rfl)
      fun _ => rfl

end Accept

section Testcase
variable {S : Setting} {o : Orc} {w w' : System} {fid q : ℕ} {t : RequestType} {v : Overlay}

theorem OrcInv.peer_fragment (h : OrcInv S o) (hop : o.op = .testcase) (hfid : fid < S.size) :
    S.peer v (descriptor (o.gather.state.fragments fid) v) = S.owner o fid ∧
      S.owner o fid < S.size := by
  have hlt : S.owner o fid < S.size := (h.owner_bijOn (by rw [hop]; simp)).mapsTo hfid
  have hrank := (h.stage_rank (S.owner o fid)).1
  rw [hop] at hrank
  rw [h.fds v fid hfid, if_pos (Nat.lt_of_lt_of_le (by cases v <;> decide) hrank), S.peer_fd hlt]
  exact ⟨rfl, hlt⟩

theorem OrcInv.stage_testcase (h : OrcInv S o) (hop : o.op = .testcase) (hcall : o.call = none)
    (q : ℕ) : S.stage o q = .request .endTestcase := by
  rw [h.stage_idle hcall (by rw [hop]; rfl) (by rw [hop]; rfl), hop]
  rfl

theorem OrcInv.setCall (h : OrcInv S o) (hop : o.op = .testcase) {call : Option (ℕ × RequestType)}
    (hcall : ∀ fid t, call = some (fid, t) → fid < S.size) (subscribed : ℕ → Bool) :
    OrcInv S { o with call := call, subscribed := subscribed } := by
  have hnew : ∀ q, (Stage.request .endTestcase).rank ≤
      (S.stage { o with call := call, subscribed := subscribed } q).rank := by
    intro q
    rw [Setting.stage]
    split
    · split_ifs
      · exact Nat.le_refl 16
      · rw [hop]
        exact Nat.le_refl _
    · rw [hop]
      split_ifs <;> exact Nat.le_refl _
  exact
    { h with
      fds := fun v fid hfid => by
        have hold := (h.stage_rank (S.owner o fid)).1
        rw [hop] at hold
        have hpast : (Stage.hello v).rank < (Stage.request .endTestcase).rank := by
          cases v <;> decide
        have hget := h.fds v fid hfid
        rw [if_pos (Nat.lt_of_lt_of_le hpast hold)] at hget
        rw [if_pos (Nat.lt_of_lt_of_le hpast (hnew _))]
        exact hget
      call := fun fid t he => ⟨hop, hcall fid t he⟩ }

theorem SystemInv.call (h : SystemInv S w) (hs : w.call S fid t = some w') : SystemInv S w' := by
  rw [System.call] at hs
  by_cases hcond : w.orc.op = .testcase ∧ w.orc.call = none ∧ fid < w.orc.gather.state.size
  swap
  · rw [if_neg hcond] at hs
    exact absurd hs (by simp)
  rw [if_pos hcond] at hs
  obtain ⟨hop, hcall, hfid⟩ := hcond
  rw [h.orc.size] at hfid
  obtain ⟨hpeer, hlt⟩ := h.orc.peer_fragment (v := .ctrl) hop hfid
  change S.peer .ctrl (w.orc.gather.state.fragments fid).fdCtrl = _ at hpeer
  simp only [hpeer] at hs
  generalize (if t = .pcapSubscription then
    Function.update w.orc.subscribed fid (!w.orc.subscribed fid) else w.orc.subscribed) =
    subscribed at hs
  generalize ho' : ({ w.orc with call := some (fid, t), subscribed := subscribed } : Orc) = o' at hs
  have horc : OrcInv S o' := by
    rw [← ho']
    refine h.orc.setCall hop (fun i u he => ?_) subscribed
    obtain ⟨rfl, -⟩ := Prod.mk.inj (Option.some.inj he)
    exact hfid
  have hstage : ∀ p, S.stage o' p =
      if S.owner w.orc fid = p then .reply t else .request .endTestcase := fun p => by
    rw [← ho', Setting.stage]
    simp only [hop]
    rfl
  have his : ∀ p id, S.Is w.orc p id → S.Is o' p id := fun p id hid => by
    rw [← ho']
    exact ⟨hid.lt, hid.owner⟩
  obtain rfl := Option.some.inj hs
  refine ⟨horc, fun p hp => ?_⟩
  have hbefore := h.orc.stage_testcase hop hcall
  by_cases hpq : p = S.owner w.orc fid
  · subst hpq
    refine (h.peers _ hp).request .ctrl t.type fid ?_ ⟨hfid, rfl⟩ (his _)
      (System.setRequests_self ..) (fun u hu => System.setRequests_ne _ (by simp [hu])) rfl rfl
    rw [hbefore, hstage, if_pos rfl]
    exact next_iff.mpr ⟨rfl, dispatch_request t⟩
  · refine (h.peers p hp).congr ?_ (his p) rfl
      (fun u => System.setRequests_ne _ (by simp [hpq])) fun _ => rfl
    rw [hbefore, hstage, if_neg (Ne.symm hpq)]

theorem SystemInv.replied (h : SystemInv S w) (hcall : w.orc.call = some (fid, t)) {m : Response}
    {rest : List Response} (hhead : w.responses (S.owner w.orc fid, .ctrl) = m :: rest) :
    S.Told w.orc (S.owner w.orc fid) m ∧ m.type = t.type ∧
      protocol.Coherent ofOrc (.request .endTestcase) (w.fragment (S.owner w.orc fid)).stage
        ((w.setResponses (S.owner w.orc fid, .ctrl) rest).queue (S.owner w.orc fid)) := by
  obtain ⟨hop, hfid⟩ := h.orc.call fid t hcall
  have hpeer := h.peers _ (h.orc.peer_fragment (v := .ctrl) hop hfid).2
  have hmem : m ∈ w.responses (S.owner w.orc fid, .ctrl) := hhead ▸ List.mem_cons_self
  have htype : m.type ≠ .pcapData := fun he =>
    absurd (hpeer.packets .ctrl m hmem he).1 (by decide)
  have hstage : S.stage w.orc (S.owner w.orc fid) = .reply t := by
    rw [Setting.stage, hcall]
    exact if_pos rfl
  have hnext : protocol.next (S.stage w.orc (S.owner w.orc fid)) ⟨.ctrl, false, t.type⟩ =
      some (.request .endTestcase) := by
    rw [hstage]
    exact next_iff.mpr ⟨rfl, if_pos rfl⟩
  obtain ⟨hqueue, hqueues⟩ := queue_responded htype hhead (System.setResponses_self ..)
    (fun u hu => System.setResponses_ne _ (by simp [hu])) fun _ => rfl
  obtain ⟨z, hz, hcoherent⟩ := hpeer.coherent.recv hnext rfl hqueue hqueues
  obtain ⟨hsame, rfl⟩ := response_next hz hnext
  exact ⟨hpeer.responses .ctrl m hmem, hsame, hcoherent⟩

theorem SystemInv.result (h : SystemInv S w) (hs : w.result S = some w') : SystemInv S w' := by
  obtain ⟨⟨fid, t⟩, hcall, hs⟩ := Option.bind_eq_some_iff.mp hs
  obtain ⟨hop, hfid⟩ := h.orc.call fid t hcall
  obtain ⟨hpeer, hlt⟩ := h.orc.peer_fragment (v := .ctrl) hop hfid
  change S.peer .ctrl (w.orc.gather.state.fragments fid).fdCtrl = _ at hpeer
  simp only [hpeer] at hs
  cases hhead : w.responses (S.owner w.orc fid, .ctrl) with
  | nil => simp [hhead] at hs
  | cons m rest =>
    simp only [hhead] at hs
    obtain ⟨-, -, hcoherent⟩ := h.replied hcall hhead
    generalize ho' : ({ w.orc with call := none } : Orc) = o' at hs
    have horc : OrcInv S o' := by
      rw [← ho']
      exact h.orc.setCall hop (fun i u he => absurd he (by simp)) w.orc.subscribed
    have hstage : ∀ p, S.stage o' p = .request .endTestcase := by
      rw [← ho'] at horc ⊢
      exact horc.stage_testcase hop rfl
    have his : ∀ p id, S.Is w.orc p id → S.Is o' p id := fun p id hid => by
      rw [← ho']
      exact ⟨hid.lt, hid.owner⟩
    obtain rfl := Option.some.inj hs
    refine ⟨horc, fun p hp => ?_⟩
    by_cases hpq : p = S.owner w.orc fid
    · subst hpq
      refine (h.peers _ hp).responded ?_ (his _) hhead (System.setResponses_self ..)
        (fun u hu => System.setResponses_ne _ (by simp [hu])) rfl rfl
      rw [hstage]
      exact hcoherent
    · refine (h.peers p hp).congr ?_ (his p) rfl (fun _ => rfl)
        fun u => System.setResponses_ne _ (by simp [hpq])
      rw [hstage, Setting.stage, hcall]
      simp only [hop, if_neg (Ne.symm hpq)]
      rfl

/-- In RUN_TESTCASE nothing but captured packets comes on the pcap overlay. -/
theorem SystemInv.captured (h : SystemInv S w) (hop : w.orc.op = .testcase) (hq : q < S.size)
    {m : Response} (hm : m ∈ w.responses (q, .pcap)) : m.type = .pcapData := by
  have hrank := (h.orc.stage_rank q).1
  rw [hop] at hrank
  have hsilent := pcap_silent (h.peers q hq).coherent (Nat.le_trans (by decide) hrank)
  have hnil : (w.responses (q, .pcap)).filter (·.type ≠ .pcapData) = [] := by
    simpa [System.queue] using hsilent
  have hnone := List.filter_eq_nil_iff.mp hnil m hm
  simpa using hnone

theorem SystemInv.capture (h : SystemInv S w) (hs : w.capture S fid = some w') :
    SystemInv S w' := by
  rw [System.capture] at hs
  split_ifs at hs with hcond
  obtain ⟨hop, hfid, -⟩ := hcond
  rw [h.orc.size] at hfid
  obtain ⟨hpeer, hlt⟩ := h.orc.peer_fragment (v := .pcap) hop hfid
  change S.peer .pcap (w.orc.gather.state.fragments fid).fdPcap = _ at hpeer
  simp only [hpeer] at hs
  cases hhead : w.responses (S.owner w.orc fid, .pcap) with
  | nil => simp [hhead] at hs
  | cons m rest =>
    simp only [hhead] at hs
    obtain rfl := Option.some.inj hs
    have hall : ∀ e ∈ m :: rest, e.type = .pcapData := fun e he =>
      h.captured hop hlt (hhead ▸ he)
    have hqueue : (w.setResponses (S.owner w.orc fid, .pcap) rest).queue (S.owner w.orc fid) =
        w.queue (S.owner w.orc fid) := by
      refine queue_packet (fun u => ?_) fun _ => rfl
      by_cases hu : u = .pcap
      · subst hu
        rw [System.setResponses_self, hhead, List.filter_cons, if_neg (by
          simpa using hall m List.mem_cons_self)]
      · rw [System.setResponses_ne _ (by simp [hu])]
    refine ⟨h.orc, fun p hp => ?_⟩
    by_cases hpq : p = S.owner w.orc fid
    · subst hpq
      refine (h.peers _ hp).responded ?_ (fun id hid => hid) hhead (System.setResponses_self ..)
        (fun u hu => System.setResponses_ne _ (by simp [hu])) rfl rfl
      rw [hqueue]
      exact (h.peers _ hp).coherent
    · exact (h.peers p hp).congr rfl (fun id hid => hid) rfl (fun _ => rfl)
        fun u => System.setResponses_ne _ (by simp [hpq])

end Testcase

end Mixnet.Session
