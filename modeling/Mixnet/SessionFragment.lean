import Mixnet.SessionInvariant

/-! What the steps of a fragment do to the invariant: it sends what its stage calls for, and the
request that it reads is one that its stage accepts. -/
namespace Mixnet.Session
open Codec (MessageType)
open Orchestrator (checkRequest)
open Requests (RequestType)

section Frames
variable {S : Setting} {w w' : System} {p q : ℕ} {v : Overlay}

@[simp] theorem System.setFragment_self (f : Fragment) : (w.setFragment q f).fragment q = f :=
  Function.update_self ..

@[simp] theorem System.setFragment_ne (f : Fragment) (h : p ≠ q) :
    (w.setFragment q f).fragment p = w.fragment p := Function.update_of_ne h ..

theorem System.setFragment_eq_self (w : System) (q : ℕ) : w.setFragment q (w.fragment q) = w := by
  rw [System.setFragment, Function.update_eq_self]

@[simp] theorem System.setRequests_self (c : ℕ × Overlay) (ms : List Request) :
    (w.setRequests c ms).requests c = ms := Function.update_self ..

theorem System.setRequests_ne {c c' : ℕ × Overlay} (ms : List Request) (h : c' ≠ c) :
    (w.setRequests c ms).requests c' = w.requests c' := Function.update_of_ne h ..

@[simp] theorem System.setResponses_self (c : ℕ × Overlay) (ms : List Response) :
    (w.setResponses c ms).responses c = ms := Function.update_self ..

theorem System.setResponses_ne {c c' : ℕ × Overlay} (ms : List Response) (h : c' ≠ c) :
    (w.setResponses c ms).responses c' = w.responses c' := Function.update_of_ne h ..

structure SystemInv (S : Setting) (w : System) : Prop where
  orc : OrcInv S w.orc
  peers : ∀ q < S.size, PeerInv S w q

theorem SystemInv.move (h : SystemInv S w) (horc : w'.orc = w.orc) (hq : PeerInv S w' q)
    (hfragment : ∀ p ≠ q, w'.fragment p = w.fragment p)
    (hrequests : ∀ p ≠ q, ∀ v, w'.requests (p, v) = w.requests (p, v))
    (hresponses : ∀ p ≠ q, ∀ v, w'.responses (p, v) = w.responses (p, v)) : SystemInv S w' := by
  refine ⟨horc ▸ h.orc, fun p hp => ?_⟩
  by_cases hpq : p = q
  · exact hpq ▸ hq
  · exact (h.peers p hp).congr (by rw [horc]) (fun id hid => by rwa [horc]) (hfragment p hpq)
      (hrequests p hpq) (hresponses p hpq)

theorem SystemInv.setFragment (h : SystemInv S w) (hq : q < S.size) {f : Fragment}
    (hstage : f.stage = (w.fragment q).stage) (hprocess : f.process = (w.fragment q).process)
    (hneighbors : f.numNeighbors = (w.fragment q).numNeighbors)
    (hkept : (w.fragment q).launched = true → f.launched = true)
    (hlaunched : f.launched = true → (Stage.request .endTestcase).rank ≤ f.stage.rank) :
    SystemInv S (w.setFragment q f) := by
  have hpeer := h.peers q hq
  refine h.move rfl (q := q) ?_ (fun p hp => System.setFragment_ne f hp) (fun _ _ _ => rfl)
    fun _ _ _ => rfl
  have hself : (w.setFragment q f).fragment q = f := System.setFragment_self f
  exact
    { coherent := by
        rw [hself, hstage]
        exact hpeer.coherent
      requests := hpeer.requests
      responses := hpeer.responses
      pid := by rw [hself, hprocess]; exact hpeer.pid
      joined := by rw [hself, hstage, hprocess]; exact hpeer.joined
      neighbors := by rw [hself, hstage, hneighbors]; exact hpeer.neighbors
      launched := by rw [hself]; exact hlaunched
      packets := fun v m hm htype => by
        obtain ⟨hv, hold⟩ := hpeer.packets v m hm htype
        rw [hself]
        exact ⟨hv, hkept hold⟩ }

theorem fragmentStep_spec {act : Fragment → Option System} (hs : w.fragmentStep S q act = some w') :
    q < S.size ∧ act (w.fragment q) = some w' := by
  rw [System.fragmentStep] at hs
  split_ifs at hs with hcond
  exact ⟨hcond.1, hs⟩

end Frames

section Respond
variable {S : Setting} {o : Orc} {w w' : System} {f : Fragment} {r : Outcome} {q id : ℕ}
  {v : Overlay} {m : Response} {s : Stage}

theorem response_checked {p : Phase} {ec : ErrorCode} (hsockets : f.socketsWork r = true)
    (hstage : f.stage = .answer p) (hneighbors : f.numNeighbors = S.numNeighbors id) :
    S.check p id (f.response p.type ec r) = .none := by
  rw [Fragment.socketsWork, hstage] at hsockets
  cases p with
  | startMixnetServer =>
    simp only [Setting.check, ← hneighbors]
    by_cases hzero : f.numNeighbors = 0
    · rw [if_pos hzero]
    · have hport : r.port ≠ 0 := by simpa [hzero] using hsockets
      have hvalid : (f.response Phase.startMixnetServer.type ec r).serverNetaddr.valid = true := by
        simp [Fragment.response, Wiring.NetAddr.valid, hport]
      simp [hzero, hvalid]
  | startMixnetClients =>
    obtain ⟨hlength, hvalid⟩ : r.clientNetaddrs.length = f.numNeighbors.toNat ∧
        ∀ a ∈ r.clientNetaddrs, a.valid = true := by simpa using hsockets
    have hall : (List.range f.numNeighbors.toNat).all
        (fun nid => (r.clientNetaddrs.getD nid {}).valid) = true := by
      refine List.all_eq_true.mpr fun nid hnid => ?_
      have hlt : nid < r.clientNetaddrs.length := hlength ▸ List.mem_range.mp hnid
      rw [List.getD_eq_getElem _ _ hlt]
      exact hvalid _ (List.getElem_mem hlt)
    simp only [Setting.check, ← hneighbors]
    rw [if_neg (by simp [Fragment.response])]
    exact if_pos hall
  | _ => rfl

theorem respond_spec (h : f.respond r = some (v, m, s)) :
    f.stage.channel = some (v, false) ∧ f.stage.step m.type = some s ∧
      ∃ type ec, m = f.response type ec r ∧ (ec = .none ∨ ∃ t : RequestType, type = t.type) ∧
        (type = .setupCtrl ∨ (Stage.request .setupPcap).rank ≤ f.stage.rank) ∧
        type ≠ .pcapData ∧ ∀ p : Phase, type = p.type →
          p = .setupPcap ∨ f.stage = .answer p ∧ f.socketsWork r = true := by
  rw [Fragment.respond] at h
  split at h
  next u hstage =>
    split_ifs at h with hconnected
    obtain ⟨rfl, rfl, rfl⟩ : u = v ∧ f.response u.type .none r = m ∧ Stage.welcome u = s := by
      simpa using h
    rw [hstage]
    refine ⟨rfl, if_pos rfl, _, _, rfl, Or.inl rfl, ?_, ?_, fun p hp => Or.inl ?_⟩
    · cases u
      · exact Or.inl rfl
      · exact Or.inr (by decide)
    · cases u <;> decide
    · cases u <;> cases p <;> first | rfl | exact absurd hp (by decide)
  next p hstage =>
    split_ifs at h with hsockets
    obtain ⟨rfl, rfl, rfl⟩ : Overlay.ctrl = v ∧ f.response p.type .none r = m ∧ p.after = s := by
      simpa using h
    rw [hstage]
    refine ⟨rfl, if_pos rfl, _, _, rfl, Or.inl rfl, Or.inr ?_, ?_,
      fun p' hp' => Or.inr ?_⟩
    · cases p <;> decide
    · cases p <;> decide
    · have hpp : p = p' := by cases p <;> cases p' <;> first | rfl | exact absurd hp' (by decide)
      exact ⟨by rw [hpp], hsockets⟩
  next t hstage =>
    obtain ⟨rfl, rfl, rfl⟩ : Overlay.ctrl = v ∧ f.response t.type r.errorCode r = m ∧
        Stage.request .endTestcase = s := by simpa using h
    rw [hstage]
    refine ⟨rfl, if_pos rfl, _, _, rfl, Or.inr ⟨t, rfl⟩, Or.inr (by simp [Stage.rank, Phase.rank]),
      ?_, fun p' hp' => ?_⟩
    · cases t <;> decide
    · cases t <;> cases p' <;> exact absurd hp' (by decide)
  next => exact absurd h (by simp)

theorem response_past {s' : Stage} {t : MessageType} (hchan : s.channel = some (v, false))
    (hstep : s.step t = some s') {k : ℕ} (hk : k ∈ [1, 2, 5, 6, 8, 10, 12, 14, 18])
    (hs' : k + 1 ≤ s'.rank) : k + 1 ≤ s.rank := by
  have hrank := (step_rank hstep).2
  have hne : s.rank ≠ k := fun he => request_at he hk v hchan
  omega

theorem PeerInv.told (h : PeerInv S w q) (horc : OrcInv S w.orc) (hq : q < S.size)
    (hrespond : (w.fragment q).respond r = some (v, m, s)) : S.Told w.orc q m := by
  obtain ⟨-, -, type, ec, rfl, hec, hjoined, -, hphase⟩ := respond_spec hrespond
  refine ⟨rfl, rfl, h.pid, hjoined.imp_right fun hrank => ?_, hec⟩
  obtain ⟨id, hid, hfid⟩ := h.joined hrank
  refine ⟨id, hid, hfid, fun p hp => ?_⟩
  obtain rfl : type = p.type := hp
  obtain rfl | ⟨hstage, hsockets⟩ := hphase p rfl
  · rfl
  · by_cases hpast : (Stage.answer .topology).rank ≤ (w.fragment q).stage.rank
    · obtain ⟨id', hid', hneighbors⟩ := h.neighbors hpast
      obtain rfl := hid.unique horc hq hid'
      exact response_checked hsockets hstage hneighbors
    · rw [hstage] at hpast
      cases p with
      | startMixnetServer | startMixnetClients => exact absurd (by decide) hpast
      | _ => rfl

theorem SystemInv.append (h : SystemInv S w) (hq : q < S.size) (htold : S.Told w.orc q m)
    (hw' : w' = (w.setResponses (q, v) (w.responses (q, v) ++ [m])).setFragment q
      { w.fragment q with stage := s })
    (hcoherent : protocol.Coherent ofOrc (S.stage w.orc q) s (w'.queue q))
    (hpast : ∀ k ∈ [1, 6], k + 1 ≤ s.rank → k + 1 ≤ (w.fragment q).stage.rank)
    (hrank : (w.fragment q).stage.rank ≤ s.rank)
    (hpacket : m.type = .pcapData → v = .pcap ∧ (w.fragment q).launched = true) :
    SystemInv S w' := by
  have hpeer := h.peers q hq
  have hself : w'.responses (q, v) = w.responses (q, v) ++ [m] := by
    rw [hw']
    exact System.setResponses_self ..
  have hother : ∀ c ≠ (q, v), w'.responses c = w.responses c := fun c hc => by
    rw [hw']
    exact System.setResponses_ne _ hc
  have hfragment : w'.fragment q = { w.fragment q with stage := s } := by
    rw [hw']
    exact System.setFragment_self _
  have horc : w'.orc = w.orc := by rw [hw']; rfl
  have hrequests : w'.requests = w.requests := by rw [hw']; rfl
  have hmem : ∀ u, ∀ e ∈ w'.responses (q, u), e ∈ w.responses (q, u) ∨ u = v ∧ e = m := by
    intro u e he
    by_cases hu : u = v
    · subst hu
      rw [hself] at he
      obtain he | he := List.mem_append.mp he
      · exact Or.inl he
      · exact Or.inr ⟨rfl, List.mem_singleton.mp he⟩
    · rw [hother (q, u) (by simp [hu])] at he
      exact Or.inl he
  have hinv : PeerInv S w' q :=
    { coherent := by rw [horc, hfragment]; exact hcoherent
      requests := by rw [horc, hrequests]; exact hpeer.requests
      responses := fun u e he => by
        rw [horc]
        obtain he | ⟨-, rfl⟩ := hmem u e he
        · exact hpeer.responses u e he
        · exact htold
      pid := by rw [hfragment]; exact hpeer.pid
      joined := fun hr => by
        rw [hfragment] at hr ⊢
        rw [horc]
        exact hpeer.joined (hpast 1 (by decide) hr)
      neighbors := fun hr => by
        rw [hfragment] at hr ⊢
        rw [horc]
        exact hpeer.neighbors (hpast 6 (by decide) hr)
      launched := fun hlaunched => by
        rw [hfragment] at hlaunched ⊢
        exact Nat.le_trans (hpeer.launched hlaunched) hrank
      packets := fun u e he htype => by
        rw [hfragment]
        obtain he | ⟨rfl, rfl⟩ := hmem u e he
        · exact hpeer.packets u e he htype
        · exact hpacket htype }
  refine h.move horc hinv (fun p hp => ?_) (fun p _ u => by rw [hrequests])
    fun p hp u => hother _ (by simp [hp])
  rw [hw']
  exact System.setFragment_ne _ hp

theorem SystemInv.respond (h : SystemInv S w) (hs : w.respond S q r = some w') :
    SystemInv S w' := by
  obtain ⟨hq, hs⟩ := fragmentStep_spec hs
  obtain ⟨⟨v, m, s⟩, hrespond, rfl⟩ := Option.map_eq_some_iff.mp hs
  have hpeer := h.peers q hq
  obtain ⟨hchan, hstep, type, ec, hm, -, -, htype, -⟩ := respond_spec hrespond
  have hmtype : m.type ≠ .pcapData := hm ▸ htype
  refine h.append hq (hpeer.told h.orc hq hrespond) rfl ?_ (fun k hk => ?_) (step_rank hstep).1
    fun he => absurd he hmtype
  · have hnext : protocol.next (w.fragment q).stage ⟨v, false, m.type⟩ = some s :=
      next_iff.mpr ⟨hchan, hstep⟩
    refine Duality.Protocol.coherent_swap.mp
      ((Duality.Protocol.coherent_swap.mpr hpeer.coherent).send hnext rfl fun c => ?_)
    exact queue_response hmtype (System.setResponses_self ..)
      (fun u hu => System.setResponses_ne _ (by simp [hu])) (fun _ => rfl) c
  · refine response_past hchan hstep ?_
    simp only [List.mem_cons, List.not_mem_nil, or_false] at hk ⊢
    omega

theorem SystemInv.packet {totalSize : UInt16} (h : SystemInv S w)
    (hs : w.packet S q totalSize = some w') : SystemInv S w' := by
  rw [System.packet] at hs
  split_ifs at hs with hcond
  obtain ⟨hq, hlaunched, -⟩ := hcond
  have hpeer := h.peers q hq
  have hrank := hpeer.launched hlaunched
  obtain ⟨id, hid, hfid⟩ := hpeer.joined (Nat.le_trans (by decide) hrank)
  have htold : S.Told w.orc q { toReply := { (w.fragment q).process.response .pcapData with
      totalSize := totalSize } } := by
    refine ⟨rfl, rfl, hpeer.pid, Or.inr ⟨id, hid, hfid, fun p hp => ?_⟩, Or.inl rfl⟩
    have hne : MessageType.pcapData = p.type := hp
    cases p <;> exact absurd hne (by decide)
  refine h.append (s := (w.fragment q).stage) (v := .pcap) hq htold ?_ ?_ (fun k _ hk => hk)
    (Nat.le_refl _) fun _ => ⟨rfl, hlaunched⟩
  · rw [← Option.some.inj hs]
    exact (System.setFragment_eq_self (w.setResponses (q, .pcap) _) q).symm
  · have hqueue : w'.queue q = w.queue q := by
      obtain rfl := Option.some.inj hs
      refine queue_packet (fun u => ?_) fun _ => rfl
      by_cases hu : u = .pcap
      · subst hu
        rw [System.setResponses_self, List.filter_append]
        simp [Orchestrator.Process.response]
      · rw [System.setResponses_ne _ (by simp [hu])]
    rw [hqueue]
    exact hpeer.coherent

end Respond

section Receive
variable {S : Setting} {w w' : System} {f : Fragment} {a : Awaited} {q id : ℕ} {s s' : Stage}
  {type : MessageType}

theorem awaits_next (ha : s.awaits = some a) :
    ∃ t z, protocol.next s ⟨a.overlay, true, t⟩ = some z := by
  cases s with
  | welcome v =>
    refine ⟨v.type, v.after, ?_⟩
    cases v <;> obtain rfl := Option.some.inj ha <;> rfl
  | request p =>
    refine ⟨p.type, .answer p, ?_⟩
    cases p <;> obtain rfl := Option.some.inj ha <;> rfl
  | hello v | answer p | reply t => exact absurd ha (by simp [Stage.awaits])
  | done => exact absurd ha (by simp [Stage.awaits])

theorem awaits_spec (ha : s.awaits = some a) (hstep : s.step type = some s') :
    (a.checkId = true → (Stage.request .setupPcap).rank ≤ s.rank) ∧
      if a.checkType then type = a.type else ∃ z, dispatch type = some z := by
  cases s with
  | welcome v =>
    simp only [Stage.step] at hstep
    split_ifs at hstep with htype
    subst htype
    cases v with
    | ctrl =>
      obtain rfl := Option.some.inj ha
      exact ⟨fun h => absurd h (by decide), rfl⟩
    | pcap =>
      obtain rfl := Option.some.inj ha
      exact ⟨fun _ => by decide, rfl⟩
  | request p =>
    refine ⟨fun _ => by cases p <;> decide, ?_⟩
    cases p with
    | endTestcase =>
      obtain rfl := Option.some.inj ha
      exact ⟨s', hstep⟩
    | _ =>
      obtain rfl := Option.some.inj ha
      exact (step_request (by decide) hstep).1
  | hello v | answer p | reply t => exact absurd ha (by simp [Stage.awaits])
  | done => exact absurd ha (by simp [Stage.awaits])

/-- A fragment before and after it has read a request that the orchestrator has sent to it as
fragment `id`: the request takes it to stage `s`. -/
structure Fragment.Learns (S : Setting) (f : Fragment) (id : ℕ) (s : Stage) (f' : Fragment) :
    Prop where
  stage : f'.stage = s
  pid : f'.process.pid = f.process.pid
  launched : f'.launched = f.launched
  errorCode : f'.errorCode = f.errorCode
  fid : (Stage.request .setupPcap).rank ≤ s.rank → f'.process.fid = UInt16.ofNat id
  neighbors : (Stage.answer .topology).rank ≤ s.rank → f'.numNeighbors = S.numNeighbors id

theorem handle_spec (ha : f.stage.awaits = some a) (hstep : f.stage.step type = some s)
    (hfid : (Stage.request .setupPcap).rank ≤ f.stage.rank → f.process.fid = UInt16.ofNat id)
    (hneighbors : (Stage.answer .topology).rank ≤ f.stage.rank →
      f.numNeighbors = S.numNeighbors id) :
    f.Learns S id s (f.handle (S.request type id)) := by
  obtain ⟨process, stage, numNeighbors, connected, launched, errorCode⟩ := f
  dsimp only at ha hstep hfid hneighbors
  cases stage with
  | welcome v =>
    simp only [Stage.step] at hstep
    split_ifs at hstep
    obtain rfl := Option.some.inj hstep
    cases v with
    | ctrl => exact ⟨rfl, rfl, rfl, rfl, fun _ => rfl, fun h => absurd h (by decide)⟩
    | pcap =>
      exact ⟨rfl, rfl, rfl, rfl, fun _ => hfid (by decide), fun h => absurd h (by decide)⟩
  | request p =>
    cases p with
    | endTestcase =>
      have hhandle : (Fragment.handle ⟨process, .request .endTestcase, numNeighbors, connected,
          launched, errorCode⟩ (S.request type id)) =
          ⟨process, s, numNeighbors, connected, launched, errorCode⟩ := by
        have hdispatch : dispatch (S.request type id).type = some s := hstep
        simp only [Fragment.handle, hdispatch]
      rw [hhandle]
      exact ⟨rfl, rfl, rfl, rfl, fun _ => hfid (by decide), fun _ => hneighbors (by decide)⟩
    | topology =>
      obtain ⟨-, rfl⟩ := step_request (by decide) hstep
      exact ⟨rfl, rfl, rfl, rfl, fun _ => hfid (by decide), fun _ => rfl⟩
    | startMixnetClients =>
      obtain ⟨-, rfl⟩ := step_request (by decide) hstep
      obtain rfl := hneighbors (by decide)
      have hhandle : (Fragment.handle ⟨process, .request .startMixnetClients, S.numNeighbors id,
          connected, launched, errorCode⟩ (S.request type id)) =
          ⟨process, .answer .startMixnetClients, S.numNeighbors id, connected, launched, errorCode⟩ :=
        if_neg (not_not.mpr rfl)
      rw [hhandle]
      exact ⟨rfl, rfl, rfl, rfl, fun _ => hfid (by decide), fun _ => rfl⟩
    | resolveMixnetConns =>
      obtain ⟨-, rfl⟩ := step_request (by decide) hstep
      obtain rfl := hneighbors (by decide)
      have hhandle : (Fragment.handle ⟨process, .request .resolveMixnetConns, S.numNeighbors id,
          connected, launched, errorCode⟩ (S.request type id)) =
          ⟨process, .answer .resolveMixnetConns, S.numNeighbors id, connected, launched, errorCode⟩ :=
        if_neg (not_not.mpr rfl)
      rw [hhandle]
      exact ⟨rfl, rfl, rfl, rfl, fun _ => hfid (by decide), fun _ => rfl⟩
    | setupPcap =>
      obtain ⟨-, rfl⟩ := step_request (by decide) hstep
      exact ⟨rfl, rfl, rfl, rfl, fun _ => hfid (by decide), fun h => absurd h (by decide)⟩
    | startMixnetServer | startTestcase | shutdown =>
      obtain ⟨-, rfl⟩ := step_request (by decide) hstep
      exact ⟨rfl, rfl, rfl, rfl, fun _ => hfid (by decide), fun _ => hneighbors (by decide)⟩
  | hello v | answer p | reply t => exact absurd ha (by simp [Stage.awaits])
  | done => exact absurd ha (by simp [Stage.awaits])

theorem receive_spec (ha : f.stage.awaits = some a) (hstep : f.stage.step type = some s)
    (hfid : (Stage.request .setupPcap).rank ≤ f.stage.rank → f.process.fid = UInt16.ofNat id)
    (hneighbors : (Stage.answer .topology).rank ≤ f.stage.rank →
      f.numNeighbors = S.numNeighbors id) :
    f.Accepts a (S.request type id) ∧ f.Learns S id s (f.receive a (S.request type id)) := by
  obtain ⟨hid, htype⟩ := awaits_spec ha hstep
  have hid' : a.checkId = true → (S.request type id).fragmentId = f.process.fid :=
    fun h => (hfid (hid h)).symm
  have htype' : a.checkType = true → (S.request type id).type = a.type := fun h => by
    rwa [if_pos h] at htype
  have hheader : checkRequest (S.request type id).toRequest a.checkId a.checkType f.process.fid
      a.type = .none := by
    have hid'' : ¬ (a.checkId = true ∧ (S.request type id).fragmentId ≠ f.process.fid) :=
      fun ⟨h, hne⟩ => hne (hid' h)
    have htype'' : ¬ (a.checkType = true ∧ (S.request type id).type ≠ a.type) :=
      fun ⟨h, hne⟩ => hne (htype' h)
    simp only [checkRequest, Bool.and_eq_true, decide_eq_true_eq]
    rw [if_neg (by simp [Setting.request, Orchestrator.request]),
      if_neg (by simp [Setting.request, Orchestrator.request]), if_neg hid'', if_neg htype'',
      if_neg (by simp [Setting.request, Orchestrator.request])]
  have hreceive : f.receive a (S.request type id) = f.handle (S.request type id) := by
    rw [Fragment.receive, hheader]
    simp
  have hlearns := handle_spec (S := S) ha hstep hfid hneighbors
  rw [← hreceive] at hlearns
  exact ⟨⟨rfl, hid', htype, hheader, hlearns.errorCode⟩, hlearns⟩

theorem PeerInv.accepts (h : PeerInv S w q) (horc : OrcInv S w.orc) (hq : q < S.size) {m : Request}
    {rest : List Request} (ha : (w.fragment q).stage.awaits = some a)
    (hhead : w.requests (q, a.overlay) = m :: rest) :
    (w.fragment q).Accepts a m ∧ ∃ id s, S.Is w.orc q id ∧
      (w.fragment q).Learns S id s ((w.fragment q).receive a m) ∧
      protocol.Coherent ofOrc (S.stage w.orc q) s ((w.setRequests (q, a.overlay) rest).queue q) ∧
      (w.fragment q).stage.rank ≤ s.rank := by
  obtain ⟨type, id, hid, rfl⟩ := h.requests a.overlay m (hhead ▸ List.mem_cons_self)
  obtain ⟨t, z, hnext⟩ := awaits_next ha
  have hothers : ∀ u, u ≠ a.overlay →
      (w.setRequests (q, a.overlay) rest).requests (q, u) = w.requests (q, u) :=
    fun u hu => System.setRequests_ne _ (by simp [hu])
  obtain ⟨hqueue, hqueues⟩ := queue_requested hhead (System.setRequests_self ..) hothers fun _ => rfl
  obtain ⟨s, hs, hcoherent⟩ := (Duality.Protocol.coherent_swap.mpr h.coherent).recv hnext rfl hqueue
    hqueues
  have hfid : (Stage.request .setupPcap).rank ≤ (w.fragment q).stage.rank →
      (w.fragment q).process.fid = UInt16.ofNat id := fun hrank => by
    obtain ⟨id', hid', he⟩ := h.joined hrank
    rw [he, hid'.unique horc hq hid]
  have hneighbors : (Stage.answer .topology).rank ≤ (w.fragment q).stage.rank →
      (w.fragment q).numNeighbors = S.numNeighbors id := fun hrank => by
    obtain ⟨id', hid', he⟩ := h.neighbors hrank
    rw [he, hid'.unique horc hq hid]
  have hstep : (w.fragment q).stage.step type = some s := (next_iff.mp hs).2
  obtain ⟨haccepts, hlearns⟩ := receive_spec ha hstep hfid hneighbors
  exact ⟨haccepts, id, s, hid, hlearns, Duality.Protocol.coherent_swap.mp hcoherent,
    (step_rank hstep).1⟩

theorem SystemInv.receive (h : SystemInv S w) (hs : w.receive S q = some w') :
    SystemInv S w' := by
  obtain ⟨hq, hs⟩ := fragmentStep_spec hs
  split_ifs at hs
  obtain ⟨a, ha, hs⟩ := Option.bind_eq_some_iff.mp hs
  cases hhead : w.requests (q, a.overlay) with
  | nil =>
    rw [hhead] at hs
    exact absurd hs (by simp)
  | cons m rest =>
    rw [hhead] at hs
    obtain rfl := Option.some.inj hs
    have hpeer := h.peers q hq
    obtain ⟨-, id, s, hid, hlearns, hcoherent, hrank⟩ := hpeer.accepts h.orc hq ha hhead
    generalize (w.fragment q).receive a m = f at hlearns
    obtain rfl := hlearns.stage
    have hself : ((w.setRequests (q, a.overlay) rest).setFragment q f).fragment q = f :=
      System.setFragment_self f
    refine h.move rfl (q := q) ?_ (fun p hp => System.setFragment_ne _ hp)
      (fun p hp u => System.setRequests_ne _ (by simp [hp])) fun _ _ _ => rfl
    exact
      { coherent := by rw [hself]; exact hcoherent
        requests := fun u e he => by
          refine hpeer.requests u e ?_
          by_cases hu : u = a.overlay
          · subst hu
            have hrest : e ∈ rest := System.setRequests_self (w := w) (q, a.overlay) rest ▸ he
            rw [hhead]
            exact List.mem_cons_of_mem _ hrest
          · have hne : (q, u) ≠ (q, a.overlay) := by simp [hu]
            exact System.setRequests_ne (w := w) rest hne ▸ he
        responses := hpeer.responses
        pid := by rw [hself, hlearns.pid]; exact hpeer.pid
        joined := fun hr => by
          rw [hself] at hr ⊢
          exact ⟨id, hid, hlearns.fid hr⟩
        neighbors := fun hr => by
          rw [hself] at hr ⊢
          exact ⟨id, hid, hlearns.neighbors hr⟩
        launched := fun hl => by
          rw [hself] at hl ⊢
          exact Nat.le_trans (hpeer.launched (hlearns.launched ▸ hl)) hrank
        packets := fun u e he htype => by
          rw [hself, hlearns.launched]
          exact hpeer.packets u e he htype }

end Receive

section Local
variable {S : Setting} {w w' : System} {q : ℕ} {v : Overlay}

theorem SystemInv.connect (h : SystemInv S w) (hs : w.connect S q v = some w') :
    SystemInv S w' := by
  obtain ⟨hq, hs⟩ := fragmentStep_spec hs
  split_ifs at hs
  obtain rfl := Option.some.inj hs
  exact h.setFragment hq rfl rfl rfl (fun hl => hl) (h.peers q hq).launched

theorem SystemInv.launch (h : SystemInv S w) (hs : w.launch S q = some w') : SystemInv S w' := by
  obtain ⟨hq, hs⟩ := fragmentStep_spec hs
  split_ifs at hs with hcond
  obtain rfl := Option.some.inj hs
  refine h.setFragment hq rfl rfl rfl (fun _ => rfl) fun _ => ?_
  change _ ≤ (w.fragment q).stage.rank
  rw [hcond.1]

theorem SystemInv.fail {ec : ErrorCode} (h : SystemInv S w) (hs : w.fail S q ec = some w') :
    SystemInv S w' := by
  obtain ⟨hq, hs⟩ := fragmentStep_spec hs
  obtain rfl := Option.some.inj hs
  exact h.setFragment hq rfl rfl rfl (fun hl => hl) (h.peers q hq).launched

end Local

end Mixnet.Session
