import Mathlib.Data.List.TakeWhile
import Mixnet.FragmentSteps

/-! The wiring invariant along the steps of the orchestrator: the requests it builds say the
truth, its metadata records what the fragments have answered, and no search fails. -/
namespace Mixnet.Wiring

variable {g : Graph} {host : ℕ → UInt32}

theorem accumulate_none {e e' : ErrorCode} : accumulate e e' = .none ↔ e = .none ∧ e' = .none := by
  by_cases h : e = .none <;> simp [accumulate, h]

theorem WiringInv.setOrchestrator {w : World} {o : Orchestrator} (h : WiringInv g host w)
    (ho : OrchestratorInv g host w o) : WiringInv g host { w with orchestrator := o } := by
  have hg : w.Grows { w with orchestrator := o } := World.Grows.of_eq rfl rfl
  constructor
  · exact h.kernel
  · exact h.fragment
  · exact fun u m hm => (h.requests u m hm).grows hg
  · exact fun u m hm => (h.responses u m hm).grows hg
  · exact ho.grows hg

section Phases

theorem answered_enter (o : Orchestrator) (s s' : OrchestratorState) (v : ℕ) :
    (o.enter s').Answered s v ↔ s.rank < s'.rank := by
  simp [Orchestrator.Answered, Orchestrator.enter]

theorem rank_lt_next {s p : OrchestratorState} (hs : s.type ≠ none) (hp : p.type ≠ none)
    (h : p.rank < s.next.rank) : p.rank < s.rank ∨ s = p := by
  cases s <;> cases p <;>
    simp_all [OrchestratorState.rank, OrchestratorState.next, OrchestratorState.type]

theorem OrchestratorInv.mono {w : World} {o o' : Orchestrator} (h : OrchestratorInv g host w o)
    (hstate : o'.state ≠ .aborted) (hfragments : o'.fragments = o.fragments)
    (hanswered : ∀ p : OrchestratorState, p.type ≠ none → ∀ v < g.numNodes,
      o'.Answered p v → o.Answered p v)
    (hunheard : ∀ v, o'.Unheard v → o.Unheard v) : OrchestratorInv g host w o' := by
  constructor
  · exact hstate
  · intro v hv ha
    rw [hfragments]
    exact h.servers v hv (hanswered _ (by decide) v hv ha)
  · intro v hv ha
    rw [hfragments]
    exact h.clients v hv (hanswered _ (by decide) v hv ha)
  · intro v hv ha
    exact h.resolved v hv (hanswered _ (by decide) v hv ha)
  · intro v hv
    rw [hfragments]
    exact h.unheard v (hunheard v hv)

theorem unheard_of_sending {o o' : Orchestrator} {i v : ℕ} (hloop : o.loop = .sending i)
    (h : o'.Unheard v) (hstate : o'.state = o.state) : o.Unheard v := by
  obtain hs | ⟨hs, _⟩ := h
  · exact Or.inl (hstate.symm.trans hs)
  · exact Or.inr ⟨hstate.symm.trans hs, fun pending hp => absurd (hloop.symm.trans hp) (by simp)⟩

theorem OrchestratorInv.enter {w : World} {o : Orchestrator} (h : OrchestratorInv g host w o)
    {s : OrchestratorState} (hs : s ≠ .aborted)
    (hanswered : ∀ p : OrchestratorState, p.type ≠ none → p.rank < s.rank → ∀ v, o.Answered p v)
    (hunheard : ∀ v, (o.enter s).Unheard v → o.Unheard v) :
    OrchestratorInv g host w (o.enter s) := by
  refine h.mono hs rfl ?_ ?_
  · intro p hp v _ ha
    exact hanswered p hp ((answered_enter o p s v).mp ha) v
  · exact hunheard

theorem OrchestratorInv.shutdown {w : World} {o : Orchestrator}
    (h : OrchestratorInv g host w o) : OrchestratorInv g host w (o.enter .gracefulShutdown) := by
  apply h.enter (by decide)
  · intro p _ hp
    exact absurd hp (Nat.not_lt_zero _)
  · intro v hv
    simp [Orchestrator.Unheard, Orchestrator.enter] at hv

theorem OrchestratorInv.next {w : World} {o : Orchestrator} (h : OrchestratorInv g host w o)
    (hloop : o.loop = .receiving []) (herror : o.errorCode = .none)
    (htype : o.state.type ≠ none) : OrchestratorInv g host w (o.enter o.state.next) := by
  apply h.enter
  · cases hstate : o.state <;> simp_all [OrchestratorState.next, OrchestratorState.type]
  · intro p hp hrank v
    obtain hlt | heq := rank_lt_next htype hp hrank
    · exact Or.inl hlt
    · exact Or.inr ⟨heq, herror, [], hloop, List.not_mem_nil⟩
  · intro v hv
    left
    cases hstate : o.state <;>
      simp_all [Orchestrator.Unheard, Orchestrator.enter, OrchestratorState.next,
        OrchestratorState.type]

end Phases

section Send

/-- The search of the RESOLVE lambda: the graph is symmetric, and every fragment has reported
as many addresses as it has neighbors. -/
theorem clientNetaddr_total {w : World} {o : Orchestrator} (hg : g.Simple)
    (h : OrchestratorInv g host w o) (hstate : o.state = .resolveMixnetConnections) {idx v : ℕ}
    (hv : v ∈ g.topology idx) : ∃ a j, o.clientNetaddr g idx v = some a ∧
      (g.topology v)[j]? = some idx ∧ ClientAddr g w.kernel v (w.fragment v) j a := by
  have hback : ∃ x, x ∈ g.topology v ∧ (x == idx) = true := ⟨idx, hg.symm idx v hv, by simp⟩
  have hfound := List.findIdx?_eq_some_of_exists hback
  obtain ⟨hj, hx, _⟩ := List.findIdx?_eq_some_iff_getElem.mp hfound
  generalize (g.topology v).findIdx (· == idx) = j at hfound hj hx
  have hanswered : o.Answered .startAllMixnetClients v := by
    left
    rw [hstate]
    decide
  obtain ⟨hlen, haddr⟩ := h.clients v (hg.lt idx v hv) hanswered
  have hj' : j < (o.fragments v).mixnetClientNetaddrs.length := by
    rw [hlen]
    exact hj
  have ha := List.getElem?_eq_getElem hj'
  refine ⟨_, j, ?_, ?_, haddr j _ ha⟩
  · rw [Orchestrator.clientNetaddr, hfound]
    exact ha
  · rw [List.getElem?_eq_getElem hj]
    simpa using hx

theorem request_spec {w : World} {o : Orchestrator} (hg : g.Simple)
    (h : OrchestratorInv g host w o) (htype : o.state.type ≠ none) (idx : ℕ)
    (hfits : 8 + (8 + 16 * (g.topology idx).length) + 4 ≤ 65535) :
    ∃ m, o.request g idx = some m ∧ m.exactLength ≤ 65535 ∧ RequestOk g host w idx m := by
  cases hstate : o.state with
  | startAllMixnetServers =>
    simp only [Orchestrator.request, hstate]
    exact ⟨_, rfl, by simp [CtrlMessage.exactLength], trivial⟩
  | startAllMixnetClients =>
    simp only [Orchestrator.request, hstate]
    refine ⟨_, rfl, hfits, fun i v hv => ?_⟩
    have hmem := List.mem_of_getElem? hv
    have hanswered : o.Answered .startAllMixnetServers v := by
      left
      rw [hstate]
      decide
    have hlistens := h.servers v (hg.lt idx v hmem) hanswered
      (List.ne_nil_of_mem (hg.symm idx v hmem))
    simpa [CtrlMessage.netaddr, List.getD, hv] using hlistens
  | resolveMixnetConnections =>
    have htotal : ∀ v ∈ g.topology idx, ∃ a, o.clientNetaddr g idx v = some a := by
      intro v hv
      obtain ⟨a, _, ha, _⟩ := clientNetaddr_total hg h hstate hv
      exact ⟨a, ha⟩
    obtain ⟨netaddrs, hnetaddrs⟩ := mapM_total htotal
    simp only [Orchestrator.request, hstate, hnetaddrs, Option.map_some]
    refine ⟨_, rfl, hfits, fun i v hv => ?_⟩
    obtain ⟨a, hi, ha⟩ := mapM_getElem hnetaddrs hv
    obtain ⟨a', j, ha', hj, haddr⟩ := clientNetaddr_total hg h hstate (List.mem_of_getElem? hv)
    rw [ha, Option.some.injEq] at ha'
    refine ⟨j, hj, ?_⟩
    simpa [CtrlMessage.netaddr, List.getD, hi, ha'] using haddr
  | startTestcase | gracefulShutdown | aborted => exact absurd (by rw [hstate]; rfl) htype

theorem OrchestratorInv.sending {w : World} {o : Orchestrator} (h : OrchestratorInv g host w o)
    {i : ℕ} (hloop : o.loop = .sending i) (j : ℕ) (code : ErrorCode) :
    OrchestratorInv g host w { o with errorCode := code, loop := .sending j } := by
  refine h.mono h.not_aborted rfl ?_ ?_
  · intro p _ v _ ha
    obtain hlt | ⟨_, _, pending, hp, _⟩ := ha
    · exact Or.inl hlt
    · exact absurd hp (by simp)
  · intro v hv
    exact unheard_of_sending hloop hv rfl

theorem WiringInv.send {w w' : World} {result : ErrorCode} {garbled : CtrlMessage}
    (h : WiringInv g host w) (hg : g.Simple)
    (hfits : ∀ u, 8 + (8 + 16 * (g.topology u).length) + 4 ≤ 65535)
    (hs : w.send g result garbled = some w') : WiringInv g host w' := by
  simp only [World.send] at hs
  cases hloop : w.orchestrator.loop with
  | receiving pending => simp [hloop] at hs
  | sending idx =>
    simp only [hloop] at hs
    by_cases hrun : w.orchestrator.state.type ≠ none ∧ idx < g.numNodes
    · rw [if_pos hrun] at hs
      obtain ⟨m, hm, hlen, hok⟩ := request_spec hg h.orchestrator hrun.1 idx (hfits idx)
      rw [hm] at hs
      dsimp only at hs
      rw [arrives_of_fits hlen] at hs
      obtain rfl := Option.some.inj hs
      have ho := h.setOrchestrator (h.orchestrator.sending hloop (idx + 1)
        (accumulate w.orchestrator.errorCode result))
      by_cases hresult : result = .none
      · rw [if_pos hresult]
        apply ho.setRequests
        intro m' hm'
        obtain hm' | hm' := List.mem_append.mp hm'
        · exact ho.requests idx m' hm'
        · rw [List.mem_singleton] at hm'
          rw [hm']
          exact hok.grows (World.Grows.of_eq rfl rfl)
      · rw [if_neg hresult]
        exact ho
    · rw [if_neg hrun] at hs
      exact absurd hs (by simp)

end Send

section Receive

/-- What the lambda of the current phase must have made of the answer of `idx`. -/
structure Processed (g : Graph) (host : ℕ → UInt32) (w : World) (o : Orchestrator) (idx : ℕ)
    (code : ErrorCode) (metadata : FragmentMetadata) : Prop where
  server_kept : o.state ≠ .startAllMixnetServers →
    metadata.mixnetServerNetaddr = (o.fragments idx).mixnetServerNetaddr
  clients_kept : o.state ≠ .startAllMixnetClients →
    metadata.mixnetClientNetaddrs = (o.fragments idx).mixnetClientNetaddrs
  server : o.state = .startAllMixnetServers → code = .none → g.topology idx ≠ [] →
    w.kernel.Listens g.numNodes host idx metadata.mixnetServerNetaddr
  clients : o.state = .startAllMixnetClients → code = .none →
    metadata.mixnetClientNetaddrs.length = (g.topology idx).length ∧
      ∀ j a, metadata.mixnetClientNetaddrs[j]? = some a →
        ClientAddr g w.kernel idx (w.fragment idx) j a
  wired : o.state = .resolveMixnetConnections → code = .none → Wired g w idx

theorem Processed.of_error {w : World} {o : Orchestrator} {idx : ℕ} {code : ErrorCode}
    (h : code ≠ .none) : Processed g host w o idx code (o.fragments idx) :=
  ⟨fun _ => rfl, fun _ => rfl, fun _ hc => absurd hc h, fun _ hc => absurd hc h,
    fun _ hc => absurd hc h⟩

def Orchestrator.heard (o : Orchestrator) (pending : List ℕ) (idx : ℕ) (code : ErrorCode)
    (metadata : FragmentMetadata) : Orchestrator :=
  { o with
    loop := .receiving (pending.filter (· ≠ idx))
    errorCode := accumulate o.errorCode code
    fragments := Function.update o.fragments idx metadata }

theorem answered_heard {o : Orchestrator} {pending : List ℕ} {idx : ℕ} {code : ErrorCode}
    {metadata : FragmentMetadata} (hloop : o.loop = .receiving pending) {s : OrchestratorState}
    {v : ℕ} (ha : (o.heard pending idx code metadata).Answered s v) :
    (v ≠ idx ∧ o.Answered s v) ∨
      v = idx ∧ (s.rank < o.state.rank ∨ o.state = s ∧ code = .none) := by
  by_cases hv : v = idx
  · right
    obtain hlt | ⟨hs, herror, _⟩ := ha
    · exact ⟨hv, Or.inl hlt⟩
    · exact ⟨hv, Or.inr ⟨hs, (accumulate_none.mp herror).2⟩⟩
  · left
    obtain hlt | ⟨hs, herror, rest, hrest, hnot⟩ := ha
    · exact ⟨hv, Or.inl hlt⟩
    · obtain rfl := Loop.receiving.inj hrest
      refine ⟨hv, Or.inr ⟨hs, (accumulate_none.mp herror).1, pending, hloop, fun hin => ?_⟩⟩
      exact hnot (List.mem_filter.mpr ⟨hin, by simpa using hv⟩)

theorem unheard_heard {o : Orchestrator} {pending : List ℕ} {idx : ℕ} {code : ErrorCode}
    {metadata : FragmentMetadata} (hloop : o.loop = .receiving pending) {v : ℕ}
    (hv : (o.heard pending idx code metadata).Unheard v) :
    o.Unheard v ∧ (v = idx → o.state = .startAllMixnetServers) := by
  obtain hs | ⟨hs, hall⟩ := hv
  · exact ⟨Or.inl hs, fun _ => hs⟩
  · have hmem := hall _ rfl
    refine ⟨Or.inr ⟨hs, fun rest hrest => ?_⟩, fun hvi => ?_⟩
    · obtain rfl := Loop.receiving.inj (hloop.symm.trans hrest)
      exact List.mem_of_mem_filter hmem
    · rw [hvi] at hmem
      exact absurd hmem (by simp)

/-- One turn of the receive loop, for a fragment that has been pending. -/
theorem OrchestratorInv.receive {w : World} {o : Orchestrator}
    (h : OrchestratorInv g host w o) {pending : List ℕ} {idx : ℕ} {code : ErrorCode}
    {metadata : FragmentMetadata} (hloop : o.loop = .receiving pending)
    (hp : Processed g host w o idx code metadata) :
    OrchestratorInv g host w (o.heard pending idx code metadata) := by
  have hself : (o.heard pending idx code metadata).fragments idx = metadata :=
    Function.update_self ..
  have hother : ∀ v, v ≠ idx → (o.heard pending idx code metadata).fragments v = o.fragments v :=
    fun v hv => Function.update_of_ne hv ..
  constructor
  · exact h.not_aborted
  · intro v hv ha hne
    obtain ⟨hvi, hold⟩ | ⟨rfl, hnew⟩ := answered_heard hloop ha
    · rw [hother v hvi]
      exact h.servers v hv hold hne
    · rw [hself]
      obtain hlt | ⟨hs, hcode⟩ := hnew
      · rw [hp.server_kept fun hs => by simp [hs] at hlt]
        exact h.servers v hv (Or.inl hlt) hne
      · exact hp.server hs hcode hne
  · intro v hv ha
    obtain ⟨hvi, hold⟩ | ⟨rfl, hnew⟩ := answered_heard hloop ha
    · rw [hother v hvi]
      exact h.clients v hv hold
    · rw [hself]
      obtain hlt | ⟨hs, hcode⟩ := hnew
      · rw [hp.clients_kept fun hs => by simp [hs] at hlt]
        exact h.clients v hv (Or.inl hlt)
      · exact hp.clients hs hcode
  · intro v hv ha
    obtain ⟨_, hold⟩ | ⟨rfl, hnew⟩ := answered_heard hloop ha
    · exact h.resolved v hv hold
    · obtain hlt | ⟨hs, hcode⟩ := hnew
      · exact h.resolved v hv (Or.inl hlt)
      · exact hp.wired hs hcode
  · intro v hv
    obtain ⟨hold, hfirst⟩ := unheard_heard hloop hv
    by_cases hvi : v = idx
    · subst hvi
      rw [hself, hp.clients_kept (by rw [hfirst rfl]; decide)]
      exact h.unheard v hold
    · rw [hother v hvi]
      exact h.unheard v hold

theorem process_spec {w : World} {o : Orchestrator} (h : OrchestratorInv g host w o)
    {pending : List ℕ} {idx : ℕ} {m : CtrlMessage} (peername : Bool)
    (hloop : o.loop = .receiving pending) (hidx : idx ∈ pending)
    (htype : o.state.type = some m.type) (hm : ResponseOk g host w idx m) :
    Processed g host w o idx (o.process g host idx m peername).1
      (o.process g host idx m peername).2 := by
  cases hstate : o.state with
  | startAllMixnetServers =>
    rw [hstate] at htype
    obtain hmtype := (Option.some.inj htype).symm
    simp only [ResponseOk, hmtype] at hm
    simp only [Orchestrator.process, hstate]
    split_ifs with hempty hvalid hpeername
    · refine ⟨fun _ => rfl, fun _ => rfl, fun _ _ hne => ?_, by simp [hstate], by simp [hstate]⟩
      exact absurd (List.isEmpty_iff.mp hempty) hne
    · exact Processed.of_error (by simp)
    · exact Processed.of_error (by simp)
    · exact ⟨fun hne => absurd hstate hne, fun _ => rfl, fun _ _ hne => hm hne,
        by simp [hstate], by simp [hstate]⟩
  | startAllMixnetClients =>
    rw [hstate] at htype
    obtain hmtype := (Option.some.inj htype).symm
    simp only [ResponseOk, hmtype] at hm
    simp only [Orchestrator.process, hstate]
    split_ifs with hcount hall
    · exact Processed.of_error (by simp)
    · refine ⟨fun _ => rfl, fun hne => absurd hstate hne, by simp [hstate], fun _ _ => ?_,
        by simp [hstate]⟩
      have hfirst := h.unheard idx (Or.inr ⟨hstate, fun rest hrest => by
        rw [← Loop.receiving.inj (hloop.symm.trans hrest)]
        exact hidx⟩)
      rw [hfirst, List.nil_append, List.takeWhile_eq_self_iff.mpr (List.all_eq_true.mp hall)]
      refine ⟨by simp, fun j a ha => ?_⟩
      rw [List.getElem?_map] at ha
      obtain ⟨i, hi, rfl⟩ := Option.map_eq_some_iff.mp ha
      obtain ⟨hj, rfl⟩ := List.getElem?_eq_some_iff.mp hi
      rw [List.getElem_range]
      rw [List.length_range] at hj
      exact hm j _ (List.getElem?_eq_getElem hj)
    · exact ⟨fun _ => rfl, fun hne => absurd hstate hne, by simp [hstate],
        fun _ hc => absurd hc (by simp), by simp [hstate]⟩
  | resolveMixnetConnections =>
    rw [hstate] at htype
    obtain hmtype := (Option.some.inj htype).symm
    simp only [ResponseOk, hmtype] at hm
    simp only [Orchestrator.process, hstate]
    exact ⟨fun _ => rfl, fun _ => rfl, by simp [hstate], by simp [hstate], fun _ _ => hm⟩
  | startTestcase | gracefulShutdown | aborted =>
    rw [hstate] at htype
    exact absurd htype (by simp [OrchestratorState.type])

theorem type_of_checkHeader {m : CtrlMessage} {fid : ℕ} {type : MessageType}
    (h : checkHeader m fid type = .none) : m.type = type := by
  by_contra hne
  simp only [checkHeader, hne, ne_eq, not_false_eq_true, decide_true, Bool.or_true, if_true] at h
  split_ifs at h

theorem WiringInv.receive_error {w : World} {pending : List ℕ} {idx : ℕ} {code : ErrorCode}
    (h : WiringInv g host w) (hloop : w.orchestrator.loop = .receiving pending)
    (hcode : code ≠ .none) :
    WiringInv g host { w with orchestrator := { w.orchestrator with
      loop := .receiving (pending.filter (· ≠ idx))
      errorCode := accumulate w.orchestrator.errorCode code } } := by
  have hkept : Processed g host w w.orchestrator idx code (w.orchestrator.fragments idx) :=
    Processed.of_error hcode
  have hnext := h.orchestrator.receive hloop hkept
  rw [Orchestrator.heard, Function.update_eq_self] at hnext
  exact h.setOrchestrator hnext

theorem WiringInv.receive {w w' : World} {idx : ℕ} {result : ErrorCode} {peername : Bool}
    (h : WiringInv g host w) (hs : w.receive g host idx result peername = some w') :
    WiringInv g host w' := by
  simp only [World.receive] at hs
  cases hloop : w.orchestrator.loop with
  | sending i => simp [hloop] at hs
  | receiving pending =>
    cases htype : w.orchestrator.state.type with
    | none => simp [hloop, htype] at hs
    | some type =>
      simp only [hloop, htype] at hs
      by_cases hidx : idx ∈ pending
      case neg => simp [hidx] at hs
      rw [if_pos hidx] at hs
      by_cases hresult : result ≠ .none
      · rw [if_pos hresult] at hs
        obtain rfl := Option.some.inj hs
        exact h.receive_error hloop hresult
      · rw [if_neg hresult] at hs
        cases hq : w.responses idx with
        | nil => simp [hq] at hs
        | cons m rest =>
          rw [hq] at hs
          dsimp only at hs
          have hm : ResponseOk g host w idx m := h.responses idx m (by simp [hq])
          have hpop : WiringInv g host (w.setResponses idx rest) :=
            h.setResponses fun m' hm' => h.responses idx m' (by simp [hq, hm'])
          by_cases hcode : checkHeader m idx type = .none
          · rw [if_neg (not_not.mpr hcode)] at hs
            obtain rfl := Option.some.inj hs
            have hmtype : some type = some m.type :=
              congrArg some (type_of_checkHeader hcode).symm
            have hmok : ResponseOk g host (w.setResponses idx rest) idx m :=
              hm.grows (World.Grows.of_eq rfl rfl)
            have hprocessed := process_spec hpop.orchestrator peername hloop hidx
              (htype.trans hmtype) hmok
            exact hpop.setOrchestrator (hpop.orchestrator.receive hloop hprocessed)
          · rw [if_pos hcode] at hs
            obtain rfl := Option.some.inj hs
            exact hpop.receive_error hloop hcode

end Receive

section Loops

theorem OrchestratorInv.start {w : World} {o : Orchestrator} (h : OrchestratorInv g host w o)
    {i : ℕ} (hloop : o.loop = .sending i) :
    OrchestratorInv g host w { o with loop := .receiving (List.range g.numNodes) } := by
  refine h.mono h.not_aborted rfl ?_ ?_
  · intro p _ v hv ha
    obtain hlt | ⟨_, _, pending, hp, hnot⟩ := ha
    · exact Or.inl hlt
    · obtain rfl := Loop.receiving.inj hp
      exact absurd (List.mem_range.mpr hv) hnot
  · intro v hv
    exact unheard_of_sending hloop hv rfl

theorem WiringInv.finishLoop {w w' : World} (h : WiringInv g host w)
    (hs : w.finishLoop g = some w') : WiringInv g host w' := by
  have ho := h.orchestrator
  simp only [World.finishLoop] at hs
  by_cases htype : w.orchestrator.state.type = none
  case pos => simp [htype] at hs
  rw [if_neg htype] at hs
  cases hloop : w.orchestrator.loop with
  | sending idx =>
    simp only [hloop] at hs
    split_ifs at hs with hlt herror
    · obtain rfl := Option.some.inj hs
      exact h.setOrchestrator (ho.start hloop)
    · obtain rfl := Option.some.inj hs
      exact h.setOrchestrator ho.shutdown
  | receiving pending =>
    cases pending with
    | nil =>
      simp only [hloop] at hs
      obtain rfl := Option.some.inj hs
      by_cases herror : w.orchestrator.errorCode = .none
      · rw [if_pos herror]
        exact h.setOrchestrator (ho.next hloop herror htype)
      · rw [if_neg herror]
        exact h.setOrchestrator ho.shutdown
    | cons idx pending => simp [hloop] at hs

theorem WiringInv.timeout {w w' : World} (h : WiringInv g host w) (hs : w.timeout = some w') :
    WiringInv g host w' := by
  rw [World.timeout] at hs
  split_ifs at hs
  obtain rfl := Option.some.inj hs
  exact h.setOrchestrator h.orchestrator.shutdown

theorem WiringInv.sendTimeout {w w' : World} (h : WiringInv g host w)
    (hs : w.sendTimeout g = some w') : WiringInv g host w' := by
  rw [World.sendTimeout] at hs
  split at hs
  · split_ifs at hs
    exact h.timeout hs
  · exact absurd hs (by simp)

theorem WiringInv.receiveTimeout {w w' : World} (h : WiringInv g host w)
    (hs : w.receiveTimeout = some w') : WiringInv g host w' := by
  rw [World.receiveTimeout] at hs
  split at hs
  · exact h.timeout hs
  · exact absurd hs (by simp)

end Loops

end Mixnet.Wiring
