import Mixnet.WiringInvariant

/-! The wiring invariant along the steps of the fragments, of their accept threads and of
other processes. Each step is a composition of a few updates, with one lemma for each. -/
namespace Mixnet.Wiring

variable {g : Graph} {host : ℕ → UInt32}

section Updates

@[simp] theorem setFragment_self (w : World) (u : ℕ) (f : Fragment) :
    (w.setFragment u f).fragment u = f := by
  simp [World.setFragment]

theorem setFragment_ne (w : World) {u v : ℕ} (f : Fragment) (h : v ≠ u) :
    (w.setFragment u f).fragment v = w.fragment v := by
  simp [World.setFragment, h]

theorem setFragment_grows {w : World} {u : ℕ} {f : Fragment}
    (h : (w.fragment u).Extends f) : w.Grows (w.setFragment u f) where
  kernel := Kernel.Grows.refl _
  fragment v := by
    by_cases hv : v = u
    · subst hv
      rw [setFragment_self]
      exact h
    · rw [setFragment_ne w f hv]
      exact Fragment.Extends.refl _

theorem WiringInv.setKernel {w : World} {k : Kernel} (h : WiringInv g host w)
    (hk : KernelInv g.numNodes host k) (hgrows : w.kernel.Grows k) :
    WiringInv g host { w with kernel := k } := by
  have hw : w.Grows { w with kernel := k } := ⟨hgrows, fun _ => Fragment.Extends.refl _⟩
  exact h.grows hw hk (fun u => (h.fragment u).grows hgrows) rfl rfl rfl

theorem WiringInv.setFragment {w : World} {u : ℕ} {f : Fragment} (h : WiringInv g host w)
    (hf : FragmentInv g host w.kernel u f) (hextends : (w.fragment u).Extends f) :
    WiringInv g host (w.setFragment u f) := by
  apply h.grows (setFragment_grows hextends) h.kernel _ rfl rfl rfl
  intro v
  by_cases hv : v = u
  · subst hv
    rw [setFragment_self]
    exact hf
  · rw [setFragment_ne w f hv]
    exact h.fragment v

theorem WiringInv.setRequests {w : World} {u : ℕ} {ms : List CtrlMessage}
    (h : WiringInv g host w) (hms : ∀ m ∈ ms, RequestOk g host w u m) :
    WiringInv g host (w.setRequests u ms) := by
  have hg : w.Grows (w.setRequests u ms) := World.Grows.of_eq rfl rfl
  constructor
  · exact h.kernel
  · exact h.fragment
  · intro v m hm
    change m ∈ Function.update w.requests u ms v at hm
    by_cases hv : v = u
    · subst hv
      rw [Function.update_self] at hm
      exact (hms m hm).grows hg
    · rw [Function.update_of_ne hv] at hm
      exact (h.requests v m hm).grows hg
  · exact fun v m hm => (h.responses v m hm).grows hg
  · exact h.orchestrator.grows hg

theorem WiringInv.setResponses {w : World} {u : ℕ} {ms : List CtrlMessage}
    (h : WiringInv g host w) (hms : ∀ m ∈ ms, ResponseOk g host w u m) :
    WiringInv g host (w.setResponses u ms) := by
  have hg : w.Grows (w.setResponses u ms) := World.Grows.of_eq rfl rfl
  constructor
  · exact h.kernel
  · exact h.fragment
  · exact fun v m hm => (h.requests v m hm).grows hg
  · intro v m hm
    change m ∈ Function.update w.responses u ms v at hm
    by_cases hv : v = u
    · subst hv
      rw [Function.update_self] at hm
      exact (hms m hm).grows hg
    · rw [Function.update_of_ne hv] at hm
      exact (h.responses v m hm).grows hg
  · exact h.orchestrator.grows hg

theorem WiringInv.respond {w : World} {u : ℕ} {m : CtrlMessage} (h : WiringInv g host w)
    (hm : ResponseOk g host w u m) : WiringInv g host (w.respond u m) := by
  apply h.setResponses
  intro m' hm'
  obtain hm' | hm' := List.mem_append.mp hm'
  · exact h.responses u m' hm'
  · rw [List.mem_singleton] at hm'
    rw [hm']
    exact hm

theorem WiringInv.fail {w : World} (h : WiringInv g host w) (u : ℕ) (code : ErrorCode) :
    WiringInv g host (w.setFragment u ((w.fragment u).fail code)) := by
  have hf := h.fragment u
  refine h.setFragment ⟨hf.degree, hf.accepted, hf.reading, ?_, ?_⟩
    ⟨List.prefix_refl _, List.prefix_refl _⟩
  · intro hstate
    exact absurd hstate (by simp [Fragment.fail])
  · intro _ hcode
    exact absurd rfl (hcode code)

theorem arrives_of_fits {m garbled : CtrlMessage} (h : m.exactLength ≤ 65535) :
    m.arrives garbled = m := if_pos h

theorem WiringInv.recvRequest {w w' : World} {u : ℕ} {s : FragmentState} {type : MessageType}
    {body : World → CtrlMessage → Option World} (h : WiringInv g host w)
    (hbody : ∀ w₁ m, WiringInv g host w₁ → (w₁.fragment u).state = s → m.type = type →
      RequestOk g host w₁ u m → body w₁ m = some w' → WiringInv g host w')
    (hw : w.recvRequest u s type body = some w') : WiringInv g host w' := by
  rw [World.recvRequest] at hw
  by_cases hstate : (w.fragment u).state = s
  · rw [if_pos hstate] at hw
    cases hq : w.requests u with
    | nil => simp [hq] at hw
    | cons m rest =>
      rw [hq] at hw
      dsimp only at hw
      have hm : RequestOk g host w u m := h.requests u m (by simp [hq])
      have hpop : WiringInv g host (w.setRequests u rest) :=
        h.setRequests fun m' hm' => h.requests u m' (by simp [hq, hm'])
      by_cases hcode : ((w.setRequests u rest).fragment u).checkHeader m type ≠ .none
      · rw [if_pos hcode] at hw
        obtain rfl := Option.some.inj hw
        exact hpop.fail u _
      · rw [if_neg hcode] at hw
        have htype : m.type = type := by
          by_contra hne
          apply hcode
          simp only [Fragment.checkHeader, if_pos hne]
          split_ifs <;> decide
        exact hbody _ m hpop hstate htype (hm.grows (World.Grows.of_eq rfl rfl)) hw
  · rw [if_neg hstate] at hw
    exact absurd hw (by simp)

end Updates

section Steps

theorem WiringInv.startServer {w w' : World} {u fd : ℕ} {port : UInt16}
    (h : WiringInv g host w) (hs : w.startServer g host u fd port = some w') :
    WiringInv g host w' := by
  refine h.recvRequest (fun w₁ m h₁ hstate _ _ hbody => ?_) hs
  have hf := h₁.fragment u
  obtain ⟨⟨k, p⟩, hbound, rfl⟩ := Option.map_eq_some_iff.mp hbody
  dsimp only
  -- the server listens on the port it reports, if there is anyone to connect to it
  have hk : KernelInv g.numNodes host k ∧ w₁.kernel.Grows k ∧
      (g.topology u ≠ [] → u < g.numNodes ∧ k.ports u = some p) := by
    by_cases hdeg : (w₁.fragment u).numNeighbors = 0
    · rw [if_pos hdeg] at hbound
      obtain ⟨rfl, _⟩ := Prod.mk.inj (Option.some.inj hbound)
      refine ⟨h₁.kernel, Kernel.Grows.refl _, fun hne => ?_⟩
      rw [hf.degree, List.length_eq_zero_iff] at hdeg
      exact absurd hdeg hne
    · rw [if_neg hdeg] at hbound
      obtain ⟨k', hk', heq⟩ := Option.map_eq_some_iff.mp hbound
      obtain ⟨rfl, rfl⟩ := Prod.mk.inj heq
      obtain ⟨hinv, hgrows, hlt, hport⟩ := listen_spec h₁.kernel hk'
      exact ⟨hinv, hgrows, fun _ => ⟨hlt, hport⟩⟩
  obtain ⟨hinv, hgrows, hport⟩ := hk
  have h₂ := h₁.setKernel hinv hgrows
  apply (h₂.setFragment _ _).respond
  · exact fun hne => ⟨(hport hne).1, rfl, rfl, (hport hne).2⟩
  · have hf₂ := h₂.fragment u
    exact ⟨hf₂.degree, fun s hs => absurd hs (by simp), hf₂.reading,
      fun hc => absurd hc (by simp),
      fun _ _ => hf₂.unresolved (by simp [hstate]) (by simp [hstate])⟩
  · exact ⟨List.prefix_refl _, List.prefix_refl _⟩

theorem WiringInv.startClient {w w' : World} {u : ℕ} (h : WiringInv g host w)
    (hs : w.startClient u = some w') : WiringInv g host w' := by
  refine h.recvRequest (fun w₁ m h₁ hstate htype hm hbody => ?_) hs
  have hf := h₁.fragment u
  simp only [RequestOk, htype] at hm
  dsimp only at hbody
  split_ifs at hbody with hcount
  · obtain rfl := Option.some.inj hbody
    exact h₁.fail u _
  · obtain rfl := Option.some.inj hbody
    refine h₁.setFragment ⟨hf.degree, hf.accepted, hf.reading, ?_, ?_⟩
      ⟨List.prefix_refl _, List.prefix_refl _⟩
    · intro _ j v hv
      have hj : j < (w₁.fragment u).numNeighbors := by
        rw [hf.degree]
        exact (List.getElem?_eq_some_iff.mp hv).1
      have hnetaddr := hm j v hv
      simpa [List.getD, hj] using hnetaddr
    · exact fun _ _ => hf.unresolved (by simp [hstate]) (by simp [hstate])

theorem WiringInv.connect {w w' : World} {u fd v : ℕ} {address : NetAddr}
    (h : WiringInv g host w) (hs : w.connect g host u fd v address = some w') :
    WiringInv g host w' := by
  have hf := h.fragment u
  simp only [World.connect] at hs
  split_ifs at hs with hstate
  obtain ⟨hconnecting, hlt⟩ := hstate
  obtain ⟨k, hk, rfl⟩ := Option.map_eq_some_iff.mp hs
  obtain ⟨hinv, hgrows, hlistens, c, hsocket, hc⟩ := connect_spec h.kernel hk
  have h₁ := h.setKernel hinv hgrows
  have hf₁ := h₁.fragment u
  have hextends : (w.fragment u).rxSocketFds <+: (w.fragment u).rxSocketFds ++ [fd] :=
    List.prefix_append _ _
  refine h₁.setFragment ⟨hf₁.degree, hf₁.accepted, ?_, hf₁.targets, hf₁.unresolved⟩
    ⟨hextends, List.prefix_refl _⟩
  intro j fd' hfd'
  dsimp only at hfd'
  by_cases hj : j < (w.fragment u).rxSocketFds.length
  · rw [List.getElem?_append_left hj] at hfd'
    obtain ⟨a, ha⟩ := hf.reading j fd' hfd'
    exact ⟨a, ha.grows hgrows hextends⟩
  · have hlast : j = (w.fragment u).rxSocketFds.length := by
      have hbound := (List.getElem?_eq_some_iff.mp hfd').1
      rw [List.length_append, List.length_singleton] at hbound
      omega
    subst hlast
    have hlt' : (w.fragment u).rxSocketFds.length < (g.topology u).length := by
      rw [← hf.degree]
      exact hlt
    have hmeant := List.getElem?_eq_getElem hlt'
    have hv : (g.topology u)[(w.fragment u).rxSocketFds.length]? = some v := by
      rw [h.kernel.listens_unique (hf.targets hconnecting _ _ hmeant) hlistens] at hmeant
      exact hmeant
    refine ⟨address, c, _, ?_, hc, hv, rfl⟩
    simp [hsocket]

theorem WiringInv.finishClients {w w' : World} {u : ℕ} {garbled : CtrlMessage}
    (h : WiringInv g host w) (hfits : 8 + (8 + 16 * (g.topology u).length) + 4 ≤ 65535)
    (hs : w.finishClients u garbled = some w') : WiringInv g host w' := by
  have hf := h.fragment u
  simp only [World.finishClients] at hs
  split_ifs at hs with hstate hcount
  · obtain rfl := Option.some.inj hs
    exact h.fail u _
  · obtain ⟨hconnecting, hrx⟩ := hstate
    cases hnames : (w.fragment u).rxSocketFds.mapM (w.kernel.getsockname u) with
    | none =>
      rw [hnames] at hs
      obtain rfl := Option.some.inj hs
      exact h.fail u _
    | some netaddrs =>
      rw [hnames] at hs
      obtain rfl := Option.some.inj hs
      apply WiringInv.respond
      · refine h.setFragment ⟨hf.degree, hf.accepted, hf.reading, ?_, ?_⟩
          ⟨List.prefix_refl _, List.prefix_refl _⟩
        · exact fun hc => absurd hc (by simp)
        · exact fun _ _ => hf.unresolved (by simp [hconnecting]) (by simp [hconnecting])
      · rw [← hf.degree] at hfits
        rw [arrives_of_fits (by exact hfits)]
        intro j v hv
        have hj : j < (w.fragment u).rxSocketFds.length := by
          rw [hrx, hf.degree]
          exact (List.getElem?_eq_some_iff.mp hv).1
        have hfd := List.getElem?_eq_getElem hj
        obtain ⟨a, ha, hname⟩ := mapM_getElem hnames hfd
        obtain ⟨c, x, hsocket, hx, rfl⟩ := getsockname_spec hname
        obtain ⟨a', c', x', hsocket', hx', hserver, _⟩ := hf.reading j _ hfd
        rw [hfd, Option.bind_some, hsocket, Option.some.injEq, Socket.client.injEq] at hsocket'
        rw [← hsocket', hx, Option.some.injEq] at hx'
        rw [setFragment_self]
        refine ⟨c, x, ?_, hx, hx' ▸ hserver, ?_⟩
        · rw [hfd]
          exact hsocket
        · simp [CtrlMessage.netaddr, List.getD, ha]

theorem accepted_connection {k : Kernel} {u v j fd : ℕ} {f f' : Fragment} {a : NetAddr}
    (hk : KernelInv g.numNodes host k) (hf : FragmentInv g host k u f)
    (ha : ClientAddr g k v f' j a) (hj : (g.topology v)[j]? = some u)
    (hfd : f.acceptedFrom a = some fd) : ∃ c, k.sockets u fd = some (.server c) ∧
      (f'.rxSocketFds[j]?).bind (k.sockets v) = some (.client c) := by
  obtain ⟨s, hs, rfl⟩ := Option.map_eq_some_iff.mp hfd
  have hmatch : s.address = a := by
    have hfound := List.find?_some hs
    exact (equalNetaddrs_iff _ _).mp hfound
  obtain ⟨c, x, hserver, hx, hu, hxa⟩ := hf.accepted s (List.mem_of_find?_eq_some hs)
  obtain ⟨c', x', hclient, hx', hj', hxa'⟩ := ha
  have hu' : u = x'.server := Option.some.inj (hj.symm.trans hj')
  have hc : c = c' := by
    apply hk.address_unique c c' x x' hx hx'
    · rw [hu, hu']
    · rw [hxa, hxa', hmatch]
  exact ⟨c, hserver, hc ▸ hclient⟩

theorem WiringInv.resolve {w w' : World} {u : ℕ} (h : WiringInv g host w)
    (hs : w.resolve u = some w') : WiringInv g host w' := by
  refine h.recvRequest (fun w₁ m h₁ hstate htype hm hbody => ?_) hs
  have hf := h₁.fragment u
  simp only [RequestOk, htype] at hm
  dsimp only at hbody
  split_ifs at hbody with hcount
  · obtain rfl := Option.some.inj hbody
    exact h₁.fail u _
  · cases hfds : (List.range (w₁.fragment u).numNeighbors).mapM
        fun nid => (w₁.fragment u).acceptedFrom (m.netaddr nid) with
    | none =>
      rw [hfds] at hbody
      obtain rfl := Option.some.inj hbody
      exact h₁.fail u _
    | some fds =>
      rw [hfds] at hbody
      obtain rfl := Option.some.inj hbody
      have hempty := hf.unresolved (by simp [hstate]) (by simp [hstate])
      have hextends : (w₁.fragment u).Extends
          { w₁.fragment u with state := .startTestcase, txSocketFds := fds } := by
        refine ⟨List.prefix_refl _, ?_⟩
        rw [hempty]
        exact List.nil_prefix
      have hgrows := setFragment_grows hextends
      apply WiringInv.respond
      · exact h₁.setFragment ⟨hf.degree, hf.accepted, hf.reading, fun hc => absurd hc (by simp),
          fun hne => absurd rfl hne⟩ hextends
      · intro i v hv
        have hi : i < (w₁.fragment u).numNeighbors := by
          rw [hf.degree]
          exact (List.getElem?_eq_some_iff.mp hv).1
        obtain ⟨j, hj, ha⟩ := hm i v hv
        obtain ⟨fd, hfd, hfound⟩ := mapM_getElem hfds (List.getElem?_range hi)
        obtain ⟨c, hserver, hclient⟩ := accepted_connection h₁.kernel hf ha hj hfound
        refine ⟨j, c, hj, ?_, ?_⟩
        · simp only [World.txSocket, setFragment_self, hfd]
          exact hserver
        · exact socket_grows (Kernel.Grows.refl _) (hgrows.fragment v).rx hclient

theorem WiringInv.accept {w w' : World} {u fd c : ℕ} {nonblocking : Bool}
    (h : WiringInv g host w) (hs : w.accept u fd c nonblocking = some w') :
    WiringInv g host w' := by
  rw [World.accept] at hs
  by_cases hrunning : (w.fragment u).acceptArgs.running = true
  case neg => simp [hrunning] at hs
  dsimp only at hs
  rw [if_pos hrunning] at hs
  obtain ⟨⟨k, a⟩, hk, rfl⟩ := Option.map_eq_some_iff.mp hs
  obtain ⟨hinv, hgrows, hsocket, hconnection⟩ := accept_spec h.kernel hk
  have h₁ := h.setKernel hinv hgrows
  have hf₁ := h₁.fragment u
  refine h₁.setFragment ⟨hf₁.degree, ?_, hf₁.reading, hf₁.targets, hf₁.unresolved⟩
    ⟨List.prefix_refl _, List.prefix_refl _⟩
  intro s hs
  obtain hs | hs := List.mem_append.mp hs
  · exact hf₁.accepted s hs
  · obtain rfl := List.mem_singleton.mp hs
    obtain ⟨x, hx⟩ := hconnection
    exact ⟨c, x, hsocket, hx⟩

theorem WiringInv.acceptError {w w' : World} {u : ℕ} (h : WiringInv g host w)
    (hs : w.acceptError u = some w') : WiringInv g host w' := by
  have hf := h.fragment u
  simp only [World.acceptError] at hs
  split_ifs at hs
  obtain rfl := Option.some.inj hs
  exact h.setFragment ⟨hf.degree, hf.accepted, hf.reading, hf.targets, hf.unresolved⟩
    ⟨List.prefix_refl _, List.prefix_refl _⟩

theorem WiringInv.outsider {w w' : World} {v : ℕ} {address : NetAddr} (h : WiringInv g host w)
    (hs : w.outsider v address = some w') : WiringInv g host w' := by
  simp only [World.outsider] at hs
  split_ifs at hs
  obtain ⟨k, hk, rfl⟩ := Option.map_eq_some_iff.mp hs
  obtain ⟨hinv, hgrows, _, _⟩ := connection_spec h.kernel hk
  exact h.setKernel hinv hgrows

end Steps

end Mixnet.Wiring
