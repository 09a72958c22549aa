import Mixnet.SocketRules

/-! Invariants of the wiring phases: what the messages on the ctrl connections, the accept
threads and the orchestrator's metadata say about the sockets is true, and stays true. -/
namespace Mixnet.Wiring

theorem mapM_getElem {α β : Type*} {f : α → Option β} {xs : List α} {ys : List β}
    (h : xs.mapM f = some ys) {i : ℕ} {x : α} (hx : xs[i]? = some x) :
    ∃ y, ys[i]? = some y ∧ f x = some y := by
  induction xs generalizing ys i with
  | nil => simp at hx
  | cons z xs ih =>
    rw [List.mapM_cons, Option.bind_eq_bind, Option.bind_eq_some_iff] at h
    obtain ⟨y, hy, h⟩ := h
    rw [Option.bind_eq_bind, Option.bind_eq_some_iff] at h
    obtain ⟨ys', hys', h⟩ := h
    obtain rfl := Option.some.inj h
    cases i with
    | zero =>
      obtain rfl := Option.some.inj hx
      exact ⟨y, rfl, hy⟩
    | succ i => exact ih hys' hx

theorem mapM_total {α β : Type*} {f : α → Option β} {xs : List α}
    (h : ∀ x ∈ xs, ∃ y, f x = some y) : ∃ ys, xs.mapM f = some ys := by
  induction xs with
  | nil => exact ⟨[], rfl⟩
  | cons x xs ih =>
    obtain ⟨y, hy⟩ := h x List.mem_cons_self
    obtain ⟨ys, hys⟩ := ih fun x' hx' => h x' (List.mem_cons_of_mem x hx')
    exact ⟨y :: ys, by simp [hy, hys]⟩

theorem prefix_getElem {α : Type*} {l l' : List α} (h : l <+: l') {i : ℕ} {x : α}
    (hx : l[i]? = some x) : l'[i]? = some x := by
  obtain ⟨t, rfl⟩ := h
  rw [List.getElem?_append_left (List.getElem?_eq_some_iff.mp hx).1]
  exact hx

def ClientAddr (g : Graph) (k : Kernel) (v : ℕ) (f : Fragment) (j : ℕ) (a : NetAddr) : Prop :=
  ∃ c x, (f.rxSocketFds[j]?).bind (k.sockets v) = some (.client c) ∧
    k.connections[c]? = some x ∧ (g.topology v)[j]? = some x.server ∧ x.address = a

def Wired (g : Graph) (w : World) (u : ℕ) : Prop :=
  ∀ i v, (g.topology u)[i]? = some v → ∃ j c, (g.topology v)[j]? = some u ∧
    w.txSocket u i = some (.server c) ∧ w.rxSocket v j = some (.client c)

structure FragmentInv (g : Graph) (host : ℕ → UInt32) (k : Kernel) (u : ℕ) (f : Fragment) :
    Prop where
  degree : f.numNeighbors = (g.topology u).length
  accepted : ∀ s ∈ f.acceptArgs.states, ∃ c x, k.sockets u s.connectionFd = some (.server c) ∧
    k.connections[c]? = some x ∧ x.server = u ∧ x.address = s.address
  reading : ∀ j fd, f.rxSocketFds[j]? = some fd → ∃ a, ClientAddr g k u f j a
  targets : f.state = .connecting → ∀ j v, (g.topology u)[j]? = some v →
    k.Listens g.numNodes host v (f.neighborNetaddrs.getD j default)
  unresolved : f.state ≠ .startTestcase → (∀ code, f.state ≠ .failed code) →
    f.txSocketFds = []

def RequestOk (g : Graph) (host : ℕ → UInt32) (w : World) (u : ℕ) (m : CtrlMessage) : Prop :=
  match m.type with
  | .startMixnetServer => True
  | .startMixnetClients => ∀ i v, (g.topology u)[i]? = some v →
    w.kernel.Listens g.numNodes host v (m.netaddr i)
  | .resolveMixnetConns => ∀ i v, (g.topology u)[i]? = some v → ∃ j,
    (g.topology v)[j]? = some u ∧ ClientAddr g w.kernel v (w.fragment v) j (m.netaddr i)

def ResponseOk (g : Graph) (host : ℕ → UInt32) (w : World) (u : ℕ) (m : CtrlMessage) : Prop :=
  match m.type with
  | .startMixnetServer => g.topology u ≠ [] →
    w.kernel.Listens g.numNodes host u { m.serverNetaddr with addr := host u }
  | .startMixnetClients => ∀ j v, (g.topology u)[j]? = some v →
    ClientAddr g w.kernel u (w.fragment u) j (m.netaddr j)
  | .resolveMixnetConns => Wired g w u

def OrchestratorState.rank : OrchestratorState → ℕ
  | .startAllMixnetClients => 1
  | .resolveMixnetConnections => 2
  | .startTestcase => 3
  | _ => 0

def Orchestrator.Answered (o : Orchestrator) (s : OrchestratorState) (v : ℕ) : Prop :=
  s.rank < o.state.rank ∨
    o.state = s ∧ o.errorCode = .none ∧ ∃ pending, o.loop = .receiving pending ∧ v ∉ pending

def Orchestrator.Unheard (o : Orchestrator) (v : ℕ) : Prop :=
  o.state = .startAllMixnetServers ∨
    o.state = .startAllMixnetClients ∧ ∀ pending, o.loop = .receiving pending → v ∈ pending

structure OrchestratorInv (g : Graph) (host : ℕ → UInt32) (w : World) (o : Orchestrator) :
    Prop where
  not_aborted : o.state ≠ .aborted
  servers : ∀ v < g.numNodes, o.Answered .startAllMixnetServers v → g.topology v ≠ [] →
    w.kernel.Listens g.numNodes host v (o.fragments v).mixnetServerNetaddr
  clients : ∀ v < g.numNodes, o.Answered .startAllMixnetClients v →
    (o.fragments v).mixnetClientNetaddrs.length = (g.topology v).length ∧
      ∀ j a, (o.fragments v).mixnetClientNetaddrs[j]? = some a →
        ClientAddr g w.kernel v (w.fragment v) j a
  resolved : ∀ v < g.numNodes, o.Answered .resolveMixnetConnections v → Wired g w v
  unheard : ∀ v, o.Unheard v → (o.fragments v).mixnetClientNetaddrs = []

structure WiringInv (g : Graph) (host : ℕ → UInt32) (w : World) : Prop where
  kernel : KernelInv g.numNodes host w.kernel
  fragment : ∀ u, FragmentInv g host w.kernel u (w.fragment u)
  requests : ∀ u, ∀ m ∈ w.requests u, RequestOk g host w u m
  responses : ∀ u, ∀ m ∈ w.responses u, ResponseOk g host w u m
  orchestrator : OrchestratorInv g host w w.orchestrator

variable {g : Graph} {host : ℕ → UInt32}

section Growth

structure Fragment.Extends (f f' : Fragment) : Prop where
  rx : f.rxSocketFds <+: f'.rxSocketFds
  tx : f.txSocketFds <+: f'.txSocketFds

theorem Fragment.Extends.refl (f : Fragment) : f.Extends f :=
  ⟨List.prefix_refl _, List.prefix_refl _⟩

structure World.Grows (w w' : World) : Prop where
  kernel : w.kernel.Grows w'.kernel
  fragment : ∀ v, (w.fragment v).Extends (w'.fragment v)

theorem World.Grows.of_eq {w w' : World} (hk : w'.kernel = w.kernel)
    (hf : w'.fragment = w.fragment) : w.Grows w' := by
  constructor
  · rw [hk]
    exact Kernel.Grows.refl _
  · rw [hf]
    exact fun v => Fragment.Extends.refl _

theorem socket_grows {k k' : Kernel} (hk : k.Grows k') {l l' : List ℕ} (hl : l <+: l')
    {u i : ℕ} {s : Socket} (h : (l[i]?).bind (k.sockets u) = some s) :
    (l'[i]?).bind (k'.sockets u) = some s := by
  obtain ⟨fd, hfd, hs⟩ := Option.bind_eq_some_iff.mp h
  exact Option.bind_eq_some_iff.mpr ⟨fd, prefix_getElem hl hfd, hk.sockets u fd s hs⟩

theorem ClientAddr.grows {k k' : Kernel} {f f' : Fragment} {v j : ℕ} {a : NetAddr}
    (h : ClientAddr g k v f j a) (hk : k.Grows k') (hf : f.rxSocketFds <+: f'.rxSocketFds) :
    ClientAddr g k' v f' j a := by
  obtain ⟨c, x, hsocket, hx, hserver, haddr⟩ := h
  exact ⟨c, x, socket_grows hk hf hsocket, hk.connections c x hx, hserver, haddr⟩

theorem Wired.grows {w w' : World} {u : ℕ} (h : Wired g w u) (hg : w.Grows w') :
    Wired g w' u := by
  intro i v hv
  obtain ⟨j, c, hj, htx, hrx⟩ := h i v hv
  refine ⟨j, c, hj, ?_, ?_⟩
  · exact socket_grows hg.kernel (hg.fragment u).tx htx
  · exact socket_grows hg.kernel (hg.fragment v).rx hrx

theorem FragmentInv.grows {k k' : Kernel} {u : ℕ} {f : Fragment}
    (h : FragmentInv g host k u f) (hk : k.Grows k') : FragmentInv g host k' u f where
  degree := h.degree
  accepted s hs := by
    obtain ⟨c, x, hsocket, hx, hserver, haddr⟩ := h.accepted s hs
    exact ⟨c, x, hk.sockets u _ _ hsocket, hk.connections c x hx, hserver, haddr⟩
  reading j fd hfd := by
    obtain ⟨a, ha⟩ := h.reading j fd hfd
    exact ⟨a, ha.grows hk (List.prefix_refl _)⟩
  targets hs j v hv := hk.listens (h.targets hs j v hv)
  unresolved := h.unresolved

theorem RequestOk.grows {w w' : World} {u : ℕ} {m : CtrlMessage}
    (h : RequestOk g host w u m) (hg : w.Grows w') : RequestOk g host w' u m := by
  unfold RequestOk at h ⊢
  cases htype : m.type with
  | startMixnetServer => trivial
  | startMixnetClients =>
    simp only [htype] at h ⊢
    exact fun i v hv => hg.kernel.listens (h i v hv)
  | resolveMixnetConns =>
    simp only [htype] at h ⊢
    intro i v hv
    obtain ⟨j, hj, ha⟩ := h i v hv
    exact ⟨j, hj, ha.grows hg.kernel (hg.fragment v).rx⟩

theorem ResponseOk.grows {w w' : World} {u : ℕ} {m : CtrlMessage}
    (h : ResponseOk g host w u m) (hg : w.Grows w') : ResponseOk g host w' u m := by
  unfold ResponseOk at h ⊢
  cases htype : m.type with
  | startMixnetServer =>
    simp only [htype] at h ⊢
    exact fun hne => hg.kernel.listens (h hne)
  | startMixnetClients =>
    simp only [htype] at h ⊢
    exact fun j v hv => (h j v hv).grows hg.kernel (hg.fragment u).rx
  | resolveMixnetConns =>
    simp only [htype] at h ⊢
    exact h.grows hg

theorem OrchestratorInv.grows {w w' : World} {o : Orchestrator}
    (h : OrchestratorInv g host w o) (hg : w.Grows w') : OrchestratorInv g host w' o where
  not_aborted := h.not_aborted
  servers v hv ha hne := hg.kernel.listens (h.servers v hv ha hne)
  clients v hv ha := by
    obtain ⟨hlen, haddr⟩ := h.clients v hv ha
    exact ⟨hlen, fun j a hja => (haddr j a hja).grows hg.kernel (hg.fragment v).rx⟩
  resolved v hv ha := (h.resolved v hv ha).grows hg
  unheard := h.unheard

theorem WiringInv.grows {w w' : World} (h : WiringInv g host w) (hg : w.Grows w')
    (hk : KernelInv g.numNodes host w'.kernel)
    (hf : ∀ u, FragmentInv g host w'.kernel u (w'.fragment u))
    (hrequests : w'.requests = w.requests) (hresponses : w'.responses = w.responses)
    (ho : w'.orchestrator = w.orchestrator) : WiringInv g host w' where
  kernel := hk
  fragment := hf
  requests u m hm := (h.requests u m (hrequests ▸ hm)).grows hg
  responses u m hm := (h.responses u m (hresponses ▸ hm)).grows hg
  orchestrator := by
    rw [ho]
    exact h.orchestrator.grows hg

end Growth

end Mixnet.Wiring
