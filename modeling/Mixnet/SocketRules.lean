import Mixnet.Wiring

/-! What the system calls of the wiring phases do: sockets, ports and connections are only
ever added, and an address identifies a connection to a server. -/
namespace Mixnet.Wiring

theorem equalNetaddrs_iff (a b : NetAddr) : equalNetaddrs a b = true ↔ a = b := by
  cases a
  cases b
  simp [equalNetaddrs]
  tauto

/-- Nothing is closed or rebound. -/
structure Kernel.Grows (k k' : Kernel) : Prop where
  sockets : ∀ u fd s, k.sockets u fd = some s → k'.sockets u fd = some s
  ports : ∀ v p, k.ports v = some p → k'.ports v = some p
  connections : ∀ (c : ℕ) (x : Connection), k.connections[c]? = some x →
    k'.connections[c]? = some x

theorem Kernel.Grows.refl (k : Kernel) : k.Grows k :=
  ⟨fun _ _ _ h => h, fun _ _ h => h, fun _ _ h => h⟩

theorem Kernel.Grows.trans {k k' k'' : Kernel} (h : k.Grows k') (h' : k'.Grows k'') :
    k.Grows k'' where
  sockets u fd s hs := h'.sockets u fd s (h.sockets u fd s hs)
  ports v p hp := h'.ports v p (h.ports v p hp)
  connections c x hc := h'.connections c x (h.connections c x hc)

structure KernelInv (n : ℕ) (host : ℕ → UInt32) (k : Kernel) : Prop where
  address_unique : ∀ (c c' : ℕ) (x x' : Connection), k.connections[c]? = some x →
    k.connections[c']? = some x' → x.server = x'.server → x.address = x'.address → c = c'
  port_unique : ∀ u v p, u < n → v < n → host u = host v → k.ports u = some p →
    k.ports v = some p → u = v
  waiting : ∀ v c, c ∈ k.backlog v → ∃ x, k.connections[c]? = some x ∧ x.server = v

variable {n : ℕ} {host : ℕ → UInt32} {k k' : Kernel}

theorem KernelInv.listens_unique (h : KernelInv n host k) {v v' : ℕ} {a : NetAddr}
    (hv : k.Listens n host v a) (hv' : k.Listens n host v' a) : v = v' := by
  obtain ⟨hlt, _, haddr, hport⟩ := hv
  obtain ⟨hlt', _, haddr', hport'⟩ := hv'
  exact h.port_unique v v' a.port hlt hlt' (haddr.symm.trans haddr') hport hport'

theorem Kernel.Grows.listens (hg : k.Grows k') {v : ℕ} {a : NetAddr}
    (h : k.Listens n host v a) : k'.Listens n host v a :=
  ⟨h.1, h.2.1, h.2.2.1, hg.ports v a.port h.2.2.2⟩

theorem openFd_sockets_self (k : Kernel) (u fd : ℕ) (s : Socket) :
    (k.openFd u fd s).sockets u fd = some s := by
  simp [Kernel.openFd]

theorem openFd_grows {u fd : ℕ} (hfree : k.sockets u fd = none) (s : Socket) :
    k.Grows (k.openFd u fd s) where
  sockets u' fd' s' h := by
    by_cases hu : u' = u
    · subst hu
      have hfd : fd' ≠ fd := by
        rintro rfl
        rw [hfree] at h
        exact absurd h (by simp)
      simpa [Kernel.openFd, hfd] using h
    · simpa [Kernel.openFd, hu] using h
  ports _ _ h := h
  connections _ _ h := h

theorem KernelInv.openFd (h : KernelInv n host k) (u fd : ℕ) (s : Socket) :
    KernelInv n host (k.openFd u fd s) :=
  ⟨h.address_unique, h.port_unique, h.waiting⟩

theorem listen_spec {u fd : ℕ} {port : UInt16} (h : KernelInv n host k)
    (hl : k.listen n host u fd port = some k') :
    KernelInv n host k' ∧ k.Grows k' ∧ u < n ∧ k'.ports u = some port := by
  rw [Kernel.listen] at hl
  split_ifs at hl with hfree
  obtain ⟨hlt, hfd, hport, hnone⟩ := hfree
  obtain rfl := Option.some.inj hl
  refine ⟨⟨h.address_unique, ?_, h.waiting⟩, ⟨?_, ?_, fun _ _ hc => hc⟩, hlt, by simp⟩
  · intro v v' p hv hv' hhost hp hp'
    dsimp only at hp hp'
    by_cases hvu : v = u
    · by_cases hvu' : v' = u
      · rw [hvu, hvu']
      · subst hvu
        rw [Function.update_self, Option.some.injEq] at hp
        rw [Function.update_of_ne hvu', ← hp] at hp'
        exact absurd hp' (hnone v' hv' hhost.symm)
    · rw [Function.update_of_ne hvu] at hp
      by_cases hvu' : v' = u
      · subst hvu'
        rw [Function.update_self, Option.some.injEq] at hp'
        rw [← hp'] at hp
        exact absurd hp (hnone v hv hhost)
      · rw [Function.update_of_ne hvu'] at hp'
        exact h.port_unique v v' p hv hv' hhost hp hp'
  · exact (openFd_grows hfd .listener).sockets
  · intro v p hp
    have hv : v ≠ u := by
      rintro rfl
      rw [hport] at hp
      exact absurd hp (by simp)
    simpa [hv] using hp

theorem connection_spec {v : ℕ} {address : NetAddr} (h : KernelInv n host k)
    (hc : k.connection v address = some k') :
    KernelInv n host k' ∧ k.Grows k' ∧ k'.sockets = k.sockets ∧
      k'.connections[k.connections.length]? = some ⟨v, address⟩ := by
  rw [Kernel.connection] at hc
  split_ifs at hc with hnew
  obtain rfl := Option.some.inj hc
  have hold : ∀ (c : ℕ) x, k.connections[c]? = some x →
      (k.connections ++ [⟨v, address⟩])[c]? = some x := by
    intro c x hx
    rw [List.getElem?_append_left (List.getElem?_eq_some_iff.mp hx).1]
    exact hx
  -- a connection is an old one or the new one
  have hcases : ∀ (c : ℕ) x, (k.connections ++ [⟨v, address⟩])[c]? = some x →
      k.connections[c]? = some x ∨ c = k.connections.length ∧ x = ⟨v, address⟩ := by
    intro c x hx
    by_cases hlt : c < k.connections.length
    · rw [List.getElem?_append_left hlt] at hx
      exact Or.inl hx
    · rw [List.getElem?_append_right (by omega), List.getElem?_singleton] at hx
      split_ifs at hx with hz
      exact Or.inr ⟨by omega, (Option.some.inj hx).symm⟩
  have hfresh : ∀ (c : ℕ) x, k.connections[c]? = some x → x.server = v → x.address ≠ address :=
    fun c x hx => hnew x (List.mem_of_getElem? hx)
  refine ⟨⟨?_, h.port_unique, ?_⟩, ⟨fun _ _ _ hs => hs, fun _ _ hp => hp, hold⟩, rfl, ?_⟩
  · intro c c' x x' hx hx' hserver haddr
    obtain hx | ⟨hc, hx⟩ := hcases c x hx
    · obtain hx' | ⟨_, hx'⟩ := hcases c' x' hx'
      · exact h.address_unique c c' x x' hx hx' hserver haddr
      · rw [hx'] at hserver haddr
        exact absurd haddr (hfresh c x hx hserver)
    · obtain hx' | ⟨hc', _⟩ := hcases c' x' hx'
      · rw [hx] at hserver haddr
        exact absurd haddr.symm (hfresh c' x' hx' hserver.symm)
      · rw [hc, hc']
  · intro v' c hc
    dsimp only at hc
    by_cases hv : v' = v
    · subst hv
      rw [Function.update_self, List.mem_append, List.mem_singleton] at hc
      obtain hc | rfl := hc
      · obtain ⟨x, hx, hserver⟩ := h.waiting v' c hc
        exact ⟨x, hold c x hx, hserver⟩
      · exact ⟨⟨v', address⟩, by simp, rfl⟩
    · rw [Function.update_of_ne hv] at hc
      obtain ⟨x, hx, hserver⟩ := h.waiting v' c hc
      exact ⟨x, hold c x hx, hserver⟩
  · simp

theorem connect_spec {u fd v : ℕ} {target address : NetAddr} (h : KernelInv n host k)
    (hc : k.connect n host u fd v target address = some k') :
    KernelInv n host k' ∧ k.Grows k' ∧ k.Listens n host v target ∧
      ∃ c, k'.sockets u fd = some (.client c) ∧ k'.connections[c]? = some ⟨v, address⟩ := by
  rw [Kernel.connect] at hc
  split_ifs at hc with hfree
  obtain ⟨k₁, hk₁, rfl⟩ := Option.map_eq_some_iff.mp hc
  obtain ⟨hinv, hgrows, hsockets, hnew⟩ := connection_spec h hk₁
  have hfree' : k₁.sockets u fd = none := by
    rw [hsockets]
    exact hfree.1
  exact ⟨hinv.openFd u fd _, hgrows.trans (openFd_grows hfree' _), hfree.2, _,
    openFd_sockets_self k₁ u fd _, hnew⟩

theorem accept_spec {u fd c : ℕ} {p : Kernel × NetAddr} (h : KernelInv n host k)
    (ha : k.accept u fd c = some p) :
    KernelInv n host p.1 ∧ k.Grows p.1 ∧ p.1.sockets u fd = some (.server c) ∧
      ∃ x, p.1.connections[c]? = some x ∧ x.server = u ∧ x.address = p.2 := by
  rw [Kernel.accept] at ha
  split_ifs at ha with hfree
  obtain ⟨x, hx, rfl⟩ := Option.map_eq_some_iff.mp ha
  obtain ⟨y, hy, hserver⟩ := h.waiting u c hfree.2
  obtain rfl : x = y := Option.some.inj (hx.symm.trans hy)
  have hgrows := openFd_grows hfree.1 (.server c)
  refine ⟨⟨h.address_unique, h.port_unique, ?_⟩, ⟨hgrows.sockets, hgrows.ports, hgrows.connections⟩,
    openFd_sockets_self k u fd _, x, hx, hserver, rfl⟩
  intro v c' hc'
  dsimp only at hc'
  by_cases hv : v = u
  · subst hv
    rw [Function.update_self] at hc'
    exact h.waiting v c' (List.mem_of_mem_filter hc')
  · rw [Function.update_of_ne hv] at hc'
    exact h.waiting v c' hc'

theorem getsockname_spec {u fd : ℕ} {a : NetAddr} (h : k.getsockname u fd = some a) :
    ∃ c x, k.sockets u fd = some (.client c) ∧ k.connections[c]? = some x ∧ x.address = a := by
  rw [Kernel.getsockname] at h
  split at h
  · next c hc =>
    obtain ⟨x, hx, ha⟩ := Option.map_eq_some_iff.mp h
    exact ⟨c, x, hc, hx, ha⟩
  · exact absurd h (by simp)

end Mixnet.Wiring
