import Mixnet.FairRuns

/-! Convergence. In a fair run the routes come to rest; the hellos of the lowest nodes keep going
over the live links, so at rest everybody holds what its neighbors offer. From then on every FLOOD
is given to everybody else, once. -/
namespace Mixnet
variable {V : Type*} {T : Topology V} [DecidableEq V]

section Steps
variable {c c' : Control T} {e : Event T}

theorem route_step (hcalm : e.Calm) (hs : ControlStep c e c') (v : V) :
    (c'.node v).route ≤ (c.node v).route := by
  cases hs with
  | receive w i p rest o hq hc =>
    exact commit_forall (c.take w i rest) w o (P := fun v node => node.route ≤ (c.node v).route)
      hc.route_le (fun _ => le_rfl) v
  | hello w hroot => exact (commit_route rfl v).le
  | reelect w hroot => exact absurd hcalm id
  | fail a b => exact absurd hcalm id

theorem processed_step (hs : ControlStep c e c') (v : V) (i : Fin (T.deg v)) :
    c.processed v i ≤ c'.processed v i := by
  cases hs with
  | receive w k p rest o hq hc => exact take_processed_le c w k rest v i
  | hello w hroot => exact le_rfl
  | reelect w hroot => exact le_rfl
  | fail a b => exact le_rfl

theorem ControlStep.hello_cases {v : V} (h : ControlStep c (.hello v) c') :
    c' = c.commit v (rootHello (c.node v)) := by
  cases h with
  | hello v hroot => rfl

theorem queue_of_send {v : V} {o : Outcome (T.deg v)} (hs : o.sends ≠ []) {u : V}
    (hadj : T.graph.Adj v u) (hlive : c.live v u = true) : (c.commit v o).queue v u ≠ [] := by
  rw [commit_queue_sent c v o hadj hlive hs]
  simp

end Steps

variable {s : Net T} {x : Runs.Execution Net.step s}

section Rest

theorem Fair.control_steps (h : Fair x) {R : Control T → Control T → Prop} (hrefl : ∀ c, R c c)
    (hstep : ∀ c c' e, e.Calm → ControlStep c e c' → R c c') (n : ℕ) :
    R (x.state n).control (x.state (n + 1)).control := by
  obtain ⟨-, hc⟩ | ⟨-, heq⟩ := control_step (x.steps n)
  · exact hstep _ _ _ (h.calm n) hc
  · rw [heq]
    exact hrefl _

theorem Fair.route_antitone (h : Fair x) (v : V) :
    Antitone fun n => ((x.state n).node v).route :=
  antitone_nat_of_succ_le (h.control_steps (R := fun c c' => (c'.node v).route ≤ (c.node v).route)
    (fun _ => le_rfl) fun _ _ _ hcalm hs => route_step hcalm hs v)

theorem Fair.processed_mono (h : Fair x) (v : V) (i : Fin (T.deg v)) :
    Monotone fun n => (x.state n).processed v i :=
  monotone_nat_of_le_succ (h.control_steps (R := fun c c' => c.processed v i ≤ c'.processed v i)
    (fun _ => le_rfl) fun _ _ _ _ hs => processed_step hs v i)

theorem Fair.rest [Finite V] (h : Fair x) : ∃ N, ∀ n, N ≤ n → ∀ v,
    ((x.state n).node v).route = ((x.state N).node v).route := by
  have hall : ∀ v, ∃ N, ∀ n, N ≤ n →
      ((x.state n).node v).route = ((x.state (n + 1)).node v).route := by
    intro v
    obtain ⟨N, hN⟩ := Runs.eventually_const (h.route_antitone v)
    exact ⟨N, fun n hn => (hN n hn).trans (hN (n + 1) (by omega)).symm⟩
  obtain ⟨N, hN⟩ := Runs.eventually_all hall
  refine ⟨N, fun n hn v => ?_⟩
  induction n, hn using Nat.le_induction with
  | base => rfl
  | succ n hn ih => rw [← hN n hn v, ih]

end Rest

section Wave
variable {base sent₀ : (v : V) → Fin (T.deg v) → ℕ} {c : Control T}

theorem Fair.recovering [Fintype V] (h : Fair x)
    (hreach : Net.Reach (fun _ _ => True) (Net.init T) s) (hroutes : LiveRoutes s.control) (n : ℕ) :
    Recovering (fun v i => max 1 (s.processed v i)) s.sentStp s.live (x.state n).control := by
  have hport : PortInv s.control :=
    portInv_reach (A := fun _ _ => True) hreach (control_init T ▸ PortInv.init)
  exact control_invariant (A := fun _ e => e.Calm) (h.reach_start n)
    (.start hport (counted_reach hreach) hroutes)
    fun _ _ _ hc hcalm hstep => hc.step (fun _ _ => le_max_left _ _) hcalm hstep

/-- From `N` on the routes rest, and every STP packet in flight says what its sender holds. -/
structure AtRest (x : Runs.Execution Net.step s) (N : ℕ) : Prop where
  route : ∀ n, N ≤ n → ∀ v, ((x.state n).node v).route = ((x.state N).node v).route
  current : ∀ n, N ≤ n → ∀ u v, ∀ p ∈ (x.state n).control.queue u v,
    p = (x.state n).control.advert u

theorem advert_rest (hrec : ∀ n, Recovering base sent₀ s.live (x.state n).control) {N n m : ℕ}
    (hrest : ∀ n, N ≤ n → ∀ v, ((x.state n).node v).route = ((x.state N).node v).route)
    (hn : N ≤ n) (hm : N ≤ m) (u : V) :
    (x.state n).control.advert u = (x.state m).control.advert u :=
  advert_eq ((hrest n hn u).trans (hrest m hm u).symm)
    (((hrec n).links.myAddr u).trans ((hrec m).links.myAddr u).symm)

theorem Fair.atRest [Finite V] (h : Fair x)
    (hrec : ∀ n, Recovering base sent₀ s.live (x.state n).control) : ∃ N, AtRest x N := by
  obtain ⟨N, hN⟩ := h.rest
  have hall : ∀ k : Σ v, Fin (T.deg v), ∃ M, ∀ n, M ≤ n →
      ∀ p ∈ (x.state n).control.queue (T.peer k.1 k.2) k.1,
        p = (x.state N).control.advert (T.peer k.1 k.2) := by
    rintro ⟨v, i⟩
    obtain ⟨M, -, hM⟩ := (h.fifo v i).renewed N
    refine ⟨M, fun n hn p hp => ?_⟩
    obtain ⟨f, hf, ht, rfl⟩ := exists_flight hp
    obtain ⟨j, hj, hadvert⟩ := hM n hn f hf
    rw [hadvert ht]
    exact advert_rest hrec hN (by omega) le_rfl (T.peer v i)
  obtain ⟨M, hM⟩ := Runs.eventually_all hall
  refine ⟨max N M, fun n hn v => ?_, fun n hn u v p hp => ?_⟩
  · exact (hN n (le_of_max_le_left hn) v).trans (hN _ (le_max_left N M) v).symm
  · obtain ⟨i, rfl⟩ := ((hrec n).links.link u v (List.ne_nil_of_mem hp)).1.symm
    rw [hM n (le_of_max_le_right hn) ⟨v, i⟩ p hp]
    exact advert_rest hrec hN le_rfl (le_of_max_le_left hn) _

def Resends (x : Runs.Execution Net.step s) (v : V) : Prop :=
  ∀ n, ∃ m, n ≤ m ∧ ∀ u, s.control.liveGraph.Adj v u → (x.state m).control.queue v u ≠ []

/-- Behind a neighbor that keeps sending, a port receives again and again. -/
theorem Fair.receipts (h : Fair x) {v : V} {i : Fin (T.deg v)}
    (hadj : s.control.liveGraph.Adj v (T.peer v i)) (hsent : Resends x (T.peer v i)) (n : ℕ) :
    ∃ m, n ≤ m ∧ 1 ≤ (x.state m).processed v i ∧ ∃ p rest o,
      (x.state m).control.queue (T.peer v i) v = p :: rest ∧
      StpCase ((x.state m).node v) i p o ∧
      (x.state (m + 1)).control = ((x.state m).control.take v i rest).commit v o := by
  have honce : ∀ n, ∃ m, n ≤ m ∧ ∃ p rest o,
      (x.state m).control.queue (T.peer v i) v = p :: rest ∧
      StpCase ((x.state m).node v) i p o ∧
      (x.state (m + 1)).control = ((x.state m).control.take v i rest).commit v o := by
    intro n
    obtain ⟨m, hnm, hbusy⟩ := hsent n
    obtain ⟨m', hm', hreceive⟩ := h.receives (hbusy v hadj.symm)
    exact ⟨m', hnm.trans hm', hreceive⟩
  -- the second packet meets a port that has seen the first
  obtain ⟨m, hnm, p, rest, o, -, -, hnext⟩ := honce n
  have hone : 1 ≤ (x.state (m + 1)).processed v i := by
    change 1 ≤ (x.state (m + 1)).control.processed v i
    rw [hnext, commit_processed, take_processed_self]
    omega
  obtain ⟨m', hm', hreceive⟩ := honce (m + 1)
  exact ⟨m', by omega, hone.trans (h.processed_mono v i hm'), hreceive⟩

theorem labels_rest {N n : ℕ} (hrest : AtRest x N) (hn : N ≤ n) :
    (x.state n).control.labels = (x.state N).control.labels :=
  labels_eq (hrest.route n hn)

omit [DecidableEq V] in
theorem Recovering.liveGraph (h : Recovering base sent₀ s.live c) :
    c.liveGraph = s.control.liveGraph :=
  liveGraph_congr (c := s.control) h.live_eq

theorem AtRest.receive [Fintype V] {N : ℕ} (hrest : AtRest x N)
    (hrec : ∀ n, Recovering base sent₀ s.live (x.state n).control) {m : ℕ} (hm : N ≤ m) {v : V}
    {i : Fin (T.deg v)} {p : StpPayload} {rest : List StpPayload} {o : Outcome (T.deg v)}
    (hq : (x.state m).control.queue (T.peer v i) v = p :: rest)
    (hnext : (x.state (m + 1)).control = ((x.state m).control.take v i rest).commit v o) :
    o.node.route = (x.state N).control.labels.label v ∧
      p.offer = (x.state N).control.labels.offer T.rank (T.peer v i) := by
  constructor
  · have hroute := hrest.route (m + 1) (by omega) v
    change ((x.state (m + 1)).control.node v).route = _ at hroute
    rw [hnext, commit_node_self] at hroute
    exact hroute
  · rw [hrest.current m hm (T.peer v i) v p (by simp [hq]), ← labels_rest hrest hm]
    exact labels_offer (hrec m).links.myAddr ((hrec m).routes.node _).chain.narrow

theorem Fair.wave [Fintype V] (h : Fair x)
    (hrec : ∀ n, Recovering base sent₀ s.live (x.state n).control) {N : ℕ} (hrest : AtRest x N) :
    StableTree.Wave s.control.liveGraph T.rank (x.state N).control.labels (Resends x) := by
  rw [← (hrec N).liveGraph]
  refine (hrec N).routes.wave (hrec N).toPortInv (fun v u hadj hsent => ?_) fun r u _ hleast => ?_
  · rw [(hrec N).liveGraph] at hadj
    obtain ⟨i, rfl⟩ := hadj.1
    constructor
    · obtain ⟨m, hm, hproc, p, rest, o, hq, hc, hnext⟩ := h.receipts hadj hsent N
      obtain ⟨hroute, hoffer⟩ := hrest.receive hrec hm hq hnext
      rw [← hroute, ← hoffer]
      exact hc.route_le_offer ((hrec m).recorded v i hproc)
    · intro heq n
      obtain ⟨m, hm, hproc, p, rest, o, hq, hc, hnext⟩ := h.receipts hadj hsent (max n N)
      obtain ⟨hroute, hoffer⟩ := hrest.receive hrec (le_of_max_le_right hm) hq hnext
      have hsends : o.sends ≠ [] := hc.answers_after ((hrec m).recorded v i hproc)
        (hroute.trans (heq.trans hoffer.symm))
      refine ⟨m + 1, (le_of_max_le_left hm).trans m.le_succ, fun w hw => ?_⟩
      rw [hnext]
      rw [← (hrec m).liveGraph] at hw
      exact queue_of_send (c := (x.state m).control.take v i rest) hsends hw.1 hw.2.1
  · intro n
    have hlowest : ∀ v, s.control.liveGraph.Reachable r v → T.addr r ≤ T.addr v := by
      rw [← (hrec N).liveGraph]
      exact fun v hv => UInt16.le_iff_toNat_le.mpr (hleast v hv)
    obtain ⟨m, hm, hevent⟩ := h.hello r hlowest n
    have hstep := x.steps m
    rw [hevent] at hstep
    refine ⟨m + 1, by omega, fun w hw => ?_⟩
    rw [← (hrec m).liveGraph] at hw
    obtain ⟨j, -⟩ := hw.1
    obtain ⟨-, hcontrol⟩ | ⟨hno, -⟩ := control_step hstep
    · rw [hcontrol.hello_cases]
      exact queue_of_send (sendStp_ne_nil _ j) hw.1 hw.2.1
    · exact absurd trivial hno

end Wave

section Marks
variable {c c' : Control T} {e : Event T} {v : V} {i : Fin (T.deg v)}

def Control.Marked (c : Control T) (v : V) (i : Fin (T.deg v)) (node : Node (T.deg v)) : Prop :=
  (c.treeGraph.Adj v (T.peer v i) → node.neighborsBlocked i = false) ∧
    (c.Shut v (T.peer v i) → node.neighborsBlocked i = true)

omit [DecidableEq V] in
theorem Settled.marks (h : Settled c) {p : StpPayload} {rest : List StpPayload}
    {o : Outcome (T.deg v)} (hq : c.queue (T.peer v i) v = p :: rest)
    (hc : StpCase (c.node v) i p o) : c.Marked v i o.node := by
  have hmem : p ∈ c.queue (T.peer v i) v := by simp [hq]
  obtain ⟨hadj, hlive⟩ := h.links.link _ _ (List.ne_nil_of_mem hmem)
  have hladj : c.liveGraph.Adj v (T.peer v i) := (h.liveGraph_adj.mpr ⟨hadj, hlive⟩).symm
  obtain ⟨hchild, ho⟩ | ⟨hnot, ho⟩ := h.receive hq hc
  · -- the port of the parent is open in every state of a node
    rw [ho]
    refine ⟨fun _ => ?_, fun hs => absurd ⟨hladj, Or.inl hchild⟩ hs.no_edge⟩
    have hlen := hchild.len
    obtain hself | ⟨_, _, j, hj, _, hopen⟩ := (h.links.node v).shape
    · have hzero : c.labels.len v = 0 := hself.2.1
      omega
    · have hnext := UInt16.toNat_inj.mp hchild.next
      have hji : j = i := T.peer_injective v (T.addr_injective (hj.symm.trans hnext))
      rw [← hji]
      exact hopen
  · rw [ho]
    simpa [Control.Marked, Node.setBlocked] using h.blocks hmem hnot

theorem Settled.marked_step (h : Settled c) (hcalm : e.Calm) (hs : ControlStep c e c')
    (hm : c.Marked v i (c.node v)) : c'.Marked v i (c'.node v) := by
  obtain ⟨hlabels, hgraph⟩ := h.step_labels hcalm hs
  rw [Control.Marked, treeGraph_congr hlabels hgraph, shut_congr hlabels hgraph]
  change c.Marked v i (c'.node v)
  cases hs with
  | receive w k p rest o hq hc =>
    by_cases hw : w = v
    · subst hw
      rw [commit_node_self]
      by_cases hki : k = i
      · subst hki
        exact h.marks hq hc
      · obtain ⟨_, ho⟩ | ⟨_, ho⟩ := h.receive hq hc
        · rw [ho]
          exact hm
        · rw [ho]
          simpa [Control.Marked, Node.setBlocked, Function.update_of_ne (Ne.symm hki)] using hm
    · rw [commit_node_ne _ _ _ (Ne.symm hw)]
      exact hm
  | hello w hroot =>
    rw [commit_node_same c w (rootHello (c.node w)) rfl]
    exact hm
  | reelect w hroot => exact absurd hcalm id
  | fail a b => exact absurd hcalm id

end Marks

section Settling
variable [Fintype V] {base sent₀ : (v : V) → Fin (T.deg v) → ℕ}

omit [Fintype V] in
theorem Fair.settled_from (h : Fair x) {N n : ℕ} (hN : Settled (x.state N).control)
    (hn : N ≤ n) : Settled (x.state n).control :=
  control_invariant (A := fun _ e => e.Calm) (h.reach hn) hN
    fun _ _ _ hc hcalm hs => (hc.step hcalm hs).1

theorem Fair.settles (h : Fair x) (hrec : ∀ n, Recovering base sent₀ s.live (x.state n).control) :
    ∃ N, Settled (x.state N).control ∧
      ∀ v u, s.control.liveGraph.Adj v u → Resends x v := by
  obtain ⟨N, hrest⟩ := h.atRest hrec
  have hwave := h.wave hrec hrest
  have hsends : ∀ v u, s.control.liveGraph.Adj v u → Resends x v :=
    fun v u hadj => hwave.sent_of_adj (rank_injective T) hadj
  have htwice : ∀ k : Σ v, Fin (T.deg v), ∃ M, ∀ n, M ≤ n →
      (x.state n).live k.1 (T.peer k.1 k.2) = true → 2 ≤ (x.state n).processed k.1 k.2 := by
    rintro ⟨v, i⟩
    by_cases hadj : s.control.liveGraph.Adj v (T.peer v i)
    · obtain ⟨m, -, hone, p, rest, o, -, -, hnext⟩ := h.receipts hadj (hsends _ v hadj.symm) 0
      refine ⟨m + 1, fun n hn _ => le_trans ?_ (h.processed_mono v i hn)⟩
      change 2 ≤ (x.state (m + 1)).control.processed v i
      rw [hnext, commit_processed, take_processed_self]
      exact Nat.succ_le_succ hone
    · refine ⟨0, fun n _ hlive => absurd ?_ hadj⟩
      rw [← (hrec n).liveGraph]
      exact (hrec n).toPortInv.liveGraph_adj.mpr ⟨⟨i, rfl⟩, hlive⟩
  obtain ⟨M, hM⟩ := Runs.eventually_all htwice
  have hle : N ≤ max N M := le_max_left N M
  have hstable : StableTree.Stable (x.state (max N M)).control.liveGraph T.rank
      (x.state (max N M)).control.labels := by
    rw [(hrec _).liveGraph, labels_rest hrest hle]
    exact hwave.stable (rank_injective T)
  exact ⟨max N M, ⟨(hrec _).toPortInv, hstable, narrow_of_stable hstable,
    fun v i => hM _ (le_max_right N M) ⟨v, i⟩, hrest.current _ hle⟩, hsends⟩

theorem Fair.flagged (h : Fair x)
    (hrec : ∀ n, Recovering base sent₀ s.live (x.state n).control) :
    ∃ N, Settled (x.state N).control ∧ Flags (x.state N).control := by
  obtain ⟨N, hN, hsends⟩ := h.settles hrec
  have hmarked : ∀ k : Σ v, Fin (T.deg v), ∃ M, ∀ n, M ≤ n →
      (x.state n).control.Marked k.1 k.2 ((x.state n).node k.1) := by
    rintro ⟨v, i⟩
    by_cases hadj : s.control.liveGraph.Adj v (T.peer v i)
    · obtain ⟨m, hm, -, p, rest, o, hq, hc, hnext⟩ := h.receipts hadj (hsends _ v hadj.symm) N
      have hset := h.settled_from hN hm
      have hstep : ControlStep (x.state m).control (.deliver v i) (x.state (m + 1)).control :=
        hnext ▸ .receive v i p rest o hq hc
      obtain ⟨hlabels, hgraph⟩ := hset.step_labels (e := .deliver v i) trivial hstep
      have hmark : (x.state (m + 1)).control.Marked v i ((x.state (m + 1)).control.node v) := by
        rw [Control.Marked, treeGraph_congr hlabels hgraph, shut_congr hlabels hgraph, hnext,
          commit_node_self]
        exact hset.marks hq hc
      refine ⟨m + 1, fun n hn => ?_⟩
      exact (control_invariant (A := fun _ e => e.Calm)
        (P := fun c => Settled c ∧ c.Marked v i (c.node v))
        (h.reach hn) ⟨h.settled_from hN (by omega), hmark⟩
        fun _ _ _ hc hcalm hs => ⟨(hc.1.step hcalm hs).1, hc.1.marked_step hcalm hs hc.2⟩).2
    · refine ⟨0, fun n _ => ?_⟩
      have hno : ¬ (x.state n).control.liveGraph.Adj v (T.peer v i) := by
        rwa [(hrec n).liveGraph]
      exact ⟨fun hedge => absurd hedge.1 hno, fun hs => absurd hs.adj hno⟩
  obtain ⟨M, hM⟩ := Runs.eventually_all hmarked
  refine ⟨max N M, h.settled_from hN (le_max_left N M), flags_iff.mpr fun v i => ?_⟩
  exact hM _ (le_max_right N M) ⟨v, i⟩

end Settling

section Forest

/-- The forest that spans `G`: everybody names the lowest node that it can reach and the distance to
it, and goes there by the lowest neighbor one hop closer; the links between a node and its next hop
are open at both ends, and no others are. -/
structure Net.HoldsForest (s : Net T) (G : SimpleGraph V) : Prop where
  root : ∀ v r, G.Reachable v r → (∀ w, G.Reachable v w → T.addr r ≤ T.addr w) →
    (s.node v).rootAddr = T.addr r ∧ (s.node v).pathLen = G.dist v r
  top : ∀ v, (s.node v).rootAddr = T.addr v → (s.node v).nextHop = T.addr v
  next : ∀ v, (s.node v).rootAddr ≠ T.addr v → ∃ u, G.Adj v u ∧ (s.node v).nextHop = T.addr u ∧
    (s.node u).pathLen + 1 = (s.node v).pathLen ∧
    ∀ w, G.Adj v w → (s.node w).pathLen + 1 = (s.node v).pathLen → T.addr u ≤ T.addr w
  opened : ∀ v i j, T.peer (T.peer v i) j = v → G.Adj v (T.peer v i) →
    ((s.node v).neighborsBlocked i = false ∧ (s.node (T.peer v i)).neighborsBlocked j = false ↔
      (s.node v).nextHop = T.addr (T.peer v i) ∨ (s.node (T.peer v i)).nextHop = T.addr v)

omit [DecidableEq V] in
theorem Settled.child_of_next {c : Control T} (h : Settled c) {v u : V} (hvu : v ≠ u)
    (hnext : (c.node v).nextHop = T.addr u) : c.labels.Child T.rank v u := by
  have hrank : c.labels.next v = T.rank u := congrArg UInt16.toNat hnext
  obtain htop | ⟨-, w, -, hchild⟩ := h.stable.sound v
  · exact absurd (rank_injective T (htop.next.symm.trans hrank)) hvu
  · obtain rfl : w = u := rank_injective T (hchild.next.symm.trans hrank)
    exact hchild

omit [DecidableEq V] in
theorem Settled.tree_adj {c : Control T} (h : Settled c) {v u : V} (hadj : c.liveGraph.Adj v u) :
    c.treeGraph.Adj v u ↔ (c.node v).nextHop = T.addr u ∨ (c.node u).nextHop = T.addr v := by
  constructor
  · rintro ⟨-, hchild | hchild⟩
    · exact Or.inl (UInt16.toNat_inj.mp hchild.next)
    · exact Or.inr (UInt16.toNat_inj.mp hchild.next)
  · rintro (hnext | hnext)
    · exact ⟨hadj, Or.inl (h.child_of_next hadj.ne hnext)⟩
    · exact ⟨hadj, Or.inr (h.child_of_next hadj.ne' hnext)⟩

omit [DecidableEq V] in
theorem edge_of_open {s : Net T} (h : Settled s.control) (hf : Flags s.control) {v : V}
    {i : Fin (T.deg v)} {j : Fin (T.deg (T.peer v i))} (hj : T.peer (T.peer v i) j = v)
    (hadj : s.control.liveGraph.Adj v (T.peer v i)) (hi : (s.node v).neighborsBlocked i = false)
    (hopen : (s.node (T.peer v i)).neighborsBlocked j = false) :
    s.control.treeGraph.Adj v (T.peer v i) := by
  obtain hedge | hshut | hshut := (fence_of_flags h.toPortInv hf).cover v _ hadj.1 hadj.2.1
  · exact hedge
  · have hblocked := hf.shut v i hshut
    exact absurd (hi.symm.trans hblocked) (by simp)
  · have hblocked := hf.shut (T.peer v i) j (by rwa [hj])
    exact absurd (hopen.symm.trans hblocked) (by simp)

omit [DecidableEq V] in
theorem holdsForest_of_settled [Fintype V] {s : Net T} (h : Settled s.control)
    (hf : Flags s.control) : s.HoldsForest s.control.liveGraph where
  root := fun v r hr hmin => label_of_stable h.stable hr hmin
  top := by
    intro v hroot
    obtain htop | ⟨hlt, -⟩ := h.stable.sound v
    · exact UInt16.toNat_inj.mp htop.next
    · exact absurd (congrArg UInt16.toNat hroot) hlt.ne
  next := by
    intro v hroot
    obtain htop | ⟨-, u, hadj, hchild⟩ := h.stable.sound v
    · exact absurd (UInt16.toNat_inj.mp htop.root) hroot
    · refine ⟨u, hadj, UInt16.toNat_inj.mp hchild.next, hchild.len.symm, fun w hw hlen => ?_⟩
      have hsame := h.stable.root_adj hw
      change s.control.labels.len w + 1 = s.control.labels.len v at hlen
      rw [UInt16.le_iff_toNat_le]
      change T.rank u ≤ T.rank w
      rw [← hchild.next]
      obtain hlt | ⟨-, hlt | heq⟩ := StableTree.Labels.label_le_offer.mp (h.stable.best v w hw)
      · exact absurd hsame hlt.ne
      · omega
      · exact heq.2
  opened := by
    intro v i j hj hadj
    constructor
    · rintro ⟨hi, hopen⟩
      exact (h.tree_adj hadj).mp (edge_of_open h hf hj hadj hi hopen)
    · intro hnext
      have hedge := (h.tree_adj hadj).mpr hnext
      exact ⟨hf.opened v i hedge, hf.opened (T.peer v i) j (by rw [hj]; exact hedge.symm)⟩

theorem Fair.flagged_from (h : Fair x) {N n : ℕ} (hN : Settled (x.state N).control)
    (hflags : Flags (x.state N).control) (hn : N ≤ n) : Flags (x.state n).control :=
  (control_invariant (A := fun _ e => e.Calm) (P := fun c => Settled c ∧ Flags c) (h.reach hn)
    ⟨hN, hflags⟩ fun _ _ _ hc hcalm hs => ⟨(hc.1.step hcalm hs).1, hc.2.step hc.1 hcalm hs⟩).2

/-- From any state whose routes are backed, whatever failures and re-elections came before: in every
run that goes on without more of them, lets every packet arrive and lets the lowest nodes say hello
again and again, the nodes in the end hold the forest that spans the live links, and keep it. -/
theorem fair_run_converges [Fintype V] (T : Topology V) (s : Net T)
    (hreach : Net.Reach (fun _ _ => True) (Net.init T) s) (hroutes : LiveRoutes s.control)
    (x : Runs.Execution Net.step s) (hfair : Fair x) :
    ∃ N, ∀ n, N ≤ n → (x.state n).HoldsForest s.control.liveGraph := by
  have hrec := hfair.recovering hreach hroutes
  obtain ⟨N, hN, hflags⟩ := hfair.flagged hrec
  refine ⟨N, fun n hn => ?_⟩
  rw [← (hrec n).liveGraph]
  exact holdsForest_of_settled (hfair.settled_from hN hn) (hfair.flagged_from hN hflags hn)

/-- Some run of the triangle goes on in this way after a link has failed and node 2 has fallen back
on itself; in the end all name node 1 again. -/
theorem fair_run_converges_triangle : ∃ s : Net triangle,
    Runs.run Net.step triangleFallsBack (Net.init triangle) = some s ∧
    (s.node 1).rootAddr = 2 ∧ s.live 0 1 = false ∧
    ∃ x : Runs.Execution Net.step s, Fair x ∧
      ∃ N, ∀ n, N ≤ n → ∀ v, ((x.state n).node v).rootAddr = 1 := by
  obtain ⟨s, hs, hroutes, htwo, hcut, h02, h20, h12, h21⟩ := triangle_fallen_back
  have hreach : Net.Reach (fun _ _ => True) (Net.init triangle) s := Runs.reach_of_run (by simp) hs
  obtain ⟨x, hfair, -⟩ := fair_exists hreach hroutes
  obtain ⟨N, hN⟩ := fair_run_converges triangle s hreach hroutes x hfair
  have hlowest : ∀ w : Fin 3, triangle.addr 0 ≤ triangle.addr w := by decide
  refine ⟨s, hs, htwo, hcut, x, hfair, N, fun n hn v => ?_⟩
  exact ((hN n hn).root v 0 (triangle_reachable h02 h20 h12 h21 v) fun w _ => hlowest w).1

end Forest

end Mixnet
