import Mixnet.Settled

/-! A hello wave. In a settled network every node other than the root sends once for each
packet of its parent, and every packet sent arrives: one hello of the root goes once
through every port. -/
namespace Mixnet
variable {V : Type*} {T : Topology V}

def Event.Untimed : Event T → Prop
  | .deliver _ _ | .inject _ _ => True
  | _ => False

structure Conserved (c : Control T) : Prop where
  live : ∀ u v, c.live u v = true
  count : ∀ u v i j, T.peer v i = u → T.peer u j = v →
    c.sentStp u j = c.processed v i + (c.queue u v).length

variable [DecidableEq V]

theorem commit_sent_self (c : Control T) (v : V) (o : Outcome (T.deg v)) (j : Fin (T.deg v)) :
    (c.commit v o).sentStp v j = c.sentStp v j + if o.sends ≠ [] then 1 else 0 := by
  simp [Control.commit]

theorem commit_sent_ne (c : Control T) {v : V} (o : Outcome (T.deg v)) {w : V} (h : w ≠ v) :
    (c.commit v o).sentStp w = c.sentStp w := by
  simp [Control.commit, h]

theorem commit_refreshes_self (c : Control T) (v : V) (o : Outcome (T.deg v)) :
    (c.commit v o).refreshes v = c.refreshes v + if o.refreshed then 1 else 0 := by
  simp [Control.commit]

theorem commit_refreshes_ne (c : Control T) {v : V} (o : Outcome (T.deg v)) {w : V}
    (h : w ≠ v) : (c.commit v o).refreshes w = c.refreshes w := by
  simp [Control.commit, h]

theorem Conserved.init : Conserved (Control.init T) where
  live := fun _ _ => rfl
  count := by
    intro u v i j _ hj
    have hadj : T.graph.Adj u v := ⟨j, hj⟩
    simp [Control.init, hadj]

theorem Conserved.take {c : Control T} (h : Conserved c) {w : V} {k : Fin (T.deg w)}
    {p : StpPayload} {rest : List StpPayload} (hq : c.queue (T.peer w k) w = p :: rest) :
    Conserved (c.take w k rest) where
  live := h.live
  count := by
    intro u v i j hu hv
    have hcount := h.count u v i j hu hv
    change c.sentStp u j = _
    by_cases hvw : v = w
    · subst hvw
      by_cases hik : i = k
      · subst hik
        subst hu
        rw [hq, List.length_cons] at hcount
        rw [take_processed_self, take_queue_self]
        omega
      · have hpeer : u ≠ T.peer v k := fun he => hik (T.peer_injective v (hu.trans he))
        rw [take_processed_port _ _ _ _ hik, take_queue_ne _ _ _ _ (fun hx => hpeer hx.1)]
        exact hcount
    · rw [take_processed_ne _ _ _ _ hvw, take_queue_ne _ _ _ _ (fun hx => hvw hx.2)]
      exact hcount

theorem Conserved.commit {c : Control T} (h : Conserved c) (w : V) (o : Outcome (T.deg w)) :
    Conserved (c.commit w o) where
  live := h.live
  count := by
    intro u v i j hu hv
    have hcount := h.count u v i j hu hv
    rw [commit_processed]
    by_cases huw : u = w
    · subst huw
      have hadj : T.graph.Adj u v := ⟨j, hv⟩
      rw [commit_sent_self, commit_queue_self]
      by_cases hs : o.sends = []
      · simpa [hs] using hcount
      · simp only [hadj, h.live u v, hs, ne_eq, not_false_eq_true, and_self, if_true,
          List.length_append, List.length_singleton]
        omega
    · rw [commit_sent_ne _ _ huw, commit_queue_ne _ _ _ huw]
      exact hcount

theorem Conserved.step {c c' : Control T} {e : Event T} (h : Conserved c) (he : e.Lossless)
    (hs : ControlStep c e c') : Conserved c' := by
  cases hs with
  | receive w k p rest o hq hc => exact (h.take hq).commit w o
  | hello w hroot => exact h.commit w _
  | reelect w hroot => exact h.commit w _
  | fail a b => exact absurd he id

theorem conserved_reach {s : Net T} (h : Net.Reach (fun _ e => e.Lossless) (Net.init T) s) :
    Conserved s.control :=
  control_invariant (A := fun _ e => e.Lossless) h (control_init T ▸ Conserved.init)
    fun _ _ _ hc hok hstep => hc.step hok hstep

/-- The wave that began in `c₀` with a hello of `r`. A node below `r` has sent and refreshed
once for each packet of its parent. -/
structure Wave (c₀ : Control T) (r : V) (c : Control T) : Prop where
  settled : Settled c
  route : ∀ v, (c.node v).route = (c₀.node v).route
  conserved : Conserved c
  root : ∀ j, c.sentStp r j = c₀.sentStp r j + 1
  below : ∀ v i, v ≠ r → c₀.labels.Child T.rank v (T.peer v i) →
    c.refreshes v = c₀.refreshes v + (c.processed v i - c₀.processed v i) ∧
    c₀.processed v i ≤ c.processed v i ∧
    ∀ j, c.sentStp v j = c₀.sentStp v j + (c.processed v i - c₀.processed v i)

theorem Wave.start {c : Control T} (h : Settled c) (hc : Conserved c) {r : V}
    (hroot : (c.node r).rootAddr = (c.node r).myAddr) :
    Wave c r (c.commit r (rootHello (c.node r))) := by
  obtain ⟨hsettled, _, hroute⟩ := h.step (e := .hello r) trivial (.hello r hroot)
  refine ⟨hsettled, hroute, hc.commit r _, fun j => ?_, fun v i hv _ => ?_⟩
  · rw [commit_sent_self, if_pos]
    exact sendStp_ne_nil _ j
  · rw [commit_refreshes_ne _ _ hv, commit_sent_ne _ _ hv, commit_processed]
    simp

theorem Wave.receive {c₀ c : Control T} {r : V} (h : Wave c₀ r c)
    (htop : c₀.labels.Top T.rank r) {w : V} {k : Fin (T.deg w)} {p : StpPayload}
    {rest : List StpPayload} {o : Outcome (T.deg w)}
    (hq : c.queue (T.peer w k) w = p :: rest) (hc : StpCase (c.node w) k p o) :
    Wave c₀ r ((c.take w k rest).commit w o) := by
  have hstep : ControlStep c (.deliver w k) _ := .receive w k p rest o hq hc
  obtain ⟨hsettled, _, hroute⟩ := h.settled.step (e := .deliver w k) trivial hstep
  have hlabels : c.labels = c₀.labels := labels_eq h.route
  have hcase := h.settled.receive hq hc
  rw [hlabels] at hcase
  refine ⟨hsettled, fun v => (hroute v).trans (h.route v),
    h.conserved.step (e := .deliver w k) trivial hstep, fun j => ?_,
    fun v i hv hchild => ?_⟩
  · by_cases hr : r = w
    · -- the root has no parent, so it stays silent
      subst hr
      obtain ⟨hchild, _⟩ | ⟨_, ho⟩ := hcase
      · have hlen := hchild.len
        rw [htop.len] at hlen
        omega
      · rw [commit_sent_self, ho]
        exact h.root j
    · rw [commit_sent_ne _ _ hr]
      exact h.root j
  · obtain ⟨href, hproc, hsent⟩ := h.below v i hv hchild
    by_cases hvw : v = w
    · subst hvw
      obtain ⟨hparent, ho⟩ | ⟨hnot, ho⟩ := hcase
      · -- the packet comes from the parent: one send and one refresh
        have hik : i = k := by
          apply T.peer_injective v
          apply rank_injective T
          rw [← hchild.next, ← hparent.next]
        subst hik
        have hs : sendStp (c.node v) ≠ [] := sendStp_ne_nil _ i
        simp only [commit_sent_self, commit_refreshes_self, commit_processed,
          take_processed_self, ho, hs, ne_eq, not_false_eq_true, if_true]
        refine ⟨?_, by omega, fun j => ?_⟩
        · change c.refreshes v + 1 = _
          omega
        · change c.sentStp v j + 1 = _
          have hj := hsent j
          omega
      · have hik : i ≠ k := fun he => hnot (he ▸ hchild)
        simp only [commit_sent_self, commit_refreshes_self, commit_processed,
          take_processed_port _ _ _ _ hik, ho]
        exact ⟨href, hproc, hsent⟩
    · rw [commit_sent_ne _ _ hvw, commit_refreshes_ne _ _ hvw, commit_processed,
        take_processed_ne _ _ _ _ hvw]
      exact ⟨href, hproc, hsent⟩

theorem Wave.reach {c₀ : Control T} {r : V} {t u : Net T}
    (h : Net.Reach (fun _ e => e.Untimed) t u) (ht : Wave c₀ r t.control)
    (htop : c₀.labels.Top T.rank r) : Wave c₀ r u.control := by
  refine control_invariant (A := fun _ e => e.Untimed) h ht ?_
  intro c c' e hc hok hstep
  cases hstep with
  | receive w k p rest o hq hcase => exact hc.receive htop hq hcase
  | hello w hroot => exact absurd hok id
  | reelect w hroot => exact absurd hok id
  | fail a b => exact absurd hok id

/-- When the wave has come to rest everybody has sent once, by induction down the tree. -/
theorem Wave.done {c₀ c : Control T} {r : V} (h : Wave c₀ r c) (hc₀ : Conserved c₀)
    (hstable : StableTree.Stable c₀.liveGraph T.rank c₀.labels)
    (htop : ∀ v, c₀.labels.Top T.rank v → v = r) (h₀ : ∀ u v, c₀.queue u v = [])
    (hq : ∀ u v, c.queue u v = []) (n : ℕ) (v : V) (hn : c₀.labels.len v = n) :
    (∀ j, c.sentStp v j = c₀.sentStp v j + 1) ∧
      (v ≠ r → c.refreshes v = c₀.refreshes v + 1) := by
  induction n generalizing v with
  | zero =>
    obtain hv | ⟨_, u, _, hchild⟩ := hstable.sound v
    · obtain rfl := htop v hv
      exact ⟨h.root, fun hne => absurd rfl hne⟩
    · have hlen := hchild.len
      omega
  | succ n ih =>
    obtain hv | ⟨_, u, hadj, hchild⟩ := hstable.sound v
    · have hlen := hv.len
      omega
    · obtain ⟨i, rfl⟩ := hadj.1
      obtain ⟨j, hj⟩ := T.peer_symm v i
      have hlen := hchild.len
      obtain ⟨hparent, _⟩ := ih (T.peer v i) (by omega)
      have hsent := hparent j
      have hcount := h.conserved.count _ v i j rfl hj
      have hcount₀ := hc₀.count _ v i j rfl hj
      rw [hq, List.length_nil] at hcount
      rw [h₀, List.length_nil] at hcount₀
      have hone : c.processed v i - c₀.processed v i = 1 := by omega
      have hne : v ≠ r := by
        intro hvr
        obtain ⟨r', hr', _⟩ := hstable.top v
        rw [htop r' hr'] at hr'
        rw [hvr, hr'.len] at hn
        omega
      obtain ⟨href, _, hall⟩ := h.below v i hne hchild
      rw [hone] at href hall
      exact ⟨hall, fun _ => href⟩

omit [DecidableEq V] in
theorem stable_of_holdsTree {s : Net T} {r : V} (hconn : T.graph.Connected)
    (h : s.HoldsTree r) : StableTree.Stable T.graph T.rank s.control.labels := by
  have hroot : ∀ v, s.control.labels.root v = T.rank r :=
    fun v => congrArg UInt16.toNat (h.root v)
  have hlen : ∀ v, s.control.labels.len v = T.graph.dist v r := h.len
  refine ⟨fun v => ?_, fun v u hadj => ?_⟩
  · by_cases hv : v = r
    · subst hv
      refine Or.inl ⟨hroot v, ?_, congrArg UInt16.toNat h.top⟩
      rw [hlen, SimpleGraph.dist_self]
    · obtain ⟨u, hadj, hnext, hdist, _⟩ := h.next v hv
      refine Or.inr ⟨?_, u, hadj, ?_, ?_, congrArg UInt16.toNat hnext⟩
      · have hle := UInt16.le_iff_toNat_le.mp (h.min v)
        have hne : T.rank v ≠ T.rank r := fun he => hv (rank_injective T he)
        rw [hroot]
        exact lt_of_le_of_ne hle hne.symm
      · rw [hroot, hroot]
      · rw [hlen, hlen, hdist]
  · rw [StableTree.Labels.label_le_offer, hroot, hroot, hlen, hlen]
    have htri : T.graph.dist v r ≤ T.graph.dist v u + T.graph.dist u r := hconn.dist_triangle
    rw [SimpleGraph.dist_eq_one_iff_adj.mpr hadj] at htri
    by_cases hclose : T.graph.dist u r + 1 = T.graph.dist v r
    · have hv : v ≠ r := by
        intro he
        rw [he, SimpleGraph.dist_self] at hclose
        omega
      obtain ⟨w, _, hnext, _, hleast⟩ := h.next v hv
      have hle := UInt16.le_iff_toNat_le.mp (hleast u hadj hclose)
      refine Or.inr ⟨rfl, Or.inr ⟨hclose.symm, ?_⟩⟩
      change ((s.node v).nextHop).toNat ≤ _
      rw [hnext]
      exact hle
    · right
      refine ⟨rfl, Or.inl ?_⟩
      omega

omit [DecidableEq V] in
theorem liveGraph_of_conserved {c : Control T} (h : Conserved c) : c.liveGraph = T.graph := by
  ext u v
  simp [Control.liveGraph, h.live]

/-- From a settled state, a hello of the root makes every node send exactly one STP packet on
every port and every other node refresh exactly once, and changes no route. -/
theorem hello_wave_once [Fintype V] (T : Topology V) (hconn : T.graph.Connected)
    (s t u : Net T) (r : V) (hreach : Net.Reach (fun _ e => e.Lossless) (Net.init T) s)
    (hempty : ∀ x y, s.stps x y = []) (htwice : ∀ v i, 2 ≤ s.processed v i)
    (htree : s.HoldsTree r) (hhello : s.step (.hello r) = some t)
    (hrun : Net.Reach (fun _ e => e.Untimed) t u) (hdone : ∀ x y, u.stps x y = []) :
    (∀ v i, u.sentStp v i = s.sentStp v i + 1) ∧
      (∀ v, v ≠ r → u.refreshes v = s.refreshes v + 1) ∧
      ∀ v, (u.node v).rootAddr = (s.node v).rootAddr ∧
        (u.node v).pathLen = (s.node v).pathLen ∧ (u.node v).nextHop = (s.node v).nextHop := by
  have hinv : PortInv s.control :=
    portInv_reach (A := fun _ e => e.Lossless) hreach (control_init T ▸ PortInv.init)
  have hcons := conserved_reach hreach
  have hstable : StableTree.Stable s.control.liveGraph T.rank s.control.labels := by
    rw [liveGraph_of_conserved hcons]
    exact stable_of_holdsTree hconn htree
  have hsettled : Settled s.control :=
    settled_of_stable hinv hstable ⟨hempty, fun v i _ => htwice v i⟩
  have htop : ∀ v, s.control.labels.Top T.rank v ↔ v = r := by
    intro v
    refine ⟨fun hv => ?_, fun hv => ?_⟩
    · have hroot := UInt16.toNat_inj.mp hv.root
      exact (T.addr_injective ((htree.root v).symm.trans hroot)).symm
    · obtain ⟨r', hr', _⟩ := hstable.top v
      have hroot := UInt16.toNat_inj.mp hr'.root
      rw [hv, T.addr_injective ((htree.root r').symm.trans hroot)]
      exact hr'
  have hstart : Wave s.control r t.control := by
    obtain ⟨_, hstep⟩ | ⟨hno, _⟩ := control_step hhello
    · generalize t.control = c' at hstep
      cases hstep with
      | hello _ hroot => exact .start hsettled hcons hroot
    · exact absurd trivial hno
  have hwave := Wave.reach hrun hstart ((htop r).mpr rfl)
  have hall := fun v => hwave.done hcons hstable (fun v => (htop v).mp) hempty hdone _ v rfl
  exact ⟨fun v => (hall v).1, fun v => (hall v).2, fun v => route_eq_iff.mp (hwave.route v)⟩

/-- The wave of node 1 through the settled two-node network. -/
theorem hello_wave_once_two : ∃ s t u : Net twoNodes,
    Runs.run Net.step [.deliver 1 0, .deliver 0 0, .hello 0, .deliver 1 0, .deliver 0 0]
      (Net.init twoNodes) = some s ∧ s.step (.hello 0) = some t ∧
    Runs.run Net.step [.deliver 1 0, .deliver 0 0] t = some u ∧
    (∀ v i, u.sentStp v i = s.sentStp v i + 1) ∧
      (∀ v, v ≠ 0 → u.refreshes v = s.refreshes v + 1) ∧
      ∀ v, (u.node v).rootAddr = (s.node v).rootAddr ∧
        (u.node v).pathLen = (s.node v).pathLen ∧ (u.node v).nextHop = (s.node v).nextHop := by
  have hrun : ∃ s t u : Net twoNodes,
      Runs.run Net.step [.deliver 1 0, .deliver 0 0, .hello 0, .deliver 1 0, .deliver 0 0]
        (Net.init twoNodes) = some s ∧ s.step (.hello 0) = some t ∧
      Runs.run Net.step [.deliver 1 0, .deliver 0 0] t = some u ∧
      (∀ x y, s.stps x y = []) ∧ (∀ v i, 2 ≤ s.processed v i) ∧
      (s.node 0).rootAddr = 1 ∧ ∀ x y, u.stps x y = [] := by
    refine ⟨_, _, _, rfl, rfl, rfl, ?_, ?_, ?_, ?_⟩ <;> decide +kernel
  obtain ⟨s, t, u, hs, ht, hu, hempty, htwice, hone, hdone⟩ := hrun
  have hcalm : Net.Reach (fun _ e => e.Calm) (Net.init twoNodes) s :=
    Runs.reach_of_run (by simp [Event.Calm]) hs
  have hlossless : Net.Reach (fun _ e => e.Lossless) (Net.init twoNodes) s :=
    Runs.reach_of_run (by simp [Event.Lossless]) hs
  obtain ⟨hinv, hbest⟩ := calmBest_reach hcalm
  obtain ⟨r, htree⟩ := holdsTree_of_stable twoNodes_connected
    (stable_of_calm hinv hbest ⟨hempty, fun v i _ => htwice v i⟩)
  obtain rfl : r = 0 := twoNodes.addr_injective ((htree.root 0).symm.trans hone)
  refine ⟨s, t, u, hs, ht, hu, hello_wave_once twoNodes twoNodes_connected s t u 0 hlossless
    hempty htwice htree ht (Runs.reach_of_run ?_ hu) hdone⟩
  simp [Event.Untimed]

end Mixnet
