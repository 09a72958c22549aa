import Mixnet.LoopFree
import Mixnet.StableTree

/-! Quiet states: no STP packet is in flight and every port has processed two. In calm runs
no neighbour can improve a node any more, so the labels of the network are stable. -/
namespace Mixnet
variable {V : Type*} {T : Topology V}

def Topology.rank (T : Topology V) (v : V) : ℕ := (T.addr v).toNat

theorem rank_injective (T : Topology V) : Function.Injective T.rank :=
  fun _ _ h => T.addr_injective (UInt16.toNat_inj.mp h)

def Control.labels (c : Control T) : StableTree.Labels V ℕ where
  root := fun v => (c.node v).rootAddr.toNat
  len := fun v => (c.node v).pathLen
  next := fun v => (c.node v).nextHop.toNat

/-- Behind a quiet link the sender has nothing better to offer. -/
def Best (c : Control T) : Prop :=
  ∀ u v i, T.peer v i = u → c.queue u v = [] → 2 ≤ c.processed v i →
    (c.node v).route ≤ (c.advert u).offer

variable [DecidableEq V]

theorem Best.init : Best (Control.init T) := by
  intro u v i _ _ hproc
  simp [Control.init] at hproc

theorem StpCase.route_le {n : ℕ} {node : Node n} {i : Fin n} {p : StpPayload} {o : Outcome n}
    (hc : StpCase node i p o) : o.node.route ≤ node.route := by
  cases hc with
  | echo _ => exact le_rfl
  | firstContact _ _ => exact le_rfl
  | adopt hlt _ => exact hlt.le
  | ignore _ _ => exact le_rfl

theorem StpCase.route_le_offer {n : ℕ} {node : Node n} {i : Fin n} {p : StpPayload}
    {o : Outcome n} (hc : StpCase node i p o) (hrec : node.neighborsAddy i ≠ -1) :
    o.node.route ≤ p.offer := by
  cases hc with
  | echo heq => exact heq.ge
  | firstContact _ hfirst => exact absurd hfirst hrec
  | adopt _ _ => exact le_rfl
  | ignore hlt _ => exact hlt.le

theorem Best.receive {c : Control T} (h : Best c) (hi : CalmInv c) {w : V}
    {k : Fin (T.deg w)} {p : StpPayload} {rest : List StpPayload} {o : Outcome (T.deg w)}
    (hq : c.queue (T.peer w k) w = p :: rest) (hc : StpCase (c.node w) k p o) :
    Best ((c.take w k rest).commit w o) := by
  intro u v i hu hquiet hproc
  have hvu : T.graph.Adj v u := ⟨i, hu⟩
  by_cases hwv : w = v
  · subst hwv
    rw [receive_advert_ne hvu.ne', commit_node_self]
    by_cases hki : k = i
    · subst hki
      subst hu
      rw [commit_processed, take_processed_self] at hproc
      rw [← receive_final hi.links hq hquiet]
      exact hc.route_le_offer (hi.recorded w k (by omega))
    · obtain ⟨hq0, hproc0⟩ := receive_other_port hu hki hquiet hproc
      exact hc.route_le.trans (h u w i hu hq0 hproc0)
  · -- the sender of a quiet link has kept silent, so it still offers what it did
    obtain ⟨hq0, hadv, hsame, hv⟩ := receive_elsewhere hc hu hwv (hi.routes.live u v) hquiet
    rw [hsame] at hproc
    rw [hadv, hv]
    exact h u v i hu hq0 hproc

theorem Best.hello {c : Control T} (h : Best c) (hi : CalmInv c) (w : V) :
    Best (c.commit w (rootHello (c.node w))) := by
  intro u v i hu hquiet hproc
  have hvu : T.graph.Adj v u := ⟨i, hu⟩
  by_cases hwu : w = u
  · subst hwu
    obtain ⟨j, _⟩ := hvu.symm
    exact absurd (quiet_of_commit hvu.symm (hi.routes.live w v) hquiet).2 (sendStp_ne_nil _ j)
  · rw [commit_queue_ne _ _ _ (Ne.symm hwu)] at hquiet
    rw [Control.advert, commit_node_same c w _ rfl, commit_node_same c w _ rfl]
    exact h u v i hu hquiet hproc

theorem Best.step {c c' : Control T} {e : Event T} (h : Best c) (hi : CalmInv c)
    (hcalm : e.Calm) (hs : ControlStep c e c') : Best c' := by
  cases hs with
  | receive w k p rest o hq hc => exact h.receive hi hq hc
  | hello w hroot => exact h.hello hi w
  | reelect w hroot => exact absurd hcalm id
  | fail a b => exact absurd hcalm id

/-- No STP packet is in flight over a live link and every live port has processed two. -/
structure Control.Quiet (c : Control T) : Prop where
  empty : ∀ u v, c.queue u v = []
  twice : ∀ v i, c.live v (T.peer v i) = true → 2 ≤ c.processed v i

omit [DecidableEq V] in
theorem labels_offer {c : Control T} (hmy : ∀ v, (c.node v).myAddr = T.addr v) {u : V}
    (hlen : (c.node u).pathLen < 2^16) : (c.advert u).offer = c.labels.offer T.rank u :=
  offer_advert c hmy u hlen

omit [DecidableEq V] in
theorem child_of_best {c : Control T} {v u : V} (hnext : (c.node v).nextHop = T.addr u)
    (hle : toLex ((c.node u).rootAddr.toNat, (c.node u).pathLen + 1) ≤ (c.node v).pair)
    (hbest : c.labels.label v ≤ c.labels.offer T.rank u) : c.labels.Child T.rank v u := by
  rw [StableTree.Labels.label_le_offer] at hbest
  rw [Node.pair, Prod.Lex.toLex_le_toLex] at hle
  simp only [Control.labels] at hbest hle
  refine ⟨?_, ?_, congrArg UInt16.toNat hnext⟩
  · simp only [Control.labels]
    omega
  · simp only [Control.labels]
    omega

omit [DecidableEq V] in
theorem stable_of_calm [Fintype V] {c : Control T} (h : CalmInv c) (hb : Best c)
    (hquiet : c.Quiet) : StableTree.Stable T.graph T.rank c.labels := by
  have hbest : ∀ v u, T.graph.Adj v u → c.labels.label v ≤ c.labels.offer T.rank u := by
    intro v u hadj
    obtain ⟨i, hi⟩ := hadj
    rw [← labels_offer h.links.myAddr (h.routes.chain u).narrow]
    exact hb u v i hi (hquiet.empty u v) (hquiet.twice v i (h.routes.live _ _))
  refine ⟨fun v => ?_, hbest⟩
  have hmy := h.links.myAddr v
  obtain hself | hparent := (h.links.node v).shape
  · rw [Node.SelfRooted, hmy] at hself
    exact Or.inl ⟨congrArg UInt16.toNat hself.1, hself.2.1, congrArg UInt16.toNat hself.2.2⟩
  · have hlt := UInt16.lt_iff_toNat_lt.mp hparent.1
    rw [hmy] at hlt
    obtain ⟨u, hadj, hnext, hle⟩ := h.routes.parent v (fun he => by rw [he] at hlt; omega)
    exact Or.inr ⟨hlt, u, hadj, child_of_best hnext hle (hbest v u hadj)⟩

/-- The minimum-address spanning tree rooted at `r`, as the nodes of the network hold it. -/
structure Net.HoldsTree (s : Net T) (r : V) : Prop where
  min : ∀ v, T.addr r ≤ T.addr v
  root : ∀ v, (s.node v).rootAddr = T.addr r
  len : ∀ v, (s.node v).pathLen = T.graph.dist v r
  top : (s.node r).nextHop = T.addr r
  next : ∀ v, v ≠ r → ∃ u, T.graph.Adj v u ∧ (s.node v).nextHop = T.addr u ∧
    T.graph.dist u r + 1 = T.graph.dist v r ∧
    ∀ w, T.graph.Adj v w → T.graph.dist w r + 1 = T.graph.dist v r → T.addr u ≤ T.addr w

omit [DecidableEq V] in
theorem holdsTree_of_stable {s : Net T} (hconn : T.graph.Connected)
    (h : StableTree.Stable T.graph T.rank s.control.labels) : ∃ r, s.HoldsTree r := by
  obtain ⟨v₀⟩ := hconn.nonempty
  obtain ⟨r, htop, _, _, _, _⟩ := h.top v₀
  have hroot : ∀ v, s.control.labels.root v = T.rank r := by
    intro v
    rw [h.root_walk (hconn v r).some, htop.root]
  refine ⟨r, fun v => ?_, fun v => UInt16.toNat_inj.mp (hroot v), fun v => ?_,
    UInt16.toNat_inj.mp htop.next, fun v hv => ?_⟩
  · have hmin := h.root_min (hconn r v)
    rw [hroot r] at hmin
    exact UInt16.le_iff_toNat_le.mpr hmin
  · exact h.len_eq_dist (rank_injective T) (hroot v)
  · obtain ⟨u, hadj, hnext, hdist, hleast⟩ := h.next_least (rank_injective T) (hroot v) hv
    refine ⟨u, hadj, UInt16.toNat_inj.mp hnext, hdist, fun w hw hclose => ?_⟩
    exact UInt16.le_iff_toNat_le.mpr (hleast w hw hclose)

theorem calmBest_reach [Fintype V] {s : Net T}
    (h : Net.Reach (fun _ e => e.Calm) (Net.init T) s) : CalmInv s.control ∧ Best s.control := by
  refine control_invariant (P := fun c => CalmInv c ∧ Best c) (A := fun _ e => e.Calm) h ?_ ?_
  · rw [control_init]
    exact ⟨CalmInv.init, Best.init⟩
  · intro c c' e hc hcalm hstep
    exact ⟨hc.1.step hcalm hstep, hc.2.step hc.1 hcalm hstep⟩

/-- Whenever a calm run goes quiet after two packets on every port, the network holds the
minimum-address spanning tree. -/
theorem quiescent_tree [Fintype V] (T : Topology V) (hconn : T.graph.Connected) (s : Net T)
    (h : Net.Reach (fun _ e => e.Calm) (Net.init T) s) (hempty : ∀ u v, s.stps u v = [])
    (htwice : ∀ v i, 2 ≤ s.processed v i) : ∃ r, s.HoldsTree r := by
  obtain ⟨hinv, hbest⟩ := calmBest_reach h
  exact holdsTree_of_stable hconn (stable_of_calm hinv hbest ⟨hempty, fun v i _ => htwice v i⟩)

theorem twoNodes_connected : twoNodes.graph.Connected := by
  have hadj : twoNodes.graph.Adj 0 1 := ⟨0, rfl⟩
  refine ⟨fun u v => ?_⟩
  fin_cases u <;> fin_cases v
  · exact .refl _
  · exact hadj.reachable
  · exact hadj.symm.reachable
  · exact .refl _

/-- Two nodes exchange their first packets and one hello each way. -/
theorem quiescent_tree_two : ∃ s : Net twoNodes,
    Runs.run Net.step [.deliver 1 0, .deliver 0 0, .hello 0, .deliver 1 0, .deliver 0 0]
      (Net.init twoNodes) = some s ∧ ∃ r, s.HoldsTree r := by
  have hrun : ∃ s, Runs.run Net.step
      [.deliver 1 0, .deliver 0 0, .hello 0, .deliver 1 0, .deliver 0 0]
      (Net.init twoNodes) = some s ∧ (∀ u v, s.stps u v = []) ∧ ∀ v i, 2 ≤ s.processed v i := by
    refine ⟨_, rfl, ?_, ?_⟩ <;> decide +kernel
  obtain ⟨s, hs, hempty, htwice⟩ := hrun
  refine ⟨s, hs, quiescent_tree twoNodes twoNodes_connected s (Runs.reach_of_run ?_ hs) hempty
    htwice⟩
  simp [Event.Calm]

end Mixnet
