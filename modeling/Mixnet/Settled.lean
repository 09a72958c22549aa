import Mixnet.SpanningTree

/-! Settled states: the labels are stable over the live links, and every packet in flight says
what its sender holds. Deliveries and hellos keep a network settled and its routes fixed; a
packet of the parent is echoed, any other packet only sets the flag of its port. -/
namespace Mixnet
variable {V : Type*} {T : Topology V}

def Control.liveGraph (c : Control T) : SimpleGraph V where
  Adj u v := T.graph.Adj u v ∧ c.live u v = true ∧ c.live v u = true
  symm := ⟨fun _ _ h => ⟨h.1.symm, h.2.2, h.2.1⟩⟩
  loopless := ⟨fun _ h => h.1.ne rfl⟩

structure Settled (c : Control T) : Prop extends PortInv c where
  stable : StableTree.Stable c.liveGraph T.rank c.labels
  narrow : ∀ v, (c.node v).pathLen < 2^16
  twice : ∀ v i, c.live v (T.peer v i) = true → 2 ≤ c.processed v i
  current : ∀ u v, ∀ p ∈ c.queue u v, p = c.advert u

theorem PortInv.liveGraph_adj {c : Control T} (h : PortInv c) {u v : V} :
    c.liveGraph.Adj u v ↔ T.graph.Adj u v ∧ c.live u v = true := by
  refine ⟨fun hadj => ⟨hadj.1, hadj.2.1⟩, fun hadj => ⟨hadj.1, hadj.2, ?_⟩⟩
  rw [← h.links.symm u v]
  exact hadj.2

theorem narrow_of_stable [Fintype V] {c : Control T}
    (h : StableTree.Stable c.liveGraph T.rank c.labels) (v : V) : (c.node v).pathLen < 2^16 := by
  obtain ⟨r, _, _, hreach, _, hlen⟩ := h.top v
  obtain ⟨p, hp, hdist⟩ := hreach.exists_path_of_dist
  have hlt := hp.length_lt
  have hcard := T.card_le
  rw [hdist, ← hlen] at hlt
  change (c.node v).pathLen < _ at hlt
  omega

theorem settled_of_stable [Fintype V] {c : Control T} (h : PortInv c)
    (hs : StableTree.Stable c.liveGraph T.rank c.labels) (hq : c.Quiet) : Settled c where
  toPortInv := h
  stable := hs
  narrow := narrow_of_stable hs
  twice := hq.twice
  current := by
    intro u v p hp
    simp [hq.empty u v] at hp

theorem Settled.offer_eq {c : Control T} (h : Settled c) {u v : V} {p : StpPayload}
    (hp : p ∈ c.queue u v) : p.offer = c.labels.offer T.rank u := by
  rw [h.current u v p hp]
  exact labels_offer h.links.myAddr (h.narrow u)

theorem child_iff_offer {c : Control T} {v u : V} :
    c.labels.Child T.rank v u ↔ c.labels.label v = c.labels.offer T.rank u := by
  rw [StableTree.Labels.label, StableTree.Labels.offer]
  simp only [EmbeddingLike.apply_eq_iff_eq, Prod.mk.injEq]
  exact ⟨fun hc => ⟨hc.root, hc.len, hc.next⟩, fun hc => ⟨hc.1, hc.2.1, hc.2.2⟩⟩

variable [DecidableEq V]

omit [DecidableEq V] in
theorem Settled.receive {c : Control T} (h : Settled c) {v : V} {i : Fin (T.deg v)}
    {p : StpPayload} {rest : List StpPayload} {o : Outcome (T.deg v)}
    (hq : c.queue (T.peer v i) v = p :: rest) (hc : StpCase (c.node v) i p o) :
    c.labels.Child T.rank v (T.peer v i) ∧ o = ⟨c.node v, sendStp (c.node v), true⟩ ∨
      ¬ c.labels.Child T.rank v (T.peer v i) ∧
        o = ⟨(c.node v).setBlocked i ((c.node v).blocks p), [], false⟩ := by
  have hmem : p ∈ c.queue (T.peer v i) v := by simp [hq]
  obtain ⟨hadj, hlive⟩ := h.links.link _ _ (List.ne_nil_of_mem hmem)
  have hladj : c.liveGraph.Adj v (T.peer v i) := (h.liveGraph_adj.mpr ⟨hadj, hlive⟩).symm
  have hbest : (c.node v).route ≤ p.offer := by
    rw [h.offer_eq hmem]
    exact h.stable.best v _ hladj
  have htwo := h.twice v i hladj.2.1
  have hrec := h.recorded v i (by omega)
  have hchild : c.labels.Child T.rank v (T.peer v i) ↔ (c.node v).route = p.offer := by
    rw [child_iff_offer, h.offer_eq hmem]
    rfl
  rw [hchild]
  cases hc with
  | echo heq => exact Or.inl ⟨heq.symm, rfl⟩
  | firstContact _ hfirst => exact absurd hfirst hrec
  | adopt hlt _ => exact absurd hlt (not_lt.mpr hbest)
  | ignore hlt _ => exact Or.inr ⟨hlt.ne, rfl⟩

omit [DecidableEq V] in
theorem labels_eq {c c' : Control T} (h : ∀ v, (c'.node v).route = (c.node v).route) :
    c'.labels = c.labels := by
  have hroute := fun v => route_eq_iff.mp (h v)
  simp only [Control.labels, StableTree.Labels.mk.injEq]
  refine ⟨funext fun v => ?_, funext fun v => (hroute v).2.1, funext fun v => ?_⟩
  · rw [(hroute v).1]
  · rw [(hroute v).2.2]

theorem commit_route {c : Control T} {v : V} {o : Outcome (T.deg v)}
    (h : o.node.route = (c.node v).route) (w : V) :
    ((c.commit v o).node w).route = (c.node w).route :=
  commit_forall c v o (P := fun w node => node.route = (c.node w).route) h (fun _ => rfl) w

omit [DecidableEq V] in
theorem advert_eq {c c' : Control T} {v : V} (hr : (c'.node v).route = (c.node v).route)
    (hm : (c'.node v).myAddr = (c.node v).myAddr) : c'.advert v = c.advert v := by
  obtain ⟨hroot, hlen, _⟩ := route_eq_iff.mp hr
  rw [Control.advert, Control.advert, advert_congr hroot hlen hm]

omit [DecidableEq V] in
theorem liveGraph_congr {c c' : Control T} (h : c'.live = c.live) : c'.liveGraph = c.liveGraph := by
  ext u v
  simp only [Control.liveGraph, h]

theorem Settled.step {c c' : Control T} {e : Event T} (h : Settled c) (hcalm : e.Calm)
    (hs : ControlStep c e c') :
    Settled c' ∧ c'.live = c.live ∧ ∀ v, (c'.node v).route = (c.node v).route := by
  have hport := h.toPortInv.step hs
  have heffect : c'.live = c.live ∧ (∀ v, (c'.node v).route = (c.node v).route) ∧
      (∀ v i, c.processed v i ≤ c'.processed v i) ∧
      ∀ u v, ∀ p ∈ c'.queue u v, p ∈ c.queue u v ∨ p = c'.advert u := by
    cases hs with
    | receive w k p rest o hq hc =>
      have hsame : o.node.route = (c.node w).route := by
        obtain ⟨_, ho⟩ | ⟨_, ho⟩ := h.receive hq hc
        · rw [ho]
        · rw [ho, setBlocked_route]
      refine ⟨rfl, commit_route (c := c.take w k rest) hsame, take_processed_le c w k rest, ?_⟩
      intro u v q hmem
      obtain hold | ⟨rfl, rfl⟩ := mem_commit_queue hmem
      · exact Or.inl (mem_take_queue hq hold)
      · right
        rw [Control.advert, commit_node_self]
    | hello w hroot =>
      refine ⟨rfl, commit_route rfl, fun v i => le_rfl, fun u v q hmem => ?_⟩
      obtain hold | ⟨rfl, rfl⟩ := mem_commit_queue hmem
      · exact Or.inl hold
      · right
        rw [Control.advert, commit_node_self]
    | reelect w hroot => exact absurd hcalm id
    | fail a b => exact absurd hcalm id
  obtain ⟨hlive, hroute, hproc, hqueue⟩ := heffect
  have hlen : ∀ v, (c'.node v).pathLen = (c.node v).pathLen :=
    fun v => (route_eq_iff.mp (hroute v)).2.1
  refine ⟨⟨hport, ?_, fun v => ?_, fun v i hl => ?_, fun u v p hp => ?_⟩, hlive, hroute⟩
  · rw [liveGraph_congr hlive, labels_eq hroute]
    exact h.stable
  · rw [hlen]
    exact h.narrow v
  · rw [hlive] at hl
    exact (h.twice v i hl).trans (hproc v i)
  · obtain hold | hnew := hqueue u v p hp
    · have hmy : (c'.node u).myAddr = (c.node u).myAddr := by
        rw [hport.links.myAddr u, h.links.myAddr u]
      rw [advert_eq (hroute u) hmy]
      exact h.current u v p hold
    · exact hnew

end Mixnet
