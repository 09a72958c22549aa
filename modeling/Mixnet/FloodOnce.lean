import Mixnet.Flooding
import Mixnet.Settled

/-! In a settled network both ends of every tree edge are open and every other live link has a
blocked end, so a FLOOD runs over the tree and reaches every user once. -/
namespace Mixnet
variable {V : Type*} {T : Topology V}

def Control.treeGraph (c : Control T) : SimpleGraph V := c.labels.tree T.rank c.liveGraph

/-- The port of `v` to `u` belongs to no tree edge and `u` is not one hop further away. -/
structure Control.Shut (c : Control T) (v u : V) : Prop where
  adj : c.liveGraph.Adj v u
  no_edge : ¬ c.treeGraph.Adj v u
  level : c.labels.len u ≠ c.labels.len v + 1

structure Flags (c : Control T) : Prop where
  opened : ∀ v i, c.treeGraph.Adj v (T.peer v i) → (c.node v).neighborsBlocked i = false
  shut : ∀ v i, c.Shut v (T.peer v i) → (c.node v).neighborsBlocked i = true

theorem Settled.next_ne {c : Control T} (h : Settled c) {v u : V} (hs : c.Shut v u) :
    (c.node v).nextHop ≠ T.addr u := by
  intro hnext
  have hrank : c.labels.next v = T.rank u := congrArg UInt16.toNat hnext
  obtain htop | ⟨_, w, hadj, hchild⟩ := h.stable.sound v
  · exact hs.adj.ne (rank_injective T (htop.next.symm.trans hrank))
  · have hwu : w = u := rank_injective T (hchild.next.symm.trans hrank)
    rw [hwu] at hadj hchild
    exact hs.no_edge ⟨hadj, Or.inl hchild⟩

theorem Settled.root_ne {c : Control T} (h : Settled c) {v u : V} (hs : c.Shut v u) :
    (c.node v).rootAddr ≠ (c.node v).myAddr := by
  intro hroot
  rw [h.links.myAddr v] at hroot
  have hrank : c.labels.root v = T.rank v := congrArg UInt16.toNat hroot
  have hle := h.stable.len_adj hs.adj.symm
  have hlevel := hs.level
  obtain htop | ⟨hlt, _⟩ := h.stable.sound v
  · have hlen := htop.len
    obtain htop' | ⟨_, w, _, hchild⟩ := h.stable.sound u
    · have hsame := h.stable.root_adj hs.adj
      rw [htop.root, htop'.root] at hsame
      exact hs.adj.ne (rank_injective T hsame)
    · have hlen' := hchild.len
      omega
  · exact absurd hrank hlt.ne

theorem childOf_of_labels {c : Control T} {v u : V} (h : c.labels.Child T.rank v u)
    (hn : (c.node v).pathLen < 2^16) : c.ChildOf v u :=
  ⟨UInt16.toNat_inj.mp h.root, h.len, UInt16.toNat_inj.mp h.next, hn⟩

theorem flags_of_quiet {c : Control T} (h : Settled c) (hq : c.Quiet) : Flags c where
  opened := by
    intro v i hedge
    obtain ⟨hadj, hchild | hchild⟩ := hedge
    · -- the neighbour is the parent, whose port is open in every state of a node
      have hlen := hchild.len
      obtain hself | ⟨_, _, j, hj, _, hopen⟩ := (h.links.node v).shape
      · have hzero : c.labels.len v = 0 := hself.2.1
        omega
      · have hnext := UInt16.toNat_inj.mp hchild.next
        have hji : j = i := T.peer_injective v (T.addr_injective (hj.symm.trans hnext))
        rw [← hji]
        exact hopen
    · -- the neighbour is a child and has answered
      obtain ⟨j, hj⟩ := T.peer_symm v i
      have hproc := h.twice (T.peer v i) j (by rw [hj]; exact hadj.2.2)
      have hanswer := h.replies v (T.peer v i) j hj hadj.2.1 (hq.empty _ _) hproc
        (childOf_of_labels hchild (h.narrow _))
      obtain hbusy | hopen := hanswer
      · exact absurd (hq.empty _ _) hbusy
      · exact hopen i rfl
  shut := by
    intro v i hs
    have hproc := h.twice v i hs.adj.2.1
    refine h.closed (T.peer v i) v i rfl hs.adj.2.2 (hq.empty _ _) hproc (h.next_ne hs)
      (h.root_ne hs) ?_
    intro hdown
    have hpath := advert_path c (T.peer v i) (h.narrow _)
    exact hs.level (hpath.symm.trans hdown.2)

theorem treeGraph_congr {c c' : Control T} (hl : c'.labels = c.labels)
    (hg : c'.liveGraph = c.liveGraph) : c'.treeGraph = c.treeGraph := by
  rw [Control.treeGraph, hl, hg]
  rfl

theorem shut_congr {c c' : Control T} (hl : c'.labels = c.labels)
    (hg : c'.liveGraph = c.liveGraph) : c'.Shut = c.Shut := by
  have htree := treeGraph_congr hl hg
  funext v u
  apply propext
  constructor
  · intro h
    exact ⟨hg ▸ h.adj, htree ▸ h.no_edge, hl ▸ h.level⟩
  · intro h
    exact ⟨hg ▸ h.adj, htree ▸ h.no_edge, hl ▸ h.level⟩

theorem Settled.blocks {c : Control T} (h : Settled c) {v : V} {i : Fin (T.deg v)}
    {p : StpPayload} (hp : p ∈ c.queue (T.peer v i) v)
    (hnot : ¬ c.labels.Child T.rank v (T.peer v i)) :
    (c.treeGraph.Adj v (T.peer v i) → (c.node v).blocks p = false) ∧
      (c.Shut v (T.peer v i) → (c.node v).blocks p = true) := by
  have hadv : p = c.advert (T.peer v i) := h.current _ _ p hp
  have hpath : p.pathLength.toNat = (c.node (T.peer v i)).pathLen := by
    rw [hadv]
    exact advert_path c (T.peer v i) (h.narrow _)
  refine ⟨fun hedge => ?_, fun hvu => ?_⟩
  · obtain ⟨_, hchild | hchild⟩ := hedge
    · exact absurd hchild hnot
    · apply Node.blocks_down
      · rw [hadv]
        exact UInt16.toNat_inj.mp hchild.root
      · rw [hpath]
        exact hchild.len
  · apply Node.blocks_other
    · intro he
      apply h.next_ne hvu
      rw [← he, hadv]
      exact h.links.myAddr _
    · intro hdown
      exact hvu.level (hpath.symm.trans hdown.2)

def Control.Flagged (c : Control T) (v : V) (node : Node (T.deg v)) : Prop :=
  ∀ i, (c.treeGraph.Adj v (T.peer v i) → node.neighborsBlocked i = false) ∧
    (c.Shut v (T.peer v i) → node.neighborsBlocked i = true)

theorem flags_iff {c : Control T} : Flags c ↔ ∀ v, c.Flagged v (c.node v) :=
  ⟨fun h v i => ⟨h.opened v i, h.shut v i⟩, fun h => ⟨fun v i => (h v i).1, fun v i => (h v i).2⟩⟩

theorem flagged_congr {c c' : Control T} (hl : c'.labels = c.labels)
    (hg : c'.liveGraph = c.liveGraph) : c'.Flagged = c.Flagged := by
  funext v node
  rw [Control.Flagged, Control.Flagged, treeGraph_congr hl hg, shut_congr hl hg]

theorem Flags.receive {c : Control T} (hf : Flags c) (h : Settled c) {w : V}
    {k : Fin (T.deg w)} {p : StpPayload} {rest : List StpPayload} {o : Outcome (T.deg w)}
    (hq : c.queue (T.peer w k) w = p :: rest) (hc : StpCase (c.node w) k p o) :
    c.Flagged w o.node := by
  intro i
  obtain ⟨_, ho⟩ | ⟨hnot, ho⟩ := h.receive hq hc
  · rw [ho]
    exact flags_iff.mp hf w i
  · rw [ho]
    by_cases hik : i = k
    · subst hik
      simpa [Node.setBlocked] using h.blocks (by simp [hq]) hnot
    · simp only [Node.setBlocked, Function.update_of_ne hik]
      exact flags_iff.mp hf w i

variable [DecidableEq V]

theorem Settled.step_labels {c c' : Control T} {e : Event T} (h : Settled c) (hcalm : e.Calm)
    (hs : ControlStep c e c') : c'.labels = c.labels ∧ c'.liveGraph = c.liveGraph := by
  obtain ⟨_, hlive, hroute⟩ := h.step hcalm hs
  exact ⟨labels_eq hroute, liveGraph_congr hlive⟩

theorem Flags.step {c c' : Control T} {e : Event T} (hf : Flags c) (h : Settled c)
    (hcalm : e.Calm) (hs : ControlStep c e c') : Flags c' := by
  obtain ⟨hlabels, hgraph⟩ := h.step_labels hcalm hs
  rw [flags_iff, flagged_congr hlabels hgraph]
  have hold := flags_iff.mp hf
  cases hs with
  | receive w k p rest o hq hc =>
    exact commit_forall (c.take w k rest) w o (hf.receive h hq hc) hold
  | hello w hroot => exact commit_forall c w _ (hold w) hold
  | reelect w hroot => exact absurd hcalm id
  | fail a b => exact absurd hcalm id

omit [DecidableEq V] in
theorem fence_of_flags {s : Net T} (hl : PortInv s.control) (hf : Flags s.control) :
    Fence s.control.treeGraph s.control.Shut True s where
  blocked := fun v j hB => hf.shut v j hB
  cover := by
    intro u v hadj hlive
    have hladj := hl.liveGraph_adj.mpr ⟨hadj, hlive⟩
    by_cases hedge : s.control.treeGraph.Adj u v
    · exact Or.inl hedge
    · by_cases hlevel : s.control.labels.len v = s.control.labels.len u + 1
      · refine Or.inr (Or.inr ⟨hladj.symm, fun h => hedge h.symm, ?_⟩)
        omega
      · exact Or.inr (Or.inl ⟨hladj, hedge, hlevel⟩)
  opened := by
    intro _ u v hedge
    obtain ⟨j, rfl⟩ := hedge.1.1
    exact ⟨hedge.1.2.1, j, rfl, hf.opened u j hedge⟩

/-- A settled state, over the live links. -/
structure Net.IsSettled (s : Net T) : Prop where
  quiet : ∀ u v, s.live u v = true → s.stps u v = []
  twice : ∀ v i, s.live v (T.peer v i) = true → 2 ≤ s.processed v i
  parent : ∀ v, (s.node v).rootAddr ≠ (s.node v).myAddr → ∃ u, T.graph.Adj v u ∧
    s.live v u = true ∧ (s.node v).nextHop = T.addr u ∧
    (s.node u).rootAddr = (s.node v).rootAddr ∧ (s.node u).pathLen + 1 = (s.node v).pathLen
  best : ∀ v u, T.graph.Adj v u → s.live v u = true →
    ¬ (toLex ((s.node u).rootAddr.toNat, toLex ((s.node u).pathLen + 1, (T.addr u).toNat)) :
      Route) < (s.node v).route

omit [DecidableEq V] in
theorem Net.IsSettled.stable {s : Net T} (h : s.IsSettled) (hl : PortInv s.control) :
    StableTree.Stable s.control.liveGraph T.rank s.control.labels := by
  refine ⟨fun v => ?_, fun v u hadj => ?_⟩
  · have hmy := hl.links.myAddr v
    obtain hself | hparent := (hl.links.node v).shape
    · rw [Node.SelfRooted, hmy] at hself
      exact Or.inl ⟨congrArg UInt16.toNat hself.1, hself.2.1, congrArg UInt16.toNat hself.2.2⟩
    · have hlt := UInt16.lt_iff_toNat_lt.mp hparent.1
      have hne : (s.node v).rootAddr ≠ (s.node v).myAddr :=
        fun he => (Nat.ne_of_lt hlt) (congrArg UInt16.toNat he)
      obtain ⟨u, hadj, hlive, hnext, hroot, hlen⟩ := h.parent v hne
      rw [hmy] at hlt
      refine Or.inr ⟨hlt, u, hl.liveGraph_adj.mpr ⟨hadj, hlive⟩, ?_, hlen.symm,
        congrArg UInt16.toNat hnext⟩
      exact congrArg UInt16.toNat hroot.symm
  · exact not_lt.mp (h.best v u hadj.1 hadj.2.1)

omit [DecidableEq V] in
theorem Net.IsSettled.control_quiet {s : Net T} (h : s.IsSettled) (hl : PortInv s.control) :
    s.control.Quiet := by
  refine ⟨fun u v => ?_, h.twice⟩
  by_contra hne
  exact hne (h.quiet u v (hl.links.link u v hne).2)

theorem fence_of_calm {s t : Net T} (hset : Settled s.control) (hflags : Flags s.control)
    (hrun : Net.Reach (fun _ e => e.Calm) s t) :
    Fence s.control.treeGraph s.control.Shut True t := by
  have hinv : (Settled t.control ∧ Flags t.control) ∧
      t.control.labels = s.control.labels ∧ t.control.liveGraph = s.control.liveGraph := by
    refine control_invariant (A := fun _ e => e.Calm)
      (P := fun c => (Settled c ∧ Flags c) ∧ c.labels = s.control.labels ∧
        c.liveGraph = s.control.liveGraph) hrun ⟨⟨hset, hflags⟩, rfl, rfl⟩ ?_
    rintro c c' e ⟨⟨hc, hfc⟩, hlabels, hgraph⟩ hcalm hstep
    obtain ⟨hlabels', hgraph'⟩ := hc.step_labels hcalm hstep
    exact ⟨⟨(hc.step hcalm hstep).1, hfc.step hc hcalm hstep⟩, hlabels'.trans hlabels,
      hgraph'.trans hgraph⟩
  have hfence := fence_of_flags hinv.1.1.toPortInv hinv.1.2
  rw [treeGraph_congr hinv.2.1 hinv.2.2, shut_congr hinv.2.1 hinv.2.2] at hfence
  exact hfence

/-- From a settled state, in any run of deliveries, hellos and injections: once no FLOOD is in
flight, every FLOOD injected in the run has been given exactly once to the user of every node
that live links join to the injecting node, and to no other user. -/
theorem flood_exactly_once [Fintype V] (T : Topology V) (s t : Net T)
    (hreach : Net.Reach (fun _ _ => True) (Net.init T) s) (hsettled : s.IsSettled)
    (hrun : Net.Reach (fun _ e => e.Calm) s t) (hdone : ∀ φ u v, t.copies φ u v = 0)
    (φ : ℕ) (hφ : s.origins.length ≤ φ) (a : V) (ha : t.origins[φ]? = some a) (v : V) :
    (v ≠ a → s.control.liveGraph.Reachable a v → (t.userLog v).count φ = 1) ∧
      (v = a ∨ ¬ s.control.liveGraph.Reachable a v → (t.userLog v).count φ = 0) := by
  have hport : PortInv s.control :=
    portInv_reach (A := fun _ _ => True) hreach (control_init T ▸ PortInv.init)
  have hstable := hsettled.stable hport
  have hquiet := hsettled.control_quiet hport
  have hset : Settled s.control := settled_of_stable hport hstable hquiet
  have hphase := Runs.Reach.guard hrun fun u hu =>
    fence_of_calm hset (flags_of_quiet hset hquiet) hu
  have hfresh : Fresh s := fresh_reach hreach Fresh.init
  have hacyclic : s.control.treeGraph.IsAcyclic := StableTree.tree_acyclic (rank_injective T)
  have hinv := flood_reach hacyclic hfresh hphase φ a hφ ha
  have hseen : (t.flood φ).seen v = (t.userLog v).count φ + if v = a then 1 else 0 := by
    simp [Net.flood, ha, eq_comm]
  refine ⟨fun hne hr => ?_, fun hv => ?_⟩
  · have hone := hinv.tree.seen_eq_one hacyclic trivial (fun x y _ => hdone φ x y)
      (hstable.tree_reachable (rank_injective T) hr)
    rw [hseen, if_neg hne] at hone
    omega
  · by_cases hva : v = a
    · have hone := hinv.tree.origin
      rw [← hva, hseen, if_pos hva] at hone
      omega
    · have hfar : ¬ s.control.treeGraph.Reachable a v := by
        intro hr
        obtain hva' | hno := hv
        · exact hva hva'
        · exact hno (hr.mono StableTree.tree_le)
      have hzero := (hinv.tree.far v hfar).1
      rw [hseen, if_neg hva] at hzero
      omega

/-- Node 3 floods the settled triangle: nodes 1 and 2 hear it once, itself never. -/
theorem flood_exactly_once_triangle : ∃ s t : Net triangle,
    Runs.run Net.step triangleSettles (Net.init triangle) = some s ∧
    Runs.run Net.step [.inject 2 ⟨0, 0, 0⟩, .deliver 0 1, .deliver 1 1] s = some t ∧
    (t.userLog 1).count 0 = 1 ∧ (t.userLog 2).count 0 = 0 := by
  have hrun : ((Runs.run Net.step triangleSettles (Net.init triangle)).any fun s =>
      (Runs.run Net.step [.inject 2 ⟨0, 0, 0⟩, .deliver 0 1, .deliver 1 1] s).any fun t =>
        decide ((∀ u v, s.stps u v = []) ∧ (∀ v i, 2 ≤ s.processed v i) ∧
          (∀ v, (s.node v).rootAddr ≠ (s.node v).myAddr → ∃ u, triangle.graph.Adj v u ∧
            s.live v u = true ∧ (s.node v).nextHop = triangle.addr u ∧
            (s.node u).rootAddr = (s.node v).rootAddr ∧
            (s.node u).pathLen + 1 = (s.node v).pathLen) ∧
          (∀ v u, ¬ (toLex ((s.node u).rootAddr.toNat,
            toLex ((s.node u).pathLen + 1, (triangle.addr u).toNat)) : Route) <
              (s.node v).route) ∧
          (∀ u v, t.chan u v = []) ∧ s.origins.length = 0 ∧ t.origins[0]? = some 2 ∧
          s.live 2 1 = true ∧ s.live 1 2 = true)) = true := by decide +kernel
  obtain ⟨s, hs, hs'⟩ := (Option.any_eq_true _ _).mp hrun
  obtain ⟨t, ht, hall⟩ := (Option.any_eq_true _ _).mp hs'
  obtain ⟨hquiet, htwice, hparent, hbest, hchan, hlen, ha, hl, hl'⟩ := of_decide_eq_true hall
  have hsettled : s.IsSettled :=
    ⟨fun u v _ => hquiet u v, fun v i _ => htwice v i, hparent, fun v u _ _ => hbest v u⟩
  have hfrom : Net.Reach (fun _ _ => True) (Net.init triangle) s :=
    Runs.reach_of_run (by simp) hs
  have hphase : Net.Reach (fun _ e => e.Calm) s t := Runs.reach_of_run (by simp [Event.Calm]) ht
  have hdone : ∀ φ u v, t.copies φ u v = 0 := by
    intro φ u v
    simp [Net.copies, hchan]
  have hadj : s.control.liveGraph.Adj 2 1 := ⟨⟨1, rfl⟩, hl, hl'⟩
  have honce := flood_exactly_once triangle s t hfrom hsettled hphase hdone 0 (by omega) 2 ha
  exact ⟨s, t, hs, ht, (honce 1).1 (by decide) hadj.reachable, (honce 2).2 (Or.inl rfl)⟩

end Mixnet
