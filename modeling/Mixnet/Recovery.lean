import Mixnet.LiveRoutes
import Mixnet.RootWave
import Mixnet.FloodOnce

/-! Recovery. Once no route is left that leads over a failed link, one hello of the lowest node of
every component puts the routes of the component right, whatever failures and re-elections came
before. -/
namespace Mixnet
variable {V : Type*} {T : Topology V}

def Control.Sent (c : Control T) (sent₀ : (v : V) → Fin (T.deg v) → ℕ) (v : V) : Prop :=
  ∀ j, sent₀ v j < c.sentStp v j

/-- Behind a quiet link that has carried a packet since the counts were `base`, the sender has
nothing better to offer, and a receiver that holds what the sender offers has answered. -/
def Heard (base sent₀ : (v : V) → Fin (T.deg v) → ℕ) (c : Control T) : Prop :=
  ∀ u v i, T.peer v i = u → c.live u v = true → c.queue u v = [] → base v i < c.processed v i →
    (c.node v).route ≤ (c.advert u).offer ∧
      ((c.node v).route = (c.advert u).offer → c.Sent sent₀ v)

variable [DecidableEq V] {base sent₀ : (v : V) → Fin (T.deg v) → ℕ} {c c' : Control T}

theorem Control.Sent.commit {v : V} (h : c.Sent sent₀ v) (w : V) (o : Outcome (T.deg w)) :
    (c.commit w o).Sent sent₀ v :=
  fun j => (h j).trans_le (le_commit_sentStp c w o v j)

theorem sent_of_send {w : V} {o : Outcome (T.deg w)} (hle : ∀ j, sent₀ w j ≤ c.sentStp w j)
    (hs : T.deg w ≠ 0 → o.sends ≠ []) : (c.commit w o).Sent sent₀ w := by
  intro j
  rw [commit_sentStp_self, if_pos (hs (Nat.ne_of_gt (Nat.zero_lt_of_lt j.isLt)))]
  exact Nat.lt_succ_of_le (hle j)

theorem StpCase.answers_after {n : ℕ} {node : Node n} {i : Fin n} {p : StpPayload}
    {o : Outcome n} (hc : StpCase node i p o) (hrec : node.neighborsAddy i ≠ -1)
    (heq : o.node.route = p.offer) : o.sends ≠ [] := by
  cases hc with
  | echo _ => exact sendStp_ne_nil _ i
  | firstContact _ hfirst => exact absurd hfirst hrec
  | adopt _ _ => exact sendStp_ne_nil _ i
  | ignore hlt _ => exact absurd heq hlt.ne

theorem Heard.receive_own (h : Heard base sent₀ c) (hp : PortInv c) (hbase : ∀ v i, 1 ≤ base v i)
    (hle : ∀ v j, sent₀ v j ≤ c.sentStp v j) {w u : V} {k i : Fin (T.deg w)} {p : StpPayload}
    {rest : List StpPayload} {o : Outcome (T.deg w)} (hq : c.queue (T.peer w k) w = p :: rest)
    (hc : StpCase (c.node w) k p o) (hu : T.peer w i = u) (hlive : c.live u w = true)
    (hquiet : ((c.take w k rest).commit w o).queue u w = [])
    (hproc : base w i < ((c.take w k rest).commit w o).processed w i) :
    o.node.route ≤ (c.advert u).offer ∧
      (o.node.route = (c.advert u).offer → ((c.take w k rest).commit w o).Sent sent₀ w) := by
  by_cases hki : k = i
  · subst hki
    subst hu
    rw [commit_processed, take_processed_self] at hproc
    have hrec : (c.node w).neighborsAddy k ≠ -1 := by
      have hone := hbase w k
      exact hp.recorded w k (by omega)
    rw [← receive_final hp.links hq hquiet]
    refine ⟨hc.route_le_offer hrec, fun heq => ?_⟩
    exact sent_of_send (c := c.take w k rest) (hle w) fun _ => hc.answers_after hrec heq
  · have hadj : T.graph.Adj w u := ⟨i, hu⟩
    have hpeer : T.peer w k ≠ u := fun hk => hki (T.peer_injective w (hk.trans hu.symm))
    rw [receive_queue_ne hadj.ne' (fun hx => hpeer hx.1.symm)] at hquiet
    rw [commit_processed, take_processed_port _ _ _ _ (Ne.symm hki)] at hproc
    obtain ⟨hold, hsent⟩ := h u w i hu hlive hquiet hproc
    have hdown := hc.route_le
    refine ⟨hdown.trans hold, fun heq => ?_⟩
    have hsame : (c.node w).route = (c.advert u).offer := le_antisymm hold (heq ▸ hdown)
    exact Control.Sent.commit (c := c.take w k rest) (hsent hsame) w o

theorem Heard.receive (h : Heard base sent₀ c) (hp : PortInv c) (hbase : ∀ v i, 1 ≤ base v i)
    (hle : ∀ v j, sent₀ v j ≤ c.sentStp v j) {w : V} {k : Fin (T.deg w)} {p : StpPayload}
    {rest : List StpPayload} {o : Outcome (T.deg w)} (hq : c.queue (T.peer w k) w = p :: rest)
    (hc : StpCase (c.node w) k p o) : Heard base sent₀ ((c.take w k rest).commit w o) := by
  intro u v i hu (hlive : c.live u v = true) hquiet hproc
  have hvu : T.graph.Adj v u := ⟨i, hu⟩
  by_cases hwv : w = v
  · subst hwv
    rw [receive_advert_ne hvu.ne', commit_node_self]
    exact h.receive_own hp hbase hle hq hc hu hlive hquiet hproc
  · obtain ⟨hq0, hadv, hsame, hv⟩ := receive_elsewhere hc hu hwv hlive hquiet
    rw [hsame] at hproc
    rw [hadv, hv]
    obtain ⟨hold, hsent⟩ := h u v i hu hlive hq0 hproc
    exact ⟨hold, fun heq => Control.Sent.commit (c := c.take w k rest) (hsent heq) w o⟩

theorem Heard.hello (h : Heard base sent₀ c) (w : V) :
    Heard base sent₀ (c.commit w (rootHello (c.node w))) := by
  intro u v i hu (hlive : c.live u v = true) hquiet hproc
  have hvu : T.graph.Adj v u := ⟨i, hu⟩
  by_cases hwu : w = u
  · subst hwu
    obtain ⟨j, _⟩ := hvu.symm
    exact absurd (quiet_of_commit hvu.symm hlive hquiet).2 (sendStp_ne_nil _ j)
  · rw [commit_queue_ne _ _ _ (Ne.symm hwu)] at hquiet
    rw [Control.advert, commit_node_same c w _ rfl, commit_node_same c w _ rfl]
    obtain ⟨hold, hsent⟩ := h u v i hu hlive hquiet hproc
    exact ⟨hold, fun heq => (hsent heq).commit w _⟩

/-- What a calm run keeps that starts with the counts `base` and `sent₀` and the links `live`. -/
structure Recovering (base sent₀ : (v : V) → Fin (T.deg v) → ℕ) (live : V → V → Bool)
    (c : Control T) : Prop extends PortInv c where
  routes : LiveRoutes c
  counted : Counted c
  heard : Heard base sent₀ c
  sent_le : ∀ v j, sent₀ v j ≤ c.sentStp v j
  live_eq : c.live = live

theorem Recovering.step [Fintype V] {live : V → V → Bool} (h : Recovering base sent₀ live c)
    (hbase : ∀ v i, 1 ≤ base v i) {e : Event T} (hcalm : e.Calm) (hs : ControlStep c e c') :
    Recovering base sent₀ live c' where
  toPortInv := h.toPortInv.step hs
  routes := h.routes.step h.toPortInv hcalm hs
  counted := h.counted.step hs
  heard := by
    cases hs with
    | receive w k p rest o hq hc => exact h.heard.receive h.toPortInv hbase h.sent_le hq hc
    | hello w hroot => exact h.heard.hello w
    | reelect w hroot => exact absurd hcalm id
    | fail a b => exact absurd hcalm id
  sent_le := by
    intro v j
    cases hs with
    | receive w k p rest o hq hc =>
      exact (h.sent_le v j).trans (le_commit_sentStp (c.take w k rest) w o v j)
    | hello w hroot => exact (h.sent_le v j).trans (le_commit_sentStp c w _ v j)
    | reelect w hroot => exact absurd hcalm id
    | fail a b => exact absurd hcalm id
  live_eq := by
    cases hs with
    | receive w k p rest o hq hc => exact h.live_eq
    | hello w hroot => exact h.live_eq
    | reelect w hroot => exact absurd hcalm id
    | fail a b => exact absurd hcalm id

omit [DecidableEq V] in
/-- What is left to show of a wave: whoever hears it, and holds what it offers, passes it on. -/
theorem LiveRoutes.wave (h : LiveRoutes c) (hp : PortInv c) {sent : V → Prop}
    (hheard : ∀ v u, c.liveGraph.Adj v u → sent u →
      c.labels.label v ≤ c.labels.offer T.rank u ∧
        (c.labels.label v = c.labels.offer T.rank u → sent v))
    (hroots : ∀ r u, c.liveGraph.Adj r u →
      (∀ v, c.liveGraph.Reachable r v → T.rank r ≤ T.rank v) → sent r) :
    StableTree.Wave c.liveGraph T.rank c.labels sent := by
  refine ⟨fun v => ?_, fun v => ?_, fun v u hadj hs => (hheard v u hadj hs).1,
    fun v u hadj hs => (hheard v u hadj hs).2, hroots⟩
  · obtain ⟨w, hreach, hroot, hdist⟩ := (h.node v).near
    exact ⟨w, hreach, hroot.symm, hdist⟩
  · have hmy := hp.links.myAddr v
    obtain hself | hparent := (hp.links.node v).shape
    · rw [Node.SelfRooted, hmy] at hself
      exact Or.inl ⟨congrArg UInt16.toNat hself.1, hself.2.1, congrArg UInt16.toNat hself.2.2⟩
    · have hlt := UInt16.lt_iff_toNat_lt.mp hparent.1
      rw [hmy] at hlt
      obtain ⟨u, hadj, hnext, hle⟩ := h.parent v (fun he => by rw [he] at hlt; omega)
      rw [Node.pair, Prod.Lex.toLex_le_toLex] at hle
      exact Or.inr ⟨hlt, u, hadj, congrArg UInt16.toNat hnext, hle⟩

omit [DecidableEq V] in
theorem Recovering.wave [Fintype V] {live : V → V → Bool} (h : Recovering base sent₀ live c)
    (hstart : ∀ u v i j, T.peer v i = u → T.peer u j = v → live u v = true → base v i ≤ sent₀ u j)
    (hempty : ∀ u v, c.queue u v = [])
    (hroots : ∀ r u, c.liveGraph.Adj r u →
      (∀ v, c.liveGraph.Reachable r v → T.rank r ≤ T.rank v) → c.Sent sent₀ r) :
    StableTree.Wave c.liveGraph T.rank c.labels (c.Sent sent₀) := by
  refine h.routes.wave h.toPortInv (fun v u hadj hsent => ?_) hroots
  obtain ⟨i, hi⟩ := hadj.1
  obtain ⟨j, hj⟩ := hadj.symm.1
  have hbalance := h.counted.balance u v i j hi hj hadj.2.2
  have hlive : live u v = true := h.live_eq ▸ hadj.2.2
  have hle := hstart u v i j hi hj hlive
  have hlt := hsent j
  rw [hempty, List.length_nil] at hbalance
  rw [← labels_offer h.links.myAddr (h.routes.node u).chain.narrow]
  exact h.heard u v i hi hadj.2.2 (hempty u v) (by omega)

/-- A check for live routes: every node's parent still offers what the node holds, and every packet
in flight says what its sender holds. -/
structure Net.Grounded (s : Net T) : Prop where
  parent : ∀ v, (s.node v).rootAddr ≠ (s.node v).myAddr → ∃ u, T.graph.Adj v u ∧
    s.live v u = true ∧ (s.node v).nextHop = T.addr u ∧
    (s.node u).rootAddr = (s.node v).rootAddr ∧ (s.node u).pathLen + 1 = (s.node v).pathLen
  current : ∀ u v, ∀ p ∈ s.stps u v, p = (s.node u).advert.payload

omit [DecidableEq V] in
theorem Net.Grounded.backed {s : Net T} (h : s.Grounded) (hp : PortInv s.control) (n : ℕ) :
    ∀ v, (s.node v).pathLen = n → Backed s.control v (s.node v).rootAddr.toNat n := by
  induction n with
  | zero =>
    intro v hlen
    obtain hself | hparent := (hp.links.node v).shape
    · have hroot : (s.node v).rootAddr = T.addr v := hself.1.trans (hp.links.myAddr v)
      rw [hroot]
      refine Backed.root ?_
      change toLex ((s.node v).rootAddr.toNat, (s.node v).pathLen) ≤ _
      rw [hroot, hlen]
    · have hone : 1 ≤ (s.node v).pathLen := hparent.2.1
      omega
  | succ n ih =>
    intro v hlen
    have hroot : (s.node v).rootAddr ≠ (s.node v).myAddr := by
      intro hroot
      obtain hself | hparent := (hp.links.node v).shape
      · have hzero : (s.node v).pathLen = 0 := hself.2.1
        omega
      · exact (UInt16.ne_of_lt hparent.1) hroot
    obtain ⟨u, hadj, hlive, -, hsame, hshort⟩ := h.parent v hroot
    have hback := ih u (by omega)
    rw [hsame] at hback
    have hpair : (s.control.node v).pair = toLex ((s.node v).rootAddr.toNat, n + 1) := by
      rw [← hlen]
      rfl
    refine hback.cons rfl (hp.liveGraph_adj.mpr ⟨hadj, hlive⟩) ?_ (fun _ => le_rfl) hpair.le
    rw [hpair, Prod.Lex.toLex_lt_toLex]
    exact Or.inr ⟨rfl, n.lt_succ_self⟩

omit [DecidableEq V] in
theorem Net.Grounded.liveRoutes [Fintype V] {s : Net T} (h : s.Grounded)
    (hp : PortInv s.control) : LiveRoutes s.control where
  node := fun v => h.backed hp _ v rfl
  packet := by
    intro u v p hmem
    have hback := h.backed hp _ u rfl
    have hmod : (s.node u).pathLen % 65536 = (s.node u).pathLen :=
      Nat.mod_eq_of_lt hback.chain.narrow
    rw [h.current u v p hmem]
    simpa [Node.advert, initializeStpPacket, hmod] using hback
  parent := by
    intro v hroot
    rw [← hp.links.myAddr v] at hroot
    obtain ⟨u, hadj, hlive, hnext, hsame, hlen⟩ := h.parent v hroot
    refine ⟨u, hp.liveGraph_adj.mpr ⟨hadj, hlive⟩, hnext, le_of_eq ?_⟩
    rw [Node.pair]
    change toLex ((s.node u).rootAddr.toNat, (s.node u).pathLen + 1) = _
    rw [hsame, hlen]
    rfl

omit [DecidableEq V] in
theorem Recovering.start {s : Net T} (hp : PortInv s.control) (hcount : Counted s.control)
    (h : LiveRoutes s.control) :
    Recovering (fun v i => max 1 (s.processed v i)) s.sentStp s.live s.control where
  toPortInv := hp
  routes := h
  counted := hcount
  heard := fun _ _ _ _ _ _ hproc => absurd ((le_max_right _ _).trans_lt hproc) (lt_irrefl _)
  sent_le := fun _ _ => le_rfl
  live_eq := rfl

theorem counted_reach {ok : Net T → Event T → Prop} {s : Net T}
    (h : Net.Reach ok (Net.init T) s) : Counted s.control := by
  refine control_invariant_net (P := Counted) h ?_ fun _ _ _ hc _ _ hstep => hc.step hstep
  rw [control_init]
  exact Counted.init

/-- After any run into a state whose routes are backed by live links: when the STP traffic has died
down and the lowest node of every component has sent a hello, the network is settled. -/
theorem recovering_settles [Fintype V] {s t : Net T}
    (hreach : Net.Reach (fun _ _ => True) (Net.init T) s) (hroutes : LiveRoutes s.control)
    (hrun : Net.Reach (fun _ e => e.Calm) s t) (hquiet : ∀ u v, t.stps u v = [])
    (hroots : ∀ r u, t.control.liveGraph.Adj r u →
      (∀ v, t.control.liveGraph.Reachable r v → T.addr r ≤ T.addr v) →
      ∀ j, s.sentStp r j < t.sentStp r j) :
    PortInv t.control ∧ StableTree.Stable t.control.liveGraph T.rank t.control.labels ∧
      t.control.Quiet := by
  have hport : PortInv s.control :=
    portInv_reach (A := fun _ _ => True) hreach (control_init T ▸ PortInv.init)
  have hcount := counted_reach hreach
  have hrec : Recovering (fun v i => max 1 (s.processed v i)) s.sentStp s.live t.control :=
    control_invariant (A := fun _ e => e.Calm) hrun (.start hport hcount hroutes)
      fun _ _ _ hc hcalm hstep => hc.step (fun _ _ => le_max_left _ _) hcalm hstep
  have hstart : ∀ u v i j, T.peer v i = u → T.peer u j = v → s.live u v = true →
      max 1 (s.processed v i) ≤ s.sentStp u j := by
    intro u v i j hu hv hlive
    have hbalance : s.processed v i + (s.stps u v).length = s.sentStp u j :=
      hcount.balance u v i j hu hv hlive
    exact max_le (hcount.sent u j) (by omega)
  have hwave := hrec.wave hstart hquiet fun r u hadj hleast => hroots r u hadj fun v hv =>
    UInt16.le_iff_toNat_le.mpr (hleast v hv)
  have hstable := hwave.stable (rank_injective T)
  refine ⟨hrec.toPortInv, hstable, hquiet, fun v i hlive => ?_⟩
  obtain ⟨j, hj⟩ := T.peer_symm v i
  have hback : t.control.live (T.peer v i) v = true := (hrec.links.symm _ _).trans hlive
  have hadj : t.control.liveGraph.Adj (T.peer v i) v := ⟨⟨j, hj⟩, hback, hlive⟩
  have hsent := hwave.sent_of_adj (rank_injective T) hadj j
  have hbalance := hrec.counted.balance (T.peer v i) v i j rfl hj hback
  have hone := hcount.sent (T.peer v i) j
  rw [show t.control.queue (T.peer v i) v = [] from hquiet _ _, List.length_nil] at hbalance
  change s.sentStp (T.peer v i) j < _ at hsent
  change 1 ≤ s.sentStp (T.peer v i) j at hone
  omega

omit [DecidableEq V] in
theorem isSettled_of_stable {t : Net T} (hp : PortInv t.control)
    (h : StableTree.Stable t.control.liveGraph T.rank t.control.labels) (hq : t.control.Quiet) :
    t.IsSettled where
  quiet := fun u v _ => hq.empty u v
  twice := hq.twice
  parent := by
    intro v hroot
    obtain htop | ⟨-, u, hadj, hchild⟩ := h.sound v
    · have hself : (t.node v).rootAddr = T.addr v := UInt16.toNat_inj.mp htop.root
      exact absurd (hself.trans (hp.links.myAddr v).symm) hroot
    · exact ⟨u, hadj.1, hadj.2.1, UInt16.toNat_inj.mp hchild.next,
        (UInt16.toNat_inj.mp hchild.root).symm, hchild.len.symm⟩
  best := fun v u hadj hlive => not_lt.mpr (h.best v u (hp.liveGraph_adj.mpr ⟨hadj, hlive⟩))

omit [DecidableEq V] in
theorem label_of_stable [Fintype V] {t : Net T}
    (h : StableTree.Stable t.control.liveGraph T.rank t.control.labels) {v r : V}
    (hr : t.control.liveGraph.Reachable v r)
    (hmin : ∀ w, t.control.liveGraph.Reachable v w → T.addr r ≤ T.addr w) :
    (t.node v).rootAddr = T.addr r ∧ (t.node v).pathLen = t.control.liveGraph.dist v r := by
  obtain ⟨w, -, -, hw, hroot, -⟩ := h.top v
  have hle : T.rank r ≤ T.rank w := UInt16.le_iff_toNat_le.mp (hmin w hw)
  have hge : T.rank w ≤ T.rank r := by
    rw [← hroot]
    exact h.root_min hr
  have hname : t.control.labels.root v = T.rank r := hroot.trans (le_antisymm hge hle)
  exact ⟨UInt16.toNat_inj.mp hname, h.len_eq_dist (rank_injective T) hname⟩

/-- After any failures and re-elections: once every route, held or in flight, is backed by a path of
live links, one advertisement of the lowest node of every component and quiet links settle the
network, and every node then names the lowest node that it can reach and the distance to it. -/
theorem recovery [Fintype V] (T : Topology V) (s t : Net T)
    (hreach : Net.Reach (fun _ _ => True) (Net.init T) s) (hroutes : LiveRoutes s.control)
    (hrun : Net.Reach (fun _ e => e.Calm) s t) (hquiet : ∀ u v, t.stps u v = [])
    (hroots : ∀ r u, t.control.liveGraph.Adj r u →
      (∀ v, t.control.liveGraph.Reachable r v → T.addr r ≤ T.addr v) →
      ∀ j, s.sentStp r j < t.sentStp r j) :
    t.IsSettled ∧ ∀ v r, t.control.liveGraph.Reachable v r →
      (∀ w, t.control.liveGraph.Reachable v w → T.addr r ≤ T.addr w) →
      (t.node v).rootAddr = T.addr r ∧ (t.node v).pathLen = t.control.liveGraph.dist v r := by
  obtain ⟨hport, hstable, hq⟩ := recovering_settles hreach hroutes hrun hquiet hroots
  exact ⟨isSettled_of_stable hport hstable hq, fun v r hr hmin => label_of_stable hstable hr hmin⟩

theorem triangle_fallen_back : ∃ s : Net triangle,
    Runs.run Net.step triangleFallsBack (Net.init triangle) = some s ∧ LiveRoutes s.control ∧
    (s.node 1).rootAddr = 2 ∧ s.live 0 1 = false ∧ s.live 0 2 = true ∧ s.live 2 0 = true ∧
    s.live 1 2 = true ∧ s.live 2 1 = true := by
  have hrun : (Runs.run Net.step triangleFallsBack (Net.init triangle)).any (fun s =>
      decide ((∀ v, (s.node v).rootAddr ≠ (s.node v).myAddr → ∃ u, triangle.graph.Adj v u ∧
          s.live v u = true ∧ (s.node v).nextHop = triangle.addr u ∧
          (s.node u).rootAddr = (s.node v).rootAddr ∧
          (s.node u).pathLen + 1 = (s.node v).pathLen) ∧
        (∀ u v, ∀ p ∈ s.stps u v, p = (s.node u).advert.payload) ∧ (s.node 1).rootAddr = 2 ∧
        s.live 0 1 = false ∧ s.live 0 2 = true ∧ s.live 2 0 = true ∧ s.live 1 2 = true ∧
        s.live 2 1 = true)) = true := by
    decide +kernel
  obtain ⟨s, hs, hall⟩ := (Option.any_eq_true _ _).mp hrun
  obtain ⟨hparent, hcurrent, hrest⟩ := of_decide_eq_true hall
  have hreach : Net.Reach (fun _ _ => True) (Net.init triangle) s := Runs.reach_of_run (by simp) hs
  have hground : s.Grounded := ⟨hparent, hcurrent⟩
  have hport : PortInv s.control :=
    portInv_reach (A := fun _ _ => True) hreach (control_init triangle ▸ PortInv.init)
  exact ⟨s, hs, hground.liveRoutes hport, hrest⟩

theorem triangle_reachable {s : Net triangle} (h02 : s.live 0 2 = true) (h20 : s.live 2 0 = true)
    (h12 : s.live 1 2 = true) (h21 : s.live 2 1 = true) (v : Fin 3) :
    s.control.liveGraph.Reachable v 0 := by
  have hnear : s.control.liveGraph.Adj 2 0 := ⟨⟨0, rfl⟩, h20, h02⟩
  have hfar : s.control.liveGraph.Adj 1 2 := ⟨⟨0, rfl⟩, h12, h21⟩
  fin_cases v
  · exact .refl _
  · exact hfar.reachable.trans hnear.reachable
  · exact hnear.reachable

/-- The next hello of node 1 gives node 2 a route through node 3. -/
theorem recovery_triangle : ∃ s t : Net triangle,
    Runs.run Net.step triangleFallsBack (Net.init triangle) = some s ∧
    Runs.run Net.step [.hello 0, .deliver 2 1, .deliver 2 0, .deliver 1 0, .deliver 0 1,
      .deliver 2 1] s = some t ∧ (s.node 1).rootAddr = 2 ∧ t.IsSettled ∧
    (t.node 1).rootAddr = 1 := by
  obtain ⟨s, hs, hroutes, htwo, -⟩ := triangle_fallen_back
  have hrun : ((Runs.run Net.step triangleFallsBack (Net.init triangle)).any fun s =>
      (Runs.run Net.step [.hello 0, .deliver 2 1, .deliver 2 0, .deliver 1 0, .deliver 0 1,
        .deliver 2 1] s).any fun t =>
        decide ((∀ u v, t.stps u v = []) ∧ t.live 0 2 = true ∧ t.live 2 0 = true ∧
          t.live 1 2 = true ∧ t.live 2 1 = true ∧
          ∀ j, s.sentStp 0 j < t.sentStp 0 j)) = true := by
    decide +kernel
  obtain ⟨s', hs', hthen⟩ := (Option.any_eq_true _ _).mp hrun
  obtain rfl : s = s' := Option.some.inj (hs.symm.trans hs')
  obtain ⟨t, ht, hall⟩ := (Option.any_eq_true _ _).mp hthen
  obtain ⟨hquiet, h02, h20, h12, h21, hsent⟩ := of_decide_eq_true hall
  have hfrom : Net.Reach (fun _ _ => True) (Net.init triangle) s :=
    Runs.reach_of_run (by simp) hs
  have hcalm : Net.Reach (fun _ e => e.Calm) s t := Runs.reach_of_run (by simp [Event.Calm]) ht
  have hzero := triangle_reachable h02 h20 h12 h21
  have hlowest : ∀ w : Fin 3, triangle.addr 0 ≤ triangle.addr w := by decide
  -- the three nodes are still one component, so only node 1 is the lowest of its component
  obtain ⟨hsettled, hname⟩ := recovery triangle s t hfrom hroutes hcalm hquiet
    fun r u _ hleast j => by
      have hone := hleast 0 (hzero r)
      fin_cases r
      · exact hsent j
      · exact absurd hone (by decide)
      · exact absurd hone (by decide)
  exact ⟨s, t, hs, ht, htwo, hsettled, (hname 1 0 (hzero 1) fun w _ => hlowest w).1⟩

omit [DecidableEq V] in
theorem liveGraph_of_live {c : Control T} (h : ∀ u v, c.live u v = true) :
    c.liveGraph = T.graph := by
  ext u v
  exact ⟨fun hadj => hadj.1, fun hadj => ⟨hadj, h u v, h v u⟩⟩

theorem Net.Grounded.init : (Net.init T).Grounded where
  parent := fun v h => absurd rfl h
  current := by
    intro u v p hp
    change p ∈ (Net.init T).control.queue u v at hp
    rw [control_init] at hp
    simp only [Control.init] at hp
    split_ifs at hp
    · exact List.mem_singleton.mp hp
    · simp at hp

/-- In a calm run of a connected network the spanning tree of the lowest node stands as soon as
the links are quiet and that node alone has advertised itself once more after its prologue. -/
theorem hello_suffices [Fintype V] (T : Topology V) (hconn : T.graph.Connected) (s : Net T) (r : V)
    (hmin : ∀ v, T.addr r ≤ T.addr v) (h : Net.Reach (fun _ e => e.Calm) (Net.init T) s)
    (hempty : ∀ u v, s.stps u v = []) (htwice : ∀ j, 2 ≤ s.sentStp r j) : s.HoldsTree r := by
  have hlive : s.control.liveGraph = T.graph :=
    liveGraph_of_live fun u v => (calmBest_reach h).1.routes.live u v
  have hroutes := Net.Grounded.init.liveRoutes (T := T) (control_init T ▸ PortInv.init)
  obtain ⟨-, hstable, -⟩ := recovering_settles .refl hroutes h hempty
    fun r' _ _ hleast j => by
      rw [hlive] at hleast
      obtain rfl : r' = r :=
        T.addr_injective (UInt16.le_antisymm (hleast r (hconn r' r)) (hmin r'))
      exact htwice j
  rw [hlive] at hstable
  obtain ⟨w, hw⟩ := holdsTree_of_stable hconn hstable
  obtain rfl : w = r := T.addr_injective (UInt16.le_antisymm (hw.min r) (hmin w))
  exact hw

end Mixnet
