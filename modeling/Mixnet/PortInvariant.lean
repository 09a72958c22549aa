import Mixnet.LinkInvariant

/-! Which ports are open once a link is quiet, under every event. A parent hears back from a
child before the link is quiet and opens its port; a node that is neither child nor parent of
a neighbour nor one hop closer to the root has blocked it. -/
namespace Mixnet
variable {V : Type*} [DecidableEq V] {T : Topology V}

structure Control.ChildOf (c : Control T) (v u : V) : Prop where
  root : (c.node v).rootAddr = (c.node u).rootAddr
  len : (c.node v).pathLen = (c.node u).pathLen + 1
  next : (c.node v).nextHop = T.addr u
  narrow : (c.node v).pathLen < 2^16

/-- Behind a quiet link from parent to child, the child's answer is under way or the parent's
port to the child is open. -/
def Replies (c : Control T) : Prop :=
  ∀ u v i, T.peer v i = u → c.live u v = true → c.queue u v = [] → 2 ≤ c.processed v i →
    c.ChildOf v u → c.queue v u ≠ [] ∨
      ∀ j, T.peer u j = v → (c.node u).neighborsBlocked j = false

/-- Behind a quiet link, a node that has a parent other than `u` and does not see `u` one hop
further away has its port to `u` blocked. -/
def Closed (c : Control T) : Prop :=
  ∀ u v i, T.peer v i = u → c.live u v = true → c.queue u v = [] → 2 ≤ c.processed v i →
    (c.node v).nextHop ≠ T.addr u → (c.node v).rootAddr ≠ (c.node v).myAddr →
    ¬ ((c.advert u).rootAddress = (c.node v).rootAddr ∧
      (c.advert u).pathLength.toNat = (c.node v).pathLen + 1) →
    (c.node v).neighborsBlocked i = true

theorem Replies.init : Replies (Control.init T) := by
  intro u v i _ _ _ hproc
  simp [Control.init] at hproc

theorem Closed.init : Closed (Control.init T) := by
  intro u v i _ _ _ hproc
  simp [Control.init] at hproc

omit [DecidableEq V] in
theorem advert_path (c : Control T) (u : V) (h : (c.node u).pathLen < 2^16) :
    (c.advert u).pathLength.toNat = (c.node u).pathLen := by
  have hmod := Nat.mod_eq_of_lt h
  simpa [Control.advert, Node.advert, initializeStpPacket] using hmod

omit [DecidableEq V] in
theorem offer_advert (c : Control T) (hmy : ∀ v, (c.node v).myAddr = T.addr v) (u : V)
    (h : (c.node u).pathLen < 2^16) : (c.advert u).offer =
      toLex ((c.node u).rootAddr.toNat, toLex ((c.node u).pathLen + 1, (T.addr u).toNat)) := by
  have hlen := advert_path c u h
  have hnode : (c.advert u).nodeAddress = T.addr u := hmy u
  have hroot : (c.advert u).rootAddress = (c.node u).rootAddr := rfl
  rw [StpPayload.offer, hlen, hnode, hroot]

omit [DecidableEq V] in
theorem Control.ChildOf.route_eq {c : Control T} {u v : V} (h : c.ChildOf v u)
    (hmy : ∀ v, (c.node v).myAddr = T.addr v) : (c.node v).route = (c.advert u).offer := by
  have hlen := h.len
  have hlt := h.narrow
  rw [offer_advert c hmy u (by omega), Node.route, h.root, h.next, hlen]

theorem quiet_of_commit {c : Control T} {u v : V} {o : Outcome (T.deg u)}
    (hadj : T.graph.Adj u v) (hl : c.live u v = true) (hq : (c.commit u o).queue u v = []) :
    c.queue u v = [] ∧ o.sends = [] := by
  rw [commit_queue_self, List.append_eq_nil_iff] at hq
  refine ⟨hq.1, ?_⟩
  by_contra hs
  rw [if_pos ⟨hadj, hl, hs⟩] at hq
  simp at hq

theorem busy_of_send {c : Control T} {v u : V} {o : Outcome (T.deg v)}
    (hadj : T.graph.Adj v u) (hl : c.live v u = true) (hs : o.sends ≠ []) :
    (c.commit v o).queue v u ≠ [] := by
  rw [commit_queue_sent _ _ _ hadj hl hs]
  simp

theorem cut_live {c : Control T} {a b u v : V} (h : (c.cut a b).live u v = true) :
    c.live u v = true ∧ (c.cut a b).queue u v = c.queue u v ∧
      (c.cut a b).queue v u = c.queue v u := by
  simp only [Control.cut] at h ⊢
  split_ifs at h with hc
  have hc' : ¬ ((v = a ∧ u = b) ∨ (v = b ∧ u = a)) := by
    intro hv
    obtain hv | hv := hv
    · exact hc (Or.inr ⟨hv.2, hv.1⟩)
    · exact hc (Or.inl ⟨hv.2, hv.1⟩)
  exact ⟨h, if_neg hc, if_neg hc'⟩

omit [DecidableEq V] in
/-- The packet that empties a link is the sender's current advertisement. -/
theorem LinkInv.final {c : Control T} (h : LinkInv c) {u v : V} {p : StpPayload}
    (hq : c.queue u v = [p]) : p = c.advert u := h.last u v p (by simp [hq])

theorem route_eq_iff {m n : ℕ} {a : Node m} {b : Node n} : a.route = b.route ↔
    a.rootAddr = b.rootAddr ∧ a.pathLen = b.pathLen ∧ a.nextHop = b.nextHop := by
  simp [Node.route, UInt16.toNat_inj]

omit [DecidableEq V] in
theorem Control.ChildOf.congr {c c' : Control T} {v u : V} (h : c'.ChildOf v u)
    (hv : (c'.node v).route = (c.node v).route) (hu : (c'.node u).route = (c.node u).route) :
    c.ChildOf v u := by
  obtain ⟨hvr, hvl, hvn⟩ := route_eq_iff.mp hv
  obtain ⟨hur, hul, _⟩ := route_eq_iff.mp hu
  refine ⟨?_, ?_, ?_, ?_⟩
  · rw [← hvr, ← hur, h.root]
  · rw [← hvl, ← hul, h.len]
  · rw [← hvn, h.next]
  · rw [← hvl]
    exact h.narrow

section Case
variable {n : ℕ} {node : Node n} {i : Fin n} {p : StpPayload} {o : Outcome n}

theorem StpCase.others (hc : StpCase node i p o) :
    (o.node.route = node.route ∧
      ∀ j, j ≠ i → o.node.neighborsBlocked j = node.neighborsBlocked j) ∨
    (o.sends ≠ [] ∧ ∀ j, j ≠ i → o.node.neighborsBlocked j = true) := by
  cases hc with
  | echo _ => exact Or.inl ⟨rfl, fun _ _ => rfl⟩
  | firstContact _ _ =>
    refine Or.inl ⟨rfl, fun j hj => ?_⟩
    simp [Node.record, hj]
  | adopt _ _ =>
    refine Or.inr ⟨sendStp_ne_nil _ i, fun j hj => ?_⟩
    simp [Node.adopt, hj]
  | ignore _ _ =>
    refine Or.inl ⟨rfl, fun j hj => ?_⟩
    simp [Node.setBlocked, hj]

theorem StpCase.silent (hc : StpCase node i p o) (hs : o.sends = []) :
    o.node.route = node.route ∧
      ∀ j, j ≠ i → o.node.neighborsBlocked j = node.neighborsBlocked j := by
  obtain hsame | ⟨hsent, _⟩ := hc.others
  · exact hsame
  · exact absurd hs hsent

theorem StpCase.opens (hc : StpCase node i p o) (hs : o.sends = [])
    (hroot : p.rootAddress = node.rootAddr) (hlen : p.pathLength.toNat = node.pathLen + 1) :
    o.node.neighborsBlocked i = false := by
  cases hc with
  | echo _ => exact absurd hs (sendStp_ne_nil _ i)
  | firstContact _ _ => simp [Node.record]
  | adopt _ _ => exact absurd hs (sendStp_ne_nil _ i)
  | ignore _ _ =>
    have hb := Node.blocks_down hroot hlen
    simp [Node.setBlocked, hb]

theorem StpCase.closes (hc : StpCase node i p o) (hrec : node.neighborsAddy i ≠ -1)
    (hnext : p.nodeAddress ≠ o.node.nextHop)
    (hdown : ¬ (p.rootAddress = o.node.rootAddr ∧
      p.pathLength.toNat = o.node.pathLen + 1)) :
    o.node.neighborsBlocked i = true := by
  cases hc with
  | echo heq =>
    have hm := (matchesParent_iff _ _).mpr heq
    exact absurd hm.2.2 hnext
  | firstContact _ hfirst => exact absurd hfirst hrec
  | adopt _ _ => exact absurd rfl hnext
  | ignore _ _ =>
    have hb : node.blocks p = true := Node.blocks_other hnext hdown
    simp [Node.setBlocked, hb]

theorem StpCase.answers (hc : StpCase node i p o) (heq : p.offer = node.route) :
    o.sends ≠ [] := by
  cases hc with
  | echo _ => exact sendStp_ne_nil _ i
  | firstContact hne _ => exact absurd heq hne
  | adopt hlt _ => exact absurd heq hlt.ne
  | ignore hlt _ => exact absurd heq hlt.ne'

end Case

section Receive
variable {c : Control T} {w : V} {k : Fin (T.deg w)} {p : StpPayload} {rest : List StpPayload}
  {o : Outcome (T.deg w)}

theorem receive_queue_ne {x y : V} (hx : x ≠ w) (h : ¬ (x = T.peer w k ∧ y = w)) :
    ((c.take w k rest).commit w o).queue x y = c.queue x y := by
  rw [commit_queue_ne _ _ _ hx, take_queue_ne _ _ _ _ h]

theorem receive_queue_port :
    ((c.take w k rest).commit w o).queue (T.peer w k) w = rest := by
  rw [commit_queue_ne _ _ _ (T.peer_ne w k), take_queue_self]

theorem receive_queue_quiet {y : V} (hy : y ≠ w) (ho : o.sends = []) :
    ((c.take w k rest).commit w o).queue w y = c.queue w y := by
  rw [commit_queue_self, take_queue_ne _ _ _ _ (fun h => hy h.2)]
  simp [ho]

theorem receive_quiet {y : V} (hadj : T.graph.Adj w y) (hl : c.live w y = true)
    (hq : ((c.take w k rest).commit w o).queue w y = []) :
    c.queue w y = [] ∧ o.sends = [] := by
  have hl' : (c.take w k rest).live w y = true := hl
  have h := quiet_of_commit hadj hl' hq
  rw [take_queue_ne _ _ _ _ (fun hy => hadj.ne hy.2.symm)] at h
  exact h

theorem receive_advert_ne {u : V} (hu : u ≠ w) :
    ((c.take w k rest).commit w o).advert u = c.advert u := by
  rw [Control.advert, commit_node_ne _ _ _ hu]
  rfl

/-- A link to another node than `w` that is quiet once `w` has received was quiet before: its
sender has kept silent, and what it tells and whom it tells are as they were. -/
theorem receive_elsewhere (hc : StpCase (c.node w) k p o) {u v : V} {i : Fin (T.deg v)}
    (hu : T.peer v i = u) (hwv : w ≠ v) (hlive : c.live u v = true)
    (hquiet : ((c.take w k rest).commit w o).queue u v = []) :
    c.queue u v = [] ∧ ((c.take w k rest).commit w o).advert u = c.advert u ∧
      ((c.take w k rest).commit w o).processed v i = c.processed v i ∧
      ((c.take w k rest).commit w o).node v = c.node v := by
  have hvu : T.graph.Adj v u := ⟨i, hu⟩
  have hrest : ((c.take w k rest).commit w o).processed v i = c.processed v i ∧
      ((c.take w k rest).commit w o).node v = c.node v := by
    rw [commit_processed, take_processed_ne _ _ _ _ hwv.symm, commit_node_ne _ _ _ hwv.symm]
    exact ⟨rfl, rfl⟩
  by_cases hwu : w = u
  · subst hwu
    obtain ⟨hq0, hs⟩ := receive_quiet hvu.symm hlive hquiet
    have hsame := (hc.frame.silent hs (deg_ne_zero hvu.symm)).1
    refine ⟨hq0, ?_, hrest⟩
    rw [Control.advert, commit_node_self, hsame]
    rfl
  · rw [receive_queue_ne (Ne.symm hwu) (fun hx => hwv hx.2.symm)] at hquiet
    exact ⟨hquiet, receive_advert_ne (Ne.symm hwu), hrest⟩

theorem receive_other_port {u : V} {i : Fin (T.deg w)} (hu : T.peer w i = u) (hki : k ≠ i)
    (hquiet : ((c.take w k rest).commit w o).queue u w = [])
    (hproc : 2 ≤ ((c.take w k rest).commit w o).processed w i) :
    c.queue u w = [] ∧ 2 ≤ c.processed w i := by
  have hadj : T.graph.Adj w u := ⟨i, hu⟩
  have hpeer : T.peer w k ≠ u := fun hk => hki (T.peer_injective w (hk.trans hu.symm))
  rw [receive_queue_ne hadj.ne' (fun hx => hpeer hx.1.symm)] at hquiet
  rw [commit_processed, take_processed_port _ _ _ _ (Ne.symm hki)] at hproc
  exact ⟨hquiet, hproc⟩

theorem receive_final (hl : LinkInv c) (hq : c.queue (T.peer w k) w = p :: rest)
    (hquiet : ((c.take w k rest).commit w o).queue (T.peer w k) w = []) :
    p = c.advert (T.peer w k) := by
  rw [receive_queue_port] at hquiet
  exact hl.final (by rw [hq, hquiet])

theorem Replies.receive_parent (h : Replies c) (hl : LinkInv c)
    (hq : c.queue (T.peer w k) w = p :: rest) (hc : StpCase (c.node w) k p o) {v : V}
    {i : Fin (T.deg v)} (hw : T.peer v i = w) (hlive : c.live w v = true)
    (hquiet : ((c.take w k rest).commit w o).queue w v = []) (hproc : 2 ≤ c.processed v i)
    (hchild : ((c.take w k rest).commit w o).ChildOf v w) :
    ((c.take w k rest).commit w o).queue v w ≠ [] ∨
      ∀ j, T.peer w j = v → o.node.neighborsBlocked j = false := by
  have hadj : T.graph.Adj v w := ⟨i, hw⟩
  obtain ⟨hq0, hs⟩ := receive_quiet hadj.symm hlive hquiet
  obtain ⟨hroute, hports⟩ := hc.silent hs
  have hv : ((c.take w k rest).commit w o).node v = c.node v := commit_node_ne _ _ _ hadj.ne
  have hchild' : c.ChildOf v w := hchild.congr (by rw [hv]) (by rw [commit_node_self, hroute])
  by_cases hk : T.peer w k = v
  · subst hk
    rw [receive_queue_port]
    by_cases hrest : rest = []
    · right
      intro j hj
      obtain rfl : j = k := T.peer_injective w hj
      have hp : p = c.advert (T.peer w j) := hl.final (by rw [hq, hrest])
      have hpath := advert_path c (T.peer w j) hchild'.narrow
      refine hc.opens hs ?_ ?_
      · rw [hp]
        exact hchild'.root
      · rw [hp, hpath, hchild'.len]
    · exact Or.inl hrest
  · rw [receive_queue_ne hadj.ne (fun hx => hk hx.1.symm)]
    refine (h w v i hw hlive hq0 hproc hchild').imp_right fun hopen j hj => ?_
    rw [hports j (fun hjk => hk (hjk ▸ hj))]
    exact hopen j hj

theorem Replies.receive_child (h : Replies c) (hl : LinkInv c)
    (hq : c.queue (T.peer w k) w = p :: rest) (hc : StpCase (c.node w) k p o) {u : V}
    {i : Fin (T.deg w)} (hu : T.peer w i = u) (hlive : c.live u w = true)
    (hquiet : ((c.take w k rest).commit w o).queue u w = [])
    (hproc : 2 ≤ ((c.take w k rest).commit w o).processed w i)
    (hchild : ((c.take w k rest).commit w o).ChildOf w u) :
    ((c.take w k rest).commit w o).queue w u ≠ [] ∨
      ∀ j, T.peer u j = w → (c.node u).neighborsBlocked j = false := by
  have hadj : T.graph.Adj w u := ⟨i, hu⟩
  by_cases hs : o.sends = []
  · obtain ⟨hroute, _⟩ := hc.silent hs
    have hnode : ((c.take w k rest).commit w o).node u = c.node u :=
      commit_node_ne _ _ _ hadj.ne'
    have hchild' : c.ChildOf w u :=
      hchild.congr (by rw [commit_node_self, hroute]) (by rw [hnode])
    by_cases hki : k = i
    · -- the last packet of the parent offers the route the child holds
      subst hki
      subst hu
      have hp : p = c.advert (T.peer w k) := receive_final hl hq hquiet
      have hoffer : p.offer = (c.node w).route := by
        rw [hp, hchild'.route_eq hl.myAddr]
      exact absurd hs (hc.answers hoffer)
    · obtain ⟨hq0, hproc0⟩ := receive_other_port hu hki hquiet hproc
      rw [receive_queue_quiet hadj.ne' hs]
      exact h u w i hu hlive hq0 hproc0 hchild'
  · left
    exact busy_of_send hadj ((hl.symm w u).trans hlive) hs

theorem Replies.receive (h : Replies c) (hl : LinkInv c)
    (hq : c.queue (T.peer w k) w = p :: rest) (hc : StpCase (c.node w) k p o) :
    Replies ((c.take w k rest).commit w o) := by
  intro u v i hu (hlive : c.live u v = true) hquiet hproc hchild
  have hvu : T.graph.Adj v u := ⟨i, hu⟩
  by_cases hwu : w = u
  · subst hwu
    rw [commit_processed, take_processed_ne _ _ _ _ hvu.ne] at hproc
    rw [commit_node_self]
    exact h.receive_parent hl hq hc hu hlive hquiet hproc hchild
  · have hu' : ((c.take w k rest).commit w o).node u = c.node u :=
      commit_node_ne _ _ _ (Ne.symm hwu)
    rw [hu']
    by_cases hwv : w = v
    · subst hwv
      exact h.receive_child hl hq hc hu hlive hquiet hproc hchild
    · have hv' : ((c.take w k rest).commit w o).node v = c.node v :=
        commit_node_ne _ _ _ (Ne.symm hwv)
      have hchild' : c.ChildOf v u := hchild.congr (by rw [hv']) (by rw [hu'])
      rw [receive_queue_ne (Ne.symm hwu) (fun hx => hwv hx.2.symm)] at hquiet
      rw [receive_queue_ne (Ne.symm hwv) (fun hx => hwu hx.2.symm)]
      rw [commit_processed, take_processed_ne _ _ _ _ (Ne.symm hwv)] at hproc
      exact h u v i hu hlive hquiet hproc hchild'

end Receive

theorem Replies.send {c : Control T} (h : Replies c) (hl : LinkInv c) {w : V}
    {o : Outcome (T.deg w)} (hs : T.deg w ≠ 0 → o.sends ≠ []) : Replies (c.commit w o) := by
  intro u v i hu (hlive : c.live u v = true) hquiet hproc hchild
  have hvu : T.graph.Adj v u := ⟨i, hu⟩
  by_cases hwu : w = u
  · subst hwu
    exact absurd (quiet_of_commit hvu.symm hlive hquiet).2 (hs (deg_ne_zero hvu.symm))
  · by_cases hwv : w = v
    · subst hwv
      left
      exact busy_of_send hvu ((hl.symm w u).trans hlive) (hs (deg_ne_zero hvu))
    · have hu' : (c.commit w o).node u = c.node u := commit_node_ne _ _ _ (Ne.symm hwu)
      have hv' : (c.commit w o).node v = c.node v := commit_node_ne _ _ _ (Ne.symm hwv)
      have hchild' : c.ChildOf v u := hchild.congr (by rw [hv']) (by rw [hu'])
      rw [commit_queue_ne _ _ _ (Ne.symm hwu)] at hquiet
      rw [commit_queue_ne _ _ _ (Ne.symm hwv), hu']
      exact h u v i hu hlive hquiet hproc hchild'

theorem Replies.step {c c' : Control T} {e : Event T} (h : Replies c) (hl : LinkInv c)
    (hs : ControlStep c e c') : Replies c' := by
  cases hs with
  | receive w k p rest o hq hc => exact h.receive hl hq hc
  | hello w hroot => exact h.send hl fun hd => sendStp_ne_nil _ ⟨0, Nat.pos_of_ne_zero hd⟩
  | reelect w hroot => exact h.send hl fun hd => sendStp_ne_nil _ ⟨0, Nat.pos_of_ne_zero hd⟩
  | fail a b =>
    intro u v i hu hlive hquiet hproc hchild
    obtain ⟨hlive', hq, hq'⟩ := cut_live hlive
    rw [hq] at hquiet
    rw [hq']
    exact h u v i hu hlive' hquiet hproc (hchild.congr rfl rfl)

theorem Closed.receive_own {c : Control T} (h : Closed c) (hl : LinkInv c) (hr : Recorded c)
    {w u : V} {k i : Fin (T.deg w)} {p : StpPayload} {rest : List StpPayload}
    {o : Outcome (T.deg w)} (hq : c.queue (T.peer w k) w = p :: rest)
    (hc : StpCase (c.node w) k p o) (hu : T.peer w i = u) (hlive : c.live u w = true)
    (hquiet : ((c.take w k rest).commit w o).queue u w = [])
    (hproc : 2 ≤ ((c.take w k rest).commit w o).processed w i)
    (hnext : o.node.nextHop ≠ T.addr u) (hroot : o.node.rootAddr ≠ o.node.myAddr)
    (hdown : ¬ ((c.advert u).rootAddress = o.node.rootAddr ∧
      (c.advert u).pathLength.toNat = o.node.pathLen + 1)) :
    o.node.neighborsBlocked i = true := by
  by_cases hki : k = i
  · subst hki
    subst hu
    rw [commit_processed, take_processed_self] at hproc
    have hp : p = c.advert (T.peer w k) := receive_final hl hq hquiet
    have hpn : p.nodeAddress = T.addr (T.peer w k) := hl.sender (T.peer w k) w p (by simp [hq])
    rw [← hp] at hdown
    exact hc.closes (hr w k (by omega)) (fun he => hnext (he.symm.trans hpn)) hdown
  · obtain ⟨hq0, hproc0⟩ := receive_other_port hu hki hquiet hproc
    obtain ⟨hroute, hports⟩ | ⟨_, hshut⟩ := hc.others
    · obtain ⟨hrootEq, hlenEq, hnextEq⟩ := route_eq_iff.mp hroute
      have hmy : o.node.myAddr = (c.node w).myAddr := hc.frame.myAddr
      rw [hnextEq] at hnext
      rw [hrootEq, hmy] at hroot
      rw [hrootEq, hlenEq] at hdown
      rw [hports i (Ne.symm hki)]
      exact h u w i hu hlive hq0 hproc0 hnext hroot hdown
    · exact hshut i (Ne.symm hki)

theorem Closed.receive {c : Control T} (h : Closed c) (hl : LinkInv c) (hr : Recorded c) {w : V}
    {k : Fin (T.deg w)} {p : StpPayload} {rest : List StpPayload} {o : Outcome (T.deg w)}
    (hq : c.queue (T.peer w k) w = p :: rest) (hc : StpCase (c.node w) k p o) :
    Closed ((c.take w k rest).commit w o) := by
  intro u v i hu (hlive : c.live u v = true) hquiet hproc hnext hroot hdown
  have hvu : T.graph.Adj v u := ⟨i, hu⟩
  by_cases hwv : w = v
  · subst hwv
    rw [receive_advert_ne hvu.ne'] at hdown
    rw [commit_node_self] at hnext hroot hdown ⊢
    exact h.receive_own hl hr hq hc hu hlive hquiet hproc hnext hroot hdown
  · obtain ⟨hq0, hadv, hsame, hv⟩ := receive_elsewhere hc hu hwv hlive hquiet
    rw [hsame] at hproc
    rw [hadv] at hdown
    rw [hv] at hnext hroot hdown ⊢
    exact h u v i hu hlive hq0 hproc hnext hroot hdown

theorem Closed.send {c : Control T} (h : Closed c) {w : V} {o : Outcome (T.deg w)}
    (hs : T.deg w ≠ 0 → o.sends ≠ [])
    (hw : o.node = c.node w ∨ o.node.rootAddr = o.node.myAddr) : Closed (c.commit w o) := by
  intro u v i hu (hlive : c.live u v = true) hquiet hproc hnext hroot hdown
  have hvu : T.graph.Adj v u := ⟨i, hu⟩
  by_cases hwu : w = u
  · subst hwu
    exact absurd (quiet_of_commit hvu.symm hlive hquiet).2 (hs (deg_ne_zero hvu.symm))
  · have hadv : (c.commit w o).advert u = c.advert u := by
      rw [Control.advert, commit_node_ne _ _ _ (Ne.symm hwu)]
      rfl
    rw [commit_queue_ne _ _ _ (Ne.symm hwu)] at hquiet
    rw [hadv] at hdown
    have hv' : (c.commit w o).node v = c.node v := by
      by_cases hwv : w = v
      · subst hwv
        rw [commit_node_self] at hroot ⊢
        obtain hsame | hself := hw
        · exact hsame
        · exact absurd hself hroot
      · exact commit_node_ne _ _ _ (Ne.symm hwv)
    rw [hv'] at hnext hroot hdown ⊢
    exact h u v i hu hlive hquiet hproc hnext hroot hdown

theorem Closed.step {c c' : Control T} {e : Event T} (h : Closed c) (hl : LinkInv c)
    (hr : Recorded c) (hs : ControlStep c e c') : Closed c' := by
  cases hs with
  | receive w k p rest o hq hc => exact h.receive hl hr hq hc
  | hello w hroot =>
    exact h.send (fun hd => sendStp_ne_nil _ ⟨0, Nat.pos_of_ne_zero hd⟩) (Or.inl rfl)
  | reelect w hroot =>
    exact h.send (fun hd => sendStp_ne_nil _ ⟨0, Nat.pos_of_ne_zero hd⟩) (Or.inr rfl)
  | fail a b =>
    intro u v i hu hlive hquiet
    obtain ⟨hlive', hq, _⟩ := cut_live hlive
    rw [hq] at hquiet
    exact h u v i hu hlive' hquiet

structure PortInv (c : Control T) : Prop where
  links : LinkInv c
  recorded : Recorded c
  replies : Replies c
  closed : Closed c

theorem PortInv.init : PortInv (Control.init T) where
  links := LinkInv.init
  recorded := by
    intro v i h
    simp [Control.init] at h
  replies := Replies.init
  closed := Closed.init

theorem PortInv.step {c c' : Control T} {e : Event T} (h : PortInv c)
    (hs : ControlStep c e c') : PortInv c' where
  links := h.links.step hs
  recorded := h.recorded.step h.links hs
  replies := h.replies.step h.links hs
  closed := h.closed.step h.links h.recorded hs

theorem portInv_reach {A : Control T → Event T → Prop} {s t : Net T}
    (h : Net.Reach (fun u e => A u.control e) s t) (hs : PortInv s.control) :
    PortInv t.control :=
  control_invariant h hs fun _ _ _ hc _ hstep => hc.step hstep

end Mixnet
