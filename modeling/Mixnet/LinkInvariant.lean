import Mixnet.NodeInvariant
import Mixnet.Control

/-! Invariants of the control plane under every event, re-elections and link failures
included: who sent what, what the last packet on a link says, which ports are open. -/
namespace Mixnet
variable {V : Type*}

def Topology.sender (T : Topology V) (v : V) (i : Fin (T.deg v)) : UInt16 := T.addr (T.peer v i)

variable [DecidableEq V] {T : Topology V}

def Control.advert (c : Control T) (u : V) : StpPayload := (c.node u).advert.payload

section Effects
variable (c : Control T) (v : V) (o : Outcome (T.deg v))

@[simp] theorem commit_node_self : (c.commit v o).node v = o.node := by
  simp [Control.commit]

theorem commit_node_ne {w : V} (h : w ≠ v) : (c.commit v o).node w = c.node w := by
  simp [Control.commit, h]

/-- What holds of the new node of `v` and of all old ones holds of all new ones. -/
theorem commit_forall {P : (w : V) → Node (T.deg w) → Prop} (hv : P v o.node)
    (h : ∀ w, P w (c.node w)) (w : V) : P w ((c.commit v o).node w) := by
  by_cases hw : w = v
  · subst hw
    rw [commit_node_self]
    exact hv
  · rw [commit_node_ne _ _ _ hw]
    exact h w

theorem commit_node_same (h : o.node = c.node v) (w : V) : (c.commit v o).node w = c.node w :=
  commit_forall c v o (P := fun w node => node = c.node w) h (fun _ => rfl) w

theorem commit_queue_ne {x : V} (h : x ≠ v) (y : V) :
    (c.commit v o).queue x y = c.queue x y := by
  simp [Control.commit, h]

theorem commit_queue_self (y : V) : (c.commit v o).queue v y =
    c.queue v y ++ if T.graph.Adj v y ∧ c.live v y ∧ o.sends ≠ [] then
      [o.node.advert.payload] else [] := by
  simp [Control.commit]

theorem commit_queue_sent {y : V} (hadj : T.graph.Adj v y) (hl : c.live v y = true)
    (hs : o.sends ≠ []) : (c.commit v o).queue v y = c.queue v y ++ [o.node.advert.payload] := by
  rw [commit_queue_self, if_pos ⟨hadj, hl, hs⟩]

@[simp] theorem commit_processed : (c.commit v o).processed = c.processed := rfl

variable (i : Fin (T.deg v)) (rest : List StpPayload)

@[simp] theorem take_node : (c.take v i rest).node = c.node := rfl

theorem take_queue_self : (c.take v i rest).queue (T.peer v i) v = rest := by
  simp [Control.take]

theorem take_queue_ne {x y : V} (h : ¬ (x = T.peer v i ∧ y = v)) :
    (c.take v i rest).queue x y = c.queue x y := by
  simp [Control.take, h]

theorem take_processed_self :
    (c.take v i rest).processed v i = c.processed v i + 1 := by
  simp [Control.take]

theorem take_processed_port {j : Fin (T.deg v)} (h : j ≠ i) :
    (c.take v i rest).processed v j = c.processed v j := by
  simp [Control.take, h]

theorem take_processed_ne {w : V} (h : w ≠ v) :
    (c.take v i rest).processed w = c.processed w := by
  simp [Control.take, h]

theorem take_processed_le (w : V) (j : Fin (T.deg w)) :
    c.processed w j ≤ (c.take v i rest).processed w j := by
  by_cases hw : w = v
  · subst hw
    by_cases hj : j = i
    · subst hj
      rw [take_processed_self]
      exact Nat.le_succ _
    · rw [take_processed_port _ _ _ _ hj]
  · rw [take_processed_ne _ _ _ _ hw]

variable {c v o i rest}

theorem mem_commit_queue {x y : V} {q : StpPayload} (h : q ∈ (c.commit v o).queue x y) :
    q ∈ c.queue x y ∨ x = v ∧ q = o.node.advert.payload := by
  by_cases hx : x = v
  · subst hx
    rw [commit_queue_self, List.mem_append] at h
    refine h.imp id fun hnew => ⟨rfl, ?_⟩
    split_ifs at hnew
    · exact List.mem_singleton.mp hnew
    · simp at hnew
  · rw [commit_queue_ne _ _ _ hx] at h
    exact Or.inl h

theorem mem_take_queue {p : StpPayload} (hq : c.queue (T.peer v i) v = p :: rest) {x y : V}
    {q : StpPayload} (h : q ∈ (c.take v i rest).queue x y) : q ∈ c.queue x y := by
  by_cases hxy : x = T.peer v i ∧ y = v
  · rw [hxy.1, hxy.2, take_queue_self] at h
    rw [hxy.1, hxy.2, hq]
    exact List.mem_cons_of_mem p h
  · rwa [take_queue_ne _ _ _ _ hxy] at h

end Effects

structure Outcome.Frame {n : ℕ} (node : Node n) (o : Outcome n) : Prop where
  myAddr : o.node.myAddr = node.myAddr
  silent : o.sends = [] → n ≠ 0 → o.node.advert = node.advert ∧ o.node.route = node.route

theorem StpCase.frame {n : ℕ} {node : Node n} {i : Fin n} {p : StpPayload} {o : Outcome n}
    (hc : StpCase node i p o) : o.Frame node := by
  cases hc with
  | echo _ => exact ⟨rfl, fun _ _ => ⟨rfl, rfl⟩⟩
  | firstContact _ _ => exact ⟨rfl, fun _ _ => ⟨rfl, rfl⟩⟩
  | adopt _ _ => exact ⟨rfl, fun h _ => absurd h (sendStp_ne_nil _ i)⟩
  | ignore _ _ => exact ⟨rfl, fun _ _ => ⟨rfl, rfl⟩⟩

theorem rootHello_frame {n : ℕ} (node : Node n) : (rootHello node).Frame node :=
  ⟨rfl, fun _ _ => ⟨rfl, rfl⟩⟩

theorem reelect_frame {n : ℕ} (node : Node n) : (reelect node).Frame node := by
  refine ⟨rfl, fun h hn => ?_⟩
  exact absurd h (sendStp_ne_nil _ ⟨0, Nat.pos_of_ne_zero hn⟩)

structure LinkInv (c : Control T) : Prop where
  myAddr : ∀ v, (c.node v).myAddr = T.addr v
  node : ∀ v, NodeInv (T.sender v) (c.node v)
  symm : ∀ u v, c.live u v = c.live v u
  link : ∀ u v, c.queue u v ≠ [] → T.graph.Adj u v ∧ c.live u v = true
  sender : ∀ u v, ∀ p ∈ c.queue u v, p.nodeAddress = T.addr u
  last : ∀ u v p, (c.queue u v).getLast? = some p → p = c.advert u

def Recorded (c : Control T) : Prop :=
  ∀ v i, 1 ≤ c.processed v i → (c.node v).neighborsAddy i ≠ -1

omit [DecidableEq V] in
theorem deg_ne_zero {u v : V} (h : T.graph.Adj u v) : T.deg u ≠ 0 := by
  obtain ⟨i, _⟩ := h
  exact Nat.ne_of_gt (Nat.lt_of_le_of_lt (Nat.zero_le _) i.isLt)

theorem LinkInv.init : LinkInv (Control.init T) where
  myAddr := fun _ => rfl
  node := fun v => initNode_inv _ _
  symm := fun _ _ => rfl
  link := by
    intro u v h
    refine ⟨?_, rfl⟩
    by_contra hadj
    exact h (if_neg hadj)
  sender := by
    intro u v p hp
    simp only [Control.init] at hp
    split_ifs at hp
    · rw [List.mem_singleton.mp hp]
    · simp at hp
  last := by
    intro u v p hp
    simp only [Control.init] at hp
    split_ifs at hp
    · simp only [List.getLast?_singleton, Option.some.injEq] at hp
      subst hp
      simp [Control.advert, Control.init, initNode, Node.advert, initializeStpPacket]
    · simp at hp

theorem LinkInv.take {c : Control T} (h : LinkInv c) {v : V} {i : Fin (T.deg v)}
    {p : StpPayload} {rest : List StpPayload} (hq : c.queue (T.peer v i) v = p :: rest) :
    LinkInv (c.take v i rest) where
  myAddr := h.myAddr
  node := h.node
  symm := h.symm
  link := by
    intro x y hne
    by_cases hxy : x = T.peer v i ∧ y = v
    · rw [hxy.1, hxy.2]
      exact h.link _ _ (by simp [hq])
    · rw [take_queue_ne _ _ _ _ hxy] at hne
      exact h.link x y hne
  sender := fun x y q hmem => h.sender x y q (mem_take_queue hq hmem)
  last := by
    intro x y q hlast
    by_cases hxy : x = T.peer v i ∧ y = v
    · rw [hxy.1, hxy.2, take_queue_self] at hlast
      rw [hxy.1]
      have hne : rest ≠ [] := by
        intro hnil
        simp [hnil] at hlast
      refine h.last (T.peer v i) v q ?_
      rw [hq, List.getLast?_cons_of_ne_nil hne]
      exact hlast
    · rw [take_queue_ne _ _ _ _ hxy] at hlast
      exact h.last x y q hlast

theorem LinkInv.commit {c : Control T} (h : LinkInv c) {v : V} {o : Outcome (T.deg v)}
    (hf : o.Frame (c.node v)) (hnode : NodeInv (T.sender v) o.node) :
    LinkInv (c.commit v o) where
  myAddr := commit_forall c v o (P := fun w node => node.myAddr = T.addr w)
    (hf.myAddr.trans (h.myAddr v)) h.myAddr
  node := commit_forall c v o (P := fun w node => NodeInv (T.sender w) node) hnode h.node
  symm := h.symm
  link := by
    intro x y hne
    by_cases hx : x = v
    · subst hx
      rw [commit_queue_self] at hne
      split_ifs at hne with hs
      · exact ⟨hs.1, hs.2.1⟩
      · exact h.link x y (by simpa using hne)
    · rw [commit_queue_ne _ _ _ hx] at hne
      exact h.link x y hne
  sender := by
    intro x y q hmem
    obtain hold | ⟨rfl, rfl⟩ := mem_commit_queue hmem
    · exact h.sender x y q hold
    · exact hf.myAddr.trans (h.myAddr x)
  last := by
    intro x y q hlast
    by_cases hx : x = v
    · subst hx
      rw [Control.advert, commit_node_self]
      rw [commit_queue_self] at hlast
      split_ifs at hlast with hs
      · simpa using hlast.symm
      · rw [List.append_nil] at hlast
        have hne : c.queue x y ≠ [] := by
          intro hnil
          simp [hnil] at hlast
        have hl := h.link x y hne
        have hnil : o.sends = [] := by
          by_contra hsend
          exact hs ⟨hl.1, hl.2, hsend⟩
        rw [(hf.silent hnil (deg_ne_zero hl.1)).1]
        exact h.last x y q hlast
    · rw [commit_queue_ne _ _ _ hx] at hlast
      rw [Control.advert, commit_node_ne _ _ _ hx]
      exact h.last x y q hlast

theorem LinkInv.cut {c : Control T} (h : LinkInv c) (u v : V) : LinkInv (c.cut u v) where
  myAddr := h.myAddr
  node := h.node
  symm := by
    intro x y
    have hs := h.symm x y
    by_cases hxy : (x = u ∧ y = v) ∨ (x = v ∧ y = u)
    · have hyx : (y = u ∧ x = v) ∨ (y = v ∧ x = u) := by
        obtain hxy | hxy := hxy
        · exact Or.inr ⟨hxy.2, hxy.1⟩
        · exact Or.inl ⟨hxy.2, hxy.1⟩
      simp only [Control.cut, if_pos hxy, if_pos hyx]
    · have hyx : ¬ ((y = u ∧ x = v) ∨ (y = v ∧ x = u)) := by
        intro hyx
        obtain hyx | hyx := hyx
        · exact hxy (Or.inr ⟨hyx.2, hyx.1⟩)
        · exact hxy (Or.inl ⟨hyx.2, hyx.1⟩)
      simp only [Control.cut, if_neg hxy, if_neg hyx]
      exact hs
  link := by
    intro x y hne
    simp only [Control.cut] at hne ⊢
    split_ifs at hne ⊢ with hxy
    · exact absurd rfl hne
    · exact h.link x y hne
  sender := by
    intro x y q hmem
    simp only [Control.cut] at hmem
    split_ifs at hmem
    · simp at hmem
    · exact h.sender x y q hmem
  last := by
    intro x y q hlast
    simp only [Control.cut] at hlast
    split_ifs at hlast
    · simp at hlast
    · exact h.last x y q hlast

theorem StpCase.recorded {n : ℕ} {node : Node n} {i : Fin n} {p : StpPayload} {o : Outcome n}
    (hc : StpCase node i p o) {sender : Fin n → UInt16} (hn : NodeInv sender node)
    (hinj : Function.Injective sender) (hp : p.nodeAddress = sender i)
    (hv : sender i ≠ 0xFFFF) (hself : node.myAddr ≠ sender i) :
    o.node.neighborsAddy i ≠ -1 ∧
      ∀ j, node.neighborsAddy j ≠ -1 → o.node.neighborsAddy j ≠ -1 := by
  have hconv : (sender i).toInt16 ≠ -1 := by
    intro he
    exact hv (congrArg Int16.toUInt16 he)
  cases hc with
  | echo heq =>
    have hnext : node.nextHop = sender i := by
      rw [← matchesParent_iff] at heq
      rw [← hp, heq.2.2]
    refine ⟨?_, fun j hj => hj⟩
    obtain hs | ⟨_, _, j, hj, haddr, _⟩ := hn.shape
    · exact absurd (hs.2.2.symm.trans hnext) hself
    · rw [← hinj (hj.symm.trans hnext)]
      exact haddr
  | firstContact _ _ =>
    refine ⟨by simpa [Node.record, hp] using hconv, fun j hj => ?_⟩
    by_cases hji : j = i
    · subst hji
      simpa [Node.record, hp] using hconv
    · simpa [Node.record, hji] using hj
  | adopt _ hrec => exact ⟨hrec, fun j hj => hj⟩
  | ignore _ hrec => exact ⟨hrec, fun j hj => hj⟩

omit [DecidableEq V] in
theorem sender_injective (T : Topology V) (v : V) : Function.Injective (T.sender v) :=
  T.addr_injective.comp (T.peer_injective v)

omit [DecidableEq V] in
theorem addr_ne_sender (T : Topology V) (v : V) (i : Fin (T.deg v)) :
    T.addr v ≠ T.sender v i := fun h => T.peer_ne v i (T.addr_injective h).symm

theorem LinkInv.step {c c' : Control T} {e : Event T} (h : LinkInv c)
    (hs : ControlStep c e c') : LinkInv c' := by
  cases hs with
  | receive v i p rest o hq hc =>
    have hp : p.nodeAddress = T.sender v i := h.sender (T.peer v i) v p (by simp [hq])
    exact (h.take hq).commit hc.frame (hc.node_inv (h.node v) hp)
  | hello v hroot => exact h.commit (rootHello_frame _) (h.node v)
  | reelect v hroot => exact h.commit (reelect_frame _) (h.node v).reelect
  | fail u v => exact h.cut u v

theorem Recorded.step {c c' : Control T} {e : Event T} (hr : Recorded c) (h : LinkInv c)
    (hs : ControlStep c e c') : Recorded c' := by
  intro w j hj
  cases hs with
  | receive v i p rest o hq hc =>
    by_cases hw : w = v
    · subst hw
      have hp : p.nodeAddress = T.sender w i := h.sender (T.peer w i) w p (by simp [hq])
      have hself : (c.node w).myAddr ≠ T.sender w i := by
        rw [h.myAddr w]
        exact addr_ne_sender T w i
      obtain ⟨hport, hother⟩ := hc.recorded (h.node w) (sender_injective T w) hp
        (T.addr_valid _) hself
      rw [commit_node_self]
      by_cases hji : j = i
      · exact hji ▸ hport
      · rw [commit_processed, take_processed_port _ _ _ _ hji] at hj
        exact hother j (hr w j hj)
    · rw [commit_processed, take_processed_ne _ _ _ _ hw] at hj
      rw [commit_node_ne _ _ _ hw]
      exact hr w j hj
  | hello v hroot =>
    rw [commit_node_same c v _ rfl]
    exact hr w j hj
  | reelect v hroot =>
    exact commit_forall c v _ (P := fun w node => ∀ j, 1 ≤ c.processed w j →
      node.neighborsAddy j ≠ -1) (hr v) hr w j hj
  | fail u v => exact hr w j hj

end Mixnet
