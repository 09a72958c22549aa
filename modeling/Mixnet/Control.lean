import Mathlib.Data.List.Nodup
import Mixnet.Network

/-! The control plane: what the network does to STP state when FLOOD traffic is forgotten.
FLOOD activities leave it alone, every other event of the network is one of its steps. -/
namespace Mixnet
variable {V : Type*}

/-- `queue u v` are the STP payloads in flight from `u` to `v`, oldest first. -/
structure Control (T : Topology V) where
  node : (v : V) → Node (T.deg v)
  queue : V → V → List StpPayload
  live : V → V → Bool
  processed : (v : V) → Fin (T.deg v) → ℕ
  sentStp : (v : V) → Fin (T.deg v) → ℕ
  refreshes : V → ℕ

variable [DecidableEq V] {T : Topology V}

def Control.take (c : Control T) (v : V) (i : Fin (T.deg v)) (rest : List StpPayload) :
    Control T :=
  { c with
    queue := fun x y => if x = T.peer v i ∧ y = v then rest else c.queue x y
    processed := Function.update c.processed v
      (Function.update (c.processed v) i (c.processed v i + 1)) }

/-- Put an STP outcome in place; a node that sends, sends its current route to everyone. -/
def Control.commit (c : Control T) (v : V) (o : Outcome (T.deg v)) : Control T where
  node := Function.update c.node v o.node
  queue := fun x y =>
    c.queue x y ++ if x = v ∧ T.graph.Adj v y ∧ c.live v y ∧ o.sends ≠ [] then
      [o.node.advert.payload] else []
  live := c.live
  processed := c.processed
  sentStp := Function.update c.sentStp v fun i =>
    c.sentStp v i + if o.sends ≠ [] then 1 else 0
  refreshes := Function.update c.refreshes v (c.refreshes v + if o.refreshed then 1 else 0)

def Control.cut (c : Control T) (u v : V) : Control T :=
  { c with
    live := fun x y => if (x = u ∧ y = v) ∨ (x = v ∧ y = u) then false else c.live x y
    queue := fun x y => if (x = u ∧ y = v) ∨ (x = v ∧ y = u) then [] else c.queue x y }

inductive ControlStep (c : Control T) : Event T → Control T → Prop
  | receive (v : V) (i : Fin (T.deg v)) (p : StpPayload) (rest : List StpPayload)
      (o : Outcome (T.deg v)) (hq : c.queue (T.peer v i) v = p :: rest)
      (hc : StpCase (c.node v) i p o) :
      ControlStep c (.deliver v i) ((c.take v i rest).commit v o)
  | hello (v : V) (hroot : (c.node v).rootAddr = (c.node v).myAddr) :
      ControlStep c (.hello v) (c.commit v (rootHello (c.node v)))
  | reelect (v : V) (hroot : (c.node v).rootAddr ≠ (c.node v).myAddr) :
      ControlStep c (.reelect v) (c.commit v (Mixnet.reelect (c.node v)))
  | fail (u v : V) : ControlStep c (.fail u v) (c.cut u v)

def Net.control (s : Net T) : Control T where
  node := s.node
  queue := s.stps
  live := s.live
  processed := s.processed
  sentStp := s.sentStp
  refreshes := s.refreshes

def stpsOf (l : List Flight) : List StpPayload :=
  l.filterMap fun f => if f.packet.type = .stp then some f.packet.payload else none

theorem stpsOf_append (l m : List Flight) : stpsOf (l ++ m) = stpsOf l ++ stpsOf m := by
  simp [stpsOf]

theorem filterMap_unique {α β γ : Type*} [DecidableEq γ] (f : α → γ)
    (hf : Function.Injective f) (c : β) (y : γ) (l : List α) (hl : l.Nodup) :
    (l.filterMap fun a => if f a = y then some c else none) =
      if ∃ a ∈ l, f a = y then [c] else [] := by
  induction l with
  | nil => simp
  | cons a l ih =>
    have hn := List.nodup_cons.mp hl
    by_cases ha : f a = y
    · have hnone : ¬ ∃ b ∈ l, f b = y := by
        rintro ⟨b, hb, hby⟩
        exact hn.1 (hf (ha.trans hby.symm) ▸ hb)
      simp [ha, ih hn.2, hnone]
    · simp [ha, ih hn.2]

theorem wire_ports (v y : V) (P : Fin (T.deg v) → Bool) (packet : Packet) (flood len : ℕ) :
    ((((List.finRange (T.deg v)).filter P).map fun i => (i.castSucc, packet)).filterMap
      fun q : Send (T.deg v) => if h : q.1.val < T.deg v then
        if T.peer v ⟨q.1, h⟩ = y then some (⟨q.2, flood, len⟩ : Flight) else none else none) =
      if ∃ i, T.peer v i = y ∧ P i then [⟨packet, flood, len⟩] else [] := by
  have hfun : (fun i : Fin (T.deg v) => if h : i.castSucc.val < T.deg v then
      if T.peer v ⟨i.castSucc, h⟩ = y then some (⟨packet, flood, len⟩ : Flight) else none
      else none) =
      fun i => if T.peer v i = y then some (⟨packet, flood, len⟩ : Flight) else none := by
    funext i
    simp
  have hnd := (List.nodup_finRange (T.deg v)).filter P
  rw [List.filterMap_map]
  refine Eq.trans ?_ ((filterMap_unique (T.peer v) (T.peer_injective v)
    (⟨packet, flood, len⟩ : Flight) y _ hnd).trans ?_)
  · exact congrArg (fun g => List.filterMap g _) hfun
  · simp [and_comm]

theorem wire_sendStp (v y : V) (node node' : Node (T.deg v)) (r : Bool) (flood : ℕ) :
    T.wire v ⟨node, sendStp node', r⟩ flood y =
      if T.graph.Adj v y then [⟨node'.advert, flood, node.pathLen⟩] else [] := by
  have h := wire_ports (T := T) v y (fun _ => true) node'.advert flood node.pathLen
  rw [List.filter_true] at h
  exact h.trans (if_congr (by simp [Topology.graph]) rfl rfl)

theorem wire_sendFlood (v y : V) (node node' : Node (T.deg v))
    (port : Fin (T.deg v + 1)) (r : Bool) (flood : ℕ) :
    T.wire v ⟨node, sendFlood node' port, r⟩ flood y =
      if ∃ i, T.peer v i = y ∧ node'.neighborsBlocked i = false ∧ i.castSucc ≠ port then
        [⟨initializeFloodPacket node'.rootAddr (UInt16.ofNat node'.pathLen) node'.myAddr,
          flood, node.pathLen⟩] else [] := by
  have h := wire_ports (T := T) v y (fun i => !node'.neighborsBlocked i && i.castSucc ≠ port)
    (initializeFloodPacket node'.rootAddr (UInt16.ofNat node'.pathLen) node'.myAddr) flood
    node.pathLen
  simp only [Bool.and_eq_true, Bool.not_eq_true', decide_eq_true_eq] at h
  rw [← h]
  by_cases hp : port = Fin.last (T.deg v) <;> simp [Topology.wire, sendFlood, hp]

theorem mem_wire {v y : V} {o : Outcome (T.deg v)} {flood : ℕ} {f : Flight}
    (h : f ∈ T.wire v o flood y) : f.flood = flood ∧ ∃ q ∈ o.sends, q.2 = f.packet := by
  obtain ⟨q, hq, hqf⟩ := List.mem_filterMap.mp h
  split_ifs at hqf
  obtain rfl := Option.some.inj hqf
  exact ⟨rfl, q, hq, rfl⟩

theorem mem_commit_chan {s : Net T} {v : V} {flood : ℕ} {o : Outcome (T.deg v)} {x y : V}
    {f : Flight} (h : f ∈ (s.commit v flood o).chan x y) :
    f ∈ s.chan x y ∨ x = v ∧ f ∈ T.wire v o flood y := by
  simp only [Net.commit] at h
  split_ifs at h with hx
  · exact (List.mem_append.mp h).imp id fun hnew => ⟨hx.1, hnew⟩
  · exact Or.inl h

theorem mem_take_chan {s : Net T} {v : V} {i : Fin (T.deg v)} {f : Flight}
    {rest : List Flight} (hchan : s.chan (T.peer v i) v = f :: rest) {x y : V} {g : Flight}
    (h : g ∈ (s.take v i f rest).chan x y) : g ∈ s.chan x y := by
  simp only [Net.take] at h
  split_ifs at h with hxy
  · rw [hxy.1, hxy.2, hchan]
    exact List.mem_cons_of_mem f h
  · exact h

theorem stpsOf_wire_of_no_stp (v y : V) (o : Outcome (T.deg v)) (flood : ℕ)
    (h : ∀ q ∈ o.sends, q.2.type ≠ .stp) : stpsOf (T.wire v o flood y) = [] := by
  rw [stpsOf, Topology.wire, List.filterMap_filterMap, List.filterMap_eq_nil_iff]
  intro q hq
  have hne := h q hq
  split_ifs <;> simp [hne]

theorem stpOn_sendStp {n : ℕ} (node node' : Node n) (r : Bool) (i : Fin n) :
    (Outcome.mk node (sendStp node') r).stpOn i = 1 := by
  have hc : (List.finRange n).countP (fun j => decide (j = i)) = 1 := by
    have h1 := List.count_eq_one_of_mem (List.nodup_finRange n) (List.mem_finRange i)
    simpa [List.count, beq_eq_decide] using h1
  simpa [Outcome.stpOn, sendStp, Node.advert, initializeStpPacket, List.countP_map,
    Function.comp_def] using hc

theorem stpOn_of_no_stp {n : ℕ} (o : Outcome n) (i : Fin n)
    (h : ∀ q ∈ o.sends, q.2.type ≠ .stp) : o.stpOn i = 0 := by
  rw [Outcome.stpOn, List.countP_eq_zero]
  intro q hq
  simp [h q hq]

theorem sendStp_ne_nil {n : ℕ} (node : Node n) (i : Fin n) : sendStp node ≠ [] := by
  intro h
  have hmem : (i.castSucc, node.advert) ∈ sendStp node :=
    List.mem_map.mpr ⟨i, List.mem_finRange i, rfl⟩
  simp [h] at hmem

/-- Outcomes of STP activities: nothing is sent, or the new route to every neighbour. -/
def Outcome.IsStp {n : ℕ} (o : Outcome n) : Prop := o.sends = sendStp o.node ∨ o.sends = []

theorem StpCase.isStp {n : ℕ} {node : Node n} {i : Fin n} {p : StpPayload} {o : Outcome n}
    (hc : StpCase node i p o) : o.IsStp := by
  cases hc with
  | echo _ => exact Or.inl rfl
  | firstContact _ _ => exact Or.inr rfl
  | adopt _ _ => exact Or.inl rfl
  | ignore _ _ => exact Or.inr rfl

theorem control_commit_stp (s : Net T) (v : V) (flood : ℕ) (o : Outcome (T.deg v))
    (ho : o.IsStp) : (s.commit v flood o).control = s.control.commit v o := by
  have hqueue : (s.commit v flood o).stps = (s.control.commit v o).queue := by
    funext x y
    by_cases hx : x = v ∧ s.live v y
    · obtain ⟨rfl, hl⟩ := hx
      change stpsOf _ = stpsOf _ ++ _
      simp only [Net.commit, hl, and_self, if_true, stpsOf_append]
      congr 1
      cases ho with
      | inl hs =>
        have hw := wire_sendStp x y o.node o.node o.refreshed flood
        rw [← hs] at hw
        rw [hw]
        by_cases hadj : T.graph.Adj x y
        · obtain ⟨i, hi⟩ := hadj
          have hne : o.sends ≠ [] := hs ▸ sendStp_ne_nil o.node i
          have hadj' : T.graph.Adj x y := ⟨i, hi⟩
          simp [stpsOf, hadj', hl, hne, Net.control, Node.advert, initializeStpPacket]
        · simp [stpsOf, hadj]
      | inr hs => simp [Topology.wire, hs, stpsOf]
    · have hx' : ¬ (x = v ∧ T.graph.Adj v y ∧ s.live v y = true ∧ o.sends ≠ []) :=
        fun h => hx ⟨h.1, h.2.2.1⟩
      simp [Net.stps, Net.commit, Control.commit, Net.control, hx, hx']
  have hsent : (s.commit v flood o).sentStp = (s.control.commit v o).sentStp := by
    have hcount : (fun i => s.sentStp v i + o.stpOn i) =
        fun i => s.sentStp v i + if o.sends ≠ [] then 1 else 0 := by
      funext i
      cases ho with
      | inl hs =>
        have h1 := stpOn_sendStp o.node o.node o.refreshed i
        rw [← hs] at h1
        have hne : o.sends ≠ [] := hs ▸ sendStp_ne_nil o.node i
        rw [if_pos hne]
        exact congrArg _ h1
      | inr hs => simp [Outcome.stpOn, hs]
    exact congrArg (Function.update s.sentStp v) hcount
  simp only [Net.control, Control.commit] at hqueue hsent ⊢
  rw [hqueue, hsent]
  rfl

theorem control_commit_quiet (s : Net T) (v : V) (flood : ℕ) (o : Outcome (T.deg v))
    (hnode : o.node = s.node v) (hr : o.refreshed = false)
    (hs : ∀ q ∈ o.sends, q.2.type ≠ .stp) : (s.commit v flood o).control = s.control := by
  have hqueue : (s.commit v flood o).stps = s.stps := by
    funext x y
    change stpsOf (if _ then _ else _) = stpsOf _
    split_ifs
    · rw [stpsOf_append, stpsOf_wire_of_no_stp v y o flood hs, List.append_nil]
    · rfl
  have hsent : (s.commit v flood o).sentStp = s.sentStp := by
    have hcount : (fun i => s.sentStp v i + o.stpOn i) = s.sentStp v := by
      funext i
      rw [stpOn_of_no_stp o i hs, Nat.add_zero]
    exact (congrArg (Function.update s.sentStp v) hcount).trans (Function.update_eq_self _ _)
  have hupd : (s.commit v flood o).node = s.node := by
    exact (congrArg (Function.update s.node v) hnode).trans (Function.update_eq_self _ _)
  have href : (s.commit v flood o).refreshes = s.refreshes := by
    simp [Net.commit, hr]
  simp only [Net.control, hqueue, hsent, hupd, href]
  rfl

omit [DecidableEq V] in
theorem stps_of_chan {s : Net T} {u v : V} {f : Flight} {rest : List Flight}
    (h : s.chan u v = f :: rest) (ht : f.packet.type = .stp) :
    s.stps u v = f.packet.payload :: stpsOf rest := by
  simp [Net.stps, h, ht, stpsOf]

theorem control_take_stp {s : Net T} {v : V} {i : Fin (T.deg v)} {f : Flight}
    {rest : List Flight} (ht : f.packet.type = .stp) :
    (s.take v i f rest).control = s.control.take v i (stpsOf rest) := by
  have hqueue : (s.take v i f rest).stps = (s.control.take v i (stpsOf rest)).queue := by
    funext x y
    change stpsOf (if _ then _ else _) = if _ then _ else _
    split_ifs <;> rfl
  simp only [Net.control, Control.take] at hqueue ⊢
  rw [hqueue]
  simp [Net.take, ht]

theorem control_take_quiet {s : Net T} {v : V} {i : Fin (T.deg v)} {f : Flight}
    {rest : List Flight} (h : s.chan (T.peer v i) v = f :: rest) (ht : f.packet.type ≠ .stp) :
    (s.take v i f rest).control = s.control := by
  have hqueue : (s.take v i f rest).stps = s.stps := by
    funext x y
    change stpsOf (if _ then _ else _) = stpsOf _
    split_ifs with hxy
    · rw [hxy.1, hxy.2, h]
      simp [stpsOf, ht]
    · rfl
  simp only [Net.control, hqueue]
  simp [Net.take, ht]

def Net.Stp (s : Net T) : Event T → Prop
  | .deliver v i => ∃ f rest, s.chan (T.peer v i) v = f :: rest ∧ f.packet.type = .stp
  | .inject _ _ => False
  | .hello _ | .reelect _ | .fail _ _ => True

theorem control_cut (s : Net T) (u v : V) : (s.cut u v).control = s.control.cut u v := by
  have hqueue : (s.cut u v).stps = (s.control.cut u v).queue := by
    funext x y
    change stpsOf (if _ then _ else _) = if _ then _ else _
    split_ifs <;> rfl
  simp only [Net.control, Control.cut] at hqueue ⊢
  rw [hqueue]
  rfl

/-- Refinement: an STP event of the network is a step of the control plane under the same
label, any other event leaves the control plane as it is. -/
theorem control_step {s s' : Net T} {e : Event T} (h : s.step e = some s') :
    s.Stp e ∧ ControlStep s.control e s'.control ∨ ¬ s.Stp e ∧ s'.control = s.control := by
  have hquiet : ∀ {v i f rest}, s.chan (T.peer v i) v = f :: rest → f.packet.type ≠ .stp →
      ¬ s.Stp (.deliver v i) := by
    intro v i f rest hchan ht hstp
    obtain ⟨f', rest', hchan', ht'⟩ := hstp
    rw [hchan] at hchan'
    rw [(List.cons.inj hchan').1] at ht
    exact ht ht'
  cases step_case h with
  | stp v i f rest o hchan ht hc =>
    left
    rw [control_commit_stp _ _ _ _ hc.isStp, control_take_stp ht]
    exact ⟨⟨f, rest, hchan, ht⟩, .receive v i f.packet.payload (stpsOf rest) o
      (stps_of_chan hchan ht) hc⟩
  | flood v i f rest hchan ht =>
    right
    refine ⟨hquiet hchan (by simp [ht]), ?_⟩
    rw [control_commit_quiet _ _ _ _ rfl rfl, control_take_quiet hchan (by simp [ht])]
    intro q hq
    cases hb : (s.node v).neighborsBlocked i with
    | true => simp [hb] at hq
    | false => exact sendFlood_no_stp _ _ q (by simpa [hb] using hq)
  | other v i f rest hchan hs hf =>
    right
    refine ⟨hquiet hchan hs, ?_⟩
    rw [control_commit_quiet _ _ _ _ rfl rfl (by simp), control_take_quiet hchan hs]
  | inject v payload =>
    right
    refine ⟨id, ?_⟩
    rw [control_commit_quiet _ _ _ _ rfl rfl (sendFlood_no_stp _ _)]
    rfl
  | hello v hroot =>
    left
    rw [control_commit_stp _ _ _ _ (Or.inl rfl)]
    exact ⟨trivial, .hello v hroot⟩
  | reelect v hroot =>
    left
    rw [control_commit_stp _ _ _ _ (Or.inl rfl)]
    exact ⟨trivial, .reelect v hroot⟩
  | fail u v =>
    left
    rw [control_cut]
    exact ⟨trivial, .fail u v⟩

def Control.init (T : Topology V) : Control T where
  node := fun v => initNode (T.deg v) (T.addr v)
  queue := fun u v => if T.graph.Adj u v then [⟨T.addr u, 0, T.addr u⟩] else []
  live := fun _ _ => true
  processed := fun _ _ => 0
  sentStp := fun _ _ => 1
  refreshes := fun _ => 1

theorem control_init (T : Topology V) : (Net.init T).control = Control.init T := by
  have hqueue : (Net.init T).stps = (Control.init T).queue := by
    funext u v
    change stpsOf (T.wire _ _ _ _) = if _ then _ else _
    rw [rootHello, wire_sendStp]
    split_ifs <;> simp [stpsOf, Node.advert, initializeStpPacket, initNode]
  simp only [Net.control, Control.init] at hqueue ⊢
  rw [hqueue]
  rfl

/-- What holds of the initial control plane and survives its steps holds in every state the
network reaches; a step comes with the state of the network it starts from. -/
theorem control_invariant_net {ok : Net T → Event T → Prop} {P : Control T → Prop}
    {s t : Net T} (h : Net.Reach ok s t) (hs : P s.control)
    (hstep : ∀ (u : Net T) c' e, P u.control → ok u e → u.Stp e →
      ControlStep u.control e c' → P c') : P t.control := by
  refine Runs.Reach.invariant (P := fun u => P u.control) h hs ?_
  intro u u' e hu hok hst
  obtain ⟨hstp, hc⟩ | ⟨_, heq⟩ := control_step hst
  · exact hstep u _ e hu hok hstp hc
  · rw [heq]
    exact hu

theorem control_invariant {A : Control T → Event T → Prop} {P : Control T → Prop}
    {s t : Net T} (h : Net.Reach (fun u e => A u.control e) s t) (hs : P s.control)
    (hstep : ∀ c c' e, P c → A c e → ControlStep c e c' → P c') : P t.control :=
  control_invariant_net h hs fun u c' e hu hok _ hc => hstep u.control c' e hu hok hc

end Mixnet
