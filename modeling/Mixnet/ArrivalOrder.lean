import Mathlib.Data.Set.Lattice
import Mathlib.Order.Bounds.Basic
import Mathlib.Order.CompletePartialOrder
import Mathlib.Order.MinMax
import Mixnet.Advertisement

/-! Arrival order. The ports of a node bring their packets in some interleaving. Which offers are
compared with the route is up to every port's own order; the node ends with the least of them. -/
namespace Mixnet
variable {n : ℕ}

section Ports

abbrev Arrival (n : ℕ) := Fin n × Packet

def Arrival.event (e : Arrival n) : NodeEvent n := .packet e.1.castSucc e.2

def arrivals (i : Fin n) (es : List (Arrival n)) : List Packet :=
  (es.filter (·.1 = i)).map Prod.snd

def hear (address : Int16) (p : Packet) : Int16 :=
  if address = -1 then p.payload.nodeAddress.toInt16 else address

/-- The packets of a port that are compared with the route: all that find a sender recorded. -/
def compared : Int16 → List Packet → List Packet
  | _, [] => []
  | address, p :: ps =>
    (if address = -1 then [] else [p]) ++ compared (hear address p) ps

def offers (addresses : Fin n → Int16) (es : List (Arrival n)) : Set Route :=
  {r | ∃ i, ∃ p ∈ compared (addresses i) (arrivals i es), p.payload.offer = r}

/-- The routes that a node has to choose from. -/
def Node.choices (node : Node n) (es : List (Arrival n)) : Set Route :=
  insert node.route (offers node.neighborsAddy es)

variable {addresses : Fin n → Int16} {es : List (Arrival n)} {i j : Fin n}

@[simp] theorem arrivals_nil (i : Fin n) : arrivals i ([] : List (Arrival n)) = [] := rfl

@[simp] theorem arrivals_self (p : Packet) : arrivals i ((i, p) :: es) = p :: arrivals i es := by
  simp [arrivals]

@[simp] theorem arrivals_of_ne (h : j ≠ i) (p : Packet) :
    arrivals i ((j, p) :: es) = arrivals i es := by
  simp [arrivals, h]

theorem mem_arrivals {p : Packet} : p ∈ arrivals i es ↔ (i, p) ∈ es := by
  simp only [arrivals, List.mem_map, List.mem_filter, decide_eq_true_eq]
  constructor
  · rintro ⟨⟨j, q⟩, ⟨hmem, rfl⟩, rfl⟩
    exact hmem
  · intro hmem
    exact ⟨(i, p), ⟨hmem, rfl⟩, rfl⟩

theorem compared_unheard {address : Int16} (h : address = -1) (p : Packet) (ps : List Packet) :
    compared address (p :: ps) = compared (hear address p) ps := by
  simp [compared, h]

theorem compared_heard {address : Int16} (h : address ≠ -1) (p : Packet) (ps : List Packet) :
    compared address (p :: ps) = p :: compared address ps := by
  simp [compared, hear, h]

theorem offers_unheard (h : addresses i = -1) (p : Packet) :
    offers addresses ((i, p) :: es) =
      offers (Function.update addresses i (hear (addresses i) p)) es := by
  ext r
  refine exists_congr fun j => ?_
  by_cases hj : j = i
  · subst hj
    rw [Function.update_self, arrivals_self, compared_unheard h]
  · rw [Function.update_of_ne hj, arrivals_of_ne (Ne.symm hj)]

theorem offers_heard (h : addresses i ≠ -1) (p : Packet) :
    offers addresses ((i, p) :: es) = insert p.payload.offer (offers addresses es) := by
  ext r
  constructor
  · rintro ⟨j, q, hq, rfl⟩
    by_cases hj : j = i
    · subst hj
      rw [arrivals_self, compared_heard h, List.mem_cons] at hq
      cases hq with
      | inl he => exact Or.inl (he ▸ rfl)
      | inr hq => exact Or.inr ⟨j, q, hq, rfl⟩
    · rw [arrivals_of_ne (Ne.symm hj)] at hq
      exact Or.inr ⟨j, q, hq, rfl⟩
  · rintro (rfl | ⟨j, q, hq, rfl⟩)
    · refine ⟨i, p, ?_, rfl⟩
      rw [arrivals_self, compared_heard h]
      exact List.mem_cons_self
    · refine ⟨j, q, ?_, rfl⟩
      by_cases hj : j = i
      · subst hj
        rw [arrivals_self, compared_heard h]
        exact List.mem_cons_of_mem p hq
      · rwa [arrivals_of_ne (Ne.symm hj)]

theorem isLeast_insert_min {α : Type*} [LinearOrder α] {a b r : α} {s : Set α}
    (h : IsLeast (insert (min a b) s) r) : IsLeast (insert a (insert b s)) r := by
  have hr : r ≤ min a b := h.2 (Set.mem_insert _ _)
  refine ⟨?_, ?_⟩
  · cases h.1 with
    | inl he =>
      cases min_choice a b with
      | inl ha => exact Or.inl (he.trans ha)
      | inr hb => exact Or.inr (Or.inl (he.trans hb))
    | inr hs => exact Or.inr (Or.inr hs)
  · rintro x (rfl | rfl | hx)
    · exact hr.trans (min_le_left _ _)
    · exact hr.trans (min_le_right _ _)
    · exact h.2 (Set.mem_insert_of_mem _ hx)

end Ports

section Step
variable {node : Node n} {i : Fin n} {p : Packet} {o : Outcome n} {es : List (Arrival n)}

/-- The packet does not take the fast path of `run_node` on a port with no recorded sender. -/
def Node.Hears (node : Node n) (e : Arrival n) : Prop :=
  node.neighborsAddy e.1 = -1 → e.2.payload.offer ≠ node.route

theorem StpCase.addresses (hc : StpCase node i p.payload o) (hears : node.Hears (i, p)) :
    o.node.neighborsAddy =
      Function.update node.neighborsAddy i (hear (node.neighborsAddy i) p) := by
  by_cases hrec : node.neighborsAddy i = -1
  · rw [hear, if_pos hrec]
    cases hc with
    | echo h => exact absurd h (hears hrec)
    | firstContact _ _ => rfl
    | adopt _ hheard => exact absurd hrec hheard
    | ignore _ hheard => exact absurd hrec hheard
  · rw [hear, if_neg hrec, Function.update_eq_self]
    cases hc with
    | echo _ => rfl
    | firstContact _ hnone => exact absurd hnone hrec
    | adopt _ _ => rfl
    | ignore _ _ => rfl

theorem StpCase.least (hc : StpCase node i p.payload o) (hears : node.Hears (i, p)) {r : Route}
    (h : IsLeast (o.node.choices es) r) : IsLeast (node.choices ((i, p) :: es)) r := by
  rw [Node.choices, hc.addresses hears] at h
  by_cases hrec : node.neighborsAddy i = -1
  · rw [hc.route_unheard hrec] at h
    rwa [Node.choices, offers_unheard hrec]
  · rw [hc.route_heard hrec, hear, if_neg hrec, Function.update_eq_self] at h
    rw [Node.choices, offers_heard hrec]
    exact isLeast_insert_min h

end Step

section Order
variable {node a b : Node n} {es es' : List (Arrival n)}

instance : DecidablePred node.Hears := fun _ => inferInstanceAs (Decidable (_ → _ ≠ _))

def Node.arrive (node : Node n) (e : Arrival n) : Option (Node n) :=
  if node.Hears e then (node.step e.event).map Outcome.node else none

theorem Node.arrive_cases {i : Fin n} {p : Packet} (hstp : p.type = .stp)
    (h : node.arrive (i, p) = some a) :
    node.Hears (i, p) ∧ ∃ o, StpCase node i p.payload o ∧ o.node = a := by
  rw [Node.arrive] at h
  split_ifs at h with hears
  obtain ⟨o, ho, rfl⟩ := Option.map_eq_some_iff.mp h
  obtain ⟨o', ho', hc⟩ := processPacket_stp node i hstp
  obtain rfl : o' = o := Option.some.inj (ho'.symm.trans ho)
  exact ⟨hears, o', hc, rfl⟩

theorem Node.arrive_run (hstp : ∀ e ∈ es, e.2.type = .stp)
    (h : Runs.run Node.arrive es node = some a) :
    (∀ i, a.neighborsAddy i = (arrivals i es).foldl hear (node.neighborsAddy i)) ∧
      IsLeast (node.choices es) a.route := by
  induction es generalizing node with
  | nil =>
    obtain rfl : node = a := by simpa [Runs.run] using h
    refine ⟨fun i => rfl, Set.mem_insert _ _, ?_⟩
    rintro r (rfl | ⟨i, p, hp, -⟩)
    · exact le_refl _
    · simp [compared] at hp
  | cons e es ih =>
    obtain ⟨i, p⟩ := e
    obtain ⟨mid, hmid, hrest⟩ := Option.bind_eq_some_iff.mp h
    obtain ⟨hears, o, hc, rfl⟩ := Node.arrive_cases (hstp (i, p) (by simp)) hmid
    obtain ⟨haddr, hleast⟩ := ih (fun e he => hstp e (by simp [he])) hrest
    refine ⟨fun j => ?_, hc.least hears hleast⟩
    rw [haddr j, hc.addresses hears]
    by_cases hj : j = i
    · subst hj
      rw [Function.update_self, arrivals_self, List.foldl_cons]
    · rw [Function.update_of_ne hj, arrivals_of_ne (Ne.symm hj)]

theorem choices_congr (hsame : ∀ i, arrivals i es = arrivals i es') :
    node.choices es = node.choices es' := by
  simp only [Node.choices, offers, hsame]

theorem Node.route_inj (h : a.route = b.route) :
    a.rootAddr = b.rootAddr ∧ a.pathLen = b.pathLen ∧ a.nextHop = b.nextHop := by
  simpa [Node.route, UInt16.toNat_inj] using h

theorem Node.arrive_agree (hstp : ∀ e ∈ es, e.2.type = .stp) (hstp' : ∀ e ∈ es', e.2.type = .stp)
    (hsame : ∀ i, arrivals i es = arrivals i es') (ha : Runs.run Node.arrive es node = some a)
    (hb : Runs.run Node.arrive es' node = some b) :
    a.route = b.route ∧ a.neighborsAddy = b.neighborsAddy := by
  obtain ⟨haddr, hleast⟩ := Node.arrive_run hstp ha
  obtain ⟨haddr', hleast'⟩ := Node.arrive_run hstp' hb
  rw [choices_congr hsame] at hleast
  refine ⟨hleast.unique hleast', funext fun i => ?_⟩
  rw [haddr i, haddr' i, hsame i]

end Order

section Senders
variable {senders : Fin n → Set UInt16} {node : Node n}

/-- An STP packet on port `i` comes from one of `senders i`. -/
def SentBy (senders : Fin n → Set UInt16) : NodeEvent n → Prop
  | .packet port packet => packet.type = .stp →
      ∀ i : Fin n, port = i.castSucc → packet.payload.nodeAddress ∈ senders i
  | .hello | .reelection => True

def Node.ParentRecorded (senders : Fin n → Set UInt16) (node : Node n) : Prop :=
  node.pathLen = 0 ∨ ∃ i, node.nextHop ∈ senders i ∧ node.neighborsAddy i ≠ -1

theorem StpCase.parentRecorded {i : Fin n} {p : StpPayload} {o : Outcome n}
    (hc : StpCase node i p o) (hp : p.nodeAddress ∈ senders i)
    (h : node.ParentRecorded senders) : o.node.ParentRecorded senders := by
  cases hc with
  | echo _ => exact h
  | firstContact _ hnone =>
    cases h with
    | inl hzero => exact Or.inl hzero
    | inr hrec =>
      obtain ⟨j, hj, haddr⟩ := hrec
      refine Or.inr ⟨j, hj, ?_⟩
      have hji : j ≠ i := fun he => haddr (he ▸ hnone)
      simpa [Node.record, hji] using haddr
  | adopt _ hheard => exact Or.inr ⟨i, hp, hheard⟩
  | ignore _ _ => exact h

theorem Node.ParentRecorded.step {e : NodeEvent n} {o : Outcome n}
    (h : node.ParentRecorded senders) (he : SentBy senders e) (hs : node.step e = some o) :
    o.node.ParentRecorded senders := by
  cases e with
  | packet port packet =>
    by_cases ht : packet.type = .stp
    · cases port using Fin.lastCases with
      | last =>
        obtain rfl := processPacket_user_stp ht hs
        exact h
      | cast i =>
        obtain ⟨o', ho', hc⟩ := processPacket_stp node i ht
        obtain rfl : o' = o := Option.some.inj (ho'.symm.trans hs)
        exact hc.parentRecorded (he ht i rfl) h
    · rw [(processPacket_node ht hs).1]
      exact h
  | hello =>
    simp only [Node.step] at hs
    split_ifs at hs
    obtain rfl := Option.some.inj hs
    exact h
  | reelection =>
    simp only [Node.step] at hs
    split_ifs at hs
    obtain rfl := Option.some.inj hs
    exact Or.inl rfl

theorem Node.ParentRecorded.after {node' : Node n} {events : List (NodeEvent n)}
    (h : node.ParentRecorded senders) (he : ∀ e ∈ events, SentBy senders e)
    (hr : node.after events = some node') : node'.ParentRecorded senders := by
  induction events generalizing node with
  | nil =>
    obtain rfl : node = node' := by simpa [Node.after, Runs.run] using hr
    exact h
  | cons e es ih =>
    obtain ⟨mid, hm, hrest⟩ := Option.bind_eq_some_iff.mp hr
    obtain ⟨o, ho, rfl⟩ := Option.map_eq_some_iff.mp hm
    exact ih (h.step (he e (by simp)) ho) (fun e' he' => he e' (by simp [he'])) hrest

/-- Where no two ports share a sender, only a recorded port can bring the route of the node. -/
theorem Node.ParentRecorded.hears (hd : Pairwise (Function.onFun Disjoint senders))
    (h : node.ParentRecorded senders) {e : Arrival n}
    (he : e.2.payload.nodeAddress ∈ senders e.1) : node.Hears e := by
  intro hnone heq
  obtain ⟨hroot, hlen, hnext⟩ := (matchesParent_iff _ _).mpr heq
  cases h with
  | inl hzero => omega
  | inr hrec =>
    obtain ⟨i, hi, haddr⟩ := hrec
    have hne : i ≠ e.1 := fun h => haddr (h ▸ hnone)
    exact Set.disjoint_left.mp (hd hne) hi (hnext ▸ he)

theorem Node.arrive_total (hd : Pairwise (Function.onFun Disjoint senders))
    {es : List (Arrival n)}
    (hes : ∀ e ∈ es, e.2.type = .stp ∧ e.2.payload.nodeAddress ∈ senders e.1)
    (h : node.ParentRecorded senders) :
    ∃ a, Runs.run Node.arrive es node = some a ∧ node.after (es.map Arrival.event) = some a := by
  induction es generalizing node with
  | nil => exact ⟨node, rfl, rfl⟩
  | cons e es ih =>
    obtain ⟨hstp, hsender⟩ := hes e (by simp)
    have hears := h.hears hd hsender
    obtain ⟨o, ho, hc⟩ := processPacket_stp node e.1 hstp
    have hstep : (node.step e.event).map Outcome.node = some o.node := by
      rw [Arrival.event, Node.step, ho, Option.map_some]
    have harrive : node.arrive e = some o.node := by rw [Node.arrive, if_pos hears, hstep]
    obtain ⟨a, hrun, hafter⟩ := ih (fun e' he' => hes e' (by simp [he']))
      (hc.parentRecorded hsender h)
    refine ⟨a, ?_, ?_⟩
    · rw [Runs.run, harrive, Option.bind_some, hrun]
    · rw [List.map_cons, Node.after, Runs.run, hstep, Option.bind_some]
      exact hafter

/-- Where no two ports ever share a sender, the order between ports does not matter: from any
reachable state, two interleavings of the same arrivals leave the same route and addresses. -/
theorem arrival_order_immaterial (hd : Pairwise (Function.onFun Disjoint senders))
    (nodeAddr : UInt16) (events : List (NodeEvent n)) (hevents : ∀ e ∈ events, SentBy senders e)
    (hr : (initNode n nodeAddr).after events = some node) (es es' : List (Arrival n))
    (hes : ∀ e ∈ es, e.2.type = .stp ∧ e.2.payload.nodeAddress ∈ senders e.1)
    (hsame : ∀ i, arrivals i es = arrivals i es') :
    ∃ a b, node.after (es.map Arrival.event) = some a ∧
      node.after (es'.map Arrival.event) = some b ∧ a.rootAddr = b.rootAddr ∧
      a.pathLen = b.pathLen ∧ a.nextHop = b.nextHop ∧ a.neighborsAddy = b.neighborsAddy := by
  have hinit : (initNode n nodeAddr).ParentRecorded senders := Or.inl rfl
  have hnode := hinit.after hevents hr
  have hes' : ∀ e ∈ es', e.2.type = .stp ∧ e.2.payload.nodeAddress ∈ senders e.1 := by
    intro e he
    rw [← Prod.mk.eta (p := e), ← mem_arrivals, ← hsame] at he
    exact hes e (mem_arrivals.mp he)
  obtain ⟨a, ha, hafter⟩ := Node.arrive_total hd hes hnode
  obtain ⟨b, hb, hafter'⟩ := Node.arrive_total hd hes' hnode
  obtain ⟨hroute, haddr⟩ := Node.arrive_agree (fun e he => (hes e he).1)
    (fun e he => (hes' e he).1) hsame ha hb
  obtain ⟨hroot, hlen, hnext⟩ := Node.route_inj hroute
  exact ⟨a, b, hafter, hafter', hroot, hlen, hnext, haddr⟩

/-- Node 5, which has heard its neighbour 1, hears it twice more, before or after neighbour 3. -/
theorem arrival_order_immaterial_five :
    let p := initializeStpPacket 1 0 1
    let q := initializeStpPacket 3 0 3
    let es : List (Arrival 2) := [(0, p), (0, p), (1, q)]
    let es' : List (Arrival 2) := [(1, q), (0, p), (0, p)]
    ∃ node a b, (initNode 2 5).after [.packet 0 p] = some node ∧
      node.after (es.map Arrival.event) = some a ∧ node.after (es'.map Arrival.event) = some b ∧
      a.rootAddr = b.rootAddr ∧ a.pathLen = b.pathLen ∧ a.nextHop = b.nextHop ∧
      a.neighborsAddy = b.neighborsAddy := by
  intro p q es es'
  have hrun : ((initNode 2 5).after [.packet 0 p]).isSome = true := by decide
  obtain ⟨node, hnode⟩ := Option.isSome_iff_exists.mp hrun
  let senders : Fin 2 → Set UInt16 := fun i => {if i = 0 then 1 else 3}
  have hd : Pairwise (Function.onFun Disjoint senders) := by
    intro i j hij
    change Disjoint (senders i) (senders j)
    rw [Set.disjoint_singleton]
    revert i j
    decide
  have hevents : ∀ e ∈ [NodeEvent.packet (0 : Fin 3) p], SentBy senders e := by
    intro e he
    obtain rfl := List.mem_singleton.mp he
    intro _ i hi
    obtain rfl : i = 0 := Fin.castSucc_injective 2 hi.symm
    rfl
  have hes : ∀ e ∈ es, e.2.type = .stp ∧ e.2.payload.nodeAddress ∈ senders e.1 := by
    intro e he
    simp only [es, List.mem_cons, List.not_mem_nil, or_false] at he
    obtain rfl | rfl | rfl := he <;> exact ⟨rfl, rfl⟩
  obtain ⟨a, b, h⟩ := arrival_order_immaterial hd 5 _ hevents hnode es es' hes (by decide)
  exact ⟨node, a, b, hnode, h⟩

/-- Node 5 with two neighbours of address 1: once the route goes through port 0, the first packet
of port 1 takes the fast path and its sender is not recorded. -/
theorem arrival_order_shared_address :
    ∃ es es' : List (Arrival 2), (∀ e ∈ es ++ es', e.2.type = .stp ∧
        e.2.payload.nodeAddress ≠ (initNode 2 5).myAddr ∧ e.2.payload.nodeAddress ≠ 0xFFFF) ∧
      (∀ i, arrivals i es = arrivals i es') ∧
      ∃ a b, (initNode 2 5).after (es.map Arrival.event) = some a ∧
        (initNode 2 5).after (es'.map Arrival.event) = some b ∧
        a.neighborsAddy ≠ b.neighborsAddy := by
  let p := initializeStpPacket 1 0 1
  refine ⟨[(0, p), (0, p), (1, p)], [(0, p), (1, p), (0, p)], ?_, ?_, _, _, rfl, rfl, ?_⟩
  · decide
  · decide
  · intro h
    exact absurd (congrFun h 1) (by decide)

end Senders

end Mixnet
