import Mathlib.Combinatorics.SimpleGraph.Basic
import Mathlib.Data.Fintype.Basic
import Mathlib.Data.List.FinRange
import Mixnet.NodeRules

/-! A network of `run_node` instances joined by FIFO links. One event is one loop-body
activity of one node, or the permanent failure of a link. -/
namespace Mixnet

/-- Who sits behind which port. `peer v i` is the neighbour of `v` on its port `i`. -/
structure Topology (V : Type*) where
  addr : V → UInt16
  deg : V → ℕ
  peer : (v : V) → Fin (deg v) → V
  addr_injective : Function.Injective addr
  addr_valid : ∀ v, addr v ≠ 0xFFFF
  deg_le : ∀ v, deg v ≤ 255
  peer_injective : ∀ v, Function.Injective (peer v)
  peer_ne : ∀ v i, peer v i ≠ v
  peer_symm : ∀ v i, ∃ j, peer (peer v i) j = v

variable {V : Type*}

def Topology.graph (T : Topology V) : SimpleGraph V where
  Adj u v := ∃ i, T.peer u i = v
  symm := ⟨by
    rintro u v ⟨i, rfl⟩
    exact T.peer_symm u i⟩
  loopless := ⟨by
    rintro v ⟨i, hi⟩
    exact T.peer_ne v i hi⟩

theorem Topology.adj_peer (T : Topology V) (v : V) (i : Fin (T.deg v)) :
    T.graph.Adj v (T.peer v i) := ⟨i, rfl⟩

/- A packet in flight. `flood` and `len` are history: which injection a FLOOD copy stems
   from, and the sender's int `path_len` when the packet was sent. -/
structure Flight where
  packet : Packet
  flood : ℕ
  len : ℕ
deriving DecidableEq

/- `chan u v` holds what `u` has sent and `v` has not received, oldest first. The last five
   fields are history that no step reads: STP packets processed and sent per port, settings
   of `re_election_time`, FLOOD copies given to the user port, nodes where FLOODs began. -/
structure Net (T : Topology V) where
  node : (v : V) → Node (T.deg v)
  chan : V → V → List Flight
  live : V → V → Bool
  processed : (v : V) → Fin (T.deg v) → ℕ
  sentStp : (v : V) → Fin (T.deg v) → ℕ
  refreshes : V → ℕ
  userLog : V → List ℕ
  origins : List V

inductive Event (T : Topology V) where
  | deliver (v : V) (i : Fin (T.deg v))
  | inject (v : V) (payload : StpPayload)
  | hello (v : V)
  | reelect (v : V)
  | fail (u v : V)
deriving DecidableEq

variable [DecidableEq V] {T : Topology V}

instance : DecidableRel T.graph.Adj :=
  fun u v => inferInstanceAs (Decidable (∃ i, T.peer u i = v))

def Topology.wire (T : Topology V) (v : V) (o : Outcome (T.deg v)) (flood : ℕ) (y : V) :
    List Flight :=
  o.sends.filterMap fun q =>
    if h : q.1.val < T.deg v then
      if T.peer v ⟨q.1, h⟩ = y then some ⟨q.2, flood, o.node.pathLen⟩ else none
    else none

def Outcome.stpOn {n : ℕ} (o : Outcome n) (i : Fin n) : ℕ :=
  o.sends.countP fun q => q.1 = i.castSucc ∧ q.2.type = .stp

def Outcome.toUser {n : ℕ} (o : Outcome n) : ℕ :=
  o.sends.countP fun q => q.1 = Fin.last n

/-- Put the outcome of an activity of `v` in place: what goes to a dead link is lost. -/
def Net.commit (s : Net T) (v : V) (flood : ℕ) (o : Outcome (T.deg v)) : Net T where
  node := Function.update s.node v o.node
  chan := fun x y =>
    if x = v ∧ s.live v y then s.chan x y ++ T.wire v o flood y else s.chan x y
  live := s.live
  processed := s.processed
  sentStp := Function.update s.sentStp v fun i => s.sentStp v i + o.stpOn i
  refreshes := Function.update s.refreshes v (s.refreshes v + if o.refreshed then 1 else 0)
  userLog := Function.update s.userLog v (s.userLog v ++ List.replicate o.toUser flood)
  origins := s.origins

def Net.take (s : Net T) (v : V) (i : Fin (T.deg v)) (f : Flight) (rest : List Flight) :
    Net T :=
  { s with
    chan := fun x y => if x = T.peer v i ∧ y = v then rest else s.chan x y
    processed := if f.packet.type = .stp then
      Function.update s.processed v
        (Function.update (s.processed v) i (s.processed v i + 1)) else s.processed }

def Net.began (s : Net T) (v : V) : Net T := { s with origins := s.origins ++ [v] }

def Net.cut (s : Net T) (u v : V) : Net T :=
  { s with
    live := fun x y => if (x = u ∧ y = v) ∨ (x = v ∧ y = u) then false else s.live x y
    chan := fun x y => if (x = u ∧ y = v) ∨ (x = v ∧ y = u) then [] else s.chan x y }

/-- One event of the network; `none` when it is not enabled. -/
def Net.step (s : Net T) : Event T → Option (Net T)
  | .deliver v i =>
    match s.chan (T.peer v i) v with
    | [] => none
    | f :: rest =>
      ((s.node v).step (.packet i.castSucc f.packet)).map
        ((s.take v i f rest).commit v f.flood)
  | .inject v payload =>
    ((s.node v).step (.packet (Fin.last _) ⟨12, .flood, payload⟩)).map
      ((s.began v).commit v s.origins.length)
  | .hello v => ((s.node v).step .hello).map (s.commit v 0)
  | .reelect v => ((s.node v).step .reelection).map (s.commit v 0)
  | .fail u v => some (s.cut u v)

def Net.init (T : Topology V) : Net T where
  node := fun v => initNode (T.deg v) (T.addr v)
  chan := fun u v => T.wire u (rootHello (initNode (T.deg u) (T.addr u))) 0 v
  live := fun _ _ => true
  processed := fun _ _ => 0
  sentStp := fun _ _ => 1
  refreshes := fun _ => 1
  userLog := fun _ => []
  origins := []

def Net.stps (s : Net T) (u v : V) : List StpPayload :=
  (s.chan u v).filterMap fun f => if f.packet.type = .stp then some f.packet.payload else none

def Net.copies (s : Net T) (flood : ℕ) (u v : V) : ℕ :=
  (s.chan u v).countP fun f => f.packet.type = .flood ∧ f.flood = flood

abbrev Net.Reach (ok : Net T → Event T → Prop) (s t : Net T) : Prop :=
  Runs.Reach Net.step ok s t

inductive NetCase (s : Net T) : Event T → Net T → Prop
  | stp (v : V) (i : Fin (T.deg v)) (f : Flight) (rest : List Flight) (o : Outcome (T.deg v))
      (hchan : s.chan (T.peer v i) v = f :: rest) (ht : f.packet.type = .stp)
      (hc : StpCase (s.node v) i f.packet.payload o) :
      NetCase s (.deliver v i) ((s.take v i f rest).commit v f.flood o)
  | flood (v : V) (i : Fin (T.deg v)) (f : Flight) (rest : List Flight)
      (hchan : s.chan (T.peer v i) v = f :: rest) (ht : f.packet.type = .flood) :
      NetCase s (.deliver v i) ((s.take v i f rest).commit v f.flood
        ⟨s.node v, if (s.node v).neighborsBlocked i then [] else sendFlood (s.node v) i.castSucc,
          false⟩)
  | other (v : V) (i : Fin (T.deg v)) (f : Flight) (rest : List Flight)
      (hchan : s.chan (T.peer v i) v = f :: rest) (hs : f.packet.type ≠ .stp)
      (hf : f.packet.type ≠ .flood) :
      NetCase s (.deliver v i) ((s.take v i f rest).commit v f.flood ⟨s.node v, [], false⟩)
  | inject (v : V) (payload : StpPayload) :
      NetCase s (.inject v payload) ((s.began v).commit v s.origins.length
        ⟨s.node v, sendFlood (s.node v) (Fin.last _), false⟩)
  | hello (v : V) (hroot : (s.node v).rootAddr = (s.node v).myAddr) :
      NetCase s (.hello v) (s.commit v 0 (rootHello (s.node v)))
  | reelect (v : V) (hroot : (s.node v).rootAddr ≠ (s.node v).myAddr) :
      NetCase s (.reelect v) (s.commit v 0 (Mixnet.reelect (s.node v)))
  | fail (u v : V) : NetCase s (.fail u v) (s.cut u v)

theorem step_deliver {s s' : Net T} {v : V} {i : Fin (T.deg v)}
    (h : s.step (.deliver v i) = some s') : NetCase s (.deliver v i) s' := by
  cases hchan : s.chan (T.peer v i) v with
  | nil => simp [Net.step, hchan] at h
  | cons f rest =>
    simp only [Net.step, hchan, Option.map_eq_some_iff] at h
    obtain ⟨o, ho, rfl⟩ := h
    cases ht : f.packet.type with
    | stp =>
      obtain ⟨o', ho', hc⟩ := processPacket_stp (s.node v) i ht
      obtain rfl : o' = o := Option.some.inj (ho'.symm.trans ho)
      exact .stp v i f rest o' hchan ht hc
    | flood =>
      obtain rfl := Option.some.inj ((processPacket_flood (s.node v) i ht).symm.trans ho)
      exact .flood v i f rest hchan ht
    | lsa | data | ping =>
      simp only [Node.step, processPacket, ht, Option.some.injEq] at ho
      subst ho
      exact .other v i f rest hchan (by simp [ht]) (by simp [ht])

theorem step_case {s s' : Net T} {e : Event T} (h : s.step e = some s') : NetCase s e s' := by
  cases e with
  | deliver v i => exact step_deliver h
  | inject v payload =>
    simp only [Net.step, Option.map_eq_some_iff] at h
    obtain ⟨o, ho, rfl⟩ := h
    obtain rfl := Option.some.inj
      ((processPacket_user (s.node v) ⟨12, .flood, payload⟩ rfl).symm.trans ho)
    exact .inject v payload
  | hello v =>
    simp only [Net.step, Node.step, Option.map_eq_some_iff] at h
    obtain ⟨o, ho, rfl⟩ := h
    split_ifs at ho with hroot
    obtain rfl := Option.some.inj ho
    exact .hello v hroot
  | reelect v =>
    simp only [Net.step, Node.step, Option.map_eq_some_iff] at h
    obtain ⟨o, ho, rfl⟩ := h
    split_ifs at ho with hroot
    obtain rfl := Option.some.inj ho
    exact .reelect v hroot
  | fail u v =>
    obtain rfl := Option.some.inj h
    exact .fail u v

end Mixnet
