import Mathlib.Algebra.BigOperators.Group.Finset.Basic
import Mathlib.Algebra.Order.BigOperators.Group.Finset
import Mixnet.ByteRefinement
import Mixnet.Recovery

/-! Writing and arriving comes to an end, and what the nodes of the packet network can do, the nodes
of the byte network can do too; so what is known of the one holds of the other. -/
namespace Mixnet
variable {V : Type*} [DecidableEq V] {T : Topology V}

section Weight
variable [Fintype V]

def handLength (w : Option (V × List UInt8)) : ℕ := (w.map fun p => p.2.length).getD 0

/-- What is still to be done for the calls of `v` that are behind it or ahead of it. -/
def ByteNet.weight (b : ByteNet T) (v : V) : ℕ :=
  ((b.sends v).map fun q => 2 * q.2.bytes.length + 1).sum + 2 * handLength (b.writing v) +
    ∑ y, (b.inFlight v y).length

theorem sum_onLink (f : V → V → List UInt8) (u v : V) (bytes : List UInt8) :
    ∑ y, (onLink f u v bytes u y).length + (f u v).length =
      ∑ y, (f u y).length + bytes.length := by
  have hrest : ∑ y ∈ Finset.univ.erase v, (onLink f u v bytes u y).length =
      ∑ y ∈ Finset.univ.erase v, (f u y).length := by
    refine Finset.sum_congr rfl fun y hy => ?_
    rw [onLink_ne fun h => (Finset.mem_erase.mp hy).1 h.2]
  rw [← Finset.add_sum_erase _ _ (Finset.mem_univ v),
    ← Finset.add_sum_erase _ (fun y => (f u y).length) (Finset.mem_univ v), hrest, onLink_self]
  omega

theorem weight_lt {b b' : ByteNet T} {v : V} (hv : b'.weight v < b.weight v)
    (hrest : ∀ x, x ≠ v → b'.weight x = b.weight x) : ∑ x, b'.weight x < ∑ x, b.weight x := by
  refine Finset.sum_lt_sum (fun x _ => ?_) ⟨v, Finset.mem_univ v, hv⟩
  by_cases hx : x = v
  · rw [hx]
    exact hv.le
  · exact (hrest x hx).le

variable {b b' : ByteNet T} {s : Net T} {v : V}

theorem weight_nodeSend (h : Refines b s) {subscribed : Bool} {heap : Buffer}
    (hs : b.step (.nodeSend v subscribed heap) = some b') :
    ∑ x, b'.weight x < ∑ x, b.weight x := by
  obtain ⟨packet, rest, hsends, rfl⟩ | ⟨i, packet, rest, hw, hsends, rfl⟩ := h.nodeSend_cases hs
  · refine weight_lt (v := v) ?_ fun x hx => by simp [ByteNet.weight, ByteNet.give, hx]
    simp [ByteNet.weight, ByteNet.give, hsends]
  · refine weight_lt (v := v) ?_ fun x hx => by simp [ByteNet.weight, ByteNet.begin, hx]
    simp [ByteNet.weight, ByteNet.begin, hsends, hw, handLength]
    omega

omit [DecidableEq V] [Fintype V] in
theorem handLength_drop {u : V} {bytes : List UInt8} {n : ℕ} :
    handLength (if n = bytes.length then none else some (u, bytes.drop n)) = bytes.length - n := by
  by_cases hn : n = bytes.length
  · simp [handLength, hn]
  · simp [handLength, hn]

theorem weight_write {n : ℕ} (hs : b.step (.write v n) = some b') :
    ∑ x, b'.weight x < ∑ x, b.weight x := by
  simp only [ByteNet.step] at hs
  cases hw : b.writing v with
  | none => simp [hw] at hs
  | some w =>
    obtain ⟨u, bytes⟩ := w
    simp only [hw] at hs
    by_cases hn : 0 < n ∧ n ≤ bytes.length
    · rw [if_pos hn] at hs
      obtain rfl := Option.some.inj hs
      refine weight_lt (v := v) ?_ fun x hx => ?_
      · have hsum := sum_onLink b.inFlight v u (b.inFlight v u ++ bytes.take n)
        have hhand : handLength (b.writing v) = bytes.length := by simp [hw, handLength]
        rw [List.length_append, List.length_take, Nat.min_eq_left hn.2] at hsum
        simp only [ByteNet.weight, Function.update_self, handLength_drop, hhand]
        omega
      · simp only [ByteNet.weight, Function.update_of_ne hx,
          onLink_ne (fun hxy : x = v ∧ _ => hx hxy.1)]
    · rw [if_neg hn] at hs
      exact absurd hs (by simp)

theorem weight_arrive {u : V} {n : ℕ} (hs : b.step (.arrive u v n) = some b') :
    ∑ x, b'.weight x < ∑ x, b.weight x := by
  simp only [ByteNet.step] at hs
  split_ifs at hs with hn
  obtain rfl := Option.some.inj hs
  refine weight_lt (v := u) ?_ fun x hx => ?_
  · have hsum := sum_onLink b.inFlight u v ((b.inFlight u v).drop n)
    rw [List.length_drop] at hsum
    simp only [ByteNet.weight]
    omega
  · simp only [ByteNet.weight, onLink_ne (fun hxy : x = u ∧ _ => hx hxy.1)]

end Weight

section Drain
variable [Fintype V] {b b' : ByteNet T} {s : Net T}

def ByteNet.Drained (b : ByteNet T) : Prop :=
  (∀ v, b.Idle v) ∧ ∀ u v, b.inFlight u v = []

theorem Refines.busy (h : Refines b s) (hbusy : ¬ b.Drained) :
    ∃ e, e.net = none ∧ ∃ b', b.step e = some b' := by
  by_cases hflight : ∀ u v, b.inFlight u v = []
  · have hidle : ∃ v, ¬ b.Idle v := by
      by_contra hall
      exact hbusy ⟨fun v => not_not.mp fun hv => hall ⟨v, hv⟩, hflight⟩
    obtain ⟨v, hv⟩ := hidle
    cases hw : b.writing v with
    | some w =>
      have hlen : 0 < w.2.length ∧ w.2.length ≤ w.2.length :=
        ⟨List.length_pos_iff.mpr (h.hand v w hw), le_rfl⟩
      refine ⟨.write v w.2.length, rfl, ?_⟩
      simp only [ByteNet.step, hw, if_pos hlen]
      exact ⟨_, rfl⟩
    | none =>
      cases hsends : b.sends v with
      | nil => exact absurd ⟨hsends, hw⟩ hv
      | cons q rest =>
        obtain ⟨port, packet⟩ := q
        obtain ⟨hsized, huser⟩ := h.sends v (port, packet) (by simp [hsends])
        refine ⟨.nodeSend v false fun _ => 0, rfl, ?_⟩
        induction port using Fin.lastCases with
        | last => exact ⟨_, step_give hw hsends hsized (huser rfl) _ _⟩
        | cast i => exact ⟨_, step_begin hw hsends hsized _ _⟩
  · push Not at hflight
    obtain ⟨u, v, hne⟩ := hflight
    refine ⟨.arrive u v (b.inFlight u v).length, rfl, ?_⟩
    rw [ByteNet.step, if_pos ⟨List.length_pos_iff.mpr hne, le_rfl⟩]
    exact ⟨_, rfl⟩

theorem Refines.nearer (h : Refines b s) {e : ByteEvent T} (he : e.net = none)
    (hs : b.step e = some b') : Refines b' s ∧ ∑ x, b'.weight x < ∑ x, b.weight x := by
  cases e with
  | nodeRecv | inject | hello | reelect => exact absurd he (by simp [ByteEvent.net])
  | nodeSend v subscribed heap => exact ⟨h.nodeSend hs, weight_nodeSend h hs⟩
  | write v n => exact ⟨h.write hs, weight_write hs⟩
  | arrive u v n => exact ⟨h.arrive hs, weight_arrive hs⟩

theorem Refines.drain (h : Refines b s) : ∃ es c, Runs.run ByteNet.step es b = some c ∧
    ByteNet.activities es b = [] ∧ Refines c s ∧ c.Drained := by
  refine Runs.exists_silent_run (P := fun b => Refines b s) (fun b => ∑ x, b.weight x)
    (fun b h hbusy => ?_) b h
  obtain ⟨e, he, b', hs⟩ := h.busy hbusy
  obtain ⟨href, hlt⟩ := h.nearer he hs
  exact ⟨e, b', label_eq_none he, hs, href, hlt⟩

end Drain

section Transport
variable {b : ByteNet T} {s : Net T}

theorem Refines.chan_nil (h : Refines b s) {u v : V} (hempty : b.stream u v = []) :
    s.chan u v = [] := by
  have hstream := h.stream u v
  rw [hempty] at hstream
  refine List.eq_nil_iff_forall_not_mem.mpr fun f hf => ?_
  have hnil := List.flatMap_eq_nil_iff.mp hstream.symm f.packet (List.mem_map_of_mem hf)
  exact (h.sized u v f hf).bytes_ne_nil hnil

/-- In a run without re-elections the nodes hold the spanning tree of the lowest node as soon as
every byte has been read and that node's neighbours have read two of its advertisements. -/
theorem byte_network_tree [Fintype V] (T : Topology V) (hconn : T.graph.Connected) (b : ByteNet T)
    (r : V) (hmin : ∀ v, T.addr r ≤ T.addr v)
    (h : ByteNet.Reach Event.Calm (ByteNet.init T) b) (hempty : ∀ u v, b.stream u v = [])
    (htwice : ∀ v i, T.peer v i = r → 2 ≤ (b.returned v i).countP fun p => p.type = .stp) :
    ∃ s : Net T, s.node = b.node ∧ s.HoldsTree r := by
  obtain ⟨s, hreach, href⟩ := (Refines.init T).reach h
  have hstps : ∀ u v, s.stps u v = [] := by
    intro u v
    rw [Net.stps, href.chan_nil (hempty u v)]
    rfl
  refine ⟨s, href.node, hello_suffices T hconn s r hmin hreach hstps fun j => ?_⟩
  obtain ⟨i, hi⟩ := T.peer_symm r j
  have hbalance : s.processed (T.peer r j) i + (s.stps r (T.peer r j)).length = s.sentStp r j :=
    (counted_reach hreach).balance r (T.peer r j) i j hi rfl (href.live _ _)
  have hread := htwice (T.peer r j) i hi
  rw [← href.returned, ← Nat.add_zero (s.processed _ _)] at hread
  rw [hstps, List.length_nil] at hbalance
  omega

theorem byte_network_tree_two : ∃ (b : ByteNet twoNodes) (s : Net twoNodes),
    Runs.run ByteNet.step (byteExchange 0 1 0 0) (ByteNet.init twoNodes) = some b ∧
      s.node = b.node ∧ s.HoldsTree 0 := by
  have hrun : ((Runs.run ByteNet.step (byteExchange 0 1 0 0) (ByteNet.init twoNodes)).any fun b =>
      decide ((∀ v, b.Idle v) ∧ (∀ u v, b.inFlight u v = []) ∧ (∀ u v, b.unread u v = []) ∧
        ∀ v i, 2 ≤ (b.returned v i).countP fun p => p.type = .stp)) = true := by decide +kernel
  obtain ⟨b, hb, hall⟩ := (Option.any_eq_true _ _).mp hrun
  obtain ⟨hidle, hflight, hunread, htwice⟩ := of_decide_eq_true hall
  have hempty : ∀ u v, b.stream u v = [] := by
    intro u v
    rw [ByteNet.stream, hunread, hflight, (hidle u).unwritten]
    rfl
  have hreach : ByteNet.Reach Event.Calm (ByteNet.init twoNodes) b :=
    Runs.reach_of_run (by simp [byteExchange, ByteEvent.net, Event.Calm]) hb
  obtain ⟨s, hnode, htree⟩ := byte_network_tree twoNodes twoNodes_connected b 0 (by decide) hreach
    hempty fun v i _ => htwice v i
  exact ⟨b, s, hb, hnode, htree⟩

end Transport

end Mixnet
