import Mixnet.NodeInvariant

/-! Advertised path lengths. `path_len` is an int and the field on the wire is 16 bits wide; the two
differ from the first adoption of a `path_length` of 65535 on. -/
namespace Mixnet
variable {n : ℕ}

/-- Every STP packet sent carries the path length of the node, and only its own root says 0. -/
def Outcome.Exact (o : Outcome n) : Prop :=
  ∀ s ∈ o.sends, s.2.type = .stp → s.2.payload.pathLength.toNat = o.node.pathLen ∧
    (o.node.rootAddr ≠ o.node.myAddr → s.2.payload.pathLength ≠ 0)

/-- The event makes the node adopt an offer whose length does not fit the field on the wire. -/
def Node.Overflows (node : Node n) : NodeEvent n → Prop
  | .packet port p => p.type = .stp ∧ p.payload.pathLength = 0xFFFF ∧
      p.payload.offer < node.route ∧ ∃ i : Fin n, port = i.castSucc ∧ node.neighborsAddy i ≠ -1
  | .hello | .reelection => False

structure Node.LengthInv (node : Node n) : Prop where
  bound : node.pathLen < 65536
  pos : node.rootAddr ≠ node.myAddr → 0 < node.pathLen

theorem toNat_lt_of_ne_max {x : UInt16} (h : x ≠ 0xFFFF) : x.toNat < 65535 := by
  have hmax := x.toNat_lt
  have hne : x.toNat ≠ 65535 := fun he => h (UInt16.toNat_inj.mp he)
  omega

theorem sendStp_exact {node : Node n} (h : node.LengthInv) (b : Bool) :
    Outcome.Exact ⟨node, sendStp node, b⟩ := by
  intro s hs _
  obtain ⟨i, -, rfl⟩ := List.mem_map.mp hs
  have hlen : (UInt16.ofNat node.pathLen).toNat = node.pathLen :=
    UInt16.toNat_ofNat_of_lt' h.bound
  refine ⟨hlen, fun hroot hzero => ?_⟩
  have hpos := h.pos hroot
  have hnode : node.pathLen = 0 := hlen.symm.trans (congrArg UInt16.toNat hzero)
  omega

theorem adopt_exact_iff {node : Node n} (i : Fin n) (p : StpPayload) (b : Bool) :
    Outcome.Exact ⟨node.adopt i p, sendStp (node.adopt i p), b⟩ ↔ p.pathLength ≠ 0xFFFF := by
  constructor
  · intro h hmax
    have hsend : (i.castSucc, (node.adopt i p).advert) ∈ sendStp (node.adopt i p) :=
      List.mem_map.mpr ⟨i, List.mem_finRange i, rfl⟩
    have hlen : (UInt16.ofNat (p.pathLength.toNat + 1)).toNat = p.pathLength.toNat + 1 :=
      (h _ hsend rfl).1
    rw [hmax] at hlen
    exact absurd hlen (by decide)
  · intro hne
    have hinv : (node.adopt i p).LengthInv :=
      ⟨Nat.succ_lt_succ (toNat_lt_of_ne_max hne), fun _ => Nat.succ_pos _⟩
    exact sendStp_exact hinv b

theorem exact_of_no_stp {o : Outcome n} (h : ∀ q ∈ o.sends, q.2.type ≠ .stp) : o.Exact :=
  fun q hq ht => absurd ht (h q hq)

theorem StpCase.exact_iff {node : Node n} {i : Fin n} {p : Packet} {o : Outcome n}
    (hc : StpCase node i p.payload o) (ht : p.type = .stp) (h : node.LengthInv) :
    o.Exact ↔ ¬ node.Overflows (.packet i.castSucc p) := by
  cases hc with
  | echo he =>
    have hnot : ¬ node.Overflows (.packet i.castSucc p) := fun hov => hov.2.2.1.ne he
    exact iff_of_true (sendStp_exact h true) hnot
  | firstContact _ hnone =>
    have hnot : ¬ node.Overflows (.packet i.castSucc p) := by
      rintro ⟨-, -, -, j, hj, hrec⟩
      exact hrec (Fin.castSucc_injective n hj ▸ hnone)
    exact iff_of_true (by simp [Outcome.Exact]) hnot
  | adopt hlt hrec =>
    rw [adopt_exact_iff, not_iff_not]
    exact ⟨fun hmax => ⟨ht, hmax, hlt, i, rfl, hrec⟩, fun hov => hov.2.1⟩
  | ignore hlt _ =>
    have hnot : ¬ node.Overflows (.packet i.castSucc p) := fun hov => hov.2.2.1.asymm hlt
    exact iff_of_true (by simp [Outcome.Exact]) hnot

theorem StpCase.lengthInv {node : Node n} {i : Fin n} {p : Packet} {o : Outcome n}
    (hc : StpCase node i p.payload o) (ht : p.type = .stp) (h : node.LengthInv)
    (hov : ¬ node.Overflows (.packet i.castSucc p)) : o.node.LengthInv := by
  cases hc with
  | echo _ => exact h
  | firstContact _ _ => exact ⟨h.bound, h.pos⟩
  | adopt hlt hrec =>
    have hmax : p.payload.pathLength ≠ 0xFFFF := fun hmax => hov ⟨ht, hmax, hlt, i, rfl, hrec⟩
    exact ⟨Nat.succ_lt_succ (toNat_lt_of_ne_max hmax), fun _ => Nat.succ_pos _⟩
  | ignore _ _ => exact ⟨h.bound, h.pos⟩

theorem Node.LengthInv.step {node : Node n} {e : NodeEvent n} {o : Outcome n}
    (h : node.LengthInv) (hs : node.step e = some o) :
    (o.Exact ↔ ¬ node.Overflows e) ∧ (¬ node.Overflows e → o.node.LengthInv) := by
  cases e with
  | packet port packet =>
    by_cases ht : packet.type = .stp
    · cases port using Fin.lastCases with
      | last =>
        obtain rfl := processPacket_user_stp ht hs
        have hnot : ¬ node.Overflows (.packet (Fin.last n) packet) := by
          rintro ⟨-, -, -, i, hi, -⟩
          exact (Fin.castSucc_lt_last i).ne hi.symm
        exact ⟨iff_of_true (sendStp_exact h true) hnot, fun _ => h⟩
      | cast i =>
        obtain ⟨o', ho', hc⟩ := processPacket_stp node i ht
        obtain rfl : o' = o := Option.some.inj (ho'.symm.trans hs)
        exact ⟨hc.exact_iff ht h, hc.lengthInv ht h⟩
    · have hnot : ¬ node.Overflows (.packet port packet) := fun hov => ht hov.1
      refine ⟨iff_of_true (exact_of_no_stp (processPacket_no_stp ht hs)) hnot, fun _ => ?_⟩
      rw [(processPacket_node ht hs).1]
      exact h
  | hello =>
    simp only [Node.step] at hs
    split_ifs at hs
    obtain rfl := Option.some.inj hs
    exact ⟨iff_of_true (sendStp_exact h true) id, fun _ => h⟩
  | reelection =>
    simp only [Node.step] at hs
    split_ifs at hs
    obtain rfl := Option.some.inj hs
    have hself : (reelect node).node.LengthInv := ⟨Nat.succ_pos _, fun hne => absurd rfl hne⟩
    exact ⟨iff_of_true (sendStp_exact hself true) id, fun _ => hself⟩

theorem initNode_lengthInv (nodeAddr : UInt16) : (initNode n nodeAddr).LengthInv :=
  ⟨Nat.succ_pos _, fun hne => absurd rfl hne⟩

theorem Node.LengthInv.exact_iff {node : Node n} (h : node.LengthInv) (e : NodeEvent n) :
    (∀ o, node.step e = some o → o.Exact) ↔ ¬ node.Overflows e := by
  constructor
  · intro hexact hov
    cases e with
    | packet port packet =>
      obtain ⟨ht, -, -, i, rfl, -⟩ := id hov
      obtain ⟨o, ho, hc⟩ := processPacket_stp node i ht
      exact (hc.exact_iff ht h).mp (hexact o ho) hov
    | hello | reelection => exact hov
  · intro hnot o ho
    exact (h.step ho).1.mpr hnot

/-- In a run from start-up, the initial advertisements included, all STP packets sent carry the
path length of the node exactly when no step adopts an offer with path length 65535. -/
theorem advertised_length_exact_iff (nodeAddr : UInt16) (events : List (NodeEvent n)) :
    Outcome.Exact ⟨initNode n nodeAddr, sendStp (initNode n nodeAddr), true⟩ ∧
        Runs.Along (fun node e => (Node.step node e).map Outcome.node)
          (fun node e => ∀ o, node.step e = some o → o.Exact) events (initNode n nodeAddr) ↔
      Runs.Along (fun node e => (Node.step node e).map Outcome.node)
        (fun node e => ¬ node.Overflows e) events (initNode n nodeAddr) := by
  have hinit := initNode_lengthInv (n := n) nodeAddr
  have hstart := sendStp_exact hinit true
  rw [and_iff_right hstart]
  refine Runs.along_iff (I := Node.LengthInv) ?_ ?_ events hinit
  · intro node e h
    exact h.exact_iff e
  · intro node e node' h hexact hs
    obtain ⟨o, ho, rfl⟩ := Option.map_eq_some_iff.mp hs
    exact (h.step ho).2 ((h.exact_iff e).mp hexact)

/-- Node 2 adopts root 1 at path length 65536 and advertises path length 0. -/
theorem advertised_length_wraps : ∃ (node : Node 1) (o : Outcome 1),
    (initNode 1 2).after [.packet 0 (initializeStpPacket 1 65535 1)] = some node ∧
      node.step (.packet 0 (initializeStpPacket 1 65535 1)) = some o ∧ o.node.pathLen = 65536 ∧
      o.node.rootAddr ≠ o.node.myAddr ∧
      ∃ s ∈ o.sends, s.2.type = .stp ∧ s.2.payload.pathLength = 0 := by
  refine ⟨_, _, rfl, rfl, ?_, ?_, ?_⟩
  · decide
  · decide
  · decide

end Mixnet
