import Mixnet.ByteNetwork
import Mixnet.LoopFree

/-! The network of byte streams refines the network of packets. Every packet that a node has sent
and its neighbour has not received stands, whole, on the bytes that have not been read, that are in
flight, that the node is writing and that it has still to write. -/
namespace Mixnet
variable {V : Type*} [DecidableEq V] {T : Topology V}

section Unwritten

def Topology.toward (T : Topology V) (v : V) (sends : List (Send (T.deg v))) (y : V) :
    List Packet :=
  sends.filterMap fun q =>
    if h : q.1.val < T.deg v then if T.peer v ⟨q.1, h⟩ = y then some q.2 else none else none

theorem wire_packets (v y : V) (o : Outcome (T.deg v)) (flood : ℕ) :
    (T.wire v o flood y).map Flight.packet = T.toward v o.sends y := by
  rw [Topology.wire, Topology.toward, List.map_filterMap]
  refine List.filterMap_congr fun q _ => ?_
  split_ifs <;> rfl

@[simp] theorem toward_user {v y : V} {sends : List (Send (T.deg v))} {packet : Packet} :
    T.toward v ((Fin.last _, packet) :: sends) y = T.toward v sends y := by
  simp [Topology.toward]

theorem toward_peer {v y : V} {sends : List (Send (T.deg v))} {i : Fin (T.deg v)}
    {packet : Packet} : T.toward v ((i.castSucc, packet) :: sends) y =
      (if T.peer v i = y then [packet] else []) ++ T.toward v sends y := by
  by_cases hy : T.peer v i = y <;> simp [Topology.toward, hy]

def wireBytes (ps : List Packet) : List UInt8 := ps.flatMap Packet.bytes

theorem wireBytes_append (ps qs : List Packet) :
    wireBytes (ps ++ qs) = wireBytes ps ++ wireBytes qs := List.flatMap_append

def inHand (w : Option (V × List UInt8)) (y : V) : List UInt8 :=
  match w with
  | none => []
  | some (u, bytes) => if u = y then bytes else []

@[simp] theorem inHand_none (y : V) : inHand none y = [] := rfl

@[simp] theorem inHand_some (u y : V) (bytes : List UInt8) :
    inHand (some (u, bytes)) y = if u = y then bytes else [] := rfl

def ByteNet.unwritten (b : ByteNet T) (v y : V) : List UInt8 :=
  inHand (b.writing v) y ++ wireBytes (T.toward v (b.sends v) y)

theorem ByteNet.Idle.unwritten {b : ByteNet T} {v : V} (h : b.Idle v) (y : V) :
    b.unwritten v y = [] := by
  rw [ByteNet.unwritten, h.1, h.2]
  rfl

def ByteNet.stream (b : ByteNet T) (u v : V) : List UInt8 :=
  b.unread u v ++ (b.inFlight u v ++ b.unwritten u v)

end Unwritten

/-- The packet network `s` is what the nodes of the byte network `b` are in. -/
structure Refines (b : ByteNet T) (s : Net T) : Prop where
  node : s.node = b.node
  live : ∀ u v, s.live u v = true
  stream : ∀ u v, b.stream u v = wireBytes ((s.chan u v).map Flight.packet)
  sized : ∀ u v, ∀ f ∈ s.chan u v, f.packet.Sized
  sends : ∀ v, ∀ q ∈ b.sends v, q.2.Sized ∧ (q.1 = Fin.last _ → q.2.type = .flood)
  hand : ∀ v w, b.writing v = some w → w.2 ≠ []
  returned : ∀ v i, s.processed v i = (b.returned v i).countP fun p => p.type = .stp
  taken : ∀ v, (s.userLog v).length =
    (b.taken v).length + (b.sends v).countP fun q => q.1 = Fin.last _

section Activity
variable {b b' : ByteNet T} {s : Net T} {v : V}

theorem Refines.act (h : Refines b s) {e : NodeEvent (T.deg v)} (hact : b.act v e = some b')
    (flood : ℕ) : ∃ o, (s.node v).step e = some o ∧ Refines b' (s.commit v flood o) := by
  rw [ByteNet.act] at hact
  split_ifs at hact with hidle
  obtain ⟨o, ho, rfl⟩ := Option.map_eq_some_iff.mp hact
  have hsized := step_sized ho
  refine ⟨o, by rw [h.node]; exact ho, ?_⟩
  constructor
  · simp [Net.commit, h.node]
  · exact h.live
  · intro x y
    by_cases hx : x = v
    · subst hx
      have hold := h.stream x y
      rw [ByteNet.stream, hidle.unwritten, List.append_nil] at hold
      simp only [ByteNet.stream, ByteNet.unwritten, hidle.2, Net.commit, h.live, and_self, if_true,
        Function.update_self, List.map_append, wireBytes_append, wire_packets, ← hold, inHand]
      simp
    · have hold := h.stream x y
      simp only [ByteNet.stream, ByteNet.unwritten] at hold
      simp [ByteNet.stream, ByteNet.unwritten, Net.commit, hx, hold]
  · intro x y f hf
    obtain hold | ⟨rfl, hnew⟩ := mem_commit_chan hf
    · exact h.sized x y f hold
    · obtain ⟨q, hq, hqf⟩ := (mem_wire hnew).2
      rw [← hqf]
      exact (hsized q hq).1
  · intro x
    by_cases hx : x = v
    · subst hx
      simpa using hsized
    · simpa [hx] using h.sends x
  · exact h.hand
  · exact h.returned
  · intro x
    by_cases hx : x = v
    · subst hx
      have hold := h.taken x
      rw [hidle.1, List.countP_nil, Nat.add_zero] at hold
      simp [Net.commit, hold, Outcome.toUser]
    · simpa [Net.commit, hx] using h.taken x

theorem Refines.began (h : Refines b s) (v : V) : Refines b (s.began v) :=
  ⟨h.node, h.live, h.stream, h.sized, h.sends, h.hand, h.returned, h.taken⟩

/-- What `_recv_once` does to a stream of packets. -/
theorem recvOnce_packets (buffer : Buffer) {unread missing : List UInt8} {ps : List Packet}
    (hsized : ∀ p ∈ ps, p.Sized) (h : unread ++ missing = wireBytes ps) :
    ∃ r, LinkState.recvOnce buffer unread = some r ∧
      (r.code = .none ∧ (∃ p rest, ps = p :: rest ∧ messageAt r.buffer = p.bytes ∧
          r.unread ++ missing = wireBytes rest) ∨ r.code = .recvZeroPending) := by
  cases ps with
  | nil =>
    obtain rfl : unread = [] := (List.append_eq_nil_iff.mp h).1
    exact ⟨_, rfl, Or.inr rfl⟩
  | cons p rest =>
    have hp : p.Sized := hsized p (by simp)
    have hcons : unread ++ missing = (p.message hp).bytes ++ wireBytes rest := h
    by_cases hlong : (p.message hp).bytes.length ≤ unread.length
    · obtain ⟨tail, rfl⟩ := List.prefix_of_prefix_length_le ⟨wireBytes rest, hcons.symm⟩
        ⟨missing, rfl⟩ hlong
      obtain ⟨r, hr, hnone, hbytes, hunread⟩ :=
        LinkState.recvOnce_complete buffer (p.message hp) tail
      refine ⟨r, hr, Or.inl ⟨hnone, p, rest, rfl, hbytes, ?_⟩⟩
      rw [hunread]
      exact List.append_cancel_left ((List.append_assoc _ _ _).symm.trans hcons)
    · obtain ⟨r, hr, hpending, -⟩ :=
        LinkState.recvOnce_partial buffer ⟨missing, hcons⟩ (Nat.not_le.mp hlong)
      exact ⟨r, hr, Or.inr hpending⟩

theorem Refines.read (h : Refines b s) {i : Fin (T.deg v)} {f : Flight} {rest : List Flight}
    {unread : List UInt8} {packet : Packet} (hchan : s.chan (T.peer v i) v = f :: rest)
    (hunread : unread ++ (b.inFlight (T.peer v i) v ++ b.unwritten (T.peer v i) v) =
      wireBytes (rest.map Flight.packet)) (htype : f.packet.type = packet.type) :
    Refines (b.read v i unread packet) (s.take v i f rest) := by
  constructor
  · exact h.node
  · exact h.live
  · intro x y
    by_cases hxy : x = T.peer v i ∧ y = v
    · obtain ⟨rfl, rfl⟩ := hxy
      simp only [ByteNet.stream, ByteNet.read, onLink_self, Net.take, and_self, if_true]
      exact hunread
    · have hold := h.stream x y
      simp only [ByteNet.stream] at hold
      simp only [ByteNet.stream, ByteNet.read, Net.take, onLink_ne hxy, if_neg hxy]
      exact hold
  · exact fun x y g hg => h.sized x y g (mem_take_chan hchan hg)
  · exact h.sends
  · exact h.hand
  · intro x j
    have hold := h.returned x j
    by_cases hx : x = v
    · subst hx
      by_cases hj : j = i
      · subst hj
        by_cases hstp : packet.type = .stp <;>
          simp [Net.take, ByteNet.read, htype, hstp, hold]
      · by_cases hstp : packet.type = .stp <;>
          simp [Net.take, ByteNet.read, htype, hstp, hold, hj]
    · by_cases hstp : packet.type = .stp <;>
        simp [Net.take, ByteNet.read, htype, hstp, hold, hx]
  · exact h.taken

end Activity

section Step
variable {b b' : ByteNet T} {s : Net T} {v : V}

theorem Refines.congr (h : Refines b s) (hnode : b'.node = b.node)
    (hstream : ∀ x y, b'.stream x y = b.stream x y)
    (hsends : ∀ x, b'.sends x <:+ b.sends x) (hhand : ∀ x w, b'.writing x = some w → w.2 ≠ [])
    (hreturned : b'.returned = b.returned)
    (htaken : ∀ x, (b'.taken x).length + (b'.sends x).countP (fun q => q.1 = Fin.last _) =
      (b.taken x).length + (b.sends x).countP fun q => q.1 = Fin.last _) : Refines b' s where
  node := h.node.trans hnode.symm
  live := h.live
  stream := fun x y => (hstream x y).trans (h.stream x y)
  sized := h.sized
  sends := fun x q hq => h.sends x q ((hsends x).subset hq)
  hand := hhand
  returned := fun x i => by rw [hreturned]; exact h.returned x i
  taken := fun x => (h.taken x).trans (htaken x).symm

def ByteNet.give (b : ByteNet T) (v : V) (rest : List (Send (T.deg v))) (packet : Packet) :
    ByteNet T :=
  { b with
    sends := Function.update b.sends v rest
    taken := Function.update b.taken v (b.taken v ++ [packet]) }

def ByteNet.begin (b : ByteNet T) (v : V) (rest : List (Send (T.deg v))) (u : V)
    (packet : Packet) : ByteNet T :=
  { b with
    sends := Function.update b.sends v rest
    writing := Function.update b.writing v (some (u, packet.bytes)) }

omit [DecidableEq V] in
theorem port_toNat (v : V) (port : Fin (T.deg v + 1)) :
    (UInt8.ofNat port).toNat = port ∧ (UInt16.ofNat (T.deg v)).toNat = T.deg v := by
  have hdeg : T.deg v ≤ 255 := T.deg_le v
  have hlt : port.val < T.deg v + 1 := port.isLt
  rw [UInt8.toNat_ofNat', UInt16.toNat_ofNat']
  exact ⟨Nat.mod_eq_of_lt (by omega), Nat.mod_eq_of_lt (by omega)⟩

theorem step_give {rest : List (Send (T.deg v))} {packet : Packet} (hw : b.writing v = none)
    (hsends : b.sends v = (Fin.last _, packet) :: rest) (hsized : packet.Sized)
    (hflood : packet.type = .flood) (subscribed : Bool) (heap : Buffer) :
    b.step (.nodeSend v subscribed heap) = some (b.give v rest packet) := by
  obtain ⟨hport, hd⟩ := port_toNat (T := T) v (Fin.last (T.deg v))
  simp only [ByteNet.step, if_pos hw, hsends, ByteNet.nodeSend]
  rw [nodeSend_memory hsized heap (by rw [hport, hd, Fin.val_last]) (fun _ => hflood), hport, hd,
    if_pos (Fin.val_last _)]
  cases subscribed <;> rfl

theorem step_begin {rest : List (Send (T.deg v))} {i : Fin (T.deg v)} {packet : Packet}
    (hw : b.writing v = none) (hsends : b.sends v = (i.castSucc, packet) :: rest)
    (hsized : packet.Sized) (subscribed : Bool) (heap : Buffer) :
    b.step (.nodeSend v subscribed heap) = some (b.begin v rest (T.peer v i) packet) := by
  obtain ⟨hport, hd⟩ := port_toNat (T := T) v i.castSucc
  have hi : i.castSucc.val < T.deg v := i.isLt
  simp only [ByteNet.step, if_pos hw, hsends, ByteNet.nodeSend]
  rw [nodeSend_memory hsized heap (by rw [hport, hd]; exact hi.le)
    (fun he => absurd (hport.symm.trans (he.trans hd)) hi.ne), hport, hd, if_neg hi.ne]
  simp only [dif_pos hi, messageAt_memory hsized]
  rfl

theorem update_suffix {rest : List (Send (T.deg v))} {q : Send (T.deg v)}
    (hsends : b.sends v = q :: rest) (x : V) : Function.update b.sends v rest x <:+ b.sends x := by
  by_cases hx : x = v
  · subst hx
    rw [Function.update_self, hsends]
    exact List.suffix_cons _ _
  · rw [Function.update_of_ne hx]

theorem Refines.give (h : Refines b s) {rest : List (Send (T.deg v))} {packet : Packet}
    (hsends : b.sends v = (Fin.last _, packet) :: rest) : Refines (b.give v rest packet) s := by
  refine h.congr rfl (fun x y => ?_) (update_suffix hsends) h.hand rfl fun x => ?_
  · by_cases hx : x = v
    · subst hx
      simp [ByteNet.stream, ByteNet.unwritten, ByteNet.give, hsends]
    · simp [ByteNet.stream, ByteNet.unwritten, ByteNet.give, hx]
  · by_cases hx : x = v
    · subst hx
      simp only [ByteNet.give, Function.update_self, hsends, List.length_append,
        List.length_singleton, List.countP_cons, decide_true, if_true]
      omega
    · simp [ByteNet.give, hx]

theorem Refines.begin (h : Refines b s) {rest : List (Send (T.deg v))} {i : Fin (T.deg v)}
    {packet : Packet} (hw : b.writing v = none)
    (hsends : b.sends v = (i.castSucc, packet) :: rest) :
    Refines (b.begin v rest (T.peer v i) packet) s := by
  have hsized := (h.sends v (i.castSucc, packet) (by simp [hsends])).1
  refine h.congr rfl (fun x y => ?_) (update_suffix hsends) (fun x w hx => ?_) rfl fun x => ?_
  · by_cases hx : x = v
    · subst hx
      simp only [ByteNet.stream, ByteNet.unwritten, ByteNet.begin, Function.update_self, hsends,
        hw, toward_peer, wireBytes_append, inHand]
      split_ifs <;> simp [wireBytes]
    · simp [ByteNet.stream, ByteNet.unwritten, ByteNet.begin, hx]
  · by_cases hv : x = v
    · subst hv
      have hw' : (T.peer x i, packet.bytes) = w := by
        simpa [ByteNet.begin] using hx
      rw [← hw']
      exact hsized.bytes_ne_nil
    · exact h.hand x w (by simpa [ByteNet.begin, hv] using hx)
  · by_cases hx : x = v
    · subst hx
      simp [ByteNet.begin, hsends, i.castSucc_lt_last.ne]
    · simp [ByteNet.begin, hx]

theorem Refines.nodeSend_cases (h : Refines b s) {subscribed : Bool} {heap : Buffer}
    (hs : b.step (.nodeSend v subscribed heap) = some b') :
    (∃ packet rest, b.sends v = (Fin.last _, packet) :: rest ∧ b' = b.give v rest packet) ∨
      ∃ i packet rest, b.writing v = none ∧ b.sends v = (i.castSucc, packet) :: rest ∧
        b' = b.begin v rest (T.peer v i) packet := by
  by_cases hw : b.writing v = none
  · cases hsends : b.sends v with
    | nil => simp [ByteNet.step, hw, hsends] at hs
    | cons q rest =>
      obtain ⟨port, packet⟩ := q
      obtain ⟨hsized, huser⟩ := h.sends v (port, packet) (by simp [hsends])
      induction port using Fin.lastCases with
      | last =>
        rw [step_give hw hsends hsized (huser rfl)] at hs
        exact Or.inl ⟨packet, rest, rfl, (Option.some.inj hs).symm⟩
      | cast i =>
        rw [step_begin hw hsends hsized] at hs
        exact Or.inr ⟨i, packet, rest, hw, rfl, (Option.some.inj hs).symm⟩
  · simp [ByteNet.step, hw] at hs

theorem Refines.nodeSend (h : Refines b s) {subscribed : Bool} {heap : Buffer}
    (hs : b.step (.nodeSend v subscribed heap) = some b') : Refines b' s := by
  obtain ⟨packet, rest, hsends, rfl⟩ | ⟨i, packet, rest, hw, hsends, rfl⟩ := h.nodeSend_cases hs
  · exact h.give hsends
  · exact h.begin hw hsends

theorem inHand_drop (u y : V) (bytes : List UInt8) (n : ℕ) :
    inHand (if n = bytes.length then none else some (u, bytes.drop n)) y =
      if u = y then bytes.drop n else [] := by
  by_cases hn : n = bytes.length
  · simp [inHand, hn]
  · simp [inHand, hn]

theorem Refines.write (h : Refines b s) {n : ℕ} (hs : b.step (.write v n) = some b') :
    Refines b' s := by
  simp only [ByteNet.step] at hs
  cases hw : b.writing v with
  | none => simp [hw] at hs
  | some w =>
    obtain ⟨u, bytes⟩ := w
    simp only [hw] at hs
    by_cases hn : 0 < n ∧ n ≤ bytes.length
    · rw [if_pos hn] at hs
      obtain rfl := Option.some.inj hs
      refine h.congr rfl (fun x y => ?_) (fun x => List.suffix_rfl) (fun x w hx => ?_) rfl
        fun x => rfl
      · by_cases hx : x = v
        · subst hx
          by_cases hy : y = u
          · subst hy
            simp only [ByteNet.stream, ByteNet.unwritten, onLink_self, Function.update_self,
              inHand_drop, if_true, hw, inHand_some, List.append_assoc]
            rw [← List.append_assoc (List.take n bytes), List.take_append_drop]
          · simp only [ByteNet.stream, ByteNet.unwritten, onLink_ne (fun hxy => hy hxy.2),
              Function.update_self, inHand_drop, if_neg (Ne.symm hy), hw, inHand_some]
        · simp only [ByteNet.stream, ByteNet.unwritten, onLink_ne (fun hxy => hx hxy.1),
            Function.update_of_ne hx]
      · by_cases hv : x = v
        · subst hv
          simp only [Function.update_self] at hx
          split_ifs at hx with hlen
          obtain rfl := Option.some.inj hx
          exact fun hnil => hlen (le_antisymm hn.2 (List.drop_eq_nil_iff.mp hnil))
        · exact h.hand x w (by simpa [hv] using hx)
    · rw [if_neg hn] at hs
      exact absurd hs (by simp)

theorem Refines.arrive (h : Refines b s) {u : V} {n : ℕ}
    (hs : b.step (.arrive u v n) = some b') : Refines b' s := by
  simp only [ByteNet.step] at hs
  split_ifs at hs
  obtain rfl := Option.some.inj hs
  refine h.congr rfl (fun x y => ?_) (fun x => List.suffix_rfl) h.hand rfl fun x => rfl
  by_cases hxy : x = u ∧ y = v
  · obtain ⟨rfl, rfl⟩ := hxy
    simp only [ByteNet.stream, onLink_self, List.append_assoc]
    rw [← List.append_assoc (List.take n _), List.take_append_drop]
    rfl
  · simp only [ByteNet.stream, onLink_ne hxy]
    rfl

theorem Refines.received (h : Refines b s) {i : Fin (T.deg v)} {f : Flight} {rest : List Flight}
    {unread : List UInt8} {q : Packet} (hchan : s.chan (T.peer v i) v = f :: rest)
    (hrest : unread ++ (b.inFlight (T.peer v i) v ++ b.unwritten (T.peer v i) v) =
      wireBytes (rest.map Flight.packet)) (halike : f.packet.Alike q)
    (hact : (b.read v i unread q).act v (.packet i.castSucc q) = some b') :
    ∃ s', s.step (.deliver v i) = some s' ∧ Refines b' s' := by
  obtain ⟨o, ho, href⟩ := (h.read hchan hrest halike.type).act hact f.flood
  have hstep : (s.node v).step (.packet i.castSucc f.packet) = some o :=
    (processPacket_alike halike _ _).trans ho
  refine ⟨_, ?_, href⟩
  simp only [Net.step, hchan, hstep, Option.map_some]

omit [DecidableEq V] in
theorem label_net {e : ByteEvent T} {e' : Event T} (h : b.label e = some e') :
    e.net = some e' := by
  cases e with
  | nodeRecv v i recvBuffer heap =>
    simp only [ByteNet.label] at h
    split_ifs at h
    exact h
  | _ => exact h

omit [DecidableEq V] in
theorem label_eq_none {e : ByteEvent T} (h : e.net = none) : b.label e = none := by
  cases hlabel : b.label e with
  | none => rfl
  | some e' =>
    rw [label_net hlabel] at h
    exact absurd h (by simp)

theorem Refines.answer {x : ByteEvent T} {e : Event T} {s' : Net T} (hlabel : b.label x = some e)
    (hs : s.step e = some s') (h : Refines b' s') :
    ∃ s', Runs.run Net.step (b.label x).toList s = some s' ∧ Refines b' s' := by
  refine ⟨s', ?_, h⟩
  rw [hlabel]
  exact (Runs.run_singleton e s).trans hs

/-- One event of the byte network is nothing to the nodes, or the step of the packet network that
the event stands for. -/
theorem Refines.step (h : Refines b s) {e : ByteEvent T} (hs : b.step e = some b') :
    ∃ s', Runs.run Net.step (b.label e).toList s = some s' ∧ Refines b' s' := by
  cases e with
  | nodeRecv v i recvBuffer heap =>
    simp only [ByteNet.step] at hs
    split_ifs at hs with hidle
    have hstream := h.stream (T.peer v i) v
    have hsized : ∀ p ∈ (s.chan (T.peer v i) v).map Flight.packet, p.Sized := by
      intro p hp
      obtain ⟨f, hf, rfl⟩ := List.mem_map.mp hp
      exact h.sized _ _ f hf
    obtain ⟨r, hr, ⟨hnone, p, ps, hps, hbytes, hrest⟩ | hpending⟩ :=
      recvOnce_packets recvBuffer hsized hstream
    · rw [hr, Option.bind_some, if_pos hnone, hbytes] at hs
      obtain ⟨f, rest, hchan, rfl, rfl⟩ := List.map_eq_cons_iff.mp hps
      obtain ⟨q, hq, halike⟩ := packetAt_store (h.sized (T.peer v i) v f (by simp [hchan])) heap
      rw [hq, Option.bind_some] at hs
      obtain ⟨s', hstep, href⟩ := h.received hchan hrest halike hs
      exact Refines.answer (by simp [ByteNet.label, hr, hnone]) hstep href
    · have hcode : ¬ r.code = .none := by simp [hpending]
      rw [hr, Option.bind_some, if_neg hcode, if_pos hpending] at hs
      obtain rfl := Option.some.inj hs
      have hsilent : b.label (.nodeRecv v i recvBuffer heap) = none := by
        simp [ByteNet.label, hr, hcode]
      exact ⟨s, by rw [hsilent]; rfl, h⟩
  | inject v payload =>
    obtain ⟨o, ho, href⟩ := (h.began v).act hs s.origins.length
    refine Refines.answer (e := .inject v payload) rfl ?_ href
    have hstep : (s.node v).step (.packet (Fin.last _) ⟨12, .flood, payload⟩) = some o := ho
    simp only [Net.step, hstep, Option.map_some]
  | hello v =>
    obtain ⟨o, ho, href⟩ := h.act hs 0
    refine Refines.answer rfl ?_ href
    simp only [Net.step, ho, Option.map_some]
  | reelect v =>
    obtain ⟨o, ho, href⟩ := h.act hs 0
    refine Refines.answer rfl ?_ href
    simp only [Net.step, ho, Option.map_some]
  | nodeSend v subscribed heap => exact ⟨s, rfl, h.nodeSend hs⟩
  | write v n => exact ⟨s, rfl, h.write hs⟩
  | arrive u v n => exact ⟨s, rfl, h.arrive hs⟩

theorem Refines.init (T : Topology V) : Refines (ByteNet.init T) (Net.init T) := by
  constructor
  · rfl
  · exact fun _ _ => rfl
  · intro u v
    simp only [Net.init, wire_packets]
    rfl
  · intro u v f hf
    obtain ⟨q, hq, hqf⟩ := (mem_wire hf).2
    rw [← hqf]
    exact (sendStp_sized _ q hq).1
  · exact fun v => sendStp_sized _
  · intro v w hw
    simp [ByteNet.init] at hw
  · exact fun v i => rfl
  · intro v
    have hnone : (sendStp (initNode (T.deg v) (T.addr v))).countP
        (fun q => q.1 = Fin.last _) = 0 := by
      refine List.countP_eq_zero.mpr fun q hq => ?_
      obtain ⟨i, -, rfl⟩ := List.mem_map.mp hq
      simp [i.castSucc_lt_last.ne]
    simp [Net.init, ByteNet.init, hnone]

theorem Refines.run (h : Refines b s) {es : List (ByteEvent T)}
    (hrun : Runs.run ByteNet.step es b = some b') :
    ∃ s', Runs.run Net.step (ByteNet.activities es b) s = some s' ∧ Refines b' s' :=
  Runs.run_simulates (fun _ _ _ _ href hs => href.step hs) h hrun

theorem Refines.reach {A : Event T → Prop} (h : Refines b s) (hreach : ByteNet.Reach A b b') :
    ∃ s', Net.Reach (fun _ e => A e) s s' ∧ Refines b' s' := by
  induction hreach with
  | refl => exact ⟨s, .refl, h⟩
  | @tail c c' e _ hok hs ih =>
    obtain ⟨t, hreach, href⟩ := ih
    obtain ⟨s', hrun, href'⟩ := href.step hs
    refine ⟨s', hreach.trans ?_, href'⟩
    cases hlabel : c.label e with
    | none =>
      rw [hlabel] at hrun
      obtain rfl : t = s' := Option.some.inj hrun
      exact .refl
    | some e' =>
      rw [hlabel] at hrun
      have hstep : t.step e' = some s' := (Runs.run_singleton e' t).symm.trans hrun
      exact .tail .refl (hok e' (by simp [label_net hlabel])) hstep

/-- Whatever the pieces in which packets are written and arrive, and whatever the memory held that
they are built in and copied to: the nodes of the byte network do what the nodes of the packet
network do in the run of their activities. -/
theorem byte_network_refines (T : Topology V) (es : List (ByteEvent T)) (b : ByteNet T)
    (h : Runs.run ByteNet.step es (ByteNet.init T) = some b) :
    ∃ s, Runs.run Net.step (ByteNet.activities es (ByteNet.init T)) (Net.init T) = some s ∧
      Refines b s :=
  (Refines.init T).run h

def usedMemory : Buffer := fun _ => 7

/-- Neighbors exchange their first packets, `i` and `j` being their ports to each other; the hello
of `u` arrives in two pieces, and `v` looks for it in between. -/
def byteExchange (u v : V) (i : Fin (T.deg u)) (j : Fin (T.deg v)) : List (ByteEvent T) :=
  [.nodeSend u false usedMemory, .write u 18, .arrive u v 18, .nodeSend v true usedMemory,
    .write v 18, .arrive v u 18, .nodeRecv v j usedMemory usedMemory,
    .nodeRecv u i usedMemory usedMemory, .hello u, .nodeSend u false usedMemory, .write u 5,
    .arrive u v 3, .nodeRecv v j usedMemory usedMemory, .write u 13, .arrive u v 15,
    .nodeRecv v j usedMemory usedMemory, .nodeSend v true usedMemory, .write v 18, .arrive v u 18,
    .nodeRecv u i usedMemory usedMemory]

theorem byte_network_refines_two : ∃ (b : ByteNet twoNodes) (s : Net twoNodes),
    Runs.run ByteNet.step (byteExchange 0 1 0 0) (ByteNet.init twoNodes) = some b ∧
      (b.node 1).rootAddr = 1 ∧ Refines b s ∧
      Runs.run Net.step [.deliver 1 0, .deliver 0 0, .hello 0, .deliver 1 0, .deliver 0 0]
        (Net.init twoNodes) = some s := by
  have hrun : ((Runs.run ByteNet.step (byteExchange 0 1 0 0) (ByteNet.init twoNodes)).any fun b =>
      decide ((b.node 1).rootAddr = 1)) = true := by decide +kernel
  obtain ⟨b, hb, hroot⟩ := (Option.any_eq_true _ _).mp hrun
  obtain ⟨s, hs, href⟩ := byte_network_refines twoNodes (byteExchange 0 1 0 0) b hb
  have hdone : ByteNet.activities (byteExchange 0 1 0 0) (ByteNet.init twoNodes) =
      [.deliver 1 0, .deliver 0 0, .hello 0, .deliver 1 0, .deliver 0 0] := by
    decide +kernel
  rw [hdone] at hs
  exact ⟨b, s, hb, of_decide_eq_true hroot, href, hs⟩

end Step

end Mixnet
