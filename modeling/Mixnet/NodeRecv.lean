import Mixnet.LinkState
import Mixnet.RoundRobin

/-! `node_recv`: a round over the neighbour ports and the user port, from where the last one ended.
The ring of ports has the user port in its last slot. -/
namespace Mixnet.NodeRecv
open LinkState (floodPacket recvOnce recvOnce_complete recvOnce_partial)
open RoundRobin
variable {n : ℕ}

section Receive

/-- The receiving side of `node_context`. `unread` is what has arrived on the sockets, `mqUser` the
packets of the user; both ends of `rx_port_idx`, 0 and `num_neighbors`, are in its type. -/
structure NodeContext (n : ℕ) where
  rxPortIdx : Fin (n+1)
  linkStates : Fin n → Bool
  unread : Fin n → List UInt8
  mqUser : List (List UInt8)
  recvBuffer : Buffer

structure Received where
  port : UInt8
  packet : List UInt8
deriving DecidableEq

/-- `*port = rx_port_idx`, from 16 bits to 8. -/
def recvPort (rxPortIdx : Fin (n+1)) : UInt8 := UInt8.ofNat rxPortIdx

/-- The body of the loop. No result where the receive error ends the thread. -/
def NodeContext.visit (s : NodeContext n) : Option (NodeContext n × Option Received) :=
  if h : s.rxPortIdx = Fin.last n then
    match s.mqUser with
    | [] => some (s, none)
    | packet :: rest =>
      some ({ s with mqUser := rest }, some ⟨recvPort s.rxPortIdx, packet⟩)
  else
    let port := s.rxPortIdx.castPred h
    if s.linkStates port then
      (recvOnce s.recvBuffer (s.unread port)).bind fun r =>
        let s' := { s with
          recvBuffer := r.buffer
          unread := Function.update s.unread port r.unread }
        if r.code = .none then
          some (s', some ⟨recvPort s.rxPortIdx, messageAt r.buffer⟩)
        else if r.code = .recvZeroPending then some (s', none)
        else none
    else some (s, none)

def NodeContext.next (s : NodeContext n) : NodeContext n :=
  { s with rxPortIdx := s.rxPortIdx + 1 }

/-- The loop, which ends with a packet or back at `stopIdx`. -/
def NodeContext.recvLoop (stopIdx : Fin (n+1)) :
    ℕ → NodeContext n → Option (NodeContext n × Option Received)
  | 0, _ => none
  | fuel + 1, s => s.visit.bind fun p =>
    if p.2 = none ∧ p.1.next.rxPortIdx ≠ stopIdx then p.1.next.recvLoop stopIdx fuel
    else some (p.1.next, p.2)

/-- The number of packets received is 1 or 0, as there is one or not. -/
def NodeContext.nodeRecv (fuel : ℕ) (s : NodeContext n) :
    Option (NodeContext n × Option Received) :=
  s.recvLoop s.rxPortIdx fuel

end Receive

section Pending

def Holds (unread : List UInt8) (packets : List LinkState.Packet) : Prop :=
  ∃ tail, unread = (packets.map Message.bytes).flatten ++ tail ∧
    ∃ m : LinkState.Packet, tail <+: m.bytes ∧ tail.length < m.bytes.length

structure NodeContext.Pending (s : NodeContext n) (q : Fin (n+1) → List (List UInt8)) : Prop where
  port : ∀ i : Fin n, ∃ packets : List LinkState.Packet,
    q i.castSucc = packets.map Message.bytes ∧ Holds (s.unread i) packets
  user : q (Fin.last n) = s.mqUser

def NodeContext.Enabled (s : NodeContext n) (i : Fin (n+1)) : Prop :=
  ∀ j : Fin n, i = j.castSucc → s.linkStates j = true

def NodeContext.Ready (s : NodeContext n) (q : Fin (n+1) → List (List UInt8)) (i : Fin (n+1)) :
    Prop :=
  s.Enabled i ∧ q i ≠ []

variable {s : NodeContext n} {q : Fin (n+1) → List (List UInt8)}

theorem Holds.recv_some {unread : List UInt8} {p : LinkState.Packet}
    {packets : List LinkState.Packet} (h : Holds unread (p :: packets)) (buffer : Buffer) :
    ∃ r, recvOnce buffer unread = some r ∧ r.code = .none ∧ messageAt r.buffer = p.bytes ∧
      Holds r.unread packets := by
  obtain ⟨tail, rfl, hpartial⟩ := h
  obtain ⟨r, hr, hcode, hbytes, hunread⟩ :=
    recvOnce_complete buffer p ((packets.map Message.bytes).flatten ++ tail)
  refine ⟨r, ?_, hcode, hbytes, tail, hunread, hpartial⟩
  rw [List.map_cons, List.flatten_cons, List.append_assoc]
  exact hr

theorem Holds.recv_none {unread : List UInt8} (h : Holds unread []) (buffer : Buffer) :
    ∃ r, recvOnce buffer unread = some r ∧ r.code = .recvZeroPending ∧ r.unread = unread := by
  obtain ⟨tail, rfl, m, hprefix, hshort⟩ := h
  have hm : unread <+: m.bytes ++ [] := by simpa using hprefix
  exact recvOnce_partial buffer hm (by simpa using hshort)

theorem NodeContext.Pending.update_port {s' : NodeContext n} (hp : s.Pending q) {i : Fin n}
    {packets : List LinkState.Packet} (hother : ∀ j ≠ i, s'.unread j = s.unread j)
    (huser : s'.mqUser = s.mqUser) (hholds : Holds (s'.unread i) packets) :
    s'.Pending (Function.update q i.castSucc (packets.map Message.bytes)) where
  port := fun j => by
    by_cases hj : j = i
    · subst hj
      exact ⟨packets, Function.update_self .., hholds⟩
    · have hne : j.castSucc ≠ i.castSucc := fun he => hj (Fin.castSucc_injective n he)
      rw [Function.update_of_ne hne, hother j hj]
      exact hp.port j
  user := by
    rw [Function.update_of_ne (Fin.castSucc_lt_last i).ne', huser]
    exact hp.user

theorem NodeContext.Pending.update_user {s' : NodeContext n} (hp : s.Pending q)
    (hunread : s'.unread = s.unread) :
    s'.Pending (Function.update q (Fin.last n) s'.mqUser) where
  port := fun i => by
    rw [Function.update_of_ne (Fin.castSucc_lt_last i).ne, hunread]
    exact hp.port i
  user := Function.update_self ..

end Pending

section Turn
variable {s : NodeContext n} {q : Fin (n+1) → List (List UInt8)}

theorem enabled_user (s : NodeContext n) : s.Enabled (Fin.last n) :=
  fun j hj => absurd hj (Fin.castSucc_lt_last j).ne'

theorem enabled_port {i : Fin n} : s.Enabled i.castSucc ↔ s.linkStates i = true := by
  constructor
  · intro h
    exact h i rfl
  · intro h j hj
    rwa [← Fin.castSucc_injective n hj]

theorem visit_user (hi : s.rxPortIdx = Fin.last n) (hq : s.mqUser = []) :
    s.visit = some (s, none) := by
  simp [NodeContext.visit, hi, hq]

theorem visit_user_packet (hi : s.rxPortIdx = Fin.last n) {packet : List UInt8}
    {rest : List (List UInt8)} (hq : s.mqUser = packet :: rest) :
    s.visit = some ({ s with mqUser := rest }, some ⟨recvPort s.rxPortIdx, packet⟩) := by
  simp [NodeContext.visit, hi, hq]

theorem visit_disabled {i : Fin n} (hi : s.rxPortIdx = i.castSucc)
    (hlink : s.linkStates i = false) : s.visit = some (s, none) := by
  have hne : s.rxPortIdx ≠ Fin.last n := hi.trans_ne (Fin.castSucc_lt_last i).ne
  have hport : s.rxPortIdx.castPred hne = i := by simp [hi]
  rw [NodeContext.visit, dif_neg hne]
  dsimp only
  rw [hport, hlink, if_neg Bool.false_ne_true]

theorem visit_enabled {i : Fin n} (hi : s.rxPortIdx = i.castSucc)
    (hlink : s.linkStates i = true) {r : RecvReturn}
    (hr : recvOnce s.recvBuffer (s.unread i) = some r) :
    s.visit =
      let s' := { s with recvBuffer := r.buffer, unread := Function.update s.unread i r.unread }
      if r.code = .none then some (s', some ⟨recvPort s.rxPortIdx, messageAt r.buffer⟩)
      else if r.code = .recvZeroPending then some (s', none) else none := by
  have hne : s.rxPortIdx ≠ Fin.last n := hi.trans_ne (Fin.castSucc_lt_last i).ne
  have hport : s.rxPortIdx.castPred hne = i := by simp [hi]
  rw [NodeContext.visit, dif_neg hne]
  dsimp only
  rw [hport, if_pos hlink, hr, Option.bind_some]

theorem visit_idle (hp : s.Pending q) (h : ¬ s.Ready q s.rxPortIdx) :
    ∃ b, s.visit = some ({ s with recvBuffer := b }, none) := by
  cases Fin.eq_castSucc_or_eq_last s.rxPortIdx with
  | inr hi =>
    have hq : q (Fin.last n) = [] := by
      by_contra hne
      exact h (hi ▸ ⟨enabled_user s, hne⟩)
    exact ⟨s.recvBuffer, visit_user hi (hp.user ▸ hq)⟩
  | inl hcast =>
    obtain ⟨i, hi⟩ := hcast
    cases hlink : s.linkStates i with
    | false => exact ⟨s.recvBuffer, visit_disabled hi hlink⟩
    | true =>
      obtain ⟨packets, hq, hholds⟩ := hp.port i
      cases packets with
      | nil =>
        obtain ⟨r, hr, hcode, hunread⟩ := hholds.recv_none s.recvBuffer
        refine ⟨r.buffer, ?_⟩
        rw [visit_enabled hi hlink hr]
        dsimp only
        rw [hunread, Function.update_eq_self, hcode, if_neg (by decide), if_pos rfl]
      | cons p packets =>
        rw [hi] at h
        exact absurd ⟨enabled_port.mpr hlink, by simp [hq]⟩ h

theorem visit_ready (hp : s.Pending q) (h : s.Ready q s.rxPortIdx) :
    ∃ s' packet rest, q s.rxPortIdx = packet :: rest ∧
      s.visit = some (s', some ⟨recvPort s.rxPortIdx, packet⟩) ∧
      s'.rxPortIdx = s.rxPortIdx ∧ s'.linkStates = s.linkStates ∧
      s'.Pending (Function.update q s.rxPortIdx rest) := by
  obtain ⟨henabled, hne⟩ := h
  obtain ⟨packet, rest, hqueue⟩ := List.exists_cons_of_ne_nil hne
  cases Fin.eq_castSucc_or_eq_last s.rxPortIdx with
  | inr hi =>
    have hvisit := visit_user_packet hi (hp.user ▸ hi ▸ hqueue)
    rw [hi] at hqueue hvisit ⊢
    exact ⟨_, packet, rest, hqueue, hvisit, rfl, rfl, hp.update_user rfl⟩
  | inl hcast =>
    obtain ⟨i, hi⟩ := hcast
    rw [hi] at hqueue henabled ⊢
    obtain ⟨packets, hq, hholds⟩ := hp.port i
    cases packets with
    | nil => simp [hq] at hqueue
    | cons p packets =>
      obtain ⟨r, hr, hcode, hbytes, hrest⟩ := hholds.recv_some s.recvBuffer
      have hvisit := visit_enabled hi (enabled_port.mp henabled) hr
      dsimp only at hvisit
      rw [if_pos hcode, hbytes, hi] at hvisit
      rw [hq, List.map_cons, List.cons.injEq] at hqueue
      obtain ⟨rfl, rfl⟩ := hqueue
      refine ⟨_, p.bytes, packets.map Message.bytes, hq, hvisit, rfl, rfl, ?_⟩
      apply hp.update_port
      · intro j hj
        exact Function.update_of_ne hj ..
      · rfl
      · simpa using hrest

end Turn

section Round

/-- What a call with these queues pending leaves behind. -/
inductive NodeContext.Round (s : NodeContext n) (q : Fin (n+1) → List (List UInt8)) :
    NodeContext n → Option Received → Prop
  | idle {s' : NodeContext n} (hnone : ∀ i, ¬ s.Ready q i) (hidx : s'.rxPortIdx = s.rxPortIdx)
      (hlinks : s'.linkStates = s.linkStates) (hpending : s'.Pending q) : Round s q s' none
  | taken {s' : NodeContext n} {i : Fin (n+1)} {packet : List UInt8} {rest : List (List UInt8)}
      (hpick : Picks (s.Ready q) s.rxPortIdx i) (hhead : q i = packet :: rest)
      (hidx : s'.rxPortIdx = i + 1) (hlinks : s'.linkStates = s.linkStates)
      (hpending : s'.Pending (Function.update q i rest)) :
      Round s q s' (some ⟨recvPort i, packet⟩)

variable {s : NodeContext n} {q : Fin (n+1) → List (List UInt8)} {stopIdx : Fin (n+1)}

theorem recvLoop_end {s' : NodeContext n} {x : Option Received} (hv : s.visit = some (s', x))
    (hx : x ≠ none ∨ s'.rxPortIdx + 1 = stopIdx) (fuel : ℕ) :
    s.recvLoop stopIdx (fuel + 1) = some (s'.next, x) := by
  rw [NodeContext.recvLoop, hv, Option.bind_some, if_neg]
  rintro ⟨hnone, hne⟩
  cases hx with
  | inl hsome => exact hsome hnone
  | inr hstop => exact hne hstop

theorem recvLoop_next {s' : NodeContext n} (hv : s.visit = some (s', none))
    (hne : s'.rxPortIdx + 1 ≠ stopIdx) (fuel : ℕ) :
    s.recvLoop stopIdx (fuel + 1) = s'.next.recvLoop stopIdx fuel := by
  rw [NodeContext.recvLoop, hv, Option.bind_some, if_pos ⟨rfl, hne⟩]

theorem NodeContext.Pending.congr {s' : NodeContext n} (hp : s.Pending q)
    (hunread : s'.unread = s.unread) (huser : s'.mqUser = s.mqUser) : s'.Pending q where
  port := fun i => by
    rw [hunread]
    exact hp.port i
  user := by
    rw [huser]
    exact hp.user

theorem recvLoop_ready (hp : s.Pending q) (h : s.Ready q s.rxPortIdx) (fuel : ℕ) :
    ∃ s' x, s.recvLoop stopIdx (fuel + 1) = some (s', some x) ∧ s.Round q s' (some x) := by
  obtain ⟨s', packet, rest, hhead, hvisit, hidx, hlinks, hpending⟩ := visit_ready hp h
  refine ⟨_, _, recvLoop_end hvisit (Or.inl (by simp)) fuel, ?_⟩
  exact .taken (picks_self h) hhead (congrArg (· + 1) hidx) hlinks (hpending.congr rfl rfl)

/-- The loop from a port on which `r` more ports follow: none of them is ready, or the first one
that is has been served. -/
theorem recvLoop_spec (r : ℕ) (hp : s.Pending q) (hr : before (s.rxPortIdx + 1) stopIdx = r)
    {fuel : ℕ} (hfuel : r < fuel) :
    (∃ s', s.recvLoop stopIdx fuel = some (s', none) ∧ s'.rxPortIdx = stopIdx ∧
        s'.linkStates = s.linkStates ∧ s'.Pending q ∧
        ∀ j, before s.rxPortIdx j ≤ r → ¬ s.Ready q j) ∨
      ∃ s' x, s.recvLoop stopIdx fuel = some (s', some x) ∧ s.Round q s' (some x) := by
  induction r generalizing s fuel with
  | zero =>
    obtain ⟨fuel, rfl⟩ := Nat.exists_eq_succ_of_ne_zero hfuel.ne'
    by_cases hready : s.Ready q s.rxPortIdx
    · exact Or.inr (recvLoop_ready hp hready fuel)
    · obtain ⟨b, hvisit⟩ := visit_idle hp hready
      have hstop : s.rxPortIdx + 1 = stopIdx := by
        by_contra hne
        exact (before_pos (Ne.symm hne)).ne' hr
      refine Or.inl ⟨_, recvLoop_end hvisit (Or.inr hstop) fuel, hstop, rfl, hp.congr rfl rfl, ?_⟩
      intro j hj
      have hjs : before s.rxPortIdx j = before s.rxPortIdx s.rxPortIdx := by simpa using hj
      rwa [before_inj hjs]
  | succ r ih =>
    obtain ⟨fuel, rfl⟩ := Nat.exists_eq_succ_of_ne_zero (Nat.ne_of_gt (Nat.zero_lt_of_lt hfuel))
    by_cases hready : s.Ready q s.rxPortIdx
    · exact Or.inr (recvLoop_ready hp hready fuel)
    · obtain ⟨b, hvisit⟩ := visit_idle hp hready
      have hne : s.rxPortIdx + 1 ≠ stopIdx := by
        intro he
        simp [he] at hr
      rw [recvLoop_next hvisit hne]
      have hrest := before_next (Ne.symm hne)
      obtain ⟨s', hloop, hstop, hlinks, hpending, hnone⟩ | ⟨s', x, hloop, hround⟩ :=
        ih (s := NodeContext.next { s with recvBuffer := b }) (hp.congr rfl rfl)
          (Nat.succ.inj (hrest.symm.trans hr)) (Nat.lt_of_succ_lt_succ hfuel)
      · refine Or.inl ⟨s', hloop, hstop, hlinks, hpending, fun j hj => ?_⟩
        by_cases hjs : j = s.rxPortIdx
        · rwa [hjs]
        · rw [before_next hjs] at hj
          exact hnone j (Nat.le_of_succ_le_succ hj)
      · refine Or.inr ⟨s', x, hloop, ?_⟩
        cases hround with
        | taken hpick hhead hidx hlinks hpending =>
          exact .taken (picks_next hready hpick) hhead hidx hlinks hpending

theorem nodeRecv_spec (hp : s.Pending q) {fuel : ℕ} (hfuel : n < fuel) :
    ∃ s' x, s.nodeRecv fuel = some (s', x) ∧ s.Round q s' x := by
  obtain ⟨s', hloop, hstop, hlinks, hpending, hnone⟩ | ⟨s', x, hloop, hround⟩ :=
    recvLoop_spec n hp (before_round s.rxPortIdx) hfuel
  · refine ⟨s', none, hloop, .idle (fun j => ?_) hstop hlinks hpending⟩
    exact hnone j (Nat.le_of_lt_succ (before_lt _ _))
  · exact ⟨s', some x, hloop, hround⟩

end Round

section Fair
variable {s s' : NodeContext n} {q : Fin (n+1) → List (List UInt8)} {x : Option Received}

theorem NodeContext.Round.none_iff (h : s.Round q s' x) : x = none ↔ ∀ i, ¬ s.Ready q i := by
  cases h with
  | idle hnone _ _ _ => exact iff_of_true rfl hnone
  | taken hpick _ _ _ _ => exact iff_of_false (by simp) fun hnone => hnone _ hpick.isReady

theorem NodeContext.Round.picks (h : s.Round q s' x) {i : Fin (n+1)} (hi : s.Ready q i) :
    ∃ j, Picks (s.Ready q) s.rxPortIdx j ∧ s'.rxPortIdx = j + 1 ∧
      ∃ packet rest, q j = packet :: rest ∧ x = some ⟨recvPort j, packet⟩ ∧
        s'.Pending (Function.update q j rest) := by
  cases h with
  | idle hnone _ _ _ => exact absurd hi (hnone i)
  | taken hpick hhead hidx _ hpending => exact ⟨_, hpick, hidx, _, _, hhead, rfl, hpending⟩

structure Backlog (n : ℕ) where
  context : NodeContext n
  queues : Fin (n+1) → List (List UInt8)
  pending : context.Pending queues

/-- One call returns 0 exactly if no port is ready, and otherwise serves the first one that is on
the way round. Between calls everything but `rx_port_idx` may change; in `n + 1` calls, a port that
is ready at every one of them is served. -/
theorem node_recv_fair {fuel : ℕ} (hfuel : n < fuel) :
    (∀ t : Backlog n, ∃ s' x, t.context.nodeRecv fuel = some (s', x) ∧
      (x = none ↔ ∀ i, ¬ t.context.Ready t.queues i) ∧ t.context.Round t.queues s' x) ∧
    ∀ (t : ℕ → Backlog n) (i : Fin (n+1)),
      (∀ k < n, ∀ s' x, (t k).context.nodeRecv fuel = some (s', x) →
        (t (k + 1)).context.rxPortIdx = s'.rxPortIdx) →
      (∀ k ≤ n, (t k).context.Ready (t k).queues i) →
      ∃ k ≤ n, ∃ s' packet rest, (t k).queues i = packet :: rest ∧
        (t k).context.nodeRecv fuel = some (s', some ⟨recvPort i, packet⟩) ∧
        s'.Pending (Function.update (t k).queues i rest) := by
  refine ⟨fun t => ?_, fun t i hchain hready => ?_⟩
  · obtain ⟨s', x, hcall, hround⟩ := nodeRecv_spec t.pending hfuel
    exact ⟨s', x, hcall, hround.none_iff, hround⟩
  · have hcall := fun k => nodeRecv_spec (t k).pending hfuel
    choose s' x hcall hround using hcall
    obtain ⟨k, hk, hpicked⟩ := @picked_within n i (fun k => (t k).context.Ready (t k).queues)
      (fun k => (t k).context.rxPortIdx)
      (fun k hk => ((hround k).picks (hready k hk)).imp fun j hj => hj.1)
      (fun k hk j hj => by
        obtain ⟨j', hj', hidx, -⟩ := (hround k).picks (hready k hk.le)
        rw [hchain k hk _ _ (hcall k), hidx, hj.unique hj'])
      hready
    obtain ⟨j, hj, -, packet, rest, hhead, hx, hpending⟩ := (hround k).picks (hready k hk)
    obtain rfl := hj.unique hpicked
    exact ⟨k, hk, s' k, packet, rest, hhead, hx ▸ hcall k, hpending⟩

def twoPorts (start : Fin 2) : Backlog 1 where
  context := ⟨start, fun _ => true, fun _ => floodPacket.bytes, [floodPacket.bytes], fun _ => 0⟩
  queues := fun _ => [floodPacket.bytes]
  pending := ⟨fun _ => ⟨[floodPacket], rfl, [], by simp, floodPacket, by simp, by decide⟩, rfl⟩

/-- The neighbour port comes first, the user port in the second call. -/
theorem node_recv_fair_two : ∃ t : ℕ → Backlog 1, (t 0).context.rxPortIdx = 0 ∧
    ∃ k ≤ 1, ∃ s' packet rest, (t k).queues 1 = packet :: rest ∧
      (t k).context.nodeRecv 2 = some (s', some ⟨recvPort (n := 1) 1, packet⟩) ∧
      s'.Pending (Function.update (t k).queues 1 rest) := by
  let t : ℕ → Backlog 1 := fun k => twoPorts (if k = 0 then 0 else 1)
  have hready : ∀ k i, (t k).context.Ready (t k).queues i :=
    fun k i => ⟨fun _ _ => rfl, by simp [t, twoPorts]⟩
  have hchain : ∀ k < 1, ∀ s' x, (t k).context.nodeRecv 2 = some (s', x) →
      (t (k + 1)).context.rxPortIdx = s'.rxPortIdx := by
    intro k hk s' x hcall
    obtain rfl : k = 0 := by omega
    obtain ⟨s₀, x₀, hcall₀, hround⟩ := nodeRecv_spec (t 0).pending (Nat.lt_succ_self 1)
    obtain ⟨j, hj, hidx, -⟩ := hround.picks (hready 0 0)
    obtain ⟨rfl, rfl⟩ := Prod.mk.inj (Option.some.inj (hcall₀.symm.trans hcall))
    rw [hidx, hj.unique (picks_self (hready 0 0))]
    rfl
  exact ⟨t, rfl, (node_recv_fair (Nat.lt_succ_self 1)).2 t 1 hchain fun k _ => hready k 1⟩

end Fair

end Mixnet.NodeRecv
