import Mathlib.Data.List.Basic
import Mixnet.NodeRules

/-! The two timers of `run_node`. The clock is read in milliseconds without bound; what the node
stores and subtracts is a reading modulo 2^32. -/
namespace Mixnet
variable {n : ℕ}

def getTimeInMs (reading : ℕ) : UInt32 := UInt32.ofNat reading

/-- The intervals of `mixnet_node_config`, with their defaults. -/
structure Intervals where
  rootHelloIntervalMs : UInt32 := 2000
  reelectionIntervalMs : UInt32 := 20000

/-- The variables of the loop of `run_node`. The last three are not in the source: the latest
clock reading, the one stored in `re_election_time`, and when the node last accepted an
advertisement for each root. -/
structure NodeLoop (n : ℕ) where
  node : Node n
  heartbeatTime : UInt32
  reElectionTime : UInt32
  clock : ℕ
  refreshed : ℕ
  accepted : UInt16 → Option ℕ

/-- One turn of the loop: what `mixnet_recv` delivers, and the clock at each place where the
body may read it. The last one is the time at which the packet is handled. -/
structure LoopTurn (n : ℕ) where
  recv : Option (Fin (n+1) × Packet)
  heartbeatDue : ℕ
  heartbeatSet : ℕ
  heartbeatReset : ℕ
  reElectionDue : ℕ
  reElectionSet : ℕ
  handled : ℕ
deriving DecidableEq

def LoopTurn.sudden (reading : ℕ) (recv : Option (Fin (n+1) × Packet)) : LoopTurn n :=
  ⟨recv, reading, reading, reading, reading, reading, reading⟩

def LoopTurn.readings (t : LoopTurn n) : List ℕ :=
  [t.heartbeatDue, t.heartbeatSet, t.heartbeatReset, t.reElectionDue, t.reElectionSet, t.handled]

def NodeLoop.start (n : ℕ) (nodeAddr : UInt16) (reElectionTime heartbeatTime : ℕ) :
    NodeLoop n where
  node := initNode n nodeAddr
  heartbeatTime := getTimeInMs heartbeatTime
  reElectionTime := getTimeInMs reElectionTime
  clock := heartbeatTime
  refreshed := reElectionTime
  accepted := fun _ => none

def NodeLoop.hello (c : Intervals) (s : NodeLoop n) (t : LoopTurn n) : NodeLoop n :=
  if s.node.rootAddr = s.node.myAddr ∧
      c.rootHelloIntervalMs ≤ getTimeInMs t.heartbeatDue - s.heartbeatTime then
    { s with
      node := (rootHello s.node).node
      heartbeatTime := getTimeInMs t.heartbeatSet
      reElectionTime := getTimeInMs t.heartbeatReset
      refreshed := t.heartbeatReset }
  else s

def NodeLoop.Fires (c : Intervals) (s : NodeLoop n) (t : LoopTurn n) : Prop :=
  s.node.rootAddr ≠ s.node.myAddr ∧
    c.reelectionIntervalMs ≤ getTimeInMs t.reElectionDue - s.reElectionTime

instance (c : Intervals) (s : NodeLoop n) (t : LoopTurn n) : Decidable (s.Fires c t) :=
  inferInstanceAs (Decidable (_ ∧ _))

def NodeLoop.reelection (c : Intervals) (s : NodeLoop n) (t : LoopTurn n) : NodeLoop n :=
  if s.Fires c t then
    { s with
      node := (reelect s.node).node
      reElectionTime := getTimeInMs t.reElectionSet
      refreshed := t.reElectionSet }
  else s

/-- The advertisement is accepted: the matching-parent branch is taken, or `receive_STP` adopts
what it offers. -/
def Node.Accepts (node after : Node n) (packet : Packet) : Prop :=
  packet.type = .stp ∧ (node.matchesParent packet.payload ∨ after.route ≠ node.route)

instance (node after : Node n) (packet : Packet) : Decidable (node.Accepts after packet) :=
  inferInstanceAs (Decidable (_ ∧ (_ ∨ _)))

def NodeLoop.packet (s : NodeLoop n) (t : LoopTurn n) : Option (NodeLoop n) :=
  match t.recv with
  | none => some s
  | some (port, packet) => (processPacket s.node port packet).map fun o =>
    { s with
      node := o.node
      reElectionTime := if o.refreshed then getTimeInMs t.handled else s.reElectionTime
      refreshed := if o.refreshed then t.handled else s.refreshed
      accepted := if s.node.Accepts o.node packet then
          Function.update s.accepted o.node.rootAddr (some t.handled)
        else s.accepted }

/-- One turn of the loop, with clock readings that never go back. -/
def NodeLoop.turn (c : Intervals) (s : NodeLoop n) (t : LoopTurn n) : Option (NodeLoop n) :=
  if (s.clock :: t.readings).Pairwise (· ≤ ·) then
    (((s.hello c t).reelection c t).packet t).map fun s => { s with clock := t.handled }
  else none

structure NodeLoop.Timed (s : NodeLoop n) : Prop where
  stored : s.reElectionTime = getTimeInMs s.refreshed
  past : s.refreshed ≤ s.clock

theorem getTimeInMs_add_sub (earlier passed : ℕ) :
    getTimeInMs (earlier + passed) - getTimeInMs earlier = getTimeInMs passed := by
  rw [getTimeInMs, getTimeInMs, getTimeInMs, UInt32.ofNat_add, UInt32.add_comm,
    UInt32.add_sub_cancel]

theorem getTimeInMs_sub_le {earlier later : ℕ} (h : earlier ≤ later) :
    (getTimeInMs later - getTimeInMs earlier).toNat ≤ later - earlier := by
  have hpassed := getTimeInMs_add_sub earlier (later - earlier)
  rw [Nat.add_sub_cancel' h] at hpassed
  rw [hpassed, getTimeInMs, UInt32.toNat_ofNat']
  exact Nat.mod_le _ _

theorem readings_sorted {s : NodeLoop n} {t : LoopTurn n}
    (h : (s.clock :: t.readings).Pairwise (· ≤ ·)) :
    s.clock ≤ t.heartbeatReset ∧ t.heartbeatReset ≤ t.reElectionDue ∧
      t.reElectionDue ≤ t.reElectionSet ∧ t.reElectionSet ≤ t.handled := by
  simp only [LoopTurn.readings, List.pairwise_cons, List.mem_cons] at h
  obtain ⟨h0, h1, h2, h3, h4, h5, h6⟩ := h
  exact ⟨h0 _ (by simp), h3 _ (by simp), h4 _ (by simp), h5 _ (by simp)⟩

theorem hello_cases (c : Intervals) (s : NodeLoop n) (t : LoopTurn n) :
    (s.hello c t).node = s.node ∧ (s.hello c t).accepted = s.accepted ∧
      (s.hello c t = s ∨ s.node.rootAddr = s.node.myAddr ∧
        (s.hello c t).reElectionTime = getTimeInMs t.heartbeatReset ∧
        (s.hello c t).refreshed = t.heartbeatReset) := by
  by_cases h : s.node.rootAddr = s.node.myAddr ∧
      c.rootHelloIntervalMs ≤ getTimeInMs t.heartbeatDue - s.heartbeatTime
  · rw [NodeLoop.hello, if_pos h]
    exact ⟨rfl, rfl, Or.inr ⟨h.1, rfl, rfl⟩⟩
  · rw [NodeLoop.hello, if_neg h]
    exact ⟨rfl, rfl, Or.inl rfl⟩

theorem NodeLoop.Timed.turn {c : Intervals} {s s' : NodeLoop n} {t : LoopTurn n} (h : s.Timed)
    (hs : s.turn c t = some s') : s'.Timed := by
  rw [NodeLoop.turn] at hs
  split_ifs at hs with hsorted
  obtain ⟨h1, h2, h3, h4⟩ := readings_sorted hsorted
  obtain ⟨u, hu, rfl⟩ := Option.map_eq_some_iff.mp hs
  have hhello : (s.hello c t).reElectionTime = getTimeInMs (s.hello c t).refreshed ∧
      (s.hello c t).refreshed ≤ t.heartbeatReset := by
    obtain ⟨-, -, heq | ⟨-, hstored, hset⟩⟩ := hello_cases c s t
    · rw [heq]
      exact ⟨h.stored, h.past.trans h1⟩
    · rw [hstored, hset]
      exact ⟨rfl, le_rfl⟩
  have helect : ((s.hello c t).reelection c t).reElectionTime =
      getTimeInMs ((s.hello c t).reelection c t).refreshed ∧
      ((s.hello c t).reelection c t).refreshed ≤ t.reElectionSet := by
    rw [NodeLoop.reelection]
    split_ifs
    · exact ⟨rfl, le_rfl⟩
    · exact ⟨hhello.1, by omega⟩
  rw [NodeLoop.packet] at hu
  split at hu
  · obtain rfl := Option.some.inj hu
    exact ⟨helect.1, helect.2.trans h4⟩
  · obtain ⟨o, -, rfl⟩ := Option.map_eq_some_iff.mp hu
    cases ho : o.refreshed with
    | false => exact ⟨by simpa [ho] using helect.1, by simpa [ho] using helect.2.trans h4⟩
    | true => exact ⟨by simp, by simp⟩

/-- A node whose re-election branch is taken in this turn has stored the time at which, or after
which, it last accepted an advertisement for its root. -/
def NodeLoop.Timely (c : Intervals) (s : NodeLoop n) (t : LoopTurn n) : Prop :=
  (s.hello c t).Fires c t → ∀ time ∈ s.accepted s.node.rootAddr, time ≤ s.refreshed

instance (c : Intervals) (s : NodeLoop n) (t : LoopTurn n) : Decidable (s.Timely c t) :=
  inferInstanceAs (Decidable (_ → ∀ time ∈ s.accepted s.node.rootAddr, _))

theorem NodeLoop.Timed.fires {c : Intervals} {s : NodeLoop n} {t : LoopTurn n} (h : s.Timed)
    (hsorted : (s.clock :: t.readings).Pairwise (· ≤ ·)) (hfires : (s.hello c t).Fires c t) :
    s.refreshed + c.reelectionIntervalMs.toNat ≤ t.reElectionDue := by
  obtain ⟨h1, h2, -, -⟩ := readings_sorted hsorted
  obtain ⟨hnode, -, heq | ⟨hself, -, -⟩⟩ := hello_cases c s t
  · rw [heq] at hfires
    have hdue := UInt32.le_iff_toNat_le.mp hfires.2
    rw [h.stored] at hdue
    have hpast : s.refreshed ≤ t.reElectionDue := h.past.trans (h1.trans h2)
    have hpassed := getTimeInMs_sub_le hpast
    omega
  · exact absurd (by rw [hnode]; exact hself) hfires.1

/-- In every run whose turns are all timely the re-election branch is never taken earlier than
the interval after the node last accepted an advertisement for its root. -/
theorem reelection_after_silence (c : Intervals) (nodeAddr : UInt16)
    (reElectionTime heartbeatTime : ℕ) (hstart : reElectionTime ≤ heartbeatTime)
    (s s' : NodeLoop n)
    (hreach : Runs.Reach (NodeLoop.turn c) (NodeLoop.Timely c)
      (NodeLoop.start n nodeAddr reElectionTime heartbeatTime) s)
    (t : LoopTurn n) (hturn : s.turn c t = some s') (htimely : s.Timely c t)
    (hfires : (s.hello c t).Fires c t) (time : ℕ)
    (haccepted : (s.hello c t).accepted (s.hello c t).node.rootAddr = some time) :
    time + c.reelectionIntervalMs.toNat ≤ t.reElectionDue := by
  have hinit : (NodeLoop.start n nodeAddr reElectionTime heartbeatTime).Timed := ⟨rfl, hstart⟩
  have htimed : s.Timed := hreach.invariant hinit fun _ _ _ h _ hs => h.turn hs
  rw [NodeLoop.turn] at hturn
  split_ifs at hturn with hsorted
  obtain ⟨hnode, hacc, -⟩ := hello_cases c s t
  rw [hnode, hacc] at haccepted
  have hsince := htimely hfires time haccepted
  have hdue := htimed.fires hsorted hfires
  omega

/-- Node 2 adopts its neighbour 1 at 20 ms, hears from it again at 30 ms and then no more. -/
theorem reelection_after_silence_two : ∃ s s' : NodeLoop 1,
    (s.hello {} (.sudden 20030 none)).Fires {} (.sudden 20030 none) ∧
    s.turn {} (.sudden 20030 none) = some s' ∧
    30 + (20000 : UInt32).toNat ≤ (LoopTurn.sudden 20030 none : LoopTurn 1).reElectionDue := by
  let last : LoopTurn 1 := .sudden 20030 none
  let hears (reading : ℕ) : LoopTurn 1 := .sudden reading (some (0, initializeStpPacket 1 0 1))
  have hrun : ((Runs.run (fun s t => if NodeLoop.Timely {} s t then s.turn {} t else none)
      [hears 10, hears 20, hears 30] (NodeLoop.start 1 2 0 0)).any fun s =>
        decide (s.Timely {} last ∧ (s.hello {} last).Fires {} last ∧
          (s.turn {} last).isSome = true ∧
          (s.hello {} last).accepted (s.hello {} last).node.rootAddr = some 30)) = true := by
    decide +kernel
  obtain ⟨s, hs, hall⟩ := (Option.any_eq_true _ _).mp hrun
  obtain ⟨htimely, hfires, hturn, hacc⟩ := of_decide_eq_true hall
  obtain ⟨s', hs'⟩ := Option.isSome_iff_exists.mp hturn
  exact ⟨s, s', hfires, hs', reelection_after_silence {} 2 0 0 (le_refl 0) s s'
    (Runs.reach_of_checked hs) last hs' htimely hfires 30 hacc⟩

/-- Node 2 says hello at 2000 ms, adopts its neighbour 1 at 3999 ms, and elects itself again
20000 ms after its own hello. -/
theorem reelection_after_adoption : ∃ s s' : NodeLoop 1,
    Runs.Reach (NodeLoop.turn {}) (fun _ _ => True) (.start 1 2 0 0) s ∧
    s.turn {} (.sudden 22000 none) = some s' ∧
    (s.hello {} (.sudden 22000 none)).Fires {} (.sudden 22000 none) ∧
    (s.hello {} (.sudden 22000 none)).accepted
      (s.hello {} (.sudden 22000 none)).node.rootAddr = some 3999 ∧
    ¬ 3999 + (20000 : UInt32).toNat ≤ (LoopTurn.sudden 22000 none : LoopTurn 1).reElectionDue := by
  let last : LoopTurn 1 := .sudden 22000 none
  let hears (reading : ℕ) : LoopTurn 1 := .sudden reading (some (0, initializeStpPacket 1 0 1))
  have hrun : ((Runs.run (NodeLoop.turn {}) [hears 1, .sudden 2000 none, hears 3999]
      (NodeLoop.start 1 2 0 0)).any fun s => decide ((s.turn {} last).isSome = true ∧
        (s.hello {} last).Fires {} last ∧
        (s.hello {} last).accepted (s.hello {} last).node.rootAddr = some 3999)) = true := by
    decide +kernel
  obtain ⟨s, hs, hall⟩ := (Option.any_eq_true _ _).mp hrun
  obtain ⟨hturn, hfires, hacc⟩ := of_decide_eq_true hall
  obtain ⟨s', hs'⟩ := Option.isSome_iff_exists.mp hturn
  exact ⟨s, s', Runs.reach_of_run (fun _ _ _ => trivial) hs, hs', hfires, hacc, by decide⟩

/-- Conversely, a timer older than the last accepted advertisement fires too early when the
loop comes round as it runs out. -/
theorem stale_timer_fires_early {c : Intervals} {s : NodeLoop n} {time : ℕ} (h : s.Timed)
    (hroot : s.node.rootAddr ≠ s.node.myAddr) (hstale : s.refreshed < time)
    (hclock : s.clock ≤ s.refreshed + c.reelectionIntervalMs.toNat) :
    ∃ t s', s.turn c t = some s' ∧ (s.hello c t).Fires c t ∧
      t.reElectionDue < time + c.reelectionIntervalMs.toNat := by
  let t : LoopTurn n := .sudden (s.refreshed + c.reelectionIntervalMs.toNat) none
  have hturn : s.turn c t =
      some { (s.hello c t).reelection c t with clock := t.handled } := by
    rw [NodeLoop.turn, if_pos (by simpa [t, LoopTurn.sudden, LoopTurn.readings] using hclock)]
    rfl
  have hhello : s.hello c t = s := by rw [NodeLoop.hello, if_neg fun hself => hroot hself.1]
  have hpassed : getTimeInMs t.reElectionDue - s.reElectionTime = c.reelectionIntervalMs := by
    rw [h.stored]
    exact (getTimeInMs_add_sub _ _).trans UInt32.ofNat_toNat
  refine ⟨t, _, hturn, ?_, ?_⟩
  · rw [hhello]
    exact ⟨hroot, hpassed ▸ UInt32.le_refl _⟩
  · change s.refreshed + c.reelectionIntervalMs.toNat < _
    omega

end Mixnet
