import Mathlib.Data.Fintype.Lattice
import Mixnet.Executions
import Mixnet.Recovery

/-! Runs that never end and let every packet arrive. What waits in a channel is received; what was
in flight once is replaced by what its sender holds later. -/
namespace Mixnet
variable {V : Type*} {T : Topology V} [DecidableEq V]

/-- No link fails and no re-election timer fires; every packet in flight is taken in the end, and
the lowest node of every component of the live links says hello again and again. -/
structure Fair {s : Net T} (x : Runs.Execution Net.step s) : Prop where
  calm : ∀ n, (x.event n).Calm
  deliver : ∀ n v i, (x.state n).chan (T.peer v i) v ≠ [] →
    ∃ m, n ≤ m ∧ x.event m = .deliver v i
  hello : ∀ r, (∀ v, s.control.liveGraph.Reachable r v → T.addr r ≤ T.addr v) →
    ∀ n, ∃ m, n ≤ m ∧ x.event m = .hello r

section Channels

def Outcome.Tells {n : ℕ} (o : Outcome n) : Prop :=
  ∀ q ∈ o.sends, q.2.type = .stp → q.2 = o.node.advert

omit [DecidableEq V] in
theorem Outcome.IsStp.tells {n : ℕ} {o : Outcome n} (h : o.IsStp) : o.Tells := by
  intro q hq _
  obtain hs | hs := h
  · rw [hs] at hq
    obtain ⟨i, -, rfl⟩ := List.mem_map.mp hq
    rfl
  · simp [hs] at hq

omit [DecidableEq V] in
theorem tells_of_no_stp {n : ℕ} {o : Outcome n} (h : ∀ q ∈ o.sends, q.2.type ≠ .stp) : o.Tells :=
  fun q hq ht => absurd ht (h q hq)

variable {s s' : Net T}

theorem commit_chan_append {w : V} (flood : ℕ) {o : Outcome (T.deg w)} (ho : o.Tells) (u v : V) :
    ∃ more, (s.commit w flood o).chan u v = s.chan u v ++ more ∧ (u ≠ w → more = []) ∧
      ∀ f ∈ more, f.packet.type = .stp → f.packet = ((s.commit w flood o).node u).advert := by
  by_cases hu : u = w ∧ s.live w v
  · obtain ⟨rfl, hlive⟩ := hu
    refine ⟨T.wire u o flood v, by simp [Net.commit, hlive], fun h => absurd rfl h, ?_⟩
    intro f hf ht
    obtain ⟨-, q, hq, hqf⟩ := mem_wire hf
    rw [← hqf] at ht ⊢
    rw [ho q hq ht]
    simp [Net.commit]
  · exact ⟨[], by simp [Net.commit, hu], fun _ => rfl, by simp⟩

theorem deliver_chan {w : V} {k : Fin (T.deg w)} {f : Flight} {rest : List Flight} {flood : ℕ}
    {o : Outcome (T.deg w)} (hchan : s.chan (T.peer w k) w = f :: rest) (ho : o.Tells) (v : V)
    (i : Fin (T.deg v)) :
    ((Event.deliver w k : Event T) = .deliver v i ∧ ∃ g, s.chan (T.peer v i) v =
      g :: ((s.take w k f rest).commit w flood o).chan (T.peer v i) v) ∨
    (Event.deliver w k : Event T) ≠ .deliver v i ∧ ∃ more,
      ((s.take w k f rest).commit w flood o).chan (T.peer v i) v =
        s.chan (T.peer v i) v ++ more ∧ ∀ g ∈ more, g.packet.type = .stp →
        g.packet = (((s.take w k f rest).commit w flood o).node (T.peer v i)).advert := by
  obtain ⟨more, hmore, hnone, hadvert⟩ :=
    commit_chan_append (s := s.take w k f rest) flood ho (T.peer v i) v
  by_cases hhere : (Event.deliver w k : Event T) = .deliver v i
  · left
    cases hhere
    refine ⟨rfl, f, ?_⟩
    rw [hmore, hnone (T.peer_ne w k), List.append_nil, hchan]
    simp [Net.take]
  · right
    refine ⟨hhere, more, ?_, hadvert⟩
    have hother : ¬ (T.peer v i = T.peer w k ∧ v = w) := by
      rintro ⟨hpeer, rfl⟩
      exact hhere (by rw [T.peer_injective v hpeer])
    rw [hmore, Net.take]
    simp [hother]

theorem step_chan {e : Event T} (hs : s.step e = some s') (hcalm : e.Calm) (v : V)
    (i : Fin (T.deg v)) :
    (e = .deliver v i ∧ ∃ f, s.chan (T.peer v i) v = f :: s'.chan (T.peer v i) v) ∨
    e ≠ .deliver v i ∧ ∃ more, s'.chan (T.peer v i) v = s.chan (T.peer v i) v ++ more ∧
      ∀ f ∈ more, f.packet.type = .stp → f.packet = (s'.node (T.peer v i)).advert := by
  cases step_case hs with
  | stp w k f rest o hchan ht hc => exact deliver_chan hchan hc.isStp.tells v i
  | flood w k f rest hchan ht =>
    refine deliver_chan hchan (tells_of_no_stp fun q hq => ?_) v i
    dsimp only at hq
    split_ifs at hq
    · simp at hq
    · exact sendFlood_no_stp _ _ q hq
  | other w k f rest hchan _ _ => exact deliver_chan hchan (tells_of_no_stp (by simp)) v i
  | inject w payload =>
    obtain ⟨more, hmore, -, hadvert⟩ := commit_chan_append (s := s.began w)
      s.origins.length (o := ⟨s.node w, sendFlood (s.node w) (Fin.last _), false⟩)
      (tells_of_no_stp (sendFlood_no_stp _ _)) (T.peer v i) v
    exact Or.inr ⟨by simp, more, hmore, hadvert⟩
  | hello w hroot =>
    obtain ⟨more, hmore, -, hadvert⟩ := commit_chan_append (s := s) 0
      (o := rootHello (s.node w)) (Outcome.IsStp.tells (Or.inl rfl)) (T.peer v i) v
    exact Or.inr ⟨by simp, more, hmore, hadvert⟩
  | reelect w hroot => exact absurd hcalm id
  | fail a b => exact absurd hcalm id

end Channels

section Fair
variable {s : Net T} {x : Runs.Execution Net.step s}

theorem Fair.reach (h : Fair x) {m n : ℕ} (hmn : m ≤ n) :
    Net.Reach (fun _ e => e.Calm) (x.state m) (x.state n) := x.reach h.calm hmn

theorem Fair.reach_start (h : Fair x) (n : ℕ) : Net.Reach (fun _ e => e.Calm) s (x.state n) :=
  x.reach_start h.calm n

theorem Fair.fifo (h : Fair x) (v : V) (i : Fin (T.deg v)) :
    Runs.Fifo (fun n => (x.state n).chan (T.peer v i) v) (fun n => x.event n = .deliver v i)
      fun n f => f.packet.type = .stp →
        f.packet = ((x.state (n + 1)).node (T.peer v i)).advert where
  pop := by
    intro n hn
    obtain ⟨-, hpop⟩ | ⟨hne, -⟩ := step_chan (x.steps n) (h.calm n) v i
    · exact hpop
    · exact absurd hn hne
  keep := by
    intro n hn
    obtain ⟨he, -⟩ | ⟨-, hkeep⟩ := step_chan (x.steps n) (h.calm n) v i
    · exact absurd he hn
    · exact hkeep
  fair := fun n => h.deliver n v i

omit [DecidableEq V] in
theorem exists_flight {u v : V} {p : StpPayload} (hp : p ∈ s.stps u v) :
    ∃ f ∈ s.chan u v, f.packet.type = .stp ∧ f.packet.payload = p := by
  obtain ⟨f, hf, hfp⟩ := List.mem_filterMap.mp hp
  split_ifs at hfp with ht
  exact ⟨f, hf, ht, Option.some.inj hfp⟩

theorem ControlStep.deliver_cases {c c' : Control T} {v : V} {i : Fin (T.deg v)}
    (h : ControlStep c (.deliver v i) c') : ∃ p rest o, c.queue (T.peer v i) v = p :: rest ∧
      StpCase (c.node v) i p o ∧ c' = (c.take v i rest).commit v o := by
  cases h with
  | receive v i p rest o hq hc => exact ⟨p, rest, o, hq, hc, rfl⟩

theorem Fair.receives (h : Fair x) {n : ℕ} {v : V} {i : Fin (T.deg v)}
    (hne : (x.state n).stps (T.peer v i) v ≠ []) : ∃ m, n ≤ m ∧ ∃ p rest o,
      (x.state m).control.queue (T.peer v i) v = p :: rest ∧
      StpCase ((x.state m).node v) i p o ∧
      (x.state (m + 1)).control = ((x.state m).control.take v i rest).commit v o := by
  obtain ⟨p, hp⟩ := List.exists_mem_of_ne_nil _ hne
  obtain ⟨f, hf, ht, -⟩ := exists_flight hp
  obtain ⟨m, hnm, hevent, hhead⟩ := (h.fifo v i).served hf
  have hstep := x.steps m
  rw [hevent] at hstep
  refine ⟨m, hnm, ?_⟩
  obtain ⟨-, hcontrol⟩ | ⟨hno, -⟩ := control_step hstep
  · exact hcontrol.deliver_cases
  · exact absurd ⟨f, _, hhead, ht⟩ hno

end Fair

section Schedule
variable {s : Net T}

theorem deliver_enabled {v : V} {i : Fin (T.deg v)} (h : s.chan (T.peer v i) v ≠ []) :
    (s.step (.deliver v i)).isSome := by
  cases hchan : s.chan (T.peer v i) v with
  | nil => exact absurd hchan h
  | cons f rest =>
    simp only [Net.step, hchan, Option.isSome_map]
    cases ht : f.packet.type with
    | stp =>
      obtain ⟨o, ho, -⟩ := processPacket_stp (s.node v) i ht
      simp [Node.step, ho]
    | flood => simp [Node.step, processPacket_flood (s.node v) i ht]
    | lsa | data | ping => simp [Node.step, processPacket, ht]

theorem hello_enabled {v : V} (h : (s.node v).rootAddr = (s.node v).myAddr) :
    (s.step (.hello v)).isSome := by
  simp [Net.step, Node.step, h]

omit [DecidableEq V] in
theorem lowest_root {c : Control T} (h : LiveRoutes c) (hp : PortInv c) {r : V}
    (hlowest : ∀ v, c.liveGraph.Reachable r v → T.addr r ≤ T.addr v) :
    (c.node r).rootAddr = (c.node r).myAddr := by
  obtain ⟨w, hreach, hroot, -⟩ := (h.node r).near
  have hname : (c.node r).rootAddr = T.addr w := UInt16.toNat_inj.mp hroot.symm
  have hle := (hp.links.node r).root_le
  rw [hp.links.myAddr r] at hle ⊢
  refine UInt16.le_antisymm hle ?_
  rw [hname]
  exact hlowest w hreach

def Event.turn : (Σ v, Fin (T.deg v)) ⊕ V ⊕ V → Event T
  | .inl k => .deliver k.1 k.2
  | .inr (.inl v) => .hello v
  | .inr (.inr v) => .inject v ⟨0, 0, 0⟩

omit [DecidableEq V] in
theorem Event.turn_calm (k : (Σ v, Fin (T.deg v)) ⊕ V ⊕ V) : (Event.turn k).Calm := by
  obtain k | v | v := k
  · exact trivial
  · exact trivial
  · exact trivial

theorem inject_enabled (v : V) (payload : StpPayload) : (s.step (.inject v payload)).isSome := by
  simp [Net.step, Node.step, processPacket_user (s.node v) ⟨12, .flood, payload⟩ rfl]

/-- From every state whose routes are backed a fair run goes on in which every user injects again
and again. -/
theorem fair_exists [Fintype V] [Nonempty V]
    (hreach : Net.Reach (fun _ _ => True) (Net.init T) s) (hroutes : LiveRoutes s.control) :
    ∃ x : Runs.Execution Net.step s, Fair x ∧
      ∀ v n, ∃ m, n ≤ m ∧ ∃ payload, x.event m = .inject v payload := by
  have hport : PortInv s.control :=
    portInv_reach (A := fun _ _ => True) hreach (control_init T ▸ PortInv.init)
  obtain ⟨r₀, hr₀⟩ := Finite.exists_min T.rank
  obtain ⟨f, hf⟩ := Runs.exists_recurring ((Σ v, Fin (T.deg v)) ⊕ V ⊕ V)
  obtain ⟨x, hx⟩ := Runs.exists_execution Net.step (fun n => Event.turn (f n)) (.hello r₀)
    (A := Event.Calm) (P := fun t => Recovering (fun v i => max 1 (s.processed v i)) s.sentStp
      s.live t.control)
    (fun n => Event.turn_calm (f n)) trivial (.start hport (counted_reach hreach) hroutes)
    (fun t u e ht hcalm hstep => by
      obtain ⟨-, hc⟩ | ⟨-, heq⟩ := control_step hstep
      · exact ht.step (fun _ _ => le_max_left _ _) hcalm hc
      · rwa [heq])
    (fun t ht => hello_enabled (lowest_root ht.routes ht.toPortInv fun v _ =>
      UInt16.le_iff_toNat_le.mpr (hr₀ v)))
  refine ⟨x, ⟨fun n => (hx n).2.1, fun n v i hne => ?_, fun r hr n => ?_⟩, fun v n => ?_⟩
  · by_contra hnone
    have hnever : ∀ m, n ≤ m → x.event m ≠ .deliver v i := fun m hm he => hnone ⟨m, hm, he⟩
    have hkeep : ∀ m, n ≤ m → (x.state m).chan (T.peer v i) v ≠ [] := by
      intro m hm
      induction m, hm using Nat.le_induction with
      | base => exact hne
      | succ m hm ih =>
        obtain ⟨he, -⟩ | ⟨-, more, hmore, -⟩ := step_chan (x.steps m) (hx m).2.1 v i
        · exact absurd he (hnever m hm)
        · rw [hmore]
          exact List.append_ne_nil_of_left_ne_nil ih more
    obtain ⟨m, hm, hfm⟩ := hf (.inl ⟨v, i⟩) n
    have hevent := (hx m).2.2
    rw [hfm] at hevent
    exact hnever m hm (hevent (deliver_enabled (hkeep m hm)))
  · obtain ⟨m, hm, hfm⟩ := hf (.inr (.inl r)) n
    have hevent := (hx m).2.2
    rw [hfm] at hevent
    have hrec := (hx m).1
    refine ⟨m, hm, hevent (hello_enabled (lowest_root hrec.routes hrec.toPortInv ?_))⟩
    rw [liveGraph_congr (c := s.control) hrec.live_eq]
    exact hr
  · obtain ⟨m, hm, hfm⟩ := hf (.inr (.inr v)) n
    have hevent := (hx m).2.2
    rw [hfm] at hevent
    exact ⟨m, hm, _, hevent (inject_enabled v _)⟩

end Schedule

end Mixnet
