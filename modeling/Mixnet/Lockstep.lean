import Mixnet.SessionOrchestrator

/-! Lockstep: every message that a fragment receives is one that its state accepts, every response
that the orchestrator reads is one that it waits for, and the nodes are launched when all of them
are connected. -/
namespace Mixnet.Session
open Orchestrator (World)

variable {S : Setting} {w w' : System} {q : ℕ}

theorem Setting.world_spec (S : Setting) : S.world.size = S.size ∧
    (∀ v, ∀ fid < S.size, descriptor (S.world.fragments fid) v = -1) ∧
    (S.autotestMode = true → ∀ fid < S.size, (S.world.fragments fid).pid = S.pid fid) := by
  rw [Setting.world]
  split_ifs with hmode
  · have hfresh : World.Fresh {} := ⟨rfl, fun _ => rfl, rfl, rfl, rfl⟩
    obtain ⟨idx, hforked, hall⟩ :=
      Orchestrator.forkAll_forked S.size (hfresh.forked_zero fun q => some (S.pid q))
    obtain rfl : idx = S.size := by
      have hforks : ∀ (k i : ℕ) (w : World),
          (Orchestrator.forkAll (fun q => some (S.pid q)) k i w).1 = true := by
        intro k
        induction k with
        | zero => exact fun _ _ => rfl
        | succ k ih => exact fun i w => ih (i + 1) _
      simpa using hall (hforks _ _ _)
    refine ⟨hforked.size, fun v fid hfid => ?_, fun _ fid hfid => ?_⟩
    · obtain ⟨pid, -, hfragment⟩ := hforked.pid fid hfid
      rw [hfragment]
      cases v <;> rfl
    · obtain ⟨pid, hpid, hfragment⟩ := hforked.pid fid hfid
      obtain rfl := Option.some.inj hpid
      rw [hfragment]
  · exact ⟨rfl, fun v fid _ => by cases v <;> rfl, fun hmode' => absurd hmode' hmode⟩

theorem SystemInv.start (S : Setting) : SystemInv S S.start := by
  obtain ⟨hsize, hfds, hpids⟩ := S.world_spec
  have hstage : ∀ q, S.stage S.start.orc q = .hello .ctrl := S.stage_idle rfl rfl rfl
  refine ⟨?_, fun q hq => ?_⟩
  · exact
      { size := hsize
        code := rfl
        nodup := fun _ => List.nodup_nil
        lt := fun _ q hq => absurd hq List.not_mem_nil
        full := fun v hmet => by
          cases v with
          | ctrl => exact absurd rfl hmet.1
          | pcap =>
            have hrank : (Stage.hello .pcap).rank ≤ (Stage.hello .ctrl).rank := hmet.2
            exact absurd hrank (by decide)
        pids := fun _ => hpids
        fds := fun v fid hfid => by
          rw [hstage]
          exact (hfds v fid hfid).trans (if_neg (Nat.not_lt_zero _)).symm
        pending := Nat.add_zero _
        answered := List.nodup_nil
        answered_lt := fun _ h => absurd h List.not_mem_nil
        sent := Nat.zero_le _
        sends := fun _ => rfl
        receives := fun _ => rfl
        call := fun _ _ h => absurd h (by simp [Setting.start]) }
  · exact
      { coherent := by
          have hqueue : S.start.queue q = fun _ => [] := by
            funext c
            simp [System.queue, Setting.start]
          rw [hstage, hqueue]
          exact .start _
        requests := fun _ _ h => absurd h List.not_mem_nil
        responses := fun _ _ h => absurd h List.not_mem_nil
        pid := rfl
        joined := fun hrank =>
          absurd (show (Stage.request .setupPcap).rank ≤ (Stage.hello .ctrl).rank from hrank)
            (by decide)
        neighbors := fun hrank =>
          absurd (show (Stage.answer .topology).rank ≤ (Stage.hello .ctrl).rank from hrank)
            (by decide)
        launched := fun h => absurd h Bool.false_ne_true
        packets := fun _ _ h => absurd h List.not_mem_nil }

theorem SystemInv.step {e : Event} (h : SystemInv S w) (hs : w.step S e = some w') :
    SystemInv S w' := by
  cases e with
  | connect q v => exact h.connect hs
  | respond q r => exact h.respond hs
  | receive q => exact h.receive hs
  | launch q => exact h.launch hs
  | packet q totalSize => exact h.packet hs
  | fail q ec => exact h.fail hs
  | accept q v => exact h.accept hs
  | send => exact h.send hs
  | gather idx => exact h.gather hs
  | next ec => exact h.next hs
  | call fid t => exact h.call hs
  | result => exact h.result hs
  | capture fid => exact h.capture hs

theorem systemInv_reach (h : Runs.Reach (System.step S) (fun _ _ => True) S.start w) :
    SystemInv S w :=
  h.invariant (SystemInv.start S) fun _ _ _ hw _ hs => hw.step hs

theorem SystemInv.expects (h : SystemInv S w) {r : Read} (hr : S.Reads w.orc r) {m : Response}
    {rest : List Response} (hhead : w.responses (r.process, r.overlay) = m :: rest) :
    r.Expects m := by
  cases hr with
  | @gather idx m' x hx hidx hnew =>
    obtain ⟨hreceives, hfds, -, -, -⟩ := exchange_spec hx
    rw [hfds, (h.orc.fds_getD (Or.inl hreceives)).1] at hidx
    obtain ⟨htarget, hq⟩ := h.orc.target (Or.inl hreceives) hidx
    simp only [htarget] at hhead
    obtain ⟨htold, htype, -, -⟩ := (h.peers _ hq).expected h.orc hx hidx hnew hhead
    exact ⟨htold.valid, htold.direction, (h.orc.header hx hidx htold htype).1, htype⟩
  | @result fid t hcall =>
    obtain ⟨hop, hfid⟩ := h.orc.call fid t hcall
    obtain ⟨hpeer, hlt⟩ := h.orc.peer_fragment (v := .ctrl) hop hfid
    change S.peer .ctrl (w.orc.gather.state.fragments fid).fdCtrl = _ at hpeer
    simp only [hpeer] at hhead
    obtain ⟨htold, htype, -⟩ := h.replied hcall hhead
    refine ⟨htold.valid, htold.direction, fun _ => ?_, htype⟩
    obtain ⟨id, hid, he, -⟩ := htold.id.resolve_left fun hctrl => by
      rw [htype] at hctrl
      cases t <;> exact absurd hctrl (by decide)
    rw [he, hid.unique h.orc hlt ⟨hfid, rfl⟩]
  | @capture fid hop hfid =>
    rw [h.orc.size] at hfid
    obtain ⟨hpeer, hlt⟩ := h.orc.peer_fragment (v := .pcap) hop hfid
    change S.peer .pcap (w.orc.gather.state.fragments fid).fdPcap = _ at hpeer
    simp only [hpeer] at hhead
    have hmem : m ∈ w.responses (S.owner w.orc fid, .pcap) := hhead ▸ List.mem_cons_self
    have htype := h.captured hop hlt hmem
    have htold := (h.peers _ hlt).responses .pcap m hmem
    refine ⟨htold.valid, htold.direction, fun _ => ?_, htype⟩
    obtain ⟨id, hid, he, -⟩ := htold.id.resolve_left fun hctrl => by
      rw [htype] at hctrl
      exact absurd hctrl (by decide)
    rw [he, hid.unique h.orc hlt ⟨hfid, rfl⟩]

theorem state_of_rank {s : Stage} (h : (Stage.request .startTestcase).rank ≤ s.rank) :
    FragmentState.resolveMixnetConnections.rank < s.state.rank := by
  cases s with
  | hello v | welcome v => cases v <;> exact absurd h (by decide)
  | request p | answer p =>
    cases p <;> first | decide | exact absurd h (by decide)
  | reply t => exact (by decide : FragmentState.resolveMixnetConnections.rank <
      FragmentState.runTestcase.rank)
  | done => decide

theorem SystemInv.resolved (h : SystemInv S w) (hq : q < S.size)
    (hlaunched : (w.fragment q).launched = true) {p : ℕ} (hp : p < S.size) :
    FragmentState.resolveMixnetConnections.rank < (w.fragment p).stage.state.rank := by
  have hstarted := (h.peers q hq).started hlaunched
  have hq' := (h.orc.stage_rank q).2
  have hp' := (h.orc.stage_rank p).1
  have hrank : (Stage.answer .startTestcase).rank = (Stage.request .startTestcase).rank + 1 := rfl
  exact state_of_rank ((h.peers p hp).resolved (by omega))

/-- In every state that the processes' steps and the messages' delays can lead to: the request that
a fragment reads next is one that its state accepts; the response that the orchestrator reads next
has the direction, type and fragment id that it waits for, and it has reported no error; and a
fragment that has launched its node has found all of them past RESOLVE_MIXNET_CONNECTIONS. -/
theorem lockstep (S : Setting) (w : System)
    (h : Runs.Reach (System.step S) (fun _ _ => True) S.start w) :
    (∀ q < S.size, ∀ a m rest, (w.fragment q).stage.awaits = some a →
      w.requests (q, a.overlay) = m :: rest → (w.fragment q).Accepts a m) ∧
    (∀ r m rest, S.Reads w.orc r → w.responses (r.process, r.overlay) = m :: rest →
      r.Expects m) ∧
    w.orc.gather.errorCode = .none ∧
    ∀ q < S.size, (w.fragment q).launched = true → ∀ p < S.size,
      FragmentState.resolveMixnetConnections.rank < (w.fragment p).stage.state.rank := by
  have hinv := systemInv_reach h
  refine ⟨fun q hq a m rest ha hhead => ?_, fun r m rest hr hhead => hinv.expects hr hhead,
    hinv.orc.code, fun q hq hlaunched p hp => hinv.resolved hq hlaunched hp⟩
  exact ((hinv.peers q hq).accepts hinv.orc hq ha hhead).1

theorem pair_pid_injective : Function.Injective fun q : ℕ => 100 + q := by
  intro p q h
  dsimp only at h
  omega

theorem pair_fd_pos (v : Overlay) (q : ℕ) :
    (0 : ℤ) < match v with | .ctrl => 5 + q | .pcap => 8 + q := by
  cases v <;> dsimp only <;> omega

theorem pair_fd_injective (v : Overlay) : Function.Injective fun q : ℕ =>
    (match v with | .ctrl => 5 + q | .pcap => 8 + q : ℤ) := by
  intro p q h
  cases v <;> dsimp only at h <;> omega

def pairSetting : Setting where
  numNodes := 2
  autotestMode := true
  pid q := 100 + q
  fd v q := match v with | .ctrl => 5 + q | .pcap => 8 + q
  numNeighbors _ := 1
  pid_injective := fun _ => pair_pid_injective
  fd_pos := pair_fd_pos
  fd_injective := pair_fd_injective

/-- The fragment that is forked last connects first to the ctrl listener, and is ahead of the other
one by a phase where it can be. -/
def pairEvents : List Event :=
  let client : Wiring.NetAddr := { family := Wiring.afInet, port := 9, addr := 0x7F000001 }
  let sends : List Event := [.send, .send, .next .none]
  let answers (r : Outcome) : List Event := [.receive 1, .respond 1 r, .gather 1, .receive 0,
    .respond 0 r, .gather 0, .next .none]
  [.connect 1 .ctrl, .respond 1 {}, .accept 1 .ctrl, .connect 0 .ctrl, .accept 0 .ctrl,
    .next .none, .gather 0, .respond 0 {}, .gather 1, .next .none] ++ sends ++
  [.receive 1, .send, .send, .next .none, .receive 1, .respond 1 {}, .connect 1 .pcap,
    .accept 1 .pcap, .respond 1 {}, .receive 0] ++
  [.gather 1, .receive 0, .respond 0 {}, .gather 0, .next .none, .connect 0 .pcap,
    .accept 0 .pcap, .respond 0 {}, .next .none, .gather 1, .gather 0, .next .none] ++ sends ++
  [.receive 1, .receive 0] ++ sends ++ answers {} ++ sends ++ answers { port := 7 } ++
  sends ++ answers { clientNetaddrs := [client] } ++ sends ++ answers {} ++ sends ++
  [.receive 1, .respond 1 {}, .launch 1]

theorem lockstep_pair : ∃ w : System,
    Runs.Reach (System.step pairSetting) (fun _ _ => True) pairSetting.start w ∧
      (w.fragment 1).launched = true ∧ (w.fragment 0).stage = .request .startTestcase ∧
      FragmentState.resolveMixnetConnections.rank < (w.fragment 0).stage.state.rank := by
  have hrun : ((Runs.run (System.step pairSetting) pairEvents pairSetting.start).any fun w =>
      decide ((w.fragment 1).launched = true ∧
        (w.fragment 0).stage = .request .startTestcase)) = true := by decide +kernel
  obtain ⟨w, hw, hstate⟩ := (Option.any_eq_true _ _).mp hrun
  obtain ⟨hlaunched, hstage⟩ := of_decide_eq_true hstate
  have hreach : Runs.Reach (System.step pairSetting) (fun _ _ => True) pairSetting.start w :=
    Runs.reach_of_run (fun _ _ _ => trivial) hw
  exact ⟨w, hreach, hlaunched, hstage,
    (lockstep pairSetting w hreach).2.2.2 1 (by decide) hlaunched 0 (by decide)⟩

end Mixnet.Session
