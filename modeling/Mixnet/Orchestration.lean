import Mixnet.Phases

/-! `orchestrator::run`: the state machine over the phases, the code that it returns, what has
become of the fragments when it is done, and what becomes of an error of the pcap thread. -/
namespace Mixnet.Orchestrator

section Machine

inductive State where
  | init
  | setupCtrlPlane
  | setupPcapPlane
  | createMixnetTopology
  | startAllMixnetServers
  | startAllMixnetClients
  | resolveMixnetConnections
  | startTestcase
  | runTestcase
  | endTestcase
  | gracefulShutdown
  | forcefulShutdown
  | reset
deriving DecidableEq, Repr

def State.next (s : State) (ec : ErrorCode) : State :=
  match s with
  | .init => if ec = .none then .setupCtrlPlane else .forcefulShutdown
  | .setupCtrlPlane => if ec = .none then .setupPcapPlane else .forcefulShutdown
  | .setupPcapPlane => if ec = .none then .createMixnetTopology else .gracefulShutdown
  | .createMixnetTopology => if ec = .none then .startAllMixnetServers else .gracefulShutdown
  | .startAllMixnetServers => if ec = .none then .startAllMixnetClients else .gracefulShutdown
  | .startAllMixnetClients => if ec = .none then .resolveMixnetConnections else .gracefulShutdown
  | .resolveMixnetConnections => if ec = .none then .startTestcase else .gracefulShutdown
  | .startTestcase => if ec = .none then .runTestcase else .endTestcase
  | .runTestcase => .endTestcase
  | .endTestcase => .gracefulShutdown
  | .gracefulShutdown => if ec = .none then .reset else .forcefulShutdown
  | .forcefulShutdown => .reset
  | .reset => .reset

def State.rank : State → ℕ
  | .init => 12
  | .setupCtrlPlane => 11
  | .setupPcapPlane => 10
  | .createMixnetTopology => 9
  | .startAllMixnetServers => 8
  | .startAllMixnetClients => 7
  | .resolveMixnetConnections => 6
  | .startTestcase => 5
  | .runTestcase => 4
  | .endTestcase => 3
  | .gracefulShutdown => 2
  | .forcefulShutdown => 1
  | .reset => 0

theorem State.next_rank {s : State} (h : s ≠ .reset) (ec : ErrorCode) :
    (s.next ec).rank < s.rank := by
  cases s with
  | reset => exact absurd rfl h
  | _ => by_cases hec : ec = .none <;> simp [State.next, State.rank, hec]

variable {σ : Type*} (phase : State → σ → ErrorCode × σ)

/-- The variables of `run`, the states it has gone through and the codes their phases have
reported. -/
structure Machine (σ : Type*) where
  exitCode : ErrorCode := .none
  showErrors : Bool := true
  visited : List State := []
  reported : List ErrorCode := []
  world : σ

/-- One turn of the loop: the phase of the current state, and the first error kept. -/
def Machine.turn (s : State) (m : Machine σ) : Machine σ :=
  let (ec, w) := phase s m.world
  { exitCode := if m.showErrors && ec ≠ .none then ec else m.exitCode
    showErrors := if m.showErrors && ec ≠ .none then false else m.showErrors
    visited := m.visited ++ [s]
    reported := m.reported ++ [ec]
    world := w }

def Machine.loop (s : State) (m : Machine σ) : Machine σ :=
  if _h : s = .reset then m.turn phase s
  else Machine.loop (s.next (phase s m.world).1) (m.turn phase s)
termination_by s.rank
decreasing_by exact State.next_rank ‹_› _

/-- From `s` the loop goes through `states`, each phase in the world that the one before it has
left, and then comes to RESET. -/
def Follows : List State → State → σ → Prop
  | [], s, _ => s = .reset
  | t :: states, s, w => t = s ∧ s ≠ .reset ∧ Follows states (s.next (phase s w).1) (phase s w).2

instance : ∀ (states : List State) (s : State) (w : σ), Decidable (Follows phase states s w)
  | [], s, _ => inferInstanceAs (Decidable (s = .reset))
  | t :: states, s, w =>
    have := instDecidableFollows states (s.next (phase s w).1) (phase s w).2
    inferInstanceAs (Decidable (t = s ∧ s ≠ .reset ∧ _))

def codes : List State → σ → List ErrorCode
  | [], _ => []
  | s :: states, w => (phase s w).1 :: codes states (phase s w).2

def after : List State → σ → σ
  | [], w => w
  | s :: states, w => after states (phase s w).2

variable {phase}

theorem Follows.reset_notMem {states : List State} {s : State} {w : σ}
    (h : Follows phase states s w) : .reset ∉ states := by
  induction states generalizing s w with
  | nil => exact List.not_mem_nil
  | cons t states ih =>
    obtain ⟨rfl, hs, hrest⟩ := h
    intro hmem
    obtain heq | hmem := List.mem_cons.mp hmem
    · exact hs heq.symm
    · exact ih hrest hmem

theorem Follows.unique {states states' : List State} {s : State} {w : σ}
    (h : Follows phase states s w) (h' : Follows phase states' s w) : states = states' := by
  induction states generalizing states' s w with
  | nil =>
    cases states' with
    | nil => rfl
    | cons t states' => exact absurd h h'.2.1
  | cons t states ih =>
    obtain ⟨rfl, hs, hrest⟩ := h
    cases states' with
    | nil => exact absurd h' hs
    | cons t' states' => rw [h'.1, ih hrest h'.2.2]

/-- The rule for a whole run: what each phase leads on, holds when RESET is entered. -/
theorem Follows.rule {P : State → σ → Prop}
    (hstep : ∀ s w, s ≠ .reset → P s w → P (s.next (phase s w).1) (phase s w).2)
    {states : List State} {s : State} {w : σ} (h : Follows phase states s w) (hP : P s w) :
    P .reset (after phase states w) := by
  induction states generalizing s w with
  | nil => exact h ▸ hP
  | cons t states ih =>
    obtain ⟨rfl, hs, hrest⟩ := h
    exact ih hrest (hstep t w hs hP)

theorem Machine.loop_follows (s : State) (m : Machine σ) :
    ∃ states, Follows phase states s m.world ∧
      (m.loop phase s).visited = m.visited ++ states ++ [.reset] ∧
      (m.loop phase s).reported = m.reported ++ codes phase states m.world ++
        [(phase .reset (after phase states m.world)).1] ∧
      (m.loop phase s).world = (phase .reset (after phase states m.world)).2 := by
  induction hr : s.rank using Nat.strongRecOn generalizing s m with
  | _ r ih =>
    rw [Machine.loop]
    by_cases hs : s = .reset
    · subst hs
      exact ⟨[], rfl, by simp [Machine.turn], by simp [Machine.turn, codes, after],
        by simp [Machine.turn, after]⟩
    · rw [dif_neg hs]
      obtain ⟨states, hfollows, hvisited, hreported, hworld⟩ :=
        ih _ (hr ▸ State.next_rank hs _) _ (m.turn phase s) rfl
      refine ⟨s :: states, ⟨rfl, hs, hfollows⟩, ?_, ?_, hworld⟩
      · rw [hvisited]
        simp [Machine.turn]
      · rw [hreported]
        simp [Machine.turn, codes, after]

/-- The loop rule: `run` ends with RESET, in a state that every phase before it has led to. -/
theorem Machine.loop_rule {P : State → Machine σ → Prop}
    (hstep : ∀ s m, s ≠ .reset → P s m → P (s.next (phase s m.world).1) (m.turn phase s))
    {s : State} {m : Machine σ} (h : P s m) :
    ∃ m', P .reset m' ∧ m.loop phase s = m'.turn phase .reset := by
  induction hr : s.rank using Nat.strongRecOn generalizing s m with
  | _ r ih =>
    rw [Machine.loop]
    by_cases hs : s = .reset
    · subst hs
      exact ⟨m, h, by rw [dif_pos rfl]⟩
    · rw [dif_neg hs]
      exact ih _ (hr ▸ State.next_rank hs _) (hstep s m hs h) rfl

theorem Machine.turn_reported (m : Machine σ) (phase : State → σ → ErrorCode × σ) (s : State) :
    firstError (m.turn phase s).reported =
      accumulate (firstError m.reported) (phase s m.world).1 := by
  rw [Machine.turn, firstError_append]
  by_cases hec : (phase s m.world).1 = .none <;> simp [firstError, hec]

theorem Machine.turn_later {s : State} {m : Machine σ} (hs : s ≠ .reset)
    (h : ∀ t ∈ m.visited, s.rank < t.rank) :
    ∀ t ∈ (m.turn phase s).visited, (s.next (phase s m.world).1).rank < t.rank := by
  have hrank := State.next_rank hs (phase s m.world).1
  intro t ht
  obtain ht | ht := List.mem_append.mp ht
  · exact Nat.lt_trans hrank (h t ht)
  · rwa [List.mem_singleton.mp ht]

structure Machine.Logged (m : Machine σ) : Prop where
  exitCode : m.exitCode = firstError m.reported
  showErrors : m.showErrors = true ↔ firstError m.reported = .none

theorem Machine.Logged.turn {m : Machine σ} (h : m.Logged) (s : State) :
    (m.turn phase s).Logged := by
  have hreported := m.turn_reported phase s
  by_cases hfirst : firstError m.reported = .none
  · have hshow := h.showErrors.mpr hfirst
    have hexit := h.exitCode.trans hfirst
    by_cases hec : (phase s m.world).1 = .none
    · exact ⟨by rw [hreported]; simp [Machine.turn, accumulate, hshow, hexit, hfirst, hec],
        by rw [hreported]; simp [Machine.turn, accumulate, hshow, hfirst, hec]⟩
    · exact ⟨by rw [hreported]; simp [Machine.turn, accumulate, hshow, hfirst, hec],
        by rw [hreported]; simp [Machine.turn, accumulate, hshow, hfirst, hec]⟩
  · have hshow : m.showErrors = false := by
      rw [← Bool.not_eq_true, h.showErrors]
      exact hfirst
    exact ⟨by rw [hreported]; simp [Machine.turn, accumulate, hshow, hfirst, h.exitCode],
      by rw [hreported]; simp [Machine.turn, accumulate, hshow, hfirst]⟩

end Machine

section Pcap

structure PcapVisit where
  ready : Bool
  subscribed : Bool
  answer : Answer

def PcapVisit.active (v : PcapVisit) : Bool := v.ready && v.subscribed

def maxMixnetPacketSize : UInt16 := 4096

def pcapReceive (fid : ℕ) : Answer → ErrorCode
  | .failed code _ => if code = .recvZeroPending then .none else code
  | .message m =>
    let ec := checkHeader m true (UInt16.ofNat fid) .pcapData
    if ec ≠ .none then ec
    else if maxMixnetPacketSize < m.totalSize then .mixnetBadPacketSize
    else .none

def pcapScan : ErrorCode → ℕ → List PcapVisit → ErrorCode
  | ec, _, [] => ec
  | ec, fid, v :: visits =>
    if v.active then
      let ec := pcapReceive fid v.answer
      if ec = .none then pcapScan ec (fid+1) visits else ec
    else pcapScan ec (fid+1) visits

structure PcapRound where
  pollFailed : Bool := false
  visits : List PcapVisit

def PcapRound.errorCode (round : PcapRound) : ErrorCode :=
  pcapScan (if round.pollFailed then .pollError else .none) 0 round.visits

/-- `pcap_thread_loop`, over the turns made before `pcap_thread_run_` is cleared: the error status
it leaves behind. -/
def pcapThreadLoop : List PcapRound → ErrorCode
  | [] => .none
  | round :: rounds => if round.errorCode = .none then pcapThreadLoop rounds else round.errorCode

def PcapRound.Clean (round : PcapRound) : Prop :=
  (∀ p ∈ round.visits.zipIdx, p.1.active = true → pcapReceive p.2 p.1.answer = .none) ∧
    (round.pollFailed = true → ∃ v ∈ round.visits, v.active = true)

theorem pcapScan_eq_none_iff (visits : List PcapVisit) (ec : ErrorCode) (fid : ℕ) :
    pcapScan ec fid visits = .none ↔
      (∀ p ∈ visits.zipIdx fid, p.1.active = true → pcapReceive p.2 p.1.answer = .none) ∧
        (ec ≠ .none → ∃ v ∈ visits, v.active = true) := by
  induction visits generalizing ec fid with
  | nil => simp [pcapScan]
  | cons v visits ih =>
    rw [pcapScan, List.zipIdx_cons]
    cases hv : v.active with
    | false => simp [ih, hv]
    | true =>
      by_cases hrecv : pcapReceive fid v.answer = .none
      · simp [ih, hv, hrecv]
      · simp [hv, hrecv]

theorem PcapRound.errorCode_eq_none_iff (round : PcapRound) :
    round.errorCode = .none ↔ round.Clean := by
  rw [PcapRound.errorCode, pcapScan_eq_none_iff, PcapRound.Clean]
  cases round.pollFailed <;> simp

theorem pcapThreadLoop_eq_none_iff {rounds : List PcapRound} :
    pcapThreadLoop rounds = .none ↔ ∀ round ∈ rounds, round.Clean := by
  induction rounds with
  | nil => simp [pcapThreadLoop]
  | cons round rounds ih =>
    rw [pcapThreadLoop, List.forall_mem_cons, ← PcapRound.errorCode_eq_none_iff]
    by_cases hround : round.errorCode = .none
    · simpa [hround] using ih
    · simp [hround]

end Pcap

section Run

/-- What happens to a run. `code` is what the phases report that deal with the Mixnet topology and
the testcase; they leave the processes alone. -/
structure Env where
  autotestMode : Bool
  numNodes : ℕ
  code : State → ErrorCode
  ctrl : SetupCtrl
  pcap : SetupPcap
  capture : List PcapRound
  shutdown : List Round

def Env.phase (env : Env) (s : State) (w : World) : ErrorCode × World :=
  match s with
  | .setupCtrlPlane => setupCtrl env.autotestMode env.numNodes env.ctrl w
  | .setupPcapPlane => setupPcap env.numNodes env.pcap w
  | .runTestcase =>
    let pcapThreadError := pcapThreadLoop env.capture
    (env.code s, { w with
      pcapThreadError := pcapThreadError
      pcapEnded := w.pcapEnded ++ [pcapThreadError] })
  | .gracefulShutdown => gracefulShutdown env.shutdown w
  | .forcefulShutdown => (.none, forcefulShutdown w)
  | .reset => (.none, reset w)
  | s => (env.code s, w)

def Env.start : Machine World := { world := {} }

def Env.run (env : Env) : Machine World := Env.start.loop env.phase .init

/-- What is known of the fragments when a state is entered. -/
def Stage (w : World) : State → Prop
  | .init | .setupCtrlPlane => w.Fresh
  | .reset => (∀ pid ∈ w.forked, pid ∈ w.acknowledged ∨ pid ∈ w.killed) ∧
      ∀ pid ∈ w.acknowledged, pid ∉ w.killed
  | _ => w.Accounted ∧ w.killed = []

theorem World.Fresh.accounted {w : World} (h : w.Fresh) : w.Accounted :=
  (h.forked_zero fun _ => none).accounted (by simp [ForkDistinct])

theorem World.Accounted.kill {w : World} (h : w.Accounted) (hk : w.killed = []) :
    Stage (forcefulShutdown w) .reset := by
  have hkilled : ∀ pid, pid ∈ (Orchestrator.forcefulShutdown w).killed ↔
      (∃ i < w.size, (w.fragments i).pid = pid) ∧ pid ≠ -1 := fun pid => by
    simp [forcefulShutdown, hk]
  refine ⟨fun pid hp => ?_, fun pid hp hkill => ?_⟩
  · obtain ⟨hreal, hack | hlive⟩ := h.tracked pid hp
    · exact Or.inl hack
    · exact Or.inr ((hkilled pid).mpr ⟨hlive, hreal⟩)
  · obtain ⟨⟨i, hi, rfl⟩, hreal⟩ := (hkilled pid).mp hkill
    exact h.live i hi hreal hp

/-- A shutdown in which all fragments have answered leaves no process behind. -/
theorem World.Accounted.settled {w : World} (h : w.Accounted) (hk : w.killed = [])
    (hall : ∀ i < w.size, (w.fragments i).pid = -1) : Stage w .reset := by
  refine ⟨fun pid hp => Or.inl ?_, fun pid _ => by simp [hk]⟩
  obtain ⟨hreal, hack | ⟨i, hi, hpi⟩⟩ := h.tracked pid hp
  · exact hack
  · exact absurd (hpi.symm.trans (hall i hi)) hreal

/-- Between SETUP_CTRL_PLANE and GRACEFUL_SHUTDOWN whatever is reported leads on to a state that
asks no more than that the fragments are accounted for. -/
theorem World.Accounted.stage_next {w : World} (h : w.Accounted) (hk : w.killed = []) {s : State}
    (hs : 3 ≤ s.rank ∧ s.rank ≤ 11) (ec : ErrorCode) : Stage w (s.next ec) := by
  have hall : ∀ t : State, 1 ≤ t.rank → t.rank ≤ 10 → Stage w t := by
    intro t hlow hhigh
    cases t with
    | init | setupCtrlPlane | reset => simp [State.rank] at hlow hhigh
    | _ => exact ⟨h, hk⟩
  have hnext := State.next_rank (s := s) (by rintro rfl; simp [State.rank] at hs) ec
  refine hall _ ?_ (by omega)
  cases s with
  | init | gracefulShutdown | forcefulShutdown | reset => simp [State.rank] at hs
  | _ => by_cases hec : ec = .none <;> simp [State.next, State.rank, hec]

theorem Env.phase_stage (env : Env) (hfork : ForkDistinct env.ctrl.forks) (s : State) (w : World)
    (hs : s ≠ .reset) (h : Stage w s) :
    Stage (env.phase s w).2 (s.next (env.phase s w).1) := by
  cases s with
  | reset => exact absurd rfl hs
  | init =>
    by_cases hec : env.code .init = .none
    · have hfresh : w.Fresh := h
      simpa [Env.phase, State.next, hec, Stage] using hfresh
    · simpa [Env.phase, State.next, hec] using ⟨World.Fresh.accounted h, World.Fresh.killed h⟩
  | setupCtrlPlane =>
    obtain ⟨hacc, hkilled⟩ := setupCtrl_accounted env.autotestMode env.numNodes env.ctrl h hfork
    exact hacc.stage_next hkilled (by decide) _
  | setupPcapPlane =>
    have hsame := setupPcap_samePids env.numNodes env.pcap w
    exact (h.1.congr hsame).stage_next (hsame.killed.trans h.2) (by decide) _
  | createMixnetTopology | startAllMixnetServers | startAllMixnetClients
  | resolveMixnetConnections | startTestcase | endTestcase =>
    exact h.1.stage_next h.2 (by decide) _
  | runTestcase => exact ⟨⟨h.1.tracked, h.1.live, h.1.distinct⟩, h.2⟩
  | gracefulShutdown =>
    obtain ⟨hacc, hkilled, -⟩ := gracefulShutdown_accounted h.1 env.shutdown
    by_cases hnone : (gracefulShutdown env.shutdown w).1 = .none
    · simpa [Env.phase, State.next, hnone] using
        hacc.settled (hkilled.trans h.2) (gracefulShutdown_none env.shutdown hnone)
    · simpa [Env.phase, State.next, hnone] using ⟨hacc, hkilled.trans h.2⟩
  | forcefulShutdown => exact h.1.kill h.2

theorem Env.run_logged (env : Env) : env.run.Logged := by
  obtain ⟨m, hm, hrun⟩ := Machine.loop_rule (P := fun _ m => m.Logged)
    (fun s m _ h => h.turn s) (⟨rfl, by simp [Env.start, firstError]⟩ : Env.start.Logged)
  rw [Env.run, hrun]
  exact hm.turn .reset

/-- A run goes through some states and then, once, through RESET. By then every pid that `fork` has
returned has been reported by its fragment or sent SIGKILL, none both, and the run returns the
first error that any of the phases has reported. -/
theorem no_fragment_left_behind (env : Env) (hfork : ForkDistinct env.ctrl.forks) :
    ∃ states, Follows env.phase states .init {} ∧
      env.run.visited = states ++ [.reset] ∧ .reset ∉ states ∧
      env.run.world = reset (after env.phase states {}) ∧
      (∀ pid ∈ (after env.phase states {}).forked,
        pid ∈ (after env.phase states {}).acknowledged ∨
          pid ∈ (after env.phase states {}).killed) ∧
      (∀ pid ∈ (after env.phase states {}).acknowledged,
        pid ∉ (after env.phase states {}).killed) ∧
      env.run.exitCode = firstError (codes env.phase states {}) ∧
      (env.run.exitCode = .none ↔ ∀ ec ∈ codes env.phase states {}, ec = .none) := by
  obtain ⟨states, hfollows, hvisited, hreported, hworld⟩ :=
    Machine.loop_follows State.init Env.start
  have hstage := hfollows.rule (fun s w hs h => env.phase_stage hfork s w hs h)
    (⟨rfl, fun _ => rfl, rfl, rfl, rfl⟩ : World.Fresh {})
  have hexit : env.run.exitCode = firstError (codes env.phase states {}) := by
    have hreset : ∀ w, firstError [(env.phase .reset w).1] = .none := fun _ => rfl
    rw [env.run_logged.exitCode, Env.run, hreported, firstError_append, hreset, accumulate_none]
    rfl
  refine ⟨states, hfollows, hvisited, hfollows.reset_notMem, hworld, hstage.1, hstage.2, hexit, ?_⟩
  rw [hexit]
  exact firstError_eq_none_iff

/-- Two fragments. The pcap overlay cannot be set up; asked to shut down, the first fragment
acknowledges and the second stays silent. -/
def silentFragment : Env where
  autotestMode := true
  numNodes := 2
  code := fun _ => .none
  ctrl :=
    { forks := fun i => some (100 + i)
      numAccepted := 2
      connectionFd := fun i => 5 + i
      rounds := [fun i => some (.message { type := .setupCtrl, fragmentId := 0, pid := 100 + i })]
      sends := [.none, .none] }
  pcap :=
    { serverSetup := .socketBindFailed, sends := [], acknowledgements := [], numAccepted := 0
      connectionFd := fun _ => -1, rounds := [], completions := [] }
  capture := []
  shutdown := [fun i =>
    if i = 0 then some (.message { type := .shutdown, fragmentId := 0 }) else none]

/-- Pid 100 has been reported, pid 101 is killed, and the code is that of the pcap overlay. -/
theorem no_fragment_left_behind_two :
    silentFragment.run.visited = [.init, .setupCtrlPlane, .setupPcapPlane, .gracefulShutdown,
        .forcefulShutdown, .reset] ∧
      silentFragment.run.exitCode = .socketBindFailed ∧
      silentFragment.run.world.forked = [100, 101] ∧
      silentFragment.run.world.acknowledged = [100] ∧ silentFragment.run.world.killed = [101] := by
  have hfork : ForkDistinct silentFragment.ctrl.forks := by
    intro i j pid hi hj
    have hij : 100 + i = 100 + j := Option.some.inj (hi.trans hj.symm)
    omega
  obtain ⟨states, hfollows, hvisited, -, hworld, -, -, hexit, -⟩ :=
    no_fragment_left_behind silentFragment hfork
  have hpath : Follows silentFragment.phase [.init, .setupCtrlPlane, .setupPcapPlane,
      .gracefulShutdown, .forcefulShutdown] .init {} := by decide +kernel
  obtain rfl := hfollows.unique hpath
  rw [hvisited, hexit, hworld]
  decide +kernel

def regularPath : List State :=
  [.init, .setupCtrlPlane, .setupPcapPlane, .createMixnetTopology, .startAllMixnetServers,
    .startAllMixnetClients, .resolveMixnetConnections, .startTestcase, .runTestcase, .endTestcase,
    .gracefulShutdown]

def Succeeds {σ : Type*} (phase : State → σ → ErrorCode × σ) : List State → σ → Prop
  | [], _ => True
  | s :: states, w => (phase s w).1 = .none ∧ Succeeds phase states (phase s w).2

instance {σ : Type*} (phase : State → σ → ErrorCode × σ) :
    ∀ (states : List State) (w : σ), Decidable (Succeeds phase states w)
  | [], _ => .isTrue trivial
  | s :: states, w =>
    have := instDecidableSucceeds phase states (phase s w).2
    inferInstanceAs (Decidable (_ ∧ _))

def State.before (s : State) : List State := regularPath.takeWhile (· ≠ s)

def State.onward (s : State) : List State := regularPath.dropWhile (· ≠ s)

theorem State.path_step {s : State} (hs : s ≠ .reset) (hforce : s ≠ .forcefulShutdown) :
    s.onward = s :: (s.next .none).onward ∧ (s.next .none).before = s.before ++ [s] ∧
      s.next .none ≠ .forcefulShutdown := by
  cases s with
  | reset => exact absurd rfl hs
  | forcefulShutdown => exact absurd rfl hforce
  | _ => decide

theorem Env.phase_pcapEnded (env : Env) (s : State) (w : World) :
    (env.phase s w).2.pcapEnded =
      w.pcapEnded ++ if s = .runTestcase then [pcapThreadLoop env.capture] else [] := by
  cases s with
  | setupCtrlPlane => simpa [Env.phase] using setupCtrl_pcapEnded _ _ env.ctrl w
  | setupPcapPlane => simpa [Env.phase] using (setupPcap_samePids _ env.pcap w).pcapEnded
  | gracefulShutdown =>
    have hended := (shutdownExchange w).recv_state (P := fun w' => w'.pcapEnded = w.pcapEnded)
      (fun _ _ _ hw _ _ => hw) env.shutdown rfl
    simpa [Env.phase, Orchestrator.gracefulShutdown] using hended
  | _ => simp [Env.phase, Orchestrator.forcefulShutdown, Orchestrator.reset]

/-- What holds of a run when it enters a state, about the errors reported so far: without any it
is on the regular path, and whether the whole path succeeds is up to the rest of it. -/
structure Env.OnPath (env : Env) (s : State) (m : Machine World) : Prop where
  logged : m.Logged
  later : ∀ t ∈ m.visited, s.rank < t.rank
  quiet : firstError m.reported = .none → s ≠ .forcefulShutdown ∧ m.visited = s.before ∧
    (Succeeds env.phase regularPath {} ↔ Succeeds env.phase s.onward m.world)
  failed : firstError m.reported ≠ .none → ¬ Succeeds env.phase regularPath {}
  ended : m.world.pcapEnded =
    if .runTestcase ∈ m.visited then [pcapThreadLoop env.capture] else []

theorem Env.OnPath.turn {env : Env} {s : State} {m : Machine World} (hs : s ≠ .reset)
    (h : env.OnPath s m) :
    env.OnPath (s.next (env.phase s m.world).1) (m.turn env.phase s) := by
  have hreported := m.turn_reported env.phase s
  refine ⟨h.logged.turn s, Machine.turn_later hs h.later, fun hnone => ?_, fun hsome => ?_, ?_⟩
  · rw [hreported] at hnone
    have hfirst : firstError m.reported = .none := by
      by_contra hne
      simp [accumulate, hne] at hnone
    have hec : (env.phase s m.world).1 = .none := by simpa [accumulate, hfirst] using hnone
    obtain ⟨hforce, hvisited, hsucc⟩ := h.quiet hfirst
    obtain ⟨honward, hbefore, hnext⟩ := State.path_step hs hforce
    rw [hec]
    refine ⟨hnext, ?_, ?_⟩
    · rw [hbefore, ← hvisited]
      rfl
    · rw [hsucc, honward, Succeeds]
      exact and_iff_right hec
  · rw [hreported] at hsome
    by_cases hfirst : firstError m.reported = .none
    · have hec : (env.phase s m.world).1 ≠ .none := by simpa [accumulate, hfirst] using hsome
      obtain ⟨hforce, -, hsucc⟩ := h.quiet hfirst
      rw [hsucc, (State.path_step hs hforce).1, Succeeds]
      exact fun hall => hec hall.1
    · exact h.failed hfirst
  · change (env.phase s m.world).2.pcapEnded =
      if .runTestcase ∈ m.visited ++ [s] then [pcapThreadLoop env.capture] else []
    rw [env.phase_pcapEnded, h.ended]
    by_cases hrun : s = .runTestcase
    · have hnew : State.runTestcase ∉ m.visited := fun hmem =>
        Nat.lt_irrefl _ (hrun ▸ h.later _ hmem)
      simp [hrun, hnew]
    · have hrun' : State.runTestcase ≠ s := fun he => hrun he.symm
      simp [hrun, hrun']

theorem Env.run_spec (env : Env) :
    (env.run.exitCode = .none ↔ Succeeds env.phase regularPath {}) ∧
      env.run.exitCode = firstError env.run.reported ∧
      (env.run.exitCode = .none → env.run.world.pcapEnded = [pcapThreadLoop env.capture]) := by
  have hstart : env.OnPath .init Env.start :=
    ⟨⟨rfl, by simp [Env.start, firstError]⟩, by simp [Env.start],
      fun _ => ⟨by decide, rfl, Iff.rfl⟩, by simp [Env.start, firstError], rfl⟩
  obtain ⟨m, hm, hrun⟩ := Machine.loop_rule (P := env.OnPath)
    (fun s m hs h => h.turn hs) hstart
  have hexit : env.run.exitCode = firstError m.reported := by
    have hreset : (env.phase .reset m.world).1 = .none := rfl
    rw [Env.run, hrun, (hm.logged.turn .reset).exitCode, m.turn_reported, hreset, accumulate_none]
  have hended : env.run.world.pcapEnded = m.world.pcapEnded := by
    rw [Env.run, hrun]
    rfl
  refine ⟨?_, env.run_logged.exitCode, fun hnone => ?_⟩
  · rw [hexit]
    refine ⟨fun hnone => (hm.quiet hnone).2.2.mpr trivial, fun hsucc => ?_⟩
    by_contra hsome
    exact hm.failed hsome hsucc
  · rw [hexit] at hnone
    rw [hended, hm.ended, (hm.quiet hnone).2.1, if_pos (by decide)]

/-- A run that returns NONE has had no error in any phase and in its pcap thread exactly when no
turn of the pcap loop ends in an error or some phase on the regular path reports one. -/
theorem capture_failure_reported_iff (env : Env) :
    (env.run.exitCode = .none → (∀ ec ∈ env.run.reported, ec = .none) ∧
      ∀ ec ∈ env.run.world.pcapEnded, ec = .none) ↔
    (∀ round ∈ env.capture, round.Clean) ∨ ¬ Succeeds env.phase regularPath {} := by
  obtain ⟨hsucc, hexit, hended⟩ := env.run_spec
  rw [← hsucc, ← pcapThreadLoop_eq_none_iff]
  constructor
  · intro h
    by_cases hnone : env.run.exitCode = .none
    · refine Or.inl ((h hnone).2 _ ?_)
      rw [hended hnone]
      exact List.mem_singleton_self _
    · exact Or.inr hnone
  · rintro (hclean | hsome) hnone
    · refine ⟨firstError_eq_none_iff.mp (hexit ▸ hnone), fun ec hec => ?_⟩
      rw [hended hnone] at hec
      rw [List.mem_singleton.mp hec, hclean]
    · exact absurd hnone hsome

def brokenCapture : Env where
  autotestMode := true
  numNodes := 1
  code := fun _ => .none
  ctrl :=
    { forks := fun _ => some 100
      numAccepted := 1
      connectionFd := fun _ => 5
      rounds := [fun _ => some (.message { type := .setupCtrl, fragmentId := 0, pid := 100 })]
      sends := [.none] }
  pcap :=
    { sends := [.none]
      acknowledgements := [fun _ => some (.message { type := .setupPcap, fragmentId := 0 })]
      numAccepted := 1
      connectionFd := fun _ => 6
      rounds := [fun _ => some (.message { type := .setupPcap, fragmentId := 0 })]
      completions := [.none] }
  capture := [{ visits := [⟨true, true, .failed .pcapConnectionBroken (by decide)⟩] }]
  shutdown := [fun _ => some (.message { type := .shutdown, fragmentId := 0 })]

/-- The run returns NONE although its pcap thread has stopped with an error. -/
theorem capture_failure_swallowed : brokenCapture.run.exitCode = .none ∧
    ¬ ((∀ ec ∈ brokenCapture.run.reported, ec = .none) ∧
      ∀ ec ∈ brokenCapture.run.world.pcapEnded, ec = .none) := by
  obtain ⟨hsucc, -, hended⟩ := brokenCapture.run_spec
  have hnone : brokenCapture.run.exitCode = .none := hsucc.mpr (by decide +kernel)
  refine ⟨hnone, fun hall => ?_⟩
  have hlost := hall.2 (pcapThreadLoop brokenCapture.capture)
    (by rw [hended hnone]; exact List.mem_singleton_self _)
  exact absurd hlost (by decide)

end Run

end Mixnet.Orchestrator
