import Mathlib.Logic.Function.Basic
import Mixnet.Gather

/-! What the phases of the orchestrator do to its fragments: forking them and the handshakes on
both overlays, the shutdown that asks and the one that does not. -/
namespace Mixnet.Orchestrator
open Codec (MessageType)

/-- `fragment_metadata`; -1 stands for no process and no socket. -/
structure Metadata where
  pid : ℤ := -1
  fdCtrl : ℤ := -1
  fdPcap : ℤ := -1
deriving DecidableEq

/-- The orchestrator. The last four fields are not in the source: the pids that `fork` has
returned, those whose fragment has acknowledged SHUTDOWN, those that SIGKILL has been sent to,
and the error status of every pcap thread that has ended. -/
structure World where
  size : ℕ := 0
  fragments : ℕ → Metadata := fun _ => {}
  pcapThreadError : ErrorCode := .none
  forked : List ℤ := []
  acknowledged : List ℤ := []
  killed : List ℤ := []
  pcapEnded : List ErrorCode := []

def World.set (w : World) (fid : ℕ) (f : Metadata → Metadata) : World :=
  { w with fragments := Function.update w.fragments fid (f (w.fragments fid)) }

section Set
variable {w : World} {fid i : ℕ} {f : Metadata → Metadata}

@[simp] theorem World.set_self : (w.set fid f).fragments fid = f (w.fragments fid) :=
  Function.update_self ..

@[simp] theorem World.set_ne (h : i ≠ fid) : (w.set fid f).fragments i = w.fragments i :=
  Function.update_of_ne h ..

theorem World.set_field {α : Type*} (g : Metadata → α) (hf : ∀ d, g (f d) = g d) (i : ℕ) :
    g ((w.set fid f).fragments i) = g (w.fragments i) := by
  by_cases hi : i = fid
  · rw [hi, World.set_self, hf]
  · rw [World.set_ne hi]

theorem World.set_update {α : Type*} (g : Metadata → α) {a : α} (hf : ∀ d, g (f d) = a) :
    (fun i => g ((w.set fid f).fragments i)) =
      Function.update (fun i => g (w.fragments i)) fid a := by
  funext i
  by_cases hi : i = fid
  · rw [hi, World.set_self, hf, Function.update_self]
  · rw [World.set_ne hi, Function.update_of_ne hi]

end Set

section SetupCtrl

/-- What happens to `run_state_setup_ctrl`: `forks` are the pids that `fork` returns, `none` where
it fails. -/
structure SetupCtrl where
  serverSetup : ErrorCode := .none
  forks : ℕ → Option ℕ
  acceptRc : ℤ := 0
  numAccepted : ℕ
  connectionFd : ℕ → ℤ
  rounds : List Round
  sends : List ErrorCode

def World.fork (w : World) (pid : ℕ) : World :=
  { w with
    size := w.size + 1
    fragments := Function.update w.fragments w.size { pid := pid }
    forked := w.forked ++ [(pid : ℤ)] }

def forkAll (forks : ℕ → Option ℕ) : ℕ → ℕ → World → Bool × World
  | 0, _, w => (true, w)
  | k+1, idx, w =>
    match forks idx with
    | none => (false, w)
    | some pid => forkAll forks k (idx+1) (w.fork pid)

/-- The callback for SETUP_CTRL responses: the fragment with the pid in the response, or in
manual mode the next one, gets the descriptor. -/
def claimCtrl (autotestMode : Bool) (fds : List ℤ) (idx : ℕ) (m : Reply) (w : World) :
    ErrorCode × World :=
  let assign (fid : ℕ) :=
    if (w.fragments fid).fdCtrl ≠ -1 then (ErrorCode.fragmentException, w)
    else (ErrorCode.none, w.set fid fun f => { f with fdCtrl := fds.getD idx (-1) })
  if autotestMode then
    match (List.range w.size).find? fun fid => (w.fragments fid).pid = m.pid with
    | some fid => assign fid
    | none => (.fragmentException, w)
  else assign idx

def ctrlHandshake (autotestMode : Bool) (fds : List ℤ) : Exchange World :=
  ⟨false, fds, .setupCtrl, claimCtrl autotestMode fds⟩

def SetupCtrl.fds (env : SetupCtrl) (w : World) : List ℤ :=
  (List.range w.size).map env.connectionFd

def setupCtrl (autotestMode : Bool) (numNodes : ℕ) (env : SetupCtrl) (w : World) :
    ErrorCode × World :=
  if env.serverSetup ≠ .none then (env.serverSetup, w)
  else
    let forks := if autotestMode then forkAll env.forks numNodes 0 w
      else (true, { w with size := numNodes })
    if !forks.1 then (.forkFailed, forks.2)
    else if env.acceptRc ≠ 0 then (.socketAcceptFailed, forks.2)
    else if env.numAccepted ≠ numNodes then (.socketAcceptTimeout, forks.2)
    else
      let p := (ctrlHandshake autotestMode (env.fds forks.2)).recv env.rounds forks.2
      if p.1 ≠ .none then p else (foreachSend p.2.size env.sends, p.2)

end SetupCtrl

section SetupPcap

structure SetupPcap where
  serverSetup : ErrorCode := .none
  sends : List ErrorCode
  acknowledgements : List Round
  acceptRc : ℤ := 0
  numAccepted : ℕ
  connectionFd : ℕ → ℤ
  rounds : List Round
  completions : List ErrorCode

def World.ctrlFds (w : World) : List ℤ :=
  (List.range w.size).map fun fid => (w.fragments fid).fdCtrl

/-- `foreach_fragment_recv_ctrl` with a callback that has nothing to do. -/
def acknowledgement (type : MessageType) (w : World) : Exchange World :=
  ⟨true, w.ctrlFds, type, fun _ _ w => (.none, w)⟩

/-- The callback for SETUP_PCAP responses on the pcap overlay. -/
def claimPcap (fds : List ℤ) (idx : ℕ) (m : Reply) (w : World) : ErrorCode × World :=
  let fragmentId := m.fragmentId.toNat
  if w.size ≤ fragmentId then (.badFragmentId, w)
  else if (w.fragments fragmentId).fdPcap ≠ -1 then (.badFragmentId, w)
  else (.none, w.set fragmentId fun f => { f with fdPcap := fds.getD idx (-1) })

def pcapHandshake (fds : List ℤ) : Exchange World := ⟨false, fds, .setupPcap, claimPcap fds⟩

def SetupPcap.fds (env : SetupPcap) (w : World) : List ℤ :=
  (List.range w.size).map env.connectionFd

def setupPcap (numNodes : ℕ) (env : SetupPcap) (w : World) : ErrorCode × World :=
  if env.serverSetup ≠ .none then (env.serverSetup, w)
  else
    let ec := foreachSend w.size env.sends
    if ec ≠ .none then (ec, w)
    else
      let p := (acknowledgement .setupPcap w).recv env.acknowledgements w
      if p.1 ≠ .none then p
      else if env.acceptRc ≠ 0 then (.socketAcceptFailed, p.2)
      else if env.numAccepted ≠ numNodes then (.socketAcceptTimeout, p.2)
      else
        let q := (pcapHandshake (env.fds p.2)).recv env.rounds p.2
        if q.1 ≠ .none then q else (foreachSend q.2.size env.completions, q.2)

end SetupPcap

section Shutdown

/-- The callback for SHUTDOWN responses. -/
def release (idx : ℕ) (_ : Reply) (w : World) : ErrorCode × World :=
  (.none, { w.set idx fun f => { f with pid := -1 } with
    acknowledged := w.acknowledged ++ [(w.fragments idx).pid] })

def shutdownExchange (w : World) : Exchange World := ⟨true, w.ctrlFds, .shutdown, release⟩

/-- `run_state_graceful_shutdown`; what its sends report is not looked at. -/
def gracefulShutdown (rounds : List Round) (w : World) : ErrorCode × World :=
  (shutdownExchange w).recv rounds w

/-- `destroy_fragments(SIGKILL)`. -/
def forcefulShutdown (w : World) : World :=
  { w with killed := w.killed ++
      ((List.range w.size).map fun fid => (w.fragments fid).pid).filter (· ≠ -1) }

def reset (w : World) : World :=
  { w with size := 0, fragments := fun _ => {}, pcapThreadError := .none }

end Shutdown

section Pids

structure SamePids (w w' : World) : Prop where
  size : w'.size = w.size
  pid : ∀ i, (w'.fragments i).pid = (w.fragments i).pid
  forked : w'.forked = w.forked
  acknowledged : w'.acknowledged = w.acknowledged
  killed : w'.killed = w.killed
  pcapEnded : w'.pcapEnded = w.pcapEnded

theorem SamePids.refl (w : World) : SamePids w w := ⟨rfl, fun _ => rfl, rfl, rfl, rfl, rfl⟩

theorem SamePids.trans {w w' w'' : World} (h : SamePids w w') (h' : SamePids w' w'') :
    SamePids w w'' :=
  ⟨h'.size.trans h.size, fun i => (h'.pid i).trans (h.pid i), h'.forked.trans h.forked,
    h'.acknowledged.trans h.acknowledged, h'.killed.trans h.killed,
    h'.pcapEnded.trans h.pcapEnded⟩

theorem World.set_samePids (w : World) (fid : ℕ) {f : Metadata → Metadata}
    (hf : ∀ d, (f d).pid = d.pid) : SamePids w (w.set fid f) :=
  ⟨rfl, World.set_field Metadata.pid hf, rfl, rfl, rfl, rfl⟩

theorem claimCtrl_samePids (autotestMode : Bool) (fds : List ℤ) (idx : ℕ) (m : Reply)
    (w : World) : SamePids w (claimCtrl autotestMode fds idx m w).2 := by
  have hassign : ∀ fid, SamePids w (if (w.fragments fid).fdCtrl ≠ -1 then
      (ErrorCode.fragmentException, w)
      else (ErrorCode.none, w.set fid fun f => { f with fdCtrl := fds.getD idx (-1) })).2 := by
    intro fid
    split_ifs
    · exact .refl w
    · dsimp only
      exact w.set_samePids fid (by simp)
  rw [claimCtrl]
  split_ifs
  · cases (List.range w.size).find? fun fid => (w.fragments fid).pid = m.pid with
    | none => exact .refl w
    | some fid => exact hassign fid
  · exact hassign idx

theorem claimPcap_samePids (fds : List ℤ) (idx : ℕ) (m : Reply) (w : World) :
    SamePids w (claimPcap fds idx m w).2 := by
  rw [claimPcap]
  split_ifs
  · exact .refl w
  · exact .refl w
  · dsimp only
    exact w.set_samePids _ (by simp)

theorem Exchange.recv_samePids (x : Exchange World)
    (h : ∀ idx m w, SamePids w (x.process idx m w).2) (rounds : List Round) (w : World) :
    SamePids w (x.recv rounds w).2 :=
  x.recv_state (P := fun w' => SamePids w w') (fun idx m w' hw _ _ => hw.trans (h idx m w'))
    rounds (.refl w)

theorem setupPcap_samePids (numNodes : ℕ) (env : SetupPcap) (w : World) :
    SamePids w (setupPcap numNodes env w).2 := by
  have hack : SamePids w ((acknowledgement .setupPcap w).recv env.acknowledgements w).2 :=
    Exchange.recv_samePids _ (fun _ _ w => .refl w) _ w
  rw [setupPcap]
  generalize (acknowledgement .setupPcap w).recv env.acknowledgements w = p at hack ⊢
  have hclaim : SamePids w ((pcapHandshake (env.fds p.2)).recv env.rounds p.2).2 :=
    hack.trans (Exchange.recv_samePids _ (claimPcap_samePids _) _ p.2)
  dsimp only
  split_ifs
  · exact .refl w
  · exact .refl w
  · exact hack
  · exact hack
  · exact hack
  · exact hclaim
  · exact hclaim

end Pids

section Accounts

/-- Every pid that `fork` has returned is either still that of a fragment or has been reported
by it, and no pid is both. -/
structure World.Accounted (w : World) : Prop where
  tracked : ∀ pid ∈ w.forked, pid ≠ -1 ∧
    (pid ∈ w.acknowledged ∨ ∃ i < w.size, (w.fragments i).pid = pid)
  live : ∀ i < w.size, (w.fragments i).pid ≠ -1 → (w.fragments i).pid ∉ w.acknowledged
  distinct : ∀ i < w.size, ∀ j < w.size, (w.fragments i).pid = (w.fragments j).pid →
    (w.fragments i).pid ≠ -1 → i = j

theorem World.Accounted.congr {w w' : World} (h : w.Accounted) (hs : SamePids w w') :
    w'.Accounted where
  tracked := by simpa only [hs.forked, hs.acknowledged, hs.size, hs.pid] using h.tracked
  live := by simpa only [hs.acknowledged, hs.size, hs.pid] using h.live
  distinct := by simpa only [hs.size, hs.pid] using h.distinct

structure World.Fresh (w : World) : Prop where
  size : w.size = 0
  fragments : ∀ i, w.fragments i = {}
  forked : w.forked = []
  acknowledged : w.acknowledged = []
  killed : w.killed = []

structure World.Forked (forks : ℕ → Option ℕ) (idx : ℕ) (w : World) : Prop where
  size : w.size = idx
  pid : ∀ i < idx, ∃ pid : ℕ, forks i = some pid ∧ w.fragments i = { pid := pid }
  forked : ∀ pid ∈ w.forked, ∃ i < idx, (w.fragments i).pid = pid
  acknowledged : w.acknowledged = []
  killed : w.killed = []

theorem World.Fresh.forked_zero {w : World} (h : w.Fresh) (forks : ℕ → Option ℕ) :
    w.Forked forks 0 :=
  ⟨h.size, fun i hi => absurd hi (Nat.not_lt_zero i), by simp [h.forked], h.acknowledged, h.killed⟩

theorem World.Forked.fork {forks : ℕ → Option ℕ} {idx pid : ℕ} {w : World}
    (h : w.Forked forks idx) (hpid : forks idx = some pid) :
    (w.fork pid).Forked forks (idx+1) := by
  have hnew : (w.fork pid).fragments idx = { pid := pid } := by simp [World.fork, h.size]
  have hold : ∀ i < idx, (w.fork pid).fragments i = w.fragments i := fun i hi => by
    have hne : i ≠ w.size := by rw [h.size]; omega
    simp [World.fork, hne]
  refine ⟨by simp [World.fork, h.size], ?_, ?_, h.acknowledged, h.killed⟩
  · intro i hi
    by_cases hlt : i < idx
    · rw [hold i hlt]
      exact h.pid i hlt
    · obtain rfl : i = idx := by omega
      exact ⟨pid, hpid, hnew⟩
  · intro p hp
    obtain hp | hp := List.mem_append.mp hp
    · obtain ⟨i, hi, hpi⟩ := h.forked p hp
      exact ⟨i, by omega, by rw [hold i hi]; exact hpi⟩
    · obtain rfl := List.mem_singleton.mp hp
      exact ⟨idx, by omega, by rw [hnew]⟩

theorem forkAll_forked {forks : ℕ → Option ℕ} (k : ℕ) {idx : ℕ} {w : World}
    (h : w.Forked forks idx) : ∃ idx', (forkAll forks k idx w).2.Forked forks idx' ∧
      ((forkAll forks k idx w).1 = true → idx' = idx + k) := by
  induction k generalizing idx w with
  | zero => exact ⟨idx, h, fun _ => rfl⟩
  | succ k ih =>
    rw [forkAll]
    cases hpid : forks idx with
    | none => exact ⟨idx, h, fun hfalse => absurd hfalse Bool.false_ne_true⟩
    | some pid =>
      obtain ⟨idx', hforked, hall⟩ := ih (h.fork hpid)
      exact ⟨idx', hforked, fun ht => by rw [hall ht]; omega⟩

def ForkDistinct (forks : ℕ → Option ℕ) : Prop :=
  ∀ i j pid, forks i = some pid → forks j = some pid → i = j

theorem World.Forked.accounted {forks : ℕ → Option ℕ} {idx : ℕ} {w : World}
    (h : w.Forked forks idx) (hd : ForkDistinct forks) : w.Accounted := by
  have hpid : ∀ i < w.size, ∃ pid : ℕ, forks i = some pid ∧ (w.fragments i).pid = pid := by
    intro i hi
    obtain ⟨pid, hfork, hfrag⟩ := h.pid i (h.size ▸ hi)
    exact ⟨pid, hfork, by rw [hfrag]⟩
  refine ⟨fun pid hp => ?_, fun i _ _ => by simp [h.acknowledged], fun i hi j hj heq _ => ?_⟩
  · obtain ⟨i, hi, hpi⟩ := h.forked pid hp
    obtain ⟨p, -, hp'⟩ := hpid i (h.size ▸ hi)
    exact ⟨by omega, Or.inr ⟨i, h.size ▸ hi, hpi⟩⟩
  · obtain ⟨p, hfi, hpi⟩ := hpid i hi
    obtain ⟨q, hfj, hqj⟩ := hpid j hj
    obtain rfl : p = q := by omega
    exact hd i j p hfi hfj

/-- However `run_state_setup_ctrl` ends, it is with the processes that it has started with or with
those that it has forked. -/
theorem setupCtrl_rule {P : World → Prop} (autotestMode : Bool) (numNodes : ℕ) (env : SetupCtrl)
    {w : World} (hw : P w) (hauto : autotestMode = true → P (forkAll env.forks numNodes 0 w).2)
    (hmanual : autotestMode = false → P { w with size := numNodes })
    (hsame : ∀ w w', P w → SamePids w w' → P w') :
    P (setupCtrl autotestMode numNodes env w).2 := by
  have hforks : ∃ p, p = (if autotestMode then forkAll env.forks numNodes 0 w
      else (true, { w with size := numNodes })) ∧ P p.2 := by
    refine ⟨_, rfl, ?_⟩
    cases autotestMode with
    | true => exact hauto rfl
    | false => exact hmanual rfl
  obtain ⟨p, hp, hforked⟩ := hforks
  have hclaim : P ((ctrlHandshake autotestMode (env.fds p.2)).recv env.rounds p.2).2 :=
    hsame _ _ hforked (Exchange.recv_samePids _ (claimCtrl_samePids _ _) _ p.2)
  rw [setupCtrl, ← hp]
  dsimp only
  split_ifs
  · exact hw
  · exact hforked
  · exact hforked
  · exact hforked
  · exact hclaim
  · exact hclaim

theorem setupCtrl_accounted (autotestMode : Bool) (numNodes : ℕ) (env : SetupCtrl) {w : World}
    (h : w.Fresh) (hd : ForkDistinct env.forks) :
    (setupCtrl autotestMode numNodes env w).2.Accounted ∧
      (setupCtrl autotestMode numNodes env w).2.killed = [] := by
  refine setupCtrl_rule (P := fun w' => w'.Accounted ∧ w'.killed = []) autotestMode numNodes env
    ⟨(h.forked_zero env.forks).accounted hd, h.killed⟩ (fun _ => ?_) (fun _ => ?_)
    fun w w' hw hsame => ⟨hw.1.congr hsame, hsame.killed.trans hw.2⟩
  · obtain ⟨idx, hforked, -⟩ := forkAll_forked numNodes (h.forked_zero env.forks)
    exact ⟨hforked.accounted hd, hforked.killed⟩
  · refine ⟨⟨by simp [h.forked], fun i _ hne => ?_, fun i _ j _ _ hne => ?_⟩, h.killed⟩
    · exact absurd (by simp [h.fragments]) hne
    · exact absurd (by simp [h.fragments]) hne

theorem forkAll_pcapEnded (forks : ℕ → Option ℕ) (k idx : ℕ) (w : World) :
    (forkAll forks k idx w).2.pcapEnded = w.pcapEnded := by
  induction k generalizing idx w with
  | zero => rfl
  | succ k ih =>
    rw [forkAll]
    cases forks idx with
    | none => rfl
    | some pid => exact ih _ _

theorem setupCtrl_pcapEnded (autotestMode : Bool) (numNodes : ℕ) (env : SetupCtrl) (w : World) :
    (setupCtrl autotestMode numNodes env w).2.pcapEnded = w.pcapEnded :=
  setupCtrl_rule (P := fun w' => w'.pcapEnded = w.pcapEnded) autotestMode numNodes env rfl
    (fun _ => forkAll_pcapEnded _ _ _ w) (fun _ => rfl)
    fun _ _ hw hsame => hsame.pcapEnded.trans hw

theorem release_self (idx : ℕ) (m : Reply) (w : World) :
    ((release idx m w).2.fragments idx).pid = -1 := by
  simp [release]

theorem release_ne {idx i : ℕ} (hi : i ≠ idx) (m : Reply) (w : World) :
    ((release idx m w).2.fragments i).pid = (w.fragments i).pid := by
  simp [release, hi]

theorem World.Accounted.release {w : World} (h : w.Accounted) {idx : ℕ} (hidx : idx < w.size)
    (m : Reply) : (release idx m w).2.Accounted := by
  have hself : ((Orchestrator.release idx m w).2.fragments idx).pid = -1 := release_self idx m w
  have hother : ∀ i, i ≠ idx →
      ((Orchestrator.release idx m w).2.fragments i).pid = (w.fragments i).pid := fun i hi =>
    release_ne hi m w
  have hack : (Orchestrator.release idx m w).2.acknowledged =
      w.acknowledged ++ [(w.fragments idx).pid] := rfl
  refine ⟨fun pid hp => ?_, fun i hi hne => ?_, fun i hi j hj heq hne => ?_⟩
  · obtain ⟨hreal, hold | ⟨i, hi, hpi⟩⟩ := h.tracked pid hp
    · exact ⟨hreal, Or.inl (List.mem_append_left _ hold)⟩
    · by_cases hii : i = idx
      · refine ⟨hreal, Or.inl (List.mem_append_right _ ?_)⟩
        rw [← hpi, hii]
        exact List.mem_singleton_self _
      · exact ⟨hreal, Or.inr ⟨i, hi, (hother i hii).trans hpi⟩⟩
  · have hii : i ≠ idx := fun he => hne (he ▸ hself)
    rw [hother i hii] at hne ⊢
    rw [hack, List.mem_append, List.mem_singleton]
    rintro (hold | heq)
    · exact h.live i hi hne hold
    · exact hii (h.distinct i hi idx hidx heq hne)
  · have hii : i ≠ idx := fun he => hne (he ▸ hself)
    have hjj : j ≠ idx := fun he => hne (heq.trans (he ▸ hself))
    rw [hother i hii] at heq hne
    rw [hother j hjj] at heq
    exact h.distinct i hi j hj heq hne

theorem gracefulShutdown_accounted {w : World} (h : w.Accounted) (rounds : List Round) :
    (gracefulShutdown rounds w).2.Accounted ∧
      (gracefulShutdown rounds w).2.killed = w.killed ∧
      (gracefulShutdown rounds w).2.pcapEnded = w.pcapEnded := by
  have hall := (shutdownExchange w).recv_state
    (P := fun w' => w'.size = w.size ∧ w'.Accounted ∧ w'.killed = w.killed ∧
      w'.pcapEnded = w.pcapEnded)
    (by
      rintro idx m w' ⟨hsize, hacc, hkilled, hended⟩ hidx -
      have hlt : idx < w'.size := by simpa [shutdownExchange, World.ctrlFds, hsize] using hidx
      exact ⟨hsize, hacc.release hlt m, hkilled, hended⟩)
    rounds ⟨rfl, h, rfl, rfl⟩
  exact hall.2

/-- A graceful shutdown that reports nothing has heard from every fragment. -/
theorem gracefulShutdown_none {w : World} (rounds : List Round)
    (hnone : (gracefulShutdown rounds w).1 = .none) :
    ∀ i < (gracefulShutdown rounds w).2.size,
      ((gracefulShutdown rounds w).2.fragments i).pid = -1 := by
  have hstep : ∀ answered idx m w', (w'.size = w.size ∧
      ∀ i ∈ answered, (w'.fragments i).pid = -1) → (release idx m w').2.size = w.size ∧
      ∀ i ∈ idx :: answered, ((release idx m w').2.fragments i).pid = -1 := by
    refine fun answered idx m w' hw => ⟨hw.1, fun i hi => ?_⟩
    obtain rfl | hold := List.mem_cons.mp hi
    · exact release_self i m w'
    · by_cases hii : i = idx
      · exact hii ▸ release_self idx m w'
      · rw [release_ne hii]
        exact hw.2 i hold
  obtain ⟨answered, ⟨hsize, hpid⟩, -, hmem⟩ := (shutdownExchange w).recv_none
    (P := fun answered w' => w'.size = w.size ∧ ∀ i ∈ answered, (w'.fragments i).pid = -1) rounds
    (fun answered idx m w' hw _ _ _ _ _ _ => hstep answered idx m w' hw) ⟨rfl, by simp⟩ hnone
  intro i hi
  refine hpid i ((hmem i).mpr ?_)
  have hi' : i < w.size := hsize ▸ hi
  simpa [shutdownExchange, World.ctrlFds] using hi'

end Accounts

end Mixnet.Orchestrator
