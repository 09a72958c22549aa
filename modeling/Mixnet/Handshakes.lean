import Mathlib.Tactic.Choose
import Mixnet.Phases

/-! The handshakes on both overlays: which process is behind the descriptors that the orchestrator
assigns to a fragment id, and what the process takes for its own id. -/
namespace Mixnet.Orchestrator
open Codec (MessageType)

section Fragment

/-- A request, as the fragment's accessors read it. `autotestMode` is the payload of SETUP_CTRL. -/
structure Request where
  valid : Bool := true
  isRequest : Bool := true
  type : MessageType
  fragmentId : UInt16
  errorCode : ErrorCode := .none
  autotestMode : Bool := false
deriving DecidableEq

/-- `fragment::check_header`. -/
def checkRequest (m : Request) (checkId checkType : Bool) (fid : UInt16) (type : MessageType) :
    ErrorCode :=
  if !m.valid then .malformedMessage
  else if !m.isRequest then .badMessageCode
  else if checkId && m.fragmentId ≠ fid then .badFragmentId
  else if checkType && m.type ≠ type then .badMessageCode
  else if m.errorCode ≠ .none then .fragmentException
  else .none

structure Process where
  pid : ℤ
  fid : UInt16 := 0xFFFF
  autotestMode : Bool := false
deriving DecidableEq

def Process.response (p : Process) (type : MessageType) : Reply :=
  { type := type, fragmentId := p.fid, pid := p.pid }

/-- What `run_state_setup_ctrl` of the fragment does with the request that completes the handshake;
before, it sends `p.response .setupCtrl`. -/
def Process.setupCtrl (p : Process) (m : Request) : ErrorCode × Process :=
  let ec := checkRequest m false true p.fid .setupCtrl
  if ec ≠ .none then (ec, p)
  else (.none, { p with fid := m.fragmentId, autotestMode := m.autotestMode })

/-- What `run_state_setup_pcap` of the fragment sends on both overlays on its request. -/
def Process.setupPcap (p : Process) (m : Request) : Option Reply :=
  if checkRequest m true true p.fid .setupPcap = .none then some (p.response .setupPcap) else none

def request (autotestMode : Bool) (type : MessageType) (fid : ℕ) : Request :=
  { type := type, fragmentId := UInt16.ofNat fid, autotestMode := autotestMode }

theorem Process.setupCtrl_request (p : Process) (autotestMode : Bool) (fid : ℕ) :
    p.setupCtrl (request autotestMode .setupCtrl fid) =
      (.none, { p with fid := UInt16.ofNat fid, autotestMode := autotestMode }) := rfl

end Fragment

section Claims

/-- The descriptors that have answered, each claimed for one fragment: `claims` lists the fragment
ids beside the indices of their descriptors. -/
structure Claims (size : ℕ) (fds : List ℤ) (owner : ℕ → ℕ → Prop) (fd : ℕ → ℤ)
    (answered : List ℕ) (claims : List (ℕ × ℕ)) : Prop where
  answered : claims.map Prod.snd = answered
  nodup : (claims.map Prod.fst).Nodup
  claimed : ∀ c ∈ claims, c.1 < size ∧ fd c.1 = fds.getD c.2 (-1) ∧ owner c.1 c.2
  assigned : ∀ c ∈ claims, fd c.1 ≠ -1
  free : ∀ fid < size, fid ∉ claims.map Prod.fst → fd fid = -1

variable {size : ℕ} {fds : List ℤ} {owner : ℕ → ℕ → Prop} {fd : ℕ → ℤ} {answered : List ℕ}
  {claims : List (ℕ × ℕ)}

theorem Claims.nil (h : ∀ fid < size, fd fid = -1) : Claims size fds owner fd [] [] :=
  ⟨rfl, .nil, by simp, by simp, fun fid hfid _ => h fid hfid⟩

theorem Claims.claim (h : Claims size fds owner fd answered claims) {fid idx : ℕ}
    (hfid : fid < size) (hfree : fd fid = -1) (hpos : 0 < fds.getD idx (-1))
    (howner : owner fid idx) :
    Claims size fds owner (Function.update fd fid (fds.getD idx (-1))) (idx :: answered)
      ((fid, idx) :: claims) := by
  have hnew : ∀ c ∈ claims, c.1 ≠ fid := fun c hc he => h.assigned c hc (he ▸ hfree)
  refine ⟨by rw [List.map_cons, h.answered], ?_, fun c hc => ?_, fun c hc => ?_,
    fun i hsize hi => ?_⟩
  · refine List.nodup_cons.mpr ⟨fun hmem => ?_, h.nodup⟩
    obtain ⟨c, hc, he⟩ := List.mem_map.mp hmem
    exact hnew c hc he
  · obtain rfl | hc := List.mem_cons.mp hc
    · exact ⟨hfid, Function.update_self .., howner⟩
    · rw [Function.update_of_ne (hnew c hc)]
      exact h.claimed c hc
  · obtain rfl | hc := List.mem_cons.mp hc
    · rw [Function.update_self]
      omega
    · rw [Function.update_of_ne (hnew c hc)]
      exact h.assigned c hc
  · obtain ⟨hne, hi⟩ := not_or.mp (List.mem_cons.not.mp hi)
    rw [Function.update_of_ne hne]
    exact h.free i hsize hi

theorem Claims.all (h : Claims size fds owner fd answered claims) (hnodup : answered.Nodup)
    (hall : ∀ idx, idx ∈ answered ↔ idx < size) :
    ∃ conn : ℕ → ℕ, (∀ fid < size, conn fid < size ∧ fd fid = fds.getD (conn fid) (-1) ∧
      owner fid (conn fid)) ∧ ∀ i < size, ∀ j < size, conn i = conn j → i = j := by
  have hanswered : answered.Perm (List.range size) :=
    (List.perm_ext_iff_of_nodup hnodup List.nodup_range).mpr fun idx => by
      rw [hall, List.mem_range]
  have hsub : (claims.map Prod.fst).Subperm (List.range size) :=
    List.subperm_of_subset h.nodup fun fid hfid => by
      obtain ⟨c, hc, rfl⟩ := List.mem_map.mp hfid
      exact List.mem_range.mpr (h.claimed c hc).1
  have hlen : (List.range size).length = (claims.map Prod.fst).length := by
    rw [← hanswered.length_eq, ← h.answered, List.length_map, List.length_map]
  have hclaimed : ∀ fid, ∃ idx, fid < size → (fid, idx) ∈ claims := fun fid => by
    by_cases hfid : fid < size
    · have hmem := (hsub.perm_of_length_le (Nat.le_of_eq hlen)).mem_iff.mpr (List.mem_range.mpr hfid)
      obtain ⟨⟨_, idx⟩, hc, rfl⟩ := List.mem_map.mp hmem
      exact ⟨idx, fun _ => hc⟩
    · exact ⟨0, fun hlt => absurd hlt hfid⟩
  choose conn hconn using hclaimed
  have hsnd : (claims.map Prod.snd).Nodup := h.answered ▸ hnodup
  refine ⟨conn, fun fid hfid => ?_, fun i hi j hj he => ?_⟩
  · have hmem : conn fid ∈ answered := h.answered ▸ List.mem_map_of_mem (hconn fid hfid)
    exact ⟨(hall _).mp hmem, (h.claimed _ (hconn fid hfid)).2⟩
  · exact congrArg Prod.fst (List.inj_on_of_nodup_map hsnd (hconn i hi) (hconn j hj) he)

/-- An exchange in which every answer claims its descriptor for a fragment that has none; `g` is the
fragment's descriptor on the overlay. -/
theorem Exchange.recv_claims (x : Exchange World) (g : Metadata → ℤ) (owner : ℕ → ℕ → Prop)
    {P : World → Prop} {rounds : List Round} {w : World} (hlen : x.fds.length = size) (hw : P w)
    (hfree : ∀ fid < size, g (w.fragments fid) = -1)
    (hstep : ∀ idx m w', P w' → idx < size →
      (∃ round ∈ rounds, round idx = some (.message m)) → (x.process idx m w').1 = .none →
      P (x.process idx m w').2 ∧ ∃ fid < size, g (w'.fragments fid) = -1 ∧ owner fid idx ∧
        (fun i => g ((x.process idx m w').2.fragments i)) =
          Function.update (fun i => g (w'.fragments i)) fid (x.fds.getD idx (-1)))
    (hnone : (x.recv rounds w).1 = .none) :
    P (x.recv rounds w).2 ∧ ∃ conn : ℕ → ℕ, (∀ fid < size, conn fid < size ∧
        g ((x.recv rounds w).2.fragments fid) = x.fds.getD (conn fid) (-1) ∧
        owner fid (conn fid)) ∧
      ∀ i < size, ∀ j < size, conn i = conn j → i = j := by
  have hclaim : ∀ answered idx m w', (P w' ∧ ∃ claims, Claims size x.fds owner
        (fun i => g (w'.fragments i)) answered claims) → idx < size → 0 < x.fds.getD idx (-1) →
      (∃ round ∈ rounds, round idx = some (.message m)) → (x.process idx m w').1 = .none →
      P (x.process idx m w').2 ∧ ∃ claims, Claims size x.fds owner
        (fun i => g ((x.process idx m w').2.fragments i)) (idx :: answered) claims := by
    rintro answered idx m w' ⟨hP, claims, hclaims⟩ hidx hpos hround hcode
    obtain ⟨hP', fid, hfid, hunassigned, howner, hupdate⟩ := hstep idx m w' hP hidx hround hcode
    rw [hupdate]
    exact ⟨hP', _, hclaims.claim hfid hunassigned hpos howner⟩
  obtain ⟨answered, ⟨hP, claims, hclaims⟩, hnodup, hall⟩ := x.recv_none
    (P := fun answered w' => P w' ∧
      ∃ claims, Claims size x.fds owner (fun i => g (w'.fragments i)) answered claims) rounds
    (fun answered idx m w' h hidx hpos _ hround _ hcode =>
      hclaim answered idx m w' h (hlen ▸ hidx) hpos hround hcode)
    ⟨hw, [], .nil hfree⟩ hnone
  exact ⟨hP, hclaims.all hnodup fun idx => by rw [hall, hlen]⟩

end Claims

section Ctrl

def SetupCtrl.begun (autotestMode : Bool) (numNodes : ℕ) (env : SetupCtrl) (w : World) :
    Option World :=
  let forks := if autotestMode then forkAll env.forks numNodes 0 w
    else (true, { w with size := numNodes })
  if env.serverSetup ≠ .none ∨ !forks.1 ∨ env.acceptRc ≠ 0 ∨ env.numAccepted ≠ numNodes then none
  else some forks.2

variable {autotestMode : Bool} {numNodes : ℕ} {env : SetupCtrl} {w w₀ : World}

theorem setupCtrl_begun (h : env.begun autotestMode numNodes w = some w₀) :
    setupCtrl autotestMode numNodes env w =
      let p := (ctrlHandshake autotestMode (env.fds w₀)).recv env.rounds w₀
      if p.1 ≠ .none then p else (foreachSend p.2.size env.sends, p.2) := by
  rw [SetupCtrl.begun] at h
  rw [setupCtrl]
  generalize (if autotestMode then forkAll env.forks numNodes 0 w
    else (true, { w with size := numNodes })) = forks at h ⊢
  split_ifs at h with hcond
  simp only [not_or, not_not] at hcond
  obtain ⟨hserver, hforks, haccept, hcount⟩ := hcond
  obtain rfl := Option.some.inj h
  simp [hserver, hforks, haccept, hcount]

theorem begun_of_none (h : (setupCtrl autotestMode numNodes env w).1 = .none) :
    ∃ w₀, env.begun autotestMode numNodes w = some w₀ := by
  rw [setupCtrl] at h
  rw [SetupCtrl.begun]
  generalize (if autotestMode then forkAll env.forks numNodes 0 w
    else (true, { w with size := numNodes })) = forks at h ⊢
  dsimp only at h ⊢
  by_cases hserver : env.serverSetup = .none
  · by_cases hforks : forks.1 = true
    · by_cases haccept : env.acceptRc = 0
      · by_cases hcount : env.numAccepted = numNodes
        · exact ⟨forks.2, by simp [hserver, hforks, haccept, hcount]⟩
        · simp [hserver, hforks, haccept, hcount] at h
      · simp [hserver, hforks, haccept] at h
    · simp [hserver, hforks] at h
  · simp [hserver] at h

theorem handshake_none {phase p : ErrorCode × World} {ec : ErrorCode}
    (h : phase = if p.1 ≠ .none then p else (ec, p.2)) (hnone : phase.1 = .none) :
    p.1 = .none ∧ phase.2 = p.2 := by
  subst h
  by_cases hp : p.1 = .none
  · exact ⟨hp, by simp [hp]⟩
  · simp [hp] at hnone

theorem begun_fresh (hw : w.Fresh) (h : env.begun autotestMode numNodes w = some w₀) :
    w₀.size = numNodes ∧ (∀ fid < numNodes, (w₀.fragments fid).fdCtrl = -1 ∧
      (w₀.fragments fid).fdPcap = -1) ∧ (autotestMode = true → ∀ fid < numNodes,
        ∃ pid : ℕ, env.forks fid = some pid ∧ (w₀.fragments fid).pid = pid) := by
  simp only [SetupCtrl.begun] at h
  split_ifs at h with hmode hcond
  · simp only [not_or, not_not] at hcond
    obtain rfl := Option.some.inj h
    obtain ⟨idx, hforked, hall⟩ := forkAll_forked numNodes (hw.forked_zero env.forks)
    obtain rfl : idx = numNodes := by simpa using hall (by simpa using hcond.2.1)
    refine ⟨hforked.size, fun fid hfid => ?_, fun _ fid hfid => ?_⟩
    · obtain ⟨pid, -, hfrag⟩ := hforked.pid fid hfid
      simp [hfrag]
    · obtain ⟨pid, hpid, hfrag⟩ := hforked.pid fid hfid
      exact ⟨pid, hpid, by rw [hfrag]⟩
  · obtain rfl := Option.some.inj h
    exact ⟨rfl, fun fid _ => by simp [hw.fragments], fun hmode' => absurd hmode' hmode⟩

theorem World.set_fdCtrl (w : World) (fid : ℕ) (fd : ℤ) :
    (fun i => ((w.set fid fun f => { f with fdCtrl := fd }).fragments i).fdCtrl) =
      Function.update (fun i => (w.fragments i).fdCtrl) fid fd :=
  World.set_update Metadata.fdCtrl fun _ => rfl

theorem World.set_fdPcap (w : World) (fid : ℕ) (fd : ℤ) :
    (fun i => ((w.set fid fun f => { f with fdPcap := fd }).fragments i).fdPcap) =
      Function.update (fun i => (w.fragments i).fdPcap) fid fd :=
  World.set_update Metadata.fdPcap fun _ => rfl

theorem claimCtrl_cases (autotestMode : Bool) (fds : List ℤ) (idx : ℕ) (m : Reply) (w : World) :
    (claimCtrl autotestMode fds idx m w).1 ≠ .none ∧
        (claimCtrl autotestMode fds idx m w).2 = w ∨
      (claimCtrl autotestMode fds idx m w).1 = .none ∧
        ∃ fid, (claimCtrl autotestMode fds idx m w).2 =
            w.set fid (fun f => { f with fdCtrl := fds.getD idx (-1) }) ∧
          (w.fragments fid).fdCtrl = -1 ∧ (autotestMode = false → fid = idx) ∧
          (autotestMode = true → fid < w.size ∧ (w.fragments fid).pid = m.pid) := by
  cases autotestMode with
  | false =>
    by_cases hfd : (w.fragments idx).fdCtrl = -1
    · exact Or.inr ⟨by simp [claimCtrl, hfd], idx, by simp [claimCtrl, hfd], hfd, fun _ => rfl,
        fun h => absurd h (by decide)⟩
    · exact Or.inl ⟨by simp [claimCtrl, hfd], by simp [claimCtrl, hfd]⟩
  | true =>
    cases hfind : (List.range w.size).find? fun fid => (w.fragments fid).pid = m.pid with
    | none => exact Or.inl ⟨by simp [claimCtrl, hfind], by simp [claimCtrl, hfind]⟩
    | some fid =>
      have hsize := List.mem_range.mp (List.mem_of_find?_eq_some hfind)
      have hpid : (w.fragments fid).pid = m.pid := by simpa using List.find?_some hfind
      by_cases hfd : (w.fragments fid).fdCtrl = -1
      · exact Or.inr ⟨by simp [claimCtrl, hfind, hfd], fid, by simp [claimCtrl, hfind, hfd], hfd,
          fun h => absurd h (by decide), fun _ => ⟨hsize, hpid⟩⟩
      · exact Or.inl ⟨by simp [claimCtrl, hfind, hfd], by simp [claimCtrl, hfind, hfd]⟩

theorem claimPcap_cases (fds : List ℤ) (idx : ℕ) (m : Reply) (w : World) :
    (claimPcap fds idx m w).1 ≠ .none ∧ (claimPcap fds idx m w).2 = w ∨
      (claimPcap fds idx m w).1 = .none ∧ (claimPcap fds idx m w).2 =
          w.set m.fragmentId.toNat (fun f => { f with fdPcap := fds.getD idx (-1) }) ∧
        (w.fragments m.fragmentId.toNat).fdPcap = -1 ∧ m.fragmentId.toNat < w.size := by
  simp only [claimPcap]
  split_ifs with hsize hfd
  · exact Or.inl ⟨by simp, rfl⟩
  · exact Or.inl ⟨by simp, rfl⟩
  · exact Or.inr ⟨rfl, rfl, not_not.mp hfd, by omega⟩

def SetupPcap.Begun (env : SetupPcap) (numNodes : ℕ) (w : World) : Prop :=
  env.serverSetup = .none ∧ foreachSend w.size env.sends = .none ∧
    ((acknowledgement .setupPcap w).recv env.acknowledgements w).1 = .none ∧
    env.acceptRc = 0 ∧ env.numAccepted = numNodes

theorem acknowledgement_state (type : MessageType) (w : World) (rounds : List Round) :
    ((acknowledgement type w).recv rounds w).2 = w :=
  (acknowledgement type w).recv_state (P := (· = w)) (fun _ _ _ hw _ _ => hw) rounds rfl

theorem setupPcap_begun {env : SetupPcap} (h : env.Begun numNodes w) :
    setupPcap numNodes env w =
      let q := (pcapHandshake (env.fds w)).recv env.rounds w
      if q.1 ≠ .none then q else (foreachSend q.2.size env.completions, q.2) := by
  obtain ⟨hserver, hsend, hack, haccept, hcount⟩ := h
  simp [setupPcap, hserver, hsend, hack, haccept, hcount, acknowledgement_state]

theorem pcap_begun_of_none {env : SetupPcap} (h : (setupPcap numNodes env w).1 = .none) :
    env.Begun numNodes w := by
  rw [setupPcap] at h
  by_cases hserver : env.serverSetup = .none
  · by_cases hsend : foreachSend w.size env.sends = .none
    · by_cases hack : ((acknowledgement .setupPcap w).recv env.acknowledgements w).1 = .none
      · by_cases haccept : env.acceptRc = 0
        · by_cases hcount : env.numAccepted = numNodes
          · exact ⟨hserver, hsend, hack, haccept, hcount⟩
          · simp [hserver, hsend, hack, haccept, hcount] at h
        · simp [hserver, hsend, hack, haccept] at h
      · simp [hserver, hsend, hack] at h
    · simp [hserver, hsend] at h
  · simp [hserver] at h

theorem SetupCtrl.fds_getD (env : SetupCtrl) {idx : ℕ} (h : idx < w.size) :
    (env.fds w).getD idx (-1) = env.connectionFd idx := by
  simp [SetupCtrl.fds, List.getD, h]

theorem SetupPcap.fds_getD (env : SetupPcap) {idx : ℕ} (h : idx < w.size) :
    (env.fds w).getD idx (-1) = env.connectionFd idx := by
  simp [SetupPcap.fds, List.getD, h]

end Ctrl

section Peers

/-- The fragment processes as they start, and those at the other end of the orchestrator's
descriptors. -/
structure Peers where
  process : ℕ → Process
  ctrl : ℤ → ℕ
  pcap : ℤ → ℕ

variable (k : Peers) (autotestMode : Bool)

def Peers.requests (w : World) (q : ℕ) : List ℕ :=
  (List.range w.size).filter fun fid => k.ctrl (w.fragments fid).fdCtrl = q

def Peers.joined (w : World) (q : ℕ) : Option Process :=
  (k.requests w q).head?.map fun fid =>
    ((k.process q).setupCtrl (request autotestMode .setupCtrl fid)).2

/-- What the processes do: each connects once to the ctrl listener and opens the handshake with its
pid; a response on the pcap overlay comes from a process that has processed both requests. -/
structure Peers.Speak (numNodes : ℕ) (envCtrl : SetupCtrl) (envPcap : SetupPcap) (w : World) :
    Prop where
  once : ∀ i < numNodes, ∀ j < numNodes,
    k.ctrl (envCtrl.connectionFd i) = k.ctrl (envCtrl.connectionFd j) → i = j
  ctrl : ∀ round ∈ envCtrl.rounds, ∀ idx < numNodes, ∀ m, round idx = some (.message m) →
    m = (k.process (k.ctrl (envCtrl.connectionFd idx))).response .setupCtrl
  pcap : ∀ round ∈ envPcap.rounds, ∀ idx < numNodes, ∀ m, round idx = some (.message m) →
    ∃ p fid, k.joined autotestMode w (k.pcap (envPcap.connectionFd idx)) = some p ∧
      fid ∈ k.requests w (k.pcap (envPcap.connectionFd idx)) ∧
      p.setupPcap (request autotestMode .setupPcap fid) = some m

variable {k autotestMode} {numNodes : ℕ} {envCtrl : SetupCtrl} {envPcap : SetupPcap}
  {w w₀ w₁ w₂ : World}

/-- A handshake on the ctrl overlay that reports nothing has assigned every descriptor to a fragment
of its own, in autotest mode to that of the process behind it. -/
theorem ctrl_assigned (hw : w.Fresh) (hbegun : envCtrl.begun autotestMode numNodes w = some w₀)
    (hspeak : ∀ round ∈ envCtrl.rounds, ∀ idx < numNodes, ∀ m, round idx = some (.message m) →
      m = (k.process (k.ctrl (envCtrl.connectionFd idx))).response .setupCtrl)
    (hw₁ : w₁ = ((ctrlHandshake autotestMode (envCtrl.fds w₀)).recv envCtrl.rounds w₀).2)
    (hnone : ((ctrlHandshake autotestMode (envCtrl.fds w₀)).recv envCtrl.rounds w₀).1 = .none) :
    w₁.size = numNodes ∧ (∀ fid < numNodes, (w₁.fragments fid).fdPcap = -1) ∧
      ∃ conn : ℕ → ℕ, (∀ fid < numNodes, conn fid < numNodes ∧
        (w₁.fragments fid).fdCtrl = envCtrl.connectionFd (conn fid) ∧ (autotestMode = true →
          (w₁.fragments fid).pid = (k.process (k.ctrl (w₁.fragments fid).fdCtrl)).pid)) ∧
      ∀ i < numNodes, ∀ j < numNodes, conn i = conn j → i = j := by
  obtain ⟨hsize, hfree, -⟩ := begun_fresh hw hbegun
  have hlen : (envCtrl.fds w₀).length = numNodes := by simp [SetupCtrl.fds, hsize]
  obtain ⟨⟨hsame, hpcap⟩, conn, hconn, hinj⟩ := Exchange.recv_claims
    (ctrlHandshake autotestMode (envCtrl.fds w₀)) Metadata.fdCtrl
    (fun fid idx => autotestMode = true →
      (w₀.fragments fid).pid = (k.process (k.ctrl (envCtrl.connectionFd idx))).pid)
    (P := fun w' => SamePids w₀ w' ∧ ∀ fid < numNodes, (w'.fragments fid).fdPcap = -1)
    hlen ⟨.refl w₀, fun fid hfid => (hfree fid hfid).2⟩ (fun fid hfid => (hfree fid hfid).1)
    (fun idx m w' h hidx hround hcode => by
      obtain ⟨hsame, hpcap⟩ := h
      obtain ⟨round, hround, hm⟩ := hround
      have hsame' := hsame.trans (claimCtrl_samePids autotestMode (envCtrl.fds w₀) idx m w')
      obtain ⟨hne, -⟩ | ⟨-, fid, hset, hunassigned, hmanual, hauto⟩ :=
        claimCtrl_cases autotestMode (envCtrl.fds w₀) idx m w'
      · exact absurd hcode hne
      · have hfid : fid < numNodes := by
          cases hmode : autotestMode with
          | false => exact (hmanual hmode) ▸ hidx
          | true => exact hsize ▸ hsame.size ▸ (hauto hmode).1
        simp only [ctrlHandshake]
        rw [hset] at hsame' ⊢
        refine ⟨⟨hsame', fun i hi => ?_⟩, fid, hfid, hunassigned, fun hmode => ?_,
          World.set_fdCtrl ..⟩
        · exact (World.set_field Metadata.fdPcap (by simp) i).trans (hpcap i hi)
        · rw [← hsame.pid, (hauto hmode).2, hspeak round hround idx hidx m hm]
          rfl)
    hnone
  rw [← hw₁] at hsame hpcap hconn
  refine ⟨hsame.size.trans hsize, hpcap, conn, fun fid hfid => ?_, hinj⟩
  obtain ⟨hlt, hfdCtrl, howner⟩ := hconn fid hfid
  have hfd : (w₁.fragments fid).fdCtrl = envCtrl.connectionFd (conn fid) :=
    hfdCtrl.trans (envCtrl.fds_getD (hsize ▸ hlt))
  refine ⟨hlt, hfd, fun hmode => ?_⟩
  rw [hsame.pid, howner hmode, hfd]

/-- A handshake on the pcap overlay that reports nothing has assigned every fragment a descriptor
behind which there is a process that goes by the fragment's id. -/
theorem pcap_assigned (hsize : w₁.size = numNodes)
    (hfree : ∀ fid < numNodes, (w₁.fragments fid).fdPcap = -1)
    (hspeak : ∀ round ∈ envPcap.rounds, ∀ idx < numNodes, ∀ m, round idx = some (.message m) →
      ∃ p fid, k.joined autotestMode w₁ (k.pcap (envPcap.connectionFd idx)) = some p ∧
        fid ∈ k.requests w₁ (k.pcap (envPcap.connectionFd idx)) ∧
        p.setupPcap (request autotestMode .setupPcap fid) = some m)
    (hw₂ : w₂ = ((pcapHandshake (envPcap.fds w₁)).recv envPcap.rounds w₁).2)
    (hnone : ((pcapHandshake (envPcap.fds w₁)).recv envPcap.rounds w₁).1 = .none) :
    (∀ fid, (w₂.fragments fid).fdCtrl = (w₁.fragments fid).fdCtrl ∧
        (w₂.fragments fid).pid = (w₁.fragments fid).pid) ∧
      ∀ fid < numNodes, ∃ p, k.joined autotestMode w₁ (k.pcap (w₂.fragments fid).fdPcap) = some p ∧
        p.fid = UInt16.ofNat fid := by
  have hlen : (envPcap.fds w₁).length = numNodes := by simp [SetupPcap.fds, hsize]
  obtain ⟨⟨hsame, hctrl⟩, conn, hconn, -⟩ := Exchange.recv_claims (pcapHandshake (envPcap.fds w₁))
    Metadata.fdPcap
    (fun fid idx => ∃ p, k.joined autotestMode w₁ (k.pcap (envPcap.connectionFd idx)) = some p ∧
      p.fid = UInt16.ofNat fid)
    (P := fun w' => SamePids w₁ w' ∧
      ∀ fid, (w'.fragments fid).fdCtrl = (w₁.fragments fid).fdCtrl)
    hlen ⟨.refl w₁, fun _ => rfl⟩ hfree
    (fun idx m w' h hidx hround hcode => by
      obtain ⟨hsame, hctrl⟩ := h
      obtain ⟨round, hround, hm⟩ := hround
      have hsame' := hsame.trans (claimPcap_samePids (envPcap.fds w₁) idx m w')
      obtain ⟨hne, -⟩ | ⟨-, hset, hunassigned, hfid⟩ := claimPcap_cases (envPcap.fds w₁) idx m w'
      · exact absurd hcode hne
      · simp only [pcapHandshake]
        rw [hset] at hsame' ⊢
        refine ⟨⟨hsame', fun i => ?_⟩, m.fragmentId.toNat, hsize ▸ hsame.size ▸ hfid, hunassigned, ?_,
          World.set_fdPcap ..⟩
        · exact (World.set_field Metadata.fdCtrl (by simp) i).trans (hctrl i)
        · obtain ⟨p, fid, hjoined, -, hresponse⟩ := hspeak round hround idx hidx m hm
          rw [Process.setupPcap] at hresponse
          split_ifs at hresponse
          obtain rfl := Option.some.inj hresponse
          exact ⟨p, hjoined, UInt16.ofNat_toNat.symm⟩)
    hnone
  rw [← hw₂] at hsame hctrl hconn
  refine ⟨fun fid => ⟨hctrl fid, hsame.pid fid⟩, fun fid hfid => ?_⟩
  obtain ⟨hlt, hfdPcap, howner⟩ := hconn fid hfid
  rw [hfdPcap, show (pcapHandshake (envPcap.fds w₁)).fds.getD (conn fid) (-1) =
    envPcap.connectionFd (conn fid) from envPcap.fds_getD (hsize ▸ hlt)]
  exact howner

theorem Peers.joined_cases {q : ℕ} {p : Process} (h : k.joined autotestMode w q = some p) :
    ∃ fid < w.size, k.ctrl (w.fragments fid).fdCtrl = q ∧ p.fid = UInt16.ofNat fid ∧
      p.pid = (k.process q).pid := by
  obtain ⟨fid, hhead, rfl⟩ := Option.map_eq_some_iff.mp h
  have hmem := List.mem_filter.mp (List.mem_of_mem_head? hhead)
  refine ⟨fid, List.mem_range.mp hmem.1, of_decide_eq_true hmem.2, ?_, ?_⟩
  · rw [Process.setupCtrl_request]
  · rw [Process.setupCtrl_request]

/-- Every fragment id stands for one process: both descriptors lead to it, it goes by that id once
it has processed the SETUP_CTRL request, and in autotest mode it is the one forked for it. -/
structure Peers.Assigned (k : Peers) (autotestMode : Bool) (numNodes : ℕ) (w₁ w₂ : World) :
    Prop where
  same : ∀ fid < numNodes, ∃ p, k.ctrl (w₂.fragments fid).fdCtrl = k.pcap (w₂.fragments fid).fdPcap ∧
    k.joined autotestMode w₁ (k.ctrl (w₂.fragments fid).fdCtrl) = some p ∧
    p.fid = UInt16.ofNat fid ∧ (autotestMode = true → p.pid = (w₂.fragments fid).pid)
  distinct : ∀ i < numNodes, ∀ j < numNodes,
    k.ctrl (w₂.fragments i).fdCtrl = k.ctrl (w₂.fragments j).fdCtrl → i = j

theorem handshakes_assigned {n : UInt16} (hw : w.Fresh)
    (hw₁ : w₁ = (setupCtrl autotestMode n.toNat envCtrl w).2)
    (hw₂ : w₂ = (setupPcap n.toNat envPcap w₁).2)
    (hspeak : k.Speak autotestMode n.toNat envCtrl envPcap w₁)
    (hctrl : (setupCtrl autotestMode n.toNat envCtrl w).1 = .none)
    (hpcap : (setupPcap n.toNat envPcap w₁).1 = .none) :
    k.Assigned autotestMode n.toNat w₁ w₂ := by
  obtain ⟨w₀, hbegun⟩ := begun_of_none hctrl
  obtain ⟨hrecv, hstate⟩ := handshake_none (setupCtrl_begun hbegun) hctrl
  obtain ⟨hrecv', hstate'⟩ := handshake_none (setupPcap_begun (pcap_begun_of_none hpcap)) hpcap
  obtain ⟨hsize, hfree, conn, hconn, hinj⟩ :=
    ctrl_assigned hw hbegun hspeak.ctrl (hw₁.trans hstate) hrecv
  obtain ⟨hsame, hjoined⟩ := pcap_assigned hsize hfree hspeak.pcap (hw₂.trans hstate') hrecv'
  have hdistinct : ∀ i < n.toNat, ∀ j < n.toNat,
      k.ctrl (w₁.fragments i).fdCtrl = k.ctrl (w₁.fragments j).fdCtrl → i = j := by
    intro i hi j hj he
    obtain ⟨hlti, hfdi, -⟩ := hconn i hi
    obtain ⟨hltj, hfdj, -⟩ := hconn j hj
    rw [hfdi, hfdj] at he
    exact hinj i hi j hj (hspeak.once _ hlti _ hltj he)
  refine ⟨fun fid hfid => ?_, fun i hi j hj he => ?_⟩
  · obtain ⟨p, hp, hid⟩ := hjoined fid hfid
    obtain ⟨fid', hfid', hpeer, hid', hpid⟩ := Peers.joined_cases hp
    obtain rfl : fid = fid' := ofNat_inj hfid (hsize ▸ hfid') (hid.symm.trans hid')
    rw [(hsame fid).1, (hsame fid).2, hpeer]
    refine ⟨p, rfl, hp, hid, fun hmode => ?_⟩
    obtain ⟨-, -, hauto⟩ := hconn fid hfid
    rw [hpid, hauto hmode, hpeer]
  · rw [(hsame i).1, (hsame j).1] at he
    exact hdistinct i hi j hj he

end Peers

section Refused

def World.PidRefused (w : World) (pid : ℤ) : Prop :=
  (∀ fid < w.size, (w.fragments fid).pid ≠ pid) ∨
    ∃ fid < w.size, (w.fragments fid).pid = pid ∧ (w.fragments fid).fdCtrl ≠ -1

def World.IdRefused (w : World) (fragmentId : UInt16) : Prop :=
  w.size ≤ fragmentId.toNat ∨ (w.fragments fragmentId.toNat).fdPcap ≠ -1

structure KeepsFds (w w' : World) : Prop where
  ctrl : ∀ fid, (w.fragments fid).fdCtrl ≠ -1 →
    (w'.fragments fid).fdCtrl = (w.fragments fid).fdCtrl
  pcap : ∀ fid, (w.fragments fid).fdPcap ≠ -1 →
    (w'.fragments fid).fdPcap = (w.fragments fid).fdPcap

theorem KeepsFds.refl (w : World) : KeepsFds w w := ⟨fun _ _ => rfl, fun _ _ => rfl⟩

theorem KeepsFds.trans {w w' w'' : World} (h : KeepsFds w w') (h' : KeepsFds w' w'') :
    KeepsFds w w'' := by
  refine ⟨fun fid hfd => ?_, fun fid hfd => ?_⟩
  · have hmid := h.ctrl fid hfd
    rw [h'.ctrl fid (hmid ▸ hfd), hmid]
  · have hmid := h.pcap fid hfd
    rw [h'.pcap fid (hmid ▸ hfd), hmid]

theorem claimCtrl_keepsFds (autotestMode : Bool) (fds : List ℤ) (idx : ℕ) (m : Reply)
    (w : World) : KeepsFds w (claimCtrl autotestMode fds idx m w).2 := by
  obtain ⟨-, hsame⟩ | ⟨-, fid, hset, hfree, -⟩ := claimCtrl_cases autotestMode fds idx m w
  · rw [hsame]
    exact .refl w
  · rw [hset]
    refine ⟨fun i hi => ?_, fun i _ => World.set_field Metadata.fdPcap (by simp) i⟩
    have hne : i ≠ fid := fun he => hi (he ▸ hfree)
    rw [World.set_ne hne]

theorem claimPcap_keepsFds (fds : List ℤ) (idx : ℕ) (m : Reply) (w : World) :
    KeepsFds w (claimPcap fds idx m w).2 := by
  obtain ⟨-, hsame⟩ | ⟨-, hset, hfree, -⟩ := claimPcap_cases fds idx m w
  · rw [hsame]
    exact .refl w
  · rw [hset]
    refine ⟨fun i _ => World.set_field Metadata.fdCtrl (by simp) i, fun i hi => ?_⟩
    have hne : i ≠ m.fragmentId.toNat := fun he => hi (he ▸ hfree)
    rw [World.set_ne hne]

theorem ctrl_refused {autotestMode : Bool} {numNodes : ℕ} {env : SetupCtrl} {w w₀ w' : World}
    {idx : ℕ} {m : Reply} (hw : w.Fresh) (hfork : ForkDistinct env.forks)
    (hmode : autotestMode = true) (hbegun : env.begun autotestMode numNodes w = some w₀)
    (htakes : (ctrlHandshake autotestMode (env.fds w₀)).Takes env.rounds w₀ idx m w')
    (hrefused : w'.PidRefused m.pid) :
    (setupCtrl autotestMode numNodes env w).1 ≠ .none ∧
      KeepsFds w' (setupCtrl autotestMode numNodes env w).2 := by
  obtain ⟨hsize, -, hpids⟩ := begun_fresh hw hbegun
  obtain ⟨hsame, -⟩ := htakes.keeps .refl (fun _ _ _ => .trans) (claimCtrl_samePids _ _)
  obtain ⟨-, hkeeps⟩ := htakes.keeps .refl (fun _ _ _ => .trans) (claimCtrl_keepsFds _ _)
  have hdistinct : ∀ i < w'.size, ∀ j < w'.size,
      (w'.fragments i).pid = (w'.fragments j).pid → i = j := by
    intro i hi j hj he
    rw [hsame.size, hsize] at hi hj
    rw [hsame.pid, hsame.pid] at he
    obtain ⟨p, hforki, hpi⟩ := hpids hmode i hi
    obtain ⟨q, hforkj, hqj⟩ := hpids hmode j hj
    obtain rfl : p = q := by omega
    exact hfork i j p hforki hforkj
  have herror : (claimCtrl autotestMode (env.fds w₀) idx m w').1 ≠ .none := by
    obtain ⟨hne, -⟩ | ⟨-, fid, -, hfree, -, hauto⟩ :=
      claimCtrl_cases autotestMode (env.fds w₀) idx m w'
    · exact hne
    · obtain ⟨hfid, hpid⟩ := hauto hmode
      obtain hunknown | ⟨fid', hfid', hpid', hclaimed⟩ := hrefused
      · exact absurd hpid (hunknown fid hfid)
      · obtain rfl := hdistinct fid hfid fid' hfid' (hpid.trans hpid'.symm)
        exact absurd hfree hclaimed
  have hrecv := htakes.error herror
  rw [setupCtrl_begun hbegun]
  simp only [if_pos hrecv]
  exact ⟨hrecv, hkeeps⟩

theorem pcap_refused {numNodes : ℕ} {env : SetupPcap} {w w' : World} {idx : ℕ} {m : Reply}
    (hbegun : env.Begun numNodes w)
    (htakes : (pcapHandshake (env.fds w)).Takes env.rounds w idx m w')
    (hrefused : w'.IdRefused m.fragmentId) :
    (setupPcap numNodes env w).1 ≠ .none ∧ KeepsFds w' (setupPcap numNodes env w).2 := by
  obtain ⟨-, hkeeps⟩ := htakes.keeps .refl (fun _ _ _ => .trans) (claimPcap_keepsFds _)
  have herror : (claimPcap (env.fds w) idx m w').1 ≠ .none := by
    obtain ⟨hne, -⟩ | ⟨-, -, hfree, hfid⟩ := claimPcap_cases (env.fds w) idx m w'
    · exact hne
    · obtain hrange | hclaimed := hrefused
      · exact absurd hfid (Nat.not_lt.mpr hrange)
      · exact absurd hfree hclaimed
  have hrecv := htakes.error herror
  rw [setupPcap_begun hbegun]
  simp only [if_pos hrecv]
  exact ⟨hrecv, hkeeps⟩

/-- Handshakes that report nothing assign every fragment id to a process of its own, whatever the
order in which the processes connect and answer; a response that claims a pid or an id that is not
to be had makes the phase fail and replaces no descriptor. -/
theorem handshakes_assign_identities (n : UInt16) (autotestMode : Bool) (envCtrl : SetupCtrl)
    (envPcap : SetupPcap) (w : World) (hw : w.Fresh)
    (hfork : autotestMode = true → ForkDistinct envCtrl.forks) :
    let ctrl := setupCtrl autotestMode n.toNat envCtrl w
    let pcap := setupPcap n.toNat envPcap ctrl.2
    (∀ k : Peers, k.Speak autotestMode n.toNat envCtrl envPcap ctrl.2 →
      ctrl.1 = .none → pcap.1 = .none → k.Assigned autotestMode n.toNat ctrl.2 pcap.2) ∧
    (autotestMode = true → ∀ w₀ idx m w', envCtrl.begun autotestMode n.toNat w = some w₀ →
      (ctrlHandshake autotestMode (envCtrl.fds w₀)).Takes envCtrl.rounds w₀ idx m w' →
      w'.PidRefused m.pid → ctrl.1 ≠ .none ∧ KeepsFds w' ctrl.2) ∧
    (∀ idx m w', envPcap.Begun n.toNat ctrl.2 →
      (pcapHandshake (envPcap.fds ctrl.2)).Takes envPcap.rounds ctrl.2 idx m w' →
      w'.IdRefused m.fragmentId → pcap.1 ≠ .none ∧ KeepsFds w' pcap.2) := by
  intro ctrl pcap
  refine ⟨fun k hspeak hctrl hpcap => ?_, fun hmode w₀ idx m w' => ?_, fun idx m w' => ?_⟩
  · exact handshakes_assigned hw rfl rfl hspeak hctrl hpcap
  · exact ctrl_refused hw (hfork hmode) hmode
  · exact pcap_refused

/-- Two fragments in autotest mode. The one that was forked last connects first to the ctrl
listener and last to the pcap listener. -/
def crossedCtrl : SetupCtrl where
  forks fid := [some 100, some 200].getD fid none
  numAccepted := 2
  connectionFd idx := [5, 6].getD idx (-1)
  rounds := [fun idx => if idx = 1 then
      some (.message { type := .setupCtrl, fragmentId := 0xFFFF, pid := 100 }) else none,
    fun idx => if idx = 0 then
      some (.message { type := .setupCtrl, fragmentId := 0xFFFF, pid := 200 }) else none]
  sends := [.none, .none]

def crossedPcap : SetupPcap where
  sends := [.none, .none]
  acknowledgements := [fun idx =>
    some (.message { type := .setupPcap, fragmentId := UInt16.ofNat idx })]
  numAccepted := 2
  connectionFd idx := [7, 8].getD idx (-1)
  rounds := [fun idx => some (.message
    { type := .setupPcap, fragmentId := UInt16.ofNat idx, pid := if idx = 0 then 100 else 200 })]
  completions := [.none, .none]

def crossedPeers : Peers where
  process q := { pid := if q = 0 then 100 else 200 }
  ctrl fd := if fd = 6 then 0 else 1
  pcap fd := if fd = 7 then 0 else 1

theorem crossed_forkDistinct : ForkDistinct crossedCtrl.forks := by
  rintro (_ | _ | i) (_ | _ | j) pid hi hj <;> simp_all [crossedCtrl] <;> omega

theorem crossed_speak : crossedPeers.Speak true (2 : UInt16).toNat crossedCtrl crossedPcap
    (setupCtrl true (2 : UInt16).toNat crossedCtrl {}).2 where
  once := by decide
  ctrl := by
    intro round hround idx hidx m hm
    simp only [crossedCtrl, List.mem_cons, List.not_mem_nil, or_false] at hround
    obtain rfl | rfl := hround
    · by_cases hone : idx = 1
      · subst hone
        obtain rfl := Answer.message.inj (Option.some.inj hm)
        decide
      · simp [hone] at hm
    · by_cases hzero : idx = 0
      · subst hzero
        obtain rfl := Answer.message.inj (Option.some.inj hm)
        decide
      · simp [hzero] at hm
  pcap := by
    intro round hround idx hidx m hm
    obtain rfl := List.mem_singleton.mp hround
    obtain rfl := Answer.message.inj (Option.some.inj hm)
    have hcases : idx = 0 ∨ idx = 1 := by
      change idx < 2 at hidx
      omega
    obtain rfl | rfl := hcases
    · exact ⟨⟨100, 0, true⟩, 0, by decide +kernel, by decide +kernel, by decide +kernel⟩
    · exact ⟨⟨200, 1, true⟩, 1, by decide +kernel, by decide +kernel, by decide +kernel⟩

/-- The crossed handshakes, and two in which a response claims a pid or an id that there is not. -/
theorem handshakes_assign_identities_two :
    (∃ w₁ w₂, crossedPeers.Assigned true 2 w₁ w₂ ∧ (w₂.fragments 0).fdCtrl = 6 ∧
      (w₂.fragments 0).fdPcap = 7) ∧
    (setupCtrl true 2 { crossedCtrl with rounds := [fun _ => some (.message
      { type := .setupCtrl, fragmentId := 0xFFFF, pid := 300 })] } {}).1 ≠ .none ∧
    (setupPcap 2 { crossedPcap with rounds := [fun _ => some (.message
      { type := .setupPcap, fragmentId := 2 })] } (setupCtrl true 2 crossedCtrl {}).2).1 ≠ .none := by
  have hfresh : World.Fresh {} := ⟨rfl, fun _ => rfl, rfl, rfl, rfl⟩
  refine ⟨⟨_, _, (handshakes_assign_identities 2 true crossedCtrl crossedPcap {} hfresh fun _ =>
    crossed_forkDistinct).1 crossedPeers crossed_speak (by decide +kernel) (by decide +kernel),
    by decide +kernel, by decide +kernel⟩, ?_, ?_⟩
  · have hrefused := (handshakes_assign_identities 2 true { crossedCtrl with
      rounds := [fun _ => some (.message
        { type := .setupCtrl, fragmentId := 0xFFFF, pid := 300 })] } crossedPcap {} hfresh fun _ =>
      crossed_forkDistinct).2.1 rfl (forkAll crossedCtrl.forks 2 0 {}).2 0
      { type := .setupCtrl, fragmentId := 0xFFFF, pid := 300 } _ rfl
      ⟨[], [(1, .message { type := .setupCtrl, fragmentId := 0xFFFF, pid := 300 })],
        by decide +kernel, rfl⟩ (Or.inl (by decide +kernel))
    exact hrefused.1
  · have hrefused := (handshakes_assign_identities 2 true crossedCtrl { crossedPcap with
      rounds := [fun _ => some (.message { type := .setupPcap, fragmentId := 2 })] } {} hfresh
      fun _ => crossed_forkDistinct).2.2 0 { type := .setupPcap, fragmentId := 2 } _
      ⟨rfl, by decide +kernel, by decide +kernel, rfl, rfl⟩
      ⟨[], [(1, .message { type := .setupPcap, fragmentId := 2 })], by decide +kernel, rfl⟩
      (Or.inl (by decide +kernel))
    exact hrefused.1

end Refused

end Mixnet.Orchestrator
