import Mixnet.OrchestratorSteps

/-! Port wiring matches the graph. When the three phases have returned `NONE`, port `i` of a
node writes into the connection that its neighbor reads from on the port it calls by that
node's name. -/
namespace Mixnet.Wiring

/-- The longest setup messages carry an address for each neighbor. -/
def Fits (g : Graph) : Prop := ∀ u, 8 + (8 + 16 * (g.topology u).length) + 4 ≤ 65535

theorem fits_of_build {n : UInt16} {calls : List Graph.Call} {g : Graph}
    (h : Graph.build n calls = some g) (hn : n.toNat ≤ 4094) : Fits g := by
  intro u
  have hdeg := (Graph.build_simple h).degree_le u
  rw [Graph.build_numNodes h] at hdeg
  omega

variable {g : Graph} {host : ℕ → UInt32}

theorem WiringInv.init (g : Graph) (host : ℕ → UInt32) :
    WiringInv g host (World.init g) where
  kernel := ⟨fun c c' x x' h => by simp [World.init] at h,
    fun u v p _ _ _ h => by simp [World.init] at h, fun v c h => by simp [World.init] at h⟩
  fragment u := ⟨rfl, fun s hs => by simp [World.init] at hs,
    fun j fd h => by simp [World.init] at h, fun h => by simp [World.init] at h, fun _ _ => rfl⟩
  requests u m hm := by simp [World.init] at hm
  responses u m hm := by simp [World.init] at hm
  orchestrator := by
    have hnone : ∀ s v, ¬ (World.init g).orchestrator.Answered s v := by
      intro s v ha
      obtain hlt | ⟨_, _, pending, hp, _⟩ := ha
      · exact absurd hlt (Nat.not_lt_zero _)
      · simp [World.init] at hp
    exact ⟨by simp [World.init], fun v _ ha => absurd ha (hnone _ v),
      fun v _ ha => absurd ha (hnone _ v), fun v _ ha => absurd ha (hnone _ v), fun _ _ => rfl⟩

theorem WiringInv.step {w w' : World} {e : Event} (hg : g.Simple) (hfits : Fits g)
    (h : WiringInv g host w) (hs : w.step g host e = some w') : WiringInv g host w' := by
  cases e with
  | send result garbled => exact h.send hg hfits hs
  | sendTimeout => exact h.sendTimeout hs
  | receive idx result peername => exact h.receive hs
  | receiveTimeout => exact h.receiveTimeout hs
  | finishLoop => exact h.finishLoop hs
  | startServer u fd port => exact h.startServer hs
  | startClient u => exact h.startClient hs
  | connect u fd v address => exact h.connect hs
  | finishClients u garbled => exact h.finishClients (hfits u) hs
  | resolve u => exact h.resolve hs
  | accept u fd c nonblocking => exact h.accept hs
  | acceptError u => exact h.acceptError hs
  | failure u code =>
    obtain rfl := Option.some.inj hs
    exact h.fail u code
  | outsider v address => exact h.outsider hs

theorem wiringInv_reach {w : World} (hg : g.Simple) (hfits : Fits g)
    (h : Runs.Reach (World.step g host) (fun _ _ => True) (World.init g) w) :
    WiringInv g host w :=
  h.invariant (WiringInv.init g host) fun _ _ _ hw _ hs => hw.step hg hfits hs

theorem wired_of_startTestcase {w : World} (hg : g.Simple) (hinv : WiringInv g host w)
    (hstate : w.orchestrator.state = .startTestcase) {u i v : ℕ}
    (hv : (g.topology u)[i]? = some v) : ∃ j c, (∀ j', (g.topology v)[j']? = some u ↔ j' = j) ∧
      w.txSocket u i = some (.server c) ∧ w.rxSocket v j = some (.client c) := by
  have hlt := hg.lt_left (List.mem_of_getElem? hv)
  have hanswered : w.orchestrator.Answered .resolveMixnetConnections u := by
    left
    rw [hstate]
    decide
  obtain ⟨j, c, hj, htx, hrx⟩ := hinv.orchestrator.resolved u hlt hanswered i v hv
  refine ⟨j, c, fun j' => ⟨fun hj' => ?_, fun hj' => hj' ▸ hj⟩, htx, hrx⟩
  have hbound := (List.getElem?_eq_some_iff.mp hj').1
  exact (List.getElem?_inj hbound (hg.nodup v)).mp (hj'.trans hj.symm)

/-- In every state reached, whatever the order of answers and of accepted connections: the
search in the RESOLVE lambda has not failed, and if all phases have returned `NONE` then the
neighbor `v` behind port `i` of `u` has exactly one port for `u`, and the socket of port `i`
is the server end of the connection whose client end is the socket of that port. -/
theorem ports_match_graph {n : UInt16} {calls : List Graph.Call} {w : World}
    (hbuild : Graph.build n calls = some g) (hfits : Fits g)
    (hreach : Runs.Reach (World.step g host) (fun _ _ => True) (World.init g) w) :
    w.orchestrator.state ≠ .aborted ∧
      (w.orchestrator.state = .startTestcase → ∀ u i v, (g.topology u)[i]? = some v →
        ∃ j c, (∀ j', (g.topology v)[j']? = some u ↔ j' = j) ∧
          w.txSocket u i = some (.server c) ∧ w.rxSocket v j = some (.client c)) := by
  have hg := Graph.build_simple hbuild
  have hinv := wiringInv_reach hg hfits hreach
  constructor
  · exact hinv.orchestrator.not_aborted
  · intro hstate u i v hv
    exact wired_of_startTestcase hg hinv hstate hv

def lineCalls : List Graph.Call := [.generateTopology .line []]

/-- Three fragments in a line that answer out of order; another process connects to the server
in the middle, whose accept thread takes its neighbors' connections in the order opposite to
their ports. -/
def lineEvents : List Event :=
  let m : CtrlMessage := { fragmentId := 0, isRequest := true, type := .startMixnetServer }
  let netaddr (port : UInt16) : NetAddr := { family := afInet, port := port, addr := 0x7F000001 }
  let requests : List Event := [.send .none m, .send .none m, .send .none m, .finishLoop]
  let responses (order : List ℕ) : List Event :=
    order.map (fun idx => .receive idx .none true) ++ [.finishLoop]
  requests ++ [.startServer 2 3 102, .startServer 0 3 100, .startServer 1 3 101] ++
    responses [1, 0, 2] ++ requests ++
    [.startClient 1, .outsider 1 (netaddr 55), .connect 1 5 0 (netaddr 500), .startClient 2,
      .connect 2 5 1 (netaddr 501), .startClient 0, .connect 1 6 2 (netaddr 502),
      .connect 0 5 1 (netaddr 503), .accept 0 7 1 true, .accept 1 7 2 true, .accept 1 8 4 true,
      .accept 2 9 3 true, .finishClients 1 m, .finishClients 0 m, .finishClients 2 m] ++
    responses [2, 1, 0] ++ requests ++ [.resolve 2, .resolve 1, .resolve 0] ++
    responses [0, 2, 1]

theorem ports_match_graph_line : ∃ (g : Graph) (w : World), Graph.build 3 lineCalls = some g ∧
    w.orchestrator.state = .startTestcase ∧
    (w.orchestrator.state ≠ .aborted ∧
      (w.orchestrator.state = .startTestcase → ∀ u i v, (g.topology u)[i]? = some v →
        ∃ j c, (∀ j', (g.topology v)[j']? = some u ↔ j' = j) ∧
          w.txSocket u i = some (.server c) ∧ w.rxSocket v j = some (.client c))) := by
  have hrun : ((Graph.build 3 lineCalls).any fun g =>
      (Runs.run (World.step g fun _ => 0x7F000001) lineEvents (World.init g)).any fun w =>
        decide (w.orchestrator.state = .startTestcase)) = true := by decide +kernel
  obtain ⟨g, hbuild, hrun⟩ := (Option.any_eq_true _ _).mp hrun
  obtain ⟨w, hw, hstate⟩ := (Option.any_eq_true _ _).mp hrun
  refine ⟨g, w, hbuild, of_decide_eq_true hstate, ?_⟩
  exact ports_match_graph hbuild (fits_of_build hbuild (by decide))
    (Runs.reach_of_run (fun _ _ _ => trivial) hw)

/-- What node `v` of the network sends on port `i` goes into the connection that the neighbor
`peer v i` reads from on its port for `v`. -/
theorem topology_wired {w : World} (hg : g.Simple) (hinj hvalid hdeg) (hfits : Fits g)
    (hreach : Runs.Reach (World.step g host) (fun _ _ => True) (World.init g) w)
    (hstate : w.orchestrator.state = .startTestcase)
    (v : Fin g.numNodes) (i : Fin ((g.toTopology hg hinj hvalid hdeg).deg v)) :
    let T := g.toTopology hg hinj hvalid hdeg
    ∃ j c, T.peer (T.peer v i) j = v ∧ w.txSocket v i = some (.server c) ∧
      w.rxSocket (T.peer v i) j = some (.client c) := by
  intro T
  have hinv := wiringInv_reach hg hfits hreach
  have hv : (g.topology v)[i.val]? = some (T.peer v i).val := List.getElem?_eq_getElem i.isLt
  obtain ⟨j, c, hj, htx, hrx⟩ := wired_of_startTestcase hg hinv hstate hv
  obtain ⟨hlt, hback⟩ := List.getElem?_eq_some_iff.mp ((hj j).mpr rfl)
  exact ⟨⟨j, hlt⟩, c, Fin.ext hback, htx, hrx⟩

end Mixnet.Wiring
