import Mathlib.Data.List.Perm.Subperm
import Mathlib.Logic.Function.Basic
import Mixnet.Network

/-! The testcase graph of testing/common/graph.cpp: what `add_edge` and `generate_topology`
build is simple, and its adjacency lists are the ports of a network. -/
namespace Mixnet

structure HalfEdge where
  id : ℕ
  cost : ℕ := 1

/-- `graph::node`, less the routing parameters. -/
structure GraphNode where
  mixaddr : UInt16
  linkCosts : List ℕ := []

def GraphNode.addLinkCost (n : GraphNode) (v : ℕ) : GraphNode :=
  { n with linkCosts := n.linkCosts ++ [v] }

/-- Positions in an adjacency list are neighbor IDs. -/
structure Graph where
  numNodes : ℕ
  nodes : ℕ → GraphNode
  topology : ℕ → List ℕ

namespace Graph

/-- The constructor; node indices are the default addresses. -/
def new (n : UInt16) : Graph where
  numNodes := n.toNat
  nodes i := { mixaddr := UInt16.ofNat i }
  topology _ := []

/-- No result where an assertion fails. Only the list of `src` is searched for the edge. -/
def addEdge (g : Graph) (src dst : HalfEdge) : Option Graph :=
  if src.id < g.numNodes ∧ dst.id < g.numNodes ∧ src.cost ≤ 1 ∧ dst.cost ≤ 1 ∧
      src.id ≠ dst.id ∧ dst.id ∉ g.topology src.id then
    let nodes := Function.update g.nodes src.id ((g.nodes src.id).addLinkCost src.cost)
    let topology := Function.update g.topology src.id (g.topology src.id ++ [dst.id])
    some { g with
      nodes := Function.update nodes dst.id ((nodes dst.id).addLinkCost dst.cost)
      topology := Function.update topology dst.id (topology dst.id ++ [src.id]) }
  else none

def setMixaddrs (g : Graph) (m : List UInt16) : Option Graph :=
  if m.length = g.numNodes then
    some { g with nodes := fun i => { g.nodes i with mixaddr := m.getD i (g.nodes i).mixaddr } }
  else none

/-- `for (uint16_t i = first; i < bound; i++)`: a bound above 65535 is never reached. -/
def forUint16 (first bound : ℕ) (body : Graph → ℕ → Option Graph) (g : Graph) : Option Graph :=
  if bound < 65536 then Runs.run body (List.range' first (bound - first)) g else none

inductive Shape where
  | line | ring | star | fullMesh

def generateTopology (g : Graph) (t : Shape) (idxs : List ℕ) : Option Graph :=
  if g.numNodes < 2 then some g
  else
    let idxs := if idxs.isEmpty then List.range g.numNodes else idxs
    let edge (g : Graph) (i j : ℕ) := g.addEdge { id := idxs.getD i 0 } { id := idxs.getD j 0 }
    match t with
    | .line => forUint16 0 (idxs.length - 1) (fun g i => edge g i (i + 1)) g
    | .ring =>
      if 2 < idxs.length then
        forUint16 0 idxs.length (fun g i => edge g i ((i + 1) % idxs.length)) g
      else none
    | .fullMesh =>
      forUint16 0 idxs.length (fun g i => forUint16 (i + 1) idxs.length (edge · i) g) g
    | .star => forUint16 1 idxs.length (fun g i => edge g 0 i) g

inductive Call where
  | addEdge (src dst : HalfEdge)
  | generateTopology (t : Shape) (idxs : List ℕ)
  | setMixaddrs (m : List UInt16)

def call (g : Graph) : Call → Option Graph
  | .addEdge src dst => g.addEdge src dst
  | .generateTopology t idxs => g.generateTopology t idxs
  | .setMixaddrs m => g.setMixaddrs m

def build (n : UInt16) (calls : List Call) : Option Graph := Runs.run call calls (new n)

/-- What the orchestrator takes for granted about the adjacency lists. -/
structure Simple (g : Graph) : Prop where
  symm : ∀ u v, v ∈ g.topology u → u ∈ g.topology v
  nodup : ∀ u, (g.topology u).Nodup
  irrefl : ∀ u, u ∉ g.topology u
  lt : ∀ u v, v ∈ g.topology u → v < g.numNodes

theorem Simple.lt_left {g : Graph} (h : g.Simple) {u v : ℕ} (hv : v ∈ g.topology u) :
    u < g.numNodes := h.lt v u (h.symm u v hv)

theorem Simple.degree_le {g : Graph} (h : g.Simple) (u : ℕ) :
    (g.topology u).length ≤ g.numNodes := by
  have hsub : g.topology u ⊆ List.range g.numNodes :=
    fun v hv => List.mem_range.mpr (h.lt u v hv)
  have hlen := (List.subperm_of_subset (h.nodup u) hsub).length_le
  rwa [List.length_range] at hlen

theorem new_simple (n : UInt16) : (new n).Simple where
  symm _ _ h := by simp [new] at h
  nodup _ := by simp [new]
  irrefl _ := by simp [new]
  lt _ _ h := by simp [new] at h

theorem addEdge_cases {g g' : Graph} {src dst : HalfEdge} (h : g.addEdge src dst = some g') :
    src.id < g.numNodes ∧ dst.id < g.numNodes ∧ src.id ≠ dst.id ∧
      dst.id ∉ g.topology src.id ∧ g'.numNodes = g.numNodes ∧
      g'.topology src.id = g.topology src.id ++ [dst.id] ∧
      g'.topology dst.id = g.topology dst.id ++ [src.id] ∧
      ∀ u, u ≠ src.id → u ≠ dst.id → g'.topology u = g.topology u := by
  rw [addEdge] at h
  split_ifs at h with hassert
  obtain ⟨hsrc, hdst, _, _, hne, hnew⟩ := hassert
  obtain rfl := Option.some.inj h
  refine ⟨hsrc, hdst, hne, hnew, rfl, ?_, ?_, fun u hu hu' => ?_⟩
  · simp [Function.update_of_ne hne]
  · simp [Function.update_of_ne hne.symm]
  · simp [Function.update_of_ne hu, Function.update_of_ne hu']

theorem addEdge_mem {g g' : Graph} {src dst : HalfEdge} (h : g.addEdge src dst = some g')
    (u v : ℕ) : v ∈ g'.topology u ↔ v ∈ g.topology u ∨ u = src.id ∧ v = dst.id ∨
      u = dst.id ∧ v = src.id := by
  obtain ⟨_, _, hne, _, _, hs, hd, hother⟩ := addEdge_cases h
  by_cases hus : u = src.id
  · subst hus
    simp [hs, hne]
  · by_cases hud : u = dst.id
    · subst hud
      simp [hd, hus]
    · simp [hother u hus hud, hus, hud]

/-- The search in the list of `src` suffices: by symmetry the list of `dst` is as new. -/
theorem addEdge_simple {g g' : Graph} {src dst : HalfEdge} (h : g.addEdge src dst = some g')
    (hg : g.Simple) : g'.Simple := by
  have hmem := addEdge_mem h
  obtain ⟨hsrc, hdst, hne, hnew, hnum, hs, hd, hother⟩ := addEdge_cases h
  have hnew' : src.id ∉ g.topology dst.id := fun hin => hnew (hg.symm _ _ hin)
  constructor
  · intro u v hv
    rw [hmem] at hv ⊢
    obtain hold | ⟨hu, hv⟩ | ⟨hu, hv⟩ := hv
    · exact Or.inl (hg.symm u v hold)
    · exact Or.inr (Or.inr ⟨hv, hu⟩)
    · exact Or.inr (Or.inl ⟨hv, hu⟩)
  · intro u
    by_cases hus : u = src.id
    · rw [hus, hs]
      exact (hg.nodup src.id).append (by simp) (by simpa using hnew)
    · by_cases hud : u = dst.id
      · rw [hud, hd]
        exact (hg.nodup dst.id).append (by simp) (by simpa using hnew')
      · rw [hother u hus hud]
        exact hg.nodup u
  · intro u hu
    rw [hmem] at hu
    obtain hold | ⟨hu, hu'⟩ | ⟨hu, hu'⟩ := hu
    · exact hg.irrefl u hold
    · exact hne (hu.symm.trans hu')
    · exact hne (hu'.symm.trans hu)
  · intro u v hv
    rw [hnum]
    rw [hmem] at hv
    obtain hold | ⟨_, rfl⟩ | ⟨_, rfl⟩ := hv
    · exact hg.lt u v hold
    · exact hdst
    · exact hsrc

def Kept (P : Graph → Prop) : Prop :=
  ∀ g g' src dst, P g → addEdge g src dst = some g' → P g'

theorem forUint16_kept {P : Graph → Prop} {body : Graph → ℕ → Option Graph}
    (hbody : ∀ g g' i, P g → body g i = some g' → P g') {first bound : ℕ} {g g' : Graph}
    (hg : P g) (h : forUint16 first bound body g = some g') : P g' := by
  rw [forUint16] at h
  split_ifs at h
  exact Runs.run_invariant hbody hg h

theorem generateTopology_kept {P : Graph → Prop} (hP : Kept P) {g g' : Graph} {t : Shape}
    {idxs : List ℕ} (hg : P g) (h : g.generateTopology t idxs = some g') : P g' := by
  rw [generateTopology] at h
  by_cases htwo : g.numNodes < 2
  · rw [if_pos htwo] at h
    obtain rfl := Option.some.inj h
    exact hg
  · rw [if_neg htwo] at h
    dsimp only at h
    generalize (if idxs.isEmpty then List.range g.numNodes else idxs) = idxs at h
    cases t with
    | line => exact forUint16_kept (fun _ _ _ hg he => hP _ _ _ _ hg he) hg h
    | ring =>
      dsimp only at h
      split_ifs at h
      exact forUint16_kept (fun _ _ _ hg he => hP _ _ _ _ hg he) hg h
    | fullMesh =>
      refine forUint16_kept (fun g₁ g₂ i hg₁ hi => ?_) hg h
      exact forUint16_kept (fun _ _ _ hg he => hP _ _ _ _ hg he) hg₁ hi
    | star => exact forUint16_kept (fun _ _ _ hg he => hP _ _ _ _ hg he) hg h

theorem call_simple {g g' : Graph} {c : Call} (hg : g.Simple) (h : g.call c = some g') :
    g'.Simple := by
  cases c with
  | addEdge src dst => exact addEdge_simple h hg
  | generateTopology t idxs =>
    exact generateTopology_kept (fun _ _ _ _ hg he => addEdge_simple he hg) hg h
  | setMixaddrs m =>
    dsimp only [call, setMixaddrs] at h
    split_ifs at h
    obtain rfl := Option.some.inj h
    exact ⟨hg.symm, hg.nodup, hg.irrefl, hg.lt⟩

theorem build_simple {n : UInt16} {calls : List Call} {g : Graph}
    (h : build n calls = some g) : g.Simple :=
  Runs.run_invariant (fun _ _ _ hg hc => call_simple hg hc) (new_simple n) h

theorem call_numNodes {n : ℕ} {g g' : Graph} {c : Call} (hg : g.numNodes = n)
    (h : g.call c = some g') : g'.numNodes = n := by
  have hkept : Kept fun g => g.numNodes = n := by
    intro g g' src dst hg he
    obtain ⟨_, _, _, _, hnum, _⟩ := addEdge_cases he
    rw [hnum, hg]
  cases c with
  | addEdge src dst => exact hkept g g' src dst hg h
  | generateTopology t idxs => exact generateTopology_kept hkept hg h
  | setMixaddrs m =>
    dsimp only [call, setMixaddrs] at h
    split_ifs at h
    obtain rfl := Option.some.inj h
    exact hg

theorem build_numNodes {n : UInt16} {calls : List Call} {g : Graph}
    (h : build n calls = some g) : g.numNodes = n.toNat := by
  have hnew : (new n).numNodes = n.toNat := rfl
  exact Runs.run_invariant (P := fun g => g.numNodes = n.toNat)
    (fun _ _ _ hg hc => call_numNodes hg hc) hnew h

def links (g : Graph) (hg : g.Simple) : SimpleGraph (Fin g.numNodes) where
  Adj u v := (v : ℕ) ∈ g.topology u
  symm := ⟨fun u v h => hg.symm u v h⟩
  loopless := ⟨fun u h => hg.irrefl u h⟩

/-- Built graphs with valid addresses and at most 255 neighbors per node are topologies in the
sense of `Topology`: the ports of a node are the positions in its adjacency list. -/
def toTopology (g : Graph) (hg : g.Simple)
    (hinj : ∀ u v, u < g.numNodes → v < g.numNodes →
      (g.nodes u).mixaddr = (g.nodes v).mixaddr → u = v)
    (hvalid : ∀ u, u < g.numNodes → (g.nodes u).mixaddr ≠ 0xFFFF)
    (hdeg : ∀ u, (g.topology u).length ≤ 255) : Topology (Fin g.numNodes) where
  addr v := (g.nodes v).mixaddr
  deg v := (g.topology v).length
  peer v i := ⟨(g.topology v).get i, hg.lt v _ (List.get_mem _ i)⟩
  addr_injective u v h := Fin.ext (hinj u v u.isLt v.isLt h)
  addr_valid v := hvalid v v.isLt
  deg_le v := hdeg v
  peer_injective v i j h := (List.nodup_iff_injective_get.mp (hg.nodup v)) (Fin.mk.inj h)
  peer_ne v i h := by
    have hmem := List.get_mem (g.topology v) i
    rw [Fin.mk.inj h] at hmem
    exact hg.irrefl v hmem
  peer_symm v i := by
    have hmem := hg.symm v _ (List.get_mem (g.topology v) i)
    obtain ⟨j, hj⟩ := List.get_of_mem hmem
    exact ⟨j, Fin.ext hj⟩

end Graph

end Mixnet
