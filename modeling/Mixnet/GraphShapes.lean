import Mathlib.Combinatorics.SimpleGraph.Connectivity.EdgeConnectivity
import Mathlib.Combinatorics.SimpleGraph.CycleGraph
import Mathlib.Combinatorics.SimpleGraph.Star
import Mixnet.Graph

/-! What `generate_topology` builds over the nodes that it is given: the path, the cycle, the star
or the complete graph. -/
namespace Mixnet
namespace Graph

/-- What a type of topology stands for, over the positions in the list of node indices. -/
def Shape.graph : Shape → (n : ℕ) → SimpleGraph (Fin n)
  | .line, n => SimpleGraph.pathGraph n
  | .ring, n => SimpleGraph.cycleGraph n
  | .star, _ => SimpleGraph.fromRel fun i _ => (i : ℕ) = 0
  | .fullMesh, _ => ⊤

/-- The positions that each call of `add_edge` joins, in the order of the calls. -/
def Shape.pairs : Shape → ℕ → List (ℕ × ℕ)
  | .line, n => (List.range' 0 (n - 1)).map fun i => (i, i + 1)
  | .ring, n => (List.range' 0 n).map fun i => (i, (i + 1) % n)
  | .star, n => (List.range' 1 (n - 1)).map fun i => (0, i)
  | .fullMesh, n =>
    (List.range' 0 n).flatMap fun i => (List.range' (i + 1) (n - (i + 1))).map fun j => (i, j)

def addPair (g : Graph) (e : ℕ × ℕ) : Option Graph := g.addEdge { id := e.1 } { id := e.2 }

def ends (u : ℕ) (es : List (ℕ × ℕ)) : List ℕ :=
  es.filterMap fun e => if e.1 = u then some e.2 else if e.2 = u then some e.1 else none

section Pairs

theorem addPair_eq_some {g : Graph} {e : ℕ × ℕ} (h : e.1 < g.numNodes) (h' : e.2 < g.numNodes)
    (hne : e.1 ≠ e.2) (hnew : e.2 ∉ g.topology e.1) : ∃ g', g.addPair e = some g' := by
  rw [addPair, addEdge, if_pos ⟨h, h', le_rfl, le_rfl, hne, hnew⟩]
  exact ⟨_, rfl⟩

theorem run_addPair (es : List (ℕ × ℕ)) {g : Graph}
    (hlt : ∀ e ∈ es, e.1 < g.numNodes ∧ e.2 < g.numNodes) (hnodup : es.Nodup)
    (hasymm : ∀ e ∈ es, e.swap ∉ es) (hnew : ∀ e ∈ es, e.2 ∉ g.topology e.1) :
    ∃ g', Runs.run addPair es g = some g' ∧ g'.numNodes = g.numNodes ∧
      ∀ u, g'.topology u = g.topology u ++ ends u es := by
  induction es generalizing g with
  | nil => exact ⟨g, rfl, rfl, fun u => by simp [ends]⟩
  | cons e es ih =>
    obtain ⟨hfresh, hnodup'⟩ := List.nodup_cons.mp hnodup
    have hne : e.1 ≠ e.2 := fun heq =>
      hasymm e List.mem_cons_self (by simp [Prod.swap, Prod.ext_iff, heq])
    obtain ⟨hfst, hsnd⟩ := hlt e List.mem_cons_self
    obtain ⟨g₁, hg₁⟩ := addPair_eq_some hfst hsnd hne (hnew e List.mem_cons_self)
    have hmem := addEdge_mem hg₁
    obtain ⟨_, _, _, _, hnum, hs, hd, hother⟩ := addEdge_cases hg₁
    have hrest : ∀ f ∈ es, f.2 ∉ g₁.topology f.1 := by
      intro f hf hin
      have hmore : f ∈ e :: es := List.mem_cons_of_mem _ hf
      obtain hold | ⟨h1, h2⟩ | ⟨h1, h2⟩ := (hmem f.1 f.2).mp hin
      · exact hnew f hmore hold
      · exact hfresh (Prod.ext h1 h2 ▸ hf)
      · exact hasymm f hmore (by simp [Prod.swap, h1, h2])
    obtain ⟨g', hrun, hnum', htop⟩ := ih (g := g₁)
      (fun f hf => by rw [hnum]; exact hlt f (List.mem_cons_of_mem _ hf)) hnodup'
      (fun f hf hin => hasymm f (List.mem_cons_of_mem _ hf) (List.mem_cons_of_mem _ hin)) hrest
    refine ⟨g', ?_, hnum'.trans hnum, fun u => ?_⟩
    · rw [Runs.run, hg₁]
      exact hrun
    · rw [htop u]
      by_cases hus : u = e.1
      · subst hus
        simp [hs, ends]
      · by_cases hud : u = e.2
        · subst hud
          simp [hd, ends, hne]
        · simp [hother u hus hud, ends, Ne.symm hus, Ne.symm hud]

theorem mem_ends {u v : ℕ} {es : List (ℕ × ℕ)} :
    v ∈ ends u es ↔ (u, v) ∈ es ∨ (v, u) ∈ es := by
  constructor
  · intro h
    obtain ⟨⟨a, b⟩, he, hv⟩ := List.mem_filterMap.mp h
    dsimp only at hv
    split_ifs at hv with h1 h2
    · obtain rfl := Option.some.inj hv
      exact Or.inl (h1 ▸ he)
    · obtain rfl := Option.some.inj hv
      exact Or.inr (h2 ▸ he)
  · rintro (he | he)
    · exact List.mem_filterMap.mpr ⟨_, he, by simp⟩
    · refine List.mem_filterMap.mpr ⟨_, he, ?_⟩
      by_cases hvu : v = u
      · simp [hvu]
      · simp [hvu]

end Pairs

section Positions
variable {t : Shape} {n i j : ℕ}

def Shape.Joins : Shape → ℕ → ℕ → ℕ → Prop
  | .line, n, i, j => j = i + 1 ∧ j < n
  | .ring, n, i, j => i < n ∧ j = (i + 1) % n
  | .star, n, i, j => i = 0 ∧ 0 < j ∧ j < n
  | .fullMesh, n, i, j => i < j ∧ j < n

theorem mem_pairs : (i, j) ∈ t.pairs n ↔ t.Joins n i j := by
  cases t with
  | line =>
    simp only [Shape.pairs, Shape.Joins, List.mem_map, List.mem_range'_1, Prod.mk.injEq]
    constructor
    · rintro ⟨k, hk, rfl, rfl⟩
      exact ⟨rfl, by omega⟩
    · rintro ⟨rfl, hj⟩
      exact ⟨i, by omega, rfl, rfl⟩
  | ring =>
    simp only [Shape.pairs, Shape.Joins, List.mem_map, List.mem_range'_1, Prod.mk.injEq]
    constructor
    · rintro ⟨k, hk, rfl, rfl⟩
      exact ⟨by omega, rfl⟩
    · rintro ⟨hi, rfl⟩
      exact ⟨i, by omega, rfl, rfl⟩
  | star =>
    simp only [Shape.pairs, Shape.Joins, List.mem_map, List.mem_range'_1, Prod.mk.injEq]
    constructor
    · rintro ⟨k, hk, rfl, rfl⟩
      exact ⟨rfl, by omega, by omega⟩
    · rintro ⟨rfl, h0, hj⟩
      exact ⟨j, by omega, rfl, rfl⟩
  | fullMesh =>
    simp only [Shape.pairs, Shape.Joins, List.mem_flatMap, List.mem_map, List.mem_range'_1,
      Prod.mk.injEq]
    constructor
    · rintro ⟨k, hk, l, hl, rfl, rfl⟩
      exact ⟨by omega, by omega⟩
    · rintro ⟨hij, hj⟩
      exact ⟨i, by omega, j, by omega, rfl, rfl⟩

theorem pairs_nodup (t : Shape) (n : ℕ) : (t.pairs n).Nodup := by
  cases t with
  | line => exact List.Nodup.map (fun _ _ h => congrArg Prod.fst h) List.nodup_range'
  | ring => exact List.Nodup.map (fun _ _ h => congrArg Prod.fst h) List.nodup_range'
  | star => exact List.Nodup.map (fun _ _ h => congrArg Prod.snd h) List.nodup_range'
  | fullMesh =>
    refine List.nodup_flatMap.mpr ⟨fun i _ => ?_, ?_⟩
    · exact List.Nodup.map (fun _ _ h => congrArg Prod.snd h) List.nodup_range'
    · refine (List.nodup_range' (s := 0) (n := n)).imp fun {a b} hab p ha hb => hab ?_
      obtain ⟨_, _, rfl⟩ := List.mem_map.mp ha
      obtain ⟨_, _, hp⟩ := List.mem_map.mp hb
      exact (congrArg Prod.fst hp).symm

theorem pairs_eq_nil (hring : t ≠ .ring) (hn : n ≤ 1) : t.pairs n = [] := by
  refine List.eq_nil_iff_forall_not_mem.mpr fun p hp => ?_
  have hjoins : t.Joins n p.1 p.2 := mem_pairs.mp hp
  cases t with
  | line =>
    obtain ⟨h1, h2⟩ := hjoins
    omega
  | ring => exact hring rfl
  | star =>
    obtain ⟨-, h1, h2⟩ := hjoins
    omega
  | fullMesh =>
    obtain ⟨h1, h2⟩ := hjoins
    omega

theorem Shape.Joins.lt (h : t.Joins n i j) : i < n ∧ j < n := by
  cases t with
  | line => exact ⟨by have := h.1; have := h.2; omega, h.2⟩
  | ring =>
    obtain ⟨hi, rfl⟩ := h
    exact ⟨hi, Nat.mod_lt _ (by omega)⟩
  | star => exact ⟨by have := h.1; have := h.2.2; omega, h.2.2⟩
  | fullMesh => exact ⟨h.1.trans h.2, h.2⟩

theorem succ_mod (hi : i < n) : (i + 1) % n = if i + 1 = n then 0 else i + 1 := by
  split_ifs with hin
  · rw [hin, Nat.mod_self]
  · exact Nat.mod_eq_of_lt (by omega)

theorem Shape.Joins.asymm (hring : t = .ring → 2 < n) (h : t.Joins n i j) : ¬ t.Joins n j i := by
  intro h'
  cases t with
  | line =>
    obtain ⟨h1, _⟩ := h
    obtain ⟨h2, _⟩ := h'
    omega
  | ring =>
    have hn := hring rfl
    obtain ⟨hi, hj⟩ := h
    obtain ⟨hj', hi'⟩ := h'
    rw [succ_mod hi] at hj
    rw [succ_mod hj'] at hi'
    split_ifs at hj hi' <;> omega
  | star =>
    obtain ⟨h1, h2, _⟩ := h
    obtain ⟨h3, h4, _⟩ := h'
    omega
  | fullMesh =>
    obtain ⟨h1, _⟩ := h
    obtain ⟨h2, _⟩ := h'
    omega

theorem graph_adj (hring : t = .ring → 2 < n) {i j : Fin n} :
    (t.graph n).Adj i j ↔ t.Joins n i j ∨ t.Joins n j i := by
  cases t with
  | line =>
    rw [Shape.graph, SimpleGraph.pathGraph_adj]
    simp only [Shape.Joins]
    omega
  | ring =>
    have hn := hring rfl
    have hsub : ∀ i j : Fin n, (i - j).val = 1 ↔ i.val = (j.val + 1) % n := by
      intro i j
      rw [succ_mod j.isLt, Fin.sub_def]
      obtain hlt | hle := Nat.lt_or_ge i.val j.val
      · dsimp only
        rw [Nat.mod_eq_of_lt (by omega)]
        split_ifs <;> omega
      · have hshift : n - j.val + i.val = (i.val - j.val) + n := by omega
        dsimp only
        rw [hshift, Nat.add_mod_right, Nat.mod_eq_of_lt (by omega)]
        split_ifs <;> omega
    rw [Shape.graph, SimpleGraph.cycleGraph_adj', hsub i j, hsub j i]
    simp only [Shape.Joins, Fin.is_lt, true_and]
    exact or_comm
  | star =>
    rw [Shape.graph, SimpleGraph.fromRel_adj]
    simp only [Shape.Joins, ne_eq, Fin.ext_iff]
    omega
  | fullMesh =>
    simp only [Shape.graph, Shape.Joins, SimpleGraph.top_adj, ne_eq, Fin.ext_iff]
    omega

end Positions

section Building

def indices (g : Graph) (idxs : List ℕ) : List ℕ :=
  if idxs.isEmpty then List.range g.numNodes else idxs

def place (idxs : List ℕ) (p : ℕ × ℕ) : ℕ × ℕ := (idxs.getD p.1 0, idxs.getD p.2 0)

theorem generateTopology_eq {g : Graph} {t : Shape} {idxs : List ℕ} (htwo : 2 ≤ g.numNodes)
    (hlen : (g.indices idxs).length < 65536) (hring : t = .ring → 2 < (g.indices idxs).length) :
    g.generateTopology t idxs =
      Runs.run addPair ((t.pairs (g.indices idxs).length).map (place (g.indices idxs))) g := by
  rw [Runs.run_map, generateTopology, if_neg (by omega)]
  rw [indices] at hlen hring ⊢
  dsimp only
  generalize (if idxs.isEmpty then List.range g.numNodes else idxs) = idxs at hlen hring
  cases t with
  | line =>
    dsimp only
    rw [forUint16, if_pos (by omega), Shape.pairs, Runs.run_map]
    rfl
  | ring =>
    dsimp only
    rw [if_pos (hring rfl), forUint16, if_pos hlen, Shape.pairs, Runs.run_map]
    rfl
  | star =>
    dsimp only
    rw [forUint16, if_pos hlen, Shape.pairs, Runs.run_map]
    rfl
  | fullMesh =>
    simp only [forUint16, if_pos hlen, Shape.pairs, Runs.run_flatMap, Runs.run_map]
    rfl

theorem place_eq {idxs : List ℕ} {p : ℕ × ℕ} (h : p.1 < idxs.length) (h' : p.2 < idxs.length) :
    place idxs p = (idxs[p.1], idxs[p.2]) := by
  simp [place, h, h']

theorem place_inj {idxs : List ℕ} (h : idxs.Nodup) {p q : ℕ × ℕ}
    (hp : p.1 < idxs.length ∧ p.2 < idxs.length) (hq : q.1 < idxs.length ∧ q.2 < idxs.length)
    (heq : place idxs p = place idxs q) : p = q := by
  rw [place_eq hp.1 hp.2, place_eq hq.1 hq.2] at heq
  obtain ⟨h1, h2⟩ := Prod.mk.inj heq
  exact Prod.ext ((h.getElem_inj_iff).mp h1) ((h.getElem_inj_iff).mp h2)

theorem mem_map_place {t : Shape} {idxs : List ℕ} (hring : t = .ring → 2 < idxs.length) (u v : ℕ) :
    ((u, v) ∈ (t.pairs idxs.length).map (place idxs) ∨
      (v, u) ∈ (t.pairs idxs.length).map (place idxs)) ↔
      ∃ i j, (t.graph idxs.length).Adj i j ∧ idxs.get i = u ∧ idxs.get j = v := by
  have hone : ∀ u v, (u, v) ∈ (t.pairs idxs.length).map (place idxs) ↔
      ∃ i j : Fin idxs.length, t.Joins idxs.length i j ∧ idxs.get i = u ∧ idxs.get j = v := by
    intro u v
    rw [List.mem_map]
    constructor
    · rintro ⟨⟨i, j⟩, hp, heq⟩
      have hjoins := mem_pairs.mp hp
      obtain ⟨hi, hj⟩ := hjoins.lt
      rw [place_eq hi hj] at heq
      obtain ⟨h1, h2⟩ := Prod.mk.inj heq
      exact ⟨⟨i, hi⟩, ⟨j, hj⟩, hjoins, h1, h2⟩
    · rintro ⟨i, j, hjoins, rfl, rfl⟩
      exact ⟨(i, j), mem_pairs.mpr hjoins, place_eq i.isLt j.isLt⟩
  rw [hone u v, hone v u]
  constructor
  · rintro (⟨i, j, h, hu, hv⟩ | ⟨i, j, h, hv, hu⟩)
    · exact ⟨i, j, (graph_adj hring).mpr (Or.inl h), hu, hv⟩
    · exact ⟨j, i, (graph_adj hring).mpr (Or.inr h), hu, hv⟩
  · rintro ⟨i, j, hadj, hu, hv⟩
    obtain h | h := (graph_adj hring).mp hadj
    · exact Or.inl ⟨i, j, h, hu, hv⟩
    · exact Or.inr ⟨j, i, h, hv, hu⟩

theorem edges_fresh {t : Shape} {idxs : List ℕ} {n : ℕ} (hnodup : idxs.Nodup)
    (hlt : ∀ x ∈ idxs, x < n) (hring : t = .ring → 2 < idxs.length) :
    ((t.pairs idxs.length).map (place idxs)).Nodup ∧
      (∀ e ∈ (t.pairs idxs.length).map (place idxs),
        e.swap ∉ (t.pairs idxs.length).map (place idxs)) ∧
      ∀ e ∈ (t.pairs idxs.length).map (place idxs), e.1 < n ∧ e.2 < n := by
  have hpairs : ∀ p ∈ t.pairs idxs.length, p.1 < idxs.length ∧ p.2 < idxs.length :=
    fun p hp => (mem_pairs.mp hp).lt
  refine ⟨?_, ?_, ?_⟩
  · exact (pairs_nodup t _).map_on fun p hp q hq h => place_inj hnodup (hpairs p hp) (hpairs q hq) h
  · intro e he hswap
    obtain ⟨p, hp, rfl⟩ := List.mem_map.mp he
    obtain ⟨q, hq, hqp⟩ := List.mem_map.mp hswap
    obtain rfl : q = p.swap :=
      place_inj hnodup (hpairs q hq) (hpairs p hp).symm hqp
    exact (mem_pairs.mp hp).asymm hring (mem_pairs.mp hq)
  · intro e he
    obtain ⟨p, hp, rfl⟩ := List.mem_map.mp he
    obtain ⟨h1, h2⟩ := hpairs p hp
    rw [place_eq h1 h2]
    exact ⟨hlt _ (List.getElem_mem h1), hlt _ (List.getElem_mem h2)⟩

theorem new_of_run_addPair (es : List (ℕ × ℕ)) {g g' : Graph}
    (h : Runs.run addPair es g = some g') : ∀ e ∈ es, e.2 ∉ g.topology e.1 := by
  induction es generalizing g with
  | nil => simp
  | cons e es ih =>
    obtain ⟨g₁, hg₁, hrest⟩ := Option.bind_eq_some_iff.mp h
    intro f hf hin
    obtain rfl | hf := List.mem_cons.mp hf
    · exact (addEdge_cases hg₁).2.2.2.1 hin
    · exact ih hrest f hf ((addEdge_mem hg₁ _ _).mpr (Or.inl hin))

section Call
variable {g g' : Graph} {t : Shape} {idxs : List ℕ}

/-- The nodes that a call goes through are different nodes of a graph with 16-bit indices. -/
structure Fits (g : Graph) (t : Shape) (idxs : List ℕ) : Prop where
  nodes : g.numNodes < 65536
  nodup : (g.indices idxs).Nodup
  lt : ∀ x ∈ g.indices idxs, x < g.numNodes
  ring : t = .ring → 2 < (g.indices idxs).length

theorem Fits.run_eq (h : g.Fits t idxs) : g.generateTopology t idxs =
    Runs.run addPair ((t.pairs (g.indices idxs).length).map (place (g.indices idxs))) g := by
  have hsub := List.subperm_of_subset h.nodup fun x hx => List.mem_range.mpr (h.lt x hx)
  have hle : (g.indices idxs).length ≤ g.numNodes := by simpa using hsub.length_le
  obtain hsmall | htwo := Nat.lt_or_ge g.numNodes 2
  · have hring : t ≠ .ring := fun ht => by
      have hlen := h.ring ht
      omega
    rw [generateTopology, if_pos hsmall, pairs_eq_nil hring (by omega)]
    rfl
  · exact generateTopology_eq htwo (hle.trans_lt h.nodes) h.ring

theorem Fits.isSome_iff (h : g.Fits t idxs) (hg : g.Simple) :
    (g.generateTopology t idxs).isSome ↔ ∀ i j, (t.graph (g.indices idxs).length).Adj i j →
      (g.indices idxs).get j ∉ g.topology ((g.indices idxs).get i) := by
  obtain ⟨hes, hasymm, hbound⟩ := edges_fresh h.nodup h.lt h.ring
  have hmem := mem_map_place h.ring
  rw [h.run_eq]
  constructor
  · intro hsome i j hadj
    obtain ⟨g', hg'⟩ := Option.isSome_iff_exists.mp hsome
    obtain he | he := (hmem _ _).mpr ⟨i, j, hadj, rfl, rfl⟩
    · exact new_of_run_addPair _ hg' _ he
    · exact fun hin => new_of_run_addPair _ hg' _ he (hg.symm _ _ hin)
  · intro hnew
    obtain ⟨g', hg', -⟩ := run_addPair _ hbound hes hasymm fun e he => by
      obtain ⟨i, j, hadj, h1, h2⟩ := (hmem e.1 e.2).mp (Or.inl he)
      rw [← h1, ← h2]
      exact hnew i j hadj
    rw [hg']
    rfl

theorem Fits.mem_iff (h : g.Fits t idxs) (hrun : g.generateTopology t idxs = some g') :
    g'.numNodes = g.numNodes ∧ ∀ u v, v ∈ g'.topology u ↔ v ∈ g.topology u ∨
      ∃ i j, (t.graph (g.indices idxs).length).Adj i j ∧
        (g.indices idxs).get i = u ∧ (g.indices idxs).get j = v := by
  obtain ⟨hes, hasymm, hbound⟩ := edges_fresh h.nodup h.lt h.ring
  rw [h.run_eq] at hrun
  obtain ⟨g₁, hg₁, hnum, htop⟩ := run_addPair _ hbound hes hasymm (new_of_run_addPair _ hrun)
  obtain rfl : g₁ = g' := Option.some.inj (hg₁.symm.trans hrun)
  refine ⟨hnum, fun u v => ?_⟩
  rw [htop u, List.mem_append, mem_ends, mem_map_place h.ring]

end Call

/-- Over different nodes of the graph, `generate_topology` adds exactly the edges of the path, the
cycle, the star or the complete graph, and it fails exactly where one of them is there already. -/
theorem generateTopology_spec (g : Graph) (hg : g.Simple) (t : Shape) (idxs : List ℕ)
    (h : g.Fits t idxs) :
    ((g.generateTopology t idxs).isSome ↔ ∀ i j, (t.graph (g.indices idxs).length).Adj i j →
      (g.indices idxs).get j ∉ g.topology ((g.indices idxs).get i)) ∧
    ∀ g', g.generateTopology t idxs = some g' → g'.numNodes = g.numNodes ∧
      ∀ u v, v ∈ g'.topology u ↔ v ∈ g.topology u ∨
        ∃ i j, (t.graph (g.indices idxs).length).Adj i j ∧
          (g.indices idxs).get i = u ∧ (g.indices idxs).get j = v :=
  ⟨h.isSome_iff hg, fun _ hrun => h.mem_iff hrun⟩

/-- A star over nodes 2, 4, 5 and 6 after a ring over nodes 0 to 3. -/
theorem generateTopology_spec_star :
    ∃ g g', (new 7).generateTopology .ring [0, 1, 2, 3] = some g ∧
      g.generateTopology .star [2, 4, 5, 6] = some g' ∧
      ∀ v, v ∈ g'.topology 2 ↔ v ∈ g.topology 2 ∨ v ∈ [4, 5, 6] := by
  have hrun : (((new 7).generateTopology .ring [0, 1, 2, 3]).any fun g =>
      decide (g.numNodes = 7 ∧ ∀ i j : Fin 4, (i = 0 ∧ j ≠ 0 ∨ j = 0 ∧ i ≠ 0) →
        [2, 4, 5, 6].get j ∉ g.topology ([2, 4, 5, 6].get i))) = true := by decide +kernel
  obtain ⟨g, hg, hall⟩ := (Option.any_eq_true _ _).mp hrun
  obtain ⟨hnum, hnew⟩ := of_decide_eq_true hall
  have hadj : ∀ i j : Fin 4, (Shape.star.graph 4).Adj i j ↔ i = 0 ∧ j ≠ 0 ∨ j = 0 ∧ i ≠ 0 := by
    intro i j
    rw [Shape.graph, SimpleGraph.fromRel_adj]
    revert i j
    decide
  have hsimple : g.Simple :=
    generateTopology_kept (fun _ _ _ _ hs he => addEdge_simple he hs) (new_simple 7) hg
  have hfits : g.Fits .star [2, 4, 5, 6] := by
    have hnodup : [2, 4, 5, 6].Nodup := by decide
    refine ⟨by omega, hnodup, fun x hx => ?_, by simp⟩
    have hle : ∀ x ∈ [2, 4, 5, 6], x < 7 := by decide
    exact hnum ▸ hle x hx
  obtain ⟨hsome, hmem⟩ := generateTopology_spec g hsimple .star [2, 4, 5, 6] hfits
  have hidxs : g.indices [2, 4, 5, 6] = [2, 4, 5, 6] := rfl
  rw [hidxs] at hsome hmem
  obtain ⟨g', hg'⟩ := Option.isSome_iff_exists.mp
    (hsome.mpr fun i j h => hnew i j ((hadj i j).mp h))
  refine ⟨g, g', hg, hg', fun v => ?_⟩
  rw [(hmem g' hg').2 2 v]
  refine or_congr_right ⟨?_, fun hv => ?_⟩
  · rintro ⟨i, j, h, hi, rfl⟩
    revert hi
    have hcases := (hadj i j).mp h
    clear h
    revert i j
    decide
  · have hex : ∀ v ∈ [4, 5, 6], ∃ j : Fin 4, j ≠ 0 ∧ [2, 4, 5, 6].get j = v := by decide
    obtain ⟨j, hj, rfl⟩ := hex v hv
    exact ⟨0, j, (hadj 0 j).mpr (Or.inl ⟨rfl, hj⟩), rfl, rfl⟩

end Building

section Redundancy
variable {V : Type*} {G : SimpleGraph V}

theorem not_isEdgeConnected_of_leaf {a b : V} (hab : a ≠ b) (h : ∀ v, G.Adj a v → v = b) :
    ¬ G.IsEdgeConnected 2 := by
  intro htwo
  have hreach := SimpleGraph.isEdgeConnected_two.mp htwo s(a, b) b a
  refine SimpleGraph.not_reachable_of_neighborSet_right_eq_empty hab.symm ?_ hreach
  refine Set.eq_empty_iff_forall_notMem.mpr fun v hv => ?_
  obtain ⟨hadj, hkept⟩ := SimpleGraph.deleteEdges_adj.mp hv
  exact hkept (by simp [h v hadj])

theorem cycleGraph_isEdgeConnected {n : ℕ} (hn : 2 < n) :
    (SimpleGraph.cycleGraph n).IsEdgeConnected 2 := by
  obtain ⟨k, rfl⟩ : ∃ k, n = k + 3 := ⟨n - 3, by omega⟩
  have hall : ∀ v, v ∈ (SimpleGraph.cycleGraph.cycle k).support := by
    intro v
    have hvert := SimpleGraph.cycleGraph.getVert_cycle (n := k) (m := k + 3 - v) (by omega)
    have hv : v = (SimpleGraph.cycleGraph.cycle k).getVert (k + 3 - v) := by
      rw [hvert, Fin.ext_iff]
      have hback : k + 3 - (k + 3 - v.val) = v.val := by omega
      dsimp only
      rw [hback, Nat.mod_eq_of_lt v.isLt]
    rw [hv]
    exact SimpleGraph.Walk.getVert_mem_support _ _
  exact fun u v =>
    SimpleGraph.cycleGraph.isCycle_cycle.isTrail.isEdgeReachable_two (hall u) (hall v)

/-- A ring and a full mesh survive the loss of any one link; a line and a star do not. -/
theorem shape_isEdgeConnected_iff {t : Shape} {n : ℕ} (hn : 2 < n) :
    (t.graph n).IsEdgeConnected 2 ↔ t = .ring ∨ t = .fullMesh := by
  cases t with
  | line =>
    refine iff_of_false ?_ (by simp)
    refine not_isEdgeConnected_of_leaf (a := ⟨0, by omega⟩) (b := ⟨1, by omega⟩) (by simp) ?_
    intro v hv
    have hjoins := (graph_adj (by simp)).mp hv
    simp only [Shape.Joins] at hjoins
    exact Fin.ext (by dsimp only at *; omega)
  | ring => exact iff_of_true (cycleGraph_isEdgeConnected hn) (Or.inl rfl)
  | star =>
    refine iff_of_false ?_ (by simp)
    refine not_isEdgeConnected_of_leaf (a := ⟨1, by omega⟩) (b := ⟨0, by omega⟩) (by simp) ?_
    intro v hv
    have hjoins := (graph_adj (by simp)).mp hv
    simp only [Shape.Joins] at hjoins
    exact Fin.ext (by dsimp only at *; omega)
  | fullMesh =>
    refine iff_of_true (fun u v => ?_) (Or.inr rfl)
    exact (cycleGraph_isEdgeConnected hn u v).mono le_top

theorem shape_connected {t : Shape} {n : ℕ} (hn : 0 < n) : (t.graph n).Connected := by
  obtain ⟨k, rfl⟩ : ∃ k, n = k + 1 := ⟨n - 1, by omega⟩
  cases t with
  | line => exact SimpleGraph.pathGraph_connected k
  | ring => exact SimpleGraph.cycleGraph_connected
  | star =>
    have hstar : Shape.star.graph (k + 1) = SimpleGraph.starGraph 0 := by
      ext i j
      simp only [Shape.graph, SimpleGraph.fromRel_adj, SimpleGraph.starGraph_adj, Fin.ext_iff,
        Fin.val_zero]
    rw [hstar]
    exact SimpleGraph.connected_starGraph 0
  | fullMesh => exact SimpleGraph.connected_top

end Redundancy

section Default
variable {n : UInt16} {t : Shape} {m : List UInt16} {g : Graph}

theorem indices_new (n : UInt16) : (new n).indices [] = List.range n.toNat := rfl

theorem new_fits (hring : t = .ring → 2 < n.toNat) : (new n).Fits t [] where
  nodes := n.toNat_lt
  nodup := by
    rw [indices_new]
    exact List.nodup_range
  lt := by
    rw [indices_new]
    exact fun x hx => List.mem_range.mp hx
  ring := by
    rw [indices_new, List.length_range]
    exact hring

theorem default_mem (hring : t = .ring → 2 < n.toNat)
    (h : (new n).generateTopology t [] = some g) : g.numNodes = n.toNat ∧
      ∀ u v, v ∈ g.topology u ↔ t.Joins n.toNat u v ∨ t.Joins n.toNat v u := by
  obtain ⟨hnum, hmem⟩ := (new_fits hring).mem_iff h
  have hring' : t = .ring → 2 < (List.range n.toNat).length := by rwa [List.length_range]
  rw [indices_new] at hmem
  refine ⟨hnum, fun u v => ?_⟩
  rw [hmem u v]
  constructor
  · rintro (hold | ⟨i, j, hadj, rfl, rfl⟩)
    · simp [new] at hold
    · have hjoins := (graph_adj hring').mp hadj
      simpa using hjoins
  · intro hjoins
    have hlt : u < n.toNat ∧ v < n.toNat := hjoins.elim Shape.Joins.lt fun h => h.lt.symm
    refine Or.inr ⟨⟨u, by simp [hlt.1]⟩, ⟨v, by simp [hlt.2]⟩, (graph_adj hring').mpr ?_, by simp,
      by simp⟩
    simpa using hjoins

theorem toTopology_graph (hg : g.Simple) (hinj : ∀ u v, u < g.numNodes → v < g.numNodes →
      (g.nodes u).mixaddr = (g.nodes v).mixaddr → u = v)
    (hvalid : ∀ u, u < g.numNodes → (g.nodes u).mixaddr ≠ 0xFFFF)
    (hdeg : ∀ u, (g.topology u).length ≤ 255) :
    (g.toTopology hg hinj hvalid hdeg).graph = g.links hg := by
  ext u v
  constructor
  · rintro ⟨i, hi⟩
    rw [← hi]
    exact List.get_mem _ i
  · intro hv
    obtain ⟨i, hi⟩ := List.get_of_mem hv
    exact ⟨i, Fin.ext hi⟩

theorem build_cases (h : build n [.generateTopology t [], .setMixaddrs m] = some g) :
    ∃ g₁, (new n).generateTopology t [] = some g₁ ∧ g.topology = g₁.topology ∧
      m.length = g.numNodes ∧
      ∀ i, i < m.length → (g.nodes i).mixaddr = m.getD i (g₁.nodes i).mixaddr := by
  obtain ⟨g₁, hg₁, hset⟩ := Option.bind_eq_some_iff.mp h
  obtain ⟨g₂, hg₂, hlast⟩ := Option.bind_eq_some_iff.mp hset
  obtain rfl := Option.some.inj hlast
  dsimp only [call, setMixaddrs] at hg₂
  split_ifs at hg₂ with hlen
  obtain rfl := Option.some.inj hg₂
  exact ⟨g₁, hg₁, rfl, hlen, fun i _ => rfl⟩

theorem build_isSome (hring : t = .ring → 2 < n.toNat) (hm : m.length = n.toNat) :
    ∃ g, build n [.generateTopology t [], .setMixaddrs m] = some g := by
  have hfits := new_fits hring
  obtain ⟨g₁, hg₁⟩ := Option.isSome_iff_exists.mp
    ((hfits.isSome_iff (new_simple n)).mpr fun i j _ => by simp [new])
  have hnum : g₁.numNodes = n.toNat := (hfits.mem_iff hg₁).1
  refine ⟨{ g₁ with nodes := fun i =>
    { g₁.nodes i with mixaddr := m.getD i (g₁.nodes i).mixaddr } }, ?_⟩
  simp [build, Runs.run, call, hg₁, setMixaddrs, hm, hnum]

theorem built_links (hring : t = .ring → 2 < n.toNat)
    (h : build n [.generateTopology t [], .setMixaddrs m] = some g) :
    g.links (build_simple h) = t.graph g.numNodes := by
  obtain ⟨g₁, hg₁, htop, -⟩ := build_cases h
  obtain ⟨-, hmem⟩ := default_mem hring hg₁
  rw [← build_numNodes h] at hmem hring
  ext u v
  change (v : ℕ) ∈ g.topology u ↔ _
  rw [htop, hmem, graph_adj hring]

/-- With different valid addresses every shape over all of three or more nodes is built, and its
nodes are connected; they stay so whichever link fails exactly if the shape is a ring or a full
mesh. Where no node has more than 255 neighbors, this is the graph of the network. -/
theorem built_redundant (n : UInt16) (hn : 2 < n.toNat) (t : Shape) (m : List UInt16)
    (hm : m.length = n.toNat) (hnodup : m.Nodup) (hne : 0xFFFF ∉ m) :
    ∃ (g : Graph) (h : build n [.generateTopology t [], .setMixaddrs m] = some g)
      (hinj : ∀ u v, u < g.numNodes → v < g.numNodes →
        (g.nodes u).mixaddr = (g.nodes v).mixaddr → u = v)
      (hvalid : ∀ u, u < g.numNodes → (g.nodes u).mixaddr ≠ 0xFFFF),
      (g.links (build_simple h)).Connected ∧
      ((g.links (build_simple h)).IsEdgeConnected 2 ↔ t = .ring ∨ t = .fullMesh) ∧
      ∀ hdeg : ∀ u, (g.topology u).length ≤ 255,
        (g.toTopology (build_simple h) hinj hvalid hdeg).graph = g.links (build_simple h) := by
  have hring : t = .ring → 2 < n.toNat := fun _ => hn
  obtain ⟨g, h⟩ := build_isSome (t := t) hring hm
  obtain ⟨g₁, -, -, hlen, haddr⟩ := build_cases h
  have hget : ∀ u (hu : u < m.length), (g.nodes u).mixaddr = m[u] := by
    intro u hu
    simp [haddr u hu, hu]
  refine ⟨g, h, fun u v hu hv heq => ?_, fun u hu heq => ?_, ?_, ?_, toTopology_graph _ _ _⟩
  · rw [← hlen] at hu hv
    rw [hget u hu, hget v hv] at heq
    exact hnodup.getElem_inj_iff.mp heq
  · rw [← hlen] at hu
    rw [hget u hu] at heq
    exact hne (heq ▸ List.getElem_mem hu)
  · rw [built_links hring h, build_numNodes h]
    exact shape_connected (by omega)
  · rw [built_links hring h, build_numNodes h]
    exact shape_isEdgeConnected_iff hn

/-- A ring of five nodes. -/
theorem built_redundant_ring :
    ∃ (g : Graph) (h : build 5 [.generateTopology .ring [], .setMixaddrs [13, 14, 15, 4, 21]] =
        some g) (hinj : ∀ u v, u < g.numNodes → v < g.numNodes →
        (g.nodes u).mixaddr = (g.nodes v).mixaddr → u = v)
      (hvalid : ∀ u, u < g.numNodes → (g.nodes u).mixaddr ≠ 0xFFFF)
      (hdeg : ∀ u, (g.topology u).length ≤ 255),
      (g.links (build_simple h)).IsEdgeConnected 2 ∧
        (g.toTopology (build_simple h) hinj hvalid hdeg).graph.Connected := by
  obtain ⟨g, h, hinj, hvalid, hconn, htwo, hsame⟩ := built_redundant 5 (by decide) .ring
    [13, 14, 15, 4, 21] (by decide) (by decide) (by decide)
  have hdeg : ∀ u, (g.topology u).length ≤ 255 := by
    intro u
    have hle := (build_simple h).degree_le u
    rw [build_numNodes h] at hle
    exact hle.trans (by decide)
  refine ⟨g, h, hinj, hvalid, hdeg, htwo.mpr (Or.inl rfl), ?_⟩
  rw [hsame hdeg]
  exact hconn

end Default

end Graph
end Mixnet
