import Mathlib.Combinatorics.SimpleGraph.Acyclic
import Mathlib.Data.Prod.Lex

/-! Labellings of a graph that no neighbour can improve. Every vertex names a root, a length
and a next hop; stable labels are the least root, the distance to it and the least neighbour
one step closer, and the edges to the next hops are a spanning forest. -/
namespace Mixnet.StableTree
variable {V A : Type*} [LinearOrder A]

structure Labels (V A : Type*) where
  root : V → A
  len : V → ℕ
  next : V → A

def Labels.label (L : Labels V A) (v : V) : A ×ₗ ℕ ×ₗ A :=
  toLex (L.root v, toLex (L.len v, L.next v))

def Labels.offer (L : Labels V A) (addr : V → A) (u : V) : A ×ₗ ℕ ×ₗ A :=
  toLex (L.root u, toLex (L.len u + 1, addr u))

structure Labels.Top (L : Labels V A) (addr : V → A) (v : V) : Prop where
  root : L.root v = addr v
  len : L.len v = 0
  next : L.next v = addr v

structure Labels.Child (L : Labels V A) (addr : V → A) (v u : V) : Prop where
  root : L.root v = L.root u
  len : L.len v = L.len u + 1
  next : L.next v = addr u

structure Stable (G : SimpleGraph V) (addr : V → A) (L : Labels V A) : Prop where
  sound : ∀ v, L.Top addr v ∨ L.root v < addr v ∧ ∃ u, G.Adj v u ∧ L.Child addr v u
  best : ∀ v u, G.Adj v u → L.label v ≤ L.offer addr u

def Labels.tree (L : Labels V A) (addr : V → A) (G : SimpleGraph V) : SimpleGraph V where
  Adj u v := G.Adj u v ∧ (L.Child addr u v ∨ L.Child addr v u)
  symm := ⟨fun _ _ h => ⟨h.1.symm, h.2.symm⟩⟩
  loopless := ⟨fun _ h => h.1.ne rfl⟩

theorem Labels.label_le_offer {L : Labels V A} {addr : V → A} {v u : V} :
    L.label v ≤ L.offer addr u ↔ L.root v < L.root u ∨ L.root v = L.root u ∧
      (L.len v < L.len u + 1 ∨ L.len v = L.len u + 1 ∧ L.next v ≤ addr u) := by
  simp [Labels.label, Labels.offer, Prod.Lex.toLex_le_toLex]

variable {G : SimpleGraph V} {addr : V → A} {L : Labels V A}

theorem Stable.root_adj (h : Stable G addr L) {v u : V} (hadj : G.Adj v u) :
    L.root v = L.root u := by
  have hle : ∀ {x y : V}, G.Adj x y → L.root x ≤ L.root y := by
    intro x y hxy
    obtain hlt | heq := Labels.label_le_offer.mp (h.best x y hxy)
    · exact hlt.le
    · exact heq.1.le
  exact le_antisymm (hle hadj) (hle hadj.symm)

theorem Stable.root_walk (h : Stable G addr L) {v u : V} (p : G.Walk v u) :
    L.root v = L.root u := by
  induction p with
  | nil => rfl
  | cons hadj _ ih => exact (h.root_adj hadj).trans ih

theorem Stable.len_adj (h : Stable G addr L) {v u : V} (hadj : G.Adj v u) :
    L.len v ≤ L.len u + 1 := by
  have hroot := h.root_adj hadj
  obtain hlt | ⟨_, hlt | heq⟩ := Labels.label_le_offer.mp (h.best v u hadj)
  · exact absurd hroot hlt.ne
  · omega
  · exact heq.1.le

theorem Stable.len_le_walk (h : Stable G addr L) {v r : V} (p : G.Walk v r)
    (hr : L.len r = 0) : L.len v ≤ p.length := by
  induction p with
  | nil => rw [hr, SimpleGraph.Walk.length_nil]
  | cons hadj p ih =>
    have hv := h.len_adj hadj
    have hu := ih hr
    rw [SimpleGraph.Walk.length_cons]
    omega

theorem Stable.root_le_addr (h : Stable G addr L) (v : V) : L.root v ≤ addr v := by
  obtain htop | hchild := h.sound v
  · exact htop.root.le
  · exact hchild.1.le

/-- Following the next hops leads to a top along tree edges, in as many steps as `len`. -/
theorem Stable.climb (h : Stable G addr L) (n : ℕ) (v : V) (hn : L.len v = n) :
    ∃ r, L.Top addr r ∧ ∃ p : (L.tree addr G).Walk v r, p.length = n := by
  induction n generalizing v with
  | zero =>
    obtain htop | ⟨_, u, _, hchild⟩ := h.sound v
    · exact ⟨v, htop, .nil, rfl⟩
    · have hlen := hchild.len
      omega
  | succ n ih =>
    obtain htop | ⟨_, u, hadj, hchild⟩ := h.sound v
    · have hlen := htop.len
      omega
    · have hlen := hchild.len
      obtain ⟨r, hr, p, hp⟩ := ih u (by omega)
      have hedge : (L.tree addr G).Adj v u := ⟨hadj, Or.inl hchild⟩
      exact ⟨r, hr, .cons hedge p, by rw [SimpleGraph.Walk.length_cons, hp]⟩

omit [LinearOrder A] in
theorem tree_le : L.tree addr G ≤ G := fun _ _ h => h.1

theorem Stable.top (h : Stable G addr L) (v : V) :
    ∃ r, L.Top addr r ∧ (L.tree addr G).Reachable v r ∧ G.Reachable v r ∧
      L.root v = addr r ∧ L.len v = G.dist v r := by
  obtain ⟨r, hr, p, hp⟩ := h.climb (L.len v) v rfl
  have hreach : G.Reachable v r := p.reachable.mono tree_le
  have hroot : L.root v = addr r := (h.root_walk hreach.some).trans hr.root
  refine ⟨r, hr, p.reachable, hreach, hroot, le_antisymm ?_ ?_⟩
  · obtain ⟨q, hq⟩ := hreach.exists_walk_length_eq_dist
    rw [← hq]
    exact h.len_le_walk q hr.len
  · have hle := SimpleGraph.dist_le (p.mapLe tree_le)
    simpa [hp] using hle

theorem Stable.root_min (h : Stable G addr L) {v u : V} (hr : G.Reachable v u) :
    L.root v ≤ addr u := by
  rw [h.root_walk hr.some]
  exact h.root_le_addr u

theorem Stable.len_eq_dist (h : Stable G addr L) (hinj : Function.Injective addr) {v r : V}
    (hr : L.root v = addr r) : L.len v = G.dist v r := by
  obtain ⟨r', _, _, _, hroot, hlen⟩ := h.top v
  rw [hlen, hinj (hr.symm.trans hroot)]

theorem Stable.next_least (h : Stable G addr L) (hinj : Function.Injective addr) {v r : V}
    (hr : L.root v = addr r) (hne : v ≠ r) : ∃ u, G.Adj v u ∧ L.next v = addr u ∧
      G.dist u r + 1 = G.dist v r ∧
      ∀ w, G.Adj v w → G.dist w r + 1 = G.dist v r → addr u ≤ addr w := by
  obtain htop | ⟨_, u, hadj, hchild⟩ := h.sound v
  · exact absurd (hinj (htop.root.symm.trans hr)) hne
  · have hdist : ∀ w, G.Adj v w → L.len w = G.dist w r := fun w hw =>
      h.len_eq_dist hinj ((h.root_adj hw).symm.trans hr)
    have hv := h.len_eq_dist hinj hr
    have hlen := hchild.len
    refine ⟨u, hadj, hchild.next, ?_, fun w hw hclose => ?_⟩
    · rw [← hdist u hadj, ← hv, hlen]
    · rw [← hdist w hw, ← hv] at hclose
      rw [← hchild.next]
      obtain hlt | ⟨_, hlt | heq⟩ := Labels.label_le_offer.mp (h.best v w hw)
      · exact absurd (h.root_adj hw) hlt.ne
      · omega
      · exact heq.2

/-- Of two vertices with one root, their tops are one vertex; so the tree spans. -/
theorem Stable.tree_reachable (h : Stable G addr L) (hinj : Function.Injective addr) {v u : V}
    (hr : G.Reachable v u) : (L.tree addr G).Reachable v u := by
  obtain ⟨r, _, hvr, _, hroot, _⟩ := h.top v
  obtain ⟨r', _, hur, _, hroot', _⟩ := h.top u
  have hrr : r = r' := hinj (hroot.symm.trans ((h.root_walk hr.some).trans hroot'))
  rw [← hrr] at hur
  exact hvr.trans hur.symm

theorem acyclic_of_level (level : V → ℕ)
    (h : ∀ v u w, G.Adj v u → G.Adj v w → level u ≤ level v → level w ≤ level v → u = w) :
    G.IsAcyclic := by
  classical
  intro v c hc
  -- turn the cycle to its highest vertex: both its neighbours on the cycle are below
  obtain ⟨x, hx, hmax⟩ := c.support.toFinset.exists_max_image level
    ⟨v, List.mem_toFinset.mpr c.start_mem_support⟩
  rw [List.mem_toFinset] at hx
  have hrot := hc.rotate hx
  have hsupp : ∀ y ∈ (c.rotate x hx).support, level y ≤ level x := by
    intro y hy
    exact hmax y (List.mem_toFinset.mpr ((c.mem_support_rotate_iff x hx).mp hy))
  have hsnd := (c.rotate x hx).adj_snd hrot.not_nil
  have hpen := (c.rotate x hx).adj_penultimate hrot.not_nil
  have hle := hsupp _ (SimpleGraph.Walk.getVert_mem_support _ 1)
  have hle' := hsupp _ (SimpleGraph.Walk.getVert_mem_support _ ((c.rotate x hx).length - 1))
  exact hrot.snd_ne_penultimate (h x _ _ hsnd hpen.symm hle hle')

omit [LinearOrder A] in
theorem tree_acyclic (hinj : Function.Injective addr) : (L.tree addr G).IsAcyclic := by
  have hchild : ∀ v u, (L.tree addr G).Adj v u → L.len u ≤ L.len v → L.next v = addr u := by
    intro v u hadj hle
    cases hadj.2 with
    | inl hc => exact hc.next
    | inr hc =>
      have hlen := hc.len
      omega
  refine acyclic_of_level L.len fun v u w hu hw hlu hlw => hinj ?_
  rw [← hchild v u hu hlu, ← hchild v w hw hlw]

end Mixnet.StableTree
