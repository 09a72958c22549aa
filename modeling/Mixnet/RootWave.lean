import Mathlib.Data.Set.Finite.Lemmas
import Mixnet.StableTree

/-! A wave that starts at the least vertex of every component. A vertex that it reaches holds a
label no worse than what it was offered, and one that holds just what it was offered passes the
wave on. Whatever the labels were before, as long as each was backed by a path to the root that it
names, they are stable once the wave is over. -/
namespace Mixnet.StableTree
variable {V A : Type*} [LinearOrder A]

/-- `sent` are the vertices that the wave has passed. -/
structure Wave (G : SimpleGraph V) (addr : V → A) (L : Labels V A) (sent : V → Prop) : Prop where
  backed : ∀ v, ∃ w, G.Reachable v w ∧ L.root v = addr w ∧ G.dist v w ≤ L.len v
  parent : ∀ v, L.Top addr v ∨ L.root v < addr v ∧ ∃ u, G.Adj v u ∧ L.next v = addr u ∧
    (L.root u < L.root v ∨ L.root u = L.root v ∧ L.len u + 1 ≤ L.len v)
  heard : ∀ v u, G.Adj v u → sent u → L.label v ≤ L.offer addr u
  answered : ∀ v u, G.Adj v u → sent u → L.label v = L.offer addr u → sent v
  begun : ∀ r u, G.Adj r u → (∀ v, G.Reachable r v → addr r ≤ addr v) → sent r

variable {G : SimpleGraph V} {addr : V → A} {L : Labels V A} {sent : V → Prop} {r v : V}

omit [LinearOrder A] in
theorem dist_adj_le {u : V} (hadj : G.Adj v u) (h : G.Reachable u r) :
    G.dist v r ≤ G.dist u r + 1 := by
  obtain ⟨p, hp⟩ := h.exists_walk_length_eq_dist
  rw [← hp]
  exact SimpleGraph.dist_le (.cons hadj p)

omit [LinearOrder A] in
theorem exists_adj_dist (h : G.Reachable v r) {n : ℕ} (hn : G.dist v r = n + 1) :
    ∃ u, G.Adj v u ∧ G.Reachable u r ∧ G.dist u r = n := by
  obtain ⟨p, hp⟩ := h.exists_walk_length_eq_dist
  cases p with
  | nil =>
    rw [SimpleGraph.dist_self] at hn
    omega
  | @cons _ u _ hadj p =>
    have hle := SimpleGraph.dist_le p
    have hge := dist_adj_le hadj p.reachable
    rw [SimpleGraph.Walk.length_cons] at hp
    exact ⟨u, hadj, p.reachable, by omega⟩

theorem Wave.root_ge (h : Wave G addr L sent)
    (hleast : ∀ v, G.Reachable r v → addr r ≤ addr v) (hr : G.Reachable v r) :
    addr r ≤ L.root v := by
  obtain ⟨w, hw, hroot, -⟩ := h.backed v
  rw [hroot]
  exact hleast w (hr.symm.trans hw)

theorem Wave.dist_le (h : Wave G addr L sent) (hinj : Function.Injective addr)
    (hroot : L.root v = addr r) : G.dist v r ≤ L.len v := by
  obtain ⟨w, -, hw, hlen⟩ := h.backed v
  obtain rfl : w = r := hinj (hw.symm.trans hroot)
  exact hlen

/-- The wave reaches the vertices in the order of their distances from the least one. -/
theorem Wave.reaches (h : Wave G addr L sent) (hinj : Function.Injective addr)
    (hleast : ∀ v, G.Reachable r v → addr r ≤ addr v) {w : V} (hw : G.Adj r w) (n : ℕ) :
    ∀ v, G.Reachable v r → G.dist v r = n → sent v ∧ L.root v = addr r ∧ L.len v = n := by
  induction n using Nat.strong_induction_on with
  | _ n ih =>
    intro v hreach hdist
    cases n with
    | zero =>
      obtain rfl : v = r := hreach.dist_eq_zero_iff.mp hdist
      have hroot := h.root_ge hleast hreach
      obtain htop | ⟨hlt, -⟩ := h.parent v
      · exact ⟨h.begun v w hw hleast, htop.root, htop.len⟩
      · exact absurd hlt (not_lt.mpr hroot)
    | succ n =>
      obtain ⟨u, hadj, hu, hdu⟩ := exists_adj_dist hreach hdist
      obtain ⟨hsent, hroot, hlen⟩ := ih n n.lt_succ_self u hu hdu
      have hbest := Labels.label_le_offer.mp (h.heard v u hadj hsent)
      rw [hroot, hlen] at hbest
      have hge := h.root_ge hleast hreach
      have hsame : L.root v = addr r := by
        obtain hlt | ⟨heq, -⟩ := hbest
        · exact absurd hlt (not_lt.mpr hge)
        · exact heq
      have hfar := h.dist_le hinj hsame
      have hv : L.len v = n + 1 := by
        obtain hlt | ⟨-, hlt | ⟨heq, -⟩⟩ := hbest
        · exact absurd hlt (not_lt.mpr hge)
        · omega
        · exact heq
      refine ⟨?_, hsame, hv⟩
      -- the next hop is at distance `n` too, and the label of `v` is what it offers
      obtain htop | ⟨-, x, hx, hnext, hpar⟩ := h.parent v
      · have hzero := htop.len
        omega
      · have hxr : G.Reachable x r := hx.symm.reachable.trans hreach
        have hxge := h.root_ge hleast hxr
        obtain hlt | ⟨hxroot, hxlen⟩ := hpar
        · rw [hsame] at hlt
          exact absurd hlt (not_lt.mpr hxge)
        · rw [hsame] at hxroot
          have hxfar := h.dist_le hinj hxroot
          have hclose := dist_adj_le hx hxr
          have hxn : G.dist x r = n := by omega
          obtain ⟨hxsent, -, hxl⟩ := ih n n.lt_succ_self x hxr hxn
          refine h.answered v x hx hxsent ?_
          rw [Labels.label, Labels.offer, hsame, hxroot, hv, hxl, hnext]

theorem Wave.sent_of_adj (h : Wave G addr L sent) (hinj : Function.Injective addr) [Finite V]
    {u : V} (hadj : G.Adj v u) : sent v := by
  obtain ⟨r, hr, hmin⟩ := Set.exists_min_image {x | G.Reachable v x} addr (Set.toFinite _)
    ⟨v, SimpleGraph.Reachable.refl v⟩
  have hleast : ∀ x, G.Reachable r x → addr r ≤ addr x := fun x hx => hmin x (hr.trans hx)
  have hw : ∃ w, G.Adj r w := by
    obtain ⟨p⟩ := hr.symm
    cases p with
    | nil => exact ⟨u, hadj⟩
    | cons hstep _ => exact ⟨_, hstep⟩
  obtain ⟨w, hw⟩ := hw
  exact (h.reaches hinj hleast hw _ v hr rfl).1

theorem Wave.stable (h : Wave G addr L sent) (hinj : Function.Injective addr) [Finite V] :
    Stable G addr L := by
  have hbest : ∀ v u, G.Adj v u → L.label v ≤ L.offer addr u := fun v u hadj =>
    h.heard v u hadj (h.sent_of_adj hinj hadj.symm)
  refine ⟨fun v => ?_, hbest⟩
  obtain htop | ⟨hlt, u, hadj, hnext, hpar⟩ := h.parent v
  · exact Or.inl htop
  · right
    have hle := Labels.label_le_offer.mp (hbest v u hadj)
    have hchild : L.root v = L.root u ∧ L.len v = L.len u + 1 := by
      obtain hdown | ⟨heq, hlen⟩ := hpar
      · obtain hup | ⟨heq, -⟩ := hle
        · exact absurd hup (not_lt.mpr hdown.le)
        · exact absurd heq hdown.ne'
      · obtain hup | ⟨-, hshort | ⟨hsame, -⟩⟩ := hle
        · exact absurd heq hup.ne'
        · omega
        · exact ⟨heq.symm, hsame⟩
    exact ⟨hlt, u, hadj, hchild.1, hchild.2, hnext⟩

end Mixnet.StableTree
