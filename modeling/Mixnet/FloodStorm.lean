import Mixnet.FloodOnce

/-! Before the network has settled. The first STP packet on a port opens it, so early on a
cycle of open ports is possible and a FLOOD can reach a user twice. It cannot as long as a
fixed set of ports stays blocked that cuts every cycle. -/
namespace Mixnet
variable {V : Type*} {T : Topology V}

def Topology.uncut (T : Topology V) (B : V → V → Prop) : SimpleGraph V where
  Adj u v := T.graph.Adj u v ∧ ¬ B u v ∧ ¬ B v u
  symm := ⟨fun _ _ h => ⟨h.1.symm, h.2.2, h.2.1⟩⟩
  loopless := ⟨fun _ h => h.1.ne rfl⟩

def Net.Holds (B : V → V → Prop) (s : Net T) : Prop :=
  ∀ v j, B v (T.peer v j) → (s.node v).neighborsBlocked j = true

instance (B : V → V → Prop) [∀ v u, Decidable (B v u)] [Fintype V] (s : Net T) :
    Decidable (s.Holds B) :=
  inferInstanceAs (Decidable (∀ v j, B v (T.peer v j) → (s.node v).neighborsBlocked j = true))

theorem fence_of_holds {B : V → V → Prop} {s : Net T} (h : s.Holds B) :
    Fence (T.uncut B) B False s where
  blocked := h
  cover := by
    intro u v hadj _
    by_cases hu : B u v
    · exact Or.inr (Or.inl hu)
    · by_cases hv : B v u
      · exact Or.inr (Or.inr hv)
      · exact Or.inl ⟨hadj, hu, hv⟩
  opened := fun hc => absurd hc id

variable [DecidableEq V]

/-- A FLOOD for which a set of ports that cuts every cycle is blocked when it is injected and as
long as copies of it are in flight reaches the user of a node at most once, and never the user of
the injecting node. -/
theorem no_storm_while_cut (T : Topology V) (B : V → V → Prop) (hcut : (T.uncut B).IsAcyclic)
    (s t : Net T) (φ : ℕ) (hreach : Net.Reach (fun _ e => e.Calm) (Net.init T) s)
    (hrun : Net.Reach (fun u e => e.Calm ∧ (e.Begins u φ ∨ u.Carries φ → u.Holds B)) s t)
    (hφ : s.origins.length ≤ φ) (a : V) (ha : t.origins[φ]? = some a) (v : V) :
    (t.userLog v).count φ ≤ 1 ∧ (v = a → (t.userLog v).count φ = 0) := by
  have hfresh : Fresh s := fresh_reach hreach Fresh.init
  have hinv : FloodInv (T.uncut B) B False φ a t :=
    flood_reach_while hcut hfresh (hrun.mono fun _ _ hok =>
      ⟨hok.1, fun htravels => fence_of_holds (hok.2 htravels)⟩) hφ ha
  have hseen : (t.flood φ).seen v = (t.userLog v).count φ + if v = a then 1 else 0 := by
    simp [Net.flood, ha, eq_comm]
  refine ⟨?_, fun hv => ?_⟩
  · have hle := hinv.tree.seen_le_one hcut v
    omega
  · have hone := hinv.tree.origin
    rw [← hv, hseen, if_pos hv] at hone
    omega

theorem farSide_cut : (triangle.uncut farSide).IsAcyclic := by
  have hdec : ∀ v u, (triangle.uncut farSide).Adj v u → v = 0 ∨ u = 0 := by
    intro v u hadj
    by_contra hne
    exact hadj.2.1 ⟨fun hv => hne (Or.inl hv), fun hu => hne (Or.inr hu)⟩
  refine StableTree.acyclic_of_level (fun v => if v = 0 then 0 else 1) ?_
  intro v u w hu hw hlu hlw
  by_cases hv : v = 0
  · have hu0 : u ≠ 0 := fun h => hu.ne (hv.trans h.symm)
    simp [hv, hu0] at hlu
  · obtain hv' | hu0 := hdec v u hu
    · exact absurd hv' hv
    · obtain hv' | hw0 := hdec v w hw
      · exact absurd hv' hv
      · exact hu0.trans hw0.symm

/-- The triangle from its start: the far side is open for a while, but blocked again before node 3
floods. -/
theorem no_storm_while_cut_triangle : ∃ t : Net triangle,
    Runs.run (fun u e => if e.Calm ∧ (e.Begins u 0 ∨ u.Carries 0 → u.Holds farSide) then
        u.step e else none)
      (triangleSettles ++ [.inject 2 ⟨0, 0, 0⟩, .deliver 0 1, .deliver 1 1])
      (Net.init triangle) = some t ∧
    (t.userLog 1).count 0 ≤ 1 ∧ (t.userLog 2).count 0 = 0 := by
  have hrun : ((Runs.run (fun u e => if e.Calm ∧ (e.Begins u 0 ∨ u.Carries 0 → u.Holds farSide) then
      u.step e else none) (triangleSettles ++ [.inject 2 ⟨0, 0, 0⟩, .deliver 0 1, .deliver 1 1])
      (Net.init triangle)).any fun t => decide (t.origins[0]? = some 2)) = true := by
    decide +kernel
  obtain ⟨t, ht, hall⟩ := (Option.any_eq_true _ _).mp hrun
  have ha := of_decide_eq_true hall
  have hphase : Net.Reach (fun u e => e.Calm ∧ (e.Begins u 0 ∨ u.Carries 0 → u.Holds farSide))
      (Net.init triangle) t := Runs.reach_of_checked ht
  have honce := no_storm_while_cut triangle farSide farSide_cut (Net.init triangle) t 0 .refl
    hphase (Nat.zero_le 0) 2 ha
  exact ⟨t, ht, (honce 1).1, (honce 2).2 rfl⟩

/-- After first contact on every port of the triangle all ports are open: a FLOOD of node 1
reaches the user of node 2 directly and through node 3. -/
theorem storm_in_triangle : ∃ s t : Net triangle,
    Net.Reach (fun _ e => e.Calm) (Net.init triangle) s ∧ s.origins = [] ∧
    Net.Reach (fun _ e => e.Calm) s t ∧ t.origins = [0] ∧ t.userLog 1 = [0, 0] := by
  have hrun : ((Runs.run Net.step [.deliver 0 0, .deliver 0 1, .deliver 1 0, .deliver 1 1,
      .deliver 2 0, .deliver 2 1] (Net.init triangle)).any fun s =>
      (Runs.run Net.step [.inject 0 ⟨0, 0, 0⟩, .deliver 1 1, .deliver 2 0, .deliver 1 0] s).any
        fun t => decide (s.origins = [] ∧ t.origins = [0] ∧ t.userLog 1 = [0, 0])) = true := by
    decide +kernel
  obtain ⟨s, hs, hs'⟩ := (Option.any_eq_true _ _).mp hrun
  obtain ⟨t, ht, hall⟩ := (Option.any_eq_true _ _).mp hs'
  obtain ⟨hnone, ha, htwice⟩ := of_decide_eq_true hall
  refine ⟨s, t, Runs.reach_of_run ?_ hs, hnone, Runs.reach_of_run ?_ ht, ha, htwice⟩
  · simp [Event.Calm]
  · simp [Event.Calm]

end Mixnet
