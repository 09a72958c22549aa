import Mixnet.FloodTotals
import Mixnet.GraphShapes
import Mixnet.Recovery

/-! Failures that the topology has a way around: the network settles on what is left, and floods
reach everybody again. -/
namespace Mixnet
variable {V : Type*} [DecidableEq V] {T : Topology V}

def Event.Within (F : Set (Sym2 V)) (e : Event T) : Prop := ∀ u v, e = .fail u v → s(u, v) ∈ F

section Live
variable {F : Set (Sym2 V)} {s s' : Net T}

omit [DecidableEq V] in
theorem Event.Calm.within {e : Event T} (h : e.Calm) : e.Within F := by
  rintro u v rfl
  exact h.elim

theorem live_step {e : Event T} (hs : s.step e = some s') (hok : e.Within F)
    (h : ∀ u v, s(u, v) ∉ F → s.live u v = true) : ∀ u v, s(u, v) ∉ F → s'.live u v = true := by
  cases step_case hs with
  | fail a b =>
    intro u v huv
    have hab : s(a, b) ∈ F := hok a b rfl
    rw [Net.cut]
    dsimp only
    rw [if_neg ?_]
    · exact h u v huv
    · rintro (⟨rfl, rfl⟩ | ⟨rfl, rfl⟩)
      · exact huv hab
      · exact huv (Sym2.eq_swap ▸ hab)
  | _ => exact h

theorem live_reach (h : Net.Reach (fun _ e => e.Within F) (Net.init T) s) (u v : V)
    (huv : s(u, v) ∉ F) : s.live u v = true :=
  Runs.Reach.invariant (P := fun t : Net T => ∀ u v, s(u, v) ∉ F → t.live u v = true) h
    (fun _ _ _ => rfl) (fun _ _ _ ht hok hs => live_step hs hok ht) u v huv

theorem deleteEdges_le_liveGraph (h : Net.Reach (fun _ e => e.Within F) (Net.init T) s) :
    T.graph.deleteEdges F ≤ s.control.liveGraph := by
  intro u v huv
  obtain ⟨hadj, hnot⟩ := SimpleGraph.deleteEdges_adj.mp huv
  exact ⟨hadj, live_reach h u v hnot, live_reach h v u (Sym2.eq_swap ▸ hnot)⟩

end Live

/-- In a network that is connected without the links of `F`, let links of `F` fail at any time: once
every route, held or in flight, is backed by a path of live links, one advertisement of the lowest
node and quiet links make it the root of everybody, at its distance over the live links; and then
every FLOOD is given once to each other user. -/
theorem failures_survived [Fintype V] (T : Topology V) (F : Set (Sym2 V))
    (hconn : (T.graph.deleteEdges F).Connected) (r : V) (hmin : ∀ v, T.addr r ≤ T.addr v)
    (s t w : Net T) (hreach : Net.Reach (fun _ e => e.Within F) (Net.init T) s)
    (hroutes : LiveRoutes s.control) (hrun : Net.Reach (fun _ e => e.Calm) s t)
    (hquiet : ∀ u v, t.stps u v = []) (hhello : ∀ j, s.sentStp r j < t.sentStp r j)
    (hphase : Net.Reach (fun _ e => e.Calm) t w) (hnone : ∀ φ u v, t.copies φ u v = 0)
    (hdone : ∀ φ u v, w.copies φ u v = 0) :
    (∀ v, (t.node v).rootAddr = T.addr r ∧
      (t.node v).pathLen = t.control.liveGraph.dist v r) ∧
    (∀ v, ∃ given, w.userLog v = t.userLog v ++ given ∧ given.Nodup ∧ ∀ φ, φ ∈ given ↔
      t.origins.length ≤ φ ∧ ∃ a, w.origins[φ]? = some a ∧ a ≠ v) ∧
    ∑ v, (w.userLog v).length = ∑ v, (t.userLog v).length +
      (w.origins.length - t.origins.length) * (Fintype.card V - 1) := by
  have hreach' : Net.Reach (fun _ e => e.Within F) (Net.init T) t :=
    hreach.trans (hrun.mono fun _ _ hcalm => hcalm.within)
  have hlive : t.control.liveGraph.Connected := hconn.mono (deleteEdges_le_liveGraph hreach')
  obtain ⟨hport, hstable, hq⟩ := recovering_settles (hreach.mono fun _ _ _ => trivial) hroutes hrun
    hquiet fun r' _ _ hleast j => by
      obtain rfl : r' = r :=
        T.addr_injective (UInt16.le_antisymm (hleast r (hlive r' r)) (hmin r'))
      exact hhello j
  have hsettled : t.IsSettled := isSettled_of_stable hport hstable hq
  have hfrom : Net.Reach (fun _ _ => True) (Net.init T) t := hreach'.mono fun _ _ _ => trivial
  refine ⟨fun v => label_of_stable hstable (hlive v r) fun w _ => hmin w, fun v => ?_,
    sum_userLog_connected hfrom hsettled hphase hnone hdone hlive⟩
  obtain ⟨given, hlog, honce, hmem⟩ := given_once hfrom hsettled hphase hnone hdone v
  simp only [hears_iff hlive] at hmem
  exact ⟨given, hlog, honce, hmem⟩

/-- The link between nodes 1 and 2 of the triangle fails; node 3 passes a FLOOD of node 1 on. -/
theorem failures_survived_triangle : ∃ s t w : Net triangle,
    Runs.run Net.step triangleFallsBack (Net.init triangle) = some s ∧
    Runs.run Net.step [.hello 0, .deliver 2 1, .deliver 2 0, .deliver 1 0, .deliver 0 1,
      .deliver 2 1] s = some t ∧
    Runs.run Net.step [.inject 0 ⟨0, 0, 0⟩, .deliver 2 0, .deliver 1 0] t = some w ∧
    (t.node 1).rootAddr = 1 ∧ (∃ given, w.userLog 1 = t.userLog 1 ++ given ∧ given.Nodup ∧
      t.origins.length ∈ given) ∧
    ∑ v, (w.userLog v).length = ∑ v, (t.userLog v).length + 2 := by
  obtain ⟨s, hs, hroutes, -⟩ := triangle_fallen_back
  have hrun : ((Runs.run Net.step triangleFallsBack (Net.init triangle)).any fun s =>
      (Runs.run Net.step [.hello 0, .deliver 2 1, .deliver 2 0, .deliver 1 0, .deliver 0 1,
        .deliver 2 1] s).any fun t =>
        (Runs.run Net.step [.inject 0 ⟨0, 0, 0⟩, .deliver 2 0, .deliver 1 0] t).any fun w =>
        decide ((∀ u v, t.chan u v = []) ∧ (∀ u v, w.chan u v = []) ∧
          (∀ j, s.sentStp 0 j < t.sentStp 0 j) ∧
          w.origins = t.origins ++ [0])) = true := by
    decide +kernel
  obtain ⟨s', hs', hthen⟩ := (Option.any_eq_true _ _).mp hrun
  obtain rfl : s = s' := Option.some.inj (hs.symm.trans hs')
  obtain ⟨t, ht, ht'⟩ := (Option.any_eq_true _ _).mp hthen
  obtain ⟨w, hw, hall⟩ := (Option.any_eq_true _ _).mp ht'
  obtain ⟨hchan, hchan', hsent, hbegun⟩ := of_decide_eq_true hall
  have hfrom : Net.Reach (fun _ e => e.Within {s(0, 1)}) (Net.init triangle) s :=
    Runs.reach_of_run (by simp [triangleFallsBack, triangleSettles, Event.Within]) hs
  have hcalm : Net.Reach (fun _ e => e.Calm) s t := Runs.reach_of_run (by simp [Event.Calm]) ht
  have hphase : Net.Reach (fun _ e => e.Calm) t w := Runs.reach_of_run (by simp [Event.Calm]) hw
  have hkept : ∀ v : Fin 3, (triangle.graph.deleteEdges {s(0, 1)}).Reachable v 2 := by
    intro v
    by_cases hv : v = 2
    · rw [hv]
    · refine SimpleGraph.Adj.reachable (SimpleGraph.deleteEdges_adj.mpr ?_)
      revert v
      decide
  have hconn : (triangle.graph.deleteEdges {s(0, 1)}).Connected :=
    ⟨fun u v => (hkept u).trans (hkept v).symm⟩
  obtain ⟨hroot, hgiven, htotal⟩ := failures_survived triangle {s(0, 1)} hconn 0 (by decide) s t w
    hfrom hroutes hcalm (fun u v => by simp [Net.stps, hchan]) hsent hphase
    (fun φ u v => by simp [Net.copies, hchan]) fun φ u v => by simp [Net.copies, hchan']
  obtain ⟨given, hlog, honce, hmem⟩ := hgiven 1
  have hnew : t.origins.length ∈ given :=
    (hmem _).mpr ⟨le_rfl, 0, by simp [hbegun], by decide⟩
  rw [hbegun, List.length_append, Nat.add_sub_cancel_left] at htotal
  exact ⟨s, t, w, hs, ht, hw, (hroot 1).1, ⟨given, hlog, honce, hnew⟩, htotal⟩

end Mixnet
