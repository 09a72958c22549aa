import Mixnet.Convergence
import Mixnet.FloodTotals

/-! Delivery of FLOODs in fair runs. Once the forest stands, a copy on an edge of the tree is taken
in the end, and its receiver then has the FLOOD; so the FLOOD goes down the tree, level by level. -/
namespace Mixnet
variable {V : Type*} {T : Topology V} [DecidableEq V]

section Logs
variable {s s' : Net T} {e : Event T}

theorem commit_log_grows (s : Net T) (w : V) (flood : ℕ) (o : Outcome (T.deg w)) (v : V) :
    s.userLog v <+: (s.commit w flood o).userLog v := by
  by_cases hv : v = w
  · subst hv
    exact ⟨List.replicate o.toUser flood, by simp [Net.commit]⟩
  · exact ⟨[], by simp [Net.commit, hv]⟩

theorem userLog_step (hs : s.step e = some s') (v : V) : s.userLog v <+: s'.userLog v := by
  cases step_case hs with
  | stp w i f rest o hchan ht hc => exact commit_log_grows (s.take w i f rest) w f.flood o v
  | flood w i f rest hchan ht => exact commit_log_grows (s.take w i f rest) w f.flood _ v
  | other w i f rest hchan _ _ => exact commit_log_grows (s.take w i f rest) w f.flood _ v
  | inject w payload => exact commit_log_grows (s.began w) w s.origins.length _ v
  | hello w hroot => exact commit_log_grows s w 0 _ v
  | reelect w hroot => exact commit_log_grows s w 0 _ v
  | fail a b => exact List.prefix_rfl

theorem origins_grow (hs : s.step e = some s') : s.origins <+: s'.origins := by
  obtain hsame | ⟨v, -, -, happend⟩ := origins_step hs
  · rw [hsame]
  · exact ⟨[v], happend.symm⟩

end Logs

variable {s : Net T} {x : Runs.Execution Net.step s}

section Histories

theorem userLog_later {m n : ℕ} (hmn : m ≤ n) (v : V) :
    (x.state m).userLog v <+: (x.state n).userLog v := by
  induction n, hmn using Nat.le_induction with
  | base => exact List.prefix_rfl
  | succ n _ ih => exact ih.trans (userLog_step (x.steps n) v)

theorem origins_later {m n : ℕ} (hmn : m ≤ n) : (x.state m).origins <+: (x.state n).origins := by
  induction n, hmn using Nat.le_induction with
  | base => exact List.prefix_rfl
  | succ n _ ih => exact ih.trans (origins_grow (x.steps n))

theorem origin_later {m n φ : ℕ} {a : V} (hmn : m ≤ n) (ha : (x.state m).origins[φ]? = some a) :
    (x.state n).origins[φ]? = some a := by
  obtain ⟨more, hmore⟩ := origins_later (x := x) hmn
  rw [← hmore, List.getElem?_append_left (List.getElem?_eq_some_iff.mp ha).1]
  exact ha

theorem seen_later {m n φ : ℕ} {a : V} (hmn : m ≤ n) (ha : (x.state m).origins[φ]? = some a)
    (v : V) : ((x.state m).flood φ).seen v ≤ ((x.state n).flood φ).seen v := by
  have hcount := (userLog_later (x := x) hmn v).sublist.count_le φ
  rw [seen_eq ha, seen_eq (origin_later hmn ha)]
  omega

end Histories

section Delivery
variable {F : SimpleGraph V} {B : V → V → Prop} {φ N : ℕ} {a : V}

theorem Fair.copy_taken (h : Fair x) {n : ℕ} {v : V} {i : Fin (T.deg v)}
    (hcopy : 0 < (x.state n).copies φ (T.peer v i) v) : ∃ m, n ≤ m ∧
      (x.state (m + 1)).copies φ (T.peer v i) v + 1 = (x.state m).copies φ (T.peer v i) v := by
  obtain ⟨f, hf, hφ⟩ := List.countP_pos_iff.mp hcopy
  obtain ⟨m, hnm, -, hq⟩ := (h.fifo v i).served hf
  refine ⟨m, hnm, ?_⟩
  simp only [Net.copies]
  rw [hq, List.countP_cons, if_pos hφ]

/-- One level of the tree: when the upper end has the FLOOD for good, the lower end gets it. -/
theorem Fair.level (h : Fair x) (hinv : ∀ n, N ≤ n → FloodInv F B True φ a (x.state n))
    {u v : V} (hup : TreeFlood.Up F a u v) {M : ℕ} (hM : N ≤ M)
    (hseen : ∀ n, M ≤ n → ((x.state n).flood φ).seen u = 1) :
    ∃ m, M ≤ m ∧ ((x.state m).flood φ).seen v = 1 := by
  have hsum : ∀ n, M ≤ n → ((x.state n).flood φ).seen v + (x.state n).copies φ u v = 1 := by
    intro n hn
    rw [← hseen n hn]
    exact (hinv n (hM.trans hn)).tree.up_all trivial u v hup
  by_cases hcopy : 0 < (x.state M).copies φ u v
  · obtain ⟨hadj, -, -⟩ := (hinv M hM).guard u v hcopy
    obtain ⟨i, rfl⟩ := hadj.symm
    obtain ⟨m, hm, htaken⟩ := h.copy_taken hcopy
    have hbefore := hsum m hm
    have hafter := hsum (m + 1) (by omega)
    exact ⟨m + 1, by omega, by omega⟩
  · have hnow := hsum M le_rfl
    exact ⟨M, le_rfl, by omega⟩

theorem Fair.reaches (h : Fair x) (hF : F.IsAcyclic)
    (hinv : ∀ n, N ≤ n → FloodInv F B True φ a (x.state n)) (k : ℕ) :
    ∀ v, F.Reachable a v → F.dist a v = k →
      ∃ M, N ≤ M ∧ ∀ n, M ≤ n → ((x.state n).flood φ).seen v = 1 := by
  induction k with
  | zero =>
    intro v hr hdist
    obtain rfl := hr.dist_eq_zero_iff.mp hdist
    exact ⟨N, le_rfl, fun n hn => (hinv n hn).tree.origin⟩
  | succ k ih =>
    intro v hr hdist
    have hva : v ≠ a := by
      rintro rfl
      rw [SimpleGraph.dist_self] at hdist
      omega
    obtain ⟨u, hup⟩ := TreeFlood.exists_up hF hr hva
    have hlen := hup.dist
    obtain ⟨M, hM, hseen⟩ := ih u hup.reach (by omega)
    obtain ⟨m, hm, hone⟩ := h.level hinv hup hM hseen
    refine ⟨m, hM.trans hm, fun n hn => ?_⟩
    have hle := (hinv n (by omega)).tree.seen_le_one hF v
    have hge := seen_later hn (hinv m (by omega)).origin v
    omega

end Delivery

theorem Fair.flood_inv (h : Fair x) (hreach : Net.Reach (fun _ _ => True) (Net.init T) s)
    {N n φ : ℕ} {a : V} (hN : Settled (x.state N).control) (hflags : Flags (x.state N).control)
    (hn : N ≤ n) (hφ : (x.state N).origins.length ≤ φ) (ha : (x.state n).origins[φ]? = some a) :
    FloodInv (x.state N).control.treeGraph (x.state N).control.Shut True φ a (x.state n) := by
  have hfresh : Fresh (x.state N) := fresh_reach (h.reach_start N) (fresh_reach hreach Fresh.init)
  have hphase := Runs.Reach.guard (h.reach hn) fun u hu => fence_of_calm hN hflags hu
  exact flood_reach (StableTree.tree_acyclic (rank_injective T)) hfresh hphase φ a hφ ha

/-- In a fair run there is a time from which on every FLOOD that a user injects is given, in the
end, to the user of every other node that live links reach; and never twice to anybody, nor to its
sender, nor to a node that live links do not reach. -/
theorem fair_run_floods [Fintype V] (T : Topology V) (s : Net T)
    (hreach : Net.Reach (fun _ _ => True) (Net.init T) s) (hroutes : LiveRoutes s.control)
    (x : Runs.Execution Net.step s) (hfair : Fair x) :
    ∃ N, ∀ φ a m, (x.state N).origins.length ≤ φ → (x.state m).origins[φ]? = some a →
      (∀ n v, ((x.state n).userLog v).count φ ≤ 1 ∧
        (¬ s.Hears v a → ((x.state n).userLog v).count φ = 0)) ∧
      ∃ M, ∀ n, M ≤ n → ∀ v, s.Hears v a → ((x.state n).userLog v).count φ = 1 := by
  have hrec := hfair.recovering hreach hroutes
  obtain ⟨N, hN, hflags⟩ := hfair.flagged hrec
  refine ⟨N, fun φ a m hφ ha => ?_⟩
  have hacyclic : (x.state N).control.treeGraph.IsAcyclic :=
    StableTree.tree_acyclic (rank_injective T)
  have hinv : ∀ n, max N m ≤ n → FloodInv (x.state N).control.treeGraph
      (x.state N).control.Shut True φ a (x.state n) := fun n hn =>
    hfair.flood_inv hreach hN hflags (le_of_max_le_left hn) hφ
      (origin_later (le_of_max_le_right hn) ha)
  constructor
  · -- what is given up to a time is given up to any later time
    intro n v
    have hlog := (userLog_later (x := x) (le_max_left n (max N m)) v).sublist.count_le φ
    have hlate := hinv _ (le_max_right n (max N m))
    have hone := hlate.tree.seen_le_one hacyclic v
    rw [seen_eq hlate.origin] at hone
    refine ⟨by omega, fun hno => ?_⟩
    by_cases hva : v = a
    · rw [if_pos hva] at hone
      omega
    · have hfar := (hlate.tree.far v fun hr => hno ⟨Ne.symm hva, ?_⟩).1
      · rw [seen_eq hlate.origin] at hfar
        omega
      · rw [← (hrec N).liveGraph]
        exact hr.mono StableTree.tree_le
  · have hall : ∀ v, ∃ M, ∀ n, M ≤ n → s.Hears v a → ((x.state n).userLog v).count φ = 1 := by
      intro v
      by_cases hears : s.Hears v a
      · have hr : (x.state N).control.treeGraph.Reachable a v := by
          refine hN.stable.tree_reachable (rank_injective T) ?_
          rw [(hrec N).liveGraph]
          exact hears.2
        obtain ⟨M, hM, hseen⟩ := hfair.reaches hacyclic hinv _ v hr rfl
        refine ⟨M, fun n hn _ => ?_⟩
        have hone := hseen n hn
        rw [seen_eq (hinv n (hM.trans hn)).origin, if_neg hears.1.symm] at hone
        exact hone
      · exact ⟨0, fun n _ h => absurd h hears⟩
    obtain ⟨M, hM⟩ := Runs.eventually_all hall
    exact ⟨M, hM⟩

/-- In some fair run that goes on after the triangle has lost a link, the user of node 1 goes on
injecting; node 2 is given one of these FLOODs, once. -/
theorem fair_run_floods_triangle : ∃ s : Net triangle,
    Runs.run Net.step triangleFallsBack (Net.init triangle) = some s ∧
    (s.node 1).rootAddr = 2 ∧ s.live 0 1 = false ∧
    ∃ x : Runs.Execution Net.step s, Fair x ∧
      ∃ φ M, ∀ n, M ≤ n → ((x.state n).userLog 1).count φ = 1 := by
  obtain ⟨s, hs, hroutes, htwo, hcut, h02, h20, h12, h21⟩ := triangle_fallen_back
  have hreach : Net.Reach (fun _ _ => True) (Net.init triangle) s := Runs.reach_of_run (by simp) hs
  obtain ⟨x, hfair, hinject⟩ := fair_exists hreach hroutes
  obtain ⟨N, hN⟩ := fair_run_floods triangle s hreach hroutes x hfair
  obtain ⟨m, hm, payload, hevent⟩ := hinject 0 N
  have hstep := x.steps m
  rw [hevent] at hstep
  have hbegun : (x.state (m + 1)).origins = (x.state m).origins ++ [0] := by
    simp only [Net.step, Option.map_eq_some_iff] at hstep
    obtain ⟨o, -, ho⟩ := hstep
    rw [← ho]
    rfl
  have hlen := (origins_later (x := x) hm).length_le
  obtain ⟨-, M, hM⟩ := hN (x.state m).origins.length 0 (m + 1) hlen (by simp [hbegun])
  refine ⟨s, hs, htwo, hcut, x, hfair, _, M, fun n hn => hM n hn 1 ⟨by decide, ?_⟩⟩
  exact (triangle_reachable h02 h20 h12 h21 1).symm

end Mixnet
