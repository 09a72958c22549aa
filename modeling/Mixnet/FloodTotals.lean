import Mathlib.Algebra.BigOperators.Group.Finset.Basic
import Mathlib.Algebra.BigOperators.Intervals
import Mathlib.Data.Set.Card
import Mixnet.FloodOnce

/-! How many FLOODs the users are given, which is what the testcases count: of every FLOOD of a
settled network, one for each node that live links join to the node where it began. -/
namespace Mixnet
variable {V : Type*} {T : Topology V}

section Later

/-- No FLOOD with a number below `k` is in flight, and all that the users have been given beyond
`log` have numbers from `k` on. -/
structure Later (k : ℕ) (log : V → List ℕ) (s : Net T) : Prop where
  begun : k ≤ s.origins.length
  chan : ∀ u v, ∀ f ∈ s.chan u v, f.packet.type = .flood → k ≤ f.flood
  log : ∀ v, ∃ more, s.userLog v = log v ++ more ∧ ∀ φ ∈ more, k ≤ φ

variable [DecidableEq V] {k : ℕ} {log : V → List ℕ} {s s' : Net T}

theorem Later.commit (h : Later k log s) {v : V} {flood : ℕ} {o : Outcome (T.deg v)}
    (hf : k ≤ flood ∨ (∀ q ∈ o.sends, q.2.type ≠ .flood) ∧ o.toUser = 0) :
    Later k log (s.commit v flood o) where
  begun := h.begun
  chan := by
    intro x y f hmem ht
    obtain hold | ⟨_, hnew⟩ := mem_commit_chan hmem
    · exact h.chan x y f hold ht
    · obtain ⟨hflood, q, hq, hpacket⟩ := mem_wire hnew
      obtain hle | ⟨hno, _⟩ := hf
      · rw [hflood]
        exact hle
      · rw [← hpacket] at ht
        exact absurd ht (hno q hq)
  log := by
    intro w
    obtain ⟨more, hlog, hmore⟩ := h.log w
    by_cases hw : w = v
    · subst hw
      refine ⟨more ++ List.replicate o.toUser flood, ?_, fun φ hφ => ?_⟩
      · simp [Net.commit, hlog]
      · obtain hold | hnew := List.mem_append.mp hφ
        · exact hmore φ hold
        · obtain ⟨hne, rfl⟩ := List.mem_replicate.mp hnew
          obtain hle | ⟨_, hzero⟩ := hf
          · exact hle
          · exact absurd hzero hne
    · refine ⟨more, ?_, hmore⟩
      simp [Net.commit, hw, hlog]

theorem Later.take (h : Later k log s) {v : V} {i : Fin (T.deg v)} {f : Flight}
    {rest : List Flight} (hchan : s.chan (T.peer v i) v = f :: rest) :
    Later k log (s.take v i f rest) :=
  ⟨h.begun, fun x y g hg => h.chan x y g (mem_take_chan hchan hg), h.log⟩

theorem Later.step {e : Event T} (h : Later k log s) (hs : s.step e = some s') :
    Later k log s' := by
  cases step_case hs with
  | stp v i f rest o hchan ht hc =>
    exact (h.take hchan).commit (Or.inr (sendStp_no_flood hc.isStp))
  | flood v i f rest hchan ht =>
    have hle : k ≤ f.flood := h.chan (T.peer v i) v f (by simp [hchan]) ht
    exact (h.take hchan).commit (Or.inl hle)
  | other v i f rest hchan _ _ =>
    exact (h.take hchan).commit (Or.inr ⟨by simp, rfl⟩)
  | inject v payload =>
    have hbegan : Later k log (s.began v) := by
      refine ⟨?_, h.chan, h.log⟩
      have hbegun := h.begun
      simp only [Net.began, List.length_append, List.length_singleton]
      omega
    exact hbegan.commit (Or.inl h.begun)
  | hello v hroot => exact h.commit (Or.inr (sendStp_no_flood (Or.inl rfl)))
  | reelect v hroot => exact h.commit (Or.inr (sendStp_no_flood (Or.inl rfl)))
  | fail u v =>
    refine ⟨h.begun, fun x y f hf ht => ?_, h.log⟩
    simp only [Net.cut] at hf
    split_ifs at hf
    · simp at hf
    · exact h.chan x y f hf ht

theorem later_reach {ok : Net T → Event T → Prop} {t : Net T} (h : Net.Reach ok s t)
    (hnone : ∀ φ u v, s.copies φ u v = 0) : Later s.origins.length s.userLog t := by
  refine Runs.Reach.invariant h ⟨le_rfl, fun u v f hf ht => ?_, fun v => ⟨[], ?_, ?_⟩⟩
    fun _ _ _ ht _ hstep => ht.step hstep
  · have hcopy : 0 < s.copies f.flood u v := List.countP_pos_iff.mpr ⟨f, hf, by simp [ht]⟩
    exact absurd (hnone f.flood u v) hcopy.ne'
  · rw [List.append_nil]
  · simp

end Later

section Counting
variable {α : Type*}

theorem countP_drop (p : α → Bool) (k : ℕ) (l : List α) :
    (l.drop k).countP p = ∑ i ∈ Finset.Ico k l.length, if (l[i]?).any p then 1 else 0 := by
  induction l using List.reverseRecOn with
  | nil => simp
  | append_singleton l a ih =>
    rw [List.length_append, List.length_singleton]
    by_cases hk : k ≤ l.length
    · have hold : ∑ i ∈ Finset.Ico k l.length, (if ((l ++ [a])[i]?).any p then 1 else 0) =
          ∑ i ∈ Finset.Ico k l.length, if (l[i]?).any p then 1 else 0 := by
        refine Finset.sum_congr rfl fun i hi => ?_
        rw [List.getElem?_append_left (Finset.mem_Ico.mp hi).2]
      rw [List.drop_append_of_le_length hk, List.countP_append, ih,
        Finset.sum_Ico_succ_top hk, hold]
      simp
    · have hempty : Finset.Ico k (l.length + 1) = ∅ := Finset.Ico_eq_empty (by omega)
      have hdrop : (l ++ [a]).drop k = [] := List.drop_eq_nil_iff.mpr (by simp; omega)
      rw [hempty, hdrop]
      rfl

theorem length_eq_sum_count {l : List ℕ} {k n : ℕ} (h : ∀ φ ∈ l, k ≤ φ ∧ φ < n) :
    l.length = ∑ φ ∈ Finset.Ico k n, l.count φ := by
  have hcard := Multiset.sum_count_eq_card (s := Finset.Ico k n) (m := (l : Multiset ℕ))
    fun φ hφ => Finset.mem_Ico.mpr (h φ (Multiset.mem_coe.mp hφ))
  simpa using hcard.symm

end Counting

section Totals
variable [DecidableEq V] [Fintype V] {s t : Net T}

omit [Fintype V] in
theorem seen_eq {φ : ℕ} {a : V} (ha : t.origins[φ]? = some a) (v : V) :
    (t.flood φ).seen v = (t.userLog v).count φ + if v = a then 1 else 0 := by
  simp [Net.flood, ha, eq_comm]

theorem seen_of_calm (hreach : Net.Reach (fun _ _ => True) (Net.init T) s)
    (hsettled : s.IsSettled) (hrun : Net.Reach (fun _ e => e.Calm) s t) {φ : ℕ}
    (hdone : ∀ u v, t.copies φ u v = 0) (hφ : s.origins.length ≤ φ) {a : V}
    (ha : t.origins[φ]? = some a) (v : V) :
    (s.control.liveGraph.Reachable a v → (t.flood φ).seen v = 1) ∧
      (¬ s.control.liveGraph.Reachable a v → (t.flood φ).seen v = 0) := by
  have hport : PortInv s.control :=
    portInv_reach (A := fun _ _ => True) hreach (control_init T ▸ PortInv.init)
  have hstable := hsettled.stable hport
  have hquiet := hsettled.control_quiet hport
  have hset : Settled s.control := settled_of_stable hport hstable hquiet
  have hphase := Runs.Reach.guard hrun fun u hu =>
    fence_of_calm hset (flags_of_quiet hset hquiet) hu
  have hacyclic : s.control.treeGraph.IsAcyclic := StableTree.tree_acyclic (rank_injective T)
  have hinv := flood_reach hacyclic (fresh_reach hreach Fresh.init) hphase φ a hφ ha
  constructor
  · intro hr
    exact hinv.tree.seen_eq_one hacyclic trivial (fun x y _ => hdone x y)
      (hstable.tree_reachable (rank_injective T) hr)
  · intro hr
    exact (hinv.tree.far v fun h => hr (h.mono StableTree.tree_le)).1

def Net.Hears (s : Net T) (v a : V) : Prop := a ≠ v ∧ s.control.liveGraph.Reachable a v

open Classical in
theorem count_of_calm (hreach : Net.Reach (fun _ _ => True) (Net.init T) s)
    (hsettled : s.IsSettled) (hrun : Net.Reach (fun _ e => e.Calm) s t) {φ : ℕ}
    (hdone : ∀ u v, t.copies φ u v = 0) (hφ : s.origins.length ≤ φ)
    (hlt : φ < t.origins.length) (v : V) :
    (t.userLog v).count φ = if (t.origins[φ]?).any (fun a => s.Hears v a) then 1 else 0 := by
  have ha : t.origins[φ]? = some t.origins[φ] := List.getElem?_eq_getElem hlt
  generalize t.origins[φ] = a at ha
  obtain ⟨hnear, hfar⟩ := seen_of_calm hreach hsettled hrun hdone hφ ha v
  rw [seen_eq ha] at hnear hfar
  by_cases hva : v = a
  · subst hva
    have hone := hnear (.refl v)
    rw [if_pos rfl] at hone
    simp only [ha, Net.Hears, Option.any_some, ne_eq, not_true_eq_false, false_and, decide_false,
      Bool.false_eq_true, if_false]
    omega
  · rw [if_neg hva, Nat.add_zero] at hnear hfar
    rw [ha, Option.any_some]
    by_cases hr : s.control.liveGraph.Reachable a v
    · simp [Net.Hears, Ne.symm hva, hr, hnear hr]
    · simp [Net.Hears, hr, hfar hr]

open Classical in
theorem given_of_calm (hreach : Net.Reach (fun _ _ => True) (Net.init T) s)
    (hsettled : s.IsSettled) (hrun : Net.Reach (fun _ e => e.Calm) s t)
    (hnone : ∀ φ u v, s.copies φ u v = 0) (hdone : ∀ φ u v, t.copies φ u v = 0) (v : V) :
    ∃ given, t.userLog v = s.userLog v ++ given ∧
      (∀ φ ∈ given, s.origins.length ≤ φ ∧ φ < t.origins.length) ∧
      ∀ φ, s.origins.length ≤ φ → φ < t.origins.length →
        given.count φ = if (t.origins[φ]?).any (fun a => s.Hears v a) then 1 else 0 := by
  obtain ⟨given, hlog, hlate⟩ := (later_reach hrun hnone).log v
  have hfresh : Fresh s := fresh_reach hreach Fresh.init
  have hfresh' : Fresh t := fresh_reach hrun hfresh
  refine ⟨given, hlog, fun φ hφ => ⟨hlate φ hφ, hfresh'.log v φ ?_⟩, fun φ hle hlt => ?_⟩
  · rw [hlog]
    exact List.mem_append_right _ hφ
  · have hold : (s.userLog v).count φ = 0 :=
      List.count_eq_zero.mpr fun hmem => absurd (hfresh.log v φ hmem) (not_lt.mpr hle)
    have hcount := count_of_calm hreach hsettled hrun (hdone φ) hle hlt v
    rw [hlog, List.count_append, hold, Nat.zero_add] at hcount
    exact hcount

/-- The user of `v` is given exactly the FLOODs that begin elsewhere and that live links let
through, each once. -/
theorem given_once (hreach : Net.Reach (fun _ _ => True) (Net.init T) s)
    (hsettled : s.IsSettled) (hrun : Net.Reach (fun _ e => e.Calm) s t)
    (hnone : ∀ φ u v, s.copies φ u v = 0) (hdone : ∀ φ u v, t.copies φ u v = 0) (v : V) :
    ∃ given, t.userLog v = s.userLog v ++ given ∧ given.Nodup ∧ ∀ φ, φ ∈ given ↔
      s.origins.length ≤ φ ∧ ∃ a, t.origins[φ]? = some a ∧ s.Hears v a := by
  classical
  obtain ⟨given, hlog, hbound, hcount⟩ := given_of_calm hreach hsettled hrun hnone hdone v
  refine ⟨given, hlog, List.nodup_iff_count_le_one.mpr fun φ => ?_, fun φ => ⟨fun hφ => ?_, ?_⟩⟩
  · by_cases hφ : φ ∈ given
    · obtain ⟨hle, hlt⟩ := hbound φ hφ
      rw [hcount φ hle hlt]
      split_ifs
      · exact le_rfl
      · exact Nat.zero_le 1
    · rw [List.count_eq_zero.mpr hφ]
      exact Nat.zero_le 1
  · obtain ⟨hle, hlt⟩ := hbound φ hφ
    have hpos := List.count_pos_iff.mpr hφ
    rw [hcount φ hle hlt] at hpos
    split_ifs at hpos with hany
    · obtain ⟨a, ha, hears⟩ := (Option.any_eq_true _ _).mp hany
      exact ⟨hle, a, ha, of_decide_eq_true hears⟩
    · omega
  · rintro ⟨hle, a, ha, hears⟩
    have hlt := (List.getElem?_eq_some_iff.mp ha).1
    refine List.count_pos_iff.mp ?_
    rw [hcount φ hle hlt, ha]
    simp [hears]

open Classical in
theorem userLog_length (hreach : Net.Reach (fun _ _ => True) (Net.init T) s)
    (hsettled : s.IsSettled) (hrun : Net.Reach (fun _ e => e.Calm) s t)
    (hnone : ∀ φ u v, s.copies φ u v = 0) (hdone : ∀ φ u v, t.copies φ u v = 0) (v : V) :
    (t.userLog v).length = (s.userLog v).length +
      (t.origins.drop s.origins.length).countP fun a => s.Hears v a := by
  obtain ⟨given, hlog, hbound, hcount⟩ := given_of_calm hreach hsettled hrun hnone hdone v
  rw [hlog, List.length_append, length_eq_sum_count hbound, countP_drop]
  congr 1
  refine Finset.sum_congr rfl fun φ hφ => ?_
  obtain ⟨hle, hlt⟩ := Finset.mem_Ico.mp hφ
  exact hcount φ hle hlt

omit [DecidableEq V] in
open Classical in
theorem sum_countP {α : Type*} (P : V → α → Prop) (l : List α) :
    ∑ v, l.countP (fun a => P v a) = (l.map fun a => {v | P v a}.ncard).sum := by
  induction l with
  | nil => simp
  | cons a l ih =>
    have hhead : ∑ v, (if P v a then 1 else 0) = {v | P v a}.ncard := by
      rw [Finset.sum_boole, Set.ncard_eq_toFinset_card']
      simp
    simp only [List.countP_cons, decide_eq_true_eq, List.map_cons, List.sum_cons]
    rw [Finset.sum_add_distrib, ih, hhead, Nat.add_comm]

omit [DecidableEq V] [Fintype V] in
theorem hears_iff (hconn : s.control.liveGraph.Connected) (v a : V) : s.Hears v a ↔ a ≠ v :=
  ⟨fun h => h.1, fun h => ⟨h, hconn a v⟩⟩

omit [DecidableEq V] in
theorem hears_ncard (hconn : s.control.liveGraph.Connected) (a : V) :
    {v | s.Hears v a}.ncard = Fintype.card V - 1 := by
  have hall : {v | s.Hears v a} = {a}ᶜ := by
    ext v
    rw [Set.mem_ofPred_eq, hears_iff hconn, Set.mem_compl_singleton_iff, ne_comm]
  rw [hall, Set.ncard_compl, Set.ncard_singleton, Nat.card_eq_fintype_card]

theorem sum_userLog (hreach : Net.Reach (fun _ _ => True) (Net.init T) s)
    (hsettled : s.IsSettled) (hrun : Net.Reach (fun _ e => e.Calm) s t)
    (hnone : ∀ φ u v, s.copies φ u v = 0) (hdone : ∀ φ u v, t.copies φ u v = 0) :
    ∑ v, (t.userLog v).length = ∑ v, (s.userLog v).length +
      ((t.origins.drop s.origins.length).map fun a => {v | s.Hears v a}.ncard).sum := by
  classical
  rw [← sum_countP fun v a => s.Hears v a, ← Finset.sum_add_distrib]
  exact Finset.sum_congr rfl fun v _ => userLog_length hreach hsettled hrun hnone hdone v

theorem sum_userLog_connected (hreach : Net.Reach (fun _ _ => True) (Net.init T) s)
    (hsettled : s.IsSettled) (hrun : Net.Reach (fun _ e => e.Calm) s t)
    (hnone : ∀ φ u v, s.copies φ u v = 0) (hdone : ∀ φ u v, t.copies φ u v = 0)
    (hconn : s.control.liveGraph.Connected) :
    ∑ v, (t.userLog v).length = ∑ v, (s.userLog v).length +
      (t.origins.length - s.origins.length) * (Fintype.card V - 1) := by
  rw [sum_userLog hreach hsettled hrun hnone hdone,
    List.map_congr_left fun a _ => hears_ncard hconn a]
  simp

/-- From a settled state with no FLOOD in flight, whatever deliveries, hellos and injections follow:
once no FLOOD is in flight again, every user has been given the FLOODs that were injected at the
other nodes which live links join to it, each once, and nothing else; so many are given in all; and
in a connected network one for each injection and other node. -/
theorem flood_totals (T : Topology V) (s t : Net T)
    (hreach : Net.Reach (fun _ _ => True) (Net.init T) s) (hsettled : s.IsSettled)
    (hrun : Net.Reach (fun _ e => e.Calm) s t) (hnone : ∀ φ u v, s.copies φ u v = 0)
    (hdone : ∀ φ u v, t.copies φ u v = 0) :
    (∀ v, ∃ given, t.userLog v = s.userLog v ++ given ∧ given.Nodup ∧ ∀ φ, φ ∈ given ↔
        s.origins.length ≤ φ ∧ ∃ a, t.origins[φ]? = some a ∧ s.Hears v a) ∧
      (∑ v, (t.userLog v).length = ∑ v, (s.userLog v).length +
        ((t.origins.drop s.origins.length).map fun a => {v | s.Hears v a}.ncard).sum) ∧
      (s.control.liveGraph.Connected → ∑ v, (t.userLog v).length = ∑ v, (s.userLog v).length +
        (t.origins.length - s.origins.length) * (Fintype.card V - 1)) :=
  ⟨given_once hreach hsettled hrun hnone hdone, sum_userLog hreach hsettled hrun hnone hdone,
    sum_userLog_connected hreach hsettled hrun hnone hdone⟩

/-- Node 3 floods the settled triangle: its neighbours are given the FLOOD, node 3 is not. -/
theorem flood_totals_triangle : ∃ s t : Net triangle,
    Runs.run Net.step triangleSettles (Net.init triangle) = some s ∧
    Runs.run Net.step [.inject 2 ⟨0, 0, 0⟩, .deliver 0 1, .deliver 1 1] s = some t ∧
    (∀ v, s.userLog v = []) ∧ (t.userLog 0).Nodup ∧ 0 ∈ t.userLog 0 ∧ 0 ∉ t.userLog 2 ∧
    ∑ v, (t.userLog v).length = ∑ v, (s.userLog v).length + 2 := by
  have hrun : ((Runs.run Net.step triangleSettles (Net.init triangle)).any fun s =>
      (Runs.run Net.step [.inject 2 ⟨0, 0, 0⟩, .deliver 0 1, .deliver 1 1] s).any fun t =>
        decide ((∀ v, (s.node v).rootAddr ≠ (s.node v).myAddr → ∃ u, triangle.graph.Adj v u ∧
            s.live v u = true ∧ (s.node v).nextHop = triangle.addr u ∧
            (s.node u).rootAddr = (s.node v).rootAddr ∧
            (s.node u).pathLen + 1 = (s.node v).pathLen) ∧
          (∀ v u, ¬ (toLex ((s.node u).rootAddr.toNat,
            toLex ((s.node u).pathLen + 1, (triangle.addr u).toNat)) : Route) <
              (s.node v).route) ∧
          (∀ v i, 2 ≤ s.processed v i) ∧ (∀ u v, s.chan u v = []) ∧ (∀ u v, t.chan u v = []) ∧
          s.origins = [] ∧ t.origins = [2] ∧ (∀ v, s.userLog v = []) ∧
          ∀ u v, s.live u v = true)) = true := by
    decide +kernel
  obtain ⟨s, hs, hs'⟩ := (Option.any_eq_true _ _).mp hrun
  obtain ⟨t, ht, hall⟩ := (Option.any_eq_true _ _).mp hs'
  obtain ⟨hparent, hbest, htwice, hchan, hchan', hnew, hbegun, hlog, hlive⟩ :=
    of_decide_eq_true hall
  have hsettled : s.IsSettled :=
    ⟨fun u v _ => by simp [Net.stps, hchan], fun v i _ => htwice v i, hparent,
      fun v u _ _ => hbest v u⟩
  have hfrom : Net.Reach (fun _ _ => True) (Net.init triangle) s :=
    Runs.reach_of_run (by simp) hs
  have hphase : Net.Reach (fun _ e => e.Calm) s t := Runs.reach_of_run (by simp [Event.Calm]) ht
  have hconn : s.control.liveGraph.Connected := by
    have hadj : ∀ u v : Fin 3, u ≠ v → s.control.liveGraph.Adj u v := fun u v huv =>
      ⟨by revert u v; decide, hlive u v, hlive v u⟩
    refine ⟨fun u v => ?_⟩
    by_cases huv : u = v
    · rw [huv]
    · exact (hadj u v huv).reachable
  obtain ⟨hgiven, -, htotal⟩ := flood_totals triangle s t hfrom hsettled hphase
    (fun φ u v => by simp [Net.copies, hchan]) fun φ u v => by simp [Net.copies, hchan']
  have hsum := htotal hconn
  rw [hbegun, hnew] at hsum
  have hears : s.Hears 0 2 := ⟨by decide, hconn 2 0⟩
  have hdeaf : ¬ s.Hears 2 2 := fun h => h.1 rfl
  obtain ⟨near, hnear, honce, hmem⟩ := hgiven 0
  obtain ⟨far, hfar, -, hmem'⟩ := hgiven 2
  rw [hlog, List.nil_append] at hnear hfar
  refine ⟨s, t, hs, ht, hlog, ?_, ?_, ?_, hsum⟩
  · rw [hnear]
    exact honce
  · rw [hnear, hmem, hnew, hbegun]
    exact ⟨le_rfl, 2, rfl, hears⟩
  · rw [hfar, hmem', hbegun]
    rintro ⟨-, a, ha, hown⟩
    obtain rfl : 2 = a := Option.some.inj ha
    exact hdeaf hown

end Totals

end Mixnet
