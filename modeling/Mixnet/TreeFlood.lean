import Mathlib.Combinatorics.SimpleGraph.Acyclic

/-! Flooding over an acyclic graph. A vertex that takes a copy in hands it on, never back to
where it came from. Away from the origin every vertex takes in at most one copy, and exactly
one if every edge lets every copy through and all copies have arrived. -/
namespace Mixnet.TreeFlood
variable {V : Type*}

/-- `seen v` counts the copies `v` has taken in, `flying u v` those on the way. -/
@[ext] structure Flood (V : Type*) where
  seen : V → ℕ
  flying : V → V → ℕ

structure Drop (F : SimpleGraph V) (complete : Prop) (s s' : Flood V) (u v : V) : Prop where
  lost : complete → ¬ F.Adj u v
  seen : s'.seen = s.seen
  taken : s'.flying u v + 1 = s.flying u v
  frame : ∀ x y, ¬ (x = u ∧ y = v) → s'.flying x y = s.flying x y

structure Pass (F : SimpleGraph V) (complete : Prop) (s s' : Flood V) (u v : V) : Prop where
  adj : F.Adj u v
  seen_self : s'.seen v = s.seen v + 1
  seen_ne : ∀ w, w ≠ v → s'.seen w = s.seen w
  taken : s'.flying u v + 1 = s.flying u v
  back : s'.flying v u = s.flying v u
  out_le : ∀ w, s'.flying v w ≤ s.flying v w + 1
  out_all : complete → ∀ w, F.Adj v w → w ≠ u → s'.flying v w = s.flying v w + 1
  frame : ∀ x y, x ≠ v → ¬ (x = u ∧ y = v) → s'.flying x y = s.flying x y

/-- `u` is the neighbour of `v` on the way to the origin `a`. -/
structure Up (F : SimpleGraph V) (a u v : V) : Prop where
  adj : F.Adj u v
  reach : F.Reachable a u
  dist : F.dist a v = F.dist a u + 1

structure Inv (F : SimpleGraph V) (complete : Prop) (a : V) (s : Flood V) : Prop where
  origin : s.seen a = 1
  up : ∀ u v, Up F a u v → s.seen v + s.flying u v ≤ s.seen u
  up_all : complete → ∀ u v, Up F a u v → s.seen v + s.flying u v = s.seen u
  down : ∀ u v, Up F a u v → s.flying v u = 0
  far : ∀ v, ¬ F.Reachable a v → s.seen v = 0 ∧ ∀ w, F.Adj v w → s.flying v w = 0

variable {F : SimpleGraph V} {complete : Prop} {a : V} {s s' : Flood V}

theorem Up.ne_origin {u v : V} (h : Up F a u v) : v ≠ a := by
  intro hv
  have hd := h.dist
  rw [hv, SimpleGraph.dist_self] at hd
  omega

theorem Up.asymm {u v : V} (h : Up F a u v) (h' : Up F a v u) : False := by
  have hd := h.dist
  have hd' := h'.dist
  omega

theorem up_or_up (hF : F.IsAcyclic) {u v : V} (hadj : F.Adj u v) (hr : F.Reachable a u) :
    Up F a u v ∨ Up F a v u := by
  have hrv := hr.trans hadj.reachable
  obtain hd | hd := hF.dist_eq_dist_add_one_of_adj_of_reachable a hadj hr
  · exact Or.inr ⟨hadj.symm, hrv, hd⟩
  · exact Or.inl ⟨hadj, hr, hd⟩

theorem Up.unique (hF : F.IsAcyclic) {u u' v : V} (h : Up F a u v) (h' : Up F a u' v) :
    u = u' := by
  obtain ⟨p, hp⟩ := h.reach.exists_walk_length_eq_dist
  obtain ⟨q, hq⟩ := h'.reach.exists_walk_length_eq_dist
  have hpath : (p.concat h.adj).IsPath := by
    apply SimpleGraph.Walk.isPath_of_length_eq_dist
    rw [SimpleGraph.Walk.length_concat, hp, h.dist]
  have hpath' : (q.concat h'.adj).IsPath := by
    apply SimpleGraph.Walk.isPath_of_length_eq_dist
    rw [SimpleGraph.Walk.length_concat, hq, h'.dist]
  have heq := congrArg Subtype.val
    ((hF.subsingleton_path a v).elim ⟨_, hpath⟩ ⟨_, hpath'⟩)
  have hpen := congrArg SimpleGraph.Walk.penultimate heq
  simpa using hpen

theorem exists_up (hF : F.IsAcyclic) {v : V} (hr : F.Reachable a v) (hv : v ≠ a) :
    ∃ u, Up F a u v := by
  obtain ⟨p, hp⟩ := hr.exists_walk_length_eq_dist
  have hnil : ¬ p.Nil := SimpleGraph.Walk.not_nil_of_ne hv.symm
  have hadj := p.adj_penultimate hnil
  have hreach : F.Reachable a p.penultimate := hr.trans hadj.symm.reachable
  obtain hup | hup := up_or_up hF hadj hreach
  · exact ⟨_, hup⟩
  · have hlen : F.dist a p.penultimate ≤ p.dropLast.length := SimpleGraph.dist_le p.dropLast
    have hdist := hup.dist
    rw [SimpleGraph.Walk.length_dropLast, hp] at hlen
    omega

theorem Inv.drop (h : Inv F complete a s) {u v : V} (hd : Drop F complete s s' u v) :
    Inv F complete a s' := by
  have hle : ∀ x y, s'.flying x y ≤ s.flying x y := by
    intro x y
    by_cases hxy : x = u ∧ y = v
    · have ht := hd.taken
      rw [hxy.1, hxy.2]
      omega
    · exact (hd.frame x y hxy).le
  refine ⟨?_, ?_, ?_, ?_, ?_⟩
  · rw [hd.seen]
    exact h.origin
  · intro x y hup
    have hold := h.up x y hup
    have hxy := hle x y
    rw [hd.seen]
    omega
  · intro hc x y hup
    have hne : ¬ (x = u ∧ y = v) := by
      intro hxy
      apply hd.lost hc
      rw [← hxy.1, ← hxy.2]
      exact hup.adj
    rw [hd.seen, hd.frame x y hne]
    exact h.up_all hc x y hup
  · intro x y hup
    have hold := h.down x y hup
    have hxy := hle y x
    omega
  · intro w hw
    obtain ⟨hseen, hfly⟩ := h.far w hw
    refine ⟨by rw [hd.seen, hseen], fun z hz => ?_⟩
    have hold := hfly z hz
    have hxy := hle w z
    omega

theorem Inv.pass_up (h : Inv F complete a s) (hF : F.IsAcyclic) {u v : V}
    (hp : Pass F complete s s' u v) : Up F a u v := by
  have htaken := hp.taken
  have hreach : F.Reachable a u := by
    by_contra hno
    have hzero := (h.far u hno).2 v hp.adj
    omega
  obtain hup | hup := up_or_up hF hp.adj hreach
  · exact hup
  · have hzero := h.down v u hup
    omega

theorem Inv.pass (h : Inv F complete a s) (hF : F.IsAcyclic) {u v : V}
    (hp : Pass F complete s s' u v) : Inv F complete a s' := by
  have huv := h.pass_up hF hp
  have hne : u ≠ v := hp.adj.ne
  have htaken := hp.taken
  have hback := hp.back
  -- what happens on an edge that leads down
  have hedge : ∀ x y, Up F a x y → (x = u ∧ y = v) ∨ (x = v ∧ y ≠ u ∧ y ≠ v) ∨
      (x ≠ v ∧ y ≠ v ∧ ¬ (x = u ∧ y = v)) := by
    intro x y hup
    by_cases hy : y = v
    · subst hy
      exact Or.inl ⟨hup.unique hF huv, rfl⟩
    · by_cases hx : x = v
      · refine Or.inr (Or.inl ⟨hx, fun hyu => ?_, hy⟩)
        rw [hx, hyu] at hup
        exact huv.asymm hup
      · exact Or.inr (Or.inr ⟨hx, hy, fun hxy => hy hxy.2⟩)
  refine ⟨?_, ?_, ?_, ?_, ?_⟩
  · rw [hp.seen_ne a huv.ne_origin.symm]
    exact h.origin
  · intro x y hup
    have hold := h.up x y hup
    obtain ⟨rfl, rfl⟩ | ⟨rfl, hyu, hyv⟩ | ⟨hx, hy, hxy⟩ := hedge x y hup
    · rw [hp.seen_self, hp.seen_ne x hne]
      omega
    · have hout := hp.out_le y
      rw [hp.seen_self, hp.seen_ne y hyv]
      omega
    · rw [hp.seen_ne x hx, hp.seen_ne y hy, hp.frame x y hx hxy]
      exact hold
  · intro hc x y hup
    have hold := h.up_all hc x y hup
    obtain ⟨rfl, rfl⟩ | ⟨rfl, hyu, hyv⟩ | ⟨hx, hy, hxy⟩ := hedge x y hup
    · rw [hp.seen_self, hp.seen_ne x hne]
      omega
    · have hout := hp.out_all hc y hup.adj hyu
      rw [hp.seen_self, hp.seen_ne y hyv]
      omega
    · rw [hp.seen_ne x hx, hp.seen_ne y hy, hp.frame x y hx hxy]
      exact hold
  · intro x y hup
    have hold := h.down x y hup
    by_cases hy : y = v
    · subst hy
      rw [hup.unique hF huv] at hold ⊢
      rw [hback]
      exact hold
    · have hxy : ¬ (y = u ∧ x = v) := by
        intro hyx
        rw [hyx.1, hyx.2] at hup
        exact huv.asymm hup
      rw [hp.frame y x hy hxy]
      exact hold
  · intro w hw
    obtain ⟨hseen, hfly⟩ := h.far w hw
    have hwv : w ≠ v := by
      intro he
      rw [he] at hw
      exact hw (huv.reach.trans huv.adj.reachable)
    have hwu : w ≠ u := by
      intro he
      rw [he] at hw
      exact hw huv.reach
    refine ⟨by rw [hp.seen_ne w hwv, hseen], fun z hz => ?_⟩
    rw [hp.frame w z hwv (fun hxy => hwu hxy.1)]
    exact hfly z hz

theorem Inv.start (hseen : s.seen a = 1) (hnone : ∀ v, v ≠ a → s.seen v = 0)
    (hfly : ∀ v w, v ≠ a → s.flying v w = 0) (hout : ∀ w, s.flying a w ≤ 1)
    (hall : complete → ∀ w, F.Adj a w → s.flying a w = 1) : Inv F complete a s where
  origin := hseen
  up := by
    intro u v hup
    have hv := hnone v hup.ne_origin
    by_cases hu : u = a
    · subst hu
      have ho := hout v
      omega
    · have hf := hfly u v hu
      omega
  up_all := by
    intro hc u v hup
    have hv := hnone v hup.ne_origin
    by_cases hu : u = a
    · subst hu
      have ho := hall hc v hup.adj
      omega
    · have hf := hfly u v hu
      have hs := hnone u hu
      omega
  down := fun u v hup => hfly v u hup.ne_origin
  far := by
    intro v hv
    have hne : v ≠ a := by
      intro he
      rw [he] at hv
      exact hv (.refl a)
    exact ⟨hnone v hne, fun w _ => hfly v w hne⟩

theorem Inv.seen_le_one (h : Inv F complete a s) (hF : F.IsAcyclic) (v : V) :
    s.seen v ≤ 1 := by
  by_cases hr : F.Reachable a v
  · induction hn : F.dist a v generalizing v with
    | zero =>
      rw [hr.dist_eq_zero_iff] at hn
      rw [← hn, h.origin]
    | succ n ih =>
      have hv : v ≠ a := by
        intro he
        rw [he, SimpleGraph.dist_self] at hn
        omega
      obtain ⟨u, hup⟩ := exists_up hF hr hv
      have hdist := hup.dist
      have hu := ih u hup.reach (by omega)
      have hle := h.up u v hup
      omega
  · have hfar := (h.far v hr).1
    omega

/-- Once every copy of a complete flood has arrived, everybody the origin reaches has it. -/
theorem Inv.seen_eq_one (h : Inv F complete a s) (hF : F.IsAcyclic) (hc : complete)
    (hdone : ∀ u v, F.Adj u v → s.flying u v = 0) {v : V} (hr : F.Reachable a v) :
    s.seen v = 1 := by
  induction hn : F.dist a v generalizing v with
  | zero =>
    rw [hr.dist_eq_zero_iff] at hn
    rw [← hn, h.origin]
  | succ n ih =>
    have hv : v ≠ a := by
      intro he
      rw [he, SimpleGraph.dist_self] at hn
      omega
    obtain ⟨u, hup⟩ := exists_up hF hr hv
    have hdist := hup.dist
    have hu := ih hup.reach (by omega)
    have heq := h.up_all hc u v hup
    have hzero := hdone u v hup.adj
    omega

end Mixnet.TreeFlood
