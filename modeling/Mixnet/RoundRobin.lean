import Mathlib.Algebra.Group.Fin.Basic
import Mathlib.Order.Fin.Basic
import Mathlib.Order.WellFounded

/-! Round robin over a ring of `n + 1` slots: the first ready slot from a moving start, and why no
slot that stays ready is passed over for a whole round. -/
namespace Mixnet.RoundRobin
variable {n : ℕ}

def before (start i : Fin (n+1)) : ℕ := (i - start).val

/-- Slot `i` is ready, and the first such slot on the way round from `start`. -/
structure Picks (ready : Fin (n+1) → Prop) (start i : Fin (n+1)) : Prop where
  isReady : ready i
  first : ∀ j, before start j < before start i → ¬ ready j

section Ring
variable {start i j : Fin (n+1)}

@[simp] theorem before_self (start : Fin (n+1)) : before start start = 0 := by
  simp [before]

theorem before_lt (start i : Fin (n+1)) : before start i < n + 1 := (i - start).isLt

theorem before_inj (h : before start i = before start j) : i = j :=
  sub_left_injective (Fin.ext h)

theorem before_pos (h : i ≠ start) : 0 < before start i := by
  apply Nat.pos_of_ne_zero
  intro hzero
  exact h (before_inj (hzero.trans (before_self start).symm))

theorem before_past (h : before start i < before start j) :
    before start j = before start i + 1 + before (i + 1) j := by
  have hadd : (i - start) + 1 ≤ j - start := Fin.add_one_le_of_lt h
  have hval : ((i - start) + 1).val = (i - start).val + 1 :=
    Fin.val_add_one_of_lt (lt_of_lt_of_le h (Fin.le_last _))
  have hsub : j - (i + 1) = (j - start) - ((i - start) + 1) := by
    rw [← sub_sub (j - start), sub_sub_sub_cancel_right, sub_sub]
  rw [before, before, before, hsub, Fin.sub_val_of_le hadd, hval]
  rw [Fin.le_def, hval] at hadd
  omega

theorem before_next (h : j ≠ start) : before start j = before (start + 1) j + 1 := by
  have hpast := before_past ((before_self start).trans_lt (before_pos h))
  rw [before_self] at hpast
  omega

theorem before_round (start : Fin (n+1)) : before (start + 1) start = n := by
  have hneg : start - (start + 1) = -1 := by rw [← sub_sub, sub_self, zero_sub]
  rw [before, hneg, Fin.coe_neg_one]

end Ring

section Choice
variable {ready : Fin (n+1) → Prop} {start i j : Fin (n+1)}

theorem Picks.before_le (h : Picks ready start i) (hj : ready j) :
    before start i ≤ before start j :=
  not_lt.mp fun hlt => h.first j hlt hj

theorem Picks.unique (hi : Picks ready start i) (hj : Picks ready start j) : i = j :=
  before_inj (le_antisymm (hi.before_le hj.isReady) (hj.before_le hi.isReady))

theorem picks_self (h : ready start) : Picks ready start start where
  isReady := h
  first := fun j hj => absurd hj (by simp)

theorem picks_next (hstart : ¬ ready start) (h : Picks ready (start + 1) i) :
    Picks ready start i := by
  have hi : i ≠ start := fun he => hstart (he ▸ h.isReady)
  refine ⟨h.isReady, fun j hj => ?_⟩
  by_cases hjs : j = start
  · rwa [hjs]
  · rw [before_next hi, before_next hjs] at hj
    exact h.first j (by omega)

end Choice

section Fairness
variable {j : Fin (n+1)}

theorem picked_by (d : ℕ) {ready : ℕ → Fin (n+1) → Prop} {start : ℕ → Fin (n+1)}
    (hpick : ∀ k ≤ d, ∃ i, Picks (ready k) (start k) i)
    (hnext : ∀ k < d, ∀ i, Picks (ready k) (start k) i → start (k + 1) = i + 1)
    (hready : ∀ k ≤ d, ready k j) (hd : before (start 0) j ≤ d) :
    ∃ k ≤ d, Picks (ready k) (start k) j := by
  induction d generalizing ready start with
  | zero =>
    obtain ⟨i, hi⟩ := hpick 0 le_rfl
    have hle := hi.before_le (hready 0 le_rfl)
    have hij : before (start 0) i = before (start 0) j := by omega
    exact ⟨0, le_rfl, before_inj hij ▸ hi⟩
  | succ d ih =>
    obtain ⟨i, hi⟩ := hpick 0 (Nat.zero_le _)
    by_cases hij : i = j
    · exact ⟨0, Nat.zero_le _, hij ▸ hi⟩
    · have hle := hi.before_le (hready 0 (Nat.zero_le _))
      have hlt : before (start 0) i < before (start 0) j :=
        lt_of_le_of_ne hle fun he => hij (before_inj he)
      have hpast := before_past hlt
      rw [← hnext 0 (Nat.succ_pos d) i hi] at hpast
      obtain ⟨k, hk, hpicked⟩ := @ih (fun k => ready (k + 1)) (fun k => start (k + 1))
        (fun k hk => hpick (k + 1) (Nat.succ_le_succ hk))
        (fun k hk => hnext (k + 1) (Nat.succ_lt_succ hk))
        (fun k hk => hready (k + 1) (Nat.succ_le_succ hk)) (by omega)
      exact ⟨k + 1, Nat.succ_le_succ hk, hpicked⟩

/-- Every round moves the start past the slot that it picks. A slot that is ready in `n + 1` rounds
is picked in one of them. -/
theorem picked_within {ready : ℕ → Fin (n+1) → Prop} {start : ℕ → Fin (n+1)}
    (hpick : ∀ k ≤ n, ∃ i, Picks (ready k) (start k) i)
    (hnext : ∀ k < n, ∀ i, Picks (ready k) (start k) i → start (k + 1) = i + 1)
    (hready : ∀ k ≤ n, ready k j) : ∃ k ≤ n, Picks (ready k) (start k) j :=
  picked_by n hpick hnext hready (Nat.le_of_lt_succ (before_lt _ _))

end Fairness

end Mixnet.RoundRobin
