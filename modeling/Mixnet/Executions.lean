import Mathlib.Data.Countable.Basic
import Mathlib.Data.Fintype.Order
import Mathlib.Data.Nat.Find
import Mathlib.Data.Nat.Pairing
import Mathlib.Order.WellFounded
import Mixnet.Runs

/-! Infinite runs of a partial step function: how a schedule is followed; what never goes up comes
to rest; a queue whose head is taken again and again serves every entry. -/
namespace Mixnet.Runs
variable {σ ε α ι : Type*}

structure Execution (step : σ → ε → Option σ) (s : σ) where
  state : ℕ → σ
  event : ℕ → ε
  start : state 0 = s
  steps : ∀ n, step (state n) (event n) = some (state (n + 1))

section Execution
variable {step : σ → ε → Option σ} {s : σ}

theorem Execution.reach (x : Execution step s) {ok : σ → ε → Prop}
    (hok : ∀ n, ok (x.state n) (x.event n)) {m n : ℕ} (hmn : m ≤ n) :
    Reach step ok (x.state m) (x.state n) := by
  induction n, hmn using Nat.le_induction with
  | base => exact .refl
  | succ n _ ih => exact .tail ih (hok n) (x.steps n)

theorem Execution.reach_start (x : Execution step s) {ok : σ → ε → Prop}
    (hok : ∀ n, ok (x.state n) (x.event n)) (n : ℕ) : Reach step ok s (x.state n) := by
  have hreach := x.reach hok n.zero_le
  rwa [x.start] at hreach

end Execution

section Schedule
variable (step : σ → ε → Option σ) (wish : ℕ → ε) (idle : ε)

def pick (s : σ) (n : ℕ) : ε := if (step s (wish n)).isSome then wish n else idle

def follow (s : σ) : ℕ → σ
  | 0 => s
  | n + 1 => (step (follow s n) (pick step wish idle (follow s n) n)).getD (follow s n)

variable {step wish idle} {s : σ} {P : σ → Prop} {A : ε → Prop}

theorem pick_enabled {t : σ} (hidle : (step t idle).isSome) (n : ℕ) :
    (step t (pick step wish idle t n)).isSome := by
  by_cases h : (step t (wish n)).isSome
  · rwa [pick, if_pos h]
  · rwa [pick, if_neg h]

theorem pick_admissible (hwish : ∀ n, A (wish n)) (hidle : A idle) (t : σ) (n : ℕ) :
    A (pick step wish idle t n) := by
  unfold pick
  split_ifs
  · exact hwish n
  · exact hidle

variable (step wish idle)

/-- A schedule can be followed for ever if the idle event is enabled all the time. -/
theorem exists_execution (hwish : ∀ n, A (wish n)) (hA : A idle) (hs : P s)
    (hstep : ∀ t u e, P t → A e → step t e = some u → P u)
    (hidle : ∀ t, P t → (step t idle).isSome) :
    ∃ x : Execution step s, ∀ n, P (x.state n) ∧ A (x.event n) ∧
      ((step (x.state n) (wish n)).isSome → x.event n = wish n) := by
  have hnext : ∀ n, P (follow step wish idle s n) →
      step (follow step wish idle s n) (pick step wish idle (follow step wish idle s n) n) =
        some (follow step wish idle s (n + 1)) := by
    intro n hn
    obtain ⟨u, hu⟩ := Option.isSome_iff_exists.mp (pick_enabled (hidle _ hn) n)
    rw [follow, hu, Option.getD_some]
  have hP : ∀ n, P (follow step wish idle s n) := by
    intro n
    induction n with
    | zero => exact hs
    | succ n ih => exact hstep _ _ _ ih (pick_admissible hwish hA _ n) (hnext n ih)
  refine ⟨⟨follow step wish idle s, fun n => pick step wish idle (follow step wish idle s n) n, rfl,
    fun n => hnext n (hP n)⟩, fun n => ⟨hP n, pick_admissible hwish hA _ n, fun h => if_pos h⟩⟩

/-- A sequence in which each of countably many things comes again and again. -/
theorem exists_recurring (ι : Type*) [Countable ι] [Nonempty ι] :
    ∃ f : ℕ → ι, ∀ i n, ∃ m, n ≤ m ∧ f m = i := by
  obtain ⟨g, hg⟩ := exists_surjective_nat ι
  refine ⟨fun n => g n.unpair.1, fun i n => ?_⟩
  obtain ⟨k, rfl⟩ := hg i
  exact ⟨Nat.pair k n, Nat.right_le_pair k n, by simp⟩

end Schedule

section Rest

theorem eventually_const [PartialOrder α] [WellFoundedLT α] {f : ℕ → α} (hf : Antitone f) :
    ∃ N, ∀ n, N ≤ n → f n = f N := by
  obtain ⟨_, ⟨N, rfl⟩, hmin⟩ := wellFounded_lt.has_min (Set.range f) ⟨f 0, 0, rfl⟩
  exact ⟨N, fun n hn => eq_of_le_of_not_lt (hf hn) (hmin _ ⟨n, rfl⟩)⟩

theorem eventually_all [Finite ι] {P : ι → ℕ → Prop} (h : ∀ i, ∃ N, ∀ n, N ≤ n → P i n) :
    ∃ N, ∀ n, N ≤ n → ∀ i, P i n := by
  choose N hN using h
  obtain ⟨M, hM⟩ := Finite.exists_le N
  exact ⟨M, fun n hn i => hN i n ((hM i).trans hn)⟩

end Rest

section Fifo

/-- A queue over time: its head is taken when `pops` says so, which in the end it does, and what is
appended at time `n` satisfies `New n`. -/
structure Fifo (queue : ℕ → List α) (pops : ℕ → Prop) (New : ℕ → α → Prop) : Prop where
  pop : ∀ n, pops n → ∃ a, queue n = a :: queue (n + 1)
  keep : ∀ n, ¬ pops n → ∃ more, queue (n + 1) = queue n ++ more ∧ ∀ a ∈ more, New n a
  fair : ∀ n, queue n ≠ [] → ∃ m, n ≤ m ∧ pops m

variable {queue : ℕ → List α} {pops : ℕ → Prop} {New : ℕ → α → Prop}

theorem Fifo.waits (h : Fifo queue pops New) {n : ℕ} (hne : queue n ≠ []) :
    ∃ m, n ≤ m ∧ pops m ∧ ∃ more, queue m = queue n ++ more ∧
      ∀ a ∈ more, ∃ k, n ≤ k ∧ New k a := by
  classical
  have hex := h.fair n hne
  have hspec := Nat.find_spec hex
  have hbefore : ∀ k, n ≤ k → k < Nat.find hex → ¬ pops k :=
    fun k hk hlt hpop => Nat.find_min hex hlt ⟨hk, hpop⟩
  refine ⟨Nat.find hex, hspec.1, hspec.2, ?_⟩
  generalize Nat.find hex = m at hspec hbefore
  obtain ⟨hle, -⟩ := hspec
  induction m, hle using Nat.le_induction with
  | base => exact ⟨[], by simp, by simp⟩
  | succ m hle ih =>
    obtain ⟨more, hq, hmore⟩ := ih fun k hk hlt => hbefore k hk (hlt.trans m.lt_succ_self)
    obtain ⟨last, hq', hlast⟩ := h.keep m (hbefore m hle m.lt_succ_self)
    refine ⟨more ++ last, by rw [hq', hq, List.append_assoc], fun a ha => ?_⟩
    obtain ha | ha := List.mem_append.mp ha
    · exact hmore a ha
    · exact ⟨m, hle, hlast a ha⟩

theorem Fifo.passes (h : Fifo queue pops New) (pre : List α) : ∀ n suf, queue n = pre ++ suf →
    ∃ m, n ≤ m ∧ ∃ more, queue m = suf ++ more ∧ ∀ a ∈ more, ∃ k, n ≤ k ∧ New k a := by
  induction pre with
  | nil => exact fun n suf hq => ⟨n, le_rfl, [], by simp [hq], by simp⟩
  | cons b pre ih =>
    intro n suf hq
    obtain ⟨m, hnm, hpop, more, hm, hmore⟩ := h.waits (n := n) (by simp [hq])
    obtain ⟨a, ha⟩ := h.pop m hpop
    have htail : queue (m + 1) = pre ++ (suf ++ more) := by
      rw [hm, hq] at ha
      rw [← (List.cons.inj ha).2]
      simp
    obtain ⟨m', hm', more', hq', hmore'⟩ := ih (m + 1) _ htail
    refine ⟨m', by omega, more ++ more', by rw [hq', List.append_assoc], fun a ha => ?_⟩
    obtain ha | ha := List.mem_append.mp ha
    · exact hmore a ha
    · obtain ⟨k, hk, hnew⟩ := hmore' a ha
      exact ⟨k, by omega, hnew⟩

/-- Every entry comes to the head and is taken. -/
theorem Fifo.served (h : Fifo queue pops New) {n : ℕ} {a : α} (ha : a ∈ queue n) :
    ∃ m, n ≤ m ∧ pops m ∧ queue m = a :: queue (m + 1) := by
  obtain ⟨pre, post, hq⟩ := List.append_of_mem ha
  obtain ⟨m, hnm, more, hm, -⟩ := h.passes pre n (a :: post) hq
  obtain ⟨m', hm', hpop, more', hq', -⟩ := h.waits (n := m) (by simp [hm])
  obtain ⟨b, hb⟩ := h.pop m' hpop
  refine ⟨m', hnm.trans hm', hpop, ?_⟩
  rw [hb] at hq' ⊢
  rw [hm] at hq'
  rw [(List.cons.inj hq').1]

/-- In the end only what has been appended since `n` is left. -/
theorem Fifo.renewed (h : Fifo queue pops New) (n : ℕ) :
    ∃ m, n ≤ m ∧ ∀ k, m ≤ k → ∀ a ∈ queue k, ∃ j, n ≤ j ∧ New j a := by
  obtain ⟨m, hnm, more, hm, hmore⟩ := h.passes (queue n) n [] (by simp)
  refine ⟨m, hnm, fun k hk => ?_⟩
  induction k, hk using Nat.le_induction with
  | base =>
    rw [hm]
    exact hmore
  | succ k hk ih =>
    intro a ha
    by_cases hpop : pops k
    · obtain ⟨b, hb⟩ := h.pop k hpop
      exact ih a (by rw [hb]; exact List.mem_cons_of_mem b ha)
    · obtain ⟨last, hq, hlast⟩ := h.keep k hpop
      rw [hq] at ha
      obtain ha | ha := List.mem_append.mp ha
      · exact ih a ha
      · exact ⟨k, hnm.trans hk, hlast a ha⟩

end Fifo

end Mixnet.Runs
