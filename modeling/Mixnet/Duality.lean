import Mathlib.Logic.Function.Basic
import Mixnet.Runs

/-! Two parties that follow one protocol over FIFO channels. Every stage of the protocol has one
channel that is written next, and every channel has one party that writes it. Then one of the
parties is ahead of the other by what it has written, and whoever reads finds what it waits for. -/
namespace Mixnet.Duality
variable {S α C : Type*} [DecidableEq C]

structure Protocol (S α C : Type*) where
  next : S → α → Option S
  chan : α → C
  directed : ∀ {s a b x y}, next s a = some x → next s b = some y → chan a = chan b

/-- `front` is ahead of `back` by what the queues hold, all of it on channels of `mine`. -/
def Protocol.Ahead (P : Protocol S α C) (mine : C → Bool) (front back : S) (queue : C → List α) :
    Prop :=
  ∃ d, Runs.run P.next d back = some front ∧ (∀ a ∈ d, mine (P.chan a) = true) ∧
    ∀ c, queue c = d.filter (P.chan · = c)

/-- The party that writes the channels of `mine` is in stage `x`, the other one in stage `y`. -/
def Protocol.Coherent (P : Protocol S α C) (mine : C → Bool) (x y : S) (queue : C → List α) :
    Prop :=
  P.Ahead mine x y queue ∨ P.Ahead (fun c => !mine c) y x queue

variable {P : Protocol S α C} {mine : C → Bool} {x x' y z : S} {queue queue' : C → List α}

theorem Protocol.Coherent.start (s : S) : P.Coherent mine s s fun _ => [] :=
  Or.inl ⟨[], rfl, by simp, by simp⟩

theorem Protocol.coherent_swap :
    P.Coherent (fun c => !mine c) y x queue ↔ P.Coherent mine x y queue := by
  simp only [Protocol.Coherent, Bool.not_not]
  exact or_comm

theorem Protocol.Ahead.keeps (h : P.Ahead mine x y queue) {I : S → Prop} (hy : I y)
    (hstep : ∀ s a s', I s → mine (P.chan a) = true → P.next s a = some s' → I s') : I x := by
  obtain ⟨d, hrun, hmine, -⟩ := h
  induction d generalizing y with
  | nil =>
    obtain rfl := Option.some.inj hrun
    exact hy
  | cons a d ih =>
    obtain ⟨s, hs, hrest⟩ := Option.bind_eq_some_iff.mp hrun
    exact ih (hstep y a s hy (hmine a List.mem_cons_self) hs) hrest
      fun b hb => hmine b (List.mem_cons_of_mem _ hb)

theorem Protocol.Ahead.queue_nil (h : P.Ahead mine x y queue) {I : S → Prop} {c : C} (hy : I y)
    (hstep : ∀ s a s', I s → mine (P.chan a) = true → P.next s a = some s' →
      I s' ∧ P.chan a ≠ c) : queue c = [] := by
  obtain ⟨d, hrun, hmine, hqueue⟩ := h
  rw [hqueue, List.filter_eq_nil_iff]
  clear hqueue
  induction d generalizing y with
  | nil => simp
  | cons a d ih =>
    obtain ⟨s, hs, hrest⟩ := Option.bind_eq_some_iff.mp hrun
    obtain ⟨hI, hchan⟩ := hstep y a s hy (hmine a List.mem_cons_self) hs
    intro b hb
    obtain rfl | hb := List.mem_cons.mp hb
    · simpa using hchan
    · exact ih hI hrest (fun b hb => hmine b (List.mem_cons_of_mem _ hb)) b hb

theorem Protocol.Ahead.queue_of_other (h : P.Ahead mine x y queue) {c : C} (hc : mine c = false) :
    queue c = [] := by
  obtain ⟨d, -, hmine, hqueue⟩ := h
  rw [hqueue, List.filter_eq_nil_iff]
  intro a ha hchan
  have hcheck := hmine a ha
  rw [of_decide_eq_true hchan, hc] at hcheck
  exact absurd hcheck (by decide)

/-- A party that writes what its stage allows. -/
theorem Protocol.Coherent.send (h : P.Coherent mine x y queue) {a : α} (ha : P.next x a = some x')
    (hmine : mine (P.chan a) = true)
    (hqueue' : ∀ c, queue' c = if c = P.chan a then queue c ++ [a] else queue c) :
    P.Coherent mine x' y queue' := by
  have hahead : P.Ahead mine x y queue := by
    obtain h | ⟨d, hrun, hother, hqueue⟩ := h
    · exact h
    · cases d with
      | nil =>
        obtain rfl := Option.some.inj hrun
        exact ⟨[], rfl, by simp, hqueue⟩
      | cons b d =>
        obtain ⟨s, hs, -⟩ := Option.bind_eq_some_iff.mp hrun
        have hb : (!mine (P.chan b)) = true := hother b List.mem_cons_self
        rw [P.directed hs ha, hmine] at hb
        exact absurd hb (by decide)
  obtain ⟨d, hrun, hall, hqueue⟩ := hahead
  refine Or.inl ⟨d ++ [a], ?_, fun b hb => ?_, fun c => ?_⟩
  · rw [Runs.run_append, hrun]
    simp [Runs.run, ha]
  · obtain hb | hb := List.mem_append.mp hb
    · exact hall b hb
    · rwa [List.mem_singleton.mp hb]
  · rw [hqueue', List.filter_append, hqueue]
    by_cases hc : c = P.chan a
    · simp [hc]
    · simp [hc, Ne.symm hc]

/-- A party that reads from the channel that its stage waits for finds a message that its stage
allows. -/
theorem Protocol.Coherent.recv (h : P.Coherent mine x y queue) {b m : α} {rest : List α}
    (hb : P.next x b = some z) (hmine : mine (P.chan b) = false)
    (hqueue : queue (P.chan b) = m :: rest)
    (hqueue' : ∀ c, queue' c = if c = P.chan b then rest else queue c) :
    ∃ x', P.next x m = some x' ∧ P.Coherent mine x' y queue' := by
  obtain h | ⟨d, hrun, hother, hd⟩ := h
  · rw [h.queue_of_other hmine] at hqueue
    exact absurd hqueue (by simp)
  · cases d with
    | nil =>
      rw [hd] at hqueue
      exact absurd hqueue (by simp)
    | cons a d =>
      obtain ⟨s, hs, hrest⟩ := Option.bind_eq_some_iff.mp hrun
      have hchan := P.directed hs hb
      rw [hd, List.filter_cons, if_pos (by simpa using hchan)] at hqueue
      obtain ⟨rfl, rfl⟩ := List.cons.inj hqueue
      refine ⟨s, hs, Or.inr ⟨d, hrest, fun e he => hother e (List.mem_cons_of_mem _ he),
        fun c => ?_⟩⟩
      rw [hqueue', hd, List.filter_cons]
      by_cases hc : c = P.chan b
      · simp [hc]
      · have hne : ¬ P.chan a = c := fun he => hc (he.symm.trans hchan)
        simp [hc, hne]

end Mixnet.Duality
