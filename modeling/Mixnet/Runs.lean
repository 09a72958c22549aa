import Mathlib.Logic.Relation
import Mathlib.Order.WellFounded

/-! Runs of a partial step function: execution of an event list, states reached by
admissible steps, and the induction rule every invariant of a run goes through; the rule for a loop
that may stop. -/
namespace Mixnet.Runs
variable {σ ε : Type*}

/-- Execute a list of events; `none` as soon as one of them is not enabled. -/
def run (step : σ → ε → Option σ) : List ε → σ → Option σ
  | [], s => some s
  | e :: es, s => (step s e).bind (run step es)

/-- States reached from `s` by steps whose source state and event satisfy `ok`. -/
inductive Reach (step : σ → ε → Option σ) (ok : σ → ε → Prop) (s : σ) : σ → Prop
  | refl : Reach step ok s s
  | tail {t u : σ} {e : ε} : Reach step ok s t → ok t e → step t e = some u →
      Reach step ok s u

variable {step : σ → ε → Option σ} {ok ok' : σ → ε → Prop} {s t u : σ}

theorem Reach.trans (h : Reach step ok s t) (h' : Reach step ok t u) : Reach step ok s u := by
  induction h' with
  | refl => exact h
  | tail _ hok hstep ih => exact .tail ih hok hstep

theorem Reach.head {e : ε} (hok : ok s e) (hstep : step s e = some t)
    (h : Reach step ok t u) : Reach step ok s u :=
  (Reach.tail .refl hok hstep).trans h

theorem Reach.mono (hsub : ∀ t e, ok t e → ok' t e) (h : Reach step ok s t) :
    Reach step ok' s t := by
  induction h with
  | refl => exact .refl
  | tail _ hok hstep ih => exact .tail ih (hsub _ _ hok) hstep

/-- The invariant rule: what holds initially and survives every admissible step
holds in every state reached. -/
theorem Reach.invariant {P : σ → Prop} (h : Reach step ok s t) (hs : P s)
    (hstep : ∀ t u e, P t → ok t e → step t e = some u → P u) : P t := by
  induction h with
  | refl => exact hs
  | tail _ hok hst ih => exact hstep _ _ _ ih hok hst

theorem Reach.invariant_of_reach {P : σ → Prop} (h : Reach step ok s t) (hs : P s)
    (hstep : ∀ t u e, Reach step ok s t → P t → ok t e → step t e = some u → P u) : P t := by
  induction h with
  | refl => exact hs
  | tail hreach hok hst ih => exact hstep _ _ _ hreach ih hok hst

/-- A run all of whose states satisfy `P` is a run of the steps guarded by `P`. -/
theorem Reach.guard {P : σ → Prop} (h : Reach step ok s t) (hP : ∀ u, Reach step ok s u → P u) :
    Reach step (fun u e => ok u e ∧ P u) s t := by
  induction h with
  | refl => exact .refl
  | tail hreach hok hst ih => exact .tail ih ⟨hok, hP _ hreach⟩ hst

theorem run_append (es fs : List ε) (s : σ) :
    run step (es ++ fs) s = (run step es s).bind (run step fs) := by
  induction es generalizing s with
  | nil => rfl
  | cons e es ih =>
    rw [List.cons_append, run, run, Option.bind_assoc]
    exact Option.bind_congr fun t _ => ih t

theorem run_map {δ : Type*} (f : δ → ε) (ds : List δ) (s : σ) :
    run step (ds.map f) s = run (fun s d => step s (f d)) ds s := by
  induction ds generalizing s with
  | nil => rfl
  | cons d ds ih =>
    rw [List.map_cons, run, run]
    exact Option.bind_congr fun t _ => ih t

theorem run_flatMap {δ : Type*} (f : δ → List ε) (ds : List δ) (s : σ) :
    run step (ds.flatMap f) s = run (fun s d => run step (f d) s) ds s := by
  induction ds generalizing s with
  | nil => rfl
  | cons d ds ih =>
    rw [List.flatMap_cons, run_append, run]
    exact Option.bind_congr fun t _ => ih t

theorem reach_of_run {es : List ε} (hok : ∀ e ∈ es, ∀ t, ok t e)
    (h : run step es s = some t) : Reach step ok s t := by
  induction es generalizing s with
  | nil =>
    obtain rfl : s = t := by simpa [run] using h
    exact .refl
  | cons e es ih =>
    obtain ⟨m, hm, hrest⟩ := Option.bind_eq_some_iff.mp h
    exact .head (hok e (by simp) s) hm (ih (fun e' he' => hok e' (by simp [he'])) hrest)

theorem run_invariant {P : σ → Prop} (hstep : ∀ s t e, P s → step s e = some t → P t)
    {es : List ε} (hs : P s) (h : run step es s = some t) : P t := by
  have hreach : Reach step (fun _ _ => True) s t := reach_of_run (fun _ _ _ => trivial) h
  exact hreach.invariant hs fun t u e ht _ hu => hstep t u e ht hu

theorem reach_of_checked [∀ t e, Decidable (ok t e)] {es : List ε}
    (h : run (fun t e => if ok t e then step t e else none) es s = some t) :
    Reach step ok s t := by
  induction es generalizing s with
  | nil =>
    obtain rfl : s = t := by simpa [run] using h
    exact .refl
  | cons e es ih =>
    obtain ⟨m, hm, hrest⟩ := Option.bind_eq_some_iff.mp h
    dsimp only at hm
    split_ifs at hm with hok
    exact .head hok hm (ih hrest)

def Along (step : σ → ε → Option σ) (P : σ → ε → Prop) : List ε → σ → Prop
  | [], _ => True
  | e :: es, s => P s e ∧ ∀ t, step s e = some t → Along step P es t

/-- Two conditions that agree under an invariant, which steps with the first one preserve, agree
along every run. -/
theorem along_iff {I : σ → Prop} {ok ok' : σ → ε → Prop}
    (hiff : ∀ s e, I s → (ok s e ↔ ok' s e))
    (hstep : ∀ s e t, I s → ok s e → step s e = some t → I t) (es : List ε) (hs : I s) :
    Along step ok es s ↔ Along step ok' es s := by
  induction es generalizing s with
  | nil => exact Iff.rfl
  | cons e es ih =>
    constructor
    · rintro ⟨hok, hrest⟩
      exact ⟨(hiff s e hs).mp hok, fun t ht => (ih (hstep s e t hs hok ht)).mp (hrest t ht)⟩
    · rintro ⟨hok', hrest⟩
      have hok := (hiff s e hs).mpr hok'
      exact ⟨hok, fun t ht => (ih (hstep s e t hs hok ht)).mpr (hrest t ht)⟩

/-- The termination rule: a measure that every step from an admissible state decreases. -/
theorem acc_of_decreasing {α β : Type*} [LT β] [WellFoundedLT β] {r : α → α → Prop}
    {P : α → Prop} (measure : α → β) (hP : ∀ a b, P a → r a b → P b)
    (hm : ∀ a b, P a → r a b → measure b < measure a) (a : α) (ha : P a) :
    Acc (fun b a => r a b) a := by
  induction hk : measure a using WellFoundedLT.induction generalizing a with
  | ind k ih =>
    refine ⟨a, fun b hab => ?_⟩
    exact ih (measure b) (hk ▸ hm a b ha hab) b (hP a b ha hab) rfl

/-- A computation that ends in `I`, or stops in `E`. -/
inductive Ends {κ α : Type*} (I : α → Prop) (E : κ → Prop) : Except κ α → Prop
  | ok {a : α} (h : I a) : Ends I E (.ok a)
  | error {e : κ} (h : E e) : Ends I E (.error e)

theorem Ends.mono {κ α : Type*} {I I' : α → Prop} {E E' : κ → Prop} {r : Except κ α}
    (h : Ends I E r) (hI : ∀ a, I a → I' a) (hE : ∀ e, E e → E' e) : Ends I' E' r := by
  cases h with
  | ok ha => exact .ok (hI _ ha)
  | error he => exact .error (hE _ he)

theorem foldlM_ends {κ α β : Type*} {I : α → Prop} {E : κ → Prop} {f : α → β → Except κ α}
    (bs : List β) (hstep : ∀ a, I a → ∀ b ∈ bs, Ends I E (f a b)) {a : α} (ha : I a) :
    Ends I E (bs.foldlM f a) := by
  induction bs generalizing a with
  | nil => exact .ok ha
  | cons b bs ih =>
    have hb := hstep a ha b List.mem_cons_self
    rw [List.foldlM_cons]
    cases hf : f a b with
    | error e =>
      rw [hf] at hb
      cases hb with
      | error he => exact .error he
    | ok a' =>
      rw [hf] at hb
      cases hb with
      | ok ha' => exact ih (fun a ha b hb => hstep a ha b (List.mem_cons_of_mem _ hb)) ha'

end Mixnet.Runs
