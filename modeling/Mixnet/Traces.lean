import Mixnet.Runs

/-! What is seen of a run. A step may show a label; the labels that a run shows are its trace. A
system that answers every step of another by the steps that its labels name follows every run by its
trace, and where it can be followed in turn, every run of its own is some run's trace. -/
namespace Mixnet.Runs
variable {σ τ ε δ : Type*} {step : σ → ε → Option σ} {step' : τ → δ → Option τ}
  {label : σ → ε → Option δ} {R : σ → τ → Prop} {s s' : σ} {t t' : τ}

/-- The labels of a run, as far as it goes. -/
def trace (step : σ → ε → Option σ) (label : σ → ε → Option δ) : List ε → σ → List δ
  | [], _ => []
  | e :: es, s => (label s e).toList ++ (step s e).elim [] (trace step label es)

theorem run_singleton (e : ε) (s : σ) : run step [e] s = step s e := by
  cases hs : step s e <;> simp [run, hs]

theorem trace_cons {e : ε} (es : List ε) (hs : step s e = some s') :
    trace step label (e :: es) s = (label s e).toList ++ trace step label es s' := by
  rw [trace, hs]
  rfl

/-- The simulation rule: what follows every step by its label follows every run by its trace. -/
theorem run_simulates
    (hstep : ∀ s e s' t, R s t → step s e = some s' →
      ∃ t', run step' (label s e).toList t = some t' ∧ R s' t')
    {es : List ε} (h : R s t) (hrun : run step es s = some s') :
    ∃ t', run step' (trace step label es s) t = some t' ∧ R s' t' := by
  induction es generalizing s t with
  | nil =>
    obtain rfl : s = s' := Option.some.inj hrun
    exact ⟨t, rfl, h⟩
  | cons e es ih =>
    obtain ⟨m, hm, hrest⟩ := Option.bind_eq_some_iff.mp hrun
    obtain ⟨u, hu, hmu⟩ := hstep s e m t h hm
    obtain ⟨t', ht', hR⟩ := ih hmu hrest
    refine ⟨t', ?_, hR⟩
    rw [trace_cons _ hm, run_append, hu]
    exact ht'

/-- Silent steps that bring a state nearer to its goal lead there. -/
theorem exists_silent_run {P Goal : σ → Prop} (measure : σ → ℕ)
    (hstep : ∀ s, P s → ¬ Goal s → ∃ e s', label s e = none ∧ step s e = some s' ∧ P s' ∧
      measure s' < measure s) (s : σ) (hs : P s) :
    ∃ es s', run step es s = some s' ∧ trace step label es s = [] ∧ P s' ∧ Goal s' := by
  induction hn : measure s using Nat.strong_induction_on generalizing s with
  | _ n ih =>
    by_cases hgoal : Goal s
    · exact ⟨[], s, rfl, rfl, hs, hgoal⟩
    · obtain ⟨e, m, hsilent, hm, hPm, hlt⟩ := hstep s hs hgoal
      obtain ⟨es, s', hrun, hnone, hend⟩ := ih _ (hn ▸ hlt) m hPm rfl
      refine ⟨e :: es, s', ?_, ?_, hend⟩
      · rw [run, hm]
        exact hrun
      · rw [trace_cons es hm, hsilent, hnone]
        rfl

end Mixnet.Runs
