import Mathlib.Logic.Relation
import Mathlib.Order.Basic

/-! Pointers: a relation read as "points to". When chains of pointers end, what the rank of
everything on a chain is bounded by, and what redirecting one pointer does to both. -/
namespace Mixnet.Pointers
open Relation
variable {α β : Type*} {r r' : α → α → Prop} {u v x : α}

/-- Pointers along which a rank decreases form no cycle. -/
theorem no_cycle_of_decreasing [Preorder β] (rank : α → β)
    (h : ∀ a b, r a b → rank b < rank a) (a : α) : ¬ TransGen r a a := by
  intro hcycle
  have hlt : ∀ {x y : α}, TransGen r x y → rank y < rank x := by
    intro x y hxy
    induction hxy with
    | single hr => exact h _ _ hr
    | tail _ hr ih => exact (h _ _ hr).trans ih
  exact lt_irrefl _ (hlt hcycle)

theorem acyclic_of_subset (hsub : ∀ a b, r' a b → r a b) (hac : ∀ a, ¬ TransGen r a a) (a : α) :
    ¬ TransGen r' a a :=
  fun h => hac a (TransGen.mono hsub _ _ h)

/-- The pointers of `r'` are those of `r`, except that `v` may point to `u`. -/
def Redirects (r r' : α → α → Prop) (v u : α) : Prop := ∀ a b, r' a b → r a b ∨ a = v ∧ b = u

theorem Redirects.chain (h : Redirects r r' v u) {a b : α} (hab : ReflTransGen r' a b) :
    ReflTransGen r a b ∨ ReflTransGen r a v ∧ ReflTransGen r u b := by
  induction hab with
  | refl => exact Or.inl .refl
  | tail _ hbc ih =>
    obtain hold | ⟨rfl, rfl⟩ := h _ _ hbc
    · obtain ih | ⟨hv, hu⟩ := ih
      · exact Or.inl (ih.tail hold)
      · exact Or.inr ⟨hv, hu.tail hold⟩
    · obtain ih | ⟨hv, _⟩ := ih
      · exact Or.inr ⟨ih, .refl⟩
      · exact Or.inr ⟨hv, .refl⟩

/-- A pointer to an element that does not lead back closes no cycle. -/
theorem Redirects.acyclic (h : Redirects r r' v u) (huv : ¬ ReflTransGen r u v)
    (hac : ∀ a, ¬ TransGen r a a) (a : α) : ¬ TransGen r' a a := by
  intro hcycle
  obtain ⟨b, hab, hba⟩ := TransGen.head'_iff.mp hcycle
  obtain hold | ⟨rfl, rfl⟩ := h a b hab
  · obtain hback | ⟨hbv, hua⟩ := h.chain hba
    · exact hac a (TransGen.head' hold hback)
    · exact huv ((hua.tail hold).trans hbv)
  · obtain hback | ⟨hback, _⟩ := h.chain hba
    · exact huv hback
    · exact huv hback

/-- Nothing that a chain from `x` leads to is ranked above `b`. -/
def Capped [LE β] (r : α → α → Prop) (rank : α → β) (x : α) (b : β) : Prop :=
  ∀ y, ReflTransGen r x y → rank y ≤ b

variable [Preorder β] {rank rank' : α → β} {b c : β}

theorem Capped.trans (h : Capped r rank x b) (hbc : b ≤ c) : Capped r rank x c :=
  fun y hy => (h y hy).trans hbc

theorem capped_of_next (hx : rank x ≤ b) (h : ∀ y, r x y → Capped r rank y b) :
    Capped r rank x b := by
  intro z hz
  obtain rfl | ⟨y, hxy, hyz⟩ := hz.cases_head
  · exact hx
  · exact h y hxy z hyz

theorem Capped.redirect (h : Capped r rank x b) (hr : Redirects r r' v u)
    (hrank : ∀ y, rank' y ≤ rank y) (hu : Capped r rank u (rank v)) : Capped r' rank' x b := by
  intro y hy
  obtain hold | ⟨hv, huy⟩ := hr.chain hy
  · exact (hrank y).trans (h y hold)
  · exact (hrank y).trans ((hu y huy).trans (h v hv))

theorem Capped.drop (h : Capped r rank x b) (hsub : ∀ a c, r' a c → r a c)
    (hrank : ∀ y, y ≠ v → rank' y ≤ rank y) (hv : ReflTransGen r x v → rank' v ≤ b) :
    Capped r' rank' x b := by
  intro y hy
  have hold : ReflTransGen r x y := ReflTransGen.mono hsub _ _ hy
  by_cases hyv : y = v
  · subst hyv
    exact hv hold
  · exact (hrank y hyv).trans (h y hold)

end Mixnet.Pointers
