import Mathlib.Data.Nat.ModEq
import Mathlib.Logic.Function.Basic

/-! Tickets over a ring of slots. Who puts a value and who takes one draws a ticket first. Ticket
`k` belongs to slot `k % depth`: there the value of the put ticket `k` waits for the holder of the
take ticket `k`. As long as no two holders of one kind meet at a slot, every ticket finds the value
that was put under its number. -/
namespace Mixnet.TicketSlots
variable {T α : Type*}

/-- `log` lists the values by put ticket and `taken` counts the take tickets. A thread that has
drawn a ticket is `putting` until its value is in the slot, or `taking` until the slot is empty. -/
structure Board (T α : Type*) where
  log : List α
  taken : ℕ
  slots : ℕ → Option α
  putting : T → Option ℕ
  taking : T → Option ℕ

def Board.Stored (b : Board T α) (k : ℕ) : Prop :=
  k < b.log.length ∧ ∀ t, b.putting t ≠ some k

def Board.Cleared (b : Board T α) (k : ℕ) : Prop := k < b.taken ∧ ∀ t, b.taking t ≠ some k

structure Board.Inv (depth : ℕ) (b : Board T α) : Prop where
  putting_lt : ∀ t k, b.putting t = some k → k < b.log.length
  taking_lt : ∀ t k, b.taking t = some k → k < b.taken
  putting_apart : ∀ t u k l, b.putting t = some k → b.putting u = some l →
    k % depth = l % depth → t = u
  taking_apart : ∀ t u k l, b.taking t = some k → b.taking u = some l →
    k % depth = l % depth → t = u
  full : ∀ k v, b.Stored k → ¬ b.Cleared k → b.log[k]? = some v →
    b.slots (k % depth) = some v
  empty : ∀ i v, b.slots i = some v → ∃ k, k % depth = i ∧ b.Stored k ∧ ¬ b.Cleared k
  stored : ∀ k, b.Cleared k → b.Stored k
  order : ∀ k, b.Stored (k + depth) → b.Cleared k

section Observations
variable {depth : ℕ} {b : Board T α} {t : T} {k l : ℕ} {v : α}

theorem Board.Stored.value (h : b.Stored k) : ∃ v, b.log[k]? = some v :=
  ⟨_, List.getElem?_eq_getElem h.1⟩

theorem not_cleared (h : b.taking t = some k) : ¬ b.Cleared k := fun hk => hk.2 t h

theorem not_stored (h : b.putting t = some k) : ¬ b.Stored k := fun hk => hk.2 t h

theorem Board.Inv.cleared_before (h : b.Inv depth) (hk : b.Stored k) (hlt : l < k)
    (hmod : l % depth = k % depth) : b.Cleared l := by
  have hrounds : ∀ m, b.Stored (l + depth * (m + 1)) → b.Cleared l := by
    intro m
    induction m with
    | zero =>
      intro hs
      rw [Nat.zero_add, Nat.mul_one] at hs
      exact h.order l hs
    | succ m ih =>
      intro hs
      rw [Nat.mul_succ, ← Nat.add_assoc] at hs
      exact ih (h.stored _ (h.order _ hs))
  obtain ⟨m, hm⟩ := (Nat.modEq_iff_dvd' hlt.le).mp hmod
  cases m with
  | zero => omega
  | succ m =>
    obtain rfl : k = l + depth * (m + 1) := by omega
    exact hrounds m hk

theorem Board.Inv.apart (h : b.Inv depth) (hk : b.Stored k) (hkc : ¬ b.Cleared k)
    (hl : b.Stored l) (hlc : ¬ b.Cleared l) (hmod : k % depth = l % depth) : k = l := by
  obtain hlt | heq | hlt := Nat.lt_trichotomy k l
  · exact absurd (h.cleared_before hl hlt hmod) hkc
  · exact heq
  · exact absurd (h.cleared_before hk hlt hmod.symm) hlc

/-- The holder of a put ticket that finds its slot empty: the ticket before it in the slot is
done. -/
theorem Board.Inv.seen_empty (h : b.Inv depth) (hdepth : 0 < depth) (ht : b.putting t = some k)
    (hslot : b.slots (k % depth) = none) (hl : l + depth = k) : b.Cleared l := by
  have hmod : l % depth = k % depth := by rw [← hl, Nat.add_mod_right]
  have hlt := h.putting_lt t k ht
  have hstored : b.Stored l := by
    refine ⟨by omega, fun u hu => ?_⟩
    obtain rfl := h.putting_apart u t l k hu ht hmod
    rw [hu] at ht
    obtain rfl := Option.some.inj ht
    omega
  by_contra hnot
  obtain ⟨v, hv⟩ := hstored.value
  have hfull := h.full l v hstored hnot hv
  rw [hmod, hslot] at hfull
  simp at hfull

/-- The holder of a take ticket that finds its slot full: it holds the value of its ticket. -/
theorem Board.Inv.seen_full (h : b.Inv depth) (ht : b.taking t = some k)
    (hslot : b.slots (k % depth) = some v) : b.Stored k ∧ b.log[k]? = some v := by
  obtain ⟨l, hmod, hstored, hnot⟩ := h.empty _ v hslot
  have hlk : l = k := by
    by_cases htaken : l < b.taken
    · have hholder : ∃ u, b.taking u = some l := by
        by_contra hno
        exact hnot ⟨htaken, fun u hu => hno ⟨u, hu⟩⟩
      obtain ⟨u, hu⟩ := hholder
      obtain rfl := h.taking_apart u t l k hu ht hmod
      exact Option.some.inj (hu.symm.trans ht)
    · have hlt := h.taking_lt t k ht
      exact absurd (h.cleared_before hstored (by omega) hmod.symm) (not_cleared ht)
  obtain rfl := hlk
  obtain ⟨w, hw⟩ := hstored.value
  have hfull := h.full l w hstored hnot hw
  rw [hslot] at hfull
  exact ⟨hstored, hw.trans hfull.symm⟩

end Observations

section Steps
variable [DecidableEq T] {depth : ℕ} {b : Board T α} {t : T} {k : ℕ} {v : α}

def Board.drawPut (b : Board T α) (t : T) (v : α) : Board T α :=
  { b with log := b.log ++ [v], putting := Function.update b.putting t (some b.log.length) }

def Board.store (b : Board T α) (depth : ℕ) (t : T) (k : ℕ) (v : α) : Board T α :=
  { b with
    slots := Function.update b.slots (k % depth) (some v)
    putting := Function.update b.putting t none }

def Board.drawTake (b : Board T α) (t : T) : Board T α :=
  { b with taken := b.taken + 1, taking := Function.update b.taking t (some b.taken) }

def Board.clear (b : Board T α) (depth : ℕ) (t : T) (k : ℕ) : Board T α :=
  { b with
    slots := Function.update b.slots (k % depth) none
    taking := Function.update b.taking t none }

theorem update_ne_iff {f : T → Option ℕ} {x : Option ℕ} :
    (∀ u, Function.update f t x u ≠ some k) ↔ x ≠ some k ∧ ∀ u, u ≠ t → f u ≠ some k := by
  constructor
  · intro h
    refine ⟨?_, fun u hu => ?_⟩
    · simpa using h t
    · simpa [hu] using h u
  · rintro ⟨hx, hf⟩ u
    by_cases hu : u = t
    · subst hu
      simpa using hx
    · simpa [hu] using hf u hu

theorem apart_update {f : T → Option ℕ}
    (h : ∀ t u k l, f t = some k → f u = some l → k % depth = l % depth → t = u)
    (hnew : ∀ u l, f u = some l → l % depth ≠ k % depth) :
    ∀ u w l m, Function.update f t (some k) u = some l → Function.update f t (some k) w = some m →
      l % depth = m % depth → u = w := by
  intro u w l m hu hw hmod
  by_cases hut : u = t <;> by_cases hwt : w = t
  · exact hut.trans hwt.symm
  · rw [hut, Function.update_self] at hu
    rw [Function.update_of_ne hwt] at hw
    obtain rfl := Option.some.inj hu
    exact absurd hmod.symm (hnew w m hw)
  · rw [hwt, Function.update_self] at hw
    rw [Function.update_of_ne hut] at hu
    obtain rfl := Option.some.inj hw
    exact absurd hmod (hnew u l hu)
  · rw [Function.update_of_ne hut] at hu
    rw [Function.update_of_ne hwt] at hw
    exact h u w l m hu hw hmod

theorem update_none_some {f : T → Option ℕ} {u : T} {l : ℕ}
    (h : Function.update f t none u = some l) : f u = some l := by
  by_cases hu : u = t
  · rw [hu, Function.update_self] at h
    simp at h
  · rwa [Function.update_of_ne hu] at h

theorem drawPut_stored (ht : b.putting t = none) :
    (b.drawPut t v).Stored k ↔ b.Stored k := by
  simp only [Board.Stored, Board.drawPut, List.length_append, List.length_singleton, update_ne_iff]
  constructor
  · rintro ⟨hlt, hne, hother⟩
    have hk : k < b.log.length := by
      have hkne : k ≠ b.log.length := fun he => hne (by rw [he])
      omega
    refine ⟨hk, fun u hu => ?_⟩
    by_cases hut : u = t
    · rw [hut, ht] at hu
      simp at hu
    · exact hother u hut hu
  · rintro ⟨hlt, hother⟩
    refine ⟨by omega, ?_, fun u _ => hother u⟩
    intro he
    have hlen := Option.some.inj he
    omega

theorem Board.Inv.drawPut (h : b.Inv depth) (ht : b.putting t = none)
    (hnew : ∀ u l, b.putting u = some l → l % depth ≠ b.log.length % depth) :
    (b.drawPut t v).Inv depth where
  putting_lt := by
    intro u l hu
    simp only [Board.drawPut, List.length_append, List.length_singleton] at hu ⊢
    by_cases hut : u = t
    · rw [hut, Function.update_self] at hu
      have hlen := Option.some.inj hu
      omega
    · rw [Function.update_of_ne hut] at hu
      exact Nat.lt_succ_of_lt (h.putting_lt u l hu)
  taking_lt := h.taking_lt
  putting_apart := apart_update h.putting_apart hnew
  taking_apart := h.taking_apart
  full := by
    intro k w hk hnot hw
    rw [drawPut_stored ht] at hk
    refine h.full k w hk hnot ?_
    rwa [Board.drawPut, List.getElem?_append_left hk.1] at hw
  empty := by
    intro i w hi
    obtain ⟨k, hmod, hk, hnot⟩ := h.empty i w hi
    exact ⟨k, hmod, (drawPut_stored ht).mpr hk, hnot⟩
  stored := fun k hk => (drawPut_stored ht).mpr (h.stored k hk)
  order := fun k hk => h.order k ((drawPut_stored ht).mp hk)

theorem drawTake_cleared (ht : b.taking t = none) :
    (b.drawTake t).Cleared k ↔ b.Cleared k := by
  simp only [Board.Cleared, Board.drawTake, update_ne_iff]
  constructor
  · rintro ⟨hlt, hne, hother⟩
    have hkne : k ≠ b.taken := fun he => hne (by rw [he])
    refine ⟨by omega, fun u hu => ?_⟩
    by_cases hut : u = t
    · rw [hut, ht] at hu
      simp at hu
    · exact hother u hut hu
  · rintro ⟨hlt, hother⟩
    refine ⟨by omega, ?_, fun u _ => hother u⟩
    intro he
    have htaken := Option.some.inj he
    omega

theorem Board.Inv.drawTake (h : b.Inv depth) (ht : b.taking t = none)
    (hnew : ∀ u l, b.taking u = some l → l % depth ≠ b.taken % depth) :
    (b.drawTake t).Inv depth where
  putting_lt := h.putting_lt
  taking_lt := by
    intro u l hu
    simp only [Board.drawTake] at hu ⊢
    by_cases hut : u = t
    · rw [hut, Function.update_self] at hu
      have htaken := Option.some.inj hu
      omega
    · rw [Function.update_of_ne hut] at hu
      exact Nat.lt_succ_of_lt (h.taking_lt u l hu)
  putting_apart := h.putting_apart
  taking_apart := apart_update h.taking_apart hnew
  full := fun k w hk hnot hw => h.full k w hk (fun hc => hnot ((drawTake_cleared ht).mpr hc)) hw
  empty := by
    intro i w hi
    obtain ⟨k, hmod, hk, hnot⟩ := h.empty i w hi
    exact ⟨k, hmod, hk, fun hc => hnot ((drawTake_cleared ht).mp hc)⟩
  stored := fun k hk => h.stored k ((drawTake_cleared ht).mp hk)
  order := fun k hk => (drawTake_cleared ht).mpr (h.order k hk)

theorem store_stored (h : b.Inv depth) (ht : b.putting t = some k) {l : ℕ} :
    (b.store depth t k v).Stored l ↔ b.Stored l ∨ l = k := by
  simp only [Board.Stored, Board.store, update_ne_iff]
  constructor
  · rintro ⟨hlt, -, hother⟩
    by_cases hl : l = k
    · exact Or.inr hl
    · refine Or.inl ⟨hlt, fun u hu => ?_⟩
      by_cases hut : u = t
      · rw [hut, ht] at hu
        exact hl (Option.some.inj hu).symm
      · exact hother u hut hu
  · rintro (⟨hlt, hother⟩ | rfl)
    · exact ⟨hlt, by simp, fun u _ => hother u⟩
    · exact ⟨h.putting_lt t l ht, by simp, fun u hut hu =>
        hut (h.putting_apart u t l l hu ht rfl)⟩

theorem Board.Inv.store (h : b.Inv depth) (hdepth : 0 < depth) (ht : b.putting t = some k)
    (hslot : b.slots (k % depth) = none) (hv : b.log[k]? = some v) :
    (b.store depth t k v).Inv depth where
  putting_lt := fun u l hu => h.putting_lt u l (update_none_some hu)
  taking_lt := h.taking_lt
  putting_apart := fun u w l m hu hw => h.putting_apart u w l m (update_none_some hu)
    (update_none_some hw)
  taking_apart := h.taking_apart
  full := by
    intro l w hl hnot hw
    simp only [Board.store] at hw ⊢
    obtain hl | rfl := (store_stored h ht).mp hl
    · have hfull := h.full l w hl hnot hw
      have hne : l % depth ≠ k % depth := by
        intro he
        rw [he, hslot] at hfull
        simp at hfull
      rwa [Function.update_of_ne hne]
    · rw [Function.update_self, ← hv, hw]
  empty := by
    intro i w hi
    by_cases hik : i = k % depth
    · exact ⟨k, hik.symm, (store_stored h ht).mpr (Or.inr rfl),
        fun hc => not_stored ht (h.stored k hc)⟩
    · simp only [Board.store, Function.update_of_ne hik] at hi
      obtain ⟨l, hmod, hl, hnot⟩ := h.empty i w hi
      exact ⟨l, hmod, (store_stored h ht).mpr (Or.inl hl), hnot⟩
  stored := fun l hl => (store_stored h ht).mpr (Or.inl (h.stored l hl))
  order := by
    intro l hl
    obtain hl | hl := (store_stored h ht).mp hl
    · exact h.order l hl
    · exact h.seen_empty hdepth ht hslot hl

theorem clear_cleared (h : b.Inv depth) (ht : b.taking t = some k) {l : ℕ} :
    (b.clear depth t k).Cleared l ↔ b.Cleared l ∨ l = k := by
  simp only [Board.Cleared, Board.clear, update_ne_iff]
  constructor
  · rintro ⟨hlt, -, hother⟩
    by_cases hl : l = k
    · exact Or.inr hl
    · refine Or.inl ⟨hlt, fun u hu => ?_⟩
      by_cases hut : u = t
      · rw [hut, ht] at hu
        exact hl (Option.some.inj hu).symm
      · exact hother u hut hu
  · rintro (⟨hlt, hother⟩ | rfl)
    · exact ⟨hlt, by simp, fun u _ => hother u⟩
    · exact ⟨h.taking_lt t l ht, by simp, fun u hut hu =>
        hut (h.taking_apart u t l l hu ht rfl)⟩

theorem Board.Inv.clear (h : b.Inv depth) (ht : b.taking t = some k)
    (hslot : b.slots (k % depth) = some v) : (b.clear depth t k).Inv depth where
  putting_lt := h.putting_lt
  taking_lt := fun u l hu => h.taking_lt u l (update_none_some hu)
  putting_apart := h.putting_apart
  taking_apart := fun u w l m hu hw => h.taking_apart u w l m (update_none_some hu)
    (update_none_some hw)
  full := by
    intro l w hl hnot hw
    rw [clear_cleared h ht, not_or] at hnot
    have hne : l % depth ≠ k % depth := fun he =>
      hnot.2 (h.apart hl hnot.1 (h.seen_full ht hslot).1 (not_cleared ht) he)
    simp only [Board.clear, Function.update_of_ne hne]
    exact h.full l w hl hnot.1 hw
  empty := by
    intro i w hi
    by_cases hik : i = k % depth
    · simp [Board.clear, hik] at hi
    · simp only [Board.clear, Function.update_of_ne hik] at hi
      obtain ⟨l, hmod, hl, hnot⟩ := h.empty i w hi
      refine ⟨l, hmod, hl, fun hc => ?_⟩
      obtain hc | rfl := (clear_cleared h ht).mp hc
      · exact hnot hc
      · exact hik hmod.symm
  stored := by
    intro l hl
    obtain hl | rfl := (clear_cleared h ht).mp hl
    · exact h.stored l hl
    · exact (h.seen_full ht hslot).1
  order := fun l hl => (clear_cleared h ht).mpr (Or.inl (h.order l hl))

end Steps

end Mixnet.TicketSlots
