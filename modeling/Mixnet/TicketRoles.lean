import Mixnet.TicketRing

/-! Rings whose threads have roles. One taker makes room for any number of putters as long as there
are no more values than slots, and one putter makes room for any number of takers. The values in the
ring and in the hands of its threads are neither lost nor doubled, and a taker that sleeps has
nothing to take or is about to be woken. -/
namespace Mixnet.TicketRing
open TicketSlots
variable {C α T : Type*}

section Content

/-- The value that a thread has in hand: the one of its take ticket, or the one that it is about to
put. -/
def Pc.hand (log : List α) : Pc C α → Multiset α
  | .await _ _ k => log[k]?.toList
  | .clear _ _ _ v | .retract v | .put v => {v}
  | .returned r => r.toList
  | _ => 0

/-- All values: those without a take ticket, and those in the hands of the threads. -/
def State.content [Fintype T] (s : State T C α) : Multiset α :=
  (s.ring.log.drop s.ring.taken : List α) + ∑ t, (s.pc t).hand s.ring.log

variable [Fintype T] {s s' : State T C α} {t : T}

theorem card_hand_le (s : State T C α) (ts : Finset T) :
    (s.ring.log.length - s.ring.taken) + ∑ t ∈ ts, ((s.pc t).hand s.ring.log).card ≤
      s.content.card := by
  rw [State.content, Multiset.card_add, Multiset.coe_card, List.length_drop, Multiset.card_sum]
  exact Nat.add_le_add_left (Finset.sum_le_univ_sum_of_nonneg fun _ => Nat.zero_le _) _

theorem content_frame [DecidableEq T] {r : Ring C α} {p : Pc C α} (hlog : r.log = s.ring.log)
    (htaken : r.taken = s.ring.taken) (hhand : p.hand s.ring.log = (s.pc t).hand s.ring.log) :
    (⟨r, Function.update s.pc t p⟩ : State T C α).content = s.content := by
  simp only [State.content, hlog, htaken]
  rw [sum_update_of_eq (w := fun p : Pc C α => p.hand s.ring.log) hhand]

variable [AddCommGroup C] [One C] {I : Indexing C}

theorem Inv.taken_le (h : Inv I s) : s.ring.taken ≤ s.ring.log.length := by
  have hlead := h.lead ∅
  rw [Finset.sum_empty] at hlead
  omega

theorem Inv.taken_lt (h : Inv I s) {a : Attempt} (hp : s.pc t = .draw a) :
    s.ring.taken < s.ring.log.length := by
  have hlead := h.lead {t}
  rw [Finset.sum_singleton, hp] at hlead
  simp only [Pc.owed, Pc.given] at hlead
  omega

variable [DecidableEq T]

theorem content_put (h : Inv I s) {v : α} (hp : s.pc t = .put v) :
    (⟨{ s.ring with putpos := s.ring.putpos + 1, log := s.ring.log ++ [v] },
      Function.update s.pc t (.vacant s.ring.putpos s.ring.log.length v)⟩ :
        State T C α).content = s.content := by
  have hsame : ∀ u, (s.pc u).hand (s.ring.log ++ [v]) = (s.pc u).hand s.ring.log := by
    intro u
    cases hpu : s.pc u <;> simp only [Pc.hand]
    case await a pos k =>
      have hk := h.board.taking_lt u k (by simp [State.board, hpu, Pc.taking])
      rw [List.getElem?_append_left (lt_of_lt_of_le hk h.taken_le)]
  have hsum := sum_update s.pc (fun p : Pc C α => p.hand (s.ring.log ++ [v])) t
    (.vacant s.ring.putpos s.ring.log.length v)
  have hhand : (Pc.vacant s.ring.putpos s.ring.log.length v : Pc C α).hand (s.ring.log ++ [v]) =
      0 := rfl
  simp only [hhand, hsame, add_zero] at hsum
  rw [hp] at hsum
  simp only [State.content, List.drop_append_of_le_length h.taken_le]
  rw [← hsum, ← Multiset.coe_add, add_assoc]
  congr 1
  exact add_comm _ _

theorem content_draw (h : Inv I s) {a : Attempt} (hp : s.pc t = .draw a) :
    (⟨{ s.ring with takepos := s.ring.takepos + 1, taken := s.ring.taken + 1 },
      Function.update s.pc t (.await a s.ring.takepos s.ring.taken)⟩ :
        State T C α).content = s.content := by
  have hlt := h.taken_lt hp
  have hsum := sum_update s.pc (fun p : Pc C α => p.hand s.ring.log) t
    (.await a s.ring.takepos s.ring.taken)
  have hhand : (s.pc t).hand s.ring.log = 0 := by
    rw [hp]
    rfl
  have hnew : (Pc.await a s.ring.takepos s.ring.taken : Pc C α).hand s.ring.log =
      {s.ring.log[s.ring.taken]} := by
    rw [Pc.hand, List.getElem?_eq_getElem hlt]
    rfl
  simp only [hhand, hnew, add_zero] at hsum
  simp only [State.content]
  rw [hsum, List.drop_eq_getElem_cons hlt, ← Multiset.cons_coe, ← Multiset.singleton_add]
  abel

variable [DecidableEq C]

/-- No instruction loses a value or doubles one. -/
theorem content_move (h : Inv I s) (hs : s.move I t = some s') : s'.content = s.content := by
  obtain ⟨r, p, hn, rfl⟩ := State.move_cases hs
  have hvalid := h.valid t
  cases hp : s.pc t <;> rw [hp] at hn hvalid <;>
    simp only [next, Option.some.injEq, Prod.mk.injEq, reduceCtorEq] at hn
  case sleep =>
    split_ifs at hn
    obtain ⟨rfl, rfl⟩ := Prod.mk.inj (Option.some.inj hn)
    exact content_frame rfl rfl (by rw [hp]; rfl)
  all_goals
    obtain ⟨rfl, rfl⟩ := hn
  case put v => exact content_put h hp
  case draw a => exact content_draw h hp
  case await a pos k =>
    have hpos : I.slot pos = k % I.depth := hvalid
    rw [hpos]
    split
    next v hv =>
      have htaking : s.board.taking t = some k := by simp [State.board, hp, Pc.taking]
      obtain ⟨-, hlog⟩ := h.board.seen_full htaking hv
      refine content_frame rfl rfl ?_
      rw [hp, Pc.hand, Pc.hand, show s.ring.log[k]? = some v from hlog]
      rfl
    next => exact content_frame rfl rfl (by rw [hp])
  case claim a => split_ifs <;> exact content_frame rfl rfl (by rw [hp]; rfl)
  case clear a pos k v => split_ifs <;> exact content_frame rfl rfl (by rw [hp]; rfl)
  case giveBack a => cases a <;> exact content_frame rfl rfl (by rw [hp]; rfl)
  case vacant =>
    split
    · exact content_frame rfl rfl (by rw [hp])
    · exact content_frame rfl rfl (by rw [hp]; rfl)
  case check => split_ifs <;> exact content_frame rfl rfl (by rw [hp]; rfl)
  all_goals exact content_frame rfl rfl (by rw [hp]; rfl)

variable {x : State T C α}

omit [AddCommGroup C] [One C] [DecidableEq C] in
theorem content_call {op : Op α} (hs : s.call t op = some x) :
    x.content = s.content + (op.start : Pc C α).hand s.ring.log := by
  obtain ⟨hp, rfl⟩ := State.call_cases hs
  have hsum := sum_update s.pc (fun p : Pc C α => p.hand s.ring.log) t op.start
  have hhand : (s.pc t).hand s.ring.log = 0 := by
    rw [hp]
    rfl
  simp only [hhand, add_zero] at hsum
  simp only [State.content, hsum]
  rw [add_assoc]

omit [AddCommGroup C] [One C] [DecidableEq C] in
theorem content_leave {r : Option α} (hs : s.leave t = some (r, x)) :
    x.content + (r.toList : Multiset α) = s.content := by
  obtain ⟨hp, rfl⟩ := State.leave_cases hs
  have hsum := sum_update s.pc (fun p : Pc C α => p.hand s.ring.log) t .idle
  have hhand : (s.pc t).hand s.ring.log = r.toList := by
    rw [hp]
    rfl
  have hidle : (Pc.idle : Pc C α).hand s.ring.log = 0 := rfl
  simp only [hhand, hidle, add_zero] at hsum
  simp only [State.content, add_assoc, hsum]

end Content

section Held

def Pc.carried : Pc C α → Multiset α
  | .put v | .vacant _ _ v | .store _ _ v | .retract v => {v}
  | .returned r => r.toList
  | _ => 0

/-- All values: those in the slots, and those that the threads carry. -/
def State.held [Fintype T] [AddMonoid C] [One C] (I : Indexing C) (s : State T C α) :
    Multiset α :=
  ∑ i ∈ Finset.range I.depth, ((s.ring.slots i).toList : Multiset α) + ∑ t, (s.pc t).carried

variable [Fintype T] [AddCommGroup C] [One C] {I : Indexing C} {s s' : State T C α} {t : T}

theorem held_holding {values : List α} (hlen : values.length ≤ I.depth) :
    (State.holding values : State T C α).held I = values := by
  have hslots : ∀ (values : List α) n, values.length ≤ n →
      ∑ i ∈ Finset.range n, (values[i]?.toList : Multiset α) = values := by
    intro values
    induction values with
    | nil => simp
    | cons v values ih =>
      intro n hn
      obtain ⟨m, rfl⟩ := Nat.exists_eq_add_one_of_ne_zero (Nat.ne_zero_of_lt hn)
      rw [Finset.sum_range_succ']
      simp only [List.getElem?_cons_succ, List.getElem?_cons_zero]
      rw [ih m (Nat.le_of_succ_le_succ hn)]
      exact add_comm _ _
  simp only [State.held, State.holding, hslots values I.depth hlen, Pc.carried,
    Finset.sum_const_zero, add_zero]

variable [DecidableEq T]

theorem held_frame {r : Ring C α} {p : Pc C α} (hslots : r.slots = s.ring.slots)
    (hcarried : p.carried = (s.pc t).carried) :
    (⟨r, Function.update s.pc t p⟩ : State T C α).held I = s.held I := by
  simp only [State.held, hslots]
  rw [sum_update_of_eq (w := Pc.carried) hcarried]

theorem held_swap {r : Ring C α} {p : Pc C α} {i : ℕ} (hi : i < I.depth) {x : Option α}
    (hslots : r.slots = Function.update s.ring.slots i x)
    (hsame : (x.toList : Multiset α) + p.carried =
      ((s.ring.slots i).toList : Multiset α) + (s.pc t).carried) :
    (⟨r, Function.update s.pc t p⟩ : State T C α).held I = s.held I := by
  have hslot := sum_update_mem s.ring.slots (fun x => (x.toList : Multiset α))
    (Finset.mem_range.mpr hi) x
  have hpc := sum_update s.pc Pc.carried t p
  simp only [State.held, hslots]
  refine add_right_cancel
    (b := ((s.ring.slots i).toList : Multiset α) + (s.pc t).carried) ?_
  rw [add_add_add_comm, hslot, hpc, add_add_add_comm, hsame]

variable [DecidableEq C]

theorem held_move (h : Inv I s) (hs : s.move I t = some s') : s'.held I = s.held I := by
  obtain ⟨r, p, hn, rfl⟩ := State.move_cases hs
  have hvalid := h.valid t
  cases hp : s.pc t <;> rw [hp] at hn hvalid <;>
    simp only [next, Option.some.injEq, Prod.mk.injEq, reduceCtorEq] at hn
  case sleep =>
    split_ifs at hn
    obtain ⟨rfl, rfl⟩ := Prod.mk.inj (Option.some.inj hn)
    exact held_frame rfl (by rw [hp]; rfl)
  all_goals
    obtain ⟨rfl, rfl⟩ := hn
  case store pos k v =>
    obtain ⟨hpos, -, hslot⟩ : I.slot pos = k % I.depth ∧ _ := hvalid
    rw [hpos]
    refine held_swap (Nat.mod_lt k I.pos) rfl ?_
    rw [hslot, hp]
    exact add_comm _ _
  case clear a pos k v =>
    obtain ⟨hpos, hslot⟩ : I.slot pos = k % I.depth ∧ _ := hvalid
    rw [hpos]
    refine held_swap (Nat.mod_lt k I.pos) rfl ?_
    rw [hslot, hp]
    split_ifs <;> exact add_comm _ _
  case claim a => split_ifs <;> exact held_frame rfl (by rw [hp]; rfl)
  case await =>
    split
    · exact held_frame rfl (by rw [hp]; rfl)
    · exact held_frame rfl (by rw [hp])
  case giveBack a => cases a <;> exact held_frame rfl (by rw [hp]; rfl)
  case vacant =>
    split
    · exact held_frame rfl (by rw [hp])
    · exact held_frame rfl (by rw [hp]; rfl)
  case check => split_ifs <;> exact held_frame rfl (by rw [hp]; rfl)
  all_goals exact held_frame rfl (by rw [hp]; rfl)

omit [DecidableEq C] in
theorem held_call {op : Op α} (hs : s.call t op = some s') :
    s'.held I = s.held I + (op.start : Pc C α).carried := by
  obtain ⟨hp, rfl⟩ := State.call_cases hs
  have hpc := sum_update s.pc Pc.carried t op.start
  have hidle : (s.pc t).carried = 0 := by
    rw [hp]
    rfl
  rw [hidle, add_zero] at hpc
  simp only [State.held, hpc, add_assoc]

omit [DecidableEq C] in
theorem held_leave {r : Option α} (hs : s.leave t = some (r, s')) :
    s'.held I + (r.toList : Multiset α) = s.held I := by
  obtain ⟨hp, rfl⟩ := State.leave_cases hs
  have hpc := sum_update s.pc Pc.carried t .idle
  have hreturned : (s.pc t).carried = r.toList := by
    rw [hp]
    rfl
  have hidle : (Pc.idle : Pc C α).carried = 0 := rfl
  rw [hreturned, hidle, add_zero] at hpc
  simp only [State.held, add_assoc, hpc]

end Held

section Roles

def Pc.Takes : Pc C α → Prop
  | .claim _ | .draw _ | .await _ _ _ | .clear _ _ _ _ | .giveBack _ | .announce | .retract _
  | .sleep => True
  | _ => False

def Pc.Puts : Pc C α → Prop
  | .put _ | .vacant _ _ _ | .store _ _ _ | .publish | .check | .unblock | .post => True
  | _ => False

/-- One of the two things that threads do: who is at it, the ticket that it takes, and the number of
such tickets. -/
structure Role (C α : Type*) where
  acts : Pc C α → Prop
  ticket : Pc C α → Option ℕ
  drawn : Ring C α → ℕ

def taker : Role C α := ⟨Pc.Takes, Pc.taking, Ring.taken⟩

def putter : Role C α := ⟨Pc.Puts, Pc.putting, fun r => r.log.length⟩

/-- Only `c` has the role, so the ticket that it holds is the last one. -/
structure Sole (role : Role C α) (s : State T C α) (c : T) : Prop where
  only : ∀ t, role.acts (s.pc t) → t = c
  last : ∀ k, role.ticket (s.pc c) = some k → k + 1 = role.drawn s.ring

theorem takes_of_taking {p : Pc C α} {k : ℕ} (h : p.taking = some k) : p.Takes := by
  cases p <;> simp [Pc.taking, Pc.Takes] at h ⊢

theorem puts_of_putting {p : Pc C α} {k : ℕ} (h : p.putting = some k) : p.Puts := by
  cases p <;> simp [Pc.putting, Pc.Puts] at h ⊢

variable [AddCommGroup C] [One C] [DecidableEq C] {I : Indexing C}

/-- No instruction begins an action, and only an action draws a ticket. -/
def Role.Sound (I : Indexing C) (role : Role C α) : Prop :=
  ∀ r p r' p', next I r p = some (r', p') → (role.acts p' → role.acts p) ∧
    (role.drawn r' = role.drawn r ∧ (role.ticket p' = role.ticket p ∨ role.ticket p' = none) ∨
      role.acts p ∧ role.drawn r' = role.drawn r + 1 ∧ role.ticket p' = some (role.drawn r))

theorem taker_sound (I : Indexing C) : (taker : Role C α).Sound I := by
  intro r p r' p' h
  cases p <;> simp only [next, Option.some.injEq, Prod.mk.injEq, reduceCtorEq] at h
  case sleep =>
    split_ifs at h
    obtain ⟨rfl, rfl⟩ := Prod.mk.inj (Option.some.inj h)
    exact ⟨id, Or.inl ⟨rfl, Or.inl rfl⟩⟩
  all_goals
    obtain ⟨rfl, rfl⟩ := h
  case claim => split_ifs <;> exact ⟨id, Or.inl ⟨rfl, Or.inl rfl⟩⟩
  case draw => exact ⟨id, Or.inr ⟨trivial, rfl, rfl⟩⟩
  case await => split <;> exact ⟨id, Or.inl ⟨rfl, Or.inl rfl⟩⟩
  case clear => exact ⟨fun _ => trivial, Or.inl ⟨rfl, Or.inr (by split_ifs <;> rfl)⟩⟩
  case giveBack a => cases a <;> exact ⟨fun _ => trivial, Or.inl ⟨rfl, Or.inl rfl⟩⟩
  case retract => exact ⟨fun _ => trivial, Or.inl ⟨rfl, Or.inl rfl⟩⟩
  case vacant => split <;> exact ⟨id, Or.inl ⟨rfl, Or.inl rfl⟩⟩
  case check => split_ifs <;> exact ⟨id, Or.inl ⟨rfl, Or.inl rfl⟩⟩
  all_goals exact ⟨id, Or.inl ⟨rfl, Or.inl rfl⟩⟩

theorem putter_sound (I : Indexing C) : (putter : Role C α).Sound I := by
  intro r p r' p' h
  cases p <;> simp only [next, Option.some.injEq, Prod.mk.injEq, reduceCtorEq] at h
  case sleep =>
    split_ifs at h
    obtain ⟨rfl, rfl⟩ := Prod.mk.inj (Option.some.inj h)
    exact ⟨id, Or.inl ⟨rfl, Or.inl rfl⟩⟩
  all_goals
    obtain ⟨rfl, rfl⟩ := h
  case claim => split_ifs <;> exact ⟨id, Or.inl ⟨rfl, Or.inl rfl⟩⟩
  case await => split <;> exact ⟨id, Or.inl ⟨rfl, Or.inl rfl⟩⟩
  case clear => split_ifs <;> exact ⟨id, Or.inl ⟨rfl, Or.inl rfl⟩⟩
  case giveBack a => cases a <;> exact ⟨id, Or.inl ⟨rfl, Or.inl rfl⟩⟩
  case put => exact ⟨id, Or.inr ⟨trivial, by simp [putter], rfl⟩⟩
  case vacant => split <;> exact ⟨id, Or.inl ⟨rfl, Or.inl rfl⟩⟩
  case store => exact ⟨id, Or.inl ⟨rfl, Or.inr rfl⟩⟩
  case check => split_ifs <;> exact ⟨fun _ => trivial, Or.inl ⟨rfl, Or.inl rfl⟩⟩
  case post => exact ⟨fun _ => trivial, Or.inl ⟨rfl, Or.inl rfl⟩⟩
  all_goals exact ⟨id, Or.inl ⟨rfl, Or.inl rfl⟩⟩

variable [DecidableEq T] {s s' : State T C α} {c t : T} {role : Role C α}

theorem Sole.move (h : Sole role s c) (hrole : role.Sound I) (hs : s.move I t = some s') :
    Sole role s' c := by
  obtain ⟨r, p, hn, rfl⟩ := State.move_cases hs
  obtain ⟨hacts, hdraw⟩ := hrole _ _ _ _ hn
  refine ⟨fun u hu => ?_, fun k hk => ?_⟩
  · dsimp only at hu
    by_cases hut : u = t
    · subst hut
      rw [Function.update_self] at hu
      exact h.only u (hacts hu)
    · rw [Function.update_of_ne hut] at hu
      exact h.only u hu
  · dsimp only at hk
    by_cases hct : c = t
    · subst hct
      rw [Function.update_self] at hk
      obtain ⟨hsame, hold | hnone⟩ | ⟨-, hmore, hnew⟩ := hdraw
      · rw [hsame]
        exact h.last k (hold ▸ hk)
      · simp [hnone] at hk
      · rw [hnew] at hk
        rw [hmore, Option.some.inj hk]
    · rw [Function.update_of_ne hct] at hk
      obtain ⟨hsame, -⟩ | ⟨hact, -⟩ := hdraw
      · rw [hsame]
        exact h.last k hk
      · exact absurd (h.only t hact).symm hct

omit [AddCommGroup C] [One C] [DecidableEq C] in
theorem Sole.frame (h : Sole role s c) {p : Pc C α} (hacts : role.acts p → t = c)
    (hticket : role.ticket p = none) : Sole role ⟨s.ring, Function.update s.pc t p⟩ c where
  only := by
    intro u hu
    dsimp only at hu
    by_cases hut : u = t
    · subst hut
      rw [Function.update_self] at hu
      exact hacts hu
    · rw [Function.update_of_ne hut] at hu
      exact h.only u hu
  last := by
    intro k hk
    dsimp only at hk
    by_cases hct : c = t
    · subst hct
      rw [Function.update_self, hticket] at hk
      simp at hk
    · rw [Function.update_of_ne hct] at hk
      exact h.last k hk

end Roles

section Room
variable {s : State T C α} {c t : T}

theorem not_cleared_cases {k : ℕ} (hs : Sole taker s c) (h : ¬ s.board.Cleared k) :
    s.ring.taken ≤ k ∨ s.ring.taken = k + 1 ∧ (s.pc c).taking = some k := by
  by_cases hk : s.ring.taken ≤ k
  · exact Or.inl hk
  · have hholder : ∃ u, (s.pc u).taking = some k := by
      by_contra hno
      exact h ⟨Nat.not_le.mp hk, fun u hu => hno ⟨u, hu⟩⟩
    obtain ⟨u, hu⟩ := hholder
    obtain rfl := hs.only u (takes_of_taking hu)
    exact Or.inr ⟨(hs.last k hu).symm, hu⟩

theorem card_hand_taking {k : ℕ} (hk : k < s.ring.log.length) (h : (s.pc t).taking = some k) :
    ((s.pc t).hand s.ring.log).card = 1 := by
  cases hp : s.pc t <;> simp only [hp, Pc.taking, Option.some.injEq, reduceCtorEq] at h
  case await =>
    subst h
    rw [Pc.hand, List.getElem?_eq_getElem hk]
    rfl
  case clear => rfl

variable [Fintype T] [DecidableEq T]

theorem window_le {k : ℕ} (hs : Sole taker s c) (hk : k < s.ring.log.length)
    (h : ¬ s.board.Cleared k) (hp : ¬ (s.pc t).Takes) :
    s.ring.log.length - k + ((s.pc t).hand s.ring.log).card ≤ s.content.card := by
  obtain htaken | ⟨htaken, hc⟩ := not_cleared_cases hs h
  · have hcard := card_hand_le s {t}
    rw [Finset.sum_singleton] at hcard
    omega
  · have htc : t ≠ c := fun he => hp (he ▸ takes_of_taking hc)
    have hcard := card_hand_le s {t, c}
    rw [Finset.sum_pair htc, card_hand_taking hk hc] at hcard
    omega

variable [AddCommGroup C] [One C] {I : Indexing C}

/-- With one taker and no more values than slots, a putter meets no other putter at its slot. -/
theorem room_of_taker (h : Inv I s) (hs : Sole taker s c) (hcard : s.content.card ≤ I.depth)
    (t : T) : s.Room I t := by
  refine ⟨fun v hp u l hu hmod => ?_, fun a hp u l hu => ?_⟩
  · have hlt : l < s.ring.log.length := h.board.putting_lt u l hu
    have hnot : ¬ s.board.Cleared l := fun hc => not_stored (b := s.board) hu (h.board.stored l hc)
    have hround : l + I.depth ≤ s.ring.log.length := Nat.ModEq.add_le_of_lt hmod hlt
    have hwindow := window_le (t := t) hs hlt hnot (by simp [hp, Pc.Takes])
    have hhand : ((s.pc t).hand s.ring.log).card = 1 := by
      rw [hp]
      rfl
    omega
  · have htc := hs.only t (by rw [hp]; trivial)
    have huc := hs.only u (takes_of_taking hu)
    rw [huc, ← htc, hp] at hu
    simp [Pc.taking] at hu

theorem vacant_of_taker (h : Inv I s) (hs : Sole taker s c) (hcard : s.content.card ≤ I.depth)
    {k : ℕ} (hp : (s.pc t).putting = some k) : s.ring.slots (k % I.depth) = none := by
  by_contra hne
  obtain ⟨v, hv⟩ := Option.ne_none_iff_exists'.mp hne
  obtain ⟨l, hmod, hstored, hnot⟩ := h.board.empty _ v hv
  have hk : k < s.ring.log.length := h.board.putting_lt t k hp
  have hnk : ¬ s.board.Stored k := not_stored (b := s.board) hp
  obtain hlt | heq | hlt := Nat.lt_trichotomy l k
  · have hround : l + I.depth ≤ k := Nat.ModEq.add_le_of_lt hmod hlt
    have hputs : ¬ (s.pc t).Takes := by
      cases hpt : s.pc t <;> simp [hpt, Pc.putting, Pc.Takes] at hp ⊢
    have hwindow := window_le (t := t) hs hstored.1 hnot hputs
    omega
  · exact hnk (heq ▸ hstored)
  · exact hnk (h.board.stored k (h.board.cleared_before hstored hlt hmod.symm))

/-- With one putter, the values that have been claimed are in their slots. -/
theorem stored_of_putter (h : Inv I s) (hs : Sole putter s c) {k : ℕ} (n : ℕ) (ts : Finset T)
    (hts : ∀ t ∈ ts, ¬ (s.pc t).Puts) (hn : (n : ℤ) ≤ ∑ t ∈ ts, ((s.pc t).owed - (s.pc t).given))
    (hk : k < s.ring.taken + n) : s.board.Stored k := by
  have hlead := h.lead ts
  refine ⟨?_, fun u hu => ?_⟩
  · change k < s.ring.log.length
    omega
  · change (s.pc u).putting = some k at hu
    have hputs := puts_of_putting hu
    have hout : u ∉ ts := fun hmem => hts u hmem hputs
    obtain rfl := hs.only u hputs
    have hlast : k + 1 = s.ring.log.length := hs.last k hu
    have hlead' := h.lead (insert u ts)
    rw [Finset.sum_insert hout] at hlead'
    have hone : (s.pc u).owed - (s.pc u).given = 1 := by
      cases hp : s.pc u <;> simp [hp, Pc.putting, Pc.owed, Pc.given] at hu ⊢
    omega

theorem room_of_putter (h : Inv I s) (hs : Sole putter s c) (t : T) : s.Room I t := by
  refine ⟨fun v hp u l hu => ?_, fun a hp u l hu hmod => ?_⟩
  · have htc := hs.only t (by rw [hp]; trivial)
    have huc := hs.only u (puts_of_putting hu)
    rw [huc, ← htc, hp] at hu
    simp [Pc.putting] at hu
  · have hlt : l < s.ring.taken := h.board.taking_lt u l hu
    have hround : l + I.depth ≤ s.ring.taken := Nat.ModEq.add_le_of_lt hmod hlt
    have hstored : s.board.Stored (l + I.depth) := by
      refine stored_of_putter h hs 1 {t} ?_ ?_ (by omega)
      · intro w hw
        rw [Finset.mem_singleton.mp hw, hp]
        exact id
      · rw [Finset.sum_singleton, hp]
        rfl
    exact not_cleared (b := s.board) hu (h.board.order l hstored)

theorem filled_of_putter (h : Inv I s) (hs : Sole putter s c) {k : ℕ}
    (hp : (s.pc t).taking = some k) : ∃ v, s.ring.slots (k % I.depth) = some v := by
  have hstored : s.board.Stored k := by
    refine stored_of_putter h hs 0 ∅ ?_ ?_ (h.board.taking_lt t k hp)
    · simp
    · simp
  obtain ⟨v, hv⟩ := hstored.value
  exact ⟨v, h.board.full k v hstored (not_cleared (b := s.board) hp) hv⟩

end Room

section Sleep

def Pc.Waking : Pc C α → Prop
  | .check | .unblock | .post => True
  | _ => False

def Pc.Resting : Pc C α → Prop
  | .giveBack .announced | .sleep => True
  | _ => False

theorem not_takes_of_waking {p : Pc C α} (h : p.Waking) : ¬ p.Resting := by
  cases p <;> simp [Pc.Waking, Pc.Resting] at h ⊢

theorem given_eq_zero {p : Pc C α} (h : ¬ p.Takes) : p.given = 0 := by
  cases p <;> simp [Pc.Takes, Pc.given] at h ⊢

/-- A putter that has drawn its ticket and has not added its value to the count. -/
def Pc.unpublished : Pc C α → Bool
  | .vacant _ _ _ | .store _ _ _ | .publish => true
  | _ => false

variable [Fintype T] {s : State T C α} {c : T}

/-- A taker that rests without a wakeup has nothing to claim, or a putter will wake it. -/
def Awake (s : State T C α) (c : T) : Prop :=
  (s.pc c).Resting → s.ring.sem = 0 →
    s.ring.count + ∑ t, (s.pc t).given ≤ 0 ∨ ∃ u, (s.pc u).Waking

variable [AddCommGroup C] [One C]

omit [Fintype T] in
theorem announced_eq_zero {p : Pc C α} (h : ¬ p.Takes) : p.announced = 0 := by
  cases p <;> simp [Pc.Takes, Pc.announced] at h ⊢

omit [Fintype T] in
theorem announced_of_resting {p : Pc C α} (h : p.Resting) : p.announced = 1 := by
  cases p with
  | giveBack a => cases a <;> simp [Pc.Resting, Pc.announced] at h ⊢
  | sleep => rfl
  | _ => exact absurd h id

theorem sum_announced (hs : Sole taker s c) (h : (s.pc c).Resting) :
    ∑ t, (s.pc t).announced = 1 := by
  rw [Finset.sum_eq_single c]
  · exact announced_of_resting h
  · intro t _ hne
    exact announced_eq_zero fun ht => hne (hs.only t ht)
  · intro hc
    exact absurd (Finset.mem_univ c) hc

theorem unclaimed_le {I : Indexing C} (h : Inv I s) (hs : Sole taker s c)
    (hp : (s.pc c).owed = 0) (hcount : s.ring.count ≤ 0) :
    s.ring.log.length ≤
      s.ring.taken + (Finset.univ.filter fun t => (s.pc t).unpublished = true).card := by
  have hle : ∑ t, (s.pc t).owed ≤ ∑ t, if (s.pc t).unpublished = true then (1 : ℤ) else 0 := by
    refine Finset.sum_le_sum fun t _ => ?_
    by_cases htakes : (s.pc t).Takes
    · rw [hs.only t htakes, hp]
      split_ifs <;> decide
    · cases hpt : s.pc t <;> simp [hpt, Pc.Takes, Pc.owed, Pc.unpublished] at htakes ⊢
  rw [Finset.sum_boole] at hle
  have howed := h.owed
  omega

variable [DecidableEq C] {I : Indexing C} {r r' : Ring C α} {p p' : Pc C α}

theorem next_resting (h : next I r p = some (r', p')) (hp : p'.Resting) : r'.sem = r.sem ∧
    (p = .claim .announced ∧ r.count ≤ 0 ∧ r'.count + p'.given = r.count ∨
      p.Resting ∧ r'.count + p'.given = r.count + p.given) := by
  cases p <;> simp only [next, Option.some.injEq, Prod.mk.injEq, reduceCtorEq] at h
  case sleep =>
    split_ifs at h
    obtain ⟨rfl, rfl⟩ := Prod.mk.inj (Option.some.inj h)
    exact absurd hp id
  all_goals
    obtain ⟨rfl, rfl⟩ := h
  case claim a =>
    split_ifs at hp ⊢ with hcount
    · exact absurd hp id
    · cases a with
      | announced => exact ⟨rfl, Or.inl ⟨rfl, Int.not_lt.mp hcount, by simp [Pc.given]⟩⟩
      | once | first => exact absurd hp id
  case giveBack a =>
    cases a with
    | announced => exact ⟨rfl, Or.inr ⟨trivial, by simp [Pc.given]⟩⟩
    | once | first => exact absurd hp id
  case await =>
    split at hp <;> exact absurd hp id
  case clear =>
    split_ifs at hp <;> exact absurd hp id
  case vacant =>
    split at hp <;> exact absurd hp id
  case check =>
    split_ifs at hp <;> exact absurd hp id
  all_goals exact absurd hp id

theorem next_waking (h : next I r p = some (r', p')) (hp : ¬ p.Takes) :
    r'.count = r.count ∧ r'.sem = r.sem ∧ ¬ p.Waking ∧ p'.given = 0 ∨ p'.Waking ∨ r'.sem ≠ 0 ∨
      p = .check ∧ r.blocked = 0 ∧ r' = r ∧ p' = .idle := by
  cases p <;> simp only [next, Option.some.injEq, Prod.mk.injEq, reduceCtorEq] at h
  case sleep => exact absurd trivial hp
  all_goals
    obtain ⟨rfl, rfl⟩ := h
  case claim => exact absurd trivial hp
  case draw => exact absurd trivial hp
  case await => exact absurd trivial hp
  case clear => exact absurd trivial hp
  case giveBack => exact absurd trivial hp
  case announce => exact absurd trivial hp
  case retract => exact absurd trivial hp
  case put => exact Or.inl ⟨rfl, rfl, id, rfl⟩
  case vacant => exact Or.inl ⟨rfl, rfl, id, by split <;> rfl⟩
  case store => exact Or.inl ⟨rfl, rfl, id, rfl⟩
  case publish => exact Or.inr (Or.inl trivial)
  case check =>
    split_ifs with hblocked
    · exact Or.inr (Or.inr (Or.inr ⟨rfl, hblocked, rfl, rfl⟩))
    · exact Or.inr (Or.inl trivial)
  case unblock => exact Or.inr (Or.inl trivial)
  case post => exact Or.inr (Or.inr (Or.inl (Nat.succ_ne_zero _)))

variable [DecidableEq T] {s' : State T C α} {t : T}

theorem Awake.other (ha : Awake s c) (h : Inv I s) (hs : Sole taker s c) (hone : (1 : C) ≠ 0)
    (htc : t ≠ c) (hn : next I s.ring (s.pc t) = some (r', p')) :
    Awake ⟨r', Function.update s.pc t p'⟩ c := by
  intro hrest hsem
  dsimp only at hrest hsem ⊢
  rw [Function.update_of_ne htc.symm] at hrest
  have hputs : ¬ (s.pc t).Takes := fun htakes => htc (hs.only t htakes)
  have hkeep : ∀ u, (s.pc u).Waking → u ≠ t → (Function.update s.pc t p' u).Waking := by
    intro u hu hut
    rwa [Function.update_of_ne hut]
  obtain ⟨hcount, hsame, hnot, hgiven⟩ | hwaking | hposted | ⟨hcheck, hblocked, rfl, rfl⟩ :=
    next_waking hn hputs
  · rw [hcount, sum_update_of_eq (w := Pc.given) (hgiven.trans (given_eq_zero hputs).symm)]
    obtain hle | ⟨u, hu⟩ := ha hrest (hsame ▸ hsem)
    · exact Or.inl hle
    · exact Or.inr ⟨u, hkeep u hu fun he => hnot (he ▸ hu)⟩
  · refine Or.inr ⟨t, ?_⟩
    rwa [Function.update_self]
  · exact absurd hsem hposted
  · -- the announcement is not in `blocked`, so its wakeup is under way
    have hawake := h.awake
    rw [hblocked, hsem, sum_announced hs hrest, zero_nsmul, zero_add, zero_add] at hawake
    obtain ⟨u, -, hu⟩ := Finset.exists_ne_zero_of_sum_ne_zero (hawake.trans_ne hone)
    have hpost : s.pc u = .post := by
      cases hpu : s.pc u <;> simp [hpu, Pc.posting] at hu ⊢
    refine Or.inr ⟨u, hkeep u (by rw [hpost]; trivial) ?_⟩
    rintro rfl
    rw [hpost] at hcheck
    cases hcheck

theorem Awake.move (ha : Awake s c) (h : Inv I s) (hs : Sole taker s c) (hone : (1 : C) ≠ 0)
    (hm : s.move I t = some s') : Awake s' c := by
  obtain ⟨r, p, hn, rfl⟩ := State.move_cases hm
  by_cases htc : t = c
  · subst htc
    intro hrest hsem
    dsimp only at hrest hsem ⊢
    rw [Function.update_self] at hrest
    have hsum := sum_update s.pc Pc.given t p
    obtain ⟨hsame, ⟨hclaim, hcount, hbal⟩ | ⟨hold, hbal⟩⟩ := next_resting hn hrest
    · left
      have hzero : ∑ u, (s.pc u).given = 0 := by
        refine Finset.sum_eq_zero fun u _ => ?_
        by_cases hut : u = t
        · rw [hut, hclaim]
          rfl
        · exact given_eq_zero fun htakes => hut (hs.only u htakes)
      rw [hclaim] at hsum
      have hfree : (Pc.claim .announced : Pc C α).given = 0 := rfl
      omega
    · obtain hle | ⟨u, hu⟩ := ha hold (hsame ▸ hsem)
      · left
        omega
      · right
        refine ⟨u, ?_⟩
        rwa [Function.update_of_ne]
        rintro rfl
        exact not_takes_of_waking hu hold
  · exact ha.other h hs hone htc hn

omit [AddCommGroup C] [One C] [DecidableEq C] in
theorem Awake.frame (ha : Awake s c) (hrest : ¬ p.Resting) (hgiven : p.given = (s.pc t).given)
    (hwaking : ¬ (s.pc t).Waking) : Awake ⟨s.ring, Function.update s.pc t p⟩ c := by
  intro hc hsem
  dsimp only at hc hsem ⊢
  have htc : c ≠ t := by
    rintro rfl
    rw [Function.update_self] at hc
    exact hrest hc
  rw [Function.update_of_ne htc] at hc
  rw [sum_update_of_eq (w := Pc.given) hgiven]
  obtain hle | ⟨u, hu⟩ := ha hc hsem
  · exact Or.inl hle
  · refine Or.inr ⟨u, ?_⟩
    rwa [Function.update_of_ne]
    rintro rfl
    exact hwaking hu

end Sleep

end Mixnet.TicketRing
