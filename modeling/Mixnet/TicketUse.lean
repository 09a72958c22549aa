import Mixnet.TicketRoles

/-! Rings in use: what calls, instructions and returns keep when one thread is the only taker or the
only putter, the order in which a single taker gets the values, and how many instructions an
operation has left. -/
namespace Mixnet.TicketRing
open TicketSlots
variable {C α T : Type*}

section Others
variable [DecidableEq T] {s s' : State T C α} {t : T}

theorem call_others {op : Op α} (hs : s.call t op = some s') (u : T) (hu : u ≠ t) :
    s'.pc u = s.pc u := by
  obtain ⟨-, rfl⟩ := State.call_cases hs
  exact Function.update_of_ne hu _ _

theorem leave_others {r : Option α} (hs : s.leave t = some (r, s')) (u : T) (hu : u ≠ t) :
    s'.pc u = s.pc u := by
  obtain ⟨-, rfl⟩ := State.leave_cases hs
  exact Function.update_of_ne hu _ _

theorem move_others [AddCommGroup C] [One C] [DecidableEq C] {I : Indexing C}
    (hs : s.move I t = some s') (u : T) (hu : u ≠ t) : s'.pc u = s.pc u := by
  obtain ⟨r, p, -, rfl⟩ := State.move_cases hs
  exact Function.update_of_ne hu _ _

theorem call_self {op : Op α} (hs : s.call t op = some s') : s'.pc t = op.start := by
  obtain ⟨-, rfl⟩ := State.call_cases hs
  exact Function.update_self _ _ _

theorem leave_self {r : Option α} (hs : s.leave t = some (r, s')) : s'.pc t = .idle := by
  obtain ⟨-, rfl⟩ := State.leave_cases hs
  exact Function.update_self _ _ _

theorem move_self [AddCommGroup C] [One C] [DecidableEq C] {I : Indexing C}
    (hs : s.move I t = some s') : next I s.ring (s.pc t) = some (s'.ring, s'.pc t) := by
  obtain ⟨r, p, hn, rfl⟩ := State.move_cases hs
  dsimp only
  rwa [Function.update_self]

end Others

section Sides
variable [AddCommGroup C] [One C] [Fintype T]

structure OneTaker (I : Indexing C) (s : State T C α) (c : T) : Prop where
  inv : Inv I s
  held : s.held I = s.content
  sole : Sole taker s c
  awake : Awake s c

structure OnePutter (I : Indexing C) (s : State T C α) (c : T) : Prop where
  inv : Inv I s
  held : s.held I = s.content
  sole : Sole putter s c

variable {I : Indexing C} {s s' : State T C α} {c t : T} {op : Op α} {r : Option α}

omit [One C] in
theorem content_holding (values : List α) :
    (State.holding values : State T C α).content = values := by
  simp [State.content, State.holding, Pc.hand]

theorem OneTaker.holding {values : List α} (hlen : values.length ≤ I.depth)
    (hfull : values.length % I.depth = 0) (c : T) :
    OneTaker I (State.holding values : State T C α) c where
  inv := Inv.holding hlen hfull
  held := (held_holding hlen).trans (content_holding values).symm
  sole := ⟨fun _ h => absurd h id, nofun⟩
  awake := fun h => absurd h id

theorem OnePutter.holding {values : List α} (hlen : values.length ≤ I.depth)
    (hfull : values.length % I.depth = 0) (c : T) :
    OnePutter I (State.holding values : State T C α) c where
  inv := Inv.holding hlen hfull
  held := (held_holding hlen).trans (content_holding values).symm
  sole := ⟨fun _ h => absurd h id, nofun⟩

variable [DecidableEq T]

theorem held_content_call (h : s.held I = s.content) (hs : s.call t op = some s') :
    s'.held I = s'.content := by
  rw [held_call hs, content_call hs, h]
  cases op <;> rfl

theorem held_content_leave (h : s.held I = s.content) (hs : s.leave t = some (r, s')) :
    s'.held I = s'.content :=
  add_right_cancel ((held_leave hs).trans (h.trans (content_leave hs).symm))

theorem OneTaker.call (h : OneTaker I s c) (hop : (op.start : Pc C α).Takes → t = c)
    (hs : s.call t op = some s') : OneTaker I s' c := by
  refine ⟨h.inv.call hs, held_content_call h.held hs, ?_, ?_⟩
  · obtain ⟨-, rfl⟩ := State.call_cases hs
    exact h.sole.frame hop (by cases op <;> rfl)
  · obtain ⟨hp, rfl⟩ := State.call_cases hs
    refine h.awake.frame ?_ ?_ ?_
    · cases op <;> exact id
    · rw [hp]
      cases op <;> rfl
    · rw [hp]
      exact id

theorem OneTaker.leave (h : OneTaker I s c) (hs : s.leave t = some (r, s')) :
    OneTaker I s' c := by
  refine ⟨h.inv.leave hs, held_content_leave h.held hs, ?_, ?_⟩
  · obtain ⟨-, rfl⟩ := State.leave_cases hs
    exact h.sole.frame (fun hidle => absurd hidle id) rfl
  · obtain ⟨hp, rfl⟩ := State.leave_cases hs
    refine h.awake.frame id ?_ ?_
    · rw [hp]
      rfl
    · rw [hp]
      exact id

theorem OnePutter.call (h : OnePutter I s c) (hop : (op.start : Pc C α).Puts → t = c)
    (hs : s.call t op = some s') : OnePutter I s' c := by
  refine ⟨h.inv.call hs, held_content_call h.held hs, ?_⟩
  obtain ⟨-, rfl⟩ := State.call_cases hs
  exact h.sole.frame hop (by cases op <;> rfl)

theorem OnePutter.leave (h : OnePutter I s c) (hs : s.leave t = some (r, s')) :
    OnePutter I s' c := by
  refine ⟨h.inv.leave hs, held_content_leave h.held hs, ?_⟩
  obtain ⟨-, rfl⟩ := State.leave_cases hs
  exact h.sole.frame (fun hidle => absurd hidle id) rfl

variable [DecidableEq C]

theorem held_content_move (h : s.held I = s.content) (hinv : Inv I s)
    (hs : s.move I t = some s') : s'.held I = s'.content :=
  (held_move hinv hs).trans (h.trans (content_move hinv hs).symm)

theorem OneTaker.move (h : OneTaker I s c) (hcard : s.content.card ≤ I.depth)
    (hone : (1 : C) ≠ 0) (hs : s.move I t = some s') : OneTaker I s' c where
  inv := h.inv.move (room_of_taker h.inv h.sole hcard t) hs
  held := held_content_move h.held h.inv hs
  sole := h.sole.move (taker_sound I) hs
  awake := h.awake.move h.inv h.sole hone hs

theorem OnePutter.move (h : OnePutter I s c) (hs : s.move I t = some s') : OnePutter I s' c where
  inv := h.inv.move (room_of_putter h.inv h.sole t) hs
  held := held_content_move h.held h.inv hs
  sole := h.sole.move (putter_sound I) hs

end Sides

section Line

def Pc.got (log : List α) : Pc C α → List α
  | .await _ _ k => log[k]?.toList
  | .clear _ _ _ v | .retract v => [v]
  | .returned r => r.toList
  | _ => []

def Pc.appends : Pc C α → List α
  | .put v => [v]
  | _ => []

def State.line (s : State T C α) (c : T) : List α :=
  (s.pc c).got s.ring.log ++ s.ring.log.drop s.ring.taken

theorem got_le_hand (p : Pc C α) (log : List α) : (p.got log : Multiset α) ≤ p.hand log := by
  cases p <;> simp [Pc.got, Pc.hand]

theorem hand_le_content [Fintype T] (s : State T C α) (t : T) :
    (s.pc t).hand s.ring.log ≤ s.content :=
  (Finset.single_le_sum (f := fun u => (s.pc u).hand s.ring.log)
    (fun _ _ => Multiset.zero_le _) (Finset.mem_univ t)).trans (Multiset.le_add_left _ _)

theorem line_le_content [Fintype T] (s : State T C α) (c : T) :
    (s.line c : Multiset α) ≤ s.content := by
  rw [State.line, State.content, ← Multiset.coe_add, add_comm]
  refine add_le_add le_rfl ((got_le_hand _ _).trans ?_)
  exact Finset.single_le_sum (f := fun t => (s.pc t).hand s.ring.log)
    (fun _ _ => Multiset.zero_le _) (Finset.mem_univ c)

theorem line_frame [DecidableEq T] {s : State T C α} {c t : T} {r : Ring C α} {p : Pc C α}
    (hlog : r.log = s.ring.log) (htaken : r.taken = s.ring.taken)
    (hgot : p.got s.ring.log = (s.pc t).got s.ring.log) :
    (⟨r, Function.update s.pc t p⟩ : State T C α).line c = s.line c := by
  simp only [State.line, hlog, htaken]
  by_cases hct : c = t
  · subst hct
    rw [Function.update_self, hgot]
  · rw [Function.update_of_ne hct]

variable [DecidableEq T] {s s' : State T C α} {c t : T} {op : Op α} {r : Option α}

theorem line_call (hs : s.call t op = some s') : s'.line c = s.line c := by
  obtain ⟨hp, rfl⟩ := State.call_cases hs
  refine line_frame rfl rfl ?_
  rw [hp]
  cases op <;> rfl

theorem line_leave (hs : s.leave c = some (r, s')) : s.line c = r.toList ++ s'.line c := by
  obtain ⟨hp, rfl⟩ := State.leave_cases hs
  simp [State.line, hp, Pc.got]

variable [AddCommGroup C] [One C] [DecidableEq C] [Fintype T] {I : Indexing C}

/-- Values join the line at its end, and only a return takes one from its front. -/
theorem line_move (h : OneTaker I s c) (hs : s.move I t = some s') :
    s'.line c = s.line c ++ (s.pc t).appends := by
  obtain ⟨r, p, hn, rfl⟩ := State.move_cases hs
  have hvalid := h.inv.valid t
  cases hp : s.pc t <;> rw [hp] at hn hvalid <;>
    simp only [next, Option.some.injEq, Prod.mk.injEq, reduceCtorEq] at hn <;>
    simp only [Pc.appends, List.append_nil]
  case sleep =>
    split_ifs at hn
    obtain ⟨rfl, rfl⟩ := Prod.mk.inj (Option.some.inj hn)
    exact line_frame rfl rfl (by rw [hp]; rfl)
  all_goals
    obtain ⟨rfl, rfl⟩ := hn
  case put v =>
    have hdrop : (s.ring.log ++ [v]).drop s.ring.taken = s.ring.log.drop s.ring.taken ++ [v] :=
      List.drop_append_of_le_length h.inv.taken_le
    have hgot : (Function.update s.pc t (.vacant s.ring.putpos s.ring.log.length v) c).got
        (s.ring.log ++ [v]) = (s.pc c).got s.ring.log := by
      by_cases hct : c = t
      · subst hct
        rw [Function.update_self, hp]
        rfl
      · rw [Function.update_of_ne hct]
        cases hpc : s.pc c <;> simp only [Pc.got]
        case await a pos k =>
          have hk := h.inv.board.taking_lt c k (by simp [State.board, hpc, Pc.taking])
          rw [List.getElem?_append_left (lt_of_lt_of_le hk h.inv.taken_le)]
    simp only [State.line]
    rw [hdrop, hgot, List.append_assoc]
  case draw a =>
    obtain rfl : t = c := h.sole.only t (by rw [hp]; trivial)
    have hlt := h.inv.taken_lt hp
    simp only [State.line, Function.update_self, hp, Pc.got]
    rw [List.getElem?_eq_getElem hlt, List.drop_eq_getElem_cons hlt]
    rfl
  case await a pos k =>
    have hpos : I.slot pos = k % I.depth := hvalid
    rw [hpos]
    split
    next v hv =>
      have htaking : s.board.taking t = some k := by simp [State.board, hp, Pc.taking]
      obtain ⟨-, hlog⟩ := h.inv.board.seen_full htaking hv
      refine line_frame rfl rfl ?_
      rw [hp, Pc.got, Pc.got, show s.ring.log[k]? = some v from hlog]
      rfl
    next => exact line_frame rfl rfl (by rw [hp])
  case claim a => split_ifs <;> exact line_frame rfl rfl (by rw [hp]; rfl)
  case clear a pos k v => split_ifs <;> exact line_frame rfl rfl (by rw [hp]; rfl)
  case giveBack a => cases a <;> exact line_frame rfl rfl (by rw [hp]; rfl)
  case vacant =>
    split
    · exact line_frame rfl rfl (by rw [hp])
    · exact line_frame rfl rfl (by rw [hp]; rfl)
  case check => split_ifs <;> exact line_frame rfl rfl (by rw [hp]; rfl)
  all_goals exact line_frame rfl rfl (by rw [hp]; rfl)

end Line

section Progress
variable [AddCommGroup C] [One C] [DecidableEq C] {I : Indexing C} {r r' : Ring C α}
  {p p' : Pc C α}

omit [AddCommGroup C] [One C] [DecidableEq C] in
theorem not_takes_of_puts (hp : p.Puts) : ¬ p.Takes := by
  cases p <;> simp [Pc.Puts, Pc.Takes] at hp ⊢

def Pc.Tries : Pc C α → Prop
  | .claim .once | .draw .once | .await .once _ _ | .clear .once _ _ _ | .giveBack .once
  | .returned _ => True
  | _ => False

def Pc.rank : Pc C α → ℕ
  | .put _ => 7
  | .vacant _ _ _ => 6
  | .store _ _ _ | .claim _ => 5
  | .publish | .draw _ => 4
  | .check | .await _ _ _ => 3
  | .unblock | .clear _ _ _ _ | .giveBack _ => 2
  | .post => 1
  | _ => 0

omit [AddCommGroup C] [One C] [DecidableEq C] in
theorem rank_le (p : Pc C α) : p.rank ≤ 7 := by
  cases p <;> simp [Pc.rank]

omit [AddCommGroup C] [One C] [DecidableEq C] in
theorem rank_le_of_tries (hp : p.Tries) : p.rank ≤ 5 := by
  cases p <;> simp [Pc.rank]
  all_goals exact absurd hp id

theorem next_puts (h : next I r p = some (r', p')) (hp : p.Puts) : p'.Puts ∨ p' = .idle := by
  cases p <;> simp only [next, Option.some.injEq, Prod.mk.injEq, reduceCtorEq] at h
  case put =>
    obtain ⟨-, rfl⟩ := h
    exact Or.inl trivial
  case vacant =>
    obtain ⟨-, rfl⟩ := h
    split <;> exact Or.inl trivial
  case store =>
    obtain ⟨-, rfl⟩ := h
    exact Or.inl trivial
  case publish =>
    obtain ⟨-, rfl⟩ := h
    exact Or.inl trivial
  case check =>
    obtain ⟨-, rfl⟩ := h
    split_ifs
    · exact Or.inr rfl
    · exact Or.inl trivial
  case unblock =>
    obtain ⟨-, rfl⟩ := h
    exact Or.inl trivial
  case post =>
    obtain ⟨-, rfl⟩ := h
    exact Or.inr rfl
  all_goals exact absurd hp id

theorem next_tries (h : next I r p = some (r', p')) (hp : p.Tries) : p'.Tries := by
  cases p <;> simp only [next, Option.some.injEq, Prod.mk.injEq, reduceCtorEq] at h
  case claim a =>
    obtain ⟨-, rfl⟩ := h
    cases a <;> simp only [Pc.Tries] at hp
    split_ifs <;> trivial
  case draw a =>
    obtain ⟨-, rfl⟩ := h
    cases a <;> simp only [Pc.Tries] at hp
    trivial
  case await a pos k =>
    obtain ⟨-, rfl⟩ := h
    cases a <;> simp only [Pc.Tries] at hp
    split <;> trivial
  case clear a pos k v =>
    obtain ⟨-, rfl⟩ := h
    cases a <;> simp only [Pc.Tries] at hp
    trivial
  case giveBack a =>
    obtain ⟨-, rfl⟩ := h
    cases a <;> simp only [Pc.Tries] at hp
    trivial
  all_goals exact absurd hp id

theorem next_takes (h : next I r p = some (r', p')) (hp : p.Takes) :
    p'.Takes ∨ ∃ v, p' = .returned v := by
  cases p <;> simp only [next, Option.some.injEq, Prod.mk.injEq, reduceCtorEq] at h
  case sleep =>
    split_ifs at h
    obtain ⟨-, rfl⟩ := Prod.mk.inj (Option.some.inj h)
    exact Or.inl trivial
  case clear a pos k v =>
    obtain ⟨-, rfl⟩ := h
    split_ifs
    · exact Or.inl trivial
    · exact Or.inr ⟨_, rfl⟩
  case giveBack a =>
    obtain ⟨-, rfl⟩ := h
    cases a with
    | once => exact Or.inr ⟨_, rfl⟩
    | first | announced => exact Or.inl trivial
  case retract =>
    obtain ⟨-, rfl⟩ := h
    exact Or.inr ⟨_, rfl⟩
  case claim =>
    obtain ⟨-, rfl⟩ := h
    split_ifs <;> exact Or.inl trivial
  case draw =>
    obtain ⟨-, rfl⟩ := h
    exact Or.inl trivial
  case await =>
    obtain ⟨-, rfl⟩ := h
    split <;> exact Or.inl trivial
  case announce =>
    obtain ⟨-, rfl⟩ := h
    exact Or.inl trivial
  all_goals exact absurd hp id

theorem next_ne_put (h : next I r p = some (r', p')) (v : α) : p' ≠ .put v := by
  rintro rfl
  cases p <;> simp only [next, Option.some.injEq, Prod.mk.injEq, reduceCtorEq, and_false] at h
  case sleep =>
    split_ifs at h
    cases h
  case giveBack a =>
    cases a <;> cases h.2
  case await =>
    obtain ⟨-, h⟩ := h
    split at h <;> cases h
  case vacant =>
    obtain ⟨-, h⟩ := h
    split at h <;> cases h
  all_goals
    obtain ⟨-, h⟩ := h
    split_ifs at h

theorem next_rank_put (h : next I r p = some (r', p')) (hp : p.Puts)
    (hvacant : ∀ pos k v, p = .vacant pos k v → r.slots (I.slot pos) = none) :
    p'.rank < p.rank := by
  cases p <;> simp only [next, Option.some.injEq, Prod.mk.injEq, reduceCtorEq] at h
  case vacant pos k v =>
    obtain ⟨-, rfl⟩ := h
    rw [hvacant pos k v rfl]
    exact Nat.lt_succ_self 5
  case check =>
    obtain ⟨-, rfl⟩ := h
    split_ifs <;> simp [Pc.rank]
  case put =>
    obtain ⟨-, rfl⟩ := h
    exact Nat.lt_succ_self 6
  case store =>
    obtain ⟨-, rfl⟩ := h
    exact Nat.lt_succ_self 4
  case publish =>
    obtain ⟨-, rfl⟩ := h
    exact Nat.lt_succ_self 3
  case unblock =>
    obtain ⟨-, rfl⟩ := h
    exact Nat.lt_succ_self 1
  case post =>
    obtain ⟨-, rfl⟩ := h
    exact Nat.lt_succ_self 0
  all_goals exact absurd hp id

theorem next_rank_try (h : next I r p = some (r', p')) (hp : p.Tries)
    (hfull : ∀ a pos k, p = .await a pos k → ∃ v, r.slots (I.slot pos) = some v) :
    p'.rank < p.rank := by
  cases p <;> simp only [next, Option.some.injEq, Prod.mk.injEq, reduceCtorEq] at h
  case claim =>
    obtain ⟨-, rfl⟩ := h
    split_ifs <;> simp [Pc.rank]
  case draw =>
    obtain ⟨-, rfl⟩ := h
    exact Nat.lt_succ_self 3
  case await a pos k =>
    obtain ⟨-, rfl⟩ := h
    obtain ⟨v, hv⟩ := hfull a pos k rfl
    rw [hv]
    exact Nat.lt_succ_self 2
  case clear a pos k v =>
    obtain ⟨-, rfl⟩ := h
    cases a <;> simp only [Pc.Tries] at hp
    simp [Pc.rank]
  case giveBack a =>
    obtain ⟨-, rfl⟩ := h
    cases a <;> simp only [Pc.Tries] at hp
    simp [Pc.rank]
  all_goals exact absurd hp id

variable [Fintype T] {s : State T C α} {c t : T}

omit [Fintype T] in
theorem next_eq_none (h : next I r p = none) :
    p = .idle ∨ (∃ v, p = .returned v) ∨ p = .sleep ∧ r.sem = 0 := by
  cases p <;> simp only [next, reduceCtorEq] at h
  case idle => exact Or.inl rfl
  case returned v => exact Or.inr (Or.inl ⟨v, rfl⟩)
  case sleep =>
    split_ifs at h with hsem
    exact Or.inr (Or.inr ⟨rfl, hsem⟩)

omit [Fintype T] in
theorem move_isSome [DecidableEq T] (hidle : s.pc t ≠ .idle)
    (hreturned : ∀ v, s.pc t ≠ .returned v) (hsleep : s.pc t = .sleep → s.ring.sem ≠ 0) :
    ∃ s', s.move I t = some s' := by
  rw [← Option.isSome_iff_exists, State.move, Option.isSome_map, Option.isSome_iff_ne_none]
  intro hnone
  obtain hp | ⟨v, hp⟩ | ⟨hp, hsem⟩ := next_eq_none hnone
  · exact hidle hp
  · exact hreturned v hp
  · exact hsleep hp hsem

variable [DecidableEq T]

omit [DecidableEq C] in
theorem OneTaker.slot_empty (h : OneTaker I s c) (hcard : s.content.card ≤ I.depth) {pos : C}
    {k : ℕ} {v : α} (hp : s.pc t = .vacant pos k v) : s.ring.slots (I.slot pos) = none := by
  have hvalid := h.inv.valid t
  rw [hp] at hvalid
  rw [hvalid.1]
  exact vacant_of_taker (t := t) h.inv h.sole hcard (by rw [hp]; rfl)

omit [DecidableEq C] in
theorem OnePutter.slot_full (h : OnePutter I s c) {a : Attempt} {pos : C} {k : ℕ}
    (hp : s.pc t = .await a pos k) : ∃ v, s.ring.slots (I.slot pos) = some v := by
  have hvalid := h.inv.valid t
  rw [hp] at hvalid
  rw [show I.slot pos = k % I.depth from hvalid]
  exact filled_of_putter (t := t) h.inv h.sole (by rw [hp]; rfl)

end Progress

end Mixnet.TicketRing
