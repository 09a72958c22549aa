import Mathlib.Algebra.BigOperators.Fin
import Mathlib.Algebra.Order.BigOperators.Group.Finset
import Mathlib.Data.Fintype.BigOperators
import Mathlib.Data.Multiset.Basic
import Mathlib.Tactic.Abel
import Mixnet.Runs
import Mixnet.TicketSlots

/-! A bounded queue in shared memory: a ring of slots, two counters from which tickets are drawn, a
count of the values that may be claimed, and a semaphore for those that find none. Every
instruction that touches shared memory is a step of its own, and the steps of the threads are
interleaved in any order. The history of a ring, its `log` of values by put ticket and the number
`taken` of take tickets, is read by no instruction. -/
namespace Mixnet.TicketRing
open TicketSlots

section Totals
variable {T P M : Type*} [DecidableEq T] [AddCommMonoid M]

/-- What a total over the threads or the slots becomes when one of them changes. -/
theorem sum_update_mem (f : T → P) (w : P → M) {ts : Finset T} {t : T} (ht : t ∈ ts) (p : P) :
    ∑ u ∈ ts, w (Function.update f t p u) + w (f t) = ∑ u ∈ ts, w (f u) + w p := by
  have hold := Finset.sum_erase_add ts (fun u => w (f u)) ht
  have hnew := Finset.sum_erase_add ts (fun u => w (Function.update f t p u)) ht
  have hsame : ∑ u ∈ ts.erase t, w (Function.update f t p u) = ∑ u ∈ ts.erase t, w (f u) := by
    refine Finset.sum_congr rfl fun u hu => ?_
    rw [Function.update_of_ne (Finset.ne_of_mem_erase hu)]
  rw [Function.update_self, hsame] at hnew
  rw [← hold, ← hnew]
  exact add_right_comm _ _ _

variable [Fintype T]

theorem sum_update (pc : T → P) (w : P → M) (t : T) (p : P) :
    ∑ u, w (Function.update pc t p u) + w (pc t) = ∑ u, w (pc u) + w p :=
  sum_update_mem pc w (Finset.mem_univ t) p

theorem sum_update_of_eq {pc : T → P} {w : P → M} {t : T} {p : P} (h : w p = w (pc t)) :
    ∑ u, w (Function.update pc t p u) = ∑ u, w (pc u) := by
  refine Finset.sum_congr rfl fun u _ => ?_
  by_cases hu : u = t
  · subst hu
    rw [Function.update_self, h]
  · rw [Function.update_of_ne hu]

end Totals

section Program

/-- Counters that name the slots of the ring in turn, and that may wrap. -/
structure Indexing (C : Type*) [AddMonoid C] [One C] where
  depth : ℕ
  pos : 0 < depth
  slot : C → ℕ
  slot_zero : slot 0 = 0
  slot_succ : ∀ pos, slot (pos + 1) = (slot pos + 1) % depth

theorem Indexing.slot_next {C : Type*} [AddMonoid C] [One C] (I : Indexing C) {pos : C} {k : ℕ}
    (h : I.slot pos = k % I.depth) : I.slot (pos + 1) = (k + 1) % I.depth := by
  rw [I.slot_succ, h, Nat.mod_add_mod]

structure Ring (C α : Type*) where
  slots : ℕ → Option α
  count : ℤ
  takepos : C
  putpos : C
  blocked : C
  sem : ℕ
  log : List α
  taken : ℕ

/-- Who tries to take: a caller that tries once, one that will wait if it has to, and one that has
announced that it is about to wait. -/
inductive Attempt where
  | once | first | announced
deriving DecidableEq

/-- What a thread does next. The numbers of tickets are history, as is the value that a putter
carries after `store`. -/
inductive Pc (C α : Type*) where
  | idle
  | claim (a : Attempt)
  | draw (a : Attempt)
  | await (a : Attempt) (pos : C) (k : ℕ)
  | clear (a : Attempt) (pos : C) (k : ℕ) (v : α)
  | giveBack (a : Attempt)
  | announce
  | retract (v : α)
  | sleep
  | returned (r : Option α)
  | put (v : α)
  | vacant (pos : C) (k : ℕ) (v : α)
  | store (pos : C) (k : ℕ) (v : α)
  | publish
  | check
  | unblock
  | post
deriving DecidableEq

structure State (T C α : Type*) where
  ring : Ring C α
  pc : T → Pc C α

inductive Op (α : Type*) where
  | tryTake
  | take
  | put (v : α)

def Op.start : Op α → Pc C α
  | .tryTake => .claim .once
  | .take => .claim .first
  | .put v => .put v

variable {C α T : Type*} [DecidableEq T]

def State.call (s : State T C α) (t : T) (op : Op α) : Option (State T C α) :=
  match s.pc t with
  | .idle => some { s with pc := Function.update s.pc t op.start }
  | _ => none

def State.leave (s : State T C α) (t : T) : Option (Option α × State T C α) :=
  match s.pc t with
  | .returned r => some (r, { s with pc := Function.update s.pc t .idle })
  | _ => none

variable {s s' : State T C α} {t : T}

theorem State.call_cases {op : Op α} (hs : s.call t op = some s') :
    s.pc t = .idle ∧ s' = ⟨s.ring, Function.update s.pc t op.start⟩ := by
  rw [State.call] at hs
  split at hs
  next hp => exact ⟨hp, (Option.some.inj hs).symm⟩
  next => simp at hs

theorem State.leave_cases {r : Option α} (hs : s.leave t = some (r, s')) :
    s.pc t = .returned r ∧ s' = ⟨s.ring, Function.update s.pc t .idle⟩ := by
  rw [State.leave] at hs
  split at hs
  next hp =>
    obtain ⟨rfl, rfl⟩ := Prod.mk.inj (Option.some.inj hs)
    exact ⟨hp, rfl⟩
  next => simp at hs

variable [AddCommGroup C] [One C] [DecidableEq C]

/-- One instruction. A thread that waits for its slot looks at it again; one that sleeps moves only
when it is woken. -/
def next (I : Indexing C) (r : Ring C α) : Pc C α → Option (Ring C α × Pc C α)
  | .claim a => some ({ r with count := r.count - 1 }, if 0 < r.count then .draw a else .giveBack a)
  | .draw a =>
    some ({ r with takepos := r.takepos + 1, taken := r.taken + 1 }, .await a r.takepos r.taken)
  | .await a pos k =>
    some (r, match r.slots (I.slot pos) with
      | some v => .clear a pos k v
      | none => .await a pos k)
  | .clear a pos _ v =>
    some ({ r with slots := Function.update r.slots (I.slot pos) none },
      if a = .announced then .retract v else .returned (some v))
  | .giveBack a =>
    some ({ r with count := r.count + 1 }, match a with
      | .once => .returned none
      | .first => .announce
      | .announced => .sleep)
  | .announce => some ({ r with blocked := r.blocked + 1 }, .claim .announced)
  | .retract v => some ({ r with blocked := r.blocked - 1 }, .returned (some v))
  | .sleep => if r.sem = 0 then none else some ({ r with sem := r.sem - 1 }, .claim .first)
  | .put v =>
    some ({ r with putpos := r.putpos + 1, log := r.log ++ [v] }, .vacant r.putpos r.log.length v)
  | .vacant pos k v =>
    some (r, match r.slots (I.slot pos) with
      | some _ => .vacant pos k v
      | none => .store pos k v)
  | .store pos _ v =>
    some ({ r with slots := Function.update r.slots (I.slot pos) (some v) }, .publish)
  | .publish => some ({ r with count := r.count + 1 }, .check)
  | .check => some (r, if r.blocked = 0 then .idle else .unblock)
  | .unblock => some ({ r with blocked := r.blocked - 1 }, .post)
  | .post => some ({ r with sem := r.sem + 1 }, .idle)
  | .idle | .returned _ => none

def State.move (I : Indexing C) (s : State T C α) (t : T) : Option (State T C α) :=
  (next I s.ring (s.pc t)).map fun p => ⟨p.1, Function.update s.pc t p.2⟩

theorem State.move_cases {I : Indexing C} (hs : s.move I t = some s') :
    ∃ r p, next I s.ring (s.pc t) = some (r, p) ∧ s' = ⟨r, Function.update s.pc t p⟩ := by
  obtain ⟨⟨r, p⟩, hn, rfl⟩ := Option.map_eq_some_iff.mp hs
  exact ⟨r, p, hn, rfl⟩

def State.holding (values : List α) : State T C α where
  ring := {
    slots := fun i => values[i]?
    count := values.length
    takepos := 0
    putpos := 0
    blocked := 0
    sem := 0
    log := values
    taken := 0 }
  pc := fun _ => .idle

end Program

section Tickets
variable {C α T : Type*}

def Pc.putting : Pc C α → Option ℕ
  | .vacant _ k _ | .store _ k _ => some k
  | _ => none

def Pc.taking : Pc C α → Option ℕ
  | .await _ _ k | .clear _ _ k _ => some k
  | _ => none

def State.board (s : State T C α) : Board T α where
  log := s.ring.log
  taken := s.ring.taken
  slots := s.ring.slots
  putting := fun t => (s.pc t).putting
  taking := fun t => (s.pc t).taking

theorem board_update [DecidableEq T] (r : Ring C α) (pc : T → Pc C α) (t : T) (p : Pc C α) :
    (⟨r, Function.update pc t p⟩ : State T C α).board =
      ⟨r.log, r.taken, r.slots, Function.update (fun u => (pc u).putting) t p.putting,
        Function.update (fun u => (pc u).taking) t p.taking⟩ := by
  rw [State.board]
  congr 1
  · exact Function.comp_update Pc.putting pc t p
  · exact Function.comp_update Pc.taking pc t p

variable [AddCommGroup C] [One C] {I : Indexing C}

def Pc.Valid (I : Indexing C) (r : Ring C α) : Pc C α → Prop
  | .await _ pos k => I.slot pos = k % I.depth
  | .clear _ pos k v => I.slot pos = k % I.depth ∧ r.slots (k % I.depth) = some v
  | .vacant pos k v => I.slot pos = k % I.depth ∧ r.log[k]? = some v
  | .store pos k v =>
    I.slot pos = k % I.depth ∧ r.log[k]? = some v ∧ r.slots (k % I.depth) = none
  | _ => True

/-- Tickets and slots agree, and the counters name the slots of the next tickets. -/
structure Tickets (I : Indexing C) (s : State T C α) : Prop where
  board : s.board.Inv I.depth
  putpos : I.slot s.ring.putpos = s.ring.log.length % I.depth
  takepos : I.slot s.ring.takepos = s.ring.taken % I.depth
  valid : ∀ t, (s.pc t).Valid I s.ring

/-- No two holders of one kind meet at a slot. -/
def State.Room (I : Indexing C) (s : State T C α) (t : T) : Prop :=
  (∀ v, s.pc t = .put v → ∀ u l, (s.pc u).putting = some l →
    l % I.depth ≠ s.ring.log.length % I.depth) ∧
  ∀ a, s.pc t = .draw a → ∀ u l, (s.pc u).taking = some l →
    l % I.depth ≠ s.ring.taken % I.depth

variable [DecidableEq T] {s : State T C α} {t : T}

theorem Tickets.frame (h : Tickets I s) {r : Ring C α} {p : Pc C α} (hlog : r.log = s.ring.log)
    (htaken : r.taken = s.ring.taken) (hslots : r.slots = s.ring.slots)
    (hputpos : r.putpos = s.ring.putpos) (htakepos : r.takepos = s.ring.takepos)
    (hputting : p.putting = (s.pc t).putting) (htaking : p.taking = (s.pc t).taking)
    (hvalid : p.Valid I s.ring) : Tickets I ⟨r, Function.update s.pc t p⟩ := by
  have hcongr : ∀ q : Pc C α, q.Valid I r ↔ q.Valid I s.ring := by
    intro q
    cases q <;> simp [Pc.Valid, hlog, hslots]
  refine ⟨?_, ?_, ?_, (Function.forall_update_iff s.pc fun _ q => q.Valid I r).mpr
    ⟨(hcongr p).mpr hvalid, fun u _ => (hcongr _).mpr (h.valid u)⟩⟩
  · rw [board_update, hlog, htaken, hslots,
      (Function.update_eq_self_iff (f := fun u => (s.pc u).putting)).mpr hputting,
      (Function.update_eq_self_iff (f := fun u => (s.pc u).taking)).mpr htaking]
    exact h.board
  · simp only [hputpos, hlog]
    exact h.putpos
  · simp only [htakepos, htaken]
    exact h.takepos

theorem Tickets.drawPut (h : Tickets I s) {v : α} (hp : s.pc t = .put v) (hroom : s.Room I t) :
    Tickets I ⟨{ s.ring with putpos := s.ring.putpos + 1, log := s.ring.log ++ [v] },
      Function.update s.pc t (.vacant s.ring.putpos s.ring.log.length v)⟩ := by
  have hnone : (s.pc t).putting = none := by simp [hp, Pc.putting]
  refine ⟨?_, ?_, h.takepos, (Function.forall_update_iff s.pc fun _ q => q.Valid I _).mpr
    ⟨⟨h.putpos, by simp⟩, fun u _ => ?_⟩⟩
  · rw [board_update,
      (Function.update_eq_self_iff (f := fun u => (s.pc u).taking)).mpr (by simp [hp, Pc.taking])]
    exact h.board.drawPut hnone (hroom.1 v hp)
  · simp only [List.length_append, List.length_singleton]
    exact I.slot_next h.putpos
  · have hu := h.valid u
    cases hpu : s.pc u <;> simp only [hpu, Pc.Valid] at hu ⊢
    case clear => exact hu
    case await => exact hu
    case vacant =>
      refine ⟨hu.1, ?_⟩
      rw [List.getElem?_append_left (List.getElem?_eq_some_iff.mp hu.2).1]
      exact hu.2
    case store =>
      refine ⟨hu.1, ?_, hu.2.2⟩
      rw [List.getElem?_append_left (List.getElem?_eq_some_iff.mp hu.2.1).1]
      exact hu.2.1

theorem Tickets.drawTake (h : Tickets I s) {a : Attempt} (hp : s.pc t = .draw a)
    (hroom : s.Room I t) :
    Tickets I ⟨{ s.ring with takepos := s.ring.takepos + 1, taken := s.ring.taken + 1 },
      Function.update s.pc t (.await a s.ring.takepos s.ring.taken)⟩ := by
  have hnone : (s.pc t).taking = none := by simp [hp, Pc.taking]
  refine ⟨?_, h.putpos, ?_, (Function.forall_update_iff s.pc fun _ q => q.Valid I _).mpr
    ⟨h.takepos, fun u _ => ?_⟩⟩
  · rw [board_update,
      (Function.update_eq_self_iff (f := fun u => (s.pc u).putting)).mpr (by simp [hp, Pc.putting])]
    exact h.board.drawTake hnone (hroom.2 a hp)
  · exact I.slot_next h.takepos
  · have hu := h.valid u
    cases hpu : s.pc u <;> rw [hpu] at hu <;> exact hu

theorem Tickets.store (h : Tickets I s) {pos : C} {k : ℕ} {v : α} (hp : s.pc t = .store pos k v) :
    Tickets I ⟨{ s.ring with slots := Function.update s.ring.slots (I.slot pos) (some v) },
      Function.update s.pc t .publish⟩ := by
  have hk : (s.pc t).putting = some k := by simp [hp, Pc.putting]
  obtain ⟨hpos, hlog, hslot⟩ : (Pc.store pos k v).Valid I s.ring := hp ▸ h.valid t
  rw [hpos]
  refine ⟨?_, h.putpos, h.takepos, (Function.forall_update_iff s.pc fun _ q => q.Valid I _).mpr
    ⟨trivial, fun u hut => ?_⟩⟩
  · rw [board_update,
      (Function.update_eq_self_iff (f := fun u => (s.pc u).taking)).mpr (by simp [hp, Pc.taking])]
    exact h.board.store I.pos hk hslot hlog
  · have hu := h.valid u
    cases hpu : s.pc u <;> simp only [hpu, Pc.Valid] at hu ⊢
    case await => exact hu
    case vacant => exact hu
    case clear =>
      refine ⟨hu.1, ?_⟩
      rw [Function.update_of_ne]
      · exact hu.2
      · intro he
        rw [he, hslot] at hu
        simp at hu
    case store pos l w =>
      refine ⟨hu.1, hu.2.1, ?_⟩
      rw [Function.update_of_ne]
      · exact hu.2.2
      · intro he
        exact hut (h.board.putting_apart u t l k (by simp [State.board, hpu, Pc.putting]) hk he)

theorem Tickets.clear (h : Tickets I s) {a : Attempt} {pos : C} {k : ℕ} {v : α} {p : Pc C α}
    (hp : s.pc t = .clear a pos k v) (hputting : p.putting = none) (htaking : p.taking = none)
    (hvalid : ∀ r, p.Valid I r) :
    Tickets I ⟨{ s.ring with slots := Function.update s.ring.slots (I.slot pos) none },
      Function.update s.pc t p⟩ := by
  have hk : (s.pc t).taking = some k := by simp [hp, Pc.taking]
  obtain ⟨hpos, hslot⟩ : (Pc.clear a pos k v).Valid I s.ring := hp ▸ h.valid t
  rw [hpos]
  refine ⟨?_, h.putpos, h.takepos, (Function.forall_update_iff s.pc fun _ q => q.Valid I _).mpr
    ⟨hvalid _, fun u hut => ?_⟩⟩
  · have hsame : p.putting = (s.pc t).putting := by
      rw [hputting, hp]
      rfl
    rw [board_update,
      (Function.update_eq_self_iff (f := fun u => (s.pc u).putting)).mpr hsame, htaking]
    exact h.board.clear hk hslot
  · have hu := h.valid u
    cases hpu : s.pc u <;> simp only [hpu, Pc.Valid] at hu ⊢
    case await => exact hu
    case vacant => exact hu
    case clear b pos l w =>
      refine ⟨hu.1, ?_⟩
      rw [Function.update_of_ne]
      · exact hu.2
      · intro he
        exact hut (h.board.taking_apart u t l k (by simp [State.board, hpu, Pc.taking]) hk he)
    case store pos l w =>
      refine ⟨hu.1, hu.2.1, ?_⟩
      by_cases he : l % I.depth = k % I.depth
      · rw [he, Function.update_self]
      · rw [Function.update_of_ne he]
        exact hu.2.2

variable [DecidableEq C] {s' : State T C α}

theorem Tickets.move (h : Tickets I s) (hroom : s.Room I t) (hs : s.move I t = some s') :
    Tickets I s' := by
  obtain ⟨r, p, hn, rfl⟩ := State.move_cases hs
  have hvalid := h.valid t
  cases hp : s.pc t <;> rw [hp] at hn hvalid <;>
    simp only [next, Option.some.injEq, Prod.mk.injEq, reduceCtorEq] at hn
  case sleep =>
    split_ifs at hn
    obtain ⟨rfl, rfl⟩ := Prod.mk.inj (Option.some.inj hn)
    exact h.frame rfl rfl rfl rfl rfl (by rw [hp]; rfl) (by rw [hp]; rfl) trivial
  all_goals
    obtain ⟨rfl, rfl⟩ := hn
  case draw a => exact h.drawTake hp hroom
  case put v => exact h.drawPut hp hroom
  case store pos k v => exact h.store hp
  case clear a pos k v =>
    split_ifs
    · exact h.clear hp rfl rfl fun _ => trivial
    · exact h.clear hp rfl rfl fun _ => trivial
  case await a pos k =>
    have hpos : I.slot pos = k % I.depth := hvalid
    rw [hpos]
    split
    next v hv => exact h.frame rfl rfl rfl rfl rfl (by rw [hp]; rfl) (by rw [hp]; rfl) ⟨hpos, hv⟩
    next => exact h.frame rfl rfl rfl rfl rfl (by rw [hp]) (by rw [hp]) hpos
  case vacant pos k v =>
    obtain ⟨hpos, hlog⟩ : I.slot pos = k % I.depth ∧ _ := hvalid
    rw [hpos]
    split
    next => exact h.frame rfl rfl rfl rfl rfl (by rw [hp]) (by rw [hp]) ⟨hpos, hlog⟩
    next hnone =>
      exact h.frame rfl rfl rfl rfl rfl (by rw [hp]; rfl) (by rw [hp]; rfl) ⟨hpos, hlog, hnone⟩
  case claim a =>
    split_ifs
    · exact h.frame rfl rfl rfl rfl rfl (by rw [hp]; rfl) (by rw [hp]; rfl) trivial
    · exact h.frame rfl rfl rfl rfl rfl (by rw [hp]; rfl) (by rw [hp]; rfl) trivial
  case check =>
    split_ifs
    · exact h.frame rfl rfl rfl rfl rfl (by rw [hp]; rfl) (by rw [hp]; rfl) trivial
    · exact h.frame rfl rfl rfl rfl rfl (by rw [hp]; rfl) (by rw [hp]; rfl) trivial
  case giveBack a =>
    cases a <;> exact h.frame rfl rfl rfl rfl rfl (by rw [hp]; rfl) (by rw [hp]; rfl) trivial
  all_goals exact h.frame rfl rfl rfl rfl rfl (by rw [hp]; rfl) (by rw [hp]; rfl) trivial

end Tickets

section Counts
variable {C α T : Type*}

/-- A value that the thread has claimed without a ticket or put without adding it to the count; a
claim that it has to give back counts as well. -/
def Pc.owed : Pc C α → ℤ
  | .draw _ | .giveBack _ | .vacant _ _ _ | .store _ _ _ | .publish => 1
  | _ => 0

def Pc.given : Pc C α → ℤ
  | .giveBack _ => 1
  | _ => 0

theorem given_le_owed (p : Pc C α) : p.given ≤ p.owed := by
  cases p <;> simp [Pc.given, Pc.owed]

theorem given_nonneg [Fintype T] (s : State T C α) : 0 ≤ ∑ t, (s.pc t).given := by
  refine Finset.sum_nonneg fun t _ => ?_
  cases s.pc t <;> simp [Pc.given]

variable [AddCommGroup C] [One C]

/-- A wakeup that is no longer counted in `blocked` and not yet in the semaphore. -/
def Pc.posting : Pc C α → C
  | .post => 1
  | _ => 0

/-- From `announce` until the announcement is taken back or a wakeup has been used up. -/
def Pc.announced : Pc C α → C
  | .claim .announced | .draw .announced | .await .announced _ _ | .clear .announced _ _ _
  | .giveBack .announced | .retract _ | .sleep => 1
  | _ => 0

variable [Fintype T] {s : State T C α} {t : T}

structure Counts (s : State T C α) : Prop where
  owed : s.ring.count + ∑ t, (s.pc t).owed = s.ring.log.length - s.ring.taken
  given : 0 ≤ s.ring.count + ∑ t, (s.pc t).given
  awake : s.ring.blocked + s.ring.sem • 1 + ∑ t, (s.pc t).posting = ∑ t, (s.pc t).announced

theorem Counts.lead (h : Counts s) (ts : Finset T) :
    (s.ring.taken : ℤ) + ∑ t ∈ ts, ((s.pc t).owed - (s.pc t).given) ≤ s.ring.log.length := by
  have hle : ∑ t ∈ ts, ((s.pc t).owed - (s.pc t).given) ≤
      ∑ t, ((s.pc t).owed - (s.pc t).given) :=
    Finset.sum_le_univ_sum_of_nonneg fun t => sub_nonneg.mpr (given_le_owed (s.pc t))
  have hsum : ∑ t, ((s.pc t).owed - (s.pc t).given) = ∑ t, (s.pc t).owed - ∑ t, (s.pc t).given :=
    Finset.sum_sub_distrib _ _
  have howed := h.owed
  have hgiven := h.given
  omega

variable [DecidableEq T] {I : Indexing C} {r r' : Ring C α} {p p' : Pc C α}

theorem Counts.frame (h : Counts s) (howed : p'.owed = (s.pc t).owed)
    (hgiven : p'.given = (s.pc t).given) (hposting : p'.posting = (s.pc t).posting)
    (hannounced : p'.announced = (s.pc t).announced) :
    Counts ⟨s.ring, Function.update s.pc t p'⟩ where
  owed := by
    simp only [sum_update_of_eq howed]
    exact h.owed
  given := by
    simp only [sum_update_of_eq hgiven]
    exact h.given
  awake := by
    simp only [sum_update_of_eq hposting, sum_update_of_eq hannounced]
    exact h.awake

variable [DecidableEq C]

theorem next_owed (h : next I r p = some (r', p')) :
    r'.count + p'.owed - (r'.log.length - r'.taken) =
      r.count + p.owed - (r.log.length - r.taken) := by
  cases p <;> simp only [next, Option.some.injEq, Prod.mk.injEq, reduceCtorEq] at h
  case sleep =>
    split_ifs at h
    obtain ⟨rfl, rfl⟩ := Prod.mk.inj (Option.some.inj h)
    rfl
  all_goals
    obtain ⟨rfl, rfl⟩ := h
  case claim => split_ifs <;> simp [Pc.owed]
  case draw =>
    simp only [Pc.owed, Nat.cast_add, Nat.cast_one]
    omega
  case await => split <;> rfl
  case clear => split_ifs <;> rfl
  case giveBack a => cases a <;> simp [Pc.owed]
  case put =>
    simp only [Pc.owed, List.length_append, List.length_singleton, Nat.cast_add, Nat.cast_one]
    omega
  case vacant => split <;> rfl
  case publish => simp [Pc.owed]
  case check => split_ifs <;> rfl
  all_goals rfl

/-- The claims that will be given back make up for a count below zero: a claim that succeeds has
found the count above zero. -/
theorem next_given (h : next I r p = some (r', p')) :
    r'.count + p'.given = r.count + p.given ∨ p'.given = p.given ∧ r.count ≤ r'.count ∨
      p'.given = p.given ∧ 0 < r.count ∧ r'.count = r.count - 1 := by
  cases p <;> simp only [next, Option.some.injEq, Prod.mk.injEq, reduceCtorEq] at h
  case sleep =>
    split_ifs at h
    obtain ⟨rfl, rfl⟩ := Prod.mk.inj (Option.some.inj h)
    exact Or.inl rfl
  all_goals
    obtain ⟨rfl, rfl⟩ := h
  case claim =>
    split_ifs with hcount
    · exact Or.inr (Or.inr ⟨rfl, hcount, rfl⟩)
    · exact Or.inl (by simp [Pc.given])
  case await => exact Or.inl (by split <;> rfl)
  case clear => exact Or.inl (by split_ifs <;> rfl)
  case giveBack a => exact Or.inl (by cases a <;> simp [Pc.given])
  case vacant => exact Or.inl (by split <;> rfl)
  case publish => exact Or.inr (Or.inl ⟨rfl, by simp⟩)
  case check => exact Or.inl (by split_ifs <;> rfl)
  all_goals exact Or.inl rfl

theorem next_awake (h : next I r p = some (r', p')) :
    r'.blocked + r'.sem • 1 + p'.posting + p.announced =
      r.blocked + r.sem • 1 + p.posting + p'.announced := by
  cases p <;> simp only [next, Option.some.injEq, Prod.mk.injEq, reduceCtorEq] at h
  case sleep =>
    split_ifs at h with hsem
    obtain ⟨rfl, rfl⟩ := Prod.mk.inj (Option.some.inj h)
    obtain ⟨m, hm⟩ := Nat.exists_eq_succ_of_ne_zero hsem
    simp only [hm, Pc.posting, Pc.announced, Nat.succ_eq_add_one, Nat.add_sub_cancel, add_nsmul,
      one_nsmul]
    abel
  all_goals
    obtain ⟨rfl, rfl⟩ := h
  case claim a => split_ifs <;> cases a <;> rfl
  case draw a => cases a <;> rfl
  case await a _ _ => split <;> cases a <;> rfl
  case clear a _ _ _ => cases a <;> rfl
  case giveBack a => cases a <;> rfl
  case announce =>
    simp only [Pc.posting, Pc.announced]
    abel
  case retract =>
    simp only [Pc.posting, Pc.announced]
    abel
  case vacant => split <;> rfl
  case check => split_ifs <;> rfl
  case unblock =>
    simp only [Pc.posting, Pc.announced]
    abel
  case post =>
    simp only [Pc.posting, Pc.announced, add_nsmul, one_nsmul]
    abel
  all_goals rfl

theorem Counts.move (h : Counts s) (hn : next I s.ring (s.pc t) = some (r', p')) :
    Counts ⟨r', Function.update s.pc t p'⟩ where
  owed := by
    have hsum := sum_update s.pc Pc.owed t p'
    have hbal := next_owed hn
    have hold := h.owed
    simp only
    omega
  given := by
    have hsum := sum_update s.pc Pc.given t p'
    have hold := h.given
    have hpos := given_nonneg s
    simp only
    obtain hbal | ⟨hsame, hle⟩ | ⟨hsame, hcount, hdec⟩ := next_given hn <;> omega
  awake := by
    have hposting := sum_update s.pc Pc.posting t p'
    have hannounced := sum_update s.pc Pc.announced t p'
    have hbal := next_awake hn
    have hold := h.awake
    refine add_right_cancel (b := (s.pc t).posting + (s.pc t).announced) ?_
    calc r'.blocked + r'.sem • 1 + ∑ u, (Function.update s.pc t p' u).posting +
          ((s.pc t).posting + (s.pc t).announced)
        = (∑ u, (Function.update s.pc t p' u).posting + (s.pc t).posting) +
            (r'.blocked + r'.sem • 1 + (s.pc t).announced) := by abel
      _ = ∑ u, (s.pc u).posting +
            (r'.blocked + r'.sem • 1 + p'.posting + (s.pc t).announced) := by
          rw [hposting]
          abel
      _ = s.ring.blocked + s.ring.sem • 1 + ∑ u, (s.pc u).posting +
            (p'.announced + (s.pc t).posting) := by
          rw [hbal]
          abel
      _ = ∑ u, (Function.update s.pc t p' u).announced +
            ((s.pc t).posting + (s.pc t).announced) := by
          rw [h.awake, ← add_assoc, ← hannounced]
          abel

end Counts

section Invariant
variable {C α T : Type*} [AddCommGroup C] [One C] [Fintype T] {I : Indexing C}

structure Inv (I : Indexing C) (s : State T C α) : Prop extends Tickets I s, Counts s

theorem Inv.holding {values : List α} (hlen : values.length ≤ I.depth)
    (hfull : values.length % I.depth = 0) : Inv I (State.holding values : State T C α) where
  board := by
    have hstored : ∀ k, (State.holding values : State T C α).board.Stored k ↔ k < values.length :=
      fun k => ⟨fun h => h.1, fun h => ⟨h, nofun⟩⟩
    refine ⟨nofun, nofun, nofun, nofun, fun k v hk _ hv => ?_, fun i v hi => ?_,
      fun k hk => absurd hk.1 (Nat.not_lt_zero k), fun k hk => ?_⟩
    · rw [hstored] at hk
      rw [Nat.mod_eq_of_lt (hk.trans_le hlen)]
      exact hv
    · have hlt := (List.getElem?_eq_some_iff.mp hi).1
      exact ⟨i, Nat.mod_eq_of_lt (hlt.trans_le hlen), (hstored i).mpr hlt,
        fun hc => absurd hc.1 (Nat.not_lt_zero i)⟩
    · rw [hstored] at hk
      omega
  putpos := I.slot_zero.trans hfull.symm
  takepos := I.slot_zero.trans (Nat.zero_mod _).symm
  valid := fun _ => trivial
  owed := by simp [State.holding, Pc.owed]
  given := by simp [State.holding, Pc.given]
  awake := by simp [State.holding, Pc.posting, Pc.announced]

variable [DecidableEq T] {s s' : State T C α} {t : T}

theorem Inv.call (h : Inv I s) {op : Op α} (hs : s.call t op = some s') : Inv I s' := by
  obtain ⟨hp, rfl⟩ := State.call_cases hs
  cases op with
  | tryTake | take | put =>
    exact ⟨h.toTickets.frame rfl rfl rfl rfl rfl (by rw [hp]; rfl) (by rw [hp]; rfl) trivial,
      h.toCounts.frame (by rw [hp]; rfl) (by rw [hp]; rfl) (by rw [hp]; rfl) (by rw [hp]; rfl)⟩

theorem Inv.leave (h : Inv I s) {r : Option α} (hs : s.leave t = some (r, s')) : Inv I s' := by
  obtain ⟨hp, rfl⟩ := State.leave_cases hs
  exact ⟨h.toTickets.frame rfl rfl rfl rfl rfl (by rw [hp]; rfl) (by rw [hp]; rfl) trivial,
    h.toCounts.frame (by rw [hp]; rfl) (by rw [hp]; rfl) (by rw [hp]; rfl) (by rw [hp]; rfl)⟩

variable [DecidableEq C]

theorem Inv.move (h : Inv I s) (hroom : s.Room I t) (hs : s.move I t = some s') : Inv I s' := by
  refine ⟨h.toTickets.move hroom hs, ?_⟩
  obtain ⟨r, p, hn, rfl⟩ := State.move_cases hs
  exact h.toCounts.move hn

end Invariant

end Mixnet.TicketRing
