import Mixnet.MessageQueue

/-! Progress at the message queue: senders never wait for anybody, and the reader waits only when
there is nothing to read or while a sender is at work. -/
namespace Mixnet.Itc
open TicketRing

section Senders
variable {T V : Type*} [DecidableEq T] [Fintype T] {setup : Setup} {contents : ℕ → V} {c t : T}
  {s s' : System T V}

def System.remaining (s : System T V) (t : T) : ℕ :=
  match s.task t with
  | .allocating _ => 12 + (s.allocator.pc t).rank
  | .filling _ _ => 11
  | .filled _ _ => 10
  | .writing _ => 1 + (s.queue.pc t).rank
  | _ => 0

def Event.isTurn (t : T) : Event T V → Bool
  | .turn u => u = t
  | _ => false

theorem Valid.sender_turn (h : Valid setup c s) (ht : (s.task t).Sends) :
    ∃ s', s.turn setup t = some s' ∧ s'.remaining t < s.remaining t := by
  have hfits := h.fits t
  cases htask : s.task t <;> rw [htask] at hfits ht
  case allocating v =>
    cases hleave : s.allocator.leave t with
    | some x =>
      refine ⟨_, by rw [System.turn, htask, hleave], ?_⟩
      cases x.1 with
      | none => simp [System.remaining, System.setTask, htask, Task.allocated]
      | some message =>
        simp [System.remaining, System.setTask, htask, Task.allocated]
        omega
    | none =>
      have hreturned : ∀ r, s.allocator.pc t ≠ .returned r := by
        intro r hr
        simp [State.leave, hr] at hleave
      have htries := hfits.1
      obtain ⟨a, hmove⟩ := move_isSome (I := setup.indexing) (s := s.allocator) (t := t)
        (fun hp => by rw [hp] at htries; exact htries) hreturned
        (fun hp => by rw [hp] at htries; exact absurd htries id)
      have hrank := next_rank_try (move_self hmove) htries fun _ _ _ hp => h.allocator.slot_full hp
      refine ⟨{ s with allocator := a },
        by simp only [System.turn, htask, hleave, hmove, Option.map_some], ?_⟩
      simp only [System.remaining, htask]
      omega
  case filling message v =>
    refine ⟨_, by rw [System.turn, htask], ?_⟩
    simp [System.remaining, System.setTask, htask]
  case filled message v =>
    have hcall : write s.queue t message =
        some ⟨s.queue.ring, Function.update s.queue.pc t (.put message)⟩ := by
      rw [write, State.call, hfits.2]
      rfl
    refine ⟨_, by simp only [System.turn, htask, hcall]; rfl, ?_⟩
    simp [System.remaining, System.setTask, htask, Pc.rank]
  case writing v =>
    obtain hputs | hidle := hfits.2
    · obtain ⟨q, hmove⟩ := move_isSome (I := setup.indexing) (s := s.queue) (t := t)
        (fun hp => by rw [hp] at hputs; exact hputs)
        (fun r hp => by rw [hp] at hputs; exact hputs)
        (fun hp => by rw [hp] at hputs; exact absurd hputs id)
      have hrank := next_rank_put (move_self hmove) hputs
        fun _ _ _ hp => h.queue.slot_empty h.card_le hp
      have hturn : ∃ s', s.turn setup t = some s' ∧ s'.task = s.task ∧ s'.queue = q := by
        simp only [System.turn, htask, hmove, Option.map_some]
        split
        next hidle =>
          rw [hidle] at hputs
          exact absurd hputs id
        next => exact ⟨_, rfl, rfl, rfl⟩
        next => exact ⟨_, rfl, rfl, rfl⟩
      obtain ⟨s', hs', hsame, hqueue⟩ := hturn
      refine ⟨s', hs', ?_⟩
      simp only [System.remaining, hsame, hqueue, htask]
      omega
    · refine ⟨_, by simp only [System.turn, htask, hidle]; rfl, ?_⟩
      simp [System.remaining, System.setTask, htask]
  all_goals exact absurd ht id

omit [Fintype T] in
theorem turn_others {u : T} (hs : s.turn setup u = some s') (ht : t ≠ u) :
    s'.task t = s.task t ∧ s'.allocator.pc t = s.allocator.pc t ∧
      s'.queue.pc t = s.queue.pc t := by
  cases htask : s.task u <;> simp only [System.turn, htask, Option.some.injEq, reduceCtorEq] at hs
  case allocating v =>
    split at hs
    next r a hleave =>
      obtain rfl := Option.some.inj hs
      exact ⟨Function.update_of_ne ht _ _, leave_others hleave t ht, rfl⟩
    next =>
      obtain ⟨a, hmove, rfl⟩ := Option.map_eq_some_iff.mp hs
      exact ⟨rfl, move_others hmove t ht, rfl⟩
  case filling =>
    subst hs
    exact ⟨Function.update_of_ne ht _ _, rfl, rfl⟩
  case filled =>
    obtain ⟨q, hcall, rfl⟩ := Option.map_eq_some_iff.mp hs
    exact ⟨Function.update_of_ne ht _ _, rfl, call_others hcall t ht⟩
  case writing =>
    split at hs
    next =>
      obtain rfl := Option.some.inj hs
      exact ⟨Function.update_of_ne ht _ _, rfl, rfl⟩
    next =>
      obtain ⟨q, hmove, rfl⟩ := Option.map_eq_some_iff.mp hs
      exact ⟨rfl, rfl, move_others hmove t ht⟩
    next =>
      obtain ⟨q, hmove, rfl⟩ := Option.map_eq_some_iff.mp hs
      exact ⟨rfl, rfl, move_others hmove t ht⟩
  case reading =>
    split at hs
    next r q hleave =>
      obtain rfl := Option.some.inj hs
      exact ⟨Function.update_of_ne ht _ _, rfl, leave_others hleave t ht⟩
    next =>
      obtain ⟨q, hmove, rfl⟩ := Option.map_eq_some_iff.mp hs
      exact ⟨rfl, rfl, move_others hmove t ht⟩
  case loading =>
    subst hs
    exact ⟨Function.update_of_ne ht _ _, rfl, rfl⟩
  case loaded =>
    obtain ⟨a, hcall, rfl⟩ := Option.map_eq_some_iff.mp hs
    exact ⟨Function.update_of_ne ht _ _, call_others hcall t ht, rfl⟩
  case freeing =>
    split at hs
    next =>
      obtain rfl := Option.some.inj hs
      exact ⟨Function.update_of_ne ht _ _, rfl, rfl⟩
    next =>
      obtain ⟨a, hmove, rfl⟩ := Option.map_eq_some_iff.mp hs
      exact ⟨rfl, move_others hmove t ht, rfl⟩

def Event.thread : Event T V → T
  | .send t _ | .read t | .tryread t | .turn t => t

omit [Fintype T] in
theorem step_others {e : Event T V} (hs : s.step setup e = some s') (ht : t ≠ e.thread) :
    s'.task t = s.task t ∧ s'.allocator.pc t = s.allocator.pc t ∧
      s'.queue.pc t = s.queue.pc t := by
  cases e with
  | send u v =>
    rw [System.step] at hs
    split at hs
    · obtain ⟨a, hcall, rfl⟩ := Option.map_eq_some_iff.mp hs
      exact ⟨Function.update_of_ne ht _ _, call_others hcall t ht, rfl⟩
    · cases hs
  | read u | tryread u =>
    rw [System.step] at hs
    split at hs
    · obtain ⟨q, hcall, rfl⟩ := Option.map_eq_some_iff.mp hs
      exact ⟨Function.update_of_ne ht _ _, rfl, call_others hcall t ht⟩
    · cases hs
  | turn u => exact turn_others hs ht

omit [DecidableEq T] in
theorem Valid.sends_of_ne (h : Valid setup c s) (ht : t ≠ c) (hidle : s.task t ≠ .idle) :
    (s.task t).Sends := by
  have hreads := h.reads t
  cases htask : s.task t <;> rw [htask] at hreads hidle
  case idle => exact absurd rfl hidle
  case allocating | filling | filled | writing => trivial
  all_goals exact absurd (hreads trivial) ht

omit [DecidableEq T] in
theorem Valid.remaining_le (h : Valid setup c s) : s.remaining t ≤ 17 := by
  have hfits := h.fits t
  rw [System.remaining]
  cases htask : s.task t <;> rw [htask] at hfits <;> dsimp only
  case allocating =>
    have hrank := rank_le_of_tries hfits.1
    omega
  case writing =>
    have hrank := rank_le (s.queue.pc t)
    omega
  all_goals decide

/-- What the others do does not delay a sender: the turns that it takes until its call returns are
bounded. -/
theorem Valid.sender_turns (h : Valid setup c s) (ht : t ≠ c) {es : List (Event T V)}
    (hes : ∀ e ∈ es, Allowed c e ∧ ∀ v, e ≠ .send t v)
    (hrun : Runs.run (System.step setup) es s = some s') :
    es.countP (Event.isTurn t) + s'.remaining t ≤ s.remaining t := by
  induction es generalizing s with
  | nil =>
    obtain rfl := Option.some.inj hrun
    simp
  | cons e es ih =>
    obtain ⟨m, hm, hrest⟩ := Option.bind_eq_some_iff.mp hrun
    obtain ⟨hallowed, hsend⟩ := hes e List.mem_cons_self
    have hle := ih (h.step hallowed hm) (fun e' he' => hes e' (List.mem_cons_of_mem e he')) hrest
    by_cases hthread : t = e.thread
    · cases e with
      | send u v =>
        subst hthread
        exact absurd rfl (hsend v)
      | read u | tryread u => exact absurd (hthread.trans hallowed) ht
      | turn u =>
        obtain rfl : t = u := hthread
        have hidle : s.task t ≠ .idle := by
          intro hidle
          simp [System.step, System.turn, hidle] at hm
        obtain ⟨m', hm', hlt⟩ := h.sender_turn (h.sends_of_ne ht hidle)
        obtain rfl := Option.some.inj (hm.symm.trans hm')
        have hcount : (Event.turn t :: es : List (Event T V)).countP (Event.isTurn t) =
            es.countP (Event.isTurn t) + 1 :=
          List.countP_cons_of_pos (by simp [Event.isTurn])
        omega
    · obtain ⟨htask, halloc, hqueue⟩ := step_others hm hthread
      have hsame : m.remaining t = s.remaining t := by
        simp only [System.remaining, htask, halloc, hqueue]
      have hcount : (e :: es).countP (Event.isTurn t) = es.countP (Event.isTurn t) := by
        refine List.countP_cons_of_neg ?_
        cases e <;> simp [Event.isTurn]
        exact fun he => hthread he.symm
      omega

/-- `message_queue_message_alloc` and `message_queue_write` never wait: every turn of a sender
changes the state, so that no look at a slot is in vain. -/
theorem sender_wait_free (h : Reachable setup contents c s) (ht : t ≠ c) :
    (s.task t ≠ .idle → ∃ s', s.step setup (.turn t) = some s' ∧ s' ≠ s) ∧
      ∀ es s', (∀ e ∈ es, Allowed c e ∧ ∀ v, e ≠ .send t v) →
        Runs.run (System.step setup) es s = some s' → es.countP (Event.isTurn t) ≤ 17 := by
  have hvalid := valid_of_reachable h
  refine ⟨fun hidle => ?_, fun es s' hes hrun => ?_⟩
  · obtain ⟨s', hs', hlt⟩ := hvalid.sender_turn (hvalid.sends_of_ne ht hidle)
    refine ⟨s', hs', ?_⟩
    rintro rfl
    exact Nat.lt_irrefl _ hlt
  · have hturns := hvalid.sender_turns ht hes hrun
    have hle := hvalid.remaining_le (t := t)
    omega

/-- A sender that has just called takes turns with the reader. -/
theorem sender_wait_free_turns : ∃ s : System Bool ℕ,
    (∃ m, s.step (mqSetup 4096) (.turn false) = some m ∧ m ≠ s) ∧
      ((List.replicate 13 (.turn false) ++ [.read true, .turn true] : List (Event Bool ℕ)).countP
        (Event.isTurn false)) ≤ 17 := by
  let es : List (Event Bool ℕ) := .replicate 13 (.turn false) ++ [.read true, .turn true]
  have hrun : ∃ s : System Bool ℕ, Reachable (mqSetup 4096) (fun _ => 0) true s ∧
      decide (s.task false ≠ .idle ∧
        (Runs.run (System.step (mqSetup 4096)) es s).isSome = true) = true :=
    exists_reachable [.send false 7] _ (by decide) (by decide +kernel)
  obtain ⟨s, hreach, htest⟩ := hrun
  obtain ⟨hidle, hsome⟩ := of_decide_eq_true htest
  obtain ⟨s', hs'⟩ := Option.isSome_iff_exists.mp hsome
  have hes : ∀ e ∈ es, Allowed true e ∧ ∀ v, e ≠ .send false v := by
    simp [es, Allowed]
  obtain ⟨hturn, hcount⟩ := sender_wait_free hreach (by decide : false ≠ true)
  exact ⟨s, hturn hidle, hcount es s' hes hs'⟩

end Senders

section Reader
variable {T V : Type*} [Fintype T] {setup : Setup} {contents : ℕ → V} {c t : T} {s s' : System T V}

theorem Valid.writing_of_puts (h : Valid setup c s) (hp : (s.queue.pc t).Puts) :
    ∃ v, s.task t = .writing v := by
  have hfits := h.fits t
  cases htask : s.task t <;> rw [htask] at hfits
  case writing v => exact ⟨v, rfl⟩
  case reading =>
    obtain htakes | ⟨r, hr⟩ := hfits.2
    · exact absurd htakes (not_takes_of_puts hp)
    · rw [hr] at hp
      exact absurd hp id
  all_goals
    rw [hfits.2] at hp
    exact absurd hp id

def Task.isWriting : Task V → Bool
  | .writing _ => true
  | _ => false

theorem Valid.reading_of_takes (h : Valid setup c s) (hp : (s.queue.pc t).Takes) :
    s.task t = .reading := by
  have hfits := h.fits t
  cases htask : s.task t <;> rw [htask] at hfits
  case writing =>
    obtain hputs | hidle := hfits.2
    · exact absurd hp (not_takes_of_puts hputs)
    · rw [hidle] at hp
      exact absurd hp id
  all_goals
    rw [hfits.2] at hp
    exact absurd hp id

variable [DecidableEq T]

/-- A read that finds nothing overlooks only messages that are being written. -/
theorem tryread_finds (h : Reachable setup contents c s) {a : Attempt}
    (hclaim : s.queue.pc c = .claim a) (hs : s.step setup (.turn c) = some s')
    (hfail : s'.queue.pc c = .giveBack a) :
    (s.pending c).length ≤ (Finset.univ.filter fun u => (s.task u).isWriting = true).card := by
  have hvalid := valid_of_reachable h
  have htask : s.task c = .reading := hvalid.reading_of_takes (by rw [hclaim]; trivial)
  have hleave : s.queue.leave c = none := by rw [State.leave, hclaim]
  have hcount : s.queue.ring.count ≤ 0 := by
    simp only [System.step, System.turn, htask, hleave] at hs
    obtain ⟨q, hmove, rfl⟩ := Option.map_eq_some_iff.mp hs
    have hnext := move_self hmove
    rw [hclaim, show q.pc c = .giveBack a from hfail] at hnext
    by_contra hpos
    simp [next, not_le.mp hpos] at hnext
  have hunclaimed := unclaimed_le hvalid.queue.inv hvalid.queue.sole (by rw [hclaim]; rfl) hcount
  have hwriters : (Finset.univ.filter fun u => (s.queue.pc u).unpublished = true).card ≤
      (Finset.univ.filter fun u => (s.task u).isWriting = true).card := by
    refine Finset.card_le_card (Finset.monotone_filter_right _ fun u _ hu => ?_)
    have hputs : (s.queue.pc u).Puts := by
      cases hq : s.queue.pc u <;> simp [hq, Pc.unpublished] at hu <;> trivial
    obtain ⟨v, hv⟩ := hvalid.writing_of_puts hputs
    rw [hv]
    rfl
  have hpending : s.pending c = s.queue.ring.log.drop s.queue.ring.taken := by
    rw [System.pending, htask, State.line, hclaim]
    rfl
  rw [hpending, List.length_drop]
  omega

/-- The message that the read overlooks has its ticket, and its writer has not come to the count. -/
theorem tryread_finds_late : ∃ s : System Bool ℕ, (s.pending true).length = 1 ∧
    (s.pending true).length ≤
      (Finset.univ.filter fun u => (s.task u).isWriting = true).card := by
  have hrun : ∃ s : System Bool ℕ, Reachable (mqSetup 4096) (fun _ => 0) true s ∧
      decide (s.queue.pc true = .claim .once ∧ (s.pending true).length = 1 ∧
        ((s.step (mqSetup 4096) (.turn true)).any fun s' =>
          s'.queue.pc true = .giveBack .once) = true) = true :=
    exists_reachable (.send false 7 :: .tryread true :: .replicate 8 (.turn false)) _ (by decide)
      (by decide +kernel)
  obtain ⟨s, hreach, htest⟩ := hrun
  obtain ⟨hclaim, hlength, hfail⟩ := of_decide_eq_true htest
  obtain ⟨s', hs', hgive⟩ := (Option.any_eq_true _ _).mp hfail
  exact ⟨s, hlength, tryread_finds hreach hclaim hs' (of_decide_eq_true hgive)⟩

end Reader

end Mixnet.Itc
