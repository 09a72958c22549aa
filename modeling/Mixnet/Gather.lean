import Mathlib.Data.Int.Notation
import Mathlib.Data.List.Nodup
import Mathlib.Data.List.Perm.Subperm
import Mathlib.Tactic.SplitIfs
import Mixnet.MessageCodec

/-! The exchanges of the orchestrator with all its fragments: a request to each of them in order,
and an answer from each of them in whatever order they come. -/
namespace Mixnet.Orchestrator
open Codec (MessageType)

/-- The rule by which errors accumulate: the first one stays. -/
def accumulate (errorCode ec : ErrorCode) : ErrorCode := if errorCode = .none then ec else errorCode

@[simp] theorem accumulate_none (errorCode : ErrorCode) :
    accumulate errorCode .none = errorCode := by
  unfold accumulate
  split_ifs with h
  · exact h.symm
  · rfl

def firstError (codes : List ErrorCode) : ErrorCode := (codes.find? (· ≠ .none)).getD .none

theorem foldl_accumulate (codes : List ErrorCode) (errorCode : ErrorCode) :
    codes.foldl accumulate errorCode = accumulate errorCode (firstError codes) := by
  induction codes generalizing errorCode with
  | nil => by_cases h : errorCode = .none <;> simp [accumulate, firstError, h]
  | cons ec codes ih =>
    rw [List.foldl_cons, ih]
    by_cases h : errorCode = .none
    · by_cases hec : ec = .none <;> simp [accumulate, firstError, h, hec]
    · simp [accumulate, h]

theorem firstError_eq_none_iff {codes : List ErrorCode} :
    firstError codes = .none ↔ ∀ ec ∈ codes, ec = .none := by
  induction codes with
  | nil => simp [firstError]
  | cons ec codes ih =>
    by_cases hec : ec = .none
    · simpa [firstError, hec] using ih
    · simp [firstError, hec]

theorem firstError_append (codes codes' : List ErrorCode) :
    firstError (codes ++ codes') = accumulate (firstError codes) (firstError codes') := by
  rw [← foldl_accumulate]
  have h := foldl_accumulate (codes ++ codes') .none
  rw [List.foldl_append, foldl_accumulate codes] at h
  simpa [accumulate] using h.symm

/-- A message that was received, as the accessors of message.cpp read it. The last two fields are
the payload of a SETUP_CTRL response and the `total_size` of a captured packet. -/
structure Reply where
  valid : Bool := true
  isRequest : Bool := false
  type : MessageType
  fragmentId : UInt16
  errorCode : ErrorCode := .none
  pid : ℤ := 0
  totalSize : UInt16 := 0
deriving DecidableEq

def checkHeader (m : Reply) (checkId : Bool) (fid : UInt16) (type : MessageType) : ErrorCode :=
  if !m.valid then .malformedMessage
  else if checkId && m.fragmentId ≠ fid then .badFragmentId
  else if m.isRequest || m.type ≠ type then .badMessageCode
  else if m.errorCode ≠ .none then .fragmentException
  else .none

theorem checkHeader_eq_none_iff {m : Reply} {checkId : Bool} {fid : UInt16} {type : MessageType} :
    checkHeader m checkId fid type = .none ↔ m.valid = true ∧
      (checkId = true → m.fragmentId = fid) ∧ m.isRequest = false ∧ m.type = type ∧
      m.errorCode = .none := by
  obtain ⟨valid, isRequest, mtype, fragmentId, errorCode, pid, totalSize⟩ := m
  by_cases hid : fragmentId = fid <;> by_cases ht : mtype = type <;>
    by_cases he : errorCode = .none <;> cases valid <;> cases isRequest <;> cases checkId <;>
    simp [checkHeader, hid, ht, he]

/-- `check_header` on the bytes of a message; no result where an accessor's assertion fails. -/
def checkHeaderAt (buffer : Buffer) (checkId : Bool) (fid : UInt16) (type : MessageType) :
    Option ErrorCode :=
  (Codec.validate buffer).bind fun valid =>
    if !valid then some .malformedMessage
    else if checkId && Codec.getFragmentId buffer ≠ fid then some .badFragmentId
    else (Codec.getType buffer).bind fun t =>
      if Codec.isRequest buffer || t ≠ type then some .badMessageCode
      else (Codec.getErrorCode buffer).map fun ec =>
        if ec ≠ .none then .fragmentException else .none

theorem ofNat_inj {n : UInt16} {i j : ℕ} (hi : i < n.toNat) (hj : j < n.toNat)
    (h : UInt16.ofNat i = UInt16.ofNat j) : i = j := by
  have hn := n.toNat_lt
  have hmod := congrArg UInt16.toNat h
  rwa [UInt16.toNat_ofNat', UInt16.toNat_ofNat', Nat.mod_eq_of_lt (by omega),
    Nat.mod_eq_of_lt (by omega)] at hmod

section Send

/-- `foreach_fragment_send_generic`, with the codes of the sends made before its time is up. -/
def foreachSend (numFds : ℕ) (codes : List ErrorCode) : ErrorCode :=
  let sends := codes.take numFds
  let errorCode := sends.foldl accumulate .none
  if errorCode = .none ∧ numFds - sends.length ≠ 0 then .sendReqsTimeout else errorCode

end Send

section Receive
variable {σ : Type*}

inductive Answer where
  | failed (code : ErrorCode) (h : code ≠ .none)
  | message (m : Reply)
deriving DecidableEq

/-- One turn of the poll loop: the answers of the descriptors that are ready. -/
abbrev Round := ℕ → Option Answer

/-- The variables of `foreach_fragment_recv_generic`, around the state that its callback works
on. `answered` lists the descriptors that are no longer polled. -/
structure Gather (σ : Type*) where
  errorCode : ErrorCode
  answered : List ℕ
  numPending : ℕ
  state : σ

structure Exchange (σ : Type*) where
  checkFragmentIds : Bool
  fds : List ℤ
  type : MessageType
  process : ℕ → Reply → σ → ErrorCode × σ

def Exchange.answer (x : Exchange σ) (idx : ℕ) (s : σ) : Answer → ErrorCode × σ
  | .failed code _ => (code, s)
  | .message m =>
    let ec := checkHeader m x.checkFragmentIds (UInt16.ofNat idx) x.type
    if ec = .none then x.process idx m s else (ec, s)

def Exchange.take (x : Exchange σ) (g : Gather σ) (idx : ℕ) (a : Answer) : Gather σ where
  errorCode := accumulate g.errorCode (x.answer idx g.state a).1
  answered := idx :: g.answered
  numPending := g.numPending - 1
  state := (x.answer idx g.state a).2

def Exchange.visit (x : Exchange σ) (round : Round) (g : Gather σ) (idx : ℕ) : Gather σ :=
  match round idx with
  | none => g
  | some a => if 0 < x.fds.getD idx (-1) ∧ idx ∉ g.answered then x.take g idx a else g

/-- The poll loop, over the turns made before its time is up. -/
def Exchange.loop (x : Exchange σ) : List Round → Gather σ → Gather σ
  | [], g => g
  | round :: rounds, g =>
    if g.numPending ≠ 0 then
      x.loop rounds ((List.range x.fds.length).foldl (x.visit round) g)
    else g

def Exchange.start (x : Exchange σ) (s : σ) : Gather σ := ⟨.none, [], x.fds.length, s⟩

/-- `foreach_fragment_recv_generic`. -/
def Exchange.recv (x : Exchange σ) (rounds : List Round) (s : σ) : ErrorCode × σ :=
  let g := x.loop rounds (x.start s)
  (if g.errorCode = .none ∧ g.numPending ≠ 0 then .recvWaitTimeout else g.errorCode, g.state)

/-- The loop rule: what every answer preserves, the whole exchange preserves. -/
theorem Exchange.loop_invariant (x : Exchange σ) {Q : Gather σ → Prop} (rounds : List Round)
    (hstep : ∀ g idx a, Q g → idx < x.fds.length → 0 < x.fds.getD idx (-1) → idx ∉ g.answered →
      (∃ round ∈ rounds, round idx = some a) → Q (x.take g idx a)) (g : Gather σ) (h : Q g) :
    Q (x.loop rounds g) := by
  have hvisit : ∀ round ∈ rounds, ∀ (idxs : List ℕ) (g : Gather σ),
      (∀ i ∈ idxs, i < x.fds.length) → Q g → Q (idxs.foldl (x.visit round) g) := by
    intro round hround idxs
    induction idxs with
    | nil => exact fun g _ hg => hg
    | cons idx idxs ih =>
      intro g hidx hg
      refine ih _ (fun i hi => hidx i (List.mem_cons_of_mem _ hi)) ?_
      rw [Exchange.visit]
      cases ha : round idx with
      | none => exact hg
      | some a =>
        dsimp only
        split_ifs with hready
        · exact hstep g idx a hg (hidx idx List.mem_cons_self) hready.1 hready.2
            ⟨round, hround, ha⟩
        · exact hg
  have hloop : ∀ left, (∀ round ∈ left, round ∈ rounds) → ∀ g, Q g → Q (x.loop left g) := by
    intro left
    induction left with
    | nil => exact fun _ g hg => hg
    | cons round left ih =>
      intro hleft g hg
      rw [Exchange.loop]
      split_ifs
      · refine ih (fun r hr => hleft r (List.mem_cons_of_mem _ hr)) _ ?_
        exact hvisit round (hleft round List.mem_cons_self) _ g (fun i hi => List.mem_range.mp hi) hg
      · exact hg
  exact hloop rounds (fun _ hround => hround) g h

theorem Exchange.foldl_visit_none (x : Exchange σ) {round : Round} {idxs : List ℕ}
    (h : ∀ i ∈ idxs, round i = none) (g : Gather σ) : idxs.foldl (x.visit round) g = g := by
  induction idxs with
  | nil => rfl
  | cons i idxs ih =>
    have hi : x.visit round g i = g := by rw [Exchange.visit, h i List.mem_cons_self]
    rw [List.foldl_cons, hi]
    exact ih fun j hj => h j (List.mem_cons_of_mem _ hj)

theorem Exchange.loop_done (x : Exchange σ) (rounds : List Round) {g : Gather σ}
    (h : g.numPending = 0) : x.loop rounds g = g := by
  cases rounds with
  | nil => rfl
  | cons round rounds => exact if_neg (not_not.mpr h)

theorem Exchange.loop_append (x : Exchange σ) (rounds : List Round) (round : Round) (g : Gather σ) :
    x.loop (rounds ++ [round]) g = x.loop [round] (x.loop rounds g) := by
  induction rounds generalizing g with
  | nil => rfl
  | cons r rounds ih =>
    by_cases hdone : g.numPending = 0
    · rw [x.loop_done _ hdone, x.loop_done _ hdone, x.loop_done _ hdone]
    · have hgo : ∀ left, x.loop (r :: left) g =
          x.loop left ((List.range x.fds.length).foldl (x.visit r) g) := fun _ => if_pos hdone
      rw [List.cons_append, hgo, hgo]
      exact ih _

theorem Exchange.recv_state (x : Exchange σ) {P : σ → Prop}
    (hstep : ∀ idx m s, P s → idx < x.fds.length →
      checkHeader m x.checkFragmentIds (UInt16.ofNat idx) x.type = .none →
      P (x.process idx m s).2) (rounds : List Round) {s : σ} (h : P s) :
    P (x.recv rounds s).2 := by
  refine x.loop_invariant (Q := fun g => P g.state) rounds (fun g idx a hg hidx _ _ _ => ?_) _ h
  change P (x.answer idx g.state a).2
  cases a with
  | failed code hcode => exact hg
  | message m =>
    rw [Exchange.answer]
    split_ifs with hcheck
    · exact hstep idx m g.state hg hidx hcheck
    · exact hg

theorem Exchange.loop_counts (x : Exchange σ) (rounds : List Round) (s : σ) :
    let g := x.loop rounds (x.start s)
    g.numPending + g.answered.length = x.fds.length ∧ g.answered.Nodup ∧
      ∀ idx ∈ g.answered, idx < x.fds.length := by
  refine x.loop_invariant (Q := fun g => g.numPending + g.answered.length = x.fds.length ∧
    g.answered.Nodup ∧ ∀ idx ∈ g.answered, idx < x.fds.length) rounds ?_ _ (by simp [start])
  rintro g idx a ⟨hsum, hnodup, hlt⟩ hidx - hnew -
  have hall : (idx :: g.answered).Nodup := List.nodup_cons.mpr ⟨hnew, hnodup⟩
  have hbound : ∀ i ∈ idx :: g.answered, i < x.fds.length := by
    intro i hi
    obtain rfl | hi := List.mem_cons.mp hi
    · exact hidx
    · exact hlt i hi
  have hpending : g.answered.length < x.fds.length := by
    have hsub : (idx :: g.answered).length ≤ (List.range x.fds.length).length :=
      (List.subperm_of_subset hall fun i hi => List.mem_range.mpr (hbound i hi)).length_le
    rw [List.length_cons, List.length_range] at hsub
    omega
  refine ⟨?_, hall, hbound⟩
  change g.numPending - 1 + (g.answered.length + 1) = _
  omega

/-- The rule for an exchange that reports nothing: every descriptor has answered, with a good
header, and the callback has reported nothing. `P` is about the descriptors so far. -/
theorem Exchange.recv_none (x : Exchange σ) {P : List ℕ → σ → Prop} (rounds : List Round)
    (hstep : ∀ answered idx m s, P answered s → idx < x.fds.length →
      0 < x.fds.getD idx (-1) → idx ∉ answered →
      (∃ round ∈ rounds, round idx = some (.message m)) →
      checkHeader m x.checkFragmentIds (UInt16.ofNat idx) x.type = .none →
      (x.process idx m s).1 = .none → P (idx :: answered) (x.process idx m s).2)
    {s : σ} (h : P [] s) (hnone : (x.recv rounds s).1 = .none) :
    ∃ answered, P answered (x.recv rounds s).2 ∧ answered.Nodup ∧
      ∀ idx, idx ∈ answered ↔ idx < x.fds.length := by
  obtain ⟨hsum, hnodup, hlt⟩ := x.loop_counts rounds s
  have hP : (x.loop rounds (x.start s)).errorCode = .none →
      P (x.loop rounds (x.start s)).answered (x.loop rounds (x.start s)).state := by
    refine x.loop_invariant (Q := fun g => g.errorCode = .none → P g.answered g.state) rounds
      (fun g idx a hg hidx hfd hnew hround hec => ?_) _ fun _ => h
    have hbefore : g.errorCode = .none := by
      by_contra hne
      simp [Exchange.take, accumulate, hne] at hec
    have hanswer : (x.answer idx g.state a).1 = .none := by
      simpa [Exchange.take, accumulate, hbefore] using hec
    change P (idx :: g.answered) (x.answer idx g.state a).2
    cases a with
    | failed code hcode => exact absurd hanswer hcode
    | message m =>
      rw [Exchange.answer] at hanswer ⊢
      split_ifs at hanswer ⊢ with hcheck
      · exact hstep _ idx m g.state (hg hbefore) hidx hfd hnew hround hcheck hanswer
      · exact absurd hanswer hcheck
  simp only [Exchange.recv] at hnone ⊢
  split_ifs at hnone with hcond
  have hdone : (x.loop rounds (x.start s)).numPending = 0 := by
    by_contra hne
    exact hcond ⟨hnone, hne⟩
  refine ⟨_, hP hnone, hnodup, fun idx => ⟨hlt idx, fun hidx => ?_⟩⟩
  have hsub := List.subperm_of_subset hnodup fun i hi => List.mem_range.mpr (hlt i hi)
  have hperm := hsub.perm_of_length_le (by rw [List.length_range]; omega)
  exact hperm.mem_iff.mpr (List.mem_range.mpr hidx)

def Exchange.turn (x : Exchange σ) (round : Round) : List ℕ → Gather σ → List (ℕ × Answer)
  | [], _ => []
  | idx :: idxs, g =>
    match round idx with
    | none => x.turn round idxs g
    | some a =>
      if 0 < x.fds.getD idx (-1) ∧ idx ∉ g.answered then
        (idx, a) :: x.turn round idxs (x.take g idx a)
      else x.turn round idxs g

def Exchange.takeAll (x : Exchange σ) (g : Gather σ) (taken : List (ℕ × Answer)) : Gather σ :=
  taken.foldl (fun g p => x.take g p.1 p.2) g

def Exchange.schedule (x : Exchange σ) : List Round → Gather σ → List (ℕ × Answer)
  | [], _ => []
  | round :: rounds, g =>
    if g.numPending ≠ 0 then
      let taken := x.turn round (List.range x.fds.length) g
      taken ++ x.schedule rounds (x.takeAll g taken)
    else []

theorem Exchange.takeAll_append (x : Exchange σ) (g : Gather σ) (taken more : List (ℕ × Answer)) :
    x.takeAll g (taken ++ more) = x.takeAll (x.takeAll g taken) more := List.foldl_append ..

theorem Exchange.takeAll_turn (x : Exchange σ) (round : Round) (idxs : List ℕ) (g : Gather σ) :
    x.takeAll g (x.turn round idxs g) = idxs.foldl (x.visit round) g := by
  induction idxs generalizing g with
  | nil => rfl
  | cons idx idxs ih =>
    rw [Exchange.turn, List.foldl_cons, Exchange.visit]
    cases round idx with
    | none => exact ih g
    | some a =>
      dsimp only
      split_ifs
      · exact ih _
      · exact ih g

theorem Exchange.loop_eq (x : Exchange σ) (rounds : List Round) (g : Gather σ) :
    x.loop rounds g = x.takeAll g (x.schedule rounds g) := by
  induction rounds generalizing g with
  | nil => rfl
  | cons round rounds ih =>
    rw [Exchange.loop, Exchange.schedule]
    split_ifs
    · rw [ih, ← Exchange.takeAll_turn, x.takeAll_append]
    · rfl

def Exchange.Takes (x : Exchange σ) (rounds : List Round) (s : σ) (idx : ℕ) (m : Reply) (s' : σ) :
    Prop :=
  ∃ before after, x.schedule rounds (x.start s) = before ++ (idx, .message m) :: after ∧
    s' = (x.takeAll (x.start s) before).state

variable {rounds : List Round} {s s' : σ} {idx : ℕ} {m : Reply}

theorem Exchange.Takes.error {x : Exchange σ} (h : x.Takes rounds s idx m s')
    (herror : (x.process idx m s').1 ≠ .none) : (x.recv rounds s).1 ≠ .none := by
  obtain ⟨before, after, hsplit, rfl⟩ := h
  have hanswer : (x.answer idx (x.takeAll (x.start s) before).state (.message m)).1 ≠ .none := by
    rw [Exchange.answer]
    split_ifs with hcheck
    · exact herror
    · exact hcheck
  have htake : ∀ (g : Gather σ) (p : ℕ × Answer),
      g.errorCode ≠ .none ∨ (x.answer p.1 g.state p.2).1 ≠ .none →
      (x.take g p.1 p.2).errorCode ≠ .none := by
    intro g p h
    change accumulate g.errorCode (x.answer p.1 g.state p.2).1 ≠ .none
    by_cases hg : g.errorCode = .none
    · simpa [accumulate, hg] using h
    · simp [accumulate, hg]
  have hkeep : ∀ (taken : List (ℕ × Answer)) (g : Gather σ), g.errorCode ≠ .none →
      (x.takeAll g taken).errorCode ≠ .none := by
    intro taken
    induction taken with
    | nil => exact fun g hg => hg
    | cons p taken ih => exact fun g hg => ih _ (htake g p (Or.inl hg))
  have hcode : (x.loop rounds (x.start s)).errorCode ≠ .none := by
    rw [x.loop_eq, hsplit, x.takeAll_append]
    exact hkeep after _ (htake _ (idx, .message m) (Or.inr hanswer))
  simp [Exchange.recv, hcode]

theorem Exchange.takeAll_keeps (x : Exchange σ) {R : σ → σ → Prop} (hrefl : ∀ s, R s s)
    (htrans : ∀ s t u, R s t → R t u → R s u) (hstep : ∀ idx m s, R s (x.process idx m s).2)
    (g : Gather σ) (taken : List (ℕ × Answer)) : R g.state (x.takeAll g taken).state := by
  induction taken generalizing g with
  | nil => exact hrefl g.state
  | cons p taken ih =>
    refine htrans _ _ _ ?_ (ih (x.take g p.1 p.2))
    change R g.state (x.answer p.1 g.state p.2).2
    obtain ⟨idx, a⟩ := p
    cases a with
    | failed code hcode => exact hrefl _
    | message m =>
      rw [Exchange.answer]
      split_ifs
      · exact hstep idx m g.state
      · exact hrefl _

theorem Exchange.Takes.keeps {x : Exchange σ} (h : x.Takes rounds s idx m s') {R : σ → σ → Prop}
    (hrefl : ∀ s, R s s) (htrans : ∀ s t u, R s t → R t u → R s u)
    (hstep : ∀ idx m s, R s (x.process idx m s).2) : R s s' ∧ R s' (x.recv rounds s).2 := by
  obtain ⟨before, after, hsplit, rfl⟩ := h
  refine ⟨x.takeAll_keeps hrefl htrans hstep (x.start s) before, ?_⟩
  change R _ (x.loop rounds (x.start s)).state
  rw [x.loop_eq, hsplit, x.takeAll_append]
  exact x.takeAll_keeps hrefl htrans hstep _ _

end Receive

end Mixnet.Orchestrator
