import Mixnet.Gather
import Mixnet.Graph

/-! The link state calls of a testcase. Every edge has an entry in `link_states` at both of its
ends, and a call asks the fragment at each end, one after the other, to set its own. A request may
not get through, and its response may be an error or come too late. -/
namespace Mixnet.LinkCalls
open Orchestrator (checkHeader checkHeader_eq_none_iff)

/-- `link_states` of every fragment, by neighbor ID. -/
abbrev LinkStates := ℕ → ℕ → Bool

/-- What `_recv_once` says last when a disabled port is drained. -/
abbrev Drained := {code : ErrorCode // code ≠ .none}

abbrev LinkRequest := UInt16 × Bool

/-- The fragments and their ctrl connections: the requests that each has not carried out yet, and
the error codes in the responses that the orchestrator has not read yet. -/
structure Fragments where
  linkStates : LinkStates := fun _ _ => true
  requests : ℕ → List LinkRequest := fun _ => []
  responses : ℕ → List ErrorCode := fun _ => []

section Model
variable (g : Graph)

/-- No result where the assertion on the neighbor ID fails. -/
def taskUpdateLinkState (u : ℕ) (nid : UInt16) (state : Bool) (drained : Drained)
    (links : LinkStates) : Option (LinkStates × ErrorCode) :=
  if nid < UInt16.ofNat (g.topology u).length then
    some (Function.update links u (Function.update (links u) nid.toNat state),
      if state then .none else if drained.val = .recvZeroPending then .none else drained.val)
  else none

/-- One turn of the loop of fragment `u`: it carries out its oldest request and responds. -/
def Fragments.turn (s : Fragments) (u : ℕ) (drained : Drained) : Option Fragments :=
  match s.requests u with
  | [] => none
  | r :: requests => (taskUpdateLinkState g u r.1 r.2 drained s.linkStates).map fun p =>
    { linkStates := p.1
      requests := Function.update s.requests u requests
      responses := Function.update s.responses u (s.responses u ++ [p.2]) }

/-- What happens to a request: what `send_with_timeout` returns, the turns that the fragment makes
while the orchestrator waits, and what `recv_with_timeout` returns. -/
structure Trip where
  send : ErrorCode := .none
  turns : List Drained := [⟨.recvZeroPending, by decide⟩]
  recv : ErrorCode := .none

def Fragments.send (s : Fragments) (u : ℕ) (r : LinkRequest) : Fragments :=
  { s with requests := Function.update s.requests u (s.requests u ++ [r]) }

def Fragments.receive (s : Fragments) (u : ℕ) : Option (Fragments × ErrorCode) :=
  match s.responses u with
  | [] => none
  | ec :: responses =>
    some ({ s with responses := Function.update s.responses u responses },
      checkHeader { type := .changeLinkState, fragmentId := UInt16.ofNat u, errorCode := ec } true
        (UInt16.ofNat u) .changeLinkState)

/-- `fragment_request_response` for a link state. -/
def Fragments.request (s : Fragments) (u : ℕ) (r : LinkRequest) (t : Trip) :
    Option (Fragments × ErrorCode) :=
  if t.send ≠ .none then some (s, t.send)
  else (Runs.run (fun s drained => s.turn g u drained) t.turns (s.send u r)).bind fun s =>
    if t.recv ≠ .none then some (s, t.recv) else s.receive u

structure LinkCall where
  a : ℕ
  b : ℕ
  isEnabled : Bool
  tripA : Trip := {}
  tripB : Trip := {}

/-- Each end is searched in the adjacency list of the other. No result where the assertion on the
indices fails. -/
def changeLinkState (s : Fragments) (c : LinkCall) : Option (Fragments × ErrorCode) :=
  if c.a < g.numNodes ∧ c.b < g.numNodes then
    match (g.topology c.a).idxOf? c.b, (g.topology c.b).idxOf? c.a with
    | some bNidInA, some aNidInB =>
      (s.request g c.a (UInt16.ofNat bNidInA, c.isEnabled) c.tripA).bind fun p =>
        if p.2 ≠ .none then some p
        else p.1.request g c.b (UInt16.ofNat aNidInB, c.isEnabled) c.tripB
    | _, _ => some (s, .badTestcase)
  else none

inductive Event where
  | call (c : LinkCall)
  | turn (u : ℕ) (drained : Drained)

def Fragments.step (s : Fragments) : Event → Option Fragments
  | .call c => (changeLinkState g s c).map Prod.fst
  | .turn u drained => s.turn g u drained

end Model

def Fragments.final (s : Fragments) : LinkStates := fun u =>
  (s.requests u).foldl (fun links r => Function.update links r.1.toNat r.2) (s.linkStates u)

def setLink (links : LinkStates) (u i : ℕ) (state : Bool) : LinkStates :=
  Function.update links u (Function.update (links u) i state)

theorem setLink_apply (links : LinkStates) (u i : ℕ) (state : Bool) (v k : ℕ) :
    setLink links u i state v k = if v = u ∧ k = i then state else links v k := by
  by_cases hv : v = u
  · subst hv
    simp [setLink, Function.update_apply]
  · simp [setLink, hv]

variable {g : Graph} {s s' : Fragments} {u : ℕ} {r : LinkRequest} {t : Trip} {code : ErrorCode}

section Turn
variable {drained : Drained}

theorem turn_cases (h : s.turn g u drained = some s') :
    ∃ r requests ec, s.requests u = r :: requests ∧ s' =
      { linkStates := setLink s.linkStates u r.1.toNat r.2
        requests := Function.update s.requests u requests
        responses := Function.update s.responses u (s.responses u ++ [ec]) } := by
  rw [Fragments.turn] at h
  cases hr : s.requests u with
  | nil => rw [hr] at h; cases h
  | cons r requests =>
    rw [hr] at h
    obtain ⟨p, hp, rfl⟩ := Option.map_eq_some_iff.mp h
    rw [taskUpdateLinkState] at hp
    by_cases hnid : r.1 < UInt16.ofNat (g.topology u).length
    · rw [if_pos hnid] at hp
      obtain rfl := Option.some.inj hp
      exact ⟨r, requests, _, rfl, rfl⟩
    · rw [if_neg hnid] at hp
      cases hp

theorem turn_final (h : s.turn g u drained = some s') : s'.final = s.final := by
  obtain ⟨r, requests, ec, hr, rfl⟩ := turn_cases h
  funext v
  by_cases hv : v = u
  · subst hv
    simp [Fragments.final, setLink, hr]
  · simp [Fragments.final, setLink, hv]

end Turn

theorem send_final : (s.send u r).final = setLink s.final u r.1.toNat r.2 := by
  funext v
  by_cases hv : v = u
  · subst hv
    simp [Fragments.final, Fragments.send, setLink]
  · simp [Fragments.final, Fragments.send, setLink, hv]

theorem receive_cases (h : s.receive u = some (s', code)) :
    ∃ ec responses, s.responses u = ec :: responses ∧
      s' = { s with responses := Function.update s.responses u responses } := by
  rw [Fragments.receive] at h
  cases hr : s.responses u with
  | nil => rw [hr] at h; cases h
  | cons ec responses =>
    rw [hr] at h
    exact ⟨ec, responses, rfl, (Prod.mk.inj (Option.some.inj h)).1.symm⟩

theorem request_rule {P : Fragments → Prop} (hsend : t.send = .none) (h0 : P (s.send u r))
    (hturn : ∀ s s' drained, P s → s.turn g u drained = some s' → P s')
    (h : s.request g u r t = some (s', code)) :
    ∃ s₁, P s₁ ∧ (t.recv ≠ .none ∧ s' = s₁ ∧ code = t.recv ∨
      t.recv = .none ∧ s₁.receive u = some (s', code)) := by
  rw [Fragments.request, if_neg (not_not.mpr hsend)] at h
  obtain ⟨s₁, hrun, hrecv⟩ := Option.bind_eq_some_iff.mp h
  refine ⟨s₁, Runs.run_invariant hturn h0 hrun, ?_⟩
  by_cases hr : t.recv = .none
  · rw [if_neg (not_not.mpr hr)] at hrecv
    exact Or.inr ⟨hr, hrecv⟩
  · rw [if_pos hr] at hrecv
    obtain ⟨rfl, rfl⟩ := Prod.mk.inj (Option.some.inj hrecv)
    exact Or.inl ⟨hr, rfl, rfl⟩

theorem request_unsent (hsend : t.send ≠ .none) : s.request g u r t = some (s, t.send) :=
  if_pos hsend

theorem request_final (h : s.request g u r t = some (s', code)) :
    s'.final = if t.send = .none then setLink s.final u r.1.toNat r.2 else s.final := by
  by_cases hsend : t.send = .none
  · rw [if_pos hsend]
    obtain ⟨s₁, hs₁, ⟨-, rfl, -⟩ | ⟨-, hrecv⟩⟩ := request_rule
      (P := fun s₁ => s₁.final = setLink s.final u r.1.toNat r.2) hsend send_final
      (fun _ _ _ hs hturn => (turn_final hturn).trans hs) h
    · exact hs₁
    · obtain ⟨_, _, -, rfl⟩ := receive_cases hrecv
      exact hs₁
  · rw [request_unsent hsend] at h
    obtain ⟨rfl, -⟩ := Prod.mk.inj (Option.some.inj h)
    rw [if_neg hsend]

def Fragments.Idle (s : Fragments) (u : ℕ) : Prop := s.requests u = [] ∧ s.responses u = []

theorem request_none (hidle : s.Idle u) (h : s.request g u r t = some (s', .none)) :
    s' = { s with linkStates := setLink s.linkStates u r.1.toNat r.2 } := by
  have hsend : t.send = .none := by
    by_contra hsend
    rw [request_unsent hsend] at h
    exact hsend (Prod.mk.inj (Option.some.inj h)).2
  -- the request is still to be carried out, or its response is there
  obtain ⟨s₁, hs₁, ⟨hrecv, -, hcode⟩ | ⟨-, hrecv⟩⟩ := request_rule
    (P := fun s₁ => s₁ = s.send u r ∨ ∃ ec, s₁ =
      { s with
        linkStates := setLink s.linkStates u r.1.toNat r.2
        responses := Function.update s.responses u [ec] }) hsend (Or.inl rfl)
    (by
      intro s₁ s₂ drained hs₁ hturn
      obtain ⟨r', requests, ec, hr', rfl⟩ := turn_cases hturn
      obtain rfl | ⟨ec', rfl⟩ := hs₁
      · have hsent : (s.send u r).requests u = [r] := by simp [Fragments.send, hidle.1]
        obtain ⟨rfl, rfl⟩ := List.cons.inj (hsent.symm.trans hr')
        refine Or.inr ⟨ec, ?_⟩
        have hback : Function.update (s.send u r).requests u [] = s.requests := by
          rw [Fragments.send, Function.update_idem, ← hidle.1, Function.update_eq_self]
        rw [hback]
        simp [Fragments.send, hidle.2]
      · exact absurd (hidle.1.symm.trans hr') (by simp)) h
  · exact absurd hcode.symm hrecv
  · obtain ⟨ec, responses, hresp, rfl⟩ := receive_cases hrecv
    obtain rfl | ⟨ec', rfl⟩ := hs₁
    · exact absurd (hidle.2.symm.trans hresp) (by simp)
    · dsimp only at hresp ⊢
      rw [Function.update_self] at hresp
      obtain ⟨rfl, rfl⟩ := List.cons.inj hresp
      rw [Function.update_idem, ← hidle.2, Function.update_eq_self]

section Calls
variable {c : LinkCall} {i j : ℕ} {links : LinkStates}

def LinkCall.SendsA (c : LinkCall) : Prop := c.tripA.send = .none

def LinkCall.SendsB (g : Graph) (s : Fragments) (c : LinkCall) : Prop :=
  (((g.topology c.a).idxOf? c.b).bind fun i =>
      s.request g c.a (UInt16.ofNat i, c.isEnabled) c.tripA).any (fun p => p.2 = .none) = true ∧
    c.tripB.send = .none

instance (c : LinkCall) : Decidable c.SendsA := inferInstanceAs (Decidable (_ = _))
instance (g : Graph) (s : Fragments) (c : LinkCall) : Decidable (c.SendsB g s) :=
  inferInstanceAs (Decidable (_ = true ∧ _))

/-- The entries that a call sets sooner or later, where `i` and `j` are the two neighbor IDs. -/
def LinkCall.set (g : Graph) (s : Fragments) (c : LinkCall) (i j : ℕ) : LinkStates :=
  let links := if c.SendsA then setLink s.final c.a i c.isEnabled else s.final
  if c.SendsB g s then setLink links c.b j c.isEnabled else links

/-- A call sends both of its requests or none, or only the first one where that changes nothing. -/
def Fragments.Whole (g : Graph) (s : Fragments) : Event → Prop
  | .call c => ∀ i ∈ (g.topology c.a).idxOf? c.b,
      (c.SendsA ↔ c.SendsB g s) ∨ s.final c.a i = c.isEnabled
  | .turn _ _ => True

instance (g : Graph) (s : Fragments) : DecidablePred (s.Whole g)
  | .call c => inferInstanceAs (Decidable (∀ i ∈ (g.topology c.a).idxOf? c.b,
      (c.SendsA ↔ c.SendsB g s) ∨ s.final c.a i = c.isEnabled))
  | .turn _ _ => .isTrue trivial

theorem idxOf?_of_getElem? {l : List ℕ} (hl : l.Nodup) {v k : ℕ} (h : l[k]? = some v) :
    l.idxOf? v = some k := by
  obtain ⟨hk, rfl⟩ := List.getElem?_eq_some_iff.mp h
  rw [List.idxOf?_eq_some_iff]
  exact ⟨hk, rfl, fun j hj he => absurd (hl.getElem_inj_iff.mp he) hj.ne⟩

theorem getElem?_inj_of_nodup {l : List ℕ} (hl : l.Nodup) {v j k : ℕ} (hj : l[j]? = some v)
    (hk : l[k]? = some v) : j = k :=
  Option.some.inj ((idxOf?_of_getElem? hl hj).symm.trans (idxOf?_of_getElem? hl hk))

structure Sized (g : Graph) : Prop extends g.Simple where
  numNodes_lt : g.numNodes < 65536

theorem Sized.degree_lt (hg : Sized g) (u : ℕ) : (g.topology u).length < 65536 :=
  (hg.toSimple.degree_le u).trans_lt hg.numNodes_lt

theorem Sized.toNat_ofNat (hg : Sized g) {u v i : ℕ} (hi : (g.topology u)[i]? = some v) :
    (UInt16.ofNat i).toNat = i := by
  obtain ⟨hlt, -⟩ := List.getElem?_eq_some_iff.mp hi
  exact UInt16.toNat_ofNat_of_lt' (hlt.trans (hg.degree_lt u))

theorem call_cases (hg : Sized g) (hi : (g.topology c.a)[i]? = some c.b)
    (hj : (g.topology c.b)[j]? = some c.a) (h : changeLinkState g s c = some (s', code)) :
    ∃ s₁ code₁, s.request g c.a (UInt16.ofNat i, c.isEnabled) c.tripA = some (s₁, code₁) ∧
      (code₁ ≠ .none ∧ s' = s₁ ∧ code = code₁ ∧ ¬ c.SendsB g s ∨
        code₁ = .none ∧ (c.SendsB g s ↔ c.tripB.send = .none) ∧
          s₁.request g c.b (UInt16.ofNat j, c.isEnabled) c.tripB = some (s', code)) := by
  have hidx := idxOf?_of_getElem? (hg.nodup _) hi
  have ha := hg.toSimple.lt_left (List.mem_of_getElem? hi)
  have hb := hg.toSimple.lt_left (List.mem_of_getElem? hj)
  rw [changeLinkState, if_pos ⟨ha, hb⟩, hidx, idxOf?_of_getElem? (hg.nodup _) hj] at h
  obtain ⟨⟨s₁, code₁⟩, hA, hrest⟩ := Option.bind_eq_some_iff.mp h
  have hsends : c.SendsB g s ↔ code₁ = .none ∧ c.tripB.send = .none := by
    simp [LinkCall.SendsB, hidx, hA]
  refine ⟨s₁, code₁, hA, ?_⟩
  by_cases hcode : code₁ = .none
  · rw [if_neg (not_not.mpr hcode)] at hrest
    exact Or.inr ⟨hcode, hsends.trans (and_iff_right hcode), hrest⟩
  · rw [if_pos hcode] at hrest
    obtain ⟨rfl, rfl⟩ := Prod.mk.inj (Option.some.inj hrest)
    exact Or.inl ⟨hcode, rfl, rfl, fun hB => hcode (hsends.mp hB).1⟩

theorem call_final (hg : Sized g) (hi : (g.topology c.a)[i]? = some c.b)
    (hj : (g.topology c.b)[j]? = some c.a) (h : changeLinkState g s c = some (s', code)) :
    s'.final = c.set g s i j := by
  obtain ⟨s₁, code₁, hA, ⟨-, rfl, -, hB⟩ | ⟨-, hB, hrest⟩⟩ := call_cases hg hi hj h
  · rw [request_final hA, hg.toNat_ofNat hi, LinkCall.set, if_neg hB]
    rfl
  · rw [request_final hrest, request_final hA, hg.toNat_ofNat hi, hg.toNat_ofNat hj, LinkCall.set]
    exact if_congr hB.symm rfl rfl

/-- A call that reports no error, while nothing else is under way to its two fragments, has set its
two entries and no other. -/
theorem call_none (hg : Sized g) (hi : (g.topology c.a)[i]? = some c.b)
    (hj : (g.topology c.b)[j]? = some c.a) (h : changeLinkState g s c = some (s', .none))
    (ha : s.Idle c.a) (hb : s.Idle c.b) : s' = { s with
      linkStates := setLink (setLink s.linkStates c.a i c.isEnabled) c.b j c.isEnabled } := by
  obtain ⟨s₁, code₁, hA, ⟨hcode, -, hnone, -⟩ | ⟨rfl, -, hrest⟩⟩ := call_cases hg hi hj h
  · exact absurd hnone.symm hcode
  · have hs₁ := request_none ha hA
    have hb₁ : s₁.Idle c.b := by rw [hs₁]; exact hb
    rw [request_none hb₁ hrest, hs₁, hg.toNat_ofNat hi, hg.toNat_ofNat hj]

theorem call_other (ha : c.a < g.numNodes) (hb : c.b < g.numNodes) (hnot : c.b ∉ g.topology c.a) :
    changeLinkState g s c = some (s, .badTestcase) := by
  rw [changeLinkState, if_pos ⟨ha, hb⟩, List.idxOf?_eq_none_iff.mpr hnot]

theorem call_indices (h : changeLinkState g s c = some (s', code)) :
    c.a < g.numNodes ∧ c.b < g.numNodes := by
  by_contra hnot
  rw [changeLinkState, if_neg hnot] at h
  cases h

end Calls

section Pending

def Fragments.Valid (g : Graph) (s : Fragments) : Prop :=
  ∀ u, ∀ r ∈ s.requests u, r.1.toNat < (g.topology u).length

theorem Fragments.Valid.turn {drained : Drained} (hs : s.Valid g)
    (h : s.turn g u drained = some s') : s'.Valid g := by
  obtain ⟨r, requests, ec, hr, rfl⟩ := turn_cases h
  intro v r' hr'
  by_cases hv : v = u
  · subst hv
    refine hs v r' ?_
    rw [hr]
    exact List.mem_cons_of_mem r (by simpa using hr')
  · exact hs v r' (by simpa [hv] using hr')

theorem Fragments.Valid.request (hs : s.Valid g) (hr : r.1.toNat < (g.topology u).length)
    (h : s.request g u r t = some (s', code)) : s'.Valid g := by
  by_cases hsend : t.send = .none
  · have hsent : (s.send u r).Valid g := by
      intro v r' hr'
      by_cases hv : v = u
      · subst hv
        simp only [Fragments.send, Function.update_self] at hr'
        obtain hr' | hr' := List.mem_append.mp hr'
        · exact hs v r' hr'
        · rwa [List.mem_singleton.mp hr']
      · exact hs v r' (by simpa [Fragments.send, hv] using hr')
    obtain ⟨s₁, hs₁, ⟨-, rfl, -⟩ | ⟨-, hrecv⟩⟩ := request_rule hsend hsent
      (fun _ _ _ hs hturn => hs.turn hturn) h
    · exact hs₁
    · obtain ⟨_, _, -, rfl⟩ := receive_cases hrecv
      exact hs₁
  · rw [request_unsent hsend] at h
    obtain ⟨rfl, -⟩ := Prod.mk.inj (Option.some.inj h)
    exact hs

theorem Fragments.Valid.call (hg : Sized g) {c : LinkCall} (hs : s.Valid g)
    (h : changeLinkState g s c = some (s', code)) : s'.Valid g := by
  obtain ⟨ha, hb⟩ := call_indices h
  by_cases hmem : c.b ∈ g.topology c.a
  · obtain ⟨i, hi⟩ := List.getElem?_of_mem hmem
    obtain ⟨j, hj⟩ := List.getElem?_of_mem (hg.symm _ _ hmem)
    have hlt : ∀ {u v k : ℕ}, (g.topology u)[k]? = some v →
        (UInt16.ofNat k).toNat < (g.topology u).length := by
      intro u v k hk
      rw [hg.toNat_ofNat hk]
      exact (List.getElem?_eq_some_iff.mp hk).1
    obtain ⟨s₁, code₁, hA, ⟨-, rfl, -, -⟩ | ⟨-, -, hrest⟩⟩ := call_cases hg hi hj h
    · exact hs.request (hlt hi) hA
    · exact (hs.request (hlt hi) hA).request (hlt hj) hrest
  · rw [call_other ha hb hmem] at h
    obtain ⟨rfl, -⟩ := Prod.mk.inj (Option.some.inj h)
    exact hs

theorem Fragments.Valid.turn_enabled (hg : Sized g) (hs : s.Valid g) (hr : s.requests u ≠ [])
    (drained : Drained) : ∃ s', s.turn g u drained = some s' := by
  obtain ⟨r, requests, hcons⟩ := List.exists_cons_of_ne_nil hr
  have hnid : r.1 < UInt16.ofNat (g.topology u).length := by
    rw [UInt16.lt_iff_toNat_lt, UInt16.toNat_ofNat_of_lt' (hg.degree_lt u)]
    exact hs u r (by simp [hcons])
  rw [Fragments.turn, hcons]
  dsimp only
  rw [taskUpdateLinkState, if_pos hnid]
  exact ⟨_, rfl⟩

end Pending

section Symmetric
variable {c : LinkCall} {i j : ℕ} {links : LinkStates}

def Symmetric (g : Graph) (links : LinkStates) : Prop :=
  ∀ u v i j, (g.topology u)[i]? = some v → (g.topology v)[j]? = some u → links u i = links v j

theorem edge_iff (hg : g.Simple) {a b v k l : ℕ} (hi : (g.topology a)[i]? = some b)
    (hj : (g.topology b)[j]? = some a) (hk : (g.topology u)[k]? = some v)
    (hl : (g.topology v)[l]? = some u) : u = a ∧ k = i ↔ v = b ∧ l = j := by
  constructor
  · rintro ⟨rfl, rfl⟩
    obtain rfl : v = b := Option.some.inj (hk.symm.trans hi)
    exact ⟨rfl, getElem?_inj_of_nodup (hg.nodup v) hl hj⟩
  · rintro ⟨rfl, rfl⟩
    obtain rfl : u = a := Option.some.inj (hl.symm.trans hj)
    exact ⟨rfl, getElem?_inj_of_nodup (hg.nodup u) hk hi⟩

theorem LinkCall.SendsB.sendsA (h : c.SendsB g s) : c.SendsA := by
  obtain ⟨p, hp, hnone⟩ := (Option.any_eq_true _ _).mp h.1
  obtain ⟨i, -, hreq⟩ := Option.bind_eq_some_iff.mp hp
  by_contra hsend
  rw [request_unsent hsend] at hreq
  obtain rfl := Option.some.inj hreq
  exact hsend (of_decide_eq_true hnone)

theorem Symmetric.set (hg : g.Simple) (h : Symmetric g s.final)
    (hi : (g.topology c.a)[i]? = some c.b) (hj : (g.topology c.b)[j]? = some c.a)
    (hwhole : c.SendsA ↔ c.SendsB g s) : Symmetric g (c.set g s i j) := by
  by_cases hA : c.SendsA
  · rw [LinkCall.set, if_pos hA, if_pos (hwhole.mp hA)]
    intro u v k l hk hl
    simp only [setLink_apply, edge_iff hg hi hj hk hl, edge_iff hg hj hi hk hl, h u v k l hk hl]
    split_ifs <;> rfl
  · rwa [LinkCall.set, if_neg hA, if_neg (mt hwhole.mpr hA)]

/-- A call that sends only its first request leaves the two entries equal exactly if that request
changes nothing. -/
theorem symmetric_set_iff (hg : g.Simple) (h : Symmetric g s.final)
    (hi : (g.topology c.a)[i]? = some c.b) (hj : (g.topology c.b)[j]? = some c.a) :
    Symmetric g (c.set g s i j) ↔ (c.SendsA ↔ c.SendsB g s) ∨ s.final c.a i = c.isEnabled := by
  by_cases hwhole : c.SendsA ↔ c.SendsB g s
  · exact iff_of_true (h.set hg hi hj hwhole) (Or.inl hwhole)
  · have hA : c.SendsA := by
      by_contra hA
      exact hwhole (iff_of_false hA fun hB => hA hB.sendsA)
    have hB : ¬ c.SendsB g s := fun hB => hwhole (iff_of_true hA hB)
    have hmem := List.mem_of_getElem? hi
    have hne : c.b ≠ c.a := by
      intro he
      rw [he] at hmem
      exact hg.irrefl c.a hmem
    rw [LinkCall.set, if_pos hA, if_neg hB, or_iff_right hwhole]
    constructor
    · intro hsym
      have hends := hsym c.a c.b i j hi hj
      rw [setLink_apply, setLink_apply, if_pos ⟨rfl, rfl⟩, if_neg fun he => hne he.1] at hends
      rw [hends, h c.a c.b i j hi hj]
    · intro hsame
      rwa [setLink, ← hsame, Function.update_eq_self, Function.update_eq_self]

theorem Symmetric.step (hg : Sized g) {e : Event} (h : Symmetric g s.final) (hwhole : s.Whole g e)
    (hs : s.step g e = some s') : Symmetric g s'.final := by
  cases e with
  | turn u drained =>
    rw [turn_final hs]
    exact h
  | call c =>
    obtain ⟨⟨_, code⟩, hcall, rfl⟩ := Option.map_eq_some_iff.mp hs
    obtain ⟨ha, hb⟩ := call_indices hcall
    by_cases hmem : c.b ∈ g.topology c.a
    · obtain ⟨i, hi⟩ := List.getElem?_of_mem hmem
      obtain ⟨j, hj⟩ := List.getElem?_of_mem (hg.symm _ _ hmem)
      rw [call_final hg hi hj hcall, symmetric_set_iff hg.toSimple h hi hj]
      exact hwhole i (idxOf?_of_getElem? (hg.nodup _) hi)
    · rw [call_other ha hb hmem] at hcall
      obtain ⟨rfl, -⟩ := Prod.mk.inj (Option.some.inj hcall)
      exact h

end Symmetric

theorem final_idle (h : ∀ u, s.requests u = []) : s.final = s.linkStates := by
  funext u
  rw [Fragments.final, h u]
  rfl

theorem build_sized {n : UInt16} {calls : List Graph.Call} (hbuild : Graph.build n calls = some g) :
    Sized g where
  toSimple := Graph.build_simple hbuild
  numNodes_lt := by
    rw [Graph.build_numNodes hbuild]
    exact n.toNat_lt

/-- In every graph that the testcase can build: a call for two nodes that are not adjacent changes
nothing. A call for an edge will set exactly those of its two entries whose requests are sent, and
one that reports no error, with nothing else under way to its two fragments, has set both. A
fragment carries out any request without failing its assertion. And after calls that send both of
their requests or none, or only one that changes nothing, the entries of every edge are equal once
all requests are carried out. -/
theorem links_change_together {n : UInt16} {graphCalls : List Graph.Call}
    (hbuild : Graph.build n graphCalls = some g) :
    (∀ (s : Fragments) (c : LinkCall), c.a < g.numNodes → c.b < g.numNodes →
      c.b ∉ g.topology c.a → changeLinkState g s c = some (s, .badTestcase)) ∧
    (∀ (s s' : Fragments) (c : LinkCall) (code : ErrorCode) (i j : ℕ),
      (g.topology c.a)[i]? = some c.b → (g.topology c.b)[j]? = some c.a →
      changeLinkState g s c = some (s', code) → s'.final = c.set g s i j ∧
        (code = .none → s.Idle c.a → s.Idle c.b → s' = { s with
          linkStates := setLink (setLink s.linkStates c.a i c.isEnabled) c.b j c.isEnabled })) ∧
    (∀ s, Runs.Reach (Fragments.step g) (fun _ _ => True) {} s → ∀ u drained, s.requests u ≠ [] →
      ∃ s', s.turn g u drained = some s' ∧ s'.final = s.final) ∧
    ∀ s, Runs.Reach (Fragments.step g) (Fragments.Whole g) {} s →
      (∀ u, s.requests u = []) → Symmetric g s.linkStates := by
  have hg := build_sized hbuild
  refine ⟨fun s c => call_other, ?_, ?_, ?_⟩
  · intro s s' c code i j hi hj h
    refine ⟨call_final hg hi hj h, ?_⟩
    rintro rfl
    exact call_none hg hi hj h
  · intro s hreach u drained hr
    have hvalid : s.Valid g := by
      refine hreach.invariant (P := fun s => s.Valid g) (fun _ _ hr => by simp at hr) ?_
      intro s s' e hs _ hstep
      cases e with
      | turn u drained => exact hs.turn hstep
      | call c =>
        obtain ⟨⟨_, code⟩, hcall, rfl⟩ := Option.map_eq_some_iff.mp hstep
        exact hs.call hg hcall
    obtain ⟨s', hturn⟩ := hvalid.turn_enabled hg hr drained
    exact ⟨s', hturn, turn_final hturn⟩
  · intro s hreach hdone
    rw [← final_idle hdone]
    refine hreach.invariant (P := fun s => Symmetric g s.final) (fun _ _ _ _ _ _ => rfl) ?_
    intro s s' e hs hwhole hstep
    exact hs.step hg hwhole hstep

/-- The link 0-1 is disabled. A call that cannot send its first request fails; the next one enables
the link, but fragment 0 carries out its request only after the call has given up. -/
def linkTrials : List Event :=
  [.call { a := 0, b := 1, isEnabled := false },
    .call { a := 0, b := 1, isEnabled := true, tripA := { send := .sendReqsTimeout } },
    .call { a := 1, b := 0, isEnabled := true, tripB := { turns := [], recv := .recvWaitTimeout } },
    .turn 0 ⟨.recvZeroPending, by decide⟩]

theorem links_change_together_pair : ∃ (g : Graph) (s : Fragments),
    Graph.build 2 [.addEdge ⟨0, 1⟩ ⟨1, 1⟩] = some g ∧
      Runs.run (fun (s : Fragments) e => if s.Whole g e then s.step g e else none) linkTrials {} =
        some s ∧
      s.linkStates 0 0 = true ∧ (∀ u, s.requests u = []) ∧ Symmetric g s.linkStates := by
  have hrun : ∃ g, Graph.build 2 [.addEdge ⟨0, 1⟩ ⟨1, 1⟩] = some g ∧ ∃ s : Fragments,
      Runs.run (fun (s : Fragments) e => if s.Whole g e then s.step g e else none) linkTrials {} =
        some s ∧ s.linkStates 0 0 = true ∧ ∀ u, s.requests u = [] := by
    refine ⟨_, rfl, _, rfl, rfl, fun u => ?_⟩
    match u with
    | 0 | 1 => rfl
    | _ + 2 => rfl
  obtain ⟨g, hbuild, s, hs, hzero, hdone⟩ := hrun
  exact ⟨g, s, hbuild, hs, hzero, hdone, (links_change_together hbuild).2.2.2 s
    (Runs.reach_of_checked hs) hdone⟩

/-- The second request of a call never reaches its fragment, and only one direction of the link is
disabled. And the response to a call that has given up answers the next one, which reports no error
before fragment 0 has carried out its request. -/
theorem link_changed_at_one_end :
    (∃ (g : Graph) (c : LinkCall) (s : Fragments) (code : ErrorCode),
      Graph.build 2 [.addEdge ⟨0, 1⟩ ⟨1, 1⟩] = some g ∧
        changeLinkState g {} c = some (s, code) ∧ code ≠ .none ∧
        s.linkStates 0 0 = false ∧ s.linkStates 1 0 = true ∧ ¬ Symmetric g s.linkStates) ∧
    ∃ (g : Graph) (c c' : LinkCall) (s s' : Fragments),
      Graph.build 2 [.addEdge ⟨0, 1⟩ ⟨1, 1⟩] = some g ∧
        Runs.run (Fragments.step g) [.call c, .turn 0 ⟨.recvZeroPending, by decide⟩] {} = some s ∧
        changeLinkState g s c' = some (s', .none) ∧
        c'.a = 0 ∧ c'.isEnabled = true ∧ s'.linkStates 0 0 = false := by
  let c : LinkCall := { a := 0, b := 1, isEnabled := false, tripB := { send := .sendReqsTimeout } }
  refine ⟨⟨_, c, _, _, rfl, rfl, ?_, ?_, ?_, ?_⟩, ?_⟩
  · decide
  · decide
  · decide
  · intro h
    exact absurd (h 0 1 0 0 rfl rfl) (by decide)
  · let late : LinkCall :=
      { a := 0, b := 1, isEnabled := false, tripA := { turns := [], recv := .recvWaitTimeout } }
    let next : LinkCall := { a := 0, b := 1, isEnabled := true, tripA := { turns := [] } }
    exact ⟨_, late, next, _, _, rfl, rfl, rfl, rfl, rfl, rfl⟩

end Mixnet.LinkCalls
