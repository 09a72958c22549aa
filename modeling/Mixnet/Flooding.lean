import Mathlib.Data.List.Count
import Mixnet.Routes
import Mixnet.TreeFlood

/-! One FLOOD in the network, as a flood over a graph `F`. Between deliveries only the flags of
the ports matter: `B` are ports that stay blocked, and every link is an edge of `F` or has one
end in `B`. -/
namespace Mixnet
variable {V : Type*} {T : Topology V}

/-- The copies of a FLOOD: the injecting node has taken in one, every other node as many as it
has given to its user. -/
def Net.flood [DecidableEq V] (s : Net T) (φ : ℕ) : TreeFlood.Flood V where
  seen := fun v => (s.userLog v).count φ + if s.origins[φ]? = some v then 1 else 0
  flying := s.copies φ

def copiesIn (φ : ℕ) (l : List Flight) : ℕ :=
  l.countP fun f => f.packet.type = .flood ∧ f.flood = φ

theorem copiesIn_append (φ : ℕ) (l m : List Flight) :
    copiesIn φ (l ++ m) = copiesIn φ l + copiesIn φ m := List.countP_append

theorem copiesIn_eq_zero {φ : ℕ} {l : List Flight}
    (h : ∀ f ∈ l, f.packet.type = .flood → f.flood ≠ φ) : copiesIn φ l = 0 := by
  rw [copiesIn, List.countP_eq_zero]
  intro f hf
  simpa using h f hf

structure Fresh (s : Net T) : Prop where
  chan : ∀ u v, ∀ f ∈ s.chan u v, f.packet.type = .flood → f.flood < s.origins.length
  log : ∀ v, ∀ φ ∈ s.userLog v, φ < s.origins.length

variable [DecidableEq V]

theorem toUser_sendStp {n : ℕ} (node node' : Node n) (r : Bool) :
    (Outcome.mk node (sendStp node') r).toUser = 0 := by
  rw [Outcome.toUser, List.countP_eq_zero]
  intro q hq
  obtain ⟨i, _, rfl⟩ := List.mem_map.mp hq
  simp

theorem toUser_sendFlood {n : ℕ} (node node' : Node n) (port : Fin (n+1)) (r : Bool) :
    (Outcome.mk node (sendFlood node' port) r).toUser = if port = Fin.last n then 0 else 1 := by
  have hports : ∀ (l : List (Fin n)) (packet : Packet),
      (l.map fun i => (i.castSucc, packet)).countP
        (fun q : Send n => decide (q.1 = Fin.last n)) = 0 := by
    intro l packet
    rw [List.countP_eq_zero]
    intro q hq
    obtain ⟨i, _, rfl⟩ := List.mem_map.mp hq
    simp
  rw [Outcome.toUser, sendFlood, List.countP_append, hports]
  by_cases hp : port = Fin.last n <;> simp [hp]

theorem sendStp_no_flood {n : ℕ} {o : Outcome n} (ho : o.IsStp) :
    (∀ q ∈ o.sends, q.2.type ≠ .flood) ∧ o.toUser = 0 := by
  cases ho with
  | inl hs =>
    refine ⟨fun q hq => ?_, ?_⟩
    · rw [hs] at hq
      obtain ⟨i, _, rfl⟩ := List.mem_map.mp hq
      simp [Node.advert, initializeStpPacket]
    · have hzero := toUser_sendStp o.node o.node o.refreshed
      rwa [← hs] at hzero
  | inr hs => simp [hs, Outcome.toUser]

theorem mem_commit_log {s : Net T} {v : V} {flood : ℕ} {o : Outcome (T.deg v)} {w : V} {φ : ℕ}
    (h : φ ∈ (s.commit v flood o).userLog w) : φ ∈ s.userLog w ∨ o.toUser ≠ 0 ∧ φ = flood := by
  by_cases hw : w = v
  · subst hw
    simpa [Net.commit, List.mem_replicate] using h
  · left
    simpa [Net.commit, hw] using h

theorem Fresh.commit {s : Net T} (h : Fresh s) {v : V} {flood : ℕ} {o : Outcome (T.deg v)}
    (hf : flood < s.origins.length ∨ (∀ q ∈ o.sends, q.2.type ≠ .flood) ∧ o.toUser = 0) :
    Fresh (s.commit v flood o) where
  chan := by
    intro x y f hmem ht
    obtain hold | ⟨_, hnew⟩ := mem_commit_chan hmem
    · exact h.chan x y f hold ht
    · obtain ⟨hflood, q, hq, hpacket⟩ := mem_wire hnew
      obtain hlt | ⟨hno, _⟩ := hf
      · rw [hflood]
        exact hlt
      · rw [← hpacket] at ht
        exact absurd ht (hno q hq)
  log := by
    intro w φ hmem
    obtain hold | ⟨hne, rfl⟩ := mem_commit_log hmem
    · exact h.log w φ hold
    · obtain hlt | ⟨_, hzero⟩ := hf
      · exact hlt
      · exact absurd hzero hne

theorem Fresh.take {s : Net T} (h : Fresh s) {v : V} {i : Fin (T.deg v)} {f : Flight}
    {rest : List Flight} (hchan : s.chan (T.peer v i) v = f :: rest) :
    Fresh (s.take v i f rest) :=
  ⟨fun x y g hg => h.chan x y g (mem_take_chan hchan hg), h.log⟩

theorem Fresh.step {s s' : Net T} {e : Event T} (h : Fresh s) (hs : s.step e = some s') :
    Fresh s' := by
  cases step_case hs with
  | stp v i f rest o hchan ht hc =>
    exact (h.take hchan).commit (Or.inr (sendStp_no_flood hc.isStp))
  | flood v i f rest hchan ht =>
    have hlt : f.flood < s.origins.length := h.chan (T.peer v i) v f (by simp [hchan]) ht
    exact (h.take hchan).commit (Or.inl hlt)
  | other v i f rest hchan _ _ =>
    exact (h.take hchan).commit (Or.inr ⟨by simp, rfl⟩)
  | inject v payload =>
    refine Fresh.commit ⟨fun x y f hf ht => ?_, fun w φ hφ => ?_⟩ (Or.inl ?_)
    · have hold := h.chan x y f hf ht
      simp only [Net.began, List.length_append, List.length_singleton]
      omega
    · have hold := h.log w φ hφ
      simp only [Net.began, List.length_append, List.length_singleton]
      omega
    · simp [Net.began]
  | hello v hroot => exact h.commit (Or.inr (sendStp_no_flood (Or.inl rfl)))
  | reelect v hroot => exact h.commit (Or.inr (sendStp_no_flood (Or.inl rfl)))
  | fail u v =>
    refine ⟨fun x y f hf ht => ?_, h.log⟩
    simp only [Net.cut] at hf
    split_ifs at hf
    · simp at hf
    · exact h.chan x y f hf ht

theorem Fresh.init : Fresh (Net.init T) := by
  refine ⟨fun u v f hf ht => ?_, fun v φ hφ => ?_⟩
  · obtain ⟨_, q, hq, hpacket⟩ := mem_wire hf
    obtain ⟨i, _, rfl⟩ := List.mem_map.mp hq
    rw [← hpacket] at ht
    simp [Node.advert, initializeStpPacket] at ht
  · simp [Net.init] at hφ

theorem fresh_reach {ok : Net T → Event T → Prop} {s t : Net T} (h : Net.Reach ok s t)
    (hs : Fresh s) : Fresh t :=
  Runs.Reach.invariant h hs fun _ _ _ ht _ hstep => ht.step hstep

/-- What is asked of a state while FLOODs run over `F`: ports in `B` are blocked, a link that
is no edge of `F` has an end in `B`; and if the flood is to be complete, edges are open. -/
structure Fence (F : SimpleGraph V) (B : V → V → Prop) (complete : Prop) (s : Net T) : Prop where
  blocked : ∀ v j, B v (T.peer v j) → (s.node v).neighborsBlocked j = true
  cover : ∀ u v, T.graph.Adj u v → s.live u v = true → F.Adj u v ∨ B u v ∨ B v u
  opened : complete → ∀ u v, F.Adj u v → s.live u v = true ∧
    ∃ j, T.peer u j = v ∧ (s.node u).neighborsBlocked j = false

/-- FLOOD number `φ`, injected at `a`, on its way over `F`. -/
structure FloodInv (F : SimpleGraph V) (B : V → V → Prop) (complete : Prop) (φ : ℕ) (a : V)
    (s : Net T) : Prop where
  origin : s.origins[φ]? = some a
  guard : ∀ u v, 0 < s.copies φ u v → T.graph.Adj u v ∧ s.live u v = true ∧ ¬ B u v
  tree : TreeFlood.Inv F complete a (s.flood φ)

theorem copies_commit_quiet {s : Net T} {v : V} {flood φ : ℕ} {o : Outcome (T.deg v)}
    (hs : flood ≠ φ ∨ ∀ q ∈ o.sends, q.2.type ≠ .flood) (x y : V) :
    (s.commit v flood o).copies φ x y = s.copies φ x y := by
  change copiesIn φ (if _ then _ else _) = copiesIn φ _
  split_ifs
  · have hzero : copiesIn φ (T.wire v o flood y) = 0 := by
      refine copiesIn_eq_zero fun f hf ht => ?_
      obtain ⟨hflood, q, hq, hpacket⟩ := mem_wire hf
      obtain hne | hs := hs
      · rw [hflood]
        exact hne
      · rw [← hpacket] at ht
        exact absurd ht (hs q hq)
    rw [copiesIn_append, hzero, Nat.add_zero]
  · rfl

theorem copies_commit_flood (s : Net T) (v : V) (node : Node (T.deg v))
    (port : Fin (T.deg v + 1)) (flood φ : ℕ) (x y : V) :
    (s.commit v flood ⟨node, sendFlood node port, false⟩).copies φ x y = s.copies φ x y +
      if x = v ∧ s.live v y = true ∧ flood = φ ∧ ∃ i, T.peer v i = y ∧
        node.neighborsBlocked i = false ∧ i.castSucc ≠ port then 1 else 0 := by
  change copiesIn φ (if _ then _ else _) = copiesIn φ _ + _
  by_cases hx : x = v ∧ s.live v y = true
  · rw [if_pos hx, copiesIn_append, wire_sendFlood]
    by_cases hex : ∃ i, T.peer v i = y ∧ node.neighborsBlocked i = false ∧ i.castSucc ≠ port
    · by_cases hφ : flood = φ
      · rw [if_pos hex, if_pos ⟨hx.1, hx.2, hφ, hex⟩]
        simp [copiesIn, initializeFloodPacket, hφ]
      · rw [if_pos hex, if_neg (fun h => hφ h.2.2.1)]
        simp [copiesIn, hφ]
    · rw [if_neg hex, if_neg (fun h => hex h.2.2.2)]
      rfl
  · rw [if_neg hx, if_neg (fun h => hx ⟨h.1, h.2.1⟩), Nat.add_zero]

theorem copies_take {s : Net T} {v : V} {i : Fin (T.deg v)} {f : Flight} {rest : List Flight}
    (hchan : s.chan (T.peer v i) v = f :: rest) (φ : ℕ) (x y : V) :
    (s.take v i f rest).copies φ x y + (if x = T.peer v i ∧ y = v ∧
      f.packet.type = .flood ∧ f.flood = φ then 1 else 0) = s.copies φ x y := by
  change copiesIn φ (if _ then _ else _) + _ = copiesIn φ _
  by_cases hxy : x = T.peer v i ∧ y = v
  · rw [if_pos hxy, hxy.1, hxy.2, hchan]
    by_cases hf : f.packet.type = .flood ∧ f.flood = φ
    · simp [copiesIn, hf]
    · simp [copiesIn, hf]
  · rw [if_neg hxy, if_neg (fun h => hxy ⟨h.1, h.2.1⟩), Nat.add_zero]

theorem seen_commit (s : Net T) (v : V) (flood : ℕ) (o : Outcome (T.deg v)) (φ : ℕ) (w : V) :
    ((s.commit v flood o).flood φ).seen w =
      (s.flood φ).seen w + if w = v ∧ flood = φ then o.toUser else 0 := by
  by_cases hw : w = v
  · subst hw
    by_cases hφ : flood = φ
    · simp only [Net.flood, Net.commit, Function.update_self, List.count_append,
        List.count_replicate, hφ, beq_self_eq_true, and_self, if_true]
      omega
    · simp [Net.flood, Net.commit, List.count_replicate, hφ]
      rfl
  · simp [Net.flood, Net.commit, hw]
    rfl

theorem FloodInv.same {F : SimpleGraph V} {B : V → V → Prop} {complete : Prop} {φ : ℕ} {a : V}
    {s s' : Net T} (h : FloodInv F B complete φ a s)
    (hseen : ∀ w, (s'.flood φ).seen w = (s.flood φ).seen w)
    (hcopies : ∀ x y, s'.copies φ x y = s.copies φ x y)
    (horigin : s'.origins[φ]? = s.origins[φ]?) (hlive : s'.live = s.live) :
    FloodInv F B complete φ a s' where
  origin := horigin.trans h.origin
  guard := by
    intro u v huv
    rw [hcopies] at huv
    rw [hlive]
    exact h.guard u v huv
  tree := by
    have hsame : s'.flood φ = s.flood φ :=
      TreeFlood.Flood.ext (funext hseen) (funext fun x => funext (hcopies x))
    rw [hsame]
    exact h.tree

theorem FloodInv.quiet {F : SimpleGraph V} {B : V → V → Prop} {complete : Prop} {φ : ℕ} {a : V}
    {s : Net T} (h : FloodInv F B complete φ a s) {v : V} {flood : ℕ} {o : Outcome (T.deg v)}
    (ho : flood ≠ φ ∨ (∀ q ∈ o.sends, q.2.type ≠ .flood) ∧ o.toUser = 0) :
    FloodInv F B complete φ a (s.commit v flood o) := by
  refine h.same (fun w => ?_) (copies_commit_quiet (ho.imp id And.left)) rfl rfl
  rw [seen_commit]
  obtain hne | ⟨_, hzero⟩ := ho
  · rw [if_neg (fun hx => hne hx.2), Nat.add_zero]
  · simp [hzero]

theorem FloodInv.take {F : SimpleGraph V} {B : V → V → Prop} {complete : Prop} {φ : ℕ} {a : V}
    {s : Net T} (h : FloodInv F B complete φ a s) {v : V} {i : Fin (T.deg v)} {f : Flight}
    {rest : List Flight} (hchan : s.chan (T.peer v i) v = f :: rest)
    (hf : ¬ (f.packet.type = .flood ∧ f.flood = φ)) :
    FloodInv F B complete φ a (s.take v i f rest) := by
  refine h.same (fun w => rfl) (fun x y => ?_) rfl rfl
  have htake := copies_take hchan φ x y
  rw [if_neg (fun hx => hf hx.2.2)] at htake
  exact htake

theorem take_copies {s : Net T} {v : V} {i : Fin (T.deg v)} {f : Flight} {rest : List Flight}
    (hchan : s.chan (T.peer v i) v = f :: rest) (ht : f.packet.type = .flood) :
    (s.take v i f rest).copies f.flood (T.peer v i) v + 1 = s.copies f.flood (T.peer v i) v ∧
      ∀ x y, ¬ (x = T.peer v i ∧ y = v) →
        (s.take v i f rest).copies f.flood x y = s.copies f.flood x y := by
  have htake : ∀ x y, (s.take v i f rest).copies f.flood x y +
      (if x = T.peer v i ∧ y = v then 1 else 0) = s.copies f.flood x y := by
    intro x y
    have hx := copies_take hchan f.flood x y
    simpa only [ht, and_true] using hx
  constructor
  · have hhead := htake (T.peer v i) v
    rw [if_pos ⟨rfl, rfl⟩] at hhead
    exact hhead
  · intro x y hxy
    have hx := htake x y
    rw [if_neg hxy] at hx
    exact hx

theorem take_copies_le {s : Net T} {v : V} {i : Fin (T.deg v)} {f : Flight}
    {rest : List Flight} (hchan : s.chan (T.peer v i) v = f :: rest)
    (ht : f.packet.type = .flood) (x y : V) :
    (s.take v i f rest).copies f.flood x y ≤ s.copies f.flood x y := by
  obtain ⟨hhead, hframe⟩ := take_copies hchan ht
  by_cases hxy : x = T.peer v i ∧ y = v
  · obtain ⟨rfl, rfl⟩ := hxy
    omega
  · exact (hframe x y hxy).le

/-- A blocked port loses the copy. -/
theorem FloodInv.lose {F : SimpleGraph V} {B : V → V → Prop} {complete : Prop} {a : V}
    {s : Net T} {v : V} {i : Fin (T.deg v)} {f : Flight} {rest : List Flight}
    (h : FloodInv F B complete f.flood a s) (hfence : Fence F B complete s)
    (hchan : s.chan (T.peer v i) v = f :: rest) (ht : f.packet.type = .flood)
    (hb : (s.node v).neighborsBlocked i = true) :
    FloodInv F B complete f.flood a
      ((s.take v i f rest).commit v f.flood ⟨s.node v, [], false⟩) := by
  obtain ⟨hhead, hframe⟩ := take_copies hchan ht
  have hcopies : ∀ x y, ((s.take v i f rest).commit v f.flood ⟨s.node v, [], false⟩).copies
      f.flood x y = (s.take v i f rest).copies f.flood x y :=
    copies_commit_quiet (Or.inr (by simp))
  refine ⟨h.origin, fun x y hxy => ?_, ?_⟩
  · rw [hcopies] at hxy
    exact h.guard x y (hxy.trans_le (take_copies_le hchan ht x y))
  · refine h.tree.drop (u := T.peer v i) (v := v) ⟨fun hc hadj => ?_, ?_, ?_, ?_⟩
    · obtain ⟨_, j, hj, hopen⟩ := hfence.opened hc v (T.peer v i) hadj.symm
      rw [T.peer_injective v hj, hb] at hopen
      exact absurd hopen (by simp)
    · funext w
      rw [seen_commit]
      simp [Outcome.toUser]
      rfl
    · exact (congrArg (· + 1) (hcopies _ _)).trans hhead
    · intro x y hxy
      exact (hcopies x y).trans (hframe x y hxy)

/-- An open port passes the copy on: one to the user, one on every other open port. -/
theorem FloodInv.forward {F : SimpleGraph V} {B : V → V → Prop} {complete : Prop} {a : V}
    {s : Net T} {v : V} {i : Fin (T.deg v)} {f : Flight} {rest : List Flight}
    (h : FloodInv F B complete f.flood a s) (hF : F.IsAcyclic) (hfence : Fence F B complete s)
    (hchan : s.chan (T.peer v i) v = f :: rest) (ht : f.packet.type = .flood)
    (hb : (s.node v).neighborsBlocked i = false) :
    FloodInv F B complete f.flood a ((s.take v i f rest).commit v f.flood
      ⟨s.node v, sendFlood (s.node v) i.castSucc, false⟩) := by
  obtain ⟨hhead, hframe⟩ := take_copies hchan ht
  have hle := take_copies_le hchan ht
  have hguard := h.guard (T.peer v i) v (by omega)
  have hcopies : ∀ x y, ((s.take v i f rest).commit v f.flood
      ⟨s.node v, sendFlood (s.node v) i.castSucc, false⟩).copies f.flood x y =
      (s.take v i f rest).copies f.flood x y + if x = v ∧ s.live v y = true ∧
        f.flood = f.flood ∧ ∃ j, T.peer v j = y ∧ (s.node v).neighborsBlocked j = false ∧
          j.castSucc ≠ i.castSucc then 1 else 0 :=
    copies_commit_flood (s.take v i f rest) v (s.node v) i.castSucc f.flood f.flood
  have hlast : i.castSucc ≠ Fin.last (T.deg v) := (Fin.castSucc_lt_last i).ne
  refine ⟨h.origin, fun x y hxy => ?_, ?_⟩
  · rw [hcopies] at hxy
    split_ifs at hxy with hnew
    · obtain ⟨rfl, hl, _, j, rfl, hopen, _⟩ := hnew
      refine ⟨⟨j, rfl⟩, hl, fun hB => ?_⟩
      rw [hfence.blocked x j hB] at hopen
      exact absurd hopen (by simp)
    · exact h.guard x y (lt_of_lt_of_le hxy (hle x y))
  · refine h.tree.pass hF (u := T.peer v i) (v := v) ⟨?_, ?_, fun w hw => ?_, ?_, ?_,
      fun w => ?_, fun hc w hadj hw => ?_, fun x y hx hxy => ?_⟩
    · -- the link is an edge: neither of its ends is blocked
      obtain hadj | hB | hB := hfence.cover _ _ hguard.1 hguard.2.1
      · exact hadj
      · exact absurd hB hguard.2.2
      · rw [hfence.blocked v i hB] at hb
        exact absurd hb (by simp)
    · rw [seen_commit, toUser_sendFlood, if_neg hlast]
      simp
      rfl
    · rw [seen_commit, if_neg (fun hx => hw hx.1)]
      rfl
    · change _ + 1 = s.copies f.flood _ _
      change (((s.take v i f rest).commit v f.flood _).copies f.flood _ _) + 1 = _
      rw [hcopies, if_neg (fun hx => T.peer_ne v i hx.1)]
      exact hhead
    · change (((s.take v i f rest).commit v f.flood _).copies f.flood _ _) = s.copies _ _ _
      rw [hcopies, if_neg, Nat.add_zero]
      · exact hframe _ _ (fun hx => T.peer_ne v i hx.1.symm)
      · rintro ⟨_, _, _, j, hj, _, hne⟩
        exact hne (congrArg Fin.castSucc (T.peer_injective v hj))
    · change (((s.take v i f rest).commit v f.flood _).copies f.flood _ _) ≤ s.copies _ _ _ + 1
      rw [hcopies]
      have hvw := hle v w
      split_ifs <;> omega
    · change (((s.take v i f rest).commit v f.flood _).copies f.flood _ _) = s.copies _ _ _ + 1
      obtain ⟨hl, j, hj, hopen⟩ := hfence.opened hc v w hadj
      rw [hcopies, if_pos]
      · rw [hframe]
        intro hx
        exact T.peer_ne v i hx.1.symm
      · refine ⟨rfl, hl, rfl, j, hj, hopen, fun he => hw ?_⟩
        rw [← hj, Fin.castSucc_injective _ he]
    · change (((s.take v i f rest).commit v f.flood _).copies f.flood _ _) = s.copies _ _ _
      rw [hcopies, if_neg (fun hn => hx hn.1), Nat.add_zero]
      exact hframe x y hxy

theorem FloodInv.deliver {F : SimpleGraph V} {B : V → V → Prop} {complete : Prop} {a : V}
    {s : Net T} {v : V} {i : Fin (T.deg v)} {f : Flight} {rest : List Flight}
    (h : FloodInv F B complete f.flood a s) (hF : F.IsAcyclic) (hfence : Fence F B complete s)
    (hchan : s.chan (T.peer v i) v = f :: rest) (ht : f.packet.type = .flood) :
    FloodInv F B complete f.flood a ((s.take v i f rest).commit v f.flood
      ⟨s.node v, if (s.node v).neighborsBlocked i then [] else sendFlood (s.node v) i.castSucc,
        false⟩) := by
  cases hb : (s.node v).neighborsBlocked i with
  | true => exact h.lose hfence hchan ht hb
  | false => exact h.forward hF hfence hchan ht hb

def Net.Carries (s : Net T) (φ : ℕ) : Prop := ∃ u v, 0 < s.copies φ u v

instance [Fintype V] (s : Net T) (φ : ℕ) : Decidable (s.Carries φ) :=
  inferInstanceAs (Decidable (∃ u v, 0 < s.copies φ u v))

def Event.Begins (s : Net T) (φ : ℕ) : Event T → Prop
  | .inject _ _ => s.origins.length = φ
  | _ => False

instance (s : Net T) (φ : ℕ) (e : Event T) : Decidable (e.Begins s φ) :=
  match e with
  | .inject _ _ => inferInstanceAs (Decidable (s.origins.length = φ))
  | .deliver _ _ | .hello _ | .reelect _ | .fail _ _ => inferInstanceAs (Decidable False)

theorem FloodInv.step {F : SimpleGraph V} {B : V → V → Prop} {complete : Prop} {φ : ℕ} {a : V}
    {s s' : Net T} {e : Event T} (h : FloodInv F B complete φ a s) (hF : F.IsAcyclic)
    (hfence : s.Carries φ → Fence F B complete s) (hcalm : e.Calm) (hs : s.step e = some s') :
    FloodInv F B complete φ a s' := by
  cases step_case hs with
  | stp v i f rest o hchan ht hc =>
    exact (h.take hchan (by simp [ht])).quiet (Or.inr (sendStp_no_flood hc.isStp))
  | flood v i f rest hchan ht =>
    by_cases hφ : f.flood = φ
    · subst hφ
      have hcopy := (take_copies hchan ht).1
      exact h.deliver hF (hfence ⟨T.peer v i, v, by omega⟩) hchan ht
    · exact (h.take hchan (fun hf => hφ hf.2)).quiet (Or.inl hφ)
  | other v i f rest hchan _ hf =>
    exact (h.take hchan (fun hx => hf hx.1)).quiet (Or.inr ⟨by simp, rfl⟩)
  | inject v payload =>
    have hlt : φ < s.origins.length := by
      have horigin := h.origin
      exact (List.getElem?_eq_some_iff.mp horigin).1
    have hold : (s.began v).origins[φ]? = s.origins[φ]? := List.getElem?_append_left hlt
    have hbegan : FloodInv F B complete φ a (s.began v) := by
      refine h.same (fun w => ?_) (fun x y => rfl) hold rfl
      simp only [Net.flood, hold]
      rfl
    exact hbegan.quiet (Or.inl (Nat.ne_of_gt hlt))
  | hello v hroot => exact h.quiet (Or.inr (sendStp_no_flood (Or.inl rfl)))
  | reelect v hroot => exact absurd hcalm id
  | fail u v => exact absurd hcalm id

theorem FloodInv.start {F : SimpleGraph V} {B : V → V → Prop} {complete : Prop} {s : Net T}
    (h : Fresh s) (hfence : Fence F B complete s) (v : V) :
    FloodInv F B complete s.origins.length v ((s.began v).commit v s.origins.length
      ⟨s.node v, sendFlood (s.node v) (Fin.last _), false⟩) := by
  have hzero : ∀ x y, s.copies s.origins.length x y = 0 := fun x y =>
    copiesIn_eq_zero fun f hf ht => Nat.ne_of_lt (h.chan x y f hf ht)
  have hcount : ∀ w, (s.userLog w).count s.origins.length = 0 := by
    intro w
    rw [List.count_eq_zero]
    exact fun hmem => lt_irrefl _ (h.log w _ hmem)
  have hseen : ∀ w, (((s.began v).commit v s.origins.length
      ⟨s.node v, sendFlood (s.node v) (Fin.last _), false⟩).flood s.origins.length).seen w =
      if v = w then 1 else 0 := by
    intro w
    rw [seen_commit, toUser_sendFlood, if_pos rfl]
    simp [Net.flood, Net.began, hcount]
  have hcopies : ∀ x y, ((s.began v).commit v s.origins.length
      ⟨s.node v, sendFlood (s.node v) (Fin.last _), false⟩).copies s.origins.length x y =
      if x = v ∧ s.live v y = true ∧ s.origins.length = s.origins.length ∧ ∃ j,
        T.peer v j = y ∧ (s.node v).neighborsBlocked j = false ∧
          j.castSucc ≠ Fin.last (T.deg v) then 1 else 0 := by
    intro x y
    refine (copies_commit_flood (s.began v) v (s.node v) _ _ _ x y).trans ?_
    change s.copies _ _ _ + _ = _
    rw [hzero, Nat.zero_add]
    rfl
  refine ⟨?_, fun x y hxy => ?_, .start ?_ (fun w hw => ?_) (fun x w hx => ?_) (fun w => ?_)
    (fun hc w hadj => ?_)⟩
  · simp [Net.commit, Net.began]
  · rw [hcopies] at hxy
    split_ifs at hxy with hnew
    · obtain ⟨rfl, hl, _, j, rfl, hopen, _⟩ := hnew
      refine ⟨⟨j, rfl⟩, hl, fun hB => ?_⟩
      rw [hfence.blocked x j hB] at hopen
      exact absurd hopen (by simp)
    · exact absurd hxy (lt_irrefl 0)
  · rw [hseen, if_pos rfl]
  · rw [hseen, if_neg hw.symm]
  · exact (hcopies x w).trans (if_neg fun hn => hx hn.1)
  · refine (hcopies v w).trans_le ?_
    split_ifs <;> omega
  · obtain ⟨hl, j, hj, hopen⟩ := hfence.opened hc v w hadj
    exact (hcopies v w).trans (if_pos ⟨rfl, hl, rfl, j, hj, hopen, (Fin.castSucc_lt_last j).ne⟩)

theorem origins_step {s s' : Net T} {e : Event T} (h : s.step e = some s') :
    s'.origins = s.origins ∨ ∃ v payload, e = .inject v payload ∧
      s'.origins = s.origins ++ [v] := by
  cases step_case h with
  | inject v payload => exact Or.inr ⟨v, payload, rfl, rfl⟩
  | stp | flood | other | hello | reelect | fail => exact Or.inl rfl

/-- Every FLOOD that is fenced from its injection on as long as copies of it are in flight. -/
theorem flood_reach_while {F : SimpleGraph V} {B : V → V → Prop} {complete : Prop} {s t : Net T}
    (hF : F.IsAcyclic) (hfresh : Fresh s) {φ : ℕ}
    (h : Net.Reach (fun u e => e.Calm ∧ (e.Begins u φ ∨ u.Carries φ → Fence F B complete u)) s t)
    {a : V} (hφ : s.origins.length ≤ φ) (ha : t.origins[φ]? = some a) :
    FloodInv F B complete φ a t := by
  induction h generalizing a with
  | refl =>
    have hlt := (List.getElem?_eq_some_iff.mp ha).1
    omega
  | @tail t u e hreach hok hstep ih =>
    obtain ⟨hcalm, hfence⟩ := hok
    have hfresh' : Fresh t := fresh_reach hreach hfresh
    obtain hsame | ⟨v, payload, rfl, happend⟩ := origins_step hstep
    · rw [hsame] at ha
      exact (ih ha).step hF (fun hc => hfence (Or.inr hc)) hcalm hstep
    · by_cases hlt : φ < t.origins.length
      · rw [happend, List.getElem?_append_left hlt] at ha
        exact (ih ha).step hF (fun hc => hfence (Or.inr hc)) hcalm hstep
      · -- this step injects `φ`
        have hbound := (List.getElem?_eq_some_iff.mp ha).1
        rw [happend, List.length_append, List.length_singleton] at hbound
        obtain rfl : φ = t.origins.length := by omega
        obtain rfl : v = a := by simpa [happend] using ha
        generalize he : Event.inject v payload = e' at hstep
        cases step_case hstep with
        | inject w payload' =>
          obtain ⟨rfl, _⟩ := Event.inject.inj he
          exact .start hfresh' (hfence (Or.inl rfl)) v
        | stp | flood | other | hello | reelect | fail => exact absurd he (by simp)

theorem flood_reach {F : SimpleGraph V} {B : V → V → Prop} {complete : Prop} {s t : Net T}
    (hF : F.IsAcyclic) (hfresh : Fresh s)
    (h : Net.Reach (fun u e => e.Calm ∧ Fence F B complete u) s t) (φ : ℕ) (a : V)
    (hφ : s.origins.length ≤ φ) (ha : t.origins[φ]? = some a) :
    FloodInv F B complete φ a t :=
  flood_reach_while hF hfresh (h.mono fun _ _ hok => ⟨hok.1, fun _ => hok.2⟩) hφ ha

end Mixnet
