import Mixnet.Gather
import Mixnet.Runs

/-! The subscription calls of a testcase and what they leave behind: a flag in the fragment, of
which the orchestrator keeps a copy. -/
namespace Mixnet.TestcaseCalls
open Codec (MessageType)
open Orchestrator (checkHeader checkHeader_eq_none_iff)

section Request

/-- A request fails before it reaches the fragment, or the fragment carries it out and answers. -/
inductive Delivery where
  | undelivered (code : ErrorCode) (h : code ≠ .none)
  | delivered

def requestResponse {σ : Type*} (fid : UInt16) (type : MessageType) (delivery : Delivery)
    (task : σ → Option (σ × ErrorCode)) (s : σ) : Option (σ × ErrorCode) :=
  match delivery with
  | .undelivered code _ => some (s, code)
  | .delivered => (task s).map fun p =>
    (p.1, checkHeader { type := type, fragmentId := fid, errorCode := p.2 } true fid type)

variable {σ : Type*} {fid : UInt16} {type : MessageType} {task : σ → Option (σ × ErrorCode)} {s : σ}

theorem requestResponse_delivered {p : σ × ErrorCode} (h : task s = some p) :
    ∃ code, requestResponse fid type .delivered task s = some (p.1, code) ∧
      (code = .none ↔ p.2 = .none) := by
  refine ⟨_, by rw [requestResponse, h, Option.map_some], ?_⟩
  simp [checkHeader_eq_none_iff]

end Request

section Subscription

/-- `is_pcap_subscribed`, of the fragments in the orchestrator and in their own contexts. -/
structure Subscriptions where
  fragments : UInt16 → Bool := fun _ => false
  nodeContext : UInt16 → Bool := fun _ => false

structure SubscriptionCall where
  idx : UInt16
  subscribe : Bool
  delivery : Delivery

def taskUpdatePcapSubscription (idx : UInt16) (v : Bool) (s : Subscriptions) :
    Option (Subscriptions × ErrorCode) :=
  some ({ s with nodeContext := Function.update s.nodeContext idx v }, .none)

def pcapChangeSubscription (s : Subscriptions) (c : SubscriptionCall) :
    Option (Subscriptions × ErrorCode) :=
  if s.fragments c.idx = c.subscribe then some (s, .none)
  else
    let s := { s with fragments := Function.update s.fragments c.idx c.subscribe }
    requestResponse c.idx .pcapSubscription c.delivery
      (taskUpdatePcapSubscription c.idx c.subscribe) s

def Subscriptions.Agrees (s : Subscriptions) (c : SubscriptionCall) : Prop :=
  ∀ s', pcapChangeSubscription s c = some (s', .none) →
    s'.fragments c.idx = c.subscribe ∧ s'.nodeContext c.idx = c.subscribe

/-- Where the orchestrator's copy says that there is nothing to do, there is nothing to do. -/
def Subscriptions.Trusted (s : Subscriptions) (c : SubscriptionCall) : Prop :=
  s.fragments c.idx = c.subscribe → s.nodeContext c.idx = c.subscribe

variable {s s' : Subscriptions} {c : SubscriptionCall} {code : ErrorCode}

theorem change_same (h : s.fragments c.idx = c.subscribe) :
    pcapChangeSubscription s c = some (s, .none) := if_pos h

theorem change_undelivered (h : s.fragments c.idx ≠ c.subscribe) {hcode : code ≠ .none}
    (hd : c.delivery = .undelivered code hcode) : pcapChangeSubscription s c =
      some ({ s with fragments := Function.update s.fragments c.idx c.subscribe }, code) := by
  rw [pcapChangeSubscription, if_neg h, hd]
  rfl

theorem change_delivered (h : s.fragments c.idx ≠ c.subscribe) (hd : c.delivery = .delivered) :
    pcapChangeSubscription s c = some
      (⟨Function.update s.fragments c.idx c.subscribe,
        Function.update s.nodeContext c.idx c.subscribe⟩, .none) := by
  obtain ⟨code, hcode, hnone⟩ := @requestResponse_delivered Subscriptions c.idx .pcapSubscription
    (taskUpdatePcapSubscription c.idx c.subscribe) _ _ rfl
  rw [pcapChangeSubscription, if_neg h, hd, hcode, hnone.mpr rfl]

theorem change_fragments (h : pcapChangeSubscription s c = some (s', code)) :
    s'.fragments c.idx = c.subscribe := by
  by_cases hsame : s.fragments c.idx = c.subscribe
  · rw [change_same hsame] at h
    obtain ⟨rfl, rfl⟩ := Prod.mk.inj (Option.some.inj h)
    exact hsame
  · cases hd : c.delivery with
    | undelivered e he =>
      rw [change_undelivered hsame hd] at h
      obtain ⟨rfl, rfl⟩ := Prod.mk.inj (Option.some.inj h)
      exact Function.update_self ..
    | delivered =>
      rw [change_delivered hsame hd] at h
      obtain ⟨rfl, rfl⟩ := Prod.mk.inj (Option.some.inj h)
      exact Function.update_self ..

theorem agrees_iff (s : Subscriptions) (c : SubscriptionCall) : s.Agrees c ↔ s.Trusted c := by
  by_cases hsame : s.fragments c.idx = c.subscribe
  · constructor
    · intro h _
      exact (h s (change_same hsame)).2
    · intro h s' hs
      rw [change_same hsame] at hs
      obtain ⟨rfl, -⟩ := Prod.mk.inj (Option.some.inj hs)
      exact ⟨hsame, h hsame⟩
  · refine iff_of_true (fun s' hs => ?_) fun h => absurd h hsame
    refine ⟨change_fragments hs, ?_⟩
    cases hd : c.delivery with
    | undelivered e he =>
      rw [change_undelivered hsame hd] at hs
      exact absurd (Prod.mk.inj (Option.some.inj hs)).2 he
    | delivered =>
      rw [change_delivered hsame hd] at hs
      obtain ⟨rfl, -⟩ := Prod.mk.inj (Option.some.inj hs)
      exact Function.update_self ..

/-- In every sequence of calls from the start of the testcase, the calls that report no error leave
both flags as they were asked to exactly if none of them finds the orchestrator's copy right and
the fragment's flag wrong. -/
theorem subscription_agrees_iff (calls : List SubscriptionCall) :
    Runs.Along (fun s c => (pcapChangeSubscription s c).map Prod.fst) Subscriptions.Agrees calls
        {} ↔
      Runs.Along (fun s c => (pcapChangeSubscription s c).map Prod.fst) Subscriptions.Trusted calls
        {} :=
  Runs.along_iff (I := fun _ => True) (fun s c _ => agrees_iff s c) (fun _ _ _ _ _ _ => trivial)
    calls trivial

/-- The first subscription never reaches the fragment; the second call finds it made. -/
theorem subscription_lost : ∃ (calls : List SubscriptionCall) (c : SubscriptionCall)
    (s s' : Subscriptions),
    Runs.run (fun s c => (pcapChangeSubscription s c).map Prod.fst) calls {} = some s ∧
      pcapChangeSubscription s c = some (s', .none) ∧ c.subscribe = true ∧
      s'.fragments c.idx = true ∧ s'.nodeContext c.idx = false :=
  ⟨[⟨0, true, .undelivered .sendReqsTimeout (by decide)⟩], ⟨0, true, .delivered⟩, _, _, rfl, rfl,
    rfl, rfl, rfl⟩

end Subscription

end Mixnet.TestcaseCalls
