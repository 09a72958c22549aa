import Mathlib.Data.List.ReduceOption
import Mixnet.Node
import Mixnet.Orchestration

/-! Packet capture: `node_send` on the user port, the queue to `worker_pcap`, its messages on the
stream to the orchestrator, and the poll loop that hands them to the testcase. -/
namespace Mixnet.Capture
open Codec (u16At payload)
open Orchestrator (checkHeaderAt maxMixnetPacketSize ofNat_inj)

section NodeSend

def totalSize (packet : Buffer) : UInt16 := u16At packet 0

def packetTypes : List PacketType := [.stp, .flood, .lsa, .data, .ping]

def packetType (packet : Buffer) : Option PacketType := packetTypes[(u16At packet 2).toNat]?

def bleach (packet : Buffer) : Buffer := store packet 4 (List.replicate 8 0)

def validateSize (packet : Buffer) : Bool :=
  let payloadSize := (totalSize packet - 12).toNat
  let payload : Buffer := fun i => packet (12 + i)
  match packetType packet with
  | some .stp => payloadSize = 6
  | some .flood => payloadSize = 0
  | some .lsa => payloadSize = 4 + 4 * (u16At payload 2).toNat
  | some .data => true
  | some .ping => payloadSize = 10 + 8 + 2 * (u16At payload 4).toNat
  | none => false

/-- What `node_send` does with a packet: return -1, mirror it to the queue, free it, or send it to a
neighbour. -/
inductive Destination where
  | rejected | mirrored | freed | transmitted
deriving DecidableEq

def nodeSend (numNeighbors : UInt16) (isPcapSubscribed : Bool) (port : UInt8) (packet : Buffer) :
    Destination :=
  if numNeighbors.toNat < port.toNat then .rejected
  else if totalSize packet < 12 ∨ maxMixnetPacketSize < totalSize packet then .rejected
  else
    let packet := bleach packet
    if !validateSize packet then .rejected
    else if port.toNat = numNeighbors.toNat then
      if packetType packet ≠ some .flood ∧ packetType packet ≠ some .data ∧
          packetType packet ≠ some .ping then .rejected
      else if isPcapSubscribed then .mirrored
      else .freed
    else .transmitted

structure Copy (bytes : List UInt8) (packet : Buffer) : Prop where
  length_eq : bytes.length = (totalSize packet).toNat
  byte : ∀ i < (totalSize packet).toNat,
    bytes.getD i 0 = if 4 ≤ i ∧ i < 12 then 0 else packet i

theorem bleach_apply (packet : Buffer) (i : ℕ) :
    bleach packet i = if 4 ≤ i ∧ i < 12 then 0 else packet i := by
  by_cases h4 : 4 ≤ i
  · by_cases h12 : i < 12
    · have hlen : i - 4 < (List.replicate 8 (0 : UInt8)).length := by
        rw [List.length_replicate]
        omega
      rw [bleach, store_ge h4 hlen 0, if_pos ⟨h4, h12⟩, List.getD_eq_getElem?_getD,
        List.getElem?_eq_getElem hlen, List.getElem_replicate, Option.getD_some]
    · rw [bleach, Codec.store_of_ge (by rw [List.length_replicate]; omega),
        if_neg fun h => h12 h.2]
  · rw [bleach, store_lt _ (by omega), if_neg fun h => h4 h.1]

theorem totalSize_bleach (packet : Buffer) : totalSize (bleach packet) = totalSize packet :=
  Codec.u16At_congr (by simp [bleach_apply]) (by simp [bleach_apply])

theorem messageAt_bleach_length (packet : Buffer) :
    (messageAt (bleach packet)).length = (totalSize packet).toNat := by
  rw [messageAt_length, ← Codec.u16At_zero]
  exact congrArg UInt16.toNat (totalSize_bleach packet)

theorem copy_bleach (packet : Buffer) : Copy (messageAt (bleach packet)) packet where
  length_eq := messageAt_bleach_length packet
  byte := fun i hi => by
    rw [messageAt_getD _ (by rwa [← messageAt_length, messageAt_bleach_length]) 0, bleach_apply]

theorem nodeSend_mirrored {numNeighbors : UInt16} {isPcapSubscribed : Bool} {port : UInt8}
    {packet : Buffer} (h : nodeSend numNeighbors isPcapSubscribed port packet = .mirrored) :
    12 ≤ totalSize packet ∧ totalSize packet ≤ maxMixnetPacketSize ∧
      port.toNat = numNeighbors.toNat ∧ isPcapSubscribed = true := by
  simp only [nodeSend] at h
  split_ifs at h with hport hsize hvalid huser htype hsub
  obtain ⟨hmin, hmax⟩ := not_or.mp hsize
  exact ⟨UInt16.not_lt.mp hmin, UInt16.not_lt.mp hmax, huser, hsub⟩

theorem nodeSend_transmitted {numNeighbors : UInt16} {isPcapSubscribed : Bool} {port : UInt8}
    {packet : Buffer} (h : nodeSend numNeighbors isPcapSubscribed port packet = .transmitted) :
    12 ≤ totalSize packet ∧ totalSize packet ≤ maxMixnetPacketSize ∧
      port.toNat < numNeighbors.toNat ∧ validateSize (bleach packet) = true := by
  simp only [nodeSend] at h
  split_ifs at h with hport hsize hvalid huser
  obtain ⟨hmin, hmax⟩ := not_or.mp hsize
  refine ⟨UInt16.not_lt.mp hmin, UInt16.not_lt.mp hmax, ?_, by simpa using hvalid⟩
  omega

end NodeSend

section Fragment

def mqPcapDepth : ℕ := 128

/-- Where `worker_pcap` is: at the top of its loop, waiting at the queue, sending, or done. -/
inductive Worker where
  | loop | reading | sending | exited
deriving DecidableEq

/-- A fragment while it runs the testcase. A null pointer in the queue is `none`; `writing` is what
the worker still has to write of its message, `inFlight` what has not arrived and `unread` what is
in the orchestrator's socket. `accepted` lists the packets that `node_send` has taken on the user
port while the fragment was subscribed. -/
structure Fragment where
  fid : UInt16
  numNeighbors : UInt16
  isPcapSubscribed : Bool := false
  nodeExited : Bool := false
  nodeExitCode : ErrorCode := .none
  mqPcap : List (Option Buffer) := []
  keepRunning : Bool := true
  worker : Worker := .loop
  workerExitCode : ErrorCode := .none
  msgPcap : Buffer
  writing : List UInt8 := []
  inFlight : List UInt8 := []
  unread : List UInt8 := []
  accepted : List Buffer := []

/-- What happens in a fragment: its node calls `node_send` or exits, its main thread carries out a
request, its worker makes a move, or bytes arrive. -/
inductive FragmentEvent where
  | nodeSend (port : UInt8) (packet : Buffer)
  | nodeExit (code : ErrorCode)
  | updatePcapSubscription (subscribe : Bool)
  | endTestcase
  | loop
  | read
  | write (n : ℕ)
  | sendFailed
  | arrive (n : ℕ)

def Fragment.response (x : Fragment) (packet : Buffer) : Option Buffer :=
  Codec.finalize (Codec.build x.msgPcap false .pcapData x.fid .none (messageAt packet))

def Fragment.step (x : Fragment) : FragmentEvent → Option Fragment
  | .nodeSend port packet =>
    if x.nodeExited then none
    else if nodeSend x.numNeighbors x.isPcapSubscribed port packet = .mirrored then
      if x.mqPcap.length < mqPcapDepth then
        some { x with
          mqPcap := x.mqPcap ++ [some (bleach packet)]
          accepted := x.accepted ++ [packet] }
      else some { x with nodeExited := true, nodeExitCode := .fragmentPcapMqFull }
    else some x
  | .nodeExit code => some { x with nodeExited := true, nodeExitCode := code }
  | .updatePcapSubscription subscribe => some { x with isPcapSubscribed := subscribe }
  | .endTestcase =>
    some { x with
      keepRunning := false
      mqPcap := if x.mqPcap.length < mqPcapDepth then x.mqPcap ++ [none] else x.mqPcap }
  | .loop =>
    if x.worker = .loop then
      some { x with worker := if x.keepRunning then .reading else .exited }
    else none
  | .read =>
    if x.worker = .reading then
      match x.mqPcap with
      | [] => none
      | none :: mq => some { x with mqPcap := mq, worker := .exited }
      | some packet :: mq => (x.response packet).map fun msg =>
          { x with mqPcap := mq, worker := .sending, msgPcap := msg, writing := messageAt msg }
    else none
  | .write n =>
    if x.worker = .sending ∧ 0 < n ∧ n ≤ x.writing.length then
      some { x with
        inFlight := x.inFlight ++ x.writing.take n
        writing := x.writing.drop n
        worker := if n = x.writing.length then .loop else .sending }
    else none
  | .sendFailed =>
    if x.worker = .sending then
      some { x with worker := .exited, workerExitCode := .pcapConnectionBroken }
    else none
  | .arrive n =>
    if 0 < n ∧ n ≤ x.inFlight.length then
      some { x with unread := x.unread ++ x.inFlight.take n, inFlight := x.inFlight.drop n }
    else none

abbrev Response := Message 12 65535

def Carries (fid : UInt16) (m : Response) (packet : Buffer) : Prop :=
  ∃ msg, m.bytes = messageAt msg ∧
    Codec.Finalized msg false .pcapData fid .none (messageAt (bleach packet))

/-- The account of a fragment: the packets given to the testcase, those that `ms` carries on the
stream, and those in the queue. -/
structure Account (x : Fragment) (given pending waiting : List Buffer) (ms : List Response) :
    Prop where
  accepted : x.accepted = given ++ (pending ++ waiting)
  queued : x.mqPcap.reduceOption = waiting.map bleach
  carried : List.Forall₂ (Carries x.fid) ms pending
  stream : x.unread ++ (x.inFlight ++ x.writing) = (ms.map (·.bytes)).flatten
  idle : x.worker = .loop ∨ x.worker = .reading → x.writing = []
  sized : ∀ p ∈ x.accepted, 12 ≤ totalSize p ∧ totalSize p ≤ maxMixnetPacketSize

def Fragment.Keeps (x : Fragment) (given : List Buffer) : Prop :=
  ∃ pending waiting ms, Account x given pending waiting ms

variable {x x' : Fragment} {given : List Buffer}

theorem response_bounds {packet : Buffer} (hmin : 12 ≤ totalSize packet)
    (hmax : totalSize packet ≤ maxMixnetPacketSize) :
    Codec.Exact false .pcapData (messageAt (bleach packet)) ∧
      8 + (messageAt (bleach packet)).length + 4 ≤ 65535 := by
  have hlow : 12 ≤ (totalSize packet).toNat := UInt16.le_iff_toNat_le.mp hmin
  have hhigh : (totalSize packet).toNat ≤ 4096 := UInt16.le_iff_toNat_le.mp hmax
  have hlen := messageAt_bleach_length packet
  refine ⟨Codec.exact_pcapData ?_ (by omega), by omega⟩
  have hfield := messageAt_lengthField (bleach packet) (by rw [← messageAt_length]; omega)
  rw [← hfield]
  exact Codec.u16At_zero _

theorem Fragment.response_carries (x : Fragment) {packet : Buffer} (hmin : 12 ≤ totalSize packet)
    (hmax : totalSize packet ≤ maxMixnetPacketSize) :
    ∃ msg m, x.response (bleach packet) = some msg ∧ m.bytes = messageAt msg ∧
      Carries x.fid m packet := by
  obtain ⟨hx, hlen⟩ := response_bounds hmin hmax
  obtain ⟨msg, hmsg, hfin⟩ := (Codec.build_holds x.msgPcap x.fid
    .none).finalize hx (by decide) hlen
  obtain ⟨m, hm, -⟩ := hfin.message hlen
  exact ⟨msg, m, hmsg, hm, msg, hm, hfin⟩

theorem Fragment.step_frame {e : FragmentEvent} (hs : x.step e = some x') :
    x'.fid = x.fid ∧ x.accepted <+: x'.accepted := by
  cases e with
  | nodeSend port packet =>
    rw [Fragment.step] at hs
    split_ifs at hs
    · obtain rfl := Option.some.inj hs
      exact ⟨rfl, List.prefix_append _ _⟩
    all_goals
      obtain rfl := Option.some.inj hs
      exact ⟨rfl, List.prefix_rfl⟩
  | read =>
    rw [Fragment.step] at hs
    split_ifs at hs
    match hmq : x.mqPcap with
    | [] => simp [hmq] at hs
    | none :: mq =>
      simp only [hmq] at hs
      obtain rfl := Option.some.inj hs
      exact ⟨rfl, List.prefix_rfl⟩
    | some packet :: mq =>
      simp only [hmq] at hs
      obtain ⟨msg, -, rfl⟩ := Option.map_eq_some_iff.mp hs
      exact ⟨rfl, List.prefix_rfl⟩
  | nodeExit | updatePcapSubscription | endTestcase =>
    obtain rfl := Option.some.inj hs
    exact ⟨rfl, List.prefix_rfl⟩
  | loop | write | sendFailed | arrive =>
    rw [Fragment.step] at hs
    split_ifs at hs
    all_goals
      obtain rfl := Option.some.inj hs
      exact ⟨rfl, List.prefix_rfl⟩

theorem Fragment.Keeps.congr (h : x.Keeps given) (hfid : x'.fid = x.fid)
    (haccepted : x'.accepted = x.accepted)
    (hqueued : x'.mqPcap.reduceOption = x.mqPcap.reduceOption)
    (hstream : x'.unread ++ (x'.inFlight ++ x'.writing) = x.unread ++ (x.inFlight ++ x.writing))
    (hidle : (x.worker = .loop ∨ x.worker = .reading → x.writing = []) →
      x'.worker = .loop ∨ x'.worker = .reading → x'.writing = []) : x'.Keeps given := by
  obtain ⟨pending, waiting, ms, h⟩ := h
  exact
    ⟨pending, waiting, ms,
      { accepted := haccepted.trans h.accepted
        queued := hqueued.trans h.queued
        carried := hfid ▸ h.carried
        stream := hstream.trans h.stream
        idle := hidle h.idle
        sized := haccepted ▸ h.sized }⟩

theorem Fragment.Keeps.read (h : x.Keeps given) (hs : x.step .read = some x') :
    x'.Keeps given := by
  rw [Fragment.step] at hs
  split_ifs at hs with hworker
  match hmq : x.mqPcap with
  | [] => simp [hmq] at hs
  | none :: mq =>
    simp only [hmq] at hs
    obtain rfl := Option.some.inj hs
    exact h.congr rfl rfl (by rw [hmq, List.reduceOption_cons_of_none]) rfl fun _ => by simp
  | some packet :: mq =>
    obtain ⟨pending, waiting, ms, h⟩ := h
    have hwriting : x.writing = [] := h.idle (Or.inr hworker)
    simp only [hmq] at hs
    obtain ⟨msg, hmsg, rfl⟩ := Option.map_eq_some_iff.mp hs
    have hqueued := h.queued
    rw [hmq, List.reduceOption_cons_of_some] at hqueued
    obtain ⟨p, waiting, rfl, rfl, hrest⟩ := List.map_eq_cons_iff.mp hqueued.symm
    obtain ⟨hmin, hmax⟩ := h.sized p (by simp [h.accepted])
    obtain ⟨msg', m, hmsg', hm, hcarries⟩ := x.response_carries hmin hmax
    obtain rfl : msg' = msg := Option.some.inj (hmsg'.symm.trans hmsg)
    refine ⟨pending ++ [p], waiting, ms ++ [m], ?_, hrest.symm, ?_, ?_, by simp, h.sized⟩
    · rw [h.accepted]
      simp
    · exact List.rel_append h.carried (.cons hcarries .nil)
    · have hstream := h.stream
      rw [hwriting, List.append_nil] at hstream
      rw [← List.append_assoc, hstream, List.map_append, List.flatten_append]
      simp [hm]

theorem Fragment.Keeps.step {e : FragmentEvent} (h : x.Keeps given) (hs : x.step e = some x') :
    x'.Keeps given := by
  cases e with
  | read => exact h.read hs
  | nodeSend port packet =>
    rw [Fragment.step] at hs
    split_ifs at hs with hexited hmirrored hroom
    · obtain ⟨pending, waiting, ms, h⟩ := h
      obtain rfl := Option.some.inj hs
      obtain ⟨hmin, hmax, -⟩ := nodeSend_mirrored hmirrored
      refine ⟨pending, waiting ++ [packet], ms, ?_, ?_, h.carried, h.stream, h.idle, ?_⟩
      · rw [h.accepted]
        simp
      · rw [List.reduceOption_append, h.queued]
        simp
      · intro p hp
        obtain hp | hp := List.mem_append.mp hp
        · exact h.sized p hp
        · obtain rfl := List.mem_singleton.mp hp
          exact ⟨hmin, hmax⟩
    all_goals
      obtain rfl := Option.some.inj hs
      exact h.congr rfl rfl rfl rfl id
  | nodeExit | updatePcapSubscription =>
    obtain rfl := Option.some.inj hs
    exact h.congr rfl rfl rfl rfl id
  | endTestcase =>
    obtain rfl := Option.some.inj hs
    refine h.congr rfl rfl ?_ rfl id
    dsimp only
    split_ifs
    · rw [List.reduceOption_append]
      simp [List.reduceOption]
    · rfl
  | loop =>
    rw [Fragment.step] at hs
    split_ifs at hs with hworker
    all_goals
      obtain rfl := Option.some.inj hs
      exact h.congr rfl rfl rfl rfl fun hidle _ => hidle (Or.inl hworker)
  | write n =>
    rw [Fragment.step] at hs
    by_cases hn : x.worker = .sending ∧ 0 < n ∧ n ≤ x.writing.length
    · rw [if_pos hn] at hs
      obtain rfl := Option.some.inj hs
      refine h.congr rfl rfl rfl (by simp) fun _ hidle => ?_
      have hall : n = x.writing.length := by
        by_contra hne
        simp [hne] at hidle
      simp [hall]
    · simp [hn] at hs
  | sendFailed =>
    rw [Fragment.step] at hs
    split_ifs at hs
    obtain rfl := Option.some.inj hs
    exact h.congr rfl rfl rfl rfl fun _ => by simp
  | arrive n =>
    rw [Fragment.step] at hs
    split_ifs at hs
    obtain rfl := Option.some.inj hs
    exact h.congr rfl rfl rfl (by simp [← List.append_assoc (x.inFlight.take n)]) id

end Fragment

section Loop

/-- Where `pcap_thread_loop` is: at the poll, at a fragment, in the receive call for a fragment, or
done. -/
inductive Position where
  | poll | visit (fid : ℕ) | recv (fid : ℕ) | exited
deriving DecidableEq

/-- The fragments and the pcap thread of the orchestrator. `subscribed` holds its flags
`is_pcap_subscribed`, `watched` says which of `pfds` have a descriptor, and `log` lists the calls of
`testcase::pcap`. -/
structure World where
  numFragments : UInt16
  fragments : ℕ → Fragment
  subscribed : ℕ → Bool := fun _ => false
  pcapThreadRun : Bool := true
  pcapThreadError : ErrorCode := .none
  msgPcap : Buffer
  position : Position := .poll
  errorCode : ErrorCode := .none
  watched : ℕ → Bool := fun _ => true
  revents : ℕ → Bool := fun _ => false
  log : List (UInt16 × List UInt8) := []

def World.set (w : World) (fid : ℕ) (x : Fragment) : World :=
  { w with fragments := Function.update w.fragments fid x }

@[simp] theorem World.set_self (w : World) (fid : ℕ) (x : Fragment) :
    (w.set fid x).fragments fid = x := Function.update_self ..

theorem World.set_of_ne (w : World) {i fid : ℕ} (h : i ≠ fid) (x : Fragment) :
    (w.set fid x).fragments i = w.fragments i := Function.update_of_ne h ..

def World.leave (w : World) (code : ErrorCode) : World :=
  { w with errorCode := code, pcapThreadError := code, position := .exited }

inductive Event where
  | fragment (fid : ℕ) (e : FragmentEvent)
  | changeSubscription (fid : ℕ) (subscribe : Bool)
  | stopPcapThread
  | poll (failed : Bool) (ready : ℕ → Bool)
  | visit
  | recv (call : RecvCall)

def pcapPollTimeoutMs : UInt64 := 50

def World.receive (w : World) (fid : ℕ) : Option World :=
  (checkHeaderAt w.msgPcap true (UInt16.ofNat fid) .pcapData).map fun ec =>
    let packet := payload w.msgPcap
    if ec ≠ .none then w.leave ec
    else if maxMixnetPacketSize < totalSize packet then w.leave .mixnetBadPacketSize
    else { w with
      errorCode := .none
      position := .visit (fid+1)
      log := w.log ++ [(Codec.getFragmentId w.msgPcap, messageAt packet)] }

def World.step (w : World) : Event → Option World
  | .fragment fid e => ((w.fragments fid).step e).map (w.set fid)
  | .changeSubscription fid subscribe =>
    some { w with subscribed := Function.update w.subscribed fid subscribe }
  | .stopPcapThread => some { w with pcapThreadRun := false }
  | .poll failed ready =>
    if w.position = .poll then
      if w.pcapThreadRun && w.errorCode = .none then
        some { w with
          position := .visit 0
          errorCode := if failed then .pollError else .none
          revents := if failed then w.revents else fun fid => w.watched fid && ready fid }
      else some { w with position := .exited }
    else none
  | .visit =>
    match w.position with
    | .visit fid =>
      if fid < w.numFragments.toNat then
        some { w with
          watched := Function.update w.watched fid (w.subscribed fid)
          position := if w.revents fid && w.subscribed fid then .recv fid else .visit (fid+1) }
      else some { w with pcapThreadError := w.errorCode, position := .poll }
    | _ => none
  | .recv call =>
    match w.position with
    | .recv fid =>
      if call.config.mode = .rxTxTimeout ∧ call.config.timeoutMs = pcapPollTimeoutMs then
        (recvGeneric .pcapConnectionBroken 12 65535 { call with buffer := w.msgPcap }
          (w.fragments fid).unread).bind fun r =>
            let w' := { w.set fid { w.fragments fid with unread := r.unread } with
              msgPcap := r.buffer }
            if r.code = .none then w'.receive fid
            else if r.code = .recvZeroPending then
              some { w' with errorCode := .none, position := .visit (fid+1) }
            else some (w'.leave r.code)
      else none
    | _ => none

/-- RUN_TESTCASE is entered with idle fragments, each under its own id; the buffers hold what the
earlier phases have left in them. -/
def World.start (numFragments : UInt16) (numNeighbors : ℕ → UInt16) (old : ℕ → Buffer)
    (msgPcap : Buffer) : World where
  numFragments := numFragments
  fragments fid := { fid := .ofNat fid, numNeighbors := numNeighbors fid, msgPcap := old fid }
  msgPcap := msgPcap

def World.captured (w : World) (fid : ℕ) : List (List UInt8) :=
  (w.log.filter (·.1 = UInt16.ofNat fid)).map (·.2)

/-- `front` says which of the accepted packets have been given to the testcase. -/
structure World.Inv (w : World) (n : UInt16) : Prop where
  size : w.numFragments = n
  ids : ∀ fid, (w.fragments fid).fid = UInt16.ofNat fid
  position : ∀ fid, w.position = .recv fid → fid < w.numFragments.toNat
  logged : ∀ entry ∈ w.log, entry.1 < w.numFragments
  copied : ∀ fid < w.numFragments.toNat, ∃ given, given <+: (w.fragments fid).accepted ∧
    List.Forall₂ Copy (w.captured fid) given ∧
      (w.position ≠ .exited → (w.fragments fid).Keeps given)

variable {w w' : World} {n : UInt16}

theorem World.Inv.fragment (h : w.Inv n) {fid : ℕ} {e : FragmentEvent} {x : Fragment}
    (hs : (w.fragments fid).step e = some x) : (w.set fid x).Inv n := by
  obtain ⟨hid, hgrow⟩ := Fragment.step_frame hs
  refine ⟨h.size, fun i => ?_, h.position, h.logged, fun i hi => ?_⟩
  · by_cases hif : i = fid
    · subst hif
      rw [World.set_self, hid, h.ids]
    · rw [World.set_of_ne w hif, h.ids]
  · obtain ⟨given, hheld, hcopied, hkeeps⟩ := h.copied i hi
    by_cases hif : i = fid
    · subst hif
      rw [World.set_self]
      exact ⟨given, hheld.trans hgrow, hcopied, fun hrun => (hkeeps hrun).step hs⟩
    · rw [World.set_of_ne w hif]
      exact ⟨given, hheld, hcopied, hkeeps⟩

theorem World.Inv.move (h : w.Inv n) (hn : w'.numFragments = w.numFragments)
    (hfragments : w'.fragments = w.fragments) (hlog : w'.log = w.log)
    (hexited : w'.position ≠ .exited → w.position ≠ .exited)
    (hposition : ∀ fid, w'.position = .recv fid → fid < w.numFragments.toNat) : w'.Inv n where
  size := hn.trans h.size
  ids := by rw [hfragments]; exact h.ids
  position := by rw [hn]; exact hposition
  logged := by rw [hlog, hn]; exact h.logged
  copied := by
    simp only [World.captured, hfragments, hlog, hn]
    intro fid hfid
    obtain ⟨given, hheld, hcopied, hkeeps⟩ := h.copied fid hfid
    exact ⟨given, hheld, hcopied, fun hrun => hkeeps (hexited hrun)⟩

theorem World.captured_append {entries : List (List UInt8)} {fid i : ℕ}
    (hfid : fid < w.numFragments.toNat) (hi : i < w.numFragments.toNat)
    (hlog : w'.log = w.log ++ entries.map (UInt16.ofNat fid, ·)) :
    w'.captured i = w.captured i ++ if i = fid then entries else [] := by
  rw [World.captured, hlog, List.filter_append, List.map_append, World.captured]
  congr 1
  by_cases hif : i = fid
  · subst hif
    simp [List.filter_map, Function.comp_def]
  · have hne : ¬ UInt16.ofNat fid = UInt16.ofNat i := fun he => hif (ofNat_inj hfid hi he).symm
    simp [List.filter_map, Function.comp_def, hne, hif]

theorem World.Inv.answer (h : w.Inv n) {fid : ℕ} (hpos : w.position = .recv fid) {x : Fragment}
    (entries : List (List UInt8)) {given : List Buffer}
    (hn : w'.numFragments = w.numFragments) (hfragments : w'.fragments = (w.set fid x).fragments)
    (hlog : w'.log = w.log ++ entries.map (UInt16.ofNat fid, ·))
    (hleft : ∀ i, w'.position ≠ .recv i) (hid : x.fid = (w.fragments fid).fid)
    (hheld : given <+: x.accepted) (hcopied : List.Forall₂ Copy (w.captured fid ++ entries) given)
    (hkeeps : w'.position ≠ .exited → x.Keeps given) : w'.Inv n := by
  have hfid := h.position fid hpos
  refine ⟨hn.trans h.size, fun i => ?_, fun i hi => absurd hi (hleft i), fun entry hentry => ?_,
    fun i hi => ?_⟩
  · rw [hfragments]
    by_cases hif : i = fid
    · subst hif
      rw [World.set_self, hid, h.ids]
    · rw [World.set_of_ne w hif, h.ids]
  · rw [hlog] at hentry
    rw [hn]
    obtain hold | hnew := List.mem_append.mp hentry
    · exact h.logged entry hold
    · obtain ⟨bytes, -, rfl⟩ := List.mem_map.mp hnew
      have hmax := w.numFragments.toNat_lt
      rw [UInt16.lt_iff_toNat_lt, UInt16.toNat_ofNat', Nat.mod_eq_of_lt (by omega)]
      exact hfid
  · rw [hn] at hi
    rw [hfragments, World.captured_append hfid hi hlog]
    by_cases hif : i = fid
    · subst hif
      rw [World.set_self, if_pos rfl]
      exact ⟨given, hheld, hcopied, hkeeps⟩
    · obtain ⟨given', hheld', hcopied', hkeeps'⟩ := h.copied i hi
      rw [World.set_of_ne w hif, if_neg hif, List.append_nil]
      exact ⟨given', hheld', hcopied', fun _ => hkeeps' (by simp [hpos])⟩

theorem messageAt_payload {buffer packet : Buffer} (hmin : 2 ≤ lengthField packet)
    (h : ∀ i < (messageAt packet).length, buffer i = (messageAt packet).getD i 0) :
    messageAt buffer = messageAt packet := by
  have hbyte : ∀ i < lengthField packet, buffer i = packet i := fun i hi => by
    rw [h i (by rwa [messageAt_length]), messageAt_getD packet hi]
  have hfield : lengthField buffer = lengthField packet := by
    rw [lengthField, hbyte 0 (by omega), hbyte 1 (by omega), lengthField]
  rw [messageAt, hfield, messageAt]
  exact Codec.bytesAt_congr fun i _ hi => hbyte i (by omega)

theorem Account.received {x : Fragment} {given pending waiting : List Buffer} {ms : List Response}
    (h : Account x given pending waiting ms) {call : RecvCall} {r : RecvReturn}
    (hr : recvGeneric .pcapConnectionBroken 12 65535 call x.unread = some r)
    (hcode : r.code = .none) :
    ∃ p, Fragment.Keeps { x with unread := r.unread } (given ++ [p]) ∧
      given ++ [p] <+: x.accepted ∧ Codec.getFragmentId r.buffer = x.fid ∧
      messageAt (payload r.buffer) = messageAt (bleach p) := by
  obtain ⟨m, rest, rfl, hbytes, hunread⟩ :=
    recvGeneric_arrived (by decide) (by decide) h.stream hr hcode
  obtain ⟨p, pending, ⟨msg, hm, hfin⟩, hrest, rfl⟩ := List.forall₂_cons_left_iff.mp h.carried
  have haccepted : x.accepted = (given ++ [p]) ++ (pending ++ waiting) := by
    rw [h.accepted]
    simp
  obtain ⟨hmin, hmax⟩ := h.sized p (by simp [haccepted])
  obtain ⟨-, hlen⟩ := response_bounds hmin hmax
  have hrecv := hfin.received hlen (hbytes.trans hm)
  refine ⟨p, ⟨pending, waiting, rest, haccepted, h.queued, hrest, hunread, h.idle, h.sized⟩,
    ⟨_, haccepted.symm⟩, hrecv.id_field, messageAt_payload ?_ hrecv.payload_bytes⟩
  have hlow : 12 ≤ (totalSize p).toNat := UInt16.le_iff_toNat_le.mp hmin
  rw [← messageAt_length, messageAt_bleach_length]
  omega

theorem World.Inv.recv (h : w.Inv n) {call : RecvCall} (hs : w.step (.recv call) = some w') :
    w'.Inv n := by
  rw [World.step] at hs
  split at hs
  next fid hpos =>
    split_ifs at hs
    obtain ⟨r, hr, hs⟩ := Option.bind_eq_some_iff.mp hs
    obtain ⟨given, hheld, hcopied, hkeeps⟩ := h.copied fid (h.position fid hpos)
    obtain ⟨pending, waiting, ms, haccount⟩ := hkeeps (by simp [hpos])
    have hsame : List.Forall₂ Copy (w.captured fid ++ []) given := by rwa [List.append_nil]
    split_ifs at hs with hnone hpending
    · obtain ⟨p, hkeeps', hheld', hid, hbytes⟩ := haccount.received hr hnone
      obtain ⟨ec, -, rfl⟩ := Option.map_eq_some_iff.mp hs
      dsimp only
      split_ifs
      · exact h.answer hpos [] rfl rfl (by simp [World.leave, World.set])
          (by simp [World.leave]) rfl hheld hsame (fun hrun => absurd rfl hrun)
      · exact h.answer hpos [] rfl rfl (by simp [World.leave, World.set])
          (by simp [World.leave]) rfl hheld hsame (fun hrun => absurd rfl hrun)
      · rw [h.ids] at hid
        refine h.answer hpos [messageAt (payload r.buffer)] rfl rfl ?_ (by simp) rfl
          hheld' (List.rel_append hcopied (.cons ?_ .nil)) fun _ => hkeeps'
        · simp [World.set, hid]
        · rw [hbytes]
          exact copy_bleach p
    · obtain rfl := Option.some.inj hs
      have hunread : r.unread = (w.fragments fid).unread := by
        obtain hcode | hcode | hcode | hunread := recvGeneric_keeps (by decide) hr
        · simp [hcode] at hpending
        · simp [hcode] at hpending
        · simp [hcode] at hpending
        · exact hunread
      refine h.answer hpos [] rfl rfl (by simp [World.set]) (by simp) rfl hheld hsame
        fun _ => ?_
      rw [hunread]
      exact ⟨pending, waiting, ms, haccount⟩
    · obtain rfl := Option.some.inj hs
      exact h.answer hpos [] rfl rfl (by simp [World.leave, World.set])
        (by simp [World.leave]) rfl hheld hsame (fun hrun => absurd rfl hrun)
  next => simp at hs

theorem World.Inv.step (h : w.Inv n) {e : Event} (hs : w.step e = some w') : w'.Inv n := by
  cases e with
  | fragment fid e =>
    obtain ⟨x, hx, rfl⟩ := Option.map_eq_some_iff.mp hs
    exact h.fragment hx
  | changeSubscription | stopPcapThread =>
    obtain rfl := Option.some.inj hs
    exact h.move rfl rfl rfl id h.position
  | poll failed ready =>
    rw [World.step] at hs
    split_ifs at hs with hpos
    all_goals
      obtain rfl := Option.some.inj hs
      exact h.move rfl rfl rfl (fun _ => by simp [hpos]) (by simp)
  | visit =>
    rw [World.step] at hs
    split at hs
    next fid hpos =>
      by_cases hfid : fid < w.numFragments.toNat
      · rw [if_pos hfid] at hs
        obtain rfl := Option.some.inj hs
        refine h.move rfl rfl rfl (fun _ => by simp [hpos]) fun i hi => ?_
        dsimp only at hi
        split_ifs at hi
        obtain rfl := Position.recv.inj hi
        exact hfid
      · rw [if_neg hfid] at hs
        obtain rfl := Option.some.inj hs
        exact h.move rfl rfl rfl (fun _ => by simp [hpos]) (by simp)
    next => simp at hs
  | recv call => exact h.recv hs

theorem World.Inv.start (numFragments : UInt16) (numNeighbors : ℕ → UInt16) (old : ℕ → Buffer)
    (msgPcap : Buffer) : (World.start numFragments numNeighbors old msgPcap).Inv numFragments where
  size := rfl
  ids := fun _ => rfl
  position := fun _ hpos => nomatch hpos
  logged := fun _ hentry => absurd hentry List.not_mem_nil
  copied := fun _ _ => ⟨[], List.nil_prefix, .nil, fun _ =>
    ⟨[], [], [], rfl, rfl, .nil, rfl, fun _ => rfl, fun _ hp => absurd hp List.not_mem_nil⟩⟩

/-- At every moment the packets given to the testcase under the id of a fragment are copies of the
first packets that its `node_send` has taken on the user port while it was subscribed, in order, and
no packet is given under an id that no fragment has. -/
theorem capture_faithful (numFragments : UInt16) (numNeighbors : ℕ → UInt16) (old : ℕ → Buffer)
    (msgPcap : Buffer) (w : World) (h : Runs.Reach World.step (fun _ _ => True)
      (.start numFragments numNeighbors old msgPcap) w) :
    (∀ entry ∈ w.log, entry.1 < numFragments) ∧ ∀ fid < numFragments.toNat,
      ∃ given, given <+: (w.fragments fid).accepted ∧ List.Forall₂ Copy (w.captured fid) given := by
  have hinv : w.Inv numFragments := h.invariant (P := fun w => w.Inv numFragments)
    (World.Inv.start _ _ _ _) fun _ _ _ ht _ hs => ht.step hs
  rw [← hinv.size]
  refine ⟨hinv.logged, fun fid hfid => ?_⟩
  obtain ⟨given, hheld, hcopied, -⟩ := hinv.copied fid hfid
  exact ⟨given, hheld, hcopied⟩

/-- The second of two fragments has no neighbours and is captured: a FLOOD packet whose reserved
field is not zero. -/
theorem capture_faithful_flood : ∃ w : World,
    w.log = [(1, [12, 0, 1, 0, 0, 0, 0, 0, 0, 0, 0, 0])] ∧
    (∀ entry ∈ w.log, entry.1 < 2) ∧ ∀ fid < (2 : UInt16).toNat,
      ∃ given, given <+: (w.fragments fid).accepted ∧ List.Forall₂ Copy (w.captured fid) given := by
  let packet : Buffer := fun i => [12, 0, 1, 0, 9, 9, 9, 9, 9, 9, 9, 9].getD i 0
  let call : RecvCall := ⟨⟨.rxTxTimeout, 50⟩, some true, fun _ => 0,
    [(.bytes 2, 0), (.bytes 24, 1), (.bytes 20, 2), (.bytes 4, 3)]⟩
  have hrun : ((Runs.run World.step [.changeSubscription 1 true,
      .fragment 1 (.updatePcapSubscription true), .fragment 1 .loop, .poll false fun fid => fid = 1,
      .fragment 1 (.nodeSend 0 packet), .fragment 1 .read, .fragment 1 (.write 20),
      .fragment 1 (.arrive 20), .fragment 1 (.write 4), .visit, .visit,
      .fragment 1 (.arrive 4), .recv call]
      (.start 2 (fun _ => 0) (fun _ _ => 0) fun _ => 0)).any fun w =>
        decide (w.log = [(1, [12, 0, 1, 0, 0, 0, 0, 0, 0, 0, 0, 0])])) = true := by
    decide +kernel
  obtain ⟨w, hw, hlog⟩ := (Option.any_eq_true _ _).mp hrun
  exact ⟨w, of_decide_eq_true hlog, capture_faithful 2 (fun _ => 0) (fun _ _ => 0) (fun _ => 0) w
    (Runs.reach_of_run (fun _ _ _ => trivial) hw)⟩

end Loop

end Mixnet.Capture
