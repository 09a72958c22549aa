import Mixnet.Handshakes
import Mixnet.Orchestration
import Mixnet.Requests
import Mixnet.Wiring

/-! The orchestrator and its fragments, from SETUP_CTRL to the end: two state machines, and one FIFO
channel for each direction of the ctrl and the pcap connection of every fragment. -/
namespace Mixnet.Session
open Codec (MessageType)
open Orchestrator (Process Exchange Gather World State checkRequest checkHeader)
open Requests (RequestType)
open Wiring (NetAddr)

section Stages

inductive Overlay where
  | ctrl | pcap
deriving DecidableEq

def Overlay.type : Overlay → MessageType
  | .ctrl => .setupCtrl
  | .pcap => .setupPcap

inductive Phase where
  | setupPcap
  | topology
  | startMixnetServer
  | startMixnetClients
  | resolveMixnetConns
  | startTestcase
  | endTestcase
  | shutdown
deriving DecidableEq

def Phase.type : Phase → MessageType
  | .setupPcap => .setupPcap
  | .topology => .topology
  | .startMixnetServer => .startMixnetServer
  | .startMixnetClients => .startMixnetClients
  | .resolveMixnetConns => .resolveMixnetConns
  | .startTestcase => .startTestcase
  | .endTestcase => .endTestcase
  | .shutdown => .shutdown

/-- Where `fragment::run` is: it introduces itself on an overlay, waits for the handshake to be
completed, waits for a request, acknowledges it, or answers an API call. In `request .endTestcase`
it waits for API calls as well. -/
inductive Stage where
  | hello (v : Overlay)
  | welcome (v : Overlay)
  | request (p : Phase)
  | answer (p : Phase)
  | reply (t : RequestType)
  | done
deriving DecidableEq

def Overlay.after : Overlay → Stage
  | .ctrl => .request .setupPcap
  | .pcap => .request .topology

def Phase.after : Phase → Stage
  | .setupPcap => .hello .pcap
  | .topology => .request .startMixnetServer
  | .startMixnetServer => .request .startMixnetClients
  | .startMixnetClients => .request .resolveMixnetConns
  | .resolveMixnetConns => .request .startTestcase
  | .startTestcase => .request .endTestcase
  | .endTestcase => .request .shutdown
  | .shutdown => .done

inductive FragmentState where
  | setupCtrl
  | setupPcap
  | createTopology
  | startMixnetServer
  | startMixnetClient
  | resolveMixnetConnections
  | startTestcase
  | runTestcase
  | shutdown
  | done
deriving DecidableEq

def FragmentState.rank : FragmentState → ℕ
  | .setupCtrl => 0
  | .setupPcap => 1
  | .createTopology => 2
  | .startMixnetServer => 3
  | .startMixnetClient => 4
  | .resolveMixnetConnections => 5
  | .startTestcase => 6
  | .runTestcase => 7
  | .shutdown => 8
  | .done => 9

def Phase.fragmentState : Phase → FragmentState
  | .setupPcap => .setupPcap
  | .topology => .createTopology
  | .startMixnetServer => .startMixnetServer
  | .startMixnetClients => .startMixnetClient
  | .resolveMixnetConns => .resolveMixnetConnections
  | .startTestcase => .startTestcase
  | .endTestcase => .runTestcase
  | .shutdown => .shutdown

def Stage.state : Stage → FragmentState
  | .hello .ctrl | .welcome .ctrl => .setupCtrl
  | .hello .pcap | .welcome .pcap => .setupPcap
  | .request p | .answer p => p.fragmentState
  | .reply _ => .runTestcase
  | .done => .done

end Stages

section Fragment

structure Request extends Orchestrator.Request where
  numNeighbors : UInt16 := 0
deriving DecidableEq

structure Response extends Orchestrator.Reply where
  serverNetaddr : NetAddr := {}
  numNeighbors : UInt16 := 0
  clientNetaddrs : List NetAddr := []
deriving DecidableEq

/-- `launched` says whether the node thread has been started. A fragment whose `errorCode` is not
NONE has left its loop. -/
structure Fragment where
  process : Process
  stage : Stage := .hello .ctrl
  numNeighbors : UInt16 := 0
  connected : Overlay → Bool := fun _ => false
  launched : Bool := false
  errorCode : ErrorCode := .none

/-- The arguments of `recv_request`. -/
structure Awaited where
  overlay : Overlay
  checkId : Bool := true
  checkType : Bool := true
  type : MessageType
deriving DecidableEq

def Stage.awaits : Stage → Option Awaited
  | .welcome .ctrl => some { overlay := .ctrl, checkId := false, type := .setupCtrl }
  | .welcome .pcap => some { overlay := .pcap, type := .setupPcap }
  | .request .endTestcase => some { overlay := .ctrl, checkType := false, type := .noop }
  | .request p => some { overlay := .ctrl, type := p.type }
  | _ => none

def dispatch : MessageType → Option Stage
  | .changeLinkState => some (.reply .changeLinkState)
  | .pcapSubscription => some (.reply .pcapSubscription)
  | .sendPacket => some (.reply .sendPacket)
  | .endTestcase => some (.answer .endTestcase)
  | _ => none

def Fragment.handle (f : Fragment) (m : Request) : Fragment :=
  match f.stage with
  | .welcome .ctrl =>
    { f with
      process := { f.process with fid := m.fragmentId, autotestMode := m.autotestMode }
      stage := .request .setupPcap }
  | .welcome .pcap => { f with stage := .request .topology }
  | .request .topology => { f with numNeighbors := m.numNeighbors, stage := .answer .topology }
  | .request .startMixnetClients =>
    if f.numNeighbors ≠ m.numNeighbors then { f with errorCode := .fragmentBadNeighborCount }
    else { f with stage := .answer .startMixnetClients }
  | .request .resolveMixnetConns =>
    if m.numNeighbors ≠ f.numNeighbors then { f with errorCode := .fragmentBadNeighborCount }
    else { f with stage := .answer .resolveMixnetConns }
  | .request .endTestcase =>
    match dispatch m.type with
    | some s => { f with stage := s }
    | none => { f with errorCode := .badMessageCode }
  | .request p => { f with stage := .answer p }
  | _ => f

/-- `recv_request`, from the check of the header on. -/
def Fragment.receive (f : Fragment) (a : Awaited) (m : Request) : Fragment :=
  let ec := checkRequest m.toRequest a.checkId a.checkType f.process.fid a.type
  if ec ≠ .none then { f with errorCode := ec } else f.handle m

/-- What the system has given to a fragment for its next response: the code of the task of an API
call, the port of the node's server, the addresses of its client sockets. -/
structure Outcome where
  errorCode : ErrorCode := .none
  port : UInt16 := 0
  clientNetaddrs : List NetAddr := []

def Fragment.socketsWork (f : Fragment) (r : Outcome) : Bool :=
  match f.stage with
  | .answer .startMixnetServer => f.numNeighbors = 0 || r.port ≠ 0
  | .answer .startMixnetClients =>
    r.clientNetaddrs.length = f.numNeighbors.toNat && r.clientNetaddrs.all NetAddr.valid
  | _ => true

def Fragment.response (f : Fragment) (type : MessageType) (ec : ErrorCode) (r : Outcome) :
    Response where
  toReply := { f.process.response type with errorCode := ec }
  serverNetaddr := { family := Wiring.afInet, port := r.port, addr := 0xFFFFFFFF }
  numNeighbors := f.numNeighbors
  clientNetaddrs := r.clientNetaddrs

def Fragment.respond (f : Fragment) (r : Outcome) : Option (Overlay × Response × Stage) :=
  match f.stage with
  | .hello v =>
    if f.connected v then some (v, f.response v.type .none r, .welcome v) else none
  | .answer p =>
    if f.socketsWork r then some (.ctrl, f.response p.type .none r, p.after) else none
  | .reply t => some (.ctrl, f.response t.type r.errorCode r, .request .endTestcase)
  | _ => none

end Fragment

section Orchestrator

/-- The steps of the orchestrator's phases: joining an accept thread, receiving from and sending to
all fragments. -/
inductive Op where
  | accept (v : Overlay)
  | hello (v : Overlay)
  | welcome (v : Overlay)
  | request (p : Phase)
  | answers (p : Phase)
  | testcase
  | finished
deriving DecidableEq

def Phase.state : Phase → State
  | .setupPcap => .setupPcapPlane
  | .topology => .createMixnetTopology
  | .startMixnetServer => .startAllMixnetServers
  | .startMixnetClients => .startAllMixnetClients
  | .resolveMixnetConns => .resolveMixnetConnections
  | .startTestcase => .startTestcase
  | .endTestcase => .endTestcase
  | .shutdown => .gracefulShutdown

def Op.state : Op → State
  | .accept .ctrl | .hello .ctrl | .welcome .ctrl => .setupCtrlPlane
  | .accept .pcap | .hello .pcap | .welcome .pcap => .setupPcapPlane
  | .request p | .answers p => p.state
  | .testcase => .runTestcase
  | .finished => .reset

def entry : State → Op
  | .init | .setupCtrlPlane => .accept .ctrl
  | .setupPcapPlane => .request .setupPcap
  | .createMixnetTopology => .request .topology
  | .startAllMixnetServers => .request .startMixnetServer
  | .startAllMixnetClients => .request .startMixnetClients
  | .resolveMixnetConnections => .request .resolveMixnetConns
  | .startTestcase => .request .startTestcase
  | .runTestcase => .testcase
  | .endTestcase => .request .endTestcase
  | .gracefulShutdown => .request .shutdown
  | .forcefulShutdown | .reset => .finished

def Op.next (op : Op) (ec : ErrorCode) : Op :=
  if ec ≠ .none then entry (op.state.next ec)
  else
    match op with
    | .accept v => .hello v
    | .hello v => .welcome v
    | .request p => .answers p
    | .answers .setupPcap => .accept .pcap
    | _ => entry (op.state.next ec)

/-- The accept thread of the overlay is running. -/
def Op.listens : Op → Overlay → Bool
  | .accept .ctrl, .ctrl => true
  | .request .setupPcap, .pcap => true
  | .answers .setupPcap, .pcap => true
  | .accept .pcap, .pcap => true
  | _, _ => false

def Op.overlay : Op → Overlay
  | .hello v | .welcome v => v
  | _ => .ctrl

def Op.sends : Op → Option MessageType
  | .welcome v => some v.type
  | .request p => some p.type
  | _ => none

/-- The orchestrator: the variables of `foreach_fragment_recv_generic` around the phases' state, the
index of `foreach_fragment_send_generic`, the processes that each listener has accepted, and the
API call that waits for its response. -/
structure Orc where
  op : Op
  gather : Gather World
  sent : ℕ := 0
  accepted : Overlay → List ℕ := fun _ => []
  call : Option (ℕ × RequestType) := none
  subscribed : ℕ → Bool := fun _ => false

/-- What does not change in a run: process `q` has the pid `pid q`, its connection on an overlay has
the descriptor `fd v q`, and fragment `fid` has `numNeighbors fid` neighbors. In autotest mode
process `q` is the one that is forked for fragment `q`. -/
structure Setting where
  numNodes : UInt16
  autotestMode : Bool
  pid : ℕ → ℕ
  fd : Overlay → ℕ → ℤ
  numNeighbors : ℕ → UInt16
  pid_injective : autotestMode = true → Function.Injective pid
  fd_pos : ∀ v q, 0 < fd v q
  fd_injective : ∀ v, Function.Injective (fd v)

variable (S : Setting)

def Setting.size : ℕ := S.numNodes.toNat

def Setting.peer (v : Overlay) (fd : ℤ) : ℕ :=
  ((List.range S.size).find? fun q => S.fd v q = fd).getD S.size

def Setting.request (type : MessageType) (fid : ℕ) : Request where
  toRequest := Orchestrator.request S.autotestMode type fid
  numNeighbors := S.numNeighbors fid

def Setting.check (p : Phase) (idx : ℕ) (m : Response) : ErrorCode :=
  match p with
  | .startMixnetServer =>
    if S.numNeighbors idx = 0 then .none
    else if !m.serverNetaddr.valid then .fragmentInvalidSaddr
    else .none
  | .startMixnetClients =>
    if m.numNeighbors ≠ S.numNeighbors idx then .fragmentBadNeighborCount
    else if (List.range (S.numNeighbors idx).toNat).all fun nid =>
        (m.clientNetaddrs.getD nid {}).valid then .none
    else .fragmentInvalidCaddr
  | _ => .none

def Setting.fds (o : Orc) : List ℤ :=
  let w := o.gather.state
  match o.op with
  | .hello v => (o.accepted v).map (S.fd v)
  | .welcome .pcap => (List.range w.size).map fun fid => (w.fragments fid).fdPcap
  | _ => w.ctrlFds

def Setting.target (o : Orc) (idx : ℕ) : ℕ := S.peer o.op.overlay ((S.fds o).getD idx (-1))

def Setting.exchange (o : Orc) (m : Response) : Option (Exchange World) :=
  match o.op with
  | .hello .ctrl => some (Orchestrator.ctrlHandshake S.autotestMode (S.fds o))
  | .hello .pcap => some (Orchestrator.pcapHandshake (S.fds o))
  | .answers .shutdown => some (Orchestrator.shutdownExchange o.gather.state)
  | .answers p =>
    some { Orchestrator.acknowledgement p.type o.gather.state with
      process := fun idx _ w => (S.check p idx m, w) }
  | _ => none

def Setting.over (o : Orc) : Bool :=
  match o.op with
  | .accept v => (o.accepted v).length = S.size
  | .hello _ | .answers _ => o.gather.numPending = 0
  | .welcome _ | .request _ => o.sent = (S.fds o).length
  | .testcase => o.call = none
  | .finished => false

def Orc.enter (o : Orc) (op : Op) : Orc :=
  { o with
    op := op
    gather := ⟨.none, [], o.gather.state.size, o.gather.state⟩
    sent := 0 }

end Orchestrator

section System

structure System where
  orc : Orc
  fragment : ℕ → Fragment
  requests : ℕ × Overlay → List Request := fun _ => []
  responses : ℕ × Overlay → List Response := fun _ => []

/-- A step of a fragment process (the first seven, `fail` for whatever else ends its loop) or of
the orchestrator; `capture` is its pcap thread. -/
inductive Event where
  | connect (q : ℕ) (v : Overlay)
  | respond (q : ℕ) (r : Outcome)
  | receive (q : ℕ)
  | launch (q : ℕ)
  | packet (q : ℕ) (totalSize : UInt16)
  | fail (q : ℕ) (ec : ErrorCode)
  | accept (q : ℕ) (v : Overlay)
  | send
  | gather (idx : ℕ)
  | next (ec : ErrorCode)
  | call (fid : ℕ) (t : RequestType)
  | result
  | capture (fid : ℕ)

namespace System

def setFragment (w : System) (q : ℕ) (f : Fragment) : System :=
  { w with fragment := Function.update w.fragment q f }

def setRequests (w : System) (c : ℕ × Overlay) (ms : List Request) : System :=
  { w with requests := Function.update w.requests c ms }

def setResponses (w : System) (c : ℕ × Overlay) (ms : List Response) : System :=
  { w with responses := Function.update w.responses c ms }

variable (S : Setting) (w : System)

def fragmentStep (q : ℕ) (act : Fragment → Option System) : Option System :=
  if q < S.size ∧ (w.fragment q).errorCode = .none then act (w.fragment q) else none

def connect (q : ℕ) (v : Overlay) : Option System :=
  w.fragmentStep S q fun f =>
    if f.stage = .hello v ∧ f.connected v = false then
      some (w.setFragment q { f with connected := Function.update f.connected v true })
    else none

def respond (q : ℕ) (r : Outcome) : Option System :=
  w.fragmentStep S q fun f => (f.respond r).map fun (v, m, s) =>
    (w.setResponses (q, v) (w.responses (q, v) ++ [m])).setFragment q { f with stage := s }

/-- The loop of RUN_TESTCASE comes after the launch of the threads. -/
def receive (q : ℕ) : Option System :=
  w.fragmentStep S q fun f =>
    if f.stage = .request .endTestcase ∧ f.launched = false then none
    else f.stage.awaits.bind fun a =>
      match w.requests (q, a.overlay) with
      | [] => none
      | m :: rest => some ((w.setRequests (q, a.overlay) rest).setFragment q (f.receive a m))

def launch (q : ℕ) : Option System :=
  w.fragmentStep S q fun f =>
    if f.stage = .request .endTestcase ∧ f.launched = false then
      some (w.setFragment q { f with launched := true })
    else none

/-- The pcap thread of a fragment sends a packet. It is there until END_TESTCASE is acknowledged,
also when the main loop has failed. -/
def packet (q : ℕ) (totalSize : UInt16) : Option System :=
  let f := w.fragment q
  if q < S.size ∧ f.launched = true ∧ f.stage.state = .runTestcase then
    some (w.setResponses (q, .pcap) (w.responses (q, .pcap) ++
      [{ toReply := { f.process.response .pcapData with totalSize := totalSize } }]))
  else none

def fail (q : ℕ) (ec : ErrorCode) : Option System :=
  w.fragmentStep S q fun f => some (w.setFragment q { f with errorCode := ec })

def accept (q : ℕ) (v : Overlay) : Option System :=
  let o := w.orc
  if o.op.listens v = true ∧ q < S.size ∧ (w.fragment q).connected v = true ∧ q ∉ o.accepted v ∧
      (o.accepted v).length < S.size then
    some { w with orc :=
      { o with accepted := Function.update o.accepted v (o.accepted v ++ [q]) } }
  else none

def send : Option System :=
  let o := w.orc
  o.op.sends.bind fun type =>
    if o.sent < (S.fds o).length then
      let c := (S.target o o.sent, o.op.overlay)
      some { w.setRequests c (w.requests c ++ [S.request type o.sent]) with
        orc := { o with sent := o.sent + 1 } }
    else none

def gather (idx : ℕ) : Option System :=
  let o := w.orc
  let c := (S.target o idx, o.op.overlay)
  match w.responses c with
  | [] => none
  | m :: rest =>
    (S.exchange o m).bind fun x =>
      if idx < x.fds.length ∧ 0 < x.fds.getD idx (-1) ∧ idx ∉ o.gather.answered ∧
          o.gather.numPending ≠ 0 then
        some { w.setResponses c rest with
          orc := { o with gather := x.take o.gather idx (.message m.toReply) } }
      else none

/-- `ec` is what the testcase returns. -/
def next (ec : ErrorCode) : Option System :=
  let o := w.orc
  if S.over o = true then
    some { w with orc := o.enter (o.op.next (if o.op = .testcase then ec else o.gather.errorCode)) }
  else none

/-- `pcap_change_subscription` sends its request only for a change. -/
def call (fid : ℕ) (t : RequestType) : Option System :=
  let o := w.orc
  if o.op = .testcase ∧ o.call = none ∧ fid < o.gather.state.size then
    let c := (S.peer .ctrl (o.gather.state.fragments fid).fdCtrl, Overlay.ctrl)
    some { w.setRequests c (w.requests c ++ [S.request t.type fid]) with
      orc := { o with
        call := some (fid, t)
        subscribed := if t = .pcapSubscription then
          Function.update o.subscribed fid (!o.subscribed fid) else o.subscribed } }
  else none

def result : Option System :=
  let o := w.orc
  o.call.bind fun (fid, _) =>
    let c := (S.peer .ctrl (o.gather.state.fragments fid).fdCtrl, Overlay.ctrl)
    match w.responses c with
    | [] => none
    | _ :: rest => some { w.setResponses c rest with orc := { o with call := none } }

def capture (fid : ℕ) : Option System :=
  let o := w.orc
  if o.op = .testcase ∧ fid < o.gather.state.size ∧ o.subscribed fid = true then
    let c := (S.peer .pcap (o.gather.state.fragments fid).fdPcap, Overlay.pcap)
    match w.responses c with
    | [] => none
    | _ :: rest => some (w.setResponses c rest)
  else none

def step : Event → Option System
  | .connect q v => w.connect S q v
  | .respond q r => w.respond S q r
  | .receive q => w.receive S q
  | .launch q => w.launch S q
  | .packet q totalSize => w.packet S q totalSize
  | .fail q ec => w.fail S q ec
  | .accept q v => w.accept S q v
  | .send => w.send S
  | .gather idx => w.gather S idx
  | .next ec => w.next S ec
  | .call fid t => w.call S fid t
  | .result => w.result S
  | .capture fid => w.capture S fid

end System

variable (S : Setting)

def Setting.world : World :=
  if S.autotestMode then (Orchestrator.forkAll (fun q => some (S.pid q)) S.size 0 {}).2
  else { size := S.size }

def Setting.start : System where
  orc := { op := .accept .ctrl, gather := ⟨.none, [], S.size, S.world⟩ }
  fragment q := { process := { pid := S.pid q } }

end System

section Reads

structure Fragment.Accepts (f : Fragment) (a : Awaited) (m : Request) : Prop where
  direction : m.isRequest = true
  id : a.checkId = true → m.fragmentId = f.process.fid
  type : if a.checkType then m.type = a.type else ∃ s, dispatch m.type = some s
  header : checkRequest m.toRequest a.checkId a.checkType f.process.fid a.type = .none
  handled : (f.receive a m).errorCode = f.errorCode

/-- A connection that the orchestrator may read next, and the header that it waits for there. -/
structure Read where
  process : ℕ
  overlay : Overlay
  checkId : Bool
  fid : UInt16
  type : MessageType

/-- What the steps that receive, an API call and the pcap thread read. -/
inductive Setting.Reads (S : Setting) (o : Orc) : Read → Prop
  | gather {idx : ℕ} {m : Response} {x : Exchange World} (hx : S.exchange o m = some x)
      (hidx : idx < x.fds.length) (hnew : idx ∉ o.gather.answered) :
      S.Reads o ⟨S.target o idx, o.op.overlay, x.checkFragmentIds, UInt16.ofNat idx, x.type⟩
  | result {fid : ℕ} {t : RequestType} (hcall : o.call = some (fid, t)) :
      S.Reads o ⟨S.peer .ctrl (o.gather.state.fragments fid).fdCtrl, .ctrl, true,
        UInt16.ofNat fid, t.type⟩
  | capture {fid : ℕ} (hop : o.op = .testcase) (hfid : fid < o.gather.state.size) :
      S.Reads o ⟨S.peer .pcap (o.gather.state.fragments fid).fdPcap, .pcap, true,
        UInt16.ofNat fid, .pcapData⟩

structure Read.Expects (r : Read) (m : Response) : Prop where
  valid : m.valid = true
  direction : m.isRequest = false
  id : r.checkId = true → m.fragmentId = r.fid
  type : m.type = r.type

end Reads

end Mixnet.Session
