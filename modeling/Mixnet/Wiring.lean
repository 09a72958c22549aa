import Mixnet.Graph
import Mixnet.Networking

/-! How the ports of the nodes get their sockets: START_ALL_MIXNET_SERVERS,
START_ALL_MIXNET_CLIENTS and RESOLVE_MIXNET_CONNECTIONS of the orchestrator, the fragments and
their accept threads, over sockets and ctrl connections that answer in any order. -/
namespace Mixnet.Wiring

structure NetAddr where
  family : UInt16 := 0
  port : UInt16 := 0
  addr : UInt32 := 0
deriving DecidableEq

instance : Inhabited NetAddr := ⟨{}⟩

def afInet : UInt16 := 2

def equalNetaddrs (a b : NetAddr) : Bool :=
  a.port = b.port && a.family = b.family && a.addr = b.addr

/-- The orchestrator's check of an address that a fragment has reported. -/
def NetAddr.valid (a : NetAddr) : Bool := !(a.family ≠ afInet || a.addr = 0 || a.port = 0)

inductive MessageType where
  | startMixnetServer | startMixnetClients | resolveMixnetConns
deriving DecidableEq

/- A message on a ctrl connection. `canary` says whether `validate` accepts it; `netaddrs` is
   the array behind the payload of the last two types. -/
structure CtrlMessage where
  fragmentId : ℕ
  isRequest : Bool
  type : MessageType
  errorCode : ErrorCode := .none
  canary : Bool := true
  serverNetaddr : NetAddr := default
  numNeighbors : ℕ := 0
  netaddrs : List NetAddr := []
deriving DecidableEq

def CtrlMessage.exactLength (m : CtrlMessage) : ℕ :=
  let length := match m.type, m.isRequest with
    | .startMixnetServer, true => 0
    | .startMixnetServer, false => 16
    | .startMixnetClients, _ => 8 + 16 * m.numNeighbors
    | .resolveMixnetConns, true => 8 + 16 * m.numNeighbors
    | .resolveMixnetConns, false => 0
  8 + length + 4

/-- What arrives of a message. One whose length does not fit in `total_length` may arrive as
anything. -/
def CtrlMessage.arrives (m garbled : CtrlMessage) : CtrlMessage :=
  if m.exactLength ≤ 65535 then m else garbled

def CtrlMessage.netaddr (m : CtrlMessage) (nid : ℕ) : NetAddr := m.netaddrs.getD nid default

section Kernel

inductive Socket where
  | listener
  | client (connection : ℕ)
  | server (connection : ℕ)
deriving DecidableEq

/-- `address` is the client's: `getsockname` gives it on that side, `accept` on the other. -/
structure Connection where
  server : ℕ
  address : NetAddr
deriving DecidableEq

/- Sockets of the fragments: descriptors by process, the port each fragment listens on, all
   connections made so far, and those that have not been accepted. -/
structure Kernel where
  sockets : ℕ → ℕ → Option Socket
  ports : ℕ → Option UInt16
  connections : List Connection
  backlog : ℕ → List ℕ

variable (n : ℕ) (host : ℕ → UInt32)

def Kernel.Listens (k : Kernel) (v : ℕ) (a : NetAddr) : Prop :=
  v < n ∧ a.family = afInet ∧ a.addr = host v ∧ k.ports v = some a.port

instance (k : Kernel) (v : ℕ) (a : NetAddr) : Decidable (k.Listens n host v a) :=
  inferInstanceAs (Decidable (_ ∧ _ ∧ _ ∧ _))

def Kernel.openFd (k : Kernel) (u fd : ℕ) (s : Socket) : Kernel :=
  { k with sockets := Function.update k.sockets u (Function.update (k.sockets u) fd (some s)) }

/-- `bind` and `listen` on a port that is free on the machine of `u`. -/
def Kernel.listen (k : Kernel) (u fd : ℕ) (port : UInt16) : Option Kernel :=
  if u < n ∧ k.sockets u fd = none ∧ k.ports u = none ∧
      ∀ v < n, host v = host u → k.ports v ≠ some port then
    some { k.openFd u fd .listener with ports := Function.update k.ports u (some port) }
  else none

def Kernel.connection (k : Kernel) (v : ℕ) (address : NetAddr) : Option Kernel :=
  if ∀ c ∈ k.connections, c.server = v → c.address ≠ address then
    some { k with
      connections := k.connections ++ [⟨v, address⟩]
      backlog := Function.update k.backlog v (k.backlog v ++ [k.connections.length]) }
  else none

def Kernel.connect (k : Kernel) (u fd v : ℕ) (target address : NetAddr) : Option Kernel :=
  if k.sockets u fd = none ∧ k.Listens n host v target then
    (k.connection v address).map fun k' => k'.openFd u fd (.client k.connections.length)
  else none

/-- `accept` may take any waiting connection. -/
def Kernel.accept (k : Kernel) (u fd c : ℕ) : Option (Kernel × NetAddr) :=
  if k.sockets u fd = none ∧ c ∈ k.backlog u then
    (k.connections[c]?).map fun connection =>
      ({ k.openFd u fd (.server c) with
        backlog := Function.update k.backlog u ((k.backlog u).filter (· ≠ c)) },
        connection.address)
  else none

def Kernel.getsockname (k : Kernel) (u fd : ℕ) : Option NetAddr :=
  match k.sockets u fd with
  | some (.client c) => (k.connections[c]?).map Connection.address
  | _ => none

end Kernel

section Fragment

structure AcceptedState where
  connectionFd : ℕ
  address : NetAddr
deriving DecidableEq

/-- `accept_args`; the accept thread has filled `states` so far. -/
structure AcceptArgs where
  maxClients : ℕ := 0
  rc : ℤ := 0
  keepRunning : Bool := true
  states : List AcceptedState := []

def AcceptArgs.running (args : AcceptArgs) : Bool :=
  args.states.length < args.maxClients && args.rc = 0 && args.keepRunning

/-- `fragment::state_t`, with START_MIXNET_CLIENT cut where it awaits the ctrl message. -/
inductive FragmentState where
  | startMixnetServer
  | startMixnetClient
  | connecting
  | resolveMixnetConnections
  | startTestcase
  | failed (code : ErrorCode)
deriving DecidableEq

/- The part of a fragment and its node context that the three phases use. The two socket
   lists hold the entries that have been set. -/
structure Fragment where
  fid : ℕ
  state : FragmentState
  numNeighbors : ℕ
  txServerNetaddr : NetAddr := default
  neighborNetaddrs : List NetAddr := []
  rxSocketFds : List ℕ := []
  txSocketFds : List ℕ := []
  acceptArgs : AcceptArgs := {}

def Fragment.checkHeader (f : Fragment) (m : CtrlMessage) (type : MessageType) : ErrorCode :=
  if !m.canary then .malformedMessage
  else if !m.isRequest then .badMessageCode
  else if m.fragmentId ≠ f.fid then .badFragmentId
  else if m.type ≠ type then .badMessageCode
  else if m.errorCode ≠ .none then .fragmentException
  else .none

/-- Every error ends the fragment's run of the phase and stops its accept thread. -/
def Fragment.fail (f : Fragment) (code : ErrorCode) : Fragment :=
  { f with state := .failed code, acceptArgs := { f.acceptArgs with keepRunning := false } }

def Fragment.response (f : Fragment) (type : MessageType) : CtrlMessage where
  fragmentId := f.fid
  isRequest := false
  type := type

def Fragment.acceptedFrom (f : Fragment) (a : NetAddr) : Option ℕ :=
  (f.acceptArgs.states.find? fun s => equalNetaddrs s.address a).map AcceptedState.connectionFd

end Fragment

section Orchestrator

/-- `orchestrator::state_t`; `aborted` is a failed assertion. -/
inductive OrchestratorState where
  | startAllMixnetServers
  | startAllMixnetClients
  | resolveMixnetConnections
  | startTestcase
  | gracefulShutdown
  | aborted
deriving DecidableEq

def OrchestratorState.type : OrchestratorState → Option MessageType
  | .startAllMixnetServers => some .startMixnetServer
  | .startAllMixnetClients => some .startMixnetClients
  | .resolveMixnetConnections => some .resolveMixnetConns
  | _ => none

def OrchestratorState.next : OrchestratorState → OrchestratorState
  | .startAllMixnetServers => .startAllMixnetClients
  | .startAllMixnetClients => .resolveMixnetConnections
  | .resolveMixnetConnections => .startTestcase
  | s => s

/-- Where a phase is: in the loop of `foreach_fragment_send_generic` at `idx`, or in that of
`foreach_fragment_recv_generic` with the indices still polled. -/
inductive Loop where
  | sending (idx : ℕ)
  | receiving (pending : List ℕ)
deriving DecidableEq

structure FragmentMetadata where
  mixnetServerNetaddr : NetAddr := default
  mixnetClientNetaddrs : List NetAddr := []

structure Orchestrator where
  state : OrchestratorState
  loop : Loop
  errorCode : ErrorCode
  fragments : ℕ → FragmentMetadata

def accumulate (errorCode current : ErrorCode) : ErrorCode :=
  if errorCode = .none then current else errorCode

def checkHeader (m : CtrlMessage) (fid : ℕ) (type : MessageType) : ErrorCode :=
  if !m.canary then .malformedMessage
  else if m.fragmentId ≠ fid then .badFragmentId
  else if m.isRequest || m.type ≠ type then .badMessageCode
  else if m.errorCode ≠ .none then .fragmentException
  else .none

def Orchestrator.enter (o : Orchestrator) (s : OrchestratorState) : Orchestrator :=
  { o with state := s, loop := .sending 0, errorCode := .none }

variable (g : Graph) (host : ℕ → UInt32)

def Orchestrator.clientNetaddr (o : Orchestrator) (idx fragmentId : ℕ) : Option NetAddr :=
  ((g.topology fragmentId).findIdx? (· == idx)).bind fun j =>
    (o.fragments fragmentId).mixnetClientNetaddrs[j]?

/-- The request of the current phase to fragment `idx`; none if `assert(success)` fails or an
index is out of range. -/
def Orchestrator.request (o : Orchestrator) (idx : ℕ) : Option CtrlMessage :=
  match o.state with
  | .startAllMixnetServers =>
    some { fragmentId := idx, isRequest := true, type := .startMixnetServer }
  | .startAllMixnetClients => some
    { fragmentId := idx, isRequest := true, type := .startMixnetClients
      numNeighbors := (g.topology idx).length
      netaddrs := (g.topology idx).map fun v => (o.fragments v).mixnetServerNetaddr }
  | .resolveMixnetConnections =>
    ((g.topology idx).mapM (o.clientNetaddr g idx)).map fun netaddrs =>
      { fragmentId := idx, isRequest := true, type := .resolveMixnetConns
        numNeighbors := (g.topology idx).length, netaddrs := netaddrs }
  | _ => none

/-- The lambdas of the receive loops: the code and the new metadata of `idx`. `peername` says
whether `getpeername` succeeds on the ctrl connection. -/
def Orchestrator.process (o : Orchestrator) (idx : ℕ) (m : CtrlMessage) (peername : Bool) :
    ErrorCode × FragmentMetadata :=
  let metadata := o.fragments idx
  match o.state with
  | .startAllMixnetServers =>
    if (g.topology idx).isEmpty then (.none, metadata)
    else if !m.serverNetaddr.valid then (.fragmentInvalidSaddr, metadata)
    else if !peername then (.socketOptionsFailed, metadata)
    else (.none,
      { metadata with mixnetServerNetaddr := { m.serverNetaddr with addr := host idx } })
  | .startAllMixnetClients =>
    if m.numNeighbors ≠ (g.topology idx).length then (.fragmentBadNeighborCount, metadata)
    else
      let netaddrs := (List.range (g.topology idx).length).map m.netaddr
      (if netaddrs.all NetAddr.valid then .none else .fragmentInvalidCaddr,
        { metadata with mixnetClientNetaddrs :=
            metadata.mixnetClientNetaddrs ++ netaddrs.takeWhile NetAddr.valid })
  | _ => (.none, metadata)

end Orchestrator

structure World where
  orchestrator : Orchestrator
  fragment : ℕ → Fragment
  requests : ℕ → List CtrlMessage
  responses : ℕ → List CtrlMessage
  kernel : Kernel

/- One activity of the orchestrator, of a fragment, of its accept thread, or of another
   process that connects to a fragment. `result` is what sending or receiving returned;
   `failure` is any error of a system call in a fragment. -/
inductive Event where
  | send (result : ErrorCode) (garbled : CtrlMessage)
  | sendTimeout
  | receive (idx : ℕ) (result : ErrorCode) (peername : Bool)
  | receiveTimeout
  | finishLoop
  | startServer (u fd : ℕ) (port : UInt16)
  | startClient (u : ℕ)
  | connect (u fd v : ℕ) (address : NetAddr)
  | finishClients (u : ℕ) (garbled : CtrlMessage)
  | resolve (u : ℕ)
  | accept (u fd c : ℕ) (nonblocking : Bool)
  | acceptError (u : ℕ)
  | failure (u : ℕ) (code : ErrorCode)
  | outsider (v : ℕ) (address : NetAddr)

namespace World

def setFragment (w : World) (u : ℕ) (f : Fragment) : World :=
  { w with fragment := Function.update w.fragment u f }

def setRequests (w : World) (u : ℕ) (ms : List CtrlMessage) : World :=
  { w with requests := Function.update w.requests u ms }

def setResponses (w : World) (u : ℕ) (ms : List CtrlMessage) : World :=
  { w with responses := Function.update w.responses u ms }

def respond (w : World) (u : ℕ) (m : CtrlMessage) : World :=
  w.setResponses u (w.responses u ++ [m])

/-- `recv_request` of a fragment in state `s`, then what it does with the message. -/
def recvRequest (w : World) (u : ℕ) (s : FragmentState) (type : MessageType)
    (body : World → CtrlMessage → Option World) : Option World :=
  if (w.fragment u).state = s then
    match w.requests u with
    | [] => none
    | m :: rest =>
      let w := w.setRequests u rest
      let errorCode := (w.fragment u).checkHeader m type
      if errorCode ≠ .none then some (w.setFragment u ((w.fragment u).fail errorCode))
      else body w m
  else none

variable (g : Graph) (host : ℕ → UInt32)

/-- After CREATE_MIXNET_TOPOLOGY has returned `NONE`. -/
def init : World where
  orchestrator := ⟨.startAllMixnetServers, .sending 0, .none, fun _ => {}⟩
  fragment u :=
    { fid := u, state := .startMixnetServer, numNeighbors := (g.topology u).length }
  requests _ := []
  responses _ := []
  kernel := ⟨fun _ _ => none, fun _ => none, [], fun _ => []⟩

def send (w : World) (result : ErrorCode) (garbled : CtrlMessage) : Option World :=
  let o := w.orchestrator
  match o.loop with
  | .sending idx =>
    if o.state.type ≠ none ∧ idx < g.numNodes then
      match o.request g idx with
      | none => some { w with orchestrator := o.enter .aborted }
      | some m =>
        let w := { w with orchestrator :=
          { o with errorCode := accumulate o.errorCode result, loop := .sending (idx + 1) } }
        some (if result = .none then w.setRequests idx (w.requests idx ++ [m.arrives garbled])
          else w)
    else none
  | .receiving _ => none

def receive (w : World) (idx : ℕ) (result : ErrorCode) (peername : Bool) : Option World :=
  let o := w.orchestrator
  match o.loop, o.state.type with
  | .receiving pending, some type =>
    if idx ∈ pending then
      let o' := { o with loop := .receiving (pending.filter (· ≠ idx)) }
      if result ≠ .none then
        some { w with orchestrator :=
          { o' with errorCode := accumulate o.errorCode result } }
      else
        match w.responses idx with
        | [] => none
        | m :: rest =>
          let w := w.setResponses idx rest
          let code := checkHeader m idx type
          if code ≠ .none then
            some { w with orchestrator := { o' with errorCode := accumulate o.errorCode code } }
          else
            let p := o.process g host idx m peername
            some { w with orchestrator :=
              { o' with
                errorCode := accumulate o.errorCode p.1
                fragments := Function.update o.fragments idx p.2 } }
    else none
  | _, _ => none

def finishLoop (w : World) : Option World :=
  let o := w.orchestrator
  if o.state.type = none then none
  else
    match o.loop with
    | .sending idx =>
      if idx < g.numNodes then none
      else if o.errorCode = .none then
        some { w with orchestrator := { o with loop := .receiving (List.range g.numNodes) } }
      else some { w with orchestrator := o.enter .gracefulShutdown }
    | .receiving [] =>
      let next := if o.errorCode = .none then o.state.next else .gracefulShutdown
      some { w with orchestrator := o.enter next }
    | .receiving _ => none

/-- The timer of a loop runs out before its last turn: the phase returns an error. -/
def timeout (w : World) : Option World :=
  if w.orchestrator.state.type = none then none
  else some { w with orchestrator := w.orchestrator.enter .gracefulShutdown }

def sendTimeout (w : World) : Option World :=
  match w.orchestrator.loop with
  | .sending idx => if idx < g.numNodes then w.timeout else none
  | .receiving _ => none

def receiveTimeout (w : World) : Option World :=
  match w.orchestrator.loop with
  | .receiving (_ :: _) => w.timeout
  | _ => none

def startServer (w : World) (u fd : ℕ) (port : UInt16) : Option World :=
  w.recvRequest u .startMixnetServer .startMixnetServer fun w _ =>
    let f := w.fragment u
    -- without neighbors `server_setup` has nothing to do
    let bound := if f.numNeighbors = 0 then some (w.kernel, 0)
      else (w.kernel.listen g.numNodes host u fd port).map (·, port)
    bound.map fun p =>
      let netaddr : NetAddr := { family := afInet, port := p.2 }
      let w := { w with kernel := p.1 }
      let w := w.setFragment u { f with
        state := .startMixnetClient
        txServerNetaddr := netaddr
        acceptArgs := { maxClients := f.numNeighbors } }
      w.respond u { f.response .startMixnetServer with
        serverNetaddr := { netaddr with addr := 0xFFFFFFFF } }

/-- `run_state_start_mixnet_client` up to the loop of `connect` calls. -/
def startClient (w : World) (u : ℕ) : Option World :=
  w.recvRequest u .startMixnetClient .startMixnetClients fun w m =>
    let f := w.fragment u
    if f.numNeighbors ≠ m.numNeighbors then
      some (w.setFragment u (f.fail .fragmentBadNeighborCount))
    else some (w.setFragment u { f with
      state := .connecting
      neighborNetaddrs := (List.range f.numNeighbors).map m.netaddr })

def connect (w : World) (u fd v : ℕ) (address : NetAddr) : Option World :=
  let f := w.fragment u
  let nid := f.rxSocketFds.length
  if f.state = .connecting ∧ nid < f.numNeighbors then
    (w.kernel.connect g.numNodes host u fd v (f.neighborNetaddrs.getD nid default) address).map
      fun k => { w with kernel := k }.setFragment u { f with rxSocketFds := f.rxSocketFds ++ [fd] }
  else none

/-- The rest of `run_state_start_mixnet_client`: the accept thread has been joined. -/
def finishClients (w : World) (u : ℕ) (garbled : CtrlMessage) : Option World :=
  let f := w.fragment u
  if f.state = .connecting ∧ f.rxSocketFds.length = f.numNeighbors then
    let f := { f with acceptArgs := { f.acceptArgs with keepRunning := false } }
    if f.acceptArgs.states.length ≠ f.numNeighbors then
      some (w.setFragment u (f.fail .socketAcceptTimeout))
    else
      match f.rxSocketFds.mapM (w.kernel.getsockname u) with
      | none => some (w.setFragment u (f.fail .socketOptionsFailed))
      | some netaddrs =>
        let m := { f.response .startMixnetClients with
          numNeighbors := f.numNeighbors, netaddrs := netaddrs }
        some ((w.setFragment u { f with state := .resolveMixnetConnections }).respond u
          (m.arrives garbled))
  else none

def resolve (w : World) (u : ℕ) : Option World :=
  w.recvRequest u .resolveMixnetConnections .resolveMixnetConns fun w m =>
    let f := w.fragment u
    if m.numNeighbors ≠ f.numNeighbors then
      some (w.setFragment u (f.fail .fragmentBadNeighborCount))
    else
      match (List.range f.numNeighbors).mapM fun nid => f.acceptedFrom (m.netaddr nid) with
      | none => some (w.setFragment u (f.fail .fragmentException))
      | some fds =>
        let f := { f with state := .startTestcase, txSocketFds := fds }
        some ((w.setFragment u f).respond u (f.response .resolveMixnetConns))

/-- One turn of `server_accept` that gets a connection; the descriptor may turn out not to
accept `O_NONBLOCK`. -/
def accept (w : World) (u fd c : ℕ) (nonblocking : Bool) : Option World :=
  let f := w.fragment u
  if f.acceptArgs.running then
    (w.kernel.accept u fd c).map fun p =>
      let args := { f.acceptArgs with
        states := f.acceptArgs.states ++ [⟨fd, p.2⟩]
        rc := if nonblocking then 0 else -1 }
      { w with kernel := p.1 }.setFragment u { f with acceptArgs := args }
  else none

def acceptError (w : World) (u : ℕ) : Option World :=
  let f := w.fragment u
  if f.acceptArgs.running then
    some (w.setFragment u { f with acceptArgs := { f.acceptArgs with rc := -1 } })
  else none

def outsider (w : World) (v : ℕ) (address : NetAddr) : Option World :=
  if w.kernel.ports v ≠ none then
    (w.kernel.connection v address).map fun k => { w with kernel := k }
  else none

def step (w : World) : Event → Option World
  | .send result garbled => w.send g result garbled
  | .sendTimeout => w.sendTimeout g
  | .receive idx result peername => w.receive g host idx result peername
  | .receiveTimeout => w.receiveTimeout
  | .finishLoop => w.finishLoop g
  | .startServer u fd port => w.startServer g host u fd port
  | .startClient u => w.startClient u
  | .connect u fd v address => w.connect g host u fd v address
  | .finishClients u garbled => w.finishClients u garbled
  | .resolve u => w.resolve u
  | .accept u fd c nonblocking => w.accept u fd c nonblocking
  | .acceptError u => w.acceptError u
  | .failure u code => some (w.setFragment u ((w.fragment u).fail code))
  | .outsider v address => w.outsider v address

def txSocket (w : World) (u i : ℕ) : Option Socket :=
  ((w.fragment u).txSocketFds[i]?).bind (w.kernel.sockets u)

def rxSocket (w : World) (v j : ℕ) : Option Socket :=
  ((w.fragment v).rxSocketFds[j]?).bind (w.kernel.sockets v)

end World

end Mixnet.Wiring
