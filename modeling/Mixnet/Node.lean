import Mathlib.Data.List.FinRange
import Mathlib.Logic.Function.Basic
import Mathlib.Data.Prod.Lex
import Mixnet.Runs

/-! The node of mixnet/node.c: its packets, its state and its packet handlers.
A node with `n` neighbours has ports `Fin (n+1)`; the last one is the user port. -/
namespace Mixnet

structure StpPayload where
  rootAddress : UInt16
  pathLength : UInt16
  nodeAddress : UInt16
deriving DecidableEq, Repr

inductive PacketType where
  | stp | flood | lsa | data | ping
deriving DecidableEq, Repr

/- The payload bytes are read as an STP payload only; a FLOOD packet is twelve bytes on
   the wire, so what its payload holds is whatever the receiver's buffer holds. -/
structure Packet where
  totalSize : UInt16
  type : PacketType
  payload : StpPayload
deriving DecidableEq, Repr

def initializeStpPacket (rootAddress pathLength nodeAddress : UInt16) : Packet :=
  ⟨18, .stp, ⟨rootAddress, pathLength, nodeAddress⟩⟩

def initializeFloodPacket (rootAddress pathLength nodeAddress : UInt16) : Packet :=
  ⟨12, .flood, ⟨rootAddress, pathLength, nodeAddress⟩⟩

/-- `struct node`; `pathLen` is an int that only ever holds 0 or a `path_length + 1`. -/
structure Node (n : ℕ) where
  neighborsAddy : Fin n → Int16
  neighborsBlocked : Fin n → Bool
  rootAddr : UInt16
  myAddr : UInt16
  nextHop : UInt16
  pathLen : ℕ

abbrev Send (n : ℕ) := Fin (n+1) × Packet

variable {n : ℕ}

/-- The node as `run_node` sets it up before its loop. -/
def initNode (n : ℕ) (nodeAddr : UInt16) : Node n where
  neighborsAddy := fun _ => -1
  neighborsBlocked := fun _ => true
  rootAddr := nodeAddr
  myAddr := nodeAddr
  nextHop := nodeAddr
  pathLen := 0

/-- The packet `send_STP` builds; the int `path_len` is narrowed to 16 bits here. -/
def Node.advert (node : Node n) : Packet :=
  initializeStpPacket node.rootAddr (UInt16.ofNat node.pathLen) node.myAddr

def sendStp (node : Node n) : List (Send n) :=
  (List.finRange n).map fun i => (i.castSucc, node.advert)

def sendFlood (node : Node n) (senderPort : Fin (n+1)) : List (Send n) :=
  let packet := initializeFloodPacket node.rootAddr (UInt16.ofNat node.pathLen) node.myAddr
  ((List.finRange n).filter fun i => !node.neighborsBlocked i && i.castSucc ≠ senderPort).map
      (fun i => (i.castSucc, packet)) ++
    if senderPort ≠ Fin.last n then [(Fin.last n, packet)] else []

/-- The three-way comparison of `receive_STP`, with its `state_changed` flag. -/
def improve (node : Node n) (update : StpPayload) : Node n × Bool :=
  if update.rootAddress < node.rootAddr then
    ({ node with
        rootAddr := update.rootAddress
        pathLen := update.pathLength.toNat + 1
        nextHop := update.nodeAddress }, true)
  else if update.rootAddress = node.rootAddr ∧ update.pathLength.toNat + 1 < node.pathLen then
    ({ node with
        pathLen := update.pathLength.toNat + 1
        nextHop := update.nodeAddress }, true)
  else if update.rootAddress = node.rootAddr ∧ update.pathLength.toNat + 1 = node.pathLen ∧
      update.nodeAddress < node.nextHop then
    ({ node with nextHop := update.nodeAddress }, true)
  else (node, false)

def Node.setBlocked (node : Node n) (port : Fin n) (b : Bool) : Node n :=
  { node with neighborsBlocked := Function.update node.neighborsBlocked port b }

def Node.blockAll (node : Node n) : Node n :=
  { node with neighborsBlocked := fun _ => true }

/-- The block logic at the end of `receive_STP`. -/
def blockLogic (node : Node n) (port : Fin n) (update : StpPayload) : Node n :=
  if update.nodeAddress = node.nextHop then node.setBlocked port false
  else if update.rootAddress = node.rootAddr ∧ update.pathLength.toNat = node.pathLen + 1 then
    node.setBlocked port false
  else node.setBlocked port true

/-- The first branch of `receive_STP`: the sender is recorded and its offer dropped. -/
def Node.record (node : Node n) (port : Fin n) (address : UInt16) : Node n :=
  { node with
    neighborsAddy := Function.update node.neighborsAddy port address.toInt16
    neighborsBlocked := Function.update node.neighborsBlocked port false }

def receiveStp (node : Node n) (port : Fin n) (update : StpPayload) :
    Node n × List (Send n) :=
  if node.neighborsAddy port = -1 then
    (node.record port update.nodeAddress, [])
  else
    let (node, stateChanged) := improve node update
    if stateChanged then
      (blockLogic node.blockAll port update, sendStp node)
    else
      (blockLogic node port update, [])

/-- What one activity of the loop body leaves behind: the node, the packets sent in order,
and whether `re_election_time` was set to the current time. -/
structure Outcome (n : ℕ) where
  node : Node n
  sends : List (Send n)
  refreshed : Bool

/-- The matching-parent test at the head of the STP branch of `run_node`. -/
def Node.matchesParent (node : Node n) (update : StpPayload) : Prop :=
  update.rootAddress = node.rootAddr ∧ update.pathLength.toNat + 1 = node.pathLen ∧
    update.nodeAddress = node.nextHop

instance (node : Node n) (update : StpPayload) : Decidable (node.matchesParent update) :=
  inferInstanceAs (Decidable (_ ∧ _ ∧ _))

/-- The `if (recv)` part of the loop body. An STP packet that reaches `receive_STP` on the
user port indexes the arrays out of bounds: no outcome. -/
def processPacket (node : Node n) (port : Fin (n+1)) (packet : Packet) : Option (Outcome n) :=
  match packet.type with
  | .stp =>
    if node.matchesParent packet.payload then some ⟨node, sendStp node, true⟩
    else if h : port.val < n then
      let (node, sends) := receiveStp node ⟨port, h⟩ packet.payload
      some ⟨node, sends, false⟩
    else none
  | .flood =>
    if port = Fin.last n then some ⟨node, sendFlood node port, false⟩
    else if h : port.val < n then
      if !node.neighborsBlocked ⟨port, h⟩ then some ⟨node, sendFlood node port, false⟩
      else some ⟨node, [], false⟩
    else none
  | _ => some ⟨node, [], false⟩

def rootHello (node : Node n) : Outcome n := ⟨node, sendStp node, true⟩

def reelect (node : Node n) : Outcome n :=
  let node := { node with rootAddr := node.myAddr, pathLen := 0, nextHop := node.myAddr }
  ⟨node, sendStp node, true⟩

/-- The activities of the loop body, the two timers abstracted to whether they fire. -/
inductive NodeEvent (n : ℕ) where
  | packet (port : Fin (n+1)) (packet : Packet)
  | hello
  | reelection
deriving DecidableEq

def Node.step (node : Node n) : NodeEvent n → Option (Outcome n)
  | .packet port packet => processPacket node port packet
  | .hello => if node.rootAddr = node.myAddr then some (rootHello node) else none
  | .reelection => if node.rootAddr ≠ node.myAddr then some (reelect node) else none

end Mixnet
