import Mixnet.PacketBytes
import Mixnet.Traces

/-! The network with its byte streams. An activity leaves a node with calls of `node_send` to make;
it writes their packets one after the other, each in pieces, and does nothing else before the last
one is written. The pieces arrive in pieces, and `node_recv` takes a packet once all of it is
there. -/
namespace Mixnet
variable {V : Type*}

/-- `sends v` are the calls of `node_send` that `v` has still to make, `writing v` is what it has
still to write of the packet in hand, and to whom. Bytes from `u` to `v` are `inFlight` and then
`unread`. The last two fields are history: what `node_recv` has returned on a port, and what
`node_send` has taken on the user port. -/
structure ByteNet (T : Topology V) where
  node : (v : V) → Node (T.deg v)
  sends : (v : V) → List (Send (T.deg v))
  writing : V → Option (V × List UInt8)
  inFlight : V → V → List UInt8
  unread : V → V → List UInt8
  returned : (v : V) → Fin (T.deg v) → List Packet
  taken : V → List Packet

/-- `recvBuffer` and `heap` are what the receive buffer and the block from `malloc` held before. -/
inductive ByteEvent (T : Topology V) where
  | nodeRecv (v : V) (i : Fin (T.deg v)) (recvBuffer heap : Buffer)
  | inject (v : V) (payload : StpPayload)
  | hello (v : V)
  | reelect (v : V)
  | nodeSend (v : V) (subscribed : Bool) (heap : Buffer)
  | write (v : V) (n : ℕ)
  | arrive (u v : V) (n : ℕ)

variable [DecidableEq V] {T : Topology V}

def ByteNet.Idle (b : ByteNet T) (v : V) : Prop := b.sends v = [] ∧ b.writing v = none

instance (b : ByteNet T) (v : V) : Decidable (b.Idle v) := inferInstanceAs (Decidable (_ ∧ _))

def onLink (f : V → V → List UInt8) (u v : V) (bytes : List UInt8) : V → V → List UInt8 :=
  fun x y => if x = u ∧ y = v then bytes else f x y

@[simp] theorem onLink_self (f : V → V → List UInt8) (u v : V) (bytes : List UInt8) :
    onLink f u v bytes u v = bytes := if_pos ⟨rfl, rfl⟩

theorem onLink_ne {f : V → V → List UInt8} {u v x y : V} {bytes : List UInt8}
    (h : ¬ (x = u ∧ y = v)) : onLink f u v bytes x y = f x y := if_neg h

def ByteNet.act (b : ByteNet T) (v : V) (e : NodeEvent (T.deg v)) : Option (ByteNet T) :=
  if b.Idle v then
    ((b.node v).step e).map fun o =>
      { b with
        node := Function.update b.node v o.node
        sends := Function.update b.sends v o.sends }
  else none

def ByteNet.read (b : ByteNet T) (v : V) (i : Fin (T.deg v)) (unread : List UInt8)
    (packet : Packet) : ByteNet T :=
  { b with
    unread := onLink b.unread (T.peer v i) v unread
    returned := Function.update b.returned v
      (Function.update (b.returned v) i (b.returned v i ++ [packet])) }

def ByteNet.nodeSend (b : ByteNet T) (v : V) (subscribed : Bool) (heap : Buffer)
    (port : Fin (T.deg v + 1)) (packet : Packet) : Option (ByteNet T) :=
  let memory := packet.memory heap
  match Capture.nodeSend (UInt16.ofNat (T.deg v)) subscribed (UInt8.ofNat port) memory with
  | .rejected => some b
  | .mirrored | .freed =>
    some { b with taken := Function.update b.taken v (b.taken v ++ [packet]) }
  | .transmitted =>
    if h : port.val < T.deg v then
      some { b with
        writing := Function.update b.writing v
          (some (T.peer v ⟨port, h⟩, messageAt (Capture.bleach memory))) }
    else none

/-- One event of the network; `none` when it is not enabled, or when `node_recv` fails. -/
def ByteNet.step (b : ByteNet T) : ByteEvent T → Option (ByteNet T)
  | .nodeRecv v i recvBuffer heap =>
    if b.Idle v then
      (LinkState.recvOnce recvBuffer (b.unread (T.peer v i) v)).bind fun r =>
        if r.code = .none then
          (packetAt (store heap 0 (messageAt r.buffer))).bind fun packet =>
            (b.read v i r.unread packet).act v (.packet i.castSucc packet)
        else if r.code = .recvZeroPending then some b
        else none
    else none
  | .inject v payload => b.act v (.packet (Fin.last _) ⟨12, .flood, payload⟩)
  | .hello v => b.act v .hello
  | .reelect v => b.act v .reelection
  | .nodeSend v subscribed heap =>
    if b.writing v = none then
      match b.sends v with
      | [] => none
      | (port, packet) :: rest =>
        ByteNet.nodeSend { b with sends := Function.update b.sends v rest } v subscribed heap port
          packet
    else none
  | .write v n =>
    match b.writing v with
    | none => none
    | some (u, bytes) =>
      if 0 < n ∧ n ≤ bytes.length then
        some { b with
          inFlight := onLink b.inFlight v u (b.inFlight v u ++ bytes.take n)
          writing := Function.update b.writing v
            (if n = bytes.length then none else some (u, bytes.drop n)) }
      else none
  | .arrive u v n =>
    if 0 < n ∧ n ≤ (b.inFlight u v).length then
      some { b with
        unread := onLink b.unread u v (b.unread u v ++ (b.inFlight u v).take n)
        inFlight := onLink b.inFlight u v ((b.inFlight u v).drop n) }
    else none

omit [DecidableEq V] in
def ByteNet.init (T : Topology V) : ByteNet T where
  node := fun v => initNode (T.deg v) (T.addr v)
  sends := fun v => sendStp (initNode (T.deg v) (T.addr v))
  writing := fun _ => none
  inFlight := fun _ _ => []
  unread := fun _ _ => []
  returned := fun _ _ => []
  taken := fun _ => []

def ByteEvent.net : ByteEvent T → Option (Event T)
  | .nodeRecv v i _ _ => some (.deliver v i)
  | .inject v payload => some (.inject v payload)
  | .hello v => some (.hello v)
  | .reelect v => some (.reelect v)
  | .nodeSend _ _ _ | .write _ _ | .arrive _ _ _ => none

/-- The activity that the event is in state `b`; a call of `node_recv` that finds no whole packet is
none. -/
def ByteNet.label (b : ByteNet T) (e : ByteEvent T) : Option (Event T) :=
  match e with
  | .nodeRecv v i recvBuffer _ =>
    if (LinkState.recvOnce recvBuffer (b.unread (T.peer v i) v)).any fun r => r.code = .none then
      some (.deliver v i)
    else none
  | e => e.net

/-- What the nodes do in a run of the byte network, in its order. -/
def ByteNet.activities : List (ByteEvent T) → ByteNet T → List (Event T) :=
  Runs.trace ByteNet.step ByteNet.label

/-- States reached from `b` by events that are, for the nodes, events in `A`. -/
abbrev ByteNet.Reach (A : Event T → Prop) (b c : ByteNet T) : Prop :=
  Runs.Reach ByteNet.step (fun _ e => ∀ e' ∈ e.net, A e') b c

end Mixnet
