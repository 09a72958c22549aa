import Mathlib.Data.List.Basic

/-! Message I/O of framework/networking.cpp: `send_generic` and `recv_generic` for 16-bit
length fields, over a socket whose system calls answer as an environment says. -/
namespace Mixnet

inductive ErrorCode where
  | none
  | pollError
  | forkFailed
  | execFailed
  | badTestcase
  | badFragmentId
  | badMessageCode
  | malformedMessage
  | recvZeroPending
  | recvWaitTimeout
  | sendReqsTimeout
  | fragmentException
  | socketBindFailed
  | socketAcceptFailed
  | socketCreateFailed
  | socketListenFailed
  | socketBadOperation
  | socketConnectFailed
  | socketOptionsFailed
  | socketAcceptTimeout
  | fragmentPcapMqFull
  | ctrlConnectionBroken
  | pcapConnectionBroken
  | fragmentInvalidSaddr
  | fragmentInvalidCaddr
  | mixnetBadPacketSize
  | mixnetConnectionBroken
  | fragmentBadNeighborCount
  | fragmentThreadsNonresponsive
  | fragmentDuplicateLocalAddrs
  | enumerationLimit
deriving DecidableEq, Repr

inductive Mode where
  | rxTxBlocking | rxTxTimeout | rxTryOnce
deriving DecidableEq, Repr

structure Config where
  mode : Mode := .rxTxBlocking
  timeoutMs : UInt64 := 0xFFFFFFFFFFFFFFFF

def Config.timeout (c : Config) : ℕ := c.timeoutMs.toNat
def Config.block (c : Config) : Bool := c.mode = .rxTxBlocking
def Config.tryOnce (c : Config) : Bool := c.mode = .rxTryOnce
def Config.useTimeout (c : Config) : Bool := c.mode = .rxTxTimeout

/-- `flags` is what `fcntl` says about the socket: `none` when it fails, else whether the
socket is non-blocking. -/
def validate (flags : Option Bool) (c : Config) (isTx : Bool) : ErrorCode :=
  match flags with
  | none => .socketOptionsFailed
  | some nonblock =>
    if !nonblock && !c.block then .socketBadOperation
    else if isTx && c.tryOnce then .socketBadOperation
    else .none

abbrev Buffer := ℕ → UInt8

/-- The leading `uint16_t` of a message, in the byte order of the host. -/
def lengthField (buffer : Buffer) : ℕ := (buffer 0).toNat + 256 * (buffer 1).toNat

def bytesAt (buffer : Buffer) (offset n : ℕ) : List UInt8 :=
  (List.range n).map fun i => buffer (offset + i)

def messageAt (buffer : Buffer) : List UInt8 := bytesAt buffer 0 (lengthField buffer)

/-- `stalled` stands for EAGAIN, EWOULDBLOCK and ENOBUFS, `failed` for any other error. -/
inductive SendResult where
  | accepted (n : ℕ) | stalled | failed
deriving DecidableEq

structure SendCall where
  config : Config
  flags : Option Bool
  buffer : Buffer
  env : List (SendResult × ℕ)

/-- The loop of `send_generic`. Each turn has the answer of `send` and the time read after it;
no result when the turns are used up or `send` takes nothing or too much. -/
def sendLoop (c : Config) (connectionError : ErrorCode) (buffer : Buffer) :
    List (SendResult × ℕ) → ℕ → ℕ → ℕ → List UInt8 → Option (ErrorCode × List UInt8)
  | env, delta, offset, bufferLen, written =>
    if bufferLen ≠ 0 ∧ (!c.useTimeout || delta < c.timeout) then
      match env with
      | [] => none
      | (.failed, _) :: _ => some (connectionError, written)
      | (.stalled, elapsed) :: env =>
        sendLoop c connectionError buffer env (if c.useTimeout then elapsed else delta) offset
          bufferLen written
      | (.accepted n, elapsed) :: env =>
        if 0 < n ∧ n ≤ bufferLen then
          sendLoop c connectionError buffer env (if c.useTimeout then elapsed else delta)
            (offset + n) (bufferLen - n) (written ++ bytesAt buffer offset n)
        else none
    else some (if bufferLen = 0 then .none else .sendReqsTimeout, written)

def sendGeneric (connectionError : ErrorCode) (minLen maxLen : UInt16) (call : SendCall) :
    Option (ErrorCode × List UInt8) :=
  let errorCode := validate call.flags call.config true
  if errorCode ≠ .none then some (errorCode, [])
  else
    let bufferLen := lengthField call.buffer
    if bufferLen < minLen.toNat ∨ maxLen.toNat < bufferLen then some (.malformedMessage, [])
    else sendLoop call.config connectionError call.buffer call.env 0 0 bufferLen []

def sendCalls (connectionError : ErrorCode) (minLen maxLen : UInt16) :
    List SendCall → Option (List (ErrorCode × List UInt8))
  | [] => some []
  | call :: calls =>
    (sendGeneric connectionError minLen maxLen call).bind fun p =>
      (sendCalls connectionError minLen maxLen calls).map (p :: ·)

inductive RecvResult where
  | bytes (n : ℕ) | stalled | closed | failed
deriving DecidableEq

/-- The variables of `recv_generic`; `offset` is how far `buffer` has been advanced, `unread`
what is left of the stream. -/
structure RecvState where
  unread : List UInt8
  buffer : Buffer
  offset : ℕ
  peek : Bool
  recvStarted : Bool
  expectedSize : ℕ
  msgLength : ℕ

def store (buffer : Buffer) (offset : ℕ) (bytes : List UInt8) : Buffer := fun i =>
  if offset ≤ i then bytes.getD (i - offset) (buffer i) else buffer i

/-- The `recv` call of one turn: any non-empty prefix of what is left, no more than asked. -/
def RecvState.recv (s : RecvState) : RecvResult → Option RecvState
  | .bytes n =>
    if 0 < n ∧ n ≤ s.expectedSize ∧ n ≤ s.unread.length then
      some { s with
        buffer := store s.buffer s.offset (s.unread.take n)
        unread := if s.peek then s.unread else s.unread.drop n }
    else none
  | _ => some s

/-- What a turn does with the answer of `recv`: return a code, or go on. -/
def RecvState.handle (s : RecvState) (c : Config) (connectionError : ErrorCode)
    (minLen maxLen : UInt16) : RecvResult → Except ErrorCode RecvState
  | .failed => .error connectionError
  | .stalled => if c.tryOnce then .error .recvZeroPending else .ok s
  | .closed => .error connectionError
  | .bytes recvBytes =>
    if s.msgLength = 0 then
      if recvBytes = s.expectedSize then
        let msgLength := lengthField fun i => s.buffer (s.offset + i)
        if msgLength < minLen.toNat ∨ maxLen.toNat < msgLength then .error .malformedMessage
        else .ok { s with
          msgLength := msgLength
          expectedSize := msgLength
          peek := if c.block then false else s.peek }
      else if c.tryOnce then .error .recvZeroPending
      else .ok s
    else if c.tryOnce || (c.useTimeout && !s.recvStarted) then
      if recvBytes = s.expectedSize then
        if !s.recvStarted then .ok { s with peek := false, recvStarted := true }
        else .error .none
      else if c.tryOnce then
        .error (if s.recvStarted then connectionError else .recvZeroPending)
      else .ok s
    else
      let s := { s with
        recvStarted := true
        expectedSize := s.expectedSize - recvBytes
        offset := s.offset + recvBytes }
      if s.expectedSize = 0 then .error .none else .ok s

/-- The loop of `recv_generic`, with the answer of `recv` and the time read after each turn. -/
def recvLoop (c : Config) (connectionError : ErrorCode) (minLen maxLen : UInt16) :
    List (RecvResult × ℕ) → ℕ → RecvState → Option (ErrorCode × RecvState)
  | env, delta, s =>
    if !c.useTimeout || delta < c.timeout then
      match env with
      | [] => none
      | (r, elapsed) :: env =>
        match s.recv r with
        | none => none
        | some s =>
          match s.handle c connectionError minLen maxLen r with
          | .error code => some (code, s)
          | .ok s =>
            recvLoop c connectionError minLen maxLen env
              (if c.useTimeout then elapsed else delta) s
    else some (if s.recvStarted then .recvWaitTimeout else .recvZeroPending, s)

structure RecvCall where
  config : Config
  flags : Option Bool
  buffer : Buffer
  env : List (RecvResult × ℕ)

structure RecvReturn where
  code : ErrorCode
  buffer : Buffer
  unread : List UInt8

def recvStart (call : RecvCall) (unread : List UInt8) : RecvState where
  unread := unread
  buffer := call.buffer
  offset := 0
  peek := true
  recvStarted := false
  expectedSize := 2
  msgLength := 0

def recvGeneric (connectionError : ErrorCode) (minLen maxLen : UInt16) (call : RecvCall)
    (unread : List UInt8) : Option RecvReturn :=
  let errorCode := validate call.flags call.config false
  if errorCode ≠ .none then some ⟨errorCode, call.buffer, unread⟩
  else (recvLoop call.config connectionError minLen maxLen call.env 0
    (recvStart call unread)).map fun p => ⟨p.1, p.2.buffer, p.2.unread⟩

def recvCalls (connectionError : ErrorCode) (minLen maxLen : UInt16) :
    List RecvCall → List UInt8 → Option (List RecvReturn)
  | [], _ => some []
  | call :: calls, unread =>
    (recvGeneric connectionError minLen maxLen call unread).bind fun r =>
      (recvCalls connectionError minLen maxLen calls r.unread).map (r :: ·)

def ErrorCode.Broken (e : ErrorCode) : Prop :=
  e = .ctrlConnectionBroken ∨ e = .pcapConnectionBroken ∨ e = .mixnetConnectionBroken

end Mixnet
