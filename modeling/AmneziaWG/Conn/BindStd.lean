import AmneziaWG.Lib.Bytes
import AmneziaWG.Lib.Memory

/-!
# Offloading in the Bind

Embedding of the message handling of `conn/bind_std.go` with UDP offload on Linux:
`coalesceMessages` joins buffers into messages that the kernel cuts again, and
`splitCoalescedMessages` cuts the messages that the kernel has joined.  Buffers are slices of one
memory, because both functions work in the memory of their caller.

Control data is a list of control messages with the space that each takes; `setSrcControl` is that
of `conn/sticky_linux.go`, `setGSOSize` and `getGSOSize` are those of `conn/gso_linux.go`.
-/

namespace AmneziaWG.Conn

open AmneziaWG.Lib

/-! ## §1 Control data -/

/-- A source address and interface, as `unix.Inet4Pktinfo` or `unix.Inet6Pktinfo`. -/
inductive Pktinfo where
  | inet4 (info : BitVec 96)
  | inet6 (info : BitVec 160)
  deriving DecidableEq

/-- The socket control messages that the bind reads or writes. -/
inductive ControlMessage where
  | pktinfo (info : Pktinfo)
  | udpSegment (gsoSize : BitVec 16)
  | udpGro (gsoSize : BitVec 16)
  deriving DecidableEq

/-- `unix.CmsgSpace` of the data: a header of 16 bytes, and everything is aligned to 8. -/
def ControlMessage.space : ControlMessage → ℕ
  | .pktinfo (.inet4 _) => 32
  | .pktinfo (.inet6 _) => 40
  | .udpSegment _ => 24
  | .udpGro _ => 24

def controlLen (messages : List ControlMessage) : ℕ := (messages.map ControlMessage.space).sum

/-- Control data in an array of `cap` bytes. -/
structure Control where
  cap : ℕ
  messages : List ControlMessage
  fits : controlLen messages ≤ cap

def stickyControlSize : ℕ := 40

def gsoControlSize : ℕ := 24

/-- `StdNetEndpoint`: whether `DstIP` is an IPv6 address, and the sticky source. -/
structure StdNetEndpoint where
  is6 : Bool
  src : Option Pktinfo
  deriving DecidableEq

def StdNetEndpoint.control (ep : StdNetEndpoint) : List ControlMessage :=
  (ep.src.map ControlMessage.pktinfo).toList

def setSrcControl (control : Control) (ep : StdNetEndpoint) : Control :=
  if h : controlLen ep.control ≤ control.cap then
    { cap := control.cap, messages := ep.control, fits := h }
  else control

def setGSOSize (control : Control) (gsoSize : BitVec 16) : Control :=
  if h : controlLen control.messages + gsoControlSize ≤ control.cap then
    { cap := control.cap
      messages := control.messages ++ [.udpSegment gsoSize]
      fits := by simpa [controlLen, ControlMessage.space, gsoControlSize] using h }
  else control

/-- `getGSOSize`; parsing does not fail on what the kernel gives. -/
def getGSOSize (control : Control) : Except Unit ℕ :=
  .ok ((control.messages.findSome? fun
    | .udpGro gsoSize => some gsoSize.toNat
    | _ => none).getD 0)

/-! ## §2 Messages -/

/-- `ipv6.Message`, with the one buffer that it has here and with `OOB[:NN]`. -/
structure Message (A : Type) where
  buffer : Slice
  n : ℕ
  oob : Control
  addr : Option A

variable {A : Type}

def maxIPv4PayloadLen : ℕ := 2 ^ 16 - 1 - 20 - 8

def maxIPv6PayloadLen : ℕ := 2 ^ 16 - 1 - 8

def udpSegmentMaxDatagrams : ℕ := 64

def maxPayloadLen (ep : StdNetEndpoint) : ℕ :=
  if ep.is6 then maxIPv6PayloadLen else maxIPv4PayloadLen

/-! ## §3 `coalesceMessages` -/

/-- The variables of `coalesceMessages`.  `count` is `base + 1`. -/
structure Coalescing (A : Type) where
  mem : ℕ → Byte
  msgs : List (Message A)
  count : ℕ
  gsoSize : ℕ
  dgramCnt : ℕ
  endBatch : Bool

section Coalesce

variable (addr : A) (ep : StdNetEndpoint) (setGSO : Control → BitVec 16 → Control)

/-- `setGSO(&msgs[base].OOB, uint16(gsoSize))`. -/
def Message.withGSO (msg : Message A) (gsoSize : ℕ) : Message A :=
  { msg with oob := setGSO msg.oob (BitVec.ofNat 16 gsoSize) }

/-- A buffer can be appended to the message. -/
def Coalescing.Joins (s : Coalescing A) (base : Message A) (buf : Slice) : Prop :=
  buf.len + base.buffer.len ≤ maxPayloadLen ep ∧
    buf.len ≤ s.gsoSize ∧
    buf.len ≤ base.buffer.cap - base.buffer.len ∧
    s.dgramCnt < udpSegmentMaxDatagrams ∧
    s.endBatch = false

instance (s : Coalescing A) (base : Message A) (buf : Slice) : Decidable (s.Joins ep base buf) :=
  inferInstanceAs (Decidable (_ ∧ _))

/-- `append(msgs[base].Buffers[0], buf...)` within the capacity, and what follows it. -/
def Coalescing.join (s : Coalescing A) (base : Message A) (buf : Slice) (isLast : Bool)
    (h : buf.len ≤ base.buffer.cap - base.buffer.len) : Coalescing A :=
  let joined := { base with buffer := base.buffer.extend buf.len h }
  let joined := if isLast then joined.withGSO setGSO s.gsoSize else joined
  { s with
    mem := store s.mem (base.buffer.ptr + base.buffer.len) (buf.read s.mem)
    msgs := s.msgs.set (s.count - 1) joined
    dgramCnt := s.dgramCnt + 1
    -- a smaller packet on the tail is legal, but it must end the batch
    endBatch := s.endBatch || decide (buf.len < s.gsoSize) }

/-- Start the next message with a buffer. -/
def Coalescing.start (s : Coalescing A) (buf : Slice) : Option (Coalescing A) := do
  let msgs := if s.dgramCnt > 1 then s.msgs.modify (s.count - 1) (·.withGSO setGSO s.gsoSize)
    else s.msgs
  let msg ← msgs[s.count]?
  return { s with
    msgs := msgs.set s.count
      { msg with buffer := buf, oob := setSrcControl msg.oob ep, addr := some addr }
    count := s.count + 1
    gsoSize := buf.len
    dgramCnt := 1
    endBatch := false }

/-- The body of the loop; `none` is a panic. -/
def Coalescing.step (s : Coalescing A) (i : ℕ) (buf : Slice) (isLast : Bool) :
    Option (Coalescing A) :=
  if i > 0 then
    match s.msgs[s.count - 1]? with
    | none => none
    | some base =>
      if h : s.Joins ep base buf then some (s.join setGSO base buf isLast h.2.2.1)
      else s.start addr ep setGSO buf
  else s.start addr ep setGSO buf

def coalesceFrom : ℕ → List Slice → Coalescing A → Option (Coalescing A)
  | _, [], s => some s
  | i, buf :: bufs, s => do
    let s ← s.step addr ep setGSO i buf bufs.isEmpty
    coalesceFrom (i + 1) bufs s

/-- The count, with the messages and the memory afterwards. -/
def coalesceMessages (bufs : List Slice) (msgs : List (Message A)) (mem : ℕ → Byte) :
    Option (ℕ × List (Message A) × (ℕ → Byte)) := do
  let s ← coalesceFrom addr ep setGSO 0 bufs
    { mem, msgs, count := 0, gsoSize := 0, dgramCnt := 0, endBatch := false }
  return (s.count, s.msgs, s.mem)

end Coalesce

/-! ## §4 `splitCoalescedMessages` -/

/-- The errors of `splitCoalescedMessages`. -/
inductive SplitError (E : Type) where
  | getGSO (err : E)
  | overflow
  deriving DecidableEq

/-- The memory and the messages while they are split, and the number of messages so far. -/
structure Splitting (A : Type) where
  mem : ℕ → Byte
  msgs : List (Message A)
  n : ℕ

/-- `msg.Buffers[0][start:stop]`; `none` is a panic. -/
def Message.segment (mem : ℕ → Byte) (msg : Message A) (start stop : ℕ) : Option Bytes :=
  if start ≤ stop ∧ stop ≤ msg.buffer.cap then
    some ((List.range (stop - start)).map fun j => mem (msg.buffer.ptr + start + j))
  else none

/-- `copy(msgs[n].Buffers[0], msg.Buffers[0][start:stop])` for `msgs[i]`, and the fields of the
target. -/
def Splitting.copy (s : Splitting A) (i start stop : ℕ) : Option (Splitting A) := do
  let msg ← s.msgs[i]?
  let target ← s.msgs[s.n]?
  let segment ← msg.segment s.mem start stop
  let copied := min target.buffer.len segment.length
  return { mem := store s.mem target.buffer.ptr (segment.take copied)
           msgs := s.msgs.set s.n { target with n := copied, addr := msg.addr }
           n := s.n + 1 }

variable {E : Type}

/-- The inner loop, for `numToSplit` more segments of `msgs[i]`. -/
def splitMessage (i gsoSize : ℕ) :
    ℕ → ℕ → ℕ → Splitting A → Option (Splitting A × Option (SplitError E))
  | 0, _, _, s => some (s, none)
  | numToSplit + 1, start, stop, s =>
    if s.n > i then some (s, some .overflow)
    else do
      let s ← s.copy i start stop
      -- the message may have been its own target
      let msg ← s.msgs[i]?
      splitMessage i gsoSize numToSplit stop (min (stop + gsoSize) msg.n) s

variable (getGSO : Control → Except E ℕ)

/-- The outer loop, from message `i` on. -/
def splitFrom : ℕ → ℕ → Splitting A → Option (Splitting A × Option (SplitError E))
  | 0, _, s => some (s, none)
  | fuel + 1, i, s => do
    let msg ← s.msgs[i]?
    if msg.n = 0 then return (s, none)
    else
      match getGSO msg.oob with
      | .error err => return (s, some (.getGSO err))
      | .ok gsoSize =>
        let numToSplit := if gsoSize > 0 then (msg.n + gsoSize - 1) / gsoSize else 1
        let stop := if gsoSize > 0 then gsoSize else msg.n
        match ← splitMessage i gsoSize numToSplit 0 stop s with
        | (s, some err) => return (s, some err)
        | (s, none) =>
          let msgs := if i + 1 ≠ s.n then s.msgs.modify i ({ · with n := 0 }) else s.msgs
          splitFrom fuel (i + 1) { s with msgs }

def splitCoalescedMessages (msgs : List (Message A)) (firstMsgAt : ℕ) (mem : ℕ → Byte) :
    Option (Splitting A × Option (SplitError E)) :=
  splitFrom getGSO (msgs.length - firstMsgAt) firstMsgAt { mem, msgs, n := 0 }

end AmneziaWG.Conn
