import AmneziaWG.Tun.Gso
import Mathlib.Data.List.AList

/-!
# Generic Receive Offload

Embedding of `handleGRO` and what it calls (`tun/offload_linux.go`): packets of one flow that
follow each other are merged into one buffer, with a virtio header from which the kernel can
tell them apart again.

The buffers of a batch are kept under their indices; no two of them share memory.  Offsets
into headers are in range on packets that passed the checks before them.
-/

namespace AmneziaWG.Tun

open AmneziaWG.Lib

/-! ## §1 Buffers -/

/-- A slice of bytes with the capacity of its array. -/
structure Buffer where
  bytes : Bytes
  cap : ℕ
  len_le : bytes.length ≤ cap

namespace Buffer

/-- `buf[offset:]`. -/
def pkt (b : Buffer) (offset : ℕ) : Bytes := b.bytes.drop offset

def patch (b : Buffer) (off : ℕ) (src : Bytes) : Buffer :=
  { bytes := Lib.patch b.bytes off src, cap := b.cap,
    len_le := by rw [patch_length]; exact b.len_le }

/-- `append(buf, data...)`; a new array is as large as it has to be. -/
def append (b : Buffer) (data : Bytes) : Buffer :=
  { bytes := b.bytes ++ data, cap := max b.cap (b.bytes ++ data).length,
    len_le := le_max_right _ _ }

def hdrBytes (b : Buffer) (offset : ℕ) : Bytes :=
  field b.bytes (offset - virtioNetHdrLen) virtioNetHdrLen

/-- `hdr.encode(buf[offset-virtioNetHdrLen:])`. -/
def encodeHdr (e : Endian) (b : Buffer) (offset : ℕ) (hdr : VirtioNetHdr) : Buffer :=
  b.patch (offset - virtioNetHdrLen) (hdr.encode e)

def gsoType (b : Buffer) (offset : ℕ) : Byte := byteAt (b.hdrBytes offset) 1

end Buffer

/-! ## §2 Tables -/

/-- `tcpGROTable` and `udpGROTable`: the items of each flow, and how many item slices are left
in the pool. -/
structure GROTable (K I : Type) where
  itemsByFlow : AList fun _ : K => List I
  itemsPool : ℕ

namespace GROTable

variable {K I : Type}

/-- `conn.IdealBatchSize`. -/
def idealBatchSize : ℕ := 128

/-- `newTCPGROTable` and `newUDPGROTable`. -/
def new : GROTable K I := { itemsByFlow := ∅, itemsPool := idealBatchSize }

def items (t : GROTable K I) : List I := t.itemsByFlow.entries.flatMap Sigma.snd

variable [DecidableEq K]

/-- `append(items, item)`, with `newItems` for a flow that is new; `none` is the panic when the
pool is empty. -/
def push (t : GROTable K I) (key : K) (item : I) : Option (GROTable K I) :=
  match t.itemsByFlow.lookup key with
  | some items => some { t with itemsByFlow := t.itemsByFlow.insert key (items ++ [item]) }
  | none =>
    match t.itemsPool with
    | 0 => none
    | n + 1 => some { itemsByFlow := t.itemsByFlow.insert key [item], itemsPool := n }

def updateAt (t : GROTable K I) (key : K) (i : ℕ) (item : I) : GROTable K I :=
  { t with
    itemsByFlow := t.itemsByFlow.insert key (((t.itemsByFlow.lookup key).getD []).set i item) }

def deleteAt (t : GROTable K I) (key : K) (i : ℕ) : GROTable K I :=
  { t with
    itemsByFlow := t.itemsByFlow.insert key (((t.itemsByFlow.lookup key).getD []).eraseIdx i) }

end GROTable

/-- An address in a flow key, an array of 16 bytes. -/
def keyAddr (addr : Bytes) : Bytes := addr ++ List.replicate (16 - addr.length) 0

structure TcpFlowKey where
  srcAddr : Bytes
  dstAddr : Bytes
  srcPort : BitVec 16
  dstPort : BitVec 16
  rxAck : BitVec 32
  isV6 : Bool
  deriving DecidableEq, Repr

def newTCPFlowKey (pkt : Bytes) (isV6 : Bool) (tcphOffset : ℕ) : TcpFlowKey :=
  let (srcAddrOffset, addrLen) := addrLayout isV6
  { srcAddr := keyAddr (field pkt srcAddrOffset addrLen)
    dstAddr := keyAddr (field pkt (srcAddrOffset + addrLen) addrLen)
    srcPort := be16At pkt tcphOffset
    dstPort := be16At pkt (tcphOffset + 2)
    rxAck := be32At pkt (tcphOffset + 8)
    isV6 }

structure TcpGROItem where
  key : TcpFlowKey
  sentSeq : BitVec 32
  bufsIndex : BitVec 16
  numMerged : BitVec 16
  gsoSize : BitVec 16
  iphLen : ℕ
  tcphLen : ℕ
  pshSet : Bool
  deriving DecidableEq, Repr

structure UdpFlowKey where
  srcAddr : Bytes
  dstAddr : Bytes
  srcPort : BitVec 16
  dstPort : BitVec 16
  isV6 : Bool
  deriving DecidableEq, Repr

def newUDPFlowKey (pkt : Bytes) (isV6 : Bool) (udphOffset : ℕ) : UdpFlowKey :=
  let (srcAddrOffset, addrLen) := addrLayout isV6
  { srcAddr := keyAddr (field pkt srcAddrOffset addrLen)
    dstAddr := keyAddr (field pkt (srcAddrOffset + addrLen) addrLen)
    srcPort := be16At pkt udphOffset
    dstPort := be16At pkt (udphOffset + 2)
    isV6 }

structure UdpGROItem where
  key : UdpFlowKey
  bufsIndex : BitVec 16
  numMerged : BitVec 16
  gsoSize : BitVec 16
  iphLen : ℕ
  cSumKnownInvalid : Bool
  deriving DecidableEq, Repr

def udphLen : ℕ := 8

/-- The buffers, the tables and the indices to write. -/
structure GroState where
  bufs : ℕ → Buffer
  tcpTable : GROTable TcpFlowKey TcpGROItem
  udpTable : GROTable UdpFlowKey UdpGROItem
  toWrite : List ℕ

/-! ## §3 Candidates -/

inductive CanCoalesce where
  | prepend
  | unavailable
  | append
  deriving DecidableEq, Repr

inductive CoalesceResult where
  | insufficientCap
  | pshEnding
  | itemInvalidCSum
  | pktInvalidCSum
  | success
  deriving DecidableEq, Repr

inductive GroResult where
  | noop
  | tableInsert
  | coalesced
  deriving DecidableEq, Repr

def ipHeadersCanCoalesce (pktA pktB : Bytes) : Bool :=
  if pktA.length < 9 ∨ pktB.length < 9 then false
  else if byteAt pktA 0 >>> 4 = 6 then
    -- equal traffic class and hop limit
    byteAt pktA 0 = byteAt pktB 0 ∧ byteAt pktA 1 >>> 4 = byteAt pktB 1 >>> 4 ∧
      byteAt pktA 7 = byteAt pktB 7
  else
    -- equal ToS, DF and reserved bits, and TTL
    byteAt pktA 1 = byteAt pktB 1 ∧ byteAt pktA 6 >>> 5 = byteAt pktB 6 >>> 5 ∧
      byteAt pktA 8 = byteAt pktB 8

def checksumValid (e : Endian) (pkt : Bytes) (iphLen : ℕ) (proto : Byte) (isV6 : Bool) : Bool :=
  let (srcAddrAt, addrSize) := addrLayout isV6
  let lenForPseudo := BitVec.ofNat 16 (pkt.length - iphLen)
  let cSum := pseudoHeaderChecksumNoFold e proto (field pkt srcAddrAt addrSize)
    (field pkt (srcAddrAt + addrSize) addrSize) lenForPseudo
  ~~~checksum e (pkt.drop iphLen) cSum = 0

def ipv4FlagMoreFragments : Byte := 0x20

def maxUint16 : ℕ := 2 ^ 16 - 1

/-- The checks on the IP header that `tcpGRO` and `udpGRO` begin with: the length of the
header, when the length fields agree with the packet. -/
def groIPHeaderLen (pkt : Bytes) (isV6 : Bool) : Option ℕ :=
  if pkt.length > maxUint16 then none
  else
    let iphLen := if isV6 then 40 else ((byteAt pkt 0 &&& 0x0F) * 4).toNat
    if isV6 then
      if ((be16At pkt 4).toNat : ℤ) ≠ (pkt.length : ℤ) - iphLen then none
      else if pkt.length < iphLen then none else some iphLen
    else
      if (be16At pkt 2).toNat ≠ pkt.length then none
      else if pkt.length < iphLen then none else some iphLen

/-- No GRO support for fragmented segments. -/
def isFragment (pkt : Bytes) : Bool :=
  byteAt pkt 6 &&& ipv4FlagMoreFragments ≠ 0 ∨ byteAt pkt 6 <<< 3 ≠ 0 ∨ byteAt pkt 7 ≠ 0

/-- What `tcpGRO` reads from a packet. -/
structure TcpMeta where
  iphLen : ℕ
  tcphLen : ℕ
  pshSet : Bool
  gsoSize : BitVec 16
  seq : BitVec 32

/-- The checks of `tcpGRO`; `none` is `groResultNoop`. -/
def tcpMeta (pkt : Bytes) (isV6 : Bool) : Option TcpMeta := do
  let iphLen ← groIPHeaderLen pkt isV6
  let tcphLen := ((byteAt pkt (iphLen + 12) >>> 4) * 4).toNat
  if tcphLen < 20 ∨ tcphLen > 60 then none
  else if pkt.length < iphLen + tcphLen then none
  else if !isV6 && isFragment pkt then none
  else
    let tcpFlags := byteAt pkt (iphLen + tcpFlagsOffset)
    -- not a candidate if any non-ACK flags (except PSH+ACK) are set
    if tcpFlags ≠ tcpFlagACK ∧ tcpFlags ≠ tcpFlagACK ||| tcpFlagPSH then none
    else
      let gsoSize := BitVec.ofNat 16 (pkt.length - tcphLen - iphLen)
      -- not a candidate if payload len is 0
      if gsoSize < 1 then none
      else
        some { iphLen, tcphLen, pshSet := tcpFlags ≠ tcpFlagACK, gsoSize,
               seq := be32At pkt (iphLen + 4) }

/-- What `udpGRO` reads from a packet. -/
structure UdpMeta where
  iphLen : ℕ
  gsoSize : BitVec 16

/-- The checks of `udpGRO`; `none` is `groResultNoop`. -/
def udpMeta (pkt : Bytes) (isV6 : Bool) : Option UdpMeta := do
  let iphLen ← groIPHeaderLen pkt isV6
  if pkt.length < iphLen + udphLen then none
  else if !isV6 && isFragment pkt then none
  else
    let gsoSize := BitVec.ofNat 16 (pkt.length - udphLen - iphLen)
    if gsoSize < 1 then none else some { iphLen, gsoSize }

/-- `groCandidateType`. -/
inductive GroCandidate where
  | none
  | tcp (isV6 : Bool)
  | udp (isV6 : Bool)
  deriving DecidableEq, Repr

def packetIsGROCandidate (b : Bytes) (canUDPGRO : Bool) : GroCandidate :=
  if b.length < 28 then .none
  else if byteAt b 0 >>> 4 = 4 then
    -- IPv4 packets with IP options do not coalesce
    if byteAt b 0 &&& 0x0F ≠ 5 then .none
    else if byteAt b 9 = ipprotoTCP ∧ b.length ≥ 40 then .tcp false
    else if byteAt b 9 = ipprotoUDP ∧ canUDPGRO then .udp false
    else .none
  else if byteAt b 0 >>> 4 = 6 then
    if byteAt b 6 = ipprotoTCP ∧ b.length ≥ 60 then .tcp true
    else if byteAt b 6 = ipprotoUDP ∧ b.length ≥ 48 ∧ canUDPGRO then .udp true
    else .none
  else .none

/-! ## §4 Coalescing TCP segments -/

def tcpPacketsCanCoalesce (pkt : Bytes) (m : TcpMeta) (item : TcpGROItem) (pktTarget : Bytes) :
    CanCoalesce :=
  if m.tcphLen ≠ item.tcphLen then .unavailable
  else if m.tcphLen > 20 ∧ field pkt (m.iphLen + 20) (m.tcphLen - 20) ≠
      field pktTarget (item.iphLen + 20) (m.iphLen + m.tcphLen - (item.iphLen + 20)) then
        .unavailable
  else if !ipHeadersCanCoalesce pkt pktTarget then .unavailable
  else
    -- seq adjacency
    let lhsLen := item.gsoSize + item.numMerged * item.gsoSize
    if m.seq = item.sentSeq + lhsLen.setWidth 32 then
      -- PSH can only be set on the final segment, and nothing can come after a smaller one
      if item.pshSet then .unavailable
      else if (pktTarget.drop (m.iphLen + m.tcphLen)).length % item.gsoSize.toNat ≠ 0 then
        .unavailable
      else if m.gsoSize > item.gsoSize then .unavailable
      else .append
    else if m.seq + m.gsoSize.setWidth 32 = item.sentSeq then
      if m.pshSet then .unavailable
      else if m.gsoSize < item.gsoSize then .unavailable
      else if m.gsoSize > item.gsoSize ∧ item.numMerged > 0 then .unavailable
      else .prepend
    else .unavailable

/-- The checks of `coalesceTCPPackets`, before it changes anything.  The packet is in `buf`, the
item in `target`. -/
def tcpCoalesceCheck (e : Endian) (mode : CanCoalesce) (buf : Buffer) (m : TcpMeta)
    (item : TcpGROItem) (target : Buffer) (offset : ℕ) (isV6 : Bool) : CoalesceResult :=
  let pkt := buf.pkt offset
  let headersLen := item.iphLen + item.tcphLen
  let coalescedLen := (target.pkt offset).length + pkt.length - headersLen
  let head := if mode = .prepend then buf else target
  if head.cap - offset - offset < coalescedLen then .insufficientCap
  else if mode = .prepend ∧ m.pshSet then .pshEnding
  else if item.numMerged = 0 ∧ !checksumValid e (target.pkt offset) item.iphLen ipprotoTCP isV6 then
    .itemInvalidCSum
  else if !checksumValid e pkt item.iphLen ipprotoTCP isV6 then .pktInvalidCSum
  else .success

/-- The changes that `coalesceTCPPackets` makes to the buffers: the payload of the one behind is
put behind the other, and on a prepend the two change places. -/
def tcpMerge (mode : CanCoalesce) (bufs : ℕ → Buffer) (pktI : ℕ) (m : TcpMeta)
    (item : TcpGROItem) (offset : ℕ) : ℕ → Buffer :=
  let headersLen := item.iphLen + item.tcphLen
  let target := item.bufsIndex.toNat
  if mode = .prepend then
    let merged := (bufs pktI).append (((bufs target).pkt offset).drop headersLen)
    Function.update (Function.update bufs pktI (bufs target)) target merged
  else
    let flagsAt := offset + item.iphLen + tcpFlagsOffset
    let head := if m.pshSet then
        (bufs target).patch flagsAt [byteAt (bufs target).bytes flagsAt ||| tcpFlagPSH]
      else bufs target
    Function.update bufs target (head.append (((bufs pktI).pkt offset).drop headersLen))

def tcpMergedItem (mode : CanCoalesce) (m : TcpMeta) (item : TcpGROItem) : TcpGROItem :=
  { item with
    sentSeq := if mode = .prepend then m.seq else item.sentSeq
    pshSet := if mode = .append ∧ m.pshSet then true else item.pshSet
    gsoSize := if m.gsoSize > item.gsoSize then m.gsoSize else item.gsoSize
    numMerged := item.numMerged + 1 }

/-- The item that `insert` makes of a packet. -/
def tcpItem (pkt : Bytes) (m : TcpMeta) (isV6 : Bool) (pktI : ℕ) : TcpGROItem :=
  { key := newTCPFlowKey pkt isV6 m.iphLen
    sentSeq := be32At pkt (m.iphLen + 4)
    bufsIndex := BitVec.ofNat 16 pktI
    numMerged := 0
    gsoSize := BitVec.ofNat 16 (pkt.drop (m.iphLen + m.tcphLen)).length
    iphLen := m.iphLen
    tcphLen := m.tcphLen
    pshSet := byteAt pkt (m.iphLen + tcpFlagsOffset) &&& tcpFlagPSH ≠ 0 }

/-- How the loop over the items of a flow ends. -/
inductive ScanEnd where
  | merged (mode : CanCoalesce) (item : TcpGROItem)
  | invalidPacket
  | exhausted
  deriving DecidableEq

/-- What the loop leaves behind: the state, how it ended, and the items that it deleted. -/
structure TcpScan where
  state : GroState
  ended : ScanEnd
  deleted : List TcpGROItem

/-- The loop of `tcpGRO`, over the items of the flow with their positions, the last one first. -/
def tcpScan (e : Endian) (offset pktI : ℕ) (isV6 : Bool) (m : TcpMeta) :
    List (TcpGROItem × ℕ) → GroState → TcpScan
  | [], st => { state := st, ended := .exhausted, deleted := [] }
  | (item, i) :: rest, st =>
    let buf := st.bufs pktI
    let target := st.bufs item.bufsIndex.toNat
    let can := tcpPacketsCanCoalesce (buf.pkt offset) m item (target.pkt offset)
    if can = .unavailable then tcpScan e offset pktI isV6 m rest st
    else match tcpCoalesceCheck e can buf m item target offset isV6 with
      | .success =>
        let item' := tcpMergedItem can m item
        { state := { st with
            bufs := tcpMerge can st.bufs pktI m item offset
            tcpTable := st.tcpTable.updateAt item'.key i item' }
          ended := .merged can item
          deleted := [] }
      | .itemInvalidCSum =>
        let scan := tcpScan e offset pktI isV6 m rest
          { st with tcpTable := st.tcpTable.deleteAt item.key i }
        { scan with deleted := item :: scan.deleted }
      | .pktInvalidCSum => { state := st, ended := .invalidPacket, deleted := [] }
      | .insufficientCap | .pshEnding => tcpScan e offset pktI isV6 m rest st

/-- The loop of `tcpGRO` on the flow of a packet, when there is one. -/
def tcpScanFlow (e : Endian) (offset pktI : ℕ) (isV6 : Bool) (m : TcpMeta) (st : GroState) :
    TcpScan :=
  let key := newTCPFlowKey ((st.bufs pktI).pkt offset) isV6 m.iphLen
  tcpScan e offset pktI isV6 m ((st.tcpTable.itemsByFlow.lookup key).getD []).zipIdx.reverse st

/-- `tcpGRO`; `none` is the panic of an empty pool. -/
def tcpGRO (e : Endian) (offset pktI : ℕ) (isV6 : Bool) (st : GroState) :
    Option (GroState × GroResult) :=
  let pkt := (st.bufs pktI).pkt offset
  match tcpMeta pkt isV6 with
  | none => some (st, .noop)
  | some m =>
    let scan := tcpScanFlow e offset pktI isV6 m st
    match scan.ended with
    | .merged _ _ => some (scan.state, .coalesced)
    | .invalidPacket => some (scan.state, .noop)
    | .exhausted =>
      -- a new flow, or no item of the flow to coalesce with
      let item := tcpItem pkt m isV6 pktI
      (scan.state.tcpTable.push item.key item).map fun tcpTable =>
        ({ scan.state with tcpTable }, .tableInsert)

/-! ## §5 Coalescing UDP datagrams -/

def udpPacketsCanCoalesce (pkt : Bytes) (m : UdpMeta) (item : UdpGROItem) (pktTarget : Bytes) :
    CanCoalesce :=
  if !ipHeadersCanCoalesce pkt pktTarget then .unavailable
  else if (pktTarget.drop (m.iphLen + udphLen)).length % item.gsoSize.toNat ≠ 0 then .unavailable
  else if m.gsoSize > item.gsoSize then .unavailable
  else .append

/-- The checks of `coalesceUDPPackets`. -/
def udpCoalesceCheck (e : Endian) (buf : Buffer) (item : UdpGROItem) (target : Buffer)
    (offset : ℕ) (isV6 : Bool) : CoalesceResult :=
  let pkt := buf.pkt offset
  let coalescedLen := (target.pkt offset).length + pkt.length - (item.iphLen + udphLen)
  if target.cap - offset - offset < coalescedLen then .insufficientCap
  else if item.numMerged = 0 ∧ (item.cSumKnownInvalid ∨
      !checksumValid e (target.pkt offset) item.iphLen ipprotoUDP isV6) then .itemInvalidCSum
  else if !checksumValid e pkt item.iphLen ipprotoUDP isV6 then .pktInvalidCSum
  else .success

/-- The item that `insert` makes of a packet. -/
def udpItem (pkt : Bytes) (m : UdpMeta) (isV6 : Bool) (pktI : ℕ) (cSumKnownInvalid : Bool) :
    UdpGROItem :=
  { key := newUDPFlowKey pkt isV6 m.iphLen
    bufsIndex := BitVec.ofNat 16 pktI
    numMerged := 0
    gsoSize := BitVec.ofNat 16 (pkt.drop (m.iphLen + udphLen)).length
    iphLen := m.iphLen
    cSumKnownInvalid }

/-- The payload of a packet put behind that of an item. -/
def udpMerge (bufs : ℕ → Buffer) (pktI : ℕ) (item : UdpGROItem) (offset : ℕ) : ℕ → Buffer :=
  let target := item.bufsIndex.toNat
  Function.update bufs target
    ((bufs target).append (((bufs pktI).pkt offset).drop (item.iphLen + udphLen)))

/-- The outcome for the last item of a flow, the only one that is looked at. -/
def udpTryCoalesce (e : Endian) (offset pktI : ℕ) (isV6 : Bool) (m : UdpMeta) (item : UdpGROItem)
    (st : GroState) : Option CoalesceResult :=
  let buf := st.bufs pktI
  let target := st.bufs item.bufsIndex.toNat
  if udpPacketsCanCoalesce (buf.pkt offset) m item (target.pkt offset) = .append then
    some (udpCoalesceCheck e buf item target offset isV6)
  else none

/-- `udpGRO`; `none` is the panic of an empty pool. -/
def udpGRO (e : Endian) (offset pktI : ℕ) (isV6 : Bool) (st : GroState) :
    Option (GroState × GroResult) :=
  let pkt := (st.bufs pktI).pkt offset
  match udpMeta pkt isV6 with
  | none => some (st, .noop)
  | some m =>
    let key := newUDPFlowKey pkt isV6 m.iphLen
    let insert := fun cSumKnownInvalid =>
      (st.udpTable.push key (udpItem pkt m isV6 pktI cSumKnownInvalid)).map fun udpTable =>
        ({ st with udpTable }, GroResult.tableInsert)
    let items := (st.udpTable.itemsByFlow.lookup key).getD []
    match items.getLast? with
    | none => insert false
    | some item =>
      match udpTryCoalesce e offset pktI isV6 m item st with
      | some .success =>
        let item' := { item with numMerged := item.numMerged + 1 }
        some ({ st with
          bufs := udpMerge st.bufs pktI item offset
          udpTable := st.udpTable.updateAt key (items.length - 1) item' }, .coalesced)
      | some .pktInvalidCSum => insert true
      | _ => insert false

/-! ## §6 Accounting -/

/-- The order in which a map is visited, which the language leaves open. -/
structure MapOrder where
  visit : {α : Type} → List α → List α
  perm : ∀ {α : Type} (l : List α), (visit l).Perm l

/-- The new length in the IP header, and for IPv4 the header checksum. -/
def accountIPHeader (e : Endian) (isV6 : Bool) (iphLen offset : ℕ) (b : Buffer) : Buffer :=
  let len := (b.pkt offset).length
  if isV6 then b.patch (offset + 4) (be16 (BitVec.ofNat 16 len - BitVec.ofNat 16 iphLen))
  else
    let b := b.patch (offset + 10) [0, 0]
    let b := b.patch (offset + 2) (be16 (BitVec.ofNat 16 len))
    b.patch (offset + 10) (be16 (~~~checksum e ((b.pkt offset).take iphLen) 0))

/-- The checksum of the pseudo header, at the place of the transport checksum. -/
def accountPseudoChecksum (e : Endian) (protocol : Byte) (isV6 : Bool) (iphLen csumAt offset : ℕ)
    (b : Buffer) : Buffer :=
  let (addrOffset, addrLen) := addrLayout isV6
  let pkt := b.pkt offset
  let psum := pseudoHeaderChecksumNoFold e protocol (field pkt addrOffset addrLen)
    (field pkt (addrOffset + addrLen) addrLen) (BitVec.ofNat 16 (pkt.length - iphLen))
  b.patch (offset + csumAt) (be16 (checksum e [] psum))

/-- The virtio header of a TCP item. -/
def tcpItemHdr (item : TcpGROItem) : VirtioNetHdr :=
  if item.numMerged > 0 then
    { flags := needsCsum
      gsoType := if item.key.isV6 then gsoTCPv6 else gsoTCPv4
      hdrLen := BitVec.ofNat 16 (item.iphLen + item.tcphLen)
      gsoSize := item.gsoSize
      csumStart := BitVec.ofNat 16 item.iphLen
      csumOffset := 16 }
  else VirtioNetHdr.zero

/-- `applyTCPCoalesceAccounting`, for the buffer of one item. -/
def tcpAccount (e : Endian) (offset : ℕ) (item : TcpGROItem) (b : Buffer) : Buffer :=
  if item.numMerged > 0 then
    let b := accountIPHeader e item.key.isV6 item.iphLen offset b
    let b := b.encodeHdr e offset (tcpItemHdr item)
    accountPseudoChecksum e ipprotoTCP item.key.isV6 item.iphLen (item.iphLen + 16) offset b
  else b.encodeHdr e offset (tcpItemHdr item)

/-- The virtio header of a UDP item. -/
def udpItemHdr (item : UdpGROItem) : VirtioNetHdr :=
  if item.numMerged > 0 then
    { flags := needsCsum
      gsoType := gsoUDPL4
      hdrLen := BitVec.ofNat 16 (item.iphLen + udphLen)
      gsoSize := item.gsoSize
      csumStart := BitVec.ofNat 16 item.iphLen
      csumOffset := 6 }
  else VirtioNetHdr.zero

/-- `applyUDPCoalesceAccounting`, for the buffer of one item. -/
def udpAccount (e : Endian) (offset : ℕ) (item : UdpGROItem) (b : Buffer) : Buffer :=
  if item.numMerged > 0 then
    let b := accountIPHeader e item.key.isV6 item.iphLen offset b
    let b := b.encodeHdr e offset (udpItemHdr item)
    -- recalculate the UDP len field value
    let b := b.patch (offset + item.iphLen + 4)
      (be16 (BitVec.ofNat 16 ((b.pkt offset).drop item.iphLen).length))
    accountPseudoChecksum e ipprotoUDP item.key.isV6 item.iphLen (item.iphLen + 6) offset b
  else b.encodeHdr e offset (udpItemHdr item)

/-- Visit the items of a table, each with the buffer at its index. -/
def applyAccounting {K I : Type} (order : MapOrder) (index : I → ℕ) (account : I → Buffer → Buffer)
    (table : GROTable K I) (bufs : ℕ → Buffer) : ℕ → Buffer :=
  ((order.visit table.itemsByFlow.entries).flatMap Sigma.snd).foldl
    (fun bufs item => Function.update bufs (index item) (account item (bufs (index item)))) bufs

/-! ## §7 The whole batch -/

/-- How `handleGRO` can fail: with an error, or in a panic. -/
inductive GroError where
  | invalidOffset
  | emptyPool
  deriving DecidableEq, Repr

/-- One iteration of the loop of `handleGRO`. -/
def groStep (e : Endian) (canUDPGRO : Bool) (offset i : ℕ) (st : GroState) :
    Except GroError GroState :=
  let buf := st.bufs i
  if offset < virtioNetHdrLen ∨ (offset : ℤ) > (buf.bytes.length : ℤ) - 1 then .error .invalidOffset
  else
    let result := match packetIsGROCandidate (buf.pkt offset) canUDPGRO with
      | .tcp isV6 => tcpGRO e offset i isV6 st
      | .udp isV6 => udpGRO e offset i isV6 st
      | .none => some (st, .noop)
    match result with
    | none => .error .emptyPool
    | some (st, .noop) => .ok { st with
        bufs := Function.update st.bufs i ((st.bufs i).encodeHdr e offset VirtioNetHdr.zero)
        toWrite := st.toWrite ++ [i] }
    | some (st, .tableInsert) => .ok { st with toWrite := st.toWrite ++ [i] }
    | some (st, .coalesced) => .ok st

/-- The loop of `handleGRO`, from index `i` on. -/
def groLoop (e : Endian) (canUDPGRO : Bool) (offset : ℕ) :
    ℕ → ℕ → GroState → Except GroError GroState
  | _, 0, st => .ok st
  | i, n + 1, st => do
    let st ← groStep e canUDPGRO offset i st
    groLoop e canUDPGRO offset (i + 1) n st

def bufferAt (batch : List Buffer) (i : ℕ) : Buffer :=
  batch.getD i { bytes := [], cap := 0, len_le := Nat.le_refl 0 }

/-- The state before the first packet: empty tables and nothing to write. -/
def groInit (batch : List Buffer) : GroState :=
  { bufs := bufferAt batch, tcpTable := .new, udpTable := .new, toWrite := [] }

def handleGRO (e : Endian) (order : MapOrder) (canUDPGRO : Bool) (offset : ℕ)
    (batch : List Buffer) :
    Except GroError GroState := do
  let st ← groLoop e canUDPGRO offset 0 batch.length (groInit batch)
  let bufs := applyAccounting order (·.bufsIndex.toNat) (tcpAccount e offset) st.tcpTable st.bufs
  let bufs := applyAccounting order (·.bufsIndex.toNat) (udpAccount e offset) st.udpTable bufs
  return { st with bufs }

end AmneziaWG.Tun
