import AmneziaWG.Lib.Chunks
import AmneziaWG.Lib.Fallible
import AmneziaWG.Lib.Patch
import AmneziaWG.Tun.Checksum

/-!
# Generic Segmentation Offload

Embedding of `virtioNetHdr` and `gsoSplit` (`tun/offload_linux.go`): a packet that the kernel
hands over with a segment size is cut into packets of that size.  `none` is a panic.  The packet
is a slice of the read buffer, and `spare` are the bytes of this buffer behind it; the output
buffers are whole arrays, as `RoutineReadFromTUN` passes them.

## Main results

- `gsoSplit_spec`: with enough room, the packets that are written are the segments of the packet,
  each a part of the payload behind the headers.
-/

namespace AmneziaWG.Tun

open AmneziaWG.Lib List Option BitVec Nat

/-! ## §1 The virtio header -/

structure VirtioNetHdr where
  flags : Byte
  gsoType : Byte
  hdrLen : BitVec 16
  gsoSize : BitVec 16
  csumStart : BitVec 16
  csumOffset : BitVec 16
  deriving DecidableEq, Repr

/-- `virtioNetHdr{}`. -/
def VirtioNetHdr.zero : VirtioNetHdr :=
  { flags := 0, gsoType := 0, hdrLen := 0, gsoSize := 0, csumStart := 0, csumOffset := 0 }

def virtioNetHdrLen : ℕ := 10

/-- `encode`: the memory of the structure. -/
def VirtioNetHdr.encode (e : Endian) (v : VirtioNetHdr) : Bytes :=
  [v.flags, v.gsoType] ++ (e.bytes 2 v.hdrLen.toNat ++ (e.bytes 2 v.gsoSize.toNat ++
    (e.bytes 2 v.csumStart.toNat ++ e.bytes 2 v.csumOffset.toNat)))

/-- A field of two bytes in the byte order of the host. -/
def native16At (e : Endian) (b : Bytes) (off : ℕ) : BitVec 16 :=
  BitVec.ofNat 16 (e.nat (field b off 2))

/-- `decode`; `none` is `io.ErrShortBuffer`. -/
def VirtioNetHdr.decode (e : Endian) (b : Bytes) : Option VirtioNetHdr :=
  if b.length < virtioNetHdrLen then none
  else some
    { flags := byteAt b 0, gsoType := byteAt b 1, hdrLen := native16At e b 2
      gsoSize := native16At e b 4, csumStart := native16At e b 6, csumOffset := native16At e b 8 }

def gsoNone : Byte := 0

def gsoTCPv4 : Byte := 1

def gsoTCPv6 : Byte := 4

def gsoUDPL4 : Byte := 5

def needsCsum : Byte := 1

def ipprotoTCP : Byte := 6

def ipprotoUDP : Byte := 17

def tcpFlagsOffset : ℕ := 13

def tcpFlagFIN : Byte := 0x01

def tcpFlagPSH : Byte := 0x08

def tcpFlagACK : Byte := 0x10

def ipv4SrcAddrOffset : ℕ := 12

def ipv6SrcAddrOffset : ℕ := 8

/-- The offset of the source address and the size of an address. -/
def addrLayout (isV6 : Bool) : ℕ × ℕ :=
  if isV6 then (ipv6SrcAddrOffset, 16) else (ipv4SrcAddrOffset, 4)

/-! ## §2 Splitting -/

/-- The IP header of a segment: for IPv4 the ID is incremented, the total length updated and
the checksum recalculated; for IPv6 the payload length is updated. -/
def gsoIPHeader (e : Endian) (isV6 : Bool) (iphLen i totalLen : ℕ) (out : Bytes) : Option Bytes :=
  if isV6 then writeAt out 4 (be16 (BitVec.ofNat 16 (totalLen - iphLen)))
  else do
    let out ← if i > 0 then do
        let id ← readBE16 out 4
        writeAt out 4 (be16 (id + BitVec.ofNat 16 i))
      else some out
    let out ← writeAt out 2 (be16 (BitVec.ofNat 16 totalLen))
    let iph ← sliceRange out 0 iphLen
    writeAt out 10 (be16 (~~~checksum e iph 0))

/-- The transport header of a segment: for TCP the sequence number, and the flags that only
the last segment may have; for UDP the length. -/
def gsoTransportHeader (hdr : VirtioNetHdr) (protocol : Byte) (firstTCPSeqNum : BitVec 32)
    (i segmentDataLen : ℕ) (last : Bool) (out : Bytes) : Option Bytes :=
  if protocol = ipprotoTCP then do
    let tcpSeq := firstTCPSeqNum + (hdr.gsoSize * BitVec.ofNat 16 i).setWidth 32
    let out ← writeAt out (hdr.csumStart + 4).toNat (be32 tcpSeq)
    if last then some out
    else do
      let flagsAt := (hdr.csumStart + BitVec.ofNat 16 tcpFlagsOffset).toNat
      let flags ← out[flagsAt]?
      writeAt out flagsAt [flags &&& ~~~(tcpFlagFIN ||| tcpFlagPSH)]
  else
    writeAt out (hdr.csumStart + 4).toNat
      (be16 (BitVec.ofNat 16 segmentDataLen + (hdr.hdrLen - hdr.csumStart)))

/-- One iteration of the loop: the segment of `in[dataAt:end]`, written to `out`. -/
def gsoSegment (e : Endian) (pkt spare : Bytes) (hdr : VirtioNetHdr) (isV6 : Bool) (protocol : Byte)
    (firstTCPSeqNum : BitVec 32) (i dataAt : ℕ) (out : Bytes) : Option (Bytes × ℕ) := do
  let nextSegmentEnd := min (dataAt + hdr.gsoSize.toNat) pkt.length
  let segmentDataLen := nextSegmentEnd - dataAt
  let totalLen := hdr.hdrLen.toNat + segmentDataLen
  let iphLen := hdr.csumStart.toNat
  let (srcAddrOffset, addrLen) := addrLayout isV6
  let iph ← sliceRange (pkt ++ spare) 0 iphLen
  -- copy stops at the end of the shorter slice
  let out := patch out 0 (iph.take out.length)
  let out ← gsoIPHeader e isV6 iphLen i totalLen out
  let transportHeader ← sliceRange (pkt ++ spare) hdr.csumStart.toNat hdr.hdrLen.toNat
  let out ← writeAt out hdr.csumStart.toNat transportHeader
  let out ← gsoTransportHeader hdr protocol firstTCPSeqNum i segmentDataLen
    (nextSegmentEnd = pkt.length) out
  let payload ← sliceRange (pkt ++ spare) dataAt nextSegmentEnd
  let room ← sliceRange out hdr.hdrLen.toNat out.length
  let out := patch out hdr.hdrLen.toNat (payload.take room.length)
  let srcAddr ← sliceRange (pkt ++ spare) srcAddrOffset (srcAddrOffset + addrLen)
  let dstAddr ← sliceRange (pkt ++ spare) (srcAddrOffset + addrLen) (srcAddrOffset + addrLen * 2)
  let lenForPseudo := BitVec.ofNat 16 ((hdr.hdrLen - hdr.csumStart).toNat + segmentDataLen)
  let noFold := pseudoHeaderChecksumNoFold e protocol srcAddr dstAddr lenForPseudo
  let transport ← sliceRange out hdr.csumStart.toNat totalLen
  let out ← writeAt out (hdr.csumStart + hdr.csumOffset).toNat
    (be16 (~~~checksum e transport noFold))
  return (out, totalLen)

/-- What `gsoSplit` leaves behind: the buffers it has filled with their sizes, the count that
it returns, and whether the error is `ErrTooManySegments`. -/
structure GsoResult where
  written : List (Bytes × ℕ)
  count : ℤ
  tooManySegments : Bool

/-- The loop of `gsoSplit`, over the output buffers. -/
def gsoLoop (e : Endian) (pkt spare : Bytes) (hdr : VirtioNetHdr) (outOffset : ℕ) (isV6 : Bool)
    (protocol : Byte) (firstTCPSeqNum : BitVec 32) : ℕ → ℕ → List Bytes → Option GsoResult
  | i, dataAt, [] =>
    if dataAt < pkt.length then some { written := [], count := i - 1, tooManySegments := true }
    else some { written := [], count := i, tooManySegments := false }
  | i, dataAt, buf :: outBuffs =>
    if dataAt < pkt.length then do
      let out ← sliceRange buf outOffset buf.length
      let (out, size) ← gsoSegment e pkt spare hdr isV6 protocol firstTCPSeqNum i dataAt out
      let rest ← gsoLoop e pkt spare hdr outOffset isV6 protocol firstTCPSeqNum (i + 1)
        (dataAt + hdr.gsoSize.toNat) outBuffs
      return { rest with written := (buf.take outOffset ++ out, size) :: rest.written }
    else some { written := [], count := i, tooManySegments := false }

/-- The packet with its checksums cleared. -/
def gsoClear (pkt : Bytes) (hdr : VirtioNetHdr) (isV6 : Bool) : Option Bytes := do
  let pkt ← if isV6 then some pkt else writeAt pkt 10 [0, 0]
  writeAt pkt (hdr.csumStart + hdr.csumOffset).toNat [0, 0]

/-- `gsoSplit`.  There is a size for each output buffer. -/
def gsoSplit (e : Endian) (pkt spare : Bytes) (hdr : VirtioNetHdr) (outBuffs : List Bytes)
    (outOffset : ℕ) (isV6 : Bool) : Option GsoResult := do
  let pkt ← gsoClear pkt hdr isV6
  let isTCP := hdr.gsoType = gsoTCPv4 ∨ hdr.gsoType = gsoTCPv6
  let firstTCPSeqNum ← if isTCP then readBE32 pkt (hdr.csumStart + 4).toNat else some 0
  gsoLoop e pkt spare hdr outOffset isV6 (if isTCP then ipprotoTCP else ipprotoUDP) firstTCPSeqNum 0
    hdr.hdrLen.toNat outBuffs

/-! ## §3 One segment -/

/-- The protocol that the virtio header names. -/
def VirtioNetHdr.protocol (hdr : VirtioNetHdr) : Byte :=
  if hdr.gsoType = gsoTCPv4 ∨ hdr.gsoType = gsoTCPv6 then ipprotoTCP else ipprotoUDP

/-- The part of a transport header that every packet of the protocol has. -/
def minTransportLen (protocol : Byte) : ℕ := if protocol = ipprotoTCP then 20 else 8

/-- The offset of the checksum in a transport header. -/
def transportCsumOffset (protocol : Byte) : BitVec 16 := if protocol = ipprotoTCP then 16 else 6

/-- A packet with a virtio header that describes it: the headers lie within the packet. -/
structure Splittable (pkt : Bytes) (hdr : VirtioNetHdr) (isV6 : Bool) : Prop where
  addrs : (addrLayout isV6).1 + (addrLayout isV6).2 * 2 ≤ hdr.csumStart.toNat
  transport : hdr.csumStart.toNat + minTransportLen hdr.protocol ≤ hdr.hdrLen.toNat
  fits : hdr.hdrLen.toNat ≤ pkt.length
  short : pkt.length < 2 ^ 16
  csumOffset : hdr.csumOffset = transportCsumOffset hdr.protocol
  gsoSize : 0 < hdr.gsoSize.toNat

/-- What the checks of `handleVirtioRead` establish: the headers and the checksum lie within the
packet. -/
structure Checked (pkt : Bytes) (hdr : VirtioNetHdr) : Prop where
  transport : hdr.csumStart.toNat + minTransportLen hdr.protocol ≤ hdr.hdrLen.toNat
  fits : hdr.hdrLen.toNat ≤ pkt.length
  csumEnd : (hdr.csumStart + hdr.csumOffset).toNat + 2 ≤ pkt.length

section Segment

variable {pkt spare : Bytes} {hdr : VirtioNetHdr} {isV6 : Bool}
variable {k off iphLen i totalLen start dataAt j : ℕ} {out : Bytes} {last : Bool}
  {firstTCPSeqNum : BitVec 32} {e : Endian} {outs : List Bytes} {P : ℕ → ℕ → Bytes → Prop}

theorem VirtioNetHdr.protocol_cases (hdr : VirtioNetHdr) :
    hdr.protocol = ipprotoTCP ∨ hdr.protocol = ipprotoUDP := by
  unfold VirtioNetHdr.protocol
  split_ifs
  · exact Or.inl rfl
  · exact Or.inr rfl

theorem Splittable.iph (h : Splittable pkt hdr isV6) : 20 ≤ hdr.csumStart.toNat := by
  have haddrs := h.addrs
  cases isV6 <;> simp [addrLayout, ipv4SrcAddrOffset, ipv6SrcAddrOffset] at haddrs <;> omega

theorem csumStart_add_toNat
    (h : hdr.csumStart.toNat + minTransportLen hdr.protocol ≤ hdr.hdrLen.toNat)
    (hk : k ≤ minTransportLen hdr.protocol) :
    (hdr.csumStart + BitVec.ofNat 16 k).toNat = hdr.csumStart.toNat + k := by
  have hlt := hdr.hdrLen.isLt
  rw [toNat_add, toNat_ofNat, mod_eq_of_lt (by omega : k < 2 ^ 16)]
  exact mod_eq_of_lt (by omega)

theorem eight_le_minTransportLen (protocol : Byte) : 8 ≤ minTransportLen protocol := by
  unfold minTransportLen
  split_ifs <;> omega

theorem Checked.eight_le (h : Checked pkt hdr) : hdr.csumStart.toNat + 8 ≤ hdr.hdrLen.toNat := by
  have h₁ := h.transport
  have h₂ := eight_le_minTransportLen hdr.protocol
  omega

/-- The bytes of an IP header that differ between the segments of a packet. -/
def IPChanges (isV6 : Bool) (k : ℕ) : Prop :=
  (4 ≤ k ∧ k < 6) ∨ (isV6 = false ∧ ((2 ≤ k ∧ k < 4) ∨ (10 ≤ k ∧ k < 12)))

theorem ipChanges_v4 : IPChanges false k ↔ (2 ≤ k ∧ k < 6) ∨ (10 ≤ k ∧ k < 12) := by
  simp only [IPChanges, true_and]
  omega

theorem ipChanges_v6 : IPChanges true k ↔ 4 ≤ k ∧ k < 6 := by
  simp [IPChanges]

theorem writeAt_be16 {b : Bytes} (v : BitVec 16) (h : off + 2 ≤ b.length) :
    writeAt b off (be16 v) = some (patch b off (be16 v)) :=
  writeAt_eq_patch h

theorem patch_be16_getElem? (b : Bytes) (v : BitVec 16)
    (h : ¬(off ≤ k ∧ k < off + 2)) : (patch b off (be16 v))[k]? = b[k]? := by
  apply patch_getElem?_of_outside
  rw [be16_length]
  omega

theorem be16At_patch_be16 (b : Bytes) (v : BitVec 16) (h : k + 2 ≤ off ∨ off + 2 ≤ k) :
    be16At (patch b off (be16 v)) k = be16At b k := by
  rw [be16At, field_patch _ h]
  rfl

/-! ### The IP header -/

/-- The IP header of a segment before its checksum. -/
def ipv4Fields (i totalLen : ℕ) (out : Bytes) : Bytes :=
  patch (if i > 0 then patch out 4 (be16 (be16At out 4 + BitVec.ofNat 16 i)) else out) 2
    (be16 (BitVec.ofNat 16 totalLen))

/-- What `gsoIPHeader` makes of a buffer with room for the header. -/
def ipFields (e : Endian) (isV6 : Bool) (iphLen i totalLen : ℕ) (out : Bytes) : Bytes :=
  if isV6 then patch out 4 (be16 (BitVec.ofNat 16 (totalLen - iphLen)))
  else patch (ipv4Fields i totalLen out) 10
    (be16 (~~~checksum e (field (ipv4Fields i totalLen out) 0 iphLen) 0))

@[simp] theorem ipv4Fields_length (i totalLen : ℕ) (out : Bytes) :
    (ipv4Fields i totalLen out).length = out.length := by
  unfold ipv4Fields
  split_ifs <;> simp

@[simp] theorem ipFields_length (e : Endian) (isV6 : Bool) (iphLen i totalLen : ℕ) (out : Bytes) :
    (ipFields e isV6 iphLen i totalLen out).length = out.length := by
  unfold ipFields
  split_ifs <;> simp

theorem gsoIPHeader_eq (e : Endian) (isV6 : Bool) (i totalLen : ℕ)
    (h12 : 12 ≤ out.length) (hiph : iphLen ≤ out.length) :
    gsoIPHeader e isV6 iphLen i totalLen out = some (ipFields e isV6 iphLen i totalLen out) := by
  unfold gsoIPHeader ipFields
  cases isV6 with
  | true => exact writeAt_be16 _ (by omega)
  | false =>
    -- the length and the checksum, whatever the ID
    have htail : ∀ out₁ : Bytes, out₁.length = out.length →
        ((writeAt out₁ 2 (be16 (BitVec.ofNat 16 totalLen))).bind fun out =>
          (sliceRange out 0 iphLen).bind fun iph => writeAt out 10 (be16 (~~~checksum e iph 0))) =
        some (patch (patch out₁ 2 (be16 (BitVec.ofNat 16 totalLen))) 10
          (be16 (~~~checksum e (field (patch out₁ 2 (be16 (BitVec.ofNat 16 totalLen))) 0 iphLen)
            0))) := by
      intro out₁ hlen
      rw [writeAt_be16 _ (by omega), bind_some,
        sliceRange_eq (Nat.zero_le _) (by rw [patch_length]; omega), Option.bind_some, Nat.sub_zero,
        writeAt_be16 _ (by rw [patch_length]; omega)]
    unfold ipv4Fields
    simp only [Bool.false_eq_true, if_false, bind_eq_bind]
    by_cases hi : i > 0
    · have hread : readBE16 out 4 = some (be16At out 4) := if_pos (by omega)
      simp only [if_pos hi, hread, bind_some, writeAt_be16 _ (by omega : 4 + 2 ≤ out.length)]
      exact htail _ (patch_length _ _ _)
    · simp only [if_neg hi]
      exact htail out rfl

theorem ipv4Fields_getElem? (hk : ¬(2 ≤ k ∧ k < 6)) :
    (ipv4Fields i totalLen out)[k]? = out[k]? := by
  unfold ipv4Fields
  rw [patch_be16_getElem? _ _ (by omega)]
  split_ifs
  · rw [patch_be16_getElem? _ _ (by omega)]
  · rfl

theorem ipFields_getElem? (e : Endian) (hk : ¬IPChanges isV6 k) :
    (ipFields e isV6 iphLen i totalLen out)[k]? = out[k]? := by
  unfold ipFields
  cases isV6 with
  | true =>
    rw [ipChanges_v6] at hk
    exact patch_be16_getElem? _ _ (by omega)
  | false =>
    rw [ipChanges_v4] at hk
    rw [if_neg (by simp), patch_be16_getElem? _ _ (by omega), ipv4Fields_getElem? (by omega)]

theorem ipv4Fields_length_eq (h : 4 ≤ out.length) :
    be16At (ipv4Fields i totalLen out) 2 = BitVec.ofNat 16 totalLen := by
  unfold ipv4Fields
  refine be16At_patch_same ?_
  split_ifs <;> simp <;> omega

theorem ipv4Fields_ident (h : 6 ≤ out.length) :
    be16At (ipv4Fields i totalLen out) 4 = be16At out 4 + BitVec.ofNat 16 i := by
  unfold ipv4Fields
  rw [be16At_patch_be16 _ _ (Or.inr (le_refl 4))]
  split_ifs with hi
  · exact be16At_patch_same (by omega)
  · have hzero : i = 0 := by omega
    simp [hzero]

/-- The header checksum of a segment is valid, where the packet had none. -/
theorem ipFields_checksum (e : Endian) (h12 : 12 ≤ iphLen)
    (hiph : iphLen ≤ out.length) (hzero : be16At out 10 = 0) :
    checksum e (field (ipFields e false iphLen i totalLen out) 0 iphLen) 0 = 0xffff := by
  have hfield : (field (ipv4Fields i totalLen out) 0 iphLen).length = iphLen :=
    field_length (by simpa using hiph)
  have hsame : be16At (field (ipv4Fields i totalLen out) 0 iphLen) 10 = 0 := by
    rw [be16At_field _ (by omega), ← hzero, be16At, be16At]
    congr 2
    apply field_congr
    intro k _ _
    exact ipv4Fields_getElem? (by omega)
  have hpatch : field (ipFields e false iphLen i totalLen out) 0 iphLen =
      patch (field (ipv4Fields i totalLen out) 0 iphLen) 10
        (be16 (~~~checksum e (field (ipv4Fields i totalLen out) 0 iphLen) 0)) := by
    rw [ipFields, if_neg (by simp)]
    exact field_patch_inside (by omega) (by rw [be16_length]; omega) (by simpa using hiph)
  rw [hpatch]
  exact checksum_patch_complement 0 (by decide) (by omega) hsame

/-! ### The transport header -/

/-- The flags of a segment that is not the last. -/
def clearLastFlags (flags : Byte) : Byte := flags &&& ~~~(tcpFlagFIN ||| tcpFlagPSH)

/-- The bytes of a transport header that differ between the segments of a packet. -/
def TransportChanges (protocol : Byte) (k : ℕ) : Prop :=
  (4 ≤ k ∧ k < 8) ∨ (protocol = ipprotoTCP ∧ (k = 13 ∨ (16 ≤ k ∧ k < 18)))

/-- A buffer with the sequence number and the flags of a segment. -/
def tcpFields (start : ℕ) (tcpSeq : BitVec 32) (last : Bool) (out : Bytes) : Bytes :=
  let out := patch out (start + 4) (be32 tcpSeq)
  if last then out else patch out (start + 13) [clearLastFlags (byteAt out (start + 13))]

/-- What `gsoTransportHeader` makes of a buffer with room for the header. -/
def transportFields (hdr : VirtioNetHdr) (firstTCPSeqNum : BitVec 32) (i segmentDataLen : ℕ)
    (last : Bool) (out : Bytes) : Bytes :=
  if hdr.protocol = ipprotoTCP then
    tcpFields hdr.csumStart.toNat (firstTCPSeqNum + (hdr.gsoSize * BitVec.ofNat 16 i).setWidth 32)
      last out
  else
    patch out (hdr.csumStart.toNat + 4)
      (be16 (BitVec.ofNat 16 segmentDataLen + (hdr.hdrLen - hdr.csumStart)))

@[simp] theorem tcpFields_length (start : ℕ) (tcpSeq : BitVec 32) (last : Bool) (out : Bytes) :
    (tcpFields start tcpSeq last out).length = out.length := by
  cases last <;> simp [tcpFields]

@[simp] theorem transportFields_length (hdr : VirtioNetHdr) (firstTCPSeqNum : BitVec 32)
    (i segmentDataLen : ℕ) (last : Bool) (out : Bytes) :
    (transportFields hdr firstTCPSeqNum i segmentDataLen last out).length = out.length := by
  unfold transportFields
  split_ifs <;> simp

theorem gsoTransportHeader_eq
    (h : hdr.csumStart.toNat + minTransportLen hdr.protocol ≤ hdr.hdrLen.toNat)
    (firstTCPSeqNum : BitVec 32)
    (i segmentDataLen : ℕ) (last : Bool) (hout : hdr.hdrLen.toNat ≤ out.length) :
    gsoTransportHeader hdr hdr.protocol firstTCPSeqNum i segmentDataLen last out =
      some (transportFields hdr firstTCPSeqNum i segmentDataLen last out) := by
  have hmin := eight_le_minTransportLen hdr.protocol
  have hseqAt : (hdr.csumStart + 4).toNat = hdr.csumStart.toNat + 4 :=
    csumStart_add_toNat h (k := 4) (by omega)
  unfold gsoTransportHeader transportFields
  rw [hseqAt]
  by_cases htcp : hdr.protocol = ipprotoTCP
  · have h20 : minTransportLen hdr.protocol = 20 := by rw [htcp]; rfl
    -- the header is within 16 bits, so the offsets do not wrap
    have hflagsAt : (hdr.csumStart + BitVec.ofNat 16 tcpFlagsOffset).toNat =
        hdr.csumStart.toNat + 13 :=
      csumStart_add_toNat h (k := 13) (by omega)
    rw [if_pos htcp, if_pos htcp, hflagsAt]
    simp only [bind_eq_bind]
    rw [writeAt_eq_patch (by rw [be32_length]; omega), bind_some]
    cases last with
    | true => rfl
    | false =>
      rw [if_neg (by simp), getElem?_of_lt (by rw [patch_length]; omega), bind_some,
        writeAt_eq_patch (by rw [patch_length, length_singleton]; omega)]
      rfl
  · rw [if_neg htcp, if_neg htcp, writeAt_be16 _ (by omega)]

theorem tcpFields_getElem? {tcpSeq : BitVec 32}
    (hk : ¬(start + 4 ≤ k ∧ k < start + 8)) (hk' : k ≠ start + 13) :
    (tcpFields start tcpSeq last out)[k]? = out[k]? := by
  have hseq : (patch out (start + 4) (be32 tcpSeq))[k]? = out[k]? := by
    apply patch_getElem?_of_outside
    rw [be32_length]
    omega
  cases last with
  | true => exact hseq
  | false =>
    simp only [tcpFields]
    rw [if_neg (by simp), patch_getElem?_of_outside _ (by rw [length_singleton]; omega), hseq]

theorem tcpFields_seq (tcpSeq : BitVec 32) (last : Bool) (h : start + 8 ≤ out.length) :
    be32At (tcpFields start tcpSeq last out) (start + 4) = tcpSeq := by
  have hseq : be32At (patch out (start + 4) (be32 tcpSeq)) (start + 4) = tcpSeq :=
    be32At_patch_same (by omega)
  cases last with
  | true => exact hseq
  | false =>
    simp only [tcpFields]
    rw [if_neg (by simp), be32At, field_patch _ (by omega)]
    exact hseq

theorem tcpFields_flags {tcpSeq : BitVec 32} (h : start + 14 ≤ out.length) :
    byteAt (tcpFields start tcpSeq last out) (start + 13) =
      if last then byteAt out (start + 13) else clearLastFlags (byteAt out (start + 13)) := by
  have hkeep : byteAt (patch out (start + 4) (be32 tcpSeq)) (start + 13) =
      byteAt out (start + 13) := by
    apply byteAt_patch
    rw [be32_length]
    omega
  cases last with
  | true => exact hkeep
  | false =>
    simp only [tcpFields]
    rw [if_neg (by simp), byteAt_patch_same (by rw [patch_length]; omega), hkeep]
    rfl

theorem transportFields_getElem? {segmentDataLen : ℕ}
    (hk : k < hdr.csumStart.toNat ∨ ¬TransportChanges hdr.protocol (k - hdr.csumStart.toNat)) :
    (transportFields hdr firstTCPSeqNum i segmentDataLen last out)[k]? = out[k]? := by
  unfold transportFields
  unfold TransportChanges at hk
  split_ifs with htcp
  · simp only [htcp, true_and] at hk
    exact tcpFields_getElem? (by omega) (by omega)
  · exact patch_be16_getElem? _ _ (by omega)

/-! ### The segment -/

/-- The size of the data of the segment that begins at `dataAt`. -/
def segmentDataLen (pkt : Bytes) (hdr : VirtioNetHdr) (dataAt : ℕ) : ℕ :=
  min (dataAt + hdr.gsoSize.toNat) pkt.length - dataAt

/-- One segment: the headers of the packet with the fields of the segment, and its data. -/
structure IsSegment (pkt : Bytes) (hdr : VirtioNetHdr) (isV6 : Bool) (i dataAt : ℕ) (out : Bytes) :
    Prop where
  header : ∀ k, k < hdr.hdrLen.toNat → ¬IPChanges isV6 k →
    (k < hdr.csumStart.toNat ∨ ¬TransportChanges hdr.protocol (k - hdr.csumStart.toNat)) →
    out[k]? = pkt[k]?
  seq : hdr.protocol = ipprotoTCP → be32At out (hdr.csumStart.toNat + 4) =
    be32At pkt (hdr.csumStart.toNat + 4) + (hdr.gsoSize * BitVec.ofNat 16 i).setWidth 32
  flags : hdr.protocol = ipprotoTCP → byteAt out (hdr.csumStart.toNat + 13) =
    if dataAt + segmentDataLen pkt hdr dataAt = pkt.length then
      byteAt pkt (hdr.csumStart.toNat + 13)
    else clearLastFlags (byteAt pkt (hdr.csumStart.toNat + 13))
  payload : ∀ k, k < segmentDataLen pkt hdr dataAt →
    out[hdr.hdrLen.toNat + k]? = pkt[dataAt + k]?

theorem Splittable.csumAt_toNat (h : Splittable pkt hdr isV6) :
    (hdr.csumStart + hdr.csumOffset).toNat =
      hdr.csumStart.toNat + (transportCsumOffset hdr.protocol).toNat := by
  have hadd := csumStart_add_toNat h.transport (k := (transportCsumOffset hdr.protocol).toNat) (by
    rcases hdr.protocol_cases with htcp | hudp
    · rw [htcp]
      decide
    · rw [hudp]
      decide)
  rw [h.csumOffset]
  rwa [ofNat_toNat, setWidth_eq] at hadd

/-- The checksum lies in the transport header, among the bytes that a segment changes. -/
theorem Splittable.csum_changes (h : Splittable pkt hdr isV6) :
    hdr.csumStart.toNat + (transportCsumOffset hdr.protocol).toNat + 2 ≤ hdr.hdrLen.toNat ∧
      ∀ k, (transportCsumOffset hdr.protocol).toNat ≤ k →
        k < (transportCsumOffset hdr.protocol).toNat + 2 →
        TransportChanges hdr.protocol k ∧ k ≠ 4 ∧ k ≠ 5 ∧ (hdr.protocol = ipprotoTCP → 16 ≤ k) := by
  have htransport := h.transport
  rcases hdr.protocol_cases with htcp | hudp
  · have hoff : (transportCsumOffset hdr.protocol).toNat = 16 := by rw [htcp]; rfl
    have hmin : minTransportLen hdr.protocol = 20 := by rw [htcp]; rfl
    rw [hoff]
    refine ⟨by omega, fun k h₁ h₂ => ⟨Or.inr ⟨htcp, by omega⟩, by omega, by omega, fun _ => h₁⟩⟩
  · have hoff : (transportCsumOffset hdr.protocol).toNat = 6 := by rw [hudp]; rfl
    have hmin : minTransportLen hdr.protocol = 8 := by rw [hudp]; rfl
    rw [hoff]
    refine ⟨by omega, fun k h₁ h₂ => ⟨Or.inl (by omega), by omega, by omega, fun htcp => ?_⟩⟩
    exact absurd (htcp.symm.trans hudp) (by decide)

theorem Splittable.checked (h : Splittable pkt hdr isV6) : Checked pkt hdr := by
  refine ⟨h.transport, h.fits, ?_⟩
  have hin := h.csum_changes.1
  have hfits := h.fits
  rw [h.csumAt_toNat]
  omega

/-- A buffer with a segment in it, before the transport checksum. -/
def segmentFill (e : Endian) (pkt : Bytes) (hdr : VirtioNetHdr) (isV6 : Bool)
    (firstTCPSeqNum : BitVec 32) (i dataAt : ℕ) (out : Bytes) : Bytes :=
  let size := segmentDataLen pkt hdr dataAt
  let out := patch out 0 (field pkt 0 hdr.csumStart.toNat)
  let out := ipFields e isV6 hdr.csumStart.toNat i (hdr.hdrLen.toNat + size) out
  let out := patch out hdr.csumStart.toNat
    (field pkt hdr.csumStart.toNat (hdr.hdrLen.toNat - hdr.csumStart.toNat))
  let out := transportFields hdr firstTCPSeqNum i size (dataAt + size = pkt.length) out
  patch out hdr.hdrLen.toNat ((field pkt dataAt size).take (out.length - hdr.hdrLen.toNat))

@[simp] theorem segmentFill_length (e : Endian) (pkt : Bytes) (hdr : VirtioNetHdr) (isV6 : Bool)
    (firstTCPSeqNum : BitVec 32) (i dataAt : ℕ) (out : Bytes) :
    (segmentFill e pkt hdr isV6 firstTCPSeqNum i dataAt out).length = out.length := by
  simp [segmentFill]

/-- The sum of the pseudo header of a segment with `size` bytes of data. -/
def pseudoSum (e : Endian) (pkt : Bytes) (hdr : VirtioNetHdr) (isV6 : Bool) (size : ℕ) :
    BitVec 64 :=
  pseudoHeaderChecksumNoFold e hdr.protocol (field pkt (addrLayout isV6).1 (addrLayout isV6).2)
    (field pkt ((addrLayout isV6).1 + (addrLayout isV6).2) (addrLayout isV6).2)
    (BitVec.ofNat 16 ((hdr.hdrLen - hdr.csumStart).toNat + size))

theorem Splittable.pseudoSum_append (h : Splittable pkt hdr isV6) (e : Endian) (spare : Bytes)
    (size : ℕ) :
    pseudoSum e (pkt ++ spare) hdr isV6 size = pseudoSum e pkt hdr isV6 size := by
  have haddrs := h.addrs
  have hfits := h.fits
  have htransport := h.transport
  rw [pseudoSum, field_append_left _ (by omega), field_append_left _ (by omega)]
  rfl

theorem add_segmentDataLen (hdata : dataAt ≤ pkt.length) :
    min (dataAt + hdr.gsoSize.toNat) pkt.length = dataAt + segmentDataLen pkt hdr dataAt := by
  unfold segmentDataLen
  omega

theorem add_segmentDataLen_le (hdr : VirtioNetHdr) (hdata : dataAt ≤ pkt.length) :
    dataAt + segmentDataLen pkt hdr dataAt ≤ pkt.length := by
  unfold segmentDataLen
  omega

theorem segmentDataLen_anti (hle : off ≤ dataAt) :
    segmentDataLen pkt hdr dataAt ≤ segmentDataLen pkt hdr off := by
  unfold segmentDataLen
  omega

/-- The addresses and the room for the checksum are all that `gsoSegment` can lack. -/
theorem gsoSegment_eq (e : Endian) (spare : Bytes) (h : Checked pkt hdr)
    (firstTCPSeqNum : BitVec 32) (i : ℕ)
    (hdata : dataAt ≤ pkt.length) (h12 : 12 ≤ out.length) (hout : hdr.hdrLen.toNat ≤ out.length) :
    gsoSegment e pkt spare hdr isV6 hdr.protocol firstTCPSeqNum i dataAt out =
      if (addrLayout isV6).1 + (addrLayout isV6).2 * 2 ≤ (pkt ++ spare).length ∧
          hdr.hdrLen.toNat + segmentDataLen pkt hdr dataAt ≤ out.length ∧
          (hdr.csumStart + hdr.csumOffset).toNat + 2 ≤ out.length then
        let filled := segmentFill e pkt hdr isV6 firstTCPSeqNum i dataAt out
        let total := hdr.hdrLen.toNat + segmentDataLen pkt hdr dataAt
        some (patch filled (hdr.csumStart + hdr.csumOffset).toNat
          (be16 (~~~checksum e (field filled hdr.csumStart.toNat (total - hdr.csumStart.toNat))
            (pseudoSum e (pkt ++ spare) hdr isV6 (segmentDataLen pkt hdr dataAt)))), total)
      else none := by
  have htransport := h.transport
  have height := h.eight_le
  have hfits := h.fits
  have hend := add_segmentDataLen_le hdr hdata
  have hdst : (addrLayout isV6).1 + (addrLayout isV6).2 * 2 -
      ((addrLayout isV6).1 + (addrLayout isV6).2) = (addrLayout isV6).2 := by omega
  have hiph : (field pkt 0 hdr.csumStart.toNat).take out.length = field pkt 0 hdr.csumStart.toNat :=
    take_of_length_le (by rw [field_length (by omega)]; omega)
  unfold gsoSegment
  simp only [add_segmentDataLen hdata, bind_eq_bind]
  -- the header and the payload are within the packet: these slices are in range
  rw [sliceRange_append_left _ (Nat.zero_le _) (by omega : hdr.csumStart.toNat ≤ pkt.length),
    Option.bind_some,
    Nat.sub_zero, hiph, gsoIPHeader_eq e isV6 _ _ (by rw [patch_length]; exact h12)
      (by rw [patch_length]; omega),
    bind_some, sliceRange_append_left _ (by omega) hfits, bind_some,
    writeAt_eq_patch (by rw [field_length (by omega), ipFields_length, patch_length]; omega),
    bind_some, gsoTransportHeader_eq htransport _ _ _ _ (by simpa using hout), bind_some,
    sliceRange_append_left _ (by omega) hend, bind_some,
    sliceRange_eq (by simpa using hout) (Nat.le_refl _), Option.bind_some, Nat.add_sub_cancel_left,
    field_length (by simp only [transportFields_length, patch_length, ipFields_length]; omega)]
  change ((sliceRange (pkt ++ spare) (addrLayout isV6).1
    ((addrLayout isV6).1 + (addrLayout isV6).2)).bind fun srcAddr =>
    (sliceRange (pkt ++ spare) ((addrLayout isV6).1 + (addrLayout isV6).2)
      ((addrLayout isV6).1 + (addrLayout isV6).2 * 2)).bind fun dstAddr =>
    (sliceRange (segmentFill e pkt hdr isV6 firstTCPSeqNum i dataAt out) hdr.csumStart.toNat
      (hdr.hdrLen.toNat + segmentDataLen pkt hdr dataAt)).bind fun transport =>
    (writeAt (segmentFill e pkt hdr isV6 firstTCPSeqNum i dataAt out)
      (hdr.csumStart + hdr.csumOffset).toNat
      (be16 (~~~checksum e transport _))).bind fun out => some (out, _)) = _
  -- left are the addresses, the room for the segment and that for its checksum
  split_ifs with hroom
  · obtain ⟨haddr, htotal, hcsum⟩ := hroom
    rw [sliceRange_eq (by omega) (by omega), bind_some, sliceRange_eq (by omega) haddr, bind_some,
      sliceRange_eq (by omega) (by rw [segmentFill_length]; exact htotal), bind_some,
      writeAt_be16 _ (by rw [segmentFill_length]; exact hcsum), Option.bind_some,
      Nat.add_sub_cancel_left, hdst]
    rfl
  · by_cases haddr : (addrLayout isV6).1 + (addrLayout isV6).2 * 2 ≤ (pkt ++ spare).length
    · rw [sliceRange_eq (by omega) (by omega), bind_some, sliceRange_eq (by omega) haddr, bind_some]
      by_cases htotal : hdr.hdrLen.toNat + segmentDataLen pkt hdr dataAt ≤ out.length
      · have hcsum : ¬(hdr.csumStart + hdr.csumOffset).toNat + 2 ≤ out.length :=
          fun hcsum => hroom ⟨haddr, htotal, hcsum⟩
        rw [sliceRange_eq (by omega) (by rw [segmentFill_length]; exact htotal), bind_some, writeAt,
          if_neg (by rw [segmentFill_length, be16_length]; exact hcsum)]
        rfl
      · rw [sliceRange, if_neg (by rw [segmentFill_length]; omega)]
        rfl
    · cases sliceRange (pkt ++ spare) (addrLayout isV6).1
        ((addrLayout isV6).1 + (addrLayout isV6).2) with
      | none => rfl
      | some srcAddr =>
        rw [bind_some, sliceRange, if_neg (by omega)]
        rfl

theorem gsoIPHeader_length {out' : Bytes}
    (h : gsoIPHeader e isV6 iphLen i totalLen out = some out') : out'.length = out.length := by
  unfold gsoIPHeader at h
  cases isV6 with
  | true => exact writeAt_length h
  | false =>
    simp only [Bool.false_eq_true, if_false, bind_eq_bind] at h
    have htail : ∀ {out₁ : Bytes},
      ((writeAt out₁ 2 (be16 (BitVec.ofNat 16 totalLen))).bind fun out =>
        (sliceRange out 0 iphLen).bind fun iph => writeAt out 10 (be16 (~~~checksum e iph 0))) =
          some out' →
        out'.length = out₁.length := by
      intro out₁ h
      obtain ⟨out₂, h₂, h⟩ := bind_eq_some_iff.mp h
      obtain ⟨iph, -, h⟩ := bind_eq_some_iff.mp h
      rw [writeAt_length h, writeAt_length h₂]
    by_cases hi : i > 0
    · simp only [if_pos hi] at h
      obtain ⟨id, -, h⟩ := bind_eq_some_iff.mp h
      obtain ⟨out₁, h₁, h⟩ := bind_eq_some_iff.mp h
      rw [htail h, writeAt_length h₁]
    · simp only [if_neg hi] at h
      exact htail h

theorem gsoSegment_fits {protocol : Byte}
    {r : Bytes × ℕ}
    (h : gsoSegment e pkt spare hdr isV6 protocol firstTCPSeqNum i dataAt out = some r) :
    hdr.hdrLen.toNat ≤ out.length := by
  unfold gsoSegment at h
  simp only [bind_eq_bind] at h
  obtain ⟨iph, -, h⟩ := bind_eq_some_iff.mp h
  obtain ⟨out₁, hout₁, h⟩ := bind_eq_some_iff.mp h
  obtain ⟨transport, htransport, h⟩ := bind_eq_some_iff.mp h
  obtain ⟨out₂, hout₂, -⟩ := bind_eq_some_iff.mp h
  have hfits := writeAt_fits hout₂
  rw [gsoIPHeader_length hout₁, patch_length] at hfits
  unfold sliceRange at htransport
  split_ifs at htransport with hrange
  cases htransport
  rw [field_length (by omega)] at hfits
  omega

section Fill

variable {e : Endian} {firstTCPSeqNum : BitVec 32} {i dataAt : ℕ} {out : Bytes}

theorem segmentFill_ip (h : Checked pkt hdr) {k : ℕ} (hk : k < hdr.csumStart.toNat) :
    (segmentFill e pkt hdr isV6 firstTCPSeqNum i dataAt out)[k]? =
      (ipFields e isV6 hdr.csumStart.toNat i (hdr.hdrLen.toNat + segmentDataLen pkt hdr dataAt)
        (patch out 0 (field pkt 0 hdr.csumStart.toNat)))[k]? := by
  have height := h.eight_le
  simp only [segmentFill]
  rw [patch_getElem?_of_outside _ (Or.inl (by omega)), transportFields_getElem? (Or.inl hk),
    patch_getElem?_of_outside _ (Or.inl hk)]

/-- The transport header in a filled buffer: fields of the segment over those of the packet. -/
theorem segmentFill_transport (e : Endian) (isV6 : Bool) (firstTCPSeqNum : BitVec 32) (i dataAt : ℕ)
    (h : Checked pkt hdr) (hout : hdr.hdrLen.toNat ≤ out.length) :
    ∃ out₁ : Bytes, out₁.length = out.length ∧
      (∀ k, hdr.csumStart.toNat ≤ k → k < hdr.hdrLen.toNat → out₁[k]? = pkt[k]?) ∧
      ∀ k, k < hdr.hdrLen.toNat → (segmentFill e pkt hdr isV6 firstTCPSeqNum i dataAt out)[k]? =
        (transportFields hdr firstTCPSeqNum i (segmentDataLen pkt hdr dataAt)
          (dataAt + segmentDataLen pkt hdr dataAt = pkt.length) out₁)[k]? := by
  have height := h.eight_le
  have hfits := h.fits
  let front :=
    ipFields e isV6 hdr.csumStart.toNat i (hdr.hdrLen.toNat + segmentDataLen pkt hdr dataAt)
    (patch out 0 (field pkt 0 hdr.csumStart.toNat))
  have hfront : front.length = out.length := by simp [front]
  refine ⟨patch front hdr.csumStart.toNat
    (field pkt hdr.csumStart.toNat (hdr.hdrLen.toNat - hdr.csumStart.toNat)), by simp [front], ?_,
    ?_⟩
  · intro k h₁ h₂
    have hcopy := patch_field_getElem? (b := front) (a := pkt) (i := k)
        (n := hdr.hdrLen.toNat - hdr.csumStart.toNat)
      (by omega : hdr.csumStart.toNat + _ ≤ _) (by omega : hdr.csumStart.toNat + _ ≤ _) h₁
        (by omega)
    rwa [Nat.add_sub_cancel' h₁] at hcopy
  · intro k hk
    simp only [segmentFill]
    exact patch_getElem?_of_outside _ (Or.inl hk)

theorem segmentFill_header (h : Checked pkt hdr) (hout : hdr.hdrLen.toNat ≤ out.length) {k : ℕ}
    (hk : k < hdr.hdrLen.toNat) (hip : ¬IPChanges isV6 k)
    (htransport : k < hdr.csumStart.toNat ∨
      ¬TransportChanges hdr.protocol (k - hdr.csumStart.toNat)) :
    (segmentFill e pkt hdr isV6 firstTCPSeqNum i dataAt out)[k]? = pkt[k]? := by
  have hfits := h.fits
  have height := h.eight_le
  rcases lt_or_ge k hdr.csumStart.toNat with hlt | hge
  · have hcopy := patch_field_getElem? (b := out) (a := pkt) (i := k) (n := hdr.csumStart.toNat)
      (by omega : 0 + _ ≤ _) (by omega : 0 + _ ≤ _) (zero_le k) (by omega)
    rw [segmentFill_ip h hlt, ipFields_getElem? e hip, hcopy, Nat.zero_add, Nat.sub_zero]
  · obtain ⟨out₁, -, hsame, hfill⟩ := segmentFill_transport e isV6 firstTCPSeqNum i dataAt h hout
    rw [hfill k hk, transportFields_getElem? htransport, hsame k hge hk]

theorem segmentFill_payload (hdata : dataAt ≤ pkt.length)
    (hout : hdr.hdrLen.toNat + segmentDataLen pkt hdr dataAt ≤ out.length) {k : ℕ}
    (hk : k < segmentDataLen pkt hdr dataAt) :
    (segmentFill e pkt hdr isV6 firstTCPSeqNum i dataAt out)[hdr.hdrLen.toNat + k]? =
      pkt[dataAt + k]? := by
  have hend := add_segmentDataLen_le hdr hdata
  simp only [segmentFill]
  rw [take_of_length_le]
  · rw [patch_field_getElem? hend (by simpa using hout) (by omega) (by omega),
      Nat.add_sub_cancel_left]
  · rw [field_length hend]
    simp only [transportFields_length, patch_length, ipFields_length]
    omega

end Fill

theorem gsoSegment_spec (e : Endian) (spare : Bytes) (h : Splittable pkt hdr isV6)
    (hfirst : hdr.protocol = ipprotoTCP → firstTCPSeqNum = be32At pkt (hdr.csumStart.toNat + 4))
    (i : ℕ) (hdata : dataAt ≤ pkt.length)
    (hout : hdr.hdrLen.toNat + segmentDataLen pkt hdr dataAt ≤ out.length) :
    ∃ out', gsoSegment e pkt spare hdr isV6 hdr.protocol firstTCPSeqNum i dataAt out =
        some (out', hdr.hdrLen.toNat + segmentDataLen pkt hdr dataAt) ∧
      out'.length = out.length ∧ IsSegment pkt hdr isV6 i dataAt out' := by
  have hchecked := h.checked
  have hiph := h.iph
  have height := hchecked.eight_le
  have hfits := h.fits
  have haddrs := h.addrs
  obtain ⟨hcsumIn, hcsumChanges⟩ := h.csum_changes
  have hcsumTCP : hdr.protocol = ipprotoTCP → 16 ≤ (transportCsumOffset hdr.protocol).toNat :=
    (hcsumChanges _ (le_refl _) (by omega)).2.2.2
  have hmin : hdr.protocol = ipprotoTCP → hdr.csumStart.toNat + 20 ≤ hdr.hdrLen.toNat :=
    fun htcp => by
    have htransport := h.transport
    rwa [htcp] at htransport
  obtain ⟨out₁, hlen₁, hsame₁, hfill⟩ :=
    segmentFill_transport e isV6 firstTCPSeqNum i dataAt hchecked
    (by omega : hdr.hdrLen.toNat ≤ out.length)
  rw [gsoSegment_eq e spare hchecked _ _ hdata (by omega) (by omega),
    if_pos ⟨by rw [length_append]; omega, hout, by rw [h.csumAt_toNat]; omega⟩, h.csumAt_toNat]
  -- the checksum is the last field to be written
  have hsame : ∀ v k, ¬(hdr.csumStart.toNat + (transportCsumOffset hdr.protocol).toNat ≤ k ∧
      k < hdr.csumStart.toNat + (transportCsumOffset hdr.protocol).toNat + 2) →
      (patch (segmentFill e pkt hdr isV6 firstTCPSeqNum i dataAt out)
        (hdr.csumStart.toNat + (transportCsumOffset hdr.protocol).toNat) (be16 v))[k]? =
      (segmentFill e pkt hdr isV6 firstTCPSeqNum i dataAt out)[k]? :=
    fun v k hk => patch_be16_getElem? _ _ hk
  refine ⟨_, rfl, by simp, ?_, ?_, ?_, ?_⟩
  · -- the header, with what the transport keeps
    intro k hk hip htransport
    rw [hsame _ k ?_, segmentFill_header hchecked (by omega) hk hip htransport]
    intro hin
    rcases htransport with hlt | hnot
    · omega
    · exact hnot (hcsumChanges _ (by omega) (by omega)).1
  · -- the sequence number, in front of the checksum
    intro htcp
    have h16 := hcsumTCP htcp
    have h20 := hmin htcp
    have hseq := tcpFields_seq (firstTCPSeqNum + (hdr.gsoSize * BitVec.ofNat 16 i).setWidth 32)
      (dataAt + segmentDataLen pkt hdr dataAt = pkt.length)
      (by omega : hdr.csumStart.toNat + 8 ≤ out₁.length)
    rw [← hfirst htcp, ← hseq, be32At, be32At]
    congr 2
    apply field_congr
    intro k h₁ h₂
    rw [hsame _ k (by omega), hfill k (by omega), transportFields, if_pos htcp]
  · -- the flags, in front of it too
    intro htcp
    have h16 := hcsumTCP htcp
    have h20 := hmin htcp
    rw [byteAt_congr (hsame _ (hdr.csumStart.toNat + 13) (by omega)),
      byteAt_congr (hfill _ (by omega)), transportFields, if_pos htcp, tcpFields_flags (by omega),
      byteAt_congr (hsame₁ (hdr.csumStart.toNat + 13) (by omega) (by omega))]
    simp only [decide_eq_true_eq]
  · intro k hk
    rw [hsame _ _ (by omega), segmentFill_payload hdata hout hk]

theorem gsoSegment_room {r : Bytes × ℕ} (h : Splittable pkt hdr isV6) (hdata : dataAt ≤ pkt.length)
    (hseg : gsoSegment e pkt spare hdr isV6 hdr.protocol firstTCPSeqNum i dataAt out = some r) :
    hdr.hdrLen.toNat + segmentDataLen pkt hdr dataAt ≤ out.length := by
  have hiph := h.iph
  have height := h.checked.eight_le
  have hfits := gsoSegment_fits hseg
  rw [gsoSegment_eq e spare h.checked _ _ hdata (by omega) hfits] at hseg
  by_contra hroom
  rw [if_neg fun hall => hroom hall.2.1] at hseg
  cases hseg

theorem gsoSegment_segment (h : Splittable pkt hdr isV6)
    (hfirst : hdr.protocol = ipprotoTCP → firstTCPSeqNum = be32At pkt (hdr.csumStart.toNat + 4))
    (hdata : dataAt ≤ pkt.length) {out' : Bytes} {size : ℕ}
    (hseg : gsoSegment e pkt spare hdr isV6 hdr.protocol firstTCPSeqNum i dataAt out =
      some (out', size)) :
    size = hdr.hdrLen.toNat + segmentDataLen pkt hdr dataAt ∧ size ≤ out'.length ∧
      IsSegment pkt hdr isV6 i dataAt out' := by
  have hroom := gsoSegment_room h hdata hseg
  obtain ⟨out₁, hout₁, hlen, hsegment⟩ := gsoSegment_spec e spare h hfirst i hdata hroom
  cases some.inj (hseg.symm.trans hout₁)
  exact ⟨rfl, hlen ▸ hroom, hsegment⟩

theorem IsSegment.take (hseg : IsSegment pkt hdr isV6 i dataAt out) (h : Splittable pkt hdr isV6) :
    IsSegment pkt hdr isV6 i dataAt
      (out.take (hdr.hdrLen.toNat + segmentDataLen pkt hdr dataAt)) := by
  have htransport := h.transport
  have hmin : hdr.protocol = ipprotoTCP → minTransportLen hdr.protocol = 20 := fun htcp => by
    rw [htcp]
    rfl
  constructor
  · intro k hk hip hchange
    rw [getElem?_take_of_lt (by omega)]
    exact hseg.header k hk hip hchange
  · intro htcp
    have := hmin htcp
    rw [be32At, field_take (by omega)]
    exact hseg.seq htcp
  · intro htcp
    have := hmin htcp
    rw [byteAt_take (by omega)]
    exact hseg.flags htcp
  · intro k hk
    rw [getElem?_take_of_lt (by omega)]
    exact hseg.payload k hk

structure SameButChecksums (hdr : VirtioNetHdr) (isV6 : Bool) (pkt' pkt : Bytes) : Prop where
  length : pkt'.length = pkt.length
  getElem? : ∀ k, ¬(isV6 = false ∧ 10 ≤ k ∧ k < 12) →
    ¬(hdr.csumStart.toNat + (transportCsumOffset hdr.protocol).toNat ≤ k ∧
      k < hdr.csumStart.toNat + (transportCsumOffset hdr.protocol).toNat + 2) → pkt'[k]? = pkt[k]?

section SameButChecksums

variable {pkt' : Bytes}

theorem SameButChecksums.segmentDataLen_eq (hsame : SameButChecksums hdr isV6 pkt' pkt)
    (dataAt : ℕ) :
    segmentDataLen pkt' hdr dataAt = segmentDataLen pkt hdr dataAt := by
  rw [segmentDataLen, segmentDataLen, hsame.length]

theorem SameButChecksums.splittable (hsame : SameButChecksums hdr isV6 pkt' pkt)
    (h : Splittable pkt hdr isV6) :
    Splittable pkt' hdr isV6 :=
  { h with fits := hsame.length ▸ h.fits, short := hsame.length ▸ h.short }

theorem SameButChecksums.header (hsame : SameButChecksums hdr isV6 pkt' pkt)
    (h : Splittable pkt hdr isV6) {k : ℕ} (hip : ¬IPChanges isV6 k)
    (hchange : k < hdr.csumStart.toNat ∨ ¬TransportChanges hdr.protocol (k - hdr.csumStart.toNat)) :
    pkt'[k]? = pkt[k]? := by
  refine hsame.getElem? k (fun hin => hip (Or.inr ⟨hin.1, Or.inr hin.2⟩)) fun hin => ?_
  rcases hchange with hlt | hnot
  · omega
  · exact hnot (h.csum_changes.2 _ (by omega) (by omega)).1

theorem SameButChecksums.tcp (hsame : SameButChecksums hdr isV6 pkt' pkt)
    (h : Splittable pkt hdr isV6) (htcp : hdr.protocol = ipprotoTCP) :
    be32At pkt' (hdr.csumStart.toNat + 4) = be32At pkt (hdr.csumStart.toNat + 4) ∧
      byteAt pkt' (hdr.csumStart.toNat + 13) = byteAt pkt (hdr.csumStart.toNat + 13) := by
  have hiph := h.iph
  have h16 := (h.csum_changes.2 _ (le_refl _) (by omega)).2.2.2 htcp
  refine ⟨?_, byteAt_congr (hsame.getElem? _ (by omega) (by omega))⟩
  rw [be32At, be32At, field_congr fun k _ _ => hsame.getElem? k (by omega) (by omega)]

theorem SameButChecksums.payload (hsame : SameButChecksums hdr isV6 pkt' pkt)
    (h : Splittable pkt hdr isV6) {k : ℕ} (hk : hdr.hdrLen.toNat ≤ k) : pkt'[k]? = pkt[k]? := by
  have hiph := h.iph
  have hcsumIn := h.csum_changes.1
  exact hsame.getElem? k (by omega) (by omega)

theorem IsSegment.congr {i dataAt : ℕ} {out : Bytes} (hseg : IsSegment pkt' hdr isV6 i dataAt out)
    (h : Splittable pkt hdr isV6) (hdata : hdr.hdrLen.toNat ≤ dataAt)
    (hsame : SameButChecksums hdr isV6 pkt' pkt) :
    IsSegment pkt hdr isV6 i dataAt out := by
  have hsize := hsame.segmentDataLen_eq dataAt
  constructor
  · intro k hk hip hchange
    rw [hseg.header k hk hip hchange, hsame.header h hip hchange]
  · intro htcp
    rw [hseg.seq htcp, (hsame.tcp h htcp).1]
  · intro htcp
    rw [hseg.flags htcp, hsize, hsame.length, (hsame.tcp h htcp).2]
  · intro k hk
    rw [hseg.payload k (hsize ▸ hk), hsame.payload h (by omega)]

end SameButChecksums

/-! ## §4 All segments -/

/-- The packets in the buffers that have been written. -/
def GsoResult.packets (outOffset : ℕ) (r : GsoResult) : List Bytes :=
  r.written.map fun (buf, size) => (buf.drop outOffset).take size

/-- The packets that are cut from `dataAt` on, with a property of each. -/
inductive Cut (pkt : Bytes) (hdr : VirtioNetHdr) (P : ℕ → ℕ → Bytes → Prop) :
    ℕ → ℕ → List Bytes → Prop
  | nil {i dataAt : ℕ} (hend : pkt.length ≤ dataAt) : Cut pkt hdr P i dataAt []
  | cons {i dataAt : ℕ} {out : Bytes} {outs : List Bytes} (hdata : dataAt < pkt.length)
      (hlen : out.length = hdr.hdrLen.toNat + segmentDataLen pkt hdr dataAt) (hout : P i dataAt out)
      (rest : Cut pkt hdr P (i + 1) (dataAt + hdr.gsoSize.toNat) outs) :
        Cut pkt hdr P i dataAt (out :: outs)

/-- The segments of a packet from `dataAt` on, in order. -/
abbrev Segments (pkt : Bytes) (hdr : VirtioNetHdr) (isV6 : Bool) : ℕ → ℕ → List Bytes → Prop :=
  Cut pkt hdr (IsSegment pkt hdr isV6)

theorem Cut.congr {pkt' : Bytes} {Q : ℕ → ℕ → Bytes → Prop}
    (h : Cut pkt hdr P i dataAt outs) (hlen : pkt'.length = pkt.length) {low : ℕ}
    (hdata : dataAt = low + hdr.gsoSize.toNat * i)
    (himp : ∀ i dataAt out, dataAt = low + hdr.gsoSize.toNat * i → P i dataAt out →
      Q i dataAt out) :
    Cut pkt' hdr Q i dataAt outs := by
  induction h with
  | nil hend => exact Cut.nil (by omega)
  | cons hmore hout hP _ ih =>
    refine Cut.cons (by omega) ?_ (himp _ _ _ hdata hP) (ih ?_)
    · rw [hout, segmentDataLen, segmentDataLen, hlen]
    · rw [hdata, Nat.mul_succ, Nat.add_assoc]

theorem Cut.get (h : Cut pkt hdr P i dataAt outs)
    (hj : outs[j]? = some out) : P (i + j) (dataAt + hdr.gsoSize.toNat * j) out := by
  induction h generalizing j with
  | nil => cases hj
  | @cons i dataAt _ _ _ _ hout _ ih =>
    cases j with
    | zero =>
      cases hj
      simpa using hout
    | succ j =>
      have hrest := ih hj
      have hindex : i + 1 + j = i + (j + 1) := by omega
      have hat : dataAt + hdr.gsoSize.toNat + hdr.gsoSize.toNat * j =
          dataAt + hdr.gsoSize.toNat * (j + 1) := by
        rw [Nat.mul_succ]
        omega
      rwa [hindex, hat] at hrest

theorem Cut.length_eq (h : Cut pkt hdr P i dataAt outs) (hsize : 0 < hdr.gsoSize.toNat) :
    outs.length = (pkt.length - dataAt + hdr.gsoSize.toNat - 1) / hdr.gsoSize.toNat := by
  induction h with
  | nil hend =>
    rw [Nat.sub_eq_zero_of_le hend, Nat.zero_add, List.length_nil]
    exact (div_eq_of_lt (by omega)).symm
  | @cons i dataAt _ _ hdata _ _ _ ih =>
    have hstep : pkt.length - dataAt + hdr.gsoSize.toNat - 1 =
        pkt.length - dataAt - 1 + hdr.gsoSize.toNat := by omega
    rw [length_cons, ih, hstep, add_div_right _ hsize]
    congr 1
    -- one segment less is one division step less
    rcases lt_or_ge (dataAt + hdr.gsoSize.toNat) pkt.length with hmore | hlast
    · congr 1
      omega
    · rw [div_eq_of_lt (by omega), div_eq_of_lt (by omega)]

theorem Cut.lt_length
    (h : Cut pkt hdr P i dataAt outs) (hj : dataAt + hdr.gsoSize.toNat * j < pkt.length) :
    j < outs.length := by
  induction h generalizing j with
  | nil hend => omega
  | cons _ _ _ _ ih =>
    cases j with
    | zero => exact zero_lt_succ _
    | succ j =>
      rw [Nat.mul_succ] at hj
      exact succ_lt_succ (ih (by omega))

theorem Cut.lt_of_getElem? (h : Cut pkt hdr P i dataAt outs) (hj : outs[j]? = some out) :
    dataAt + hdr.gsoSize.toNat * j < pkt.length := by
  induction h generalizing j with
  | nil => cases hj
  | cons hdata _ _ _ ih =>
    cases j with
    | zero => simpa using hdata
    | succ j =>
      have := ih hj
      rw [Nat.mul_succ]
      omega

/-! ### The loop -/

section Loop

variable {e : Endian} {outOffset : ℕ} {protocol : Byte} {firstTCPSeqNum : BitVec 32} {i dataAt : ℕ}
  {buf : Bytes} {outBuffs : List Bytes} {r : GsoResult}

theorem gsoLoop_cons
    (h : gsoLoop e pkt spare hdr outOffset isV6 protocol firstTCPSeqNum i dataAt
      (buf :: outBuffs) = some r)
    (hmore : dataAt < pkt.length) : ∃ out size rest, outOffset ≤ buf.length ∧
      gsoSegment e pkt spare hdr isV6 protocol firstTCPSeqNum i dataAt
        (field buf outOffset (buf.length - outOffset)) = some (out, size) ∧
      gsoLoop e pkt spare hdr outOffset isV6 protocol firstTCPSeqNum (i + 1)
        (dataAt + hdr.gsoSize.toNat) outBuffs = some rest ∧
      r = { rest with written := (buf.take outOffset ++ out, size) :: rest.written } := by
  unfold gsoLoop at h
  rw [if_pos hmore] at h
  simp only [bind_eq_bind] at h
  obtain ⟨room, hslice, h⟩ := bind_eq_some_iff.mp h
  obtain ⟨⟨out, size⟩, hseg, h⟩ := bind_eq_some_iff.mp h
  obtain ⟨rest, hrest, h⟩ := bind_eq_some_iff.mp h
  cases h
  unfold sliceRange at hslice
  split_ifs at hslice with hrange
  cases hslice
  exact ⟨out, size, rest, hrange.1, hseg, hrest, rfl⟩

theorem gsoLoop_end (hend : ¬dataAt < pkt.length)
    (h : gsoLoop e pkt spare hdr outOffset isV6 protocol firstTCPSeqNum i dataAt outBuffs =
      some r) :
    r = { written := [], count := i, tooManySegments := false } := by
  cases outBuffs with
  | nil =>
    rw [gsoLoop, if_neg hend] at h
    exact (some.inj h).symm
  | cons buf outBuffs =>
    rw [gsoLoop, if_neg hend] at h
    exact (some.inj h).symm

/-- The loop panics exactly when the writing of a segment does. -/
theorem gsoLoop_ne_none_iff :
    gsoLoop e pkt spare hdr outOffset isV6 protocol firstTCPSeqNum i dataAt outBuffs ≠ none ↔
      ∀ j buf, outBuffs[j]? = some buf → dataAt + hdr.gsoSize.toNat * j < pkt.length →
        outOffset ≤ buf.length ∧
        gsoSegment e pkt spare hdr isV6 protocol firstTCPSeqNum (i + j)
          (dataAt + hdr.gsoSize.toNat * j)
          (field buf outOffset (buf.length - outOffset)) ≠ none := by
  induction outBuffs generalizing i dataAt with
  | nil =>
    unfold gsoLoop
    split_ifs <;> simp
  | cons buf outBuffs ih =>
    unfold gsoLoop
    by_cases hmore : dataAt < pkt.length
    · rw [if_pos hmore]
      simp only [Option.bind_eq_bind, bind_ne_none_iff]
      constructor
      · -- the segment of buffer `j + 1` is that of buffer `j` in the rest of the loop
        rintro ⟨out, hslice, ⟨out', size⟩, hseg, r, hloop, -⟩ j buf' hbuf hdata
        unfold sliceRange at hslice
        split_ifs at hslice with hrange
        cases hslice
        cases j with
        | zero =>
          cases hbuf
          rw [Nat.mul_zero, Nat.add_zero, Nat.add_zero, hseg]
          exact ⟨hrange.1, by simp⟩
        | succ j =>
          have hrest :=
            ih.mp (by rw [hloop]; simp) j buf' hbuf (by rw [Nat.mul_succ] at hdata; omega)
          rw [Nat.mul_succ, Nat.add_comm j 1, ← Nat.add_assoc i,
            Nat.add_comm (hdr.gsoSize.toNat * j), ← Nat.add_assoc dataAt]
          exact hrest
      · intro h
        obtain ⟨hoffset, hseg⟩ := h 0 buf rfl (by simpa using hmore)
        rw [Nat.mul_zero, Nat.add_zero, Nat.add_zero] at hseg
        obtain ⟨r₁, hr₁⟩ := Option.ne_none_iff_exists'.mp hseg
        have hrest : gsoLoop e pkt spare hdr outOffset isV6 protocol firstTCPSeqNum (i + 1)
            (dataAt + hdr.gsoSize.toNat) outBuffs ≠ none := ih.mpr fun j buf' hbuf hdata => by
          have hj := h (j + 1) buf' hbuf (by rw [Nat.mul_succ]; omega)
          rw [Nat.mul_succ, Nat.add_comm j 1, ← Nat.add_assoc i,
            Nat.add_comm (hdr.gsoSize.toNat * j), ← Nat.add_assoc dataAt] at hj
          exact hj
        obtain ⟨r₂, hr₂⟩ := Option.ne_none_iff_exists'.mp hrest
        exact ⟨_, sliceRange_eq hoffset (Nat.le_refl _), r₁, hr₁, r₂, hr₂, by simp⟩
    · rw [if_neg hmore]
      refine ⟨fun _ j buf' _ hdata => ?_, fun _ => by simp⟩
      omega

/-- The count of the loop: one less than the filled buffers, when a segment is left. -/
theorem gsoLoop_count
    (h : gsoLoop e pkt spare hdr outOffset isV6 protocol firstTCPSeqNum i dataAt outBuffs =
      some r) :
    (pkt.length ≤ dataAt + hdr.gsoSize.toNat * outBuffs.length →
      r.tooManySegments = false ∧ r.count = i + r.written.length) ∧
    (dataAt + hdr.gsoSize.toNat * outBuffs.length < pkt.length →
      r.tooManySegments = true ∧ r.count = i + r.written.length - 1 ∧
        r.written.length = outBuffs.length) := by
  induction outBuffs generalizing i dataAt r with
  | nil =>
    unfold gsoLoop at h
    simp only [length_nil]
    split_ifs at h with hmore
    · -- no buffer is left for what remains: the index of the last segment is returned
      cases h
      exact ⟨fun hle => absurd hmore (Nat.not_lt_of_le hle), fun _ => ⟨rfl, by simp, rfl⟩⟩
    · cases h
      exact ⟨fun _ => ⟨rfl, by simp⟩, fun hlt => absurd hlt hmore⟩
  | cons buf outBuffs ih =>
    by_cases hmore : dataAt < pkt.length
    · obtain ⟨out, size, rest, -, -, hrest, rfl⟩ := gsoLoop_cons h hmore
      obtain ⟨hfits, hleft⟩ := ih hrest
      rw [List.length_cons, List.length_cons, Nat.mul_succ]
      refine ⟨fun hle => ?_, fun hlt => ?_⟩
      · obtain ⟨hfew, hcount⟩ := hfits (by omega)
        refine ⟨hfew, ?_⟩
        dsimp only
        rw [hcount]
        push_cast
        ring
      · obtain ⟨hmany, hcount, hall⟩ := hleft (by omega)
        refine ⟨hmany, ?_, by rw [hall]⟩
        dsimp only
        rw [hcount]
        push_cast
        ring
    · rw [gsoLoop_end hmore h]
      exact ⟨fun _ => ⟨rfl, by simp⟩, fun hlt => by omega⟩

/-- The loop has cut the packet, when it returns without `ErrTooManySegments`. -/
theorem cut_of_gsoLoop {P : ℕ → ℕ → Bytes → Prop}
    (hseg : ∀ i dataAt (out out' : Bytes) size, hdr.hdrLen.toNat ≤ dataAt → dataAt < pkt.length →
      gsoSegment e pkt spare hdr isV6 protocol firstTCPSeqNum i dataAt out = some (out', size) →
      size = hdr.hdrLen.toNat + segmentDataLen pkt hdr dataAt ∧ size ≤ out'.length ∧
        P i dataAt (out'.take size))
    (hdata : hdr.hdrLen.toNat ≤ dataAt)
    (h : gsoLoop e pkt spare hdr outOffset isV6 protocol firstTCPSeqNum i dataAt outBuffs = some r)
    (hfew : r.tooManySegments = false) :
    r.written.map Prod.snd = (r.packets outOffset).map List.length ∧
    Cut pkt hdr P i dataAt (r.packets outOffset) := by
  induction outBuffs generalizing i dataAt r with
  | nil =>
    by_cases hmore : dataAt < pkt.length
    · rw [gsoLoop, if_pos hmore] at h
      cases h
      cases hfew
    · rw [gsoLoop_end hmore h]
      exact ⟨rfl, Cut.nil (Nat.le_of_not_lt hmore)⟩
  | cons buf outBuffs ih =>
    by_cases hmore : dataAt < pkt.length
    · obtain ⟨out, size, rest, hoffset, hout, hrest, rfl⟩ := gsoLoop_cons h hmore
      -- one segment, in front of what the rest of the loop writes
      obtain ⟨hsize, hle, hP⟩ := hseg i dataAt _ out size hdata hmore hout
      obtain ⟨hsizes, hcut⟩ := ih (by omega) hrest hfew
      have hdrop : (buf.take outOffset ++ out).drop outOffset = out :=
        drop_left' (by rw [length_take]; omega)
      have hlen : (out.take size).length = size := by
        rw [length_take]
        omega
      constructor
      · show size :: rest.written.map Prod.snd =
          (((buf.take outOffset ++ out).drop outOffset).take size).length ::
            (rest.packets outOffset).map length
        rw [hdrop, hlen, hsizes]
      · show Cut pkt hdr P i dataAt ((((buf.take outOffset ++ out).drop outOffset).take size) ::
          rest.packets outOffset)
        rw [hdrop]
        exact Cut.cons hmore (hlen.trans hsize) hP hcut
    · rw [gsoLoop_end hmore h]
      exact ⟨rfl, Cut.nil (Nat.le_of_not_lt hmore)⟩

end Loop

theorem gsoClear_spec (h : Splittable pkt hdr isV6) :
    ∃ cleared, gsoClear pkt hdr isV6 = some cleared ∧ SameButChecksums hdr isV6 cleared pkt := by
  have hiph := h.iph
  have hfits := h.fits
  have hcsumIn := h.csum_changes.1
  have hwrite : ∀ (b : Bytes) off, off + 2 ≤ b.length →
      writeAt b off [0, 0] = some (patch b off [0, 0]) := fun b off hb => writeAt_eq_patch hb
  have hkeep : ∀ (b : Bytes) off k, ¬(off ≤ k ∧ k < off + 2) →
      (patch b off [0, 0])[k]? = b[k]? := by
    intro b off k hk
    apply patch_getElem?_of_outside
    simp only [length_cons, length_nil]
    omega
  unfold gsoClear
  rw [h.csumAt_toNat]
  cases isV6 with
  | true =>
    exact ⟨_, hwrite pkt _ (by omega), patch_length _ _ _, fun k _ hk => hkeep _ _ k hk⟩
  | false =>
    rw [if_neg (by simp), hwrite pkt 10 (by omega), bind_eq_bind, bind_some]
    refine ⟨_, hwrite _ _ (by rw [patch_length]; omega), by rw [patch_length, patch_length], ?_⟩
    intro k h₁ h₂
    rw [hkeep _ _ k h₂, hkeep _ _ k fun hin => h₁ ⟨rfl, hin⟩]

theorem gsoSplit_eq (e : Endian) (spare : Bytes)
    (h : hdr.csumStart.toNat + minTransportLen hdr.protocol ≤ hdr.hdrLen.toNat)
    (hfits : hdr.hdrLen.toNat ≤ pkt.length) (outOffset : ℕ) (outBuffs : List Bytes)
    {cleared : Bytes}
    (hclear : gsoClear pkt hdr isV6 = some cleared) (hlen : cleared.length = pkt.length) :
    ∃ firstTCPSeqNum,
      (hdr.protocol = ipprotoTCP → firstTCPSeqNum = be32At cleared (hdr.csumStart.toNat + 4)) ∧
      gsoSplit e pkt spare hdr outBuffs outOffset isV6 =
        gsoLoop e cleared spare hdr outOffset isV6 hdr.protocol firstTCPSeqNum 0 hdr.hdrLen.toNat
          outBuffs := by
  have hmin := eight_le_minTransportLen hdr.protocol
  unfold gsoSplit
  rw [hclear, bind_eq_bind, bind_some]
  by_cases htype : hdr.gsoType = gsoTCPv4 ∨ hdr.gsoType = gsoTCPv6
  · have hprotocol : hdr.protocol = ipprotoTCP := if_pos htype
    have hseqAt : (hdr.csumStart + 4).toNat = hdr.csumStart.toNat + 4 :=
      csumStart_add_toNat h (k := 4) (by omega)
    have hread : readBE32 cleared (hdr.csumStart.toNat + 4) =
        some (be32At cleared (hdr.csumStart.toNat + 4)) := if_pos (by omega)
    refine ⟨_, fun _ => rfl, ?_⟩
    simp only [htype, if_true, hseqAt, hread, bind_eq_bind, bind_some, hprotocol]
  · have hprotocol : hdr.protocol = ipprotoUDP := if_neg htype
    refine ⟨0, fun htcp => absurd (hprotocol.symm.trans htcp) (by decide), ?_⟩
    simp only [htype, if_false, bind_eq_bind, bind_some, hprotocol]

/-- With buffers for all segments, `gsoSplit` cuts the packet.  A property that `gsoSegment` gives
to the segments of the packet without its checksums is one of all packets. -/
theorem gsoSplit_cut_of (e : Endian) (spare : Bytes) (h : Splittable pkt hdr isV6) {outOffset : ℕ}
    {outBuffs : List Bytes} (hroom : ∀ buf ∈ outBuffs,
      outOffset + (hdr.hdrLen.toNat + segmentDataLen pkt hdr hdr.hdrLen.toNat) ≤ buf.length)
    (henough : pkt.length ≤ hdr.hdrLen.toNat + hdr.gsoSize.toNat * outBuffs.length)
    (hseg : ∀ cleared first, gsoClear pkt hdr isV6 = some cleared →
      SameButChecksums hdr isV6 cleared pkt →
      (hdr.protocol = ipprotoTCP → first = be32At cleared (hdr.csumStart.toNat + 4)) →
      ∀ i dataAt (out out' : Bytes) size, hdr.hdrLen.toNat ≤ dataAt → dataAt < cleared.length →
        gsoSegment e cleared spare hdr isV6 hdr.protocol first i dataAt out = some (out', size) →
        size = hdr.hdrLen.toNat + segmentDataLen cleared hdr dataAt ∧ size ≤ out'.length ∧
          P i dataAt (out'.take size)) :
    ∃ r, gsoSplit e pkt spare hdr outBuffs outOffset isV6 = some r ∧ r.tooManySegments = false ∧
      r.count = r.written.length ∧ r.written.map Prod.snd = (r.packets outOffset).map List.length ∧
      Cut pkt hdr P 0 hdr.hdrLen.toNat (r.packets outOffset) := by
  obtain ⟨cleared, hclear, hsame⟩ := gsoClear_spec h
  have hlen := hsame.length
  have hcleared := hsame.splittable h
  obtain ⟨first, hfirst, heq⟩ :=
    gsoSplit_eq e spare h.transport h.fits outOffset outBuffs hclear hlen
  have hruns : gsoLoop e cleared spare hdr outOffset isV6 hdr.protocol first 0 hdr.hdrLen.toNat
      outBuffs ≠ none := by
    -- no later segment is larger than the first, which has room
    refine gsoLoop_ne_none_iff.mpr fun j buf hbuf hdata => ?_
    have hbig := hroom buf (mem_of_getElem? hbuf)
    have hsize : segmentDataLen cleared hdr (hdr.hdrLen.toNat + hdr.gsoSize.toNat * j) ≤
        segmentDataLen pkt hdr hdr.hdrLen.toNat := by
      rw [hsame.segmentDataLen_eq]
      exact segmentDataLen_anti (Nat.le_add_right _ _)
    have hfield : (field buf outOffset (buf.length - outOffset)).length = buf.length - outOffset :=
      field_length (by omega)
    obtain ⟨out', hout', -⟩ := gsoSegment_spec e spare hcleared hfirst (0 + j) (le_of_lt hdata)
      (by omega : hdr.hdrLen.toNat + _ ≤ (field buf outOffset (buf.length - outOffset)).length)
    exact ⟨by omega, by rw [hout']; exact some_ne_none _⟩
  obtain ⟨r, hr⟩ := ne_none_iff_exists'.mp hruns
  obtain ⟨hfew, hcount⟩ := (gsoLoop_count hr).1 (hlen ▸ henough)
  obtain ⟨hsizes, hcut⟩ :=
    cut_of_gsoLoop (hseg cleared first hclear hsame hfirst) (le_refl _) hr hfew
  refine ⟨r, heq.trans hr, hfew, by simpa using hcount, hsizes, ?_⟩
  exact hcut.congr hlen.symm (add_zero _).symm fun _ _ _ _ hP => hP

/-- The packets that `gsoSplit` writes are the segments of the packet. -/
theorem gsoSplit_spec (e : Endian) (spare : Bytes) (h : Splittable pkt hdr isV6) {outOffset : ℕ}
    {outBuffs : List Bytes} (hroom : ∀ buf ∈ outBuffs,
      outOffset + (hdr.hdrLen.toNat + segmentDataLen pkt hdr hdr.hdrLen.toNat) ≤ buf.length)
    (henough : pkt.length ≤ hdr.hdrLen.toNat + hdr.gsoSize.toNat * outBuffs.length) :
    ∃ r, gsoSplit e pkt spare hdr outBuffs outOffset isV6 = some r ∧ r.tooManySegments = false ∧
      Segments pkt hdr isV6 0 hdr.hdrLen.toNat (r.packets outOffset) := by
  have hsplit := gsoSplit_cut_of (P := IsSegment pkt hdr isV6) e spare h hroom henough ?_
  · obtain ⟨r, hr, hfew, -, -, hcut⟩ := hsplit
    exact ⟨r, hr, hfew, hcut⟩
  · intro cleared first _ hsame hfirst i dataAt out out' size hdata hmore hout
    obtain ⟨rfl, hfits, hsegment⟩ :=
      gsoSegment_segment (hsame.splittable h) hfirst (le_of_lt hmore) hout
    exact ⟨rfl, hfits, (hsegment.take (hsame.splittable h)).congr h hdata hsame⟩

end Segment

end AmneziaWG.Tun
