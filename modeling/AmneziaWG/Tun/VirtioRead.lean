import AmneziaWG.Tun.Gso

/-!
# Reading from the TUN

Embedding of `handleVirtioRead` (`tun/tun_linux.go`) with `gsoNoneChecksum`: a read from the kernel
is one packet behind a virtio header, which may have to be completed or cut.  `none` is a panic.
The read is the front of the read buffer, and `spare` is the rest of this buffer: a slice of the
read may reach into it, an index may not.

## Main results

- `checkHeaders_ok_iff`: the headers that pass the checks.
- `handleVirtioRead_ne_none_iff`: the reads on which no slice and no index is out of range.
- `gsoSplit_reports_all_iff`: the count that is returned is that of the filled buffers only if all
  segments have found one.
-/

namespace AmneziaWG.Tun

open AmneziaWG.Lib List Option Nat

/-! ## §1 The function -/

/-- The errors of `handleVirtioRead`, with what their texts show. -/
inductive VirtioError where
  /-- `io.ErrShortBuffer` -/
  | shortBuffer
  /-- `read len %d overflows bufs element len %d` -/
  | overflows (readLen elementLen : ℕ)
  /-- `unsupported virtio GSO type: %d` -/
  | unsupportedType (gsoType : Byte)
  /-- `ip header version: %d, GSO type: %d` -/
  | versionMismatch (ipVersion gsoType : Byte)
  /-- `invalid ip header version: %d` -/
  | invalidVersion (ipVersion : Byte)
  /-- `packet is too short` -/
  | packetTooShort
  /-- `tcp header len is invalid: %d` -/
  | tcpHeaderLen (tcpHLen : BitVec 16)
  /-- `length of packet (%d) < virtioNetHdr.hdrLen (%d)` -/
  | shorterThanHeaders (packetLen : ℕ) (hdrLen : BitVec 16)
  /-- `virtioNetHdr.hdrLen (%d) < virtioNetHdr.csumStart (%d)` -/
  | hdrLenWraps (hdrLen csumStart : BitVec 16)
  /-- `end of checksum offset (%d) exceeds packet length (%d)` -/
  | checksumOutside (csumEnd packetLen : ℕ)
  deriving DecidableEq, Repr

/-- `gsoNoneChecksum`: the packet with the checksum in place. -/
def gsoNoneChecksum (e : Endian) (pkt : Bytes) (cSumStart cSumOffset : BitVec 16) :
    Option Bytes := do
  let cSumAt := cSumStart + cSumOffset
  let initial ← readBE16 pkt cSumAt.toNat
  let pkt ← writeAt pkt cSumAt.toNat [0]
  -- the index is a `uint16` too
  let pkt ← writeAt pkt (cSumAt + 1).toNat [0]
  let data ← sliceRange pkt cSumStart.toNat pkt.length
  writeAt pkt cSumAt.toNat (be16 (~~~checksum e data (initial.setWidth 64)))

/-- Where the transport header ends; the kernel's `hdrLen` is not trusted. -/
def transportHeaderEnd (pkt : Bytes) (hdr : VirtioNetHdr) :
    Option (Except VirtioError (BitVec 16)) :=
  if hdr.gsoType = gsoUDPL4 then some (.ok (hdr.csumStart + 8))
  else if pkt.length ≤ (hdr.csumStart + 12).toNat then some (.error .packetTooShort)
  else do
    let dataOffset ← pkt[(hdr.csumStart + 12).toNat]?
    let tcpHLen : BitVec 16 := ((dataOffset >>> 4) * 4).setWidth 16
    if tcpHLen < 20 ∨ tcpHLen > 60 then some (.error (.tcpHeaderLen tcpHLen))
    else some (.ok (hdr.csumStart + tcpHLen))

def checkLengths (pkt : Bytes) (hdr : VirtioNetHdr) : Except VirtioError VirtioNetHdr :=
  let cSumAt := (hdr.csumStart + hdr.csumOffset).toNat
  if pkt.length < hdr.hdrLen.toNat then .error (.shorterThanHeaders pkt.length hdr.hdrLen)
  else if hdr.hdrLen < hdr.csumStart then .error (.hdrLenWraps hdr.hdrLen hdr.csumStart)
  else if cSumAt + 1 ≥ pkt.length then .error (.checksumOutside (cSumAt + 1) pkt.length)
  else .ok hdr

/-- The checks on a packet that is to be cut. -/
def checkHeaders (pkt : Bytes) (hdr : VirtioNetHdr) :
    Option (Except VirtioError (VirtioNetHdr × Bool)) := do
  let first ← pkt[0]?
  let ipVersion := first >>> 4
  if ipVersion ≠ 4 ∧ ipVersion ≠ 6 then some (.error (.invalidVersion ipVersion))
  else if hdr.gsoType ≠ (if ipVersion = 4 then gsoTCPv4 else gsoTCPv6) ∧ hdr.gsoType ≠ gsoUDPL4 then
    some (.error (.versionMismatch ipVersion hdr.gsoType))
  else do
    let headerEnd ← transportHeaderEnd pkt hdr
    some do
      let hdrLen ← headerEnd
      let hdr ← checkLengths pkt { hdr with hdrLen }
      return (hdr, ipVersion = 6)

/-- A packet that is not cut, copied to the first buffer. -/
def copyWhole (pkt : Bytes) (bufs : List Bytes) (offset : ℕ) :
    Option (Except VirtioError GsoResult) := do
  let buf ← bufs[0]?
  let out ← sliceRange buf offset buf.length
  if pkt.length > out.length then some (.error (.overflows pkt.length out.length))
  else some (.ok
    { written := [(buf.take offset ++ (pkt ++ out.drop pkt.length), pkt.length)], count := 1,
      tooManySegments := false })

/-- `handleVirtioRead`.  With `ErrTooManySegments` there are packets too. -/
def handleVirtioRead (e : Endian) (data spare : Bytes) (bufs : List Bytes) (offset : ℕ) :
    Option (Except VirtioError GsoResult) :=
  match VirtioNetHdr.decode e data with
  | none => some (.error .shortBuffer)
  | some hdr =>
    let pkt := data.drop virtioNetHdrLen
    if hdr.gsoType = gsoNone then
      if hdr.flags &&& needsCsum ≠ 0 then
        (gsoNoneChecksum e pkt hdr.csumStart hdr.csumOffset).bind fun pkt =>
          copyWhole pkt bufs offset
      else copyWhole pkt bufs offset
    else if hdr.gsoType ≠ gsoTCPv4 ∧ hdr.gsoType ≠ gsoTCPv6 ∧ hdr.gsoType ≠ gsoUDPL4 then
      some (.error (.unsupportedType hdr.gsoType))
    else
      (checkHeaders pkt hdr).bind fun
        | .error err => some (.error err)
        | .ok (hdr, isV6) => (gsoSplit e pkt spare hdr bufs offset isV6).map .ok

/-! ## §2 The headers that pass -/

/-- The length of the transport header that the packet states. -/
def transportLen (pkt : Bytes) (hdr : VirtioNetHdr) : ℕ :=
  if hdr.gsoType = gsoUDPL4 then 8 else 4 * (byteAt pkt (hdr.csumStart.toNat + 12) >>> 4).toNat

/-- A packet and a header that pass all checks: nothing wraps, and the headers and the checksum lie
within the packet. -/
structure Accepted (pkt : Bytes) (hdr : VirtioNetHdr) (isV6 : Bool) : Prop where
  version : byteAt pkt 0 >>> 4 = if isV6 then 6 else 4
  gsoType : hdr.gsoType = gsoUDPL4 ∨ hdr.gsoType = if isV6 then gsoTCPv6 else gsoTCPv4
  tcp : hdr.gsoType ≠ gsoUDPL4 → 20 ≤ transportLen pkt hdr
  noWrap : hdr.csumStart.toNat + transportLen pkt hdr < 2 ^ 16
  fits : hdr.csumStart.toNat + transportLen pkt hdr ≤ pkt.length
  csumEnd : (hdr.csumStart + hdr.csumOffset).toNat + 2 ≤ pkt.length

/-- The header that is passed on, with the length that has been parsed. -/
def VirtioNetHdr.withHeaders (hdr : VirtioNetHdr) (pkt : Bytes) : VirtioNetHdr :=
  { hdr with hdrLen := BitVec.ofNat 16 (hdr.csumStart.toNat + transportLen pkt hdr) }

section Checks

variable {pkt : Bytes} {hdr hdr' : VirtioNetHdr} {isV6 : Bool}

theorem dataOffset_toNat (b : Byte) : (b >>> 4).toNat = b.toNat / 16 := by
  rw [BitVec.toNat_ushiftRight, shiftRight_eq_div_pow]

theorem tcpHLen_toNat (b : Byte) : (((b >>> 4) * 4).setWidth 16 : BitVec 16).toNat =
    4 * (b >>> 4).toNat := by
  have hb := b.isLt
  have hfour : (4 : Byte).toNat = 4 := rfl
  rw [BitVec.toNat_setWidth, BitVec.toNat_mul, dataOffset_toNat, hfour]
  omega

/-- The length of a TCP header is never above the limit: the field has four bits. -/
theorem tcpHLen_invalid_iff (b : Byte) :
    (((b >>> 4) * 4).setWidth 16 < (20 : BitVec 16) ∨ ((b >>> 4) * 4).setWidth 16 >
      (60 : BitVec 16)) ↔ ¬20 ≤ 4 * (b >>> 4).toNat := by
  have hb := b.isLt
  have h20 : (20 : BitVec 16).toNat = 20 := rfl
  have h60 : (60 : BitVec 16).toNat = 60 := rfl
  rw [gt_iff_lt, BitVec.lt_def, BitVec.lt_def, tcpHLen_toNat, h20, h60, dataOffset_toNat]
  omega

theorem transportHeaderEnd_ne_none (pkt : Bytes) (hdr : VirtioNetHdr) :
    transportHeaderEnd pkt hdr ≠ none := by
  unfold transportHeaderEnd
  by_cases hudp : hdr.gsoType = gsoUDPL4
  · rw [if_pos hudp]
    simp
  · by_cases hshort : pkt.length ≤ (hdr.csumStart + 12).toNat
    · rw [if_neg hudp, if_pos hshort]
      simp
    · rw [if_neg hudp, if_neg hshort, getElem?_of_lt (Nat.lt_of_not_le hshort), Option.bind_eq_bind,
        bind_some]
      dsimp only
      split_ifs <;> simp

/-- The end of the transport header, with the arithmetic of `uint16`. -/
theorem transportHeaderEnd_ok_iff {hdrLen : BitVec 16} :
    transportHeaderEnd pkt hdr = some (.ok hdrLen) ↔
      if hdr.gsoType = gsoUDPL4 then hdrLen = hdr.csumStart + 8
      else (hdr.csumStart + 12).toNat < pkt.length ∧
        20 ≤ 4 * (byteAt pkt (hdr.csumStart + 12).toNat >>> 4).toNat ∧
        hdrLen = hdr.csumStart + BitVec.ofNat 16
          (4 * (byteAt pkt (hdr.csumStart + 12).toNat >>> 4).toNat) := by
  unfold transportHeaderEnd
  generalize (hdr.csumStart + 12).toNat = lenAt
  by_cases hudp : hdr.gsoType = gsoUDPL4
  · rw [if_pos hudp, if_pos hudp]
    simp [eq_comm]
  · rw [if_neg hudp, if_neg hudp]
    by_cases hlt : lenAt < pkt.length
    · have hword : BitVec.ofNat 16 (4 * (byteAt pkt lenAt >>> 4).toNat) =
          ((byteAt pkt lenAt >>> 4) * 4).setWidth 16 := by
        rw [← tcpHLen_toNat, BitVec.ofNat_toNat, BitVec.setWidth_eq]
      rw [if_neg (Nat.not_le_of_lt hlt), getElem?_of_lt hlt, Option.bind_eq_bind,
        Option.bind_some, hword]
      dsimp only
      rw [if_congr (tcpHLen_invalid_iff _) rfl rfl]
      by_cases h20 : 20 ≤ 4 * (byteAt pkt lenAt >>> 4).toNat
      · rw [if_neg (not_not.mpr h20)]
        constructor
        · intro h
          cases h
          exact ⟨hlt, h20, rfl⟩
        · rintro ⟨-, -, rfl⟩
          rfl
      · rw [if_pos h20]
        exact ⟨(fun h => nomatch h), fun h => absurd h.2.1 h20⟩
    · rw [if_pos (Nat.le_of_not_lt hlt)]
      exact ⟨(fun h => nomatch h), fun h => absurd h.1 hlt⟩

theorem checkLengths_ok_iff : checkLengths pkt hdr = .ok hdr' ↔
    hdr' = hdr ∧ hdr.hdrLen.toNat ≤ pkt.length ∧ hdr.csumStart.toNat ≤ hdr.hdrLen.toNat ∧
      (hdr.csumStart + hdr.csumOffset).toNat + 2 ≤ pkt.length := by
  unfold checkLengths
  dsimp only
  by_cases h₁ : pkt.length < hdr.hdrLen.toNat
  · rw [if_pos h₁]
    exact ⟨(fun h => nomatch h), fun h => absurd h.2.1 (Nat.not_le_of_lt h₁)⟩
  · rw [if_neg h₁]
    by_cases h₂ : hdr.hdrLen < hdr.csumStart
    · rw [if_pos h₂]
      exact ⟨(fun h => nomatch h), fun h => absurd h.2.2.1 (Nat.not_le_of_lt (BitVec.lt_def.mp h₂))⟩
    · rw [if_neg h₂]
      rw [BitVec.lt_def] at h₂
      by_cases h₃ : (hdr.csumStart + hdr.csumOffset).toNat + 1 ≥ pkt.length
      · rw [if_pos h₃]
        exact ⟨(fun h => nomatch h), fun h => absurd h.2.2.2 (by omega)⟩
      · rw [if_neg h₃]
        constructor
        · intro h
          cases h
          exact ⟨rfl, by omega, by omega, by omega⟩
        · rintro ⟨rfl, -⟩
          rfl

/-- The checks behind that of the version.  A header length that wraps is below `csumStart`. -/
theorem lengths_ok_iff : (∃ hdrLen, transportHeaderEnd pkt hdr = some (.ok hdrLen) ∧
      checkLengths pkt { hdr with hdrLen } = .ok hdr') ↔
    (hdr.gsoType ≠ gsoUDPL4 → 20 ≤ transportLen pkt hdr) ∧
      hdr.csumStart.toNat + transportLen pkt hdr < 2 ^ 16 ∧
      hdr.csumStart.toNat + transportLen pkt hdr ≤ pkt.length ∧
      (hdr.csumStart + hdr.csumOffset).toNat + 2 ≤ pkt.length ∧ hdr' = hdr.withHeaders pkt := by
  have hstart := hdr.csumStart.isLt
  simp only [transportHeaderEnd_ok_iff, checkLengths_ok_iff, VirtioNetHdr.withHeaders]
  by_cases hudp : hdr.gsoType = gsoUDPL4
  · have hlen : transportLen pkt hdr = 8 := if_pos hudp
    have hend : (hdr.csumStart + 8).toNat = (hdr.csumStart.toNat + 8) % 2 ^ 16 := rfl
    have hword : hdr.csumStart + 8 = BitVec.ofNat 16 (hdr.csumStart.toNat + 8) :=
      BitVec.eq_of_toNat_eq rfl
    rw [hlen, ← hword]
    simp only [if_pos hudp]
    constructor
    · rintro ⟨hdrLen, rfl, rfl, hfits, hwrap, hcsum⟩
      rw [hend] at hfits hwrap
      exact ⟨fun h => absurd hudp h, by omega, by omega, hcsum, rfl⟩
    · rintro ⟨-, hwrap, hfits, hcsum, rfl⟩
      exact ⟨_, rfl, rfl, by rw [hend]; omega, by rw [hend]; omega, hcsum⟩
  · have hlen : transportLen pkt hdr = 4 * (byteAt pkt (hdr.csumStart.toNat + 12) >>> 4).toNat :=
      if_neg hudp
    have hat : (hdr.csumStart + 12).toNat = (hdr.csumStart.toNat + 12) % 2 ^ 16 := rfl
    have hword : ∀ t, hdr.csumStart + BitVec.ofNat 16 t =
        BitVec.ofNat 16 (hdr.csumStart.toNat + t) := by
      intro t
      apply BitVec.eq_of_toNat_eq
      rw [BitVec.toNat_add, BitVec.toNat_ofNat, BitVec.toNat_ofNat, add_mod_mod]
    have hend : ∀ t, (BitVec.ofNat 16 (hdr.csumStart.toNat + t)).toNat =
        (hdr.csumStart.toNat + t) % 2 ^ 16 :=
      fun t => BitVec.toNat_ofNat _ _
    rw [hlen]
    simp only [if_neg hudp, hword]
    constructor
    · rintro ⟨hdrLen, ⟨hlt, h20, rfl⟩, rfl, hfits, hwrap, hcsum⟩
      have hb := (byteAt pkt (hdr.csumStart + 12).toNat).isLt
      rw [hend] at hfits hwrap
      rw [dataOffset_toNat] at h20 hfits hwrap
      -- an offset that wrapped would leave no room for the header
      have hat' : (hdr.csumStart + 12).toNat = hdr.csumStart.toNat + 12 := by omega
      rw [hat'] at h20 hfits hwrap hb ⊢
      rw [← dataOffset_toNat] at h20 hfits hwrap
      exact ⟨fun _ => h20, by omega, by omega, hcsum, rfl⟩
    · rintro ⟨h20, hwrap, hfits, hcsum, rfl⟩
      have h20' := h20 hudp
      have hat' : (hdr.csumStart + 12).toNat = hdr.csumStart.toNat + 12 := by omega
      rw [hat']
      exact ⟨_, ⟨by omega, h20', rfl⟩, rfl, by rw [hend]; omega, by rw [hend]; omega, hcsum⟩

theorem bind_lengths_iff {v : Bool} :
    ((transportHeaderEnd pkt hdr).bind fun headerEnd => some do
      let hdrLen ← headerEnd
      let hdr ← checkLengths pkt { hdr with hdrLen }
      return (hdr, v)) = some (.ok (hdr', isV6)) ↔
    (∃ hdrLen, transportHeaderEnd pkt hdr = some (.ok hdrLen) ∧
      checkLengths pkt { hdr with hdrLen } = .ok hdr') ∧ v = isV6 := by
  cases hend : transportHeaderEnd pkt hdr with
  | none => exact absurd hend (transportHeaderEnd_ne_none pkt hdr)
  | some headerEnd =>
    cases headerEnd with
    | error err => simp [bind, Except.bind]
    | ok hdrLen =>
      cases hlen : checkLengths pkt { hdr with hdrLen } with
      | error err => simp [bind, Except.bind, hlen]
      | ok hdr₁ => simp [bind, Except.bind, pure, Except.pure, hlen]

/-- The headers that pass the checks. -/
theorem checkHeaders_ok_iff : checkHeaders pkt hdr = some (.ok (hdr', isV6)) ↔
    pkt ≠ [] ∧ Accepted pkt hdr isV6 ∧ hdr' = hdr.withHeaders pkt := by
  cases pkt with
  | nil => simp [checkHeaders]
  | cons b rest =>
    have hfirst : byteAt (b :: rest) 0 = b := rfl
    unfold checkHeaders
    simp only [List.getElem?_cons_zero, Option.bind_eq_bind, Option.bind_some]
    constructor
    · intro h
      by_cases hversion : b >>> 4 ≠ 4 ∧ b >>> 4 ≠ 6
      · rw [if_pos hversion] at h
        cases h
      · rw [if_neg hversion] at h
        by_cases htype : hdr.gsoType ≠ (if b >>> 4 = 4 then gsoTCPv4 else gsoTCPv6) ∧
          hdr.gsoType ≠ gsoUDPL4
        · rw [if_pos htype] at h
          cases h
        · rw [if_neg htype] at h
          obtain ⟨hlengths, hv6⟩ := bind_lengths_iff.mp h
          obtain ⟨htcp, hwrap, hfits, hcsum, heq⟩ := lengths_ok_iff.mp hlengths
          have hor : b >>> 4 = 4 ∨ b >>> 4 = 6 := by simpa only [not_and_or, not_not] using hversion
          have htype' : hdr.gsoType = (if b >>> 4 = 4 then gsoTCPv4 else gsoTCPv6) ∨
              hdr.gsoType = gsoUDPL4 := by
            simpa only [ne_eq, not_and_or, not_not] using htype
          refine ⟨by simp, ⟨?_, ?_, htcp, hwrap, hfits, hcsum⟩, heq⟩
          · -- the version decides, and the type has to agree with it
            rw [hfirst, ← hv6]
            rcases hor with h4 | h6
            · simp [h4]
            · simp [h6]
          · rw [← hv6]
            rcases hor with h4 | h6
            · simpa [h4] using htype'.symm
            · simpa [h6] using htype'.symm
    · rintro ⟨-, h, rfl⟩
      have hversion := h.version
      have htype := h.gsoType
      have hlengths := lengths_ok_iff.mpr ⟨h.tcp, h.noWrap, h.fits, h.csumEnd, rfl⟩
      rw [hfirst] at hversion
      cases isV6 with
      | true =>
        simp only [if_true] at hversion htype
        rw [if_neg (by rw [hversion]; decide), if_neg (by rw [hversion]; simp; tauto)]
        exact bind_lengths_iff.mpr ⟨hlengths, by simp [hversion]⟩
      | false =>
        simp only [Bool.false_eq_true, if_false] at hversion htype
        rw [if_neg (by rw [hversion]; decide), if_neg (by rw [hversion]; simp; tauto)]
        exact bind_lengths_iff.mpr ⟨hlengths, by simp [hversion]⟩

theorem checkHeaders_ne_none_iff : checkHeaders pkt hdr ≠ none ↔ pkt ≠ [] := by
  unfold checkHeaders
  cases pkt with
  | nil => simp
  | cons b pkt =>
    simp only [getElem?_cons_zero, bind_eq_bind, bind_some]
    cases h : transportHeaderEnd (b :: pkt) hdr with
    | none => exact absurd h (transportHeaderEnd_ne_none _ _)
    | some headerEnd => split_ifs <;> simp

end Checks

/-! ## §3 Reads without a panic -/

section Panics

variable {e : Endian} {pkt spare : Bytes} {hdr : VirtioNetHdr} {isV6 : Bool} {offset : ℕ}

theorem writeAt_ne_none_iff {b src : Bytes} {off : ℕ} : writeAt b off src ≠ none ↔
    off + src.length ≤ b.length :=
  ite_some_ne_none_iff

theorem gsoNoneChecksum_ne_none_iff {cSumStart cSumOffset : BitVec 16} :
    gsoNoneChecksum e pkt cSumStart cSumOffset ≠ none ↔
      cSumStart.toNat ≤ pkt.length ∧ (cSumStart + cSumOffset).toNat + 2 ≤ pkt.length := by
  unfold gsoNoneChecksum
  dsimp only
  generalize hat : cSumStart + cSumOffset = cSumAt
  have hlt := cSumAt.isLt
  have hnext : (cSumAt + 1).toNat = (cSumAt.toNat + 1) % 2 ^ 16 := rfl
  by_cases hcsum : cSumAt.toNat + 2 ≤ pkt.length
  · simp only [bind_eq_bind]
    rw [readBE16, if_pos hcsum, bind_some, writeAt_eq_patch (by rw [length_singleton]; omega),
      bind_some, writeAt_eq_patch (by rw [length_singleton, patch_length, hnext]; omega),
      bind_some, patch_length, patch_length]
    by_cases hstart : cSumStart.toNat ≤ pkt.length
    · rw [sliceRange_eq hstart (by simp), bind_some, writeAt_ne_none_iff]
      simp [hstart, hcsum]
    · rw [sliceRange, if_neg (by omega)]
      simp [hstart]
  · rw [readBE16, if_neg hcsum]
    simp [hcsum]

theorem copyWhole_ne_none {bufs : List Bytes} (hbufs : bufs ≠ [])
    (hroom : ∀ buf ∈ bufs, offset ≤ buf.length) :
    copyWhole pkt bufs offset ≠ none := by
  cases bufs with
  | nil => exact absurd rfl hbufs
  | cons buf bufs =>
    unfold copyWhole
    simp only [bind_eq_bind]
    rw [getElem?_cons_zero, bind_some,
      sliceRange_eq (hroom buf mem_cons_self) (le_refl _), bind_some]
    split_ifs <;> simp

theorem gsoClear_ne_none_iff (isV6 : Bool)
    (hcsum : (hdr.csumStart + hdr.csumOffset).toNat + 2 ≤ pkt.length) :
    gsoClear pkt hdr isV6 ≠ none ↔ (isV6 = false → 12 ≤ pkt.length) := by
  unfold gsoClear
  cases isV6 with
  | true =>
    have hwrite : writeAt pkt (hdr.csumStart + hdr.csumOffset).toNat [0, 0] ≠ none :=
      writeAt_ne_none_iff.mpr hcsum
    simpa using hwrite
  | false =>
    simp only [Bool.false_eq_true, if_false, bind_eq_bind, bind_ne_none_iff, true_implies]
    constructor
    · rintro ⟨b, hb, -⟩
      have := writeAt_fits hb
      simpa using this
    · intro h12
      refine ⟨_, writeAt_eq_patch (by simpa using h12), writeAt_ne_none_iff.mpr ?_⟩
      simpa using hcsum

theorem gsoClear_length {cleared : Bytes} (h : gsoClear pkt hdr isV6 = some cleared) :
    cleared.length = pkt.length := by
  unfold gsoClear at h
  cases isV6 with
  | true => exact writeAt_length (by simpa using h)
  | false =>
    simp only [Bool.false_eq_true, if_false, bind_eq_bind] at h
    obtain ⟨b, hb, hc⟩ := bind_eq_some_iff.mp h
    rw [writeAt_length hc, writeAt_length hb]

/-- Cutting a packet that has passed the checks: the IPv4 checksum is there, the addresses are in
the read buffer, and for packets longer than the output buffers must be, the segments fit. -/
structure SafeCut (pkt spare : Bytes) (hdr : VirtioNetHdr) (isV6 : Bool) (bufs : List Bytes)
    (offset : ℕ) : Prop where
  ipv4Checksum : isV6 = false → 12 ≤ pkt.length
  addresses : hdr.hdrLen.toNat < pkt.length →
    (addrLayout isV6).1 + (addrLayout isV6).2 * 2 ≤ pkt.length + spare.length
  room : 65535 < pkt.length → ∀ j buf, bufs[j]? = some buf →
    hdr.hdrLen.toNat + hdr.gsoSize.toNat * j < pkt.length →
      offset + hdr.hdrLen.toNat + segmentDataLen pkt hdr
        (hdr.hdrLen.toNat + hdr.gsoSize.toNat * j) ≤ buf.length ∧
      offset + (hdr.csumStart + hdr.csumOffset).toNat + 2 ≤ buf.length

theorem gsoSplit_ne_none_iff (h : Checked pkt hdr) {bufs : List Bytes} (hbufs : bufs ≠ [])
    (hroom : ∀ buf ∈ bufs, offset + 65535 ≤ buf.length) :
    gsoSplit e pkt spare hdr bufs offset isV6 ≠ none ↔ SafeCut pkt spare hdr isV6 bufs offset := by
  have hclearIff := gsoClear_ne_none_iff isV6 h.csumEnd
  cases hclear : gsoClear pkt hdr isV6 with
  | none =>
    have hnone : gsoSplit e pkt spare hdr bufs offset isV6 = none := by
      unfold gsoSplit
      rw [hclear]
      rfl
    refine ⟨fun hsome => absurd hnone hsome,
      fun hsafe => absurd hclear (hclearIff.mpr hsafe.ipv4Checksum)⟩
  | some cleared =>
    have hlen := gsoClear_length hclear
    have hchecked : Checked cleared hdr :=
      ⟨h.transport, by rw [hlen]; exact h.fits, by rw [hlen]; exact h.csumEnd⟩
    obtain ⟨first, -, heq⟩ := gsoSplit_eq e spare h.transport h.fits offset bufs hclear hlen
    have hhdr := hdr.hdrLen.isLt
    -- one segment, in a buffer of the required size
    have hseg : ∀ j (buf : Bytes), bufs[j]? = some buf →
        hdr.hdrLen.toNat + hdr.gsoSize.toNat * j < pkt.length →
        (gsoSegment e cleared spare hdr isV6 hdr.protocol first (0 + j)
          (hdr.hdrLen.toNat + hdr.gsoSize.toNat * j)
            (field buf offset (buf.length - offset)) ≠ none ↔
          (addrLayout isV6).1 + (addrLayout isV6).2 * 2 ≤ pkt.length + spare.length ∧
            hdr.hdrLen.toNat + segmentDataLen pkt hdr (hdr.hdrLen.toNat + hdr.gsoSize.toNat * j) ≤
              buf.length - offset ∧
            (hdr.csumStart + hdr.csumOffset).toNat + 2 ≤ buf.length - offset) := by
      intro j buf hbuf hdata
      have hbig := hroom buf (mem_of_getElem? hbuf)
      have hfield : (field buf offset (buf.length - offset)).length = buf.length - offset :=
        field_length (by omega)
      have hsame : segmentDataLen cleared hdr (hdr.hdrLen.toNat + hdr.gsoSize.toNat * j) =
          segmentDataLen pkt hdr (hdr.hdrLen.toNat + hdr.gsoSize.toNat * j) := by
        rw [segmentDataLen, segmentDataLen, hlen]
      rw [gsoSegment_eq e spare hchecked _ _ (by omega) (by omega) (by omega), hfield, hsame,
        length_append, hlen]
      exact ite_some_ne_none_iff
    rw [heq, gsoLoop_ne_none_iff, hlen]
    constructor
    · intro hall
      refine ⟨hclearIff.mp (by rw [hclear]; simp), fun hpayload => ?_, fun _ j buf hbuf hdata => ?_⟩
      · obtain ⟨buf, bufs', rfl⟩ := exists_cons_of_ne_nil hbufs
        exact ((hseg 0 buf rfl (by simpa using hpayload)).mp
          (hall 0 buf rfl (by simpa using hpayload)).2).1
      · have hbig := hroom buf (mem_of_getElem? hbuf)
        obtain ⟨-, h₁, h₂⟩ := (hseg j buf hbuf hdata).mp (hall j buf hbuf hdata).2
        omega
    · intro hsafe j buf hbuf hdata
      have hbig := hroom buf (mem_of_getElem? hbuf)
      refine ⟨by omega, (hseg j buf hbuf hdata).mpr ⟨hsafe.addresses (by omega), ?_⟩⟩
      -- only a packet longer than the buffers can be short of room
      by_cases hlong : 65535 < pkt.length
      · obtain ⟨h₁, h₂⟩ := hsafe.room hlong j buf hbuf hdata
        omega
      · have hcsum := h.csumEnd
        have hend := add_segmentDataLen_le hdr (le_of_lt hdata)
        omega

/-- In the read buffer of `NativeTun`, of 65535 bytes behind the virtio header, only the IPv4
checksum can be missing. -/
theorem safeCut_readBuff_iff (hbuff : pkt.length + spare.length = 65535) {bufs : List Bytes} :
    SafeCut pkt spare hdr isV6 bufs offset ↔ (isV6 = false → 12 ≤ pkt.length) := by
  refine ⟨SafeCut.ipv4Checksum, fun h12 => ⟨h12, fun _ => ?_, fun hlong => by omega⟩⟩
  rw [hbuff]
  cases isV6 <;> decide

/-- What a read must be like, for nothing to be out of range.  A packet without segmentation needs
its checksum inside; one with segmentation must not be empty, and if its headers pass the checks,
cutting it must be safe. -/
def SafeRead (e : Endian) (data spare : Bytes) (bufs : List Bytes) (offset : ℕ) : Prop :=
  ∀ hdr, VirtioNetHdr.decode e data = some hdr →
    (hdr.gsoType = gsoNone → hdr.flags &&& needsCsum ≠ 0 →
      hdr.csumStart.toNat ≤ (data.drop virtioNetHdrLen).length ∧
      (hdr.csumStart + hdr.csumOffset).toNat + 2 ≤ (data.drop virtioNetHdrLen).length) ∧
    (hdr.gsoType = gsoTCPv4 ∨ hdr.gsoType = gsoTCPv6 ∨ hdr.gsoType = gsoUDPL4 →
      data.drop virtioNetHdrLen ≠ [] ∧ ∀ isV6, Accepted (data.drop virtioNetHdrLen) hdr isV6 →
        SafeCut (data.drop virtioNetHdrLen) spare (hdr.withHeaders (data.drop virtioNetHdrLen))
          isV6 bufs offset)

theorem Accepted.checked (h : Accepted pkt hdr isV6) : Checked pkt (hdr.withHeaders pkt) := by
  have hlen : (hdr.withHeaders pkt).hdrLen.toNat = hdr.csumStart.toNat + transportLen pkt hdr := by
    rw [VirtioNetHdr.withHeaders, BitVec.toNat_ofNat, mod_eq_of_lt h.noWrap]
  refine ⟨?_, by rw [hlen]; exact h.fits, h.csumEnd⟩
  rw [hlen]
  change hdr.csumStart.toNat + minTransportLen (hdr.withHeaders pkt).protocol ≤ _
  have hprotocol : (hdr.withHeaders pkt).protocol = hdr.protocol := rfl
  rw [hprotocol]
  apply Nat.add_le_add_left
  by_cases hudp : hdr.gsoType = gsoUDPL4
  · have : hdr.protocol = ipprotoUDP := by
      unfold VirtioNetHdr.protocol
      rw [if_neg (by rw [hudp]; decide)]
    rw [this, transportLen, if_pos hudp]
    decide
  · have h20 := h.tcp hudp
    unfold minTransportLen
    split_ifs <;> omega

/-- **Reads that do not crash.**  For every read, wherever the read buffer ends, and output buffers
of the required size, an index or a slice is out of range unless the read is safe. -/
theorem handleVirtioRead_ne_none_iff (e : Endian) (data spare : Bytes) {bufs : List Bytes}
    {offset : ℕ} (hbufs : bufs ≠ []) (hroom : ∀ buf ∈ bufs, offset + 65535 ≤ buf.length) :
    handleVirtioRead e data spare bufs offset ≠ none ↔ SafeRead e data spare bufs offset := by
  have hcopy : ∀ pkt, copyWhole pkt bufs offset ≠ none := fun pkt =>
    copyWhole_ne_none hbufs fun buf hbuf => by
      have := hroom buf hbuf
      omega
  unfold handleVirtioRead SafeRead
  cases hdecode : VirtioNetHdr.decode e data with
  | none => simp
  | some hdr =>
    simp only [some.injEq, forall_eq']
    generalize data.drop virtioNetHdrLen = pkt
    by_cases hnone : hdr.gsoType = gsoNone
    · have hunsupported : ¬(hdr.gsoType = gsoTCPv4 ∨ hdr.gsoType = gsoTCPv6 ∨
          hdr.gsoType = gsoUDPL4) := by
        rw [hnone]
        decide
      rw [if_pos hnone]
      by_cases hneeds : hdr.flags &&& needsCsum ≠ 0
      · -- the packet is copied whole, after its checksum has been filled in
        rw [if_pos hneeds, bind_ne_none_iff]
        constructor
        · rintro ⟨pkt', hpkt', -⟩
          refine ⟨fun _ _ => (gsoNoneChecksum_ne_none_iff (e := e)).mp ?_,
            fun h => absurd h hunsupported⟩
          rw [hpkt']
          exact some_ne_none _
        · rintro ⟨hcsum, -⟩
          obtain ⟨pkt', hpkt'⟩ := ne_none_iff_exists'.mp
            ((gsoNoneChecksum_ne_none_iff (e := e)).mpr (hcsum hnone hneeds))
          exact ⟨pkt', hpkt', hcopy pkt'⟩
      · rw [if_neg hneeds]
        exact ⟨fun _ => ⟨fun _ h => absurd h hneeds, fun h => absurd h hunsupported⟩,
          fun _ => hcopy pkt⟩
    · rw [if_neg hnone]
      by_cases hsupported : hdr.gsoType = gsoTCPv4 ∨ hdr.gsoType = gsoTCPv6 ∨ hdr.gsoType = gsoUDPL4
      · -- the headers are checked, and the packet is cut if they are accepted
        rw [if_neg (by tauto), bind_ne_none_iff]
        constructor
        · rintro ⟨result, hcheck, hrest⟩
          refine ⟨fun h => absurd h hnone, fun _ => ⟨?_, fun isV6 haccepted => ?_⟩⟩
          · exact checkHeaders_ne_none_iff.mp (by rw [hcheck]; exact some_ne_none _)
          · have hne : pkt ≠ [] :=
              checkHeaders_ne_none_iff.mp (by rw [hcheck]; exact some_ne_none _)
            have hok := checkHeaders_ok_iff.mpr ⟨hne, haccepted, rfl⟩
            cases some.inj (hcheck.symm.trans hok)
            refine (gsoSplit_ne_none_iff (e := e) haccepted.checked hbufs hroom).mp fun hsplit =>
              hrest ?_
            change (gsoSplit e pkt spare (hdr.withHeaders pkt) bufs offset isV6).map _ = none
            rw [hsplit]
            rfl
        · rintro ⟨-, hsafe⟩
          obtain ⟨hne, hcut⟩ := hsafe hsupported
          have hcheckable : checkHeaders pkt hdr ≠ none := checkHeaders_ne_none_iff.mpr hne
          obtain ⟨result, hcheck⟩ := ne_none_iff_exists'.mp hcheckable
          refine ⟨result, hcheck, ?_⟩
          match result, hcheck with
          | .error err, _ => exact some_ne_none _
          | .ok (hdr', isV6), hcheck =>
            obtain ⟨-, haccepted, rfl⟩ := checkHeaders_ok_iff.mp hcheck
            have hsplit := (gsoSplit_ne_none_iff (e := e) haccepted.checked hbufs hroom).mpr
              (hcut isV6 haccepted)
            obtain ⟨r, hr⟩ := ne_none_iff_exists'.mp hsplit
            change (gsoSplit e pkt spare (hdr.withHeaders pkt) bufs offset isV6).map _ ≠ none
            rw [hr]
            exact some_ne_none _
      · -- an unsupported type is an error, not a panic
        rw [if_pos (by tauto)]
        exact ⟨fun _ => ⟨fun h => absurd h hnone, fun h => absurd h hsupported⟩,
          fun _ => some_ne_none _⟩

/-- A packet of zeros whose checksum is asked for, and one of twelve bytes that is cut into four,
with its addresses in the read buffer behind it. -/
theorem handleVirtioRead_ne_none_example :
    handleVirtioRead .little ([1, 0, 0, 0, 0, 0, 20, 0, 6, 0] ++ List.replicate 28 0)
      [] [List.replicate 65535 0] 0 ≠ none ∧
      handleVirtioRead .little ([0, 5, 0, 0, 1, 0, 0, 0, 0, 0, 69] ++ List.replicate 11 0)
        (List.replicate 8 0) (List.replicate 4 (List.replicate 65535 0)) 0 ≠ none := by
  constructor
  · have hdecode :
      VirtioNetHdr.decode .little ([1, 0, 0, 0, 0, 0, 20, 0, 6, 0] ++ List.replicate 28 0) =
        some { VirtioNetHdr.zero with flags := 1, csumStart := 20, csumOffset := 6 } := by decide
    refine (handleVirtioRead_ne_none_iff .little _ [] (List.cons_ne_nil _ _) ?_).mpr ?_
    · intro buf hbuf
      rw [List.mem_singleton.mp hbuf, List.length_replicate]
    · intro hdr hhdr
      cases hdecode.symm.trans hhdr
      exact ⟨fun _ _ => by decide, fun h => absurd h (by decide)⟩
  · have hdecode :
      VirtioNetHdr.decode .little ([0, 5, 0, 0, 1, 0, 0, 0, 0, 0, 69] ++ List.replicate 11 0) =
        some { VirtioNetHdr.zero with gsoType := gsoUDPL4, gsoSize := 1 } := by decide
    have hroom : ∀ buf ∈ List.replicate 4 (List.replicate 65535 (0 : Byte)),
        0 + 65535 ≤ buf.length := by
      intro buf hbuf
      rw [List.eq_of_mem_replicate hbuf, List.length_replicate]
    refine (handleVirtioRead_ne_none_iff .little _ _ (List.cons_ne_nil _ _) hroom).mpr ?_
    intro hdr hhdr
    cases hdecode.symm.trans hhdr
    refine ⟨fun h => absurd h (by decide), fun _ => ⟨by decide, fun isV6 h => ?_⟩⟩
    cases isV6 with
    | true => exact absurd h.version (by decide)
    | false => exact ⟨fun _ => by decide, fun _ => by decide, fun hlong => absurd hlong (by decide)⟩

/-- **Reads that crash.**  A header that asks for segmentation with no packet behind it, and one
that asks for a checksum outside of the packet, wherever the read buffer ends. -/
theorem handleVirtioRead_panics :
    (∀ buf ∈ [List.replicate 65535 (0 : Byte)], 0 + 65535 ≤ buf.length) ∧
      ∀ spare, handleVirtioRead .little [0, 1, 0, 0, 0, 0, 0, 0, 0,
        0] spare [List.replicate 65535 0] 0 = none ∧
        handleVirtioRead .little [1, 0, 0, 0, 0, 0, 20, 0, 6, 0, 0x45] spare
          [List.replicate 65535 0] 0 = none := by
  refine ⟨fun buf hbuf => ?_, fun spare => ⟨rfl, rfl⟩⟩
  rw [mem_singleton.mp hbuf, length_replicate]

end Panics

/-! ## §4 The count of segments -/

section Count

variable {e : Endian} {pkt spare : Bytes} {hdr : VirtioNetHdr} {isV6 : Bool} {outOffset : ℕ}
    {protocol : Byte}
  {firstTCPSeqNum : BitVec 32}

/-- What `RoutineReadFromTUN` looks at, also after `ErrTooManySegments`. -/
def GsoResult.processed (r : GsoResult) : List (Bytes × ℕ) := r.written.take r.count.toNat

theorem gsoLoop_prefix {i dataAt : ℕ} {outBuffs more : List Bytes} {r r' : GsoResult}
    (h : gsoLoop e pkt spare hdr outOffset isV6 protocol firstTCPSeqNum i dataAt outBuffs = some r)
    (h' : gsoLoop e pkt spare hdr outOffset isV6 protocol firstTCPSeqNum i dataAt
      (outBuffs ++ more) = some r') :
    r.written <+: r'.written := by
  induction outBuffs generalizing i dataAt r r' with
  | nil =>
    unfold gsoLoop at h
    split_ifs at h <;> cases h <;> exact nil_prefix
  | cons buf outBuffs ih =>
    by_cases hmore : dataAt < pkt.length
    · obtain ⟨out, size, rest, -, hseg, hrest, rfl⟩ := gsoLoop_cons h hmore
      obtain ⟨out', size', rest', -, hseg', hrest', rfl⟩ := gsoLoop_cons h' hmore
      cases some.inj (hseg.symm.trans hseg')
      exact prefix_cons_inj _ |>.mpr (ih hrest hrest')
    · rw [gsoLoop_end hmore h]
      exact nil_prefix

theorem gsoSplit_loop {outBuffs : List Bytes} {r : GsoResult}
    (h : gsoSplit e pkt spare hdr outBuffs outOffset isV6 = some r) :
    ∃ cleared protocol firstTCPSeqNum, cleared.length = pkt.length ∧
      ∀ outBuffs', gsoSplit e pkt spare hdr outBuffs' outOffset isV6 =
        gsoLoop e cleared spare hdr outOffset isV6 protocol firstTCPSeqNum 0 hdr.hdrLen.toNat
          outBuffs' := by
  unfold gsoSplit at h ⊢
  simp only [bind_eq_bind] at h ⊢
  obtain ⟨cleared, hclear, h⟩ := bind_eq_some_iff.mp h
  simp only [hclear, bind_some]
  by_cases htype : hdr.gsoType = gsoTCPv4 ∨ hdr.gsoType = gsoTCPv6
  · simp only [htype, if_true] at h ⊢
    obtain ⟨first, hfirst, -⟩ := bind_eq_some_iff.mp h
    refine ⟨cleared, ipprotoTCP, first, gsoClear_length hclear, fun outBuffs' => ?_⟩
    rw [hfirst, bind_some]
  · simp only [htype, if_false]
    exact ⟨cleared, ipprotoUDP, 0, gsoClear_length hclear, fun _ => rfl⟩

/-- **The count that is returned.**  It is that of the filled buffers, so that all of them are
processed, if and only if no segment is left over: with `ErrTooManySegments` the last filled buffer
is not counted. -/
theorem gsoSplit_reports_all_iff {outBuffs : List Bytes} {r : GsoResult}
    (h : gsoSplit e pkt spare hdr outBuffs outOffset isV6 = some r) :
    (r.count = r.written.length ∧ r.processed = r.written ∧
      ∀ more r', gsoSplit e pkt spare hdr (outBuffs ++ more) outOffset isV6 = some r' →
        r.written <+: r'.written) ↔
    pkt.length ≤ hdr.hdrLen.toNat + hdr.gsoSize.toNat * outBuffs.length := by
  obtain ⟨cleared, protocol, first, hlen, hloop⟩ := gsoSplit_loop h
  have hr := hloop outBuffs ▸ h
  obtain ⟨hfits, hleft⟩ := gsoLoop_count hr
  rw [hlen] at hfits hleft
  constructor
  · rintro ⟨hcount, -⟩
    by_contra hmore
    obtain ⟨-, hless, -⟩ := hleft (Nat.lt_of_not_le hmore)
    omega
  · intro hle
    obtain ⟨-, hcount⟩ := hfits hle
    have hall : r.count = r.written.length := by simpa using hcount
    refine ⟨hall, ?_, fun more r' h' => ?_⟩
    · rw [GsoResult.processed, hall, Int.toNat_natCast, take_length]
    · rw [hloop] at h'
      exact gsoLoop_prefix hr h'

/-- A UDP packet with two bytes of data, to be cut after the first. -/
def twoBytesPacket : Bytes :=
  [0x45, 0, 0, 30, 0, 0, 0, 0, 64, 17, 0, 0, 10, 0, 0, 1, 10, 0, 0, 2, 0, 1, 0, 2, 0, 10, 0, 0,
    0xaa, 0xbb]

def oneBytePerSegment : VirtioNetHdr :=
  { flags := 1, gsoType := gsoUDPL4, hdrLen := 28, gsoSize := 1, csumStart := 20, csumOffset := 6 }

theorem gsoSplit_reports_all_two : ∃ r,
    gsoSplit .little twoBytesPacket [] oneBytePerSegment [List.replicate 29 0, List.replicate 29 0]
      0 false = some r ∧ r.count = r.written.length ∧ r.written.length = 2 := by
  have hsome :
    (gsoSplit .little twoBytesPacket [] oneBytePerSegment [replicate 29 0, replicate 29 0] 0
      false).map (fun r => r.written.length) = some 2 := by decide +kernel
  obtain ⟨r, hr, hlen⟩ := map_eq_some_iff.mp hsome
  exact ⟨r, hr, ((gsoSplit_reports_all_iff hr).mpr (by decide)).1, hlen⟩

/-- **A segment that is lost.**  With one buffer for the two segments, the buffer is filled and the
count is zero. -/
theorem gsoSplit_reports_none :
    (gsoSplit .little twoBytesPacket [] oneBytePerSegment [List.replicate 29 0] 0 false).map
      (fun r => (r.tooManySegments, r.count, r.written.length, r.processed.length)) =
        some (true, 0, 1, 0) := by
  decide +kernel

end Count

end AmneziaWG.Tun
