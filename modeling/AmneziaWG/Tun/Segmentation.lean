import AmneziaWG.Tun.Gro.Packets
import AmneziaWG.Tun.VirtioRead

/-!
# The Packets That Are Cut

What `handleVirtioRead` and `gsoSplit` hand on is looked at as packets: their lengths, numbers and
checksums. The sums are those of `Lib.OnesComplement`, so that a checksum is right by the arithmetic
of words and not by the order in which the fields are written.

## Main results

- `gsoSplit_packets`: a packet is cut into valid packets that carry its payload.
- `udpChecksums_ne_zero_iff`: which UDP packets are given the checksum zero.
-/

namespace AmneziaWG.Tun

open AmneziaWG.Lib List Option Nat

/-! ## §1 A valid packet -/

/-- A packet that has been cut out: the headers of `pkt` with the fields of the packet number `i`,
whose data begins at `dataAt`. -/
structure ValidSegment (e : Endian) (pkt : Bytes) (hdr : VirtioNetHdr) (isV6 : Bool) (i dataAt : ℕ)
    (out : Bytes) : Prop where
  payload : out.drop hdr.hdrLen.toNat = (pkt.drop dataAt).take hdr.gsoSize.toNat
  header : ∀ k, k < hdr.hdrLen.toNat → ¬IPChanges isV6 k →
    (k < hdr.csumStart.toNat ∨ ¬TransportChanges hdr.protocol (k - hdr.csumStart.toNat)) →
      out[k]? = pkt[k]?
  ipv4 : isV6 = false → be16At out 2 = BitVec.ofNat 16 out.length ∧
    be16At out 4 = be16At pkt 4 + BitVec.ofNat 16 i ∧
      checksum e (out.take hdr.csumStart.toNat) 0 = 0xffff
  ipv6 : isV6 = true → be16At out 4 = BitVec.ofNat 16 (out.length - hdr.csumStart.toNat)
  tcp : hdr.protocol = ipprotoTCP →
    be32At out (hdr.csumStart.toNat + 4) =
      be32At pkt (hdr.csumStart.toNat + 4) + BitVec.ofNat 32 (dataAt - hdr.hdrLen.toNat) ∧
    byteAt out (hdr.csumStart.toNat + 13) =
      if dataAt + hdr.gsoSize.toNat < pkt.length then
        clearLastFlags (byteAt pkt (hdr.csumStart.toNat + 13))
      else byteAt pkt (hdr.csumStart.toNat + 13)
  udp : hdr.protocol = ipprotoUDP →
    be16At out (hdr.csumStart.toNat + 4) = BitVec.ofNat 16 (out.length - hdr.csumStart.toNat)
  checksum : checksumValid e out hdr.csumStart.toNat hdr.protocol isV6 = true

variable {e : Endian} {pkt spare : Bytes} {hdr : VirtioNetHdr} {isV6 : Bool}
    {firstTCPSeqNum : BitVec 32} {i dataAt : ℕ}
  {out : Bytes}

structure Cleared (pkt : Bytes) (hdr : VirtioNetHdr) (isV6 : Bool) : Prop where
  transport : be16At pkt (hdr.csumStart.toNat + (transportCsumOffset hdr.protocol).toNat) = 0
  ipv4 : isV6 = false → be16At pkt 10 = 0

def segmentChecksum (e : Endian) (pkt : Bytes) (hdr : VirtioNetHdr) (isV6 : Bool)
    (firstTCPSeqNum : BitVec 32) (i dataAt : ℕ) (out : Bytes) : BitVec 16 :=
  Tun.checksum e (field (segmentFill e pkt hdr isV6 firstTCPSeqNum i dataAt out) hdr.csumStart.toNat
    (hdr.hdrLen.toNat + segmentDataLen pkt hdr dataAt - hdr.csumStart.toNat))
      (pseudoSum e pkt hdr isV6 (segmentDataLen pkt hdr dataAt))

/-- The segment that `gsoSegment` writes to a buffer. -/
def segmentOut (e : Endian) (pkt : Bytes) (hdr : VirtioNetHdr) (isV6 : Bool)
    (firstTCPSeqNum : BitVec 32) (i dataAt : ℕ) (out : Bytes) : Bytes :=
  (patch (segmentFill e pkt hdr isV6 firstTCPSeqNum i dataAt out)
    (hdr.csumStart.toNat + (transportCsumOffset hdr.protocol).toNat)
    (be16 (~~~segmentChecksum e pkt hdr isV6 firstTCPSeqNum i dataAt out))).take
      (hdr.hdrLen.toNat + segmentDataLen pkt hdr dataAt)

theorem gsoSegment_segmentOut (e : Endian) (spare : Bytes) (h : Splittable pkt hdr isV6)
    (firstTCPSeqNum : BitVec 32) (i : ℕ)
    (hdata : dataAt ≤ pkt.length)
    (hout : hdr.hdrLen.toNat + segmentDataLen pkt hdr dataAt ≤ out.length) :
    ∃ out', gsoSegment e pkt spare hdr isV6 hdr.protocol firstTCPSeqNum i dataAt out =
        some (out', hdr.hdrLen.toNat + segmentDataLen pkt hdr dataAt) ∧
      out'.length = out.length ∧ out'.take (hdr.hdrLen.toNat + segmentDataLen pkt hdr dataAt) =
        segmentOut e pkt hdr isV6 firstTCPSeqNum i dataAt out := by
  have hiph := h.iph
  have height := h.checked.eight_le
  have hfits := h.fits
  have haddrs := h.addrs
  have hcsumIn := h.csum_changes.1
  rw [gsoSegment_eq e spare h.checked _ _ hdata (by omega) (by omega),
    if_pos ⟨by rw [length_append]; omega, hout, by rw [h.csumAt_toNat]; omega⟩, h.csumAt_toNat,
    h.pseudoSum_append]
  exact ⟨_, rfl, by simp, rfl⟩

theorem segmentOut_length (hout : hdr.hdrLen.toNat + segmentDataLen pkt hdr dataAt ≤ out.length) :
    (segmentOut e pkt hdr isV6 firstTCPSeqNum i dataAt out).length =
      hdr.hdrLen.toNat + segmentDataLen pkt hdr dataAt := by
  rw [segmentOut, length_take, patch_length, segmentFill_length]
  omega

theorem segmentOut_getElem? {k : ℕ} (hk : k < hdr.hdrLen.toNat + segmentDataLen pkt hdr dataAt)
    (hcsum : ¬(hdr.csumStart.toNat + (transportCsumOffset hdr.protocol).toNat ≤ k ∧
      k < hdr.csumStart.toNat + (transportCsumOffset hdr.protocol).toNat + 2)) :
    (segmentOut e pkt hdr isV6 firstTCPSeqNum i dataAt out)[k]? =
      (segmentFill e pkt hdr isV6 firstTCPSeqNum i dataAt out)[k]? := by
  rw [segmentOut, getElem?_take_of_lt hk, patch_be16_getElem? _ _ hcsum]

/-! ### The IP header -/

/-- A buffer with the IP header of the packet copied to it. -/
def withIPHeader (pkt : Bytes) (hdr : VirtioNetHdr) (out : Bytes) : Bytes :=
  patch out 0 (field pkt 0 hdr.csumStart.toNat)

theorem withIPHeader_field (h : Checked pkt hdr) (hout : hdr.hdrLen.toNat ≤ out.length) {off n : ℕ}
    (hoff : off + n ≤ hdr.csumStart.toNat) :
    field (withIPHeader pkt hdr out) off n = field pkt off n := by
  have height := h.eight_le
  have hfits := h.fits
  apply field_congr
  intro k _ hk
  have hcopy := patch_field_getElem? (b := out) (a := pkt) (i := k) (n := hdr.csumStart.toNat)
    (by omega : 0 + _ ≤ _) (by omega : 0 + _ ≤ _) (zero_le k) (by omega)
  rw [withIPHeader, hcopy, Nat.zero_add, Nat.sub_zero]

theorem segmentOut_ip (h : Splittable pkt hdr isV6) {off n : ℕ}
    (hoff : off + n ≤ hdr.csumStart.toNat) :
    field (segmentOut e pkt hdr isV6 firstTCPSeqNum i dataAt out) off n =
      field (ipFields e isV6 hdr.csumStart.toNat i
        (hdr.hdrLen.toNat + segmentDataLen pkt hdr dataAt) (withIPHeader pkt hdr out)) off n := by
  have height := h.checked.eight_le
  apply field_congr
  intro k _ hk
  rw [segmentOut_getElem? (by omega) (by omega), segmentFill_ip h.checked (by omega)]
  rfl

theorem be16At_segmentOut_ip (h : Splittable pkt hdr isV6) {off : ℕ}
    (hoff : off + 2 ≤ hdr.csumStart.toNat) :
    be16At (segmentOut e pkt hdr isV6 firstTCPSeqNum i dataAt out) off =
      be16At (ipFields e isV6 hdr.csumStart.toNat i
        (hdr.hdrLen.toNat + segmentDataLen pkt hdr dataAt) (withIPHeader pkt hdr out)) off := by
  rw [be16At, be16At, segmentOut_ip h hoff]

theorem segmentOut_ipv4 (h : Splittable pkt hdr false) (hclear : Cleared pkt hdr false)
    (hout : hdr.hdrLen.toNat + segmentDataLen pkt hdr dataAt ≤ out.length) :
    let seg := segmentOut e pkt hdr false firstTCPSeqNum i dataAt out
    be16At seg 2 = BitVec.ofNat 16 seg.length ∧ be16At seg 4 = be16At pkt 4 + BitVec.ofNat 16 i ∧
      Tun.checksum e (seg.take hdr.csumStart.toNat) 0 = 0xffff := by
  intro seg
  have hiph := h.iph
  have height := h.checked.eight_le
  have hlen : (withIPHeader pkt hdr out).length = out.length := patch_length _ _ _
  have hkeep : ∀ off, off + 2 ≤ hdr.csumStart.toNat → be16At (withIPHeader pkt hdr out) off =
      be16At pkt off :=
    fun off hoff => by rw [be16At, be16At, withIPHeader_field h.checked (by omega) hoff]
  refine ⟨?_, ?_, ?_⟩
  · rw [be16At_segmentOut_ip h (by omega), segmentOut_length hout, ipFields, if_neg (by simp),
      be16At_patch_be16 _ _ (by omega), ipv4Fields_length_eq (by omega)]
  · rw [be16At_segmentOut_ip h (by omega), ipFields, if_neg (by simp),
      be16At_patch_be16 _ _ (by omega), ipv4Fields_ident (by omega), hkeep 4 (by omega)]
  · have htake : seg.take hdr.csumStart.toNat = field seg 0 hdr.csumStart.toNat := rfl
    rw [htake, segmentOut_ip h (by omega)]
    exact ipFields_checksum e (by omega) (by omega)
      (by rw [hkeep 10 (by omega)]; exact hclear.ipv4 rfl)

theorem segmentOut_ipv6 (h : Splittable pkt hdr true)
    (hout : hdr.hdrLen.toNat + segmentDataLen pkt hdr dataAt ≤ out.length) :
    let seg := segmentOut e pkt hdr true firstTCPSeqNum i dataAt out
    be16At seg 4 = BitVec.ofNat 16 (seg.length - hdr.csumStart.toNat) := by
  intro seg
  have hiph := h.iph
  have height := h.checked.eight_le
  have hlen : (withIPHeader pkt hdr out).length = out.length := patch_length _ _ _
  rw [be16At_segmentOut_ip h (by omega), segmentOut_length hout, ipFields, if_pos rfl]
  exact be16At_patch_same (by omega)

/-! ### The transport header -/

theorem hdrLen_sub_toNat (h : Splittable pkt hdr isV6) :
    (hdr.hdrLen - hdr.csumStart).toNat = hdr.hdrLen.toNat - hdr.csumStart.toNat := by
  have height := h.checked.eight_le
  exact BitVec.toNat_sub_of_le (BitVec.le_def.mpr (by omega))

theorem csumOffset_udp (hudp : hdr.protocol = ipprotoUDP) :
    (transportCsumOffset hdr.protocol).toNat = 6 := by
  rw [hudp]
  rfl

theorem segmentOut_udp (h : Splittable pkt hdr isV6) (hudp : hdr.protocol = ipprotoUDP)
    (hout : hdr.hdrLen.toNat + segmentDataLen pkt hdr dataAt ≤ out.length) :
    let seg := segmentOut e pkt hdr isV6 firstTCPSeqNum i dataAt out
    be16At seg (hdr.csumStart.toNat + 4) = BitVec.ofNat 16 (seg.length - hdr.csumStart.toNat) := by
  intro seg
  have height := h.checked.eight_le
  have hne : ¬hdr.protocol = ipprotoTCP := by
    rw [hudp]
    decide
  have hoff := csumOffset_udp hudp
  obtain ⟨out₁, hlen₁, -, hfill⟩ := segmentFill_transport e isV6 firstTCPSeqNum i dataAt h.checked
    (by omega : hdr.hdrLen.toNat ≤ out.length)
  have hfield : field seg (hdr.csumStart.toNat + 4) 2 =
      field (transportFields hdr firstTCPSeqNum i (segmentDataLen pkt hdr dataAt)
        (dataAt + segmentDataLen pkt hdr dataAt = pkt.length) out₁)
          (hdr.csumStart.toNat + 4) 2 := by
    apply field_congr
    intro k _ _
    rw [segmentOut_getElem? (by omega) (by omega), hfill k (by omega)]
  rw [be16At, hfield, segmentOut_length hout]
  change be16At _ _ = _
  rw [transportFields, if_neg hne, be16At_patch_same (by omega)]
  apply BitVec.eq_of_toNat_eq
  rw [BitVec.toNat_add, BitVec.toNat_ofNat, BitVec.toNat_ofNat, hdrLen_sub_toNat h]
  omega

/-- The field of the checksum is still clear when the sum is taken. -/
theorem segmentFill_csum (h : Splittable pkt hdr isV6) (hclear : Cleared pkt hdr isV6)
    (hout : hdr.hdrLen.toNat ≤ out.length) :
    be16At (segmentFill e pkt hdr isV6 firstTCPSeqNum i dataAt out)
      (hdr.csumStart.toNat + (transportCsumOffset hdr.protocol).toNat) = 0 := by
  obtain ⟨hcsumIn, hcsumChanges⟩ := h.csum_changes
  obtain ⟨out₁, hlen₁, hsame₁, hfill⟩ :=
    segmentFill_transport e isV6 firstTCPSeqNum i dataAt h.checked hout
  rw [← hclear.transport, be16At, be16At]
  congr 2
  apply field_congr
  intro k h₁ h₂
  obtain ⟨-, h4, h5, htcp⟩ := hcsumChanges (k - hdr.csumStart.toNat) (by omega) (by omega)
  rw [hfill k (by omega), ← hsame₁ k (by omega) (by omega), transportFields]
  split_ifs with hprotocol
  · have h16 := htcp hprotocol
    exact tcpFields_getElem? (by omega) (by omega)
  · have hudp : hdr.protocol = ipprotoUDP := hdr.protocol_cases.resolve_left hprotocol
    have hoff := csumOffset_udp hudp
    exact patch_be16_getElem? _ _ (by omega)

theorem csumOffset_even (protocol : Byte) : Even (transportCsumOffset protocol).toNat := by
  unfold transportCsumOffset
  split_ifs <;> decide

theorem segmentOut_transport (h : Splittable pkt hdr isV6)
    (hout : hdr.hdrLen.toNat + segmentDataLen pkt hdr dataAt ≤ out.length) :
    (segmentOut e pkt hdr isV6 firstTCPSeqNum i dataAt out).drop hdr.csumStart.toNat =
      patch (field (segmentFill e pkt hdr isV6 firstTCPSeqNum i dataAt out) hdr.csumStart.toNat
        (hdr.hdrLen.toNat + segmentDataLen pkt hdr dataAt - hdr.csumStart.toNat))
        (transportCsumOffset hdr.protocol).toNat
        (be16 (~~~segmentChecksum e pkt hdr isV6 firstTCPSeqNum i dataAt out)) := by
  have height := h.checked.eight_le
  have hcsumIn := h.csum_changes.1
  have hoff : hdr.csumStart.toNat + (transportCsumOffset hdr.protocol).toNat - hdr.csumStart.toNat =
      (transportCsumOffset hdr.protocol).toNat := Nat.add_sub_cancel_left _ _
  rw [segmentOut, drop_take]
  change field (patch _ _ _) _ _ = _
  rw [field_patch_inside (by omega) (by rw [be16_length]; omega)
    (by rw [segmentFill_length]; omega), hoff]

theorem checksumValid_iff {seg : Bytes} {iphLen : ℕ} {proto : Byte} {initial : BitVec 64}
    (hinitial : pseudoHeaderChecksumNoFold e proto
      (field seg (addrLayout isV6).1 (addrLayout isV6).2)
      (field seg ((addrLayout isV6).1 + (addrLayout isV6).2) (addrLayout isV6).2)
      (BitVec.ofNat 16 (seg.length - iphLen)) = initial) :
    checksumValid e seg iphLen proto isV6 = true ↔
      Tun.checksum e (seg.drop iphLen) initial = 0xffff := by
  rw [← hinitial, ← complement_eq_zero_iff]
  exact decide_eq_true_iff

theorem segmentOut_checksum (h : Splittable pkt hdr isV6) (hclear : Cleared pkt hdr isV6)
    (hout : hdr.hdrLen.toNat + segmentDataLen pkt hdr dataAt ≤ out.length)
    (haddr : ∀ off n, off + n ≤ (addrLayout isV6).1 + (addrLayout isV6).2 * 2 →
      (addrLayout isV6).1 ≤ off →
      field (segmentOut e pkt hdr isV6 firstTCPSeqNum i dataAt out) off n = field pkt off n) :
    checksumValid e (segmentOut e pkt hdr isV6 firstTCPSeqNum i dataAt out)
      hdr.csumStart.toNat hdr.protocol isV6 = true := by
  have height := h.checked.eight_le
  have hcsumIn := h.csum_changes.1
  have hpseudo : hdr.hdrLen.toNat + segmentDataLen pkt hdr dataAt - hdr.csumStart.toNat =
      (hdr.hdrLen - hdr.csumStart).toNat + segmentDataLen pkt hdr dataAt := by
    rw [hdrLen_sub_toNat h]
    omega
  have hfilled : be16At (segmentFill e pkt hdr isV6 firstTCPSeqNum i dataAt out) _ = 0 :=
    segmentFill_csum h hclear (by omega)
  -- the receiver forms the pseudo header from the segment, the sender from the packet
  have hinitial : ∀ seg, seg = segmentOut e pkt hdr isV6 firstTCPSeqNum i dataAt out →
      pseudoHeaderChecksumNoFold e hdr.protocol (field seg (addrLayout isV6).1 (addrLayout isV6).2)
        (field seg ((addrLayout isV6).1 + (addrLayout isV6).2) (addrLayout isV6).2)
        (BitVec.ofNat 16 (seg.length - hdr.csumStart.toNat)) = pseudoSum e pkt hdr isV6
          (segmentDataLen pkt hdr dataAt) := by
    rintro seg rfl
    rw [haddr _ _ (by omega) (Nat.le_refl _), haddr _ _ (by omega) (by omega),
      segmentOut_length hout, hpseudo]
    rfl
  rw [checksumValid_iff (hinitial _ rfl), segmentOut_transport h hout]
  refine checksum_patch_complement _ (csumOffset_even hdr.protocol) ?_ ?_
  · rw [field_length (by rw [segmentFill_length]; omega)]
    omega
  · rwa [be16At_field _ (by omega)]

theorem segmentOut_valid (h : Splittable pkt hdr isV6) (hclear : Cleared pkt hdr isV6)
    (hfirst : hdr.protocol = ipprotoTCP → firstTCPSeqNum = be32At pkt (hdr.csumStart.toNat + 4))
    (hdata : dataAt = hdr.hdrLen.toNat + hdr.gsoSize.toNat * i) (hmore : dataAt < pkt.length)
    (hout : hdr.hdrLen.toNat + segmentDataLen pkt hdr dataAt ≤ out.length) :
    ValidSegment e pkt hdr isV6 i dataAt
      (segmentOut e pkt hdr isV6 firstTCPSeqNum i dataAt out) := by
  obtain ⟨out', heq, -, hseg⟩ := gsoSegment_spec e [] h hfirst i (le_of_lt hmore) hout
  obtain ⟨out'', heq', -, htake⟩ :=
    gsoSegment_segmentOut e [] h firstTCPSeqNum i (le_of_lt hmore) hout
  cases heq.symm.trans heq'
  have hsegment := hseg.take h
  rw [htake] at hsegment
  have haddrs := h.addrs
  have height := h.checked.eight_le
  refine ⟨hsegment.drop_eq (segmentOut_length hout), hsegment.header, ?_, ?_, fun htcp => ⟨?_, ?_⟩,
    fun hudp => segmentOut_udp h hudp hout, segmentOut_checksum h hclear hout ?_⟩
  · rintro rfl
    exact segmentOut_ipv4 h hclear hout
  · rintro rfl
    exact segmentOut_ipv6 h hout
  · have hshort := h.short
    rw [hsegment.seq htcp, gsoSize_mul_eq (by omega) h.gsoSize, hdata, Nat.add_sub_cancel_left]
  · -- the flags that only the last segment has
    rw [hsegment.flags htcp]
    have hlast : dataAt + segmentDataLen pkt hdr dataAt = pkt.length ↔
        ¬dataAt + hdr.gsoSize.toNat < pkt.length := by
      unfold segmentDataLen
      omega
    simp only [hlast, ite_not]
  · intro off n hhigh hlow
    apply field_congr
    intro k h₁ h₂
    refine hsegment.header k (by omega) ?_ (Or.inl (by omega))
    -- the addresses are not among the bytes that change
    cases isV6 with
    | true =>
      simp only [addrLayout, ipv6SrcAddrOffset] at hlow
      rw [ipChanges_v6]
      simp at hlow
      omega
    | false =>
      simp only [addrLayout, ipv4SrcAddrOffset] at hlow
      rw [ipChanges_v4]
      simp at hlow
      omega

theorem ValidSegment.congr {cleared : Bytes} (hseg : ValidSegment e cleared hdr isV6 i dataAt out)
    (h : Splittable pkt hdr isV6) (hdata : hdr.hdrLen.toNat ≤ dataAt)
    (hsame : SameButChecksums hdr isV6 cleared pkt) : ValidSegment e pkt hdr isV6 i dataAt out := by
  have hiph := h.iph
  refine ⟨?_, ?_, fun hv4 => ?_, hseg.ipv6, fun htcp => ?_, hseg.udp, hseg.checksum⟩
  · rw [hseg.payload]
    congr 1
    apply ext_getElem?
    intro k
    rw [getElem?_drop, getElem?_drop, hsame.payload h (by omega)]
  · intro k hk hip hchange
    rw [hseg.header k hk hip hchange, hsame.header h hip hchange]
  · obtain ⟨htotal, hident, hsum⟩ := hseg.ipv4 hv4
    have hfour : be16At cleared 4 = be16At pkt 4 := by
      rw [be16At, be16At, field_congr fun k _ _ => hsame.getElem? k (by omega) (by omega)]
    exact ⟨htotal, by rw [hident, hfour], hsum⟩
  · obtain ⟨hseq, hflags⟩ := hseg.tcp htcp
    rw [hseq, hflags, hsame.length, (hsame.tcp h htcp).1, (hsame.tcp h htcp).2]
    exact ⟨rfl, rfl⟩

theorem gsoClear_cleared {cleared : Bytes} (h : Splittable pkt hdr isV6)
    (hclear : gsoClear pkt hdr isV6 = some cleared) : Cleared cleared hdr isV6 := by
  have hiph := h.iph
  have hfits := h.fits
  have hcsumIn := h.csum_changes.1
  have hzeros : ([0, 0] : Bytes) = be16 0 := by decide
  unfold gsoClear at hclear
  rw [h.csumAt_toNat, hzeros] at hclear
  cases isV6 with
  | true =>
    have hwrite : writeAt pkt (hdr.csumStart.toNat + (transportCsumOffset hdr.protocol).toNat)
        (be16 0) = some (patch pkt _ (be16 0)) := writeAt_be16 0 (by omega)
    simp only [if_true, bind_eq_bind, bind_some, hwrite] at hclear
    cases hclear
    exact ⟨be16At_patch_same (by omega), fun hv4 => by cases hv4⟩
  | false =>
    have hfirst : writeAt pkt 10 (be16 0) = some (patch pkt 10 (be16 0)) :=
      writeAt_be16 0 (by omega)
    have hsecond : writeAt (patch pkt 10 (be16 0))
        (hdr.csumStart.toNat + (transportCsumOffset hdr.protocol).toNat) (be16 0) =
          some (patch _ _ (be16 0)) :=
      writeAt_be16 0 (by rw [patch_length]; omega)
    simp only [Bool.false_eq_true, if_false, bind_eq_bind, hfirst, bind_some, hsecond] at hclear
    cases hclear
    refine ⟨be16At_patch_same (by rw [patch_length]; omega), fun _ => ?_⟩
    rw [be16At_patch_be16 _ _ (Or.inl (by omega))]
    exact be16At_patch_same (by omega)

/-! ## §2 All packets of a read -/

variable {hdr₀ : VirtioNetHdr} {outOffset : ℕ} {outBuffs : List Bytes}

/-- The loop on the packet without checksums, described by the packet. -/
theorem gsoSplit_cut (e : Endian) (spare : Bytes) (h : Splittable pkt hdr isV6)
    (hroom : ∀ buf ∈ outBuffs,
      outOffset + (hdr.hdrLen.toNat + segmentDataLen pkt hdr hdr.hdrLen.toNat) ≤ buf.length)
    (henough : pkt.length ≤ hdr.hdrLen.toNat + hdr.gsoSize.toNat * outBuffs.length) :
    ∃ r, gsoSplit e pkt spare hdr outBuffs outOffset isV6 = some r ∧ r.tooManySegments = false ∧
      r.count = r.written.length ∧ r.written.map Prod.snd = (r.packets outOffset).map List.length ∧
      Cut pkt hdr (ValidSegment e pkt hdr isV6) 0 hdr.hdrLen.toNat (r.packets outOffset) := by
  have hsplit := gsoSplit_cut_of
    (P := fun i dataAt out => dataAt = hdr.hdrLen.toNat + hdr.gsoSize.toNat * i →
      ValidSegment e pkt hdr isV6 i dataAt out) e spare h hroom henough ?_
  · obtain ⟨r, hr, hfew, hcount, hsizes, hcut⟩ := hsplit
    refine ⟨r, hr, hfew, hcount, hsizes, ?_⟩
    exact hcut.congr rfl (add_zero _).symm fun i dataAt out hdata hvalid => hvalid hdata
  · intro cleared first hclear hsame hfirst i dataAt out out' size hdata hmore hseg
    have hcleared := hsame.splittable h
    have hout := gsoSegment_room hcleared (le_of_lt hmore) hseg
    obtain ⟨out₁, hout₁, hlen, htake⟩ :=
      gsoSegment_segmentOut e spare hcleared first i (le_of_lt hmore) hout
    cases some.inj (hseg.symm.trans hout₁)
    refine ⟨rfl, hlen ▸ hout, fun hat => ?_⟩
    rw [htake]
    exact (segmentOut_valid hcleared (gsoClear_cleared h hclear) hfirst hat hmore hout).congr h
      hdata hsame

theorem Cut.flatten {i dataAt : ℕ} {outs : List Bytes}
    (h : Cut pkt hdr (ValidSegment e pkt hdr isV6) i dataAt outs) :
    (outs.map fun out => out.drop hdr.hdrLen.toNat).flatten = pkt.drop dataAt := by
  induction h with
  | nil hend => simp [drop_eq_nil_of_le hend]
  | cons _ _ hout _ ih =>
    rw [map_cons, flatten_cons, ih, hout.payload, ← drop_drop, take_append_drop]

theorem Accepted.splittable (h : Accepted pkt hdr isV6) (hshort : pkt.length ≤ 65535)
    (haddrs : (addrLayout isV6).1 + (addrLayout isV6).2 * 2 ≤ hdr.csumStart.toNat)
    (hcsum : hdr.csumOffset = transportCsumOffset hdr.protocol) (hsize : 1 ≤ hdr.gsoSize.toNat) :
    Splittable pkt (hdr.withHeaders pkt) isV6 :=
  { addrs := haddrs
    transport := h.checked.transport
    fits := h.checked.fits
    short := lt_succ_of_le hshort
    csumOffset := hcsum
    gsoSize := hsize }

/-- **Cutting a packet.**  For every packet of at most 65535 bytes whose header passed the checks,
with the transport header behind the addresses, and as many buffers as segments with room for one
each, the count and the sizes are those of the packets, their data is that of the packet in pieces
of `gsoSize`, and each is valid. -/
theorem gsoSplit_packets (e : Endian) (spare : Bytes)
    (hpassed : checkHeaders pkt hdr₀ = some (.ok (hdr, isV6)))
    (hshort : pkt.length ≤ 65535)
    (haddrs : (addrLayout isV6).1 + (addrLayout isV6).2 * 2 ≤ hdr.csumStart.toNat)
    (hcsum : hdr.csumOffset = transportCsumOffset hdr.protocol) (hsize : 1 ≤ hdr.gsoSize.toNat)
    (hroom : ∀ buf ∈ outBuffs,
      outOffset + (hdr.hdrLen.toNat + segmentDataLen pkt hdr hdr.hdrLen.toNat) ≤ buf.length)
    (henough : pkt.length ≤ hdr.hdrLen.toNat + hdr.gsoSize.toNat * outBuffs.length) :
    ∃ r, gsoSplit e pkt spare hdr outBuffs outOffset isV6 = some r ∧ r.tooManySegments = false ∧
      r.count = (((pkt.drop hdr.hdrLen.toNat).length + hdr.gsoSize.toNat - 1) /
        hdr.gsoSize.toNat : ℕ) ∧
      r.count = (r.packets outOffset).length ∧
      r.written.map Prod.snd = (r.packets outOffset).map List.length ∧
      ((r.packets outOffset).map fun out => out.drop hdr.hdrLen.toNat).flatten =
        pkt.drop hdr.hdrLen.toNat ∧
      ∀ i out, (r.packets outOffset)[i]? = some out →
        ValidSegment e pkt hdr isV6 i (hdr.hdrLen.toNat + hdr.gsoSize.toNat * i) out := by
  obtain ⟨-, haccepted, rfl⟩ := checkHeaders_ok_iff.mp hpassed
  have hsplit := haccepted.splittable hshort haddrs hcsum hsize
  obtain ⟨r, hr, hfew, hcount, hsizes, hcut⟩ := gsoSplit_cut e spare hsplit hroom henough
  have hlen : (r.packets outOffset).length = r.written.length := length_map _
  refine ⟨r, hr, hfew, ?_, by rw [hcount, hlen], hsizes, hcut.flatten, fun i out hi => ?_⟩
  · rw [hcount, ← hlen, hcut.length_eq hsplit.gsoSize, length_drop]
  · have hget := hcut.get hi
    rwa [zero_add] at hget

theorem gsoSplit_packets_two : ∃ r,
    gsoSplit .little twoBytesPacket [] oneBytePerSegment [List.replicate 29 0, List.replicate 29 0]
      0 false = some r ∧ r.count = 2 ∧ ∀ i out, (r.packets 0)[i]? = some out →
        ValidSegment .little twoBytesPacket oneBytePerSegment false i (28 + 1 * i) out := by
  have hpassed : checkHeaders twoBytesPacket oneBytePerSegment =
      some (.ok (oneBytePerSegment, false)) := by
    rw [checkHeaders_ok_iff]
    refine ⟨by decide,
      ⟨by decide, by decide, by decide, by decide, by decide, by decide⟩, by decide⟩
  have hroom : ∀ buf ∈ [List.replicate 29 (0 : Byte), List.replicate 29 0],
      0 + (28 + segmentDataLen twoBytesPacket oneBytePerSegment 28) ≤ buf.length := by
    decide
  obtain ⟨r, hr, -, hcount, -, -, -, hvalid⟩ :=
    gsoSplit_packets .little [] hpassed (by decide) (by decide)
    (by decide) (by decide) hroom (by decide)
  exact ⟨r, hr, hcount, hvalid⟩

/-! ## §3 The checksum zero -/

variable {bufs : List Bytes} {offset : ℕ} {r : GsoResult}

/-- The sum of the words that the checksum of a UDP packet covers: the addresses, the protocol, the
ports, the data that begins at `dataAt`, and twice the length. -/
def udpSum (pkt : Bytes) (hdr : VirtioNetHdr) (isV6 : Bool) (dataAt : ℕ) : ℕ :=
  wordSum (field pkt (addrLayout isV6).1 (addrLayout isV6).2) +
  wordSum (field pkt ((addrLayout isV6).1 + (addrLayout isV6).2) (addrLayout isV6).2) +
    ipprotoUDP.toNat +
  wordSum (field pkt hdr.csumStart.toNat 4) + 2 * (8 + segmentDataLen pkt hdr dataAt) +
  wordSum (field pkt dataAt (segmentDataLen pkt hdr dataAt))

theorem eight_bytes {b : Bytes} (h : 8 ≤ b.length) :
    wordSum b =
      wordSum (field b 0 4) + (be16At b 4).toNat + (be16At b 6).toNat + wordSum (b.drop 8) := by
  have hsplit : b = field b 0 4 ++ (field b 4 2 ++ (field b 6 2 ++ b.drop 8)) := by
    have h₁ : b = b.take 4 ++ b.drop 4 := (take_append_drop 4 b).symm
    have h₂ : b.drop 4 = (b.drop 4).take 2 ++ b.drop 6 := by
      rw [← drop_drop (i := 2) (j := 4), take_append_drop]
    have h₃ : b.drop 6 = (b.drop 6).take 2 ++ b.drop 8 := by
      rw [← drop_drop (i := 2) (j := 6), take_append_drop]
    calc
      b = b.take 4 ++ ((b.drop 4).take 2 ++ ((b.drop 6).take 2 ++ b.drop 8)) := by
        rw [← h₃, ← h₂, ← h₁]
      _ = _ := rfl
  have heven : ∀ off n, Even n → off + n ≤ b.length → Even (field b off n).length := by
    intro off n hn hoff
    rw [field_length hoff]
    exact hn
  conv_lhs => rw [hsplit]
  rw [wordSum_append _ (heven 0 4 (by decide) (by omega)),
    wordSum_append _ (heven 4 2 (by decide) (by omega)),
    wordSum_append _ (heven 6 2 (by decide) (by omega)), field_two (by omega), field_two (by omega),
    wordSum_be16, wordSum_be16]
  omega

theorem segmentOut_csum (h : Splittable pkt hdr isV6)
    (hout : hdr.hdrLen.toNat + segmentDataLen pkt hdr dataAt ≤ out.length) :
    be16At (segmentOut e pkt hdr isV6 firstTCPSeqNum i dataAt out)
      (hdr.csumStart.toNat + (transportCsumOffset hdr.protocol).toNat) =
      ~~~segmentChecksum e pkt hdr isV6 firstTCPSeqNum i dataAt out := by
  have hcsumIn := h.csum_changes.1
  rw [segmentOut, be16At, field_take (by omega)]
  exact be16At_patch_same (by rw [segmentFill_length]; omega)

section Zero

variable (h : Splittable pkt hdr isV6) (hclear : Cleared pkt hdr isV6)
    (hudp : hdr.protocol = ipprotoUDP)
  (height : hdr.hdrLen.toNat = hdr.csumStart.toNat + 8) (hdata : hdr.hdrLen.toNat ≤ dataAt)
  (hmore : dataAt < pkt.length)
    (hout : hdr.hdrLen.toNat + segmentDataLen pkt hdr dataAt ≤ out.length)
include h hclear hudp height hdata hmore hout

theorem segmentFill_wordSum :
    wordSum (field (segmentFill e pkt hdr isV6 firstTCPSeqNum i dataAt out) hdr.csumStart.toNat
      (8 + segmentDataLen pkt hdr dataAt)) =
      wordSum (field pkt hdr.csumStart.toNat 4) + (8 + segmentDataLen pkt hdr dataAt) +
        wordSum (field pkt dataAt (segmentDataLen pkt hdr dataAt)) := by
  have hiph := h.iph
  have hshort := h.short
  have hend := add_segmentDataLen_le hdr (le_of_lt hmore)
  have hoff := csumOffset_udp hudp
  have hlong : (segmentFill e pkt hdr isV6 firstTCPSeqNum i dataAt out).length = out.length :=
    segmentFill_length ..
  set filled := segmentFill e pkt hdr isV6 firstTCPSeqNum i dataAt out with hfilled
  set seg := segmentOut e pkt hdr isV6 firstTCPSeqNum i dataAt out with hseg
  set size := segmentDataLen pkt hdr dataAt with hsize
  have hports : field filled hdr.csumStart.toNat 4 = field pkt hdr.csumStart.toNat 4 := by
    apply field_congr
    intro k h₁ h₂
    refine segmentFill_header h.checked (by omega) (by omega) ?_ (Or.inr ?_)
    · unfold IPChanges
      omega
    · rw [hudp]
      rintro (hin | ⟨htcp, -⟩)
      · omega
      · exact absurd htcp (by decide)
  -- the length is written before the checksum, and read off the finished segment
  have hlength : be16At filled (hdr.csumStart.toNat + 4) = BitVec.ofNat 16 (8 + size) := by
    have hout' : be16At seg (hdr.csumStart.toNat + 4) =
        BitVec.ofNat 16 (seg.length - hdr.csumStart.toNat) :=
      segmentOut_udp h hudp hout
    have hsame : be16At seg (hdr.csumStart.toNat + 4) =
        be16At filled (hdr.csumStart.toNat + 4) := by
      rw [be16At, be16At, field_congr fun k _ _ => segmentOut_getElem? (by omega) (by omega)]
    rw [← hsame, hout', segmentOut_length hout, height]
    congr 1
    omega
  have hzero : be16At filled (hdr.csumStart.toNat + 6) = 0 := by
    rw [← hoff]
    exact segmentFill_csum h hclear (by omega)
  have hpayload : (field filled hdr.csumStart.toNat
      (8 + size)).drop 8 = field pkt dataAt (size) := by
    apply ext_getElem?
    intro k
    rw [getElem?_drop, field_getElem?, field_getElem?]
    by_cases hk : k < size
    · rw [if_pos (by omega), if_pos hk, ← segmentFill_payload (le_of_lt hmore) hout hk, height,
        add_assoc]
    · rw [if_neg (by omega), if_neg hk]
  have hlen : (field filled hdr.csumStart.toNat (8 + size)).length = 8 + size :=
    field_length (by rw [hlong]; omega)
  rw [eight_bytes (by omega), field_field _ (by omega), add_zero, hports, be16At_field _ (by omega),
    hlength, be16At_field _ (by omega), hzero, hpayload, BitVec.toNat_ofNat,
    mod_eq_of_lt (by omega)]
  rfl

/-- A UDP packet is given the checksum zero when its sum is a multiple of 65535. -/
theorem segmentOut_csum_eq_zero_iff :
    be16At (segmentOut e pkt hdr isV6 firstTCPSeqNum i dataAt out) (hdr.csumStart.toNat + 6) = 0 ↔
      udpSum pkt hdr isV6 dataAt % 65535 = 0 := by
  have hshort := h.short
  have hend := add_segmentDataLen_le hdr (le_of_lt hmore)
  have hoff := csumOffset_udp hudp
  have hcsum : be16At (segmentOut e pkt hdr isV6 firstTCPSeqNum i dataAt out) _ = _ :=
    segmentOut_csum h hout
  have hsize : hdr.hdrLen.toNat + segmentDataLen pkt hdr dataAt - hdr.csumStart.toNat =
      8 + segmentDataLen pkt hdr dataAt := by omega
  have hlen : (BitVec.ofNat 16 ((hdr.hdrLen - hdr.csumStart).toNat +
      segmentDataLen pkt hdr dataAt)).toNat = 8 + segmentDataLen pkt hdr dataAt := by
    rw [BitVec.toNat_ofNat, hdrLen_sub_toNat h, height, Nat.add_sub_cancel_left,
      Nat.mod_eq_of_lt (by omega)]
  have hpseudo := pseudoHeaderChecksumNoFold_represents (e := e) hdr.protocol
    (field pkt (addrLayout isV6).1 (addrLayout isV6).2)
    (field pkt ((addrLayout isV6).1 + (addrLayout isV6).2) (addrLayout isV6).2)
    (BitVec.ofNat 16 ((hdr.hdrLen - hdr.csumStart).toNat + segmentDataLen pkt hdr dataAt))
  rw [hlen, hudp] at hpseudo
  -- the pseudo header and the packet make up the sum
  have hsum : Lib.Represents 65535
    ((pseudoSum e pkt hdr isV6 (segmentDataLen pkt hdr dataAt)).toNat +
      wordSum (field (segmentFill e pkt hdr isV6 firstTCPSeqNum i dataAt out) hdr.csumStart.toNat
        (8 + segmentDataLen pkt hdr dataAt))) (udpSum pkt hdr isV6 dataAt) := by
    rw [segmentFill_wordSum h hclear hudp height hdata hmore hout]
    unfold pseudoSum
    rw [hudp]
    have hadd := hpseudo.add (Lib.Represents.refl 65535 (wordSum (field pkt hdr.csumStart.toNat 4) +
      (8 + segmentDataLen pkt hdr dataAt) +
        wordSum (field pkt dataAt (segmentDataLen pkt hdr dataAt))))
    convert hadd using 1
    unfold udpSum
    omega
  -- the sum contains the protocol number
  have hpos : udpSum pkt hdr isV6 dataAt ≠ 0 := by
    unfold udpSum
    omega
  rw [hoff] at hcsum
  rw [hcsum, complement_eq_zero_iff, segmentChecksum, hsize, checksum_eq_top_iff]
  have hmod := hsum.modEq
  unfold Nat.ModEq at hmod
  rw [hmod]
  exact ⟨fun hzero => hzero.2, fun hzero => ⟨fun hnull => hpos (hsum.zero_iff.mp hnull), hzero⟩⟩

end Zero

theorem udpSum_congr {cleared : Bytes} (h : Splittable pkt hdr isV6)
    (hudp : hdr.protocol = ipprotoUDP)
    (hdata : hdr.hdrLen.toNat ≤ dataAt) (hsame : SameButChecksums hdr isV6 cleared pkt) :
    udpSum cleared hdr isV6 dataAt = udpSum pkt hdr isV6 dataAt := by
  have hiph := h.iph
  have haddrs := h.addrs
  have hoff := csumOffset_udp hudp
  have hkeep := hsame.getElem?
  rw [hoff] at hkeep
  have hstart : isV6 = false → (addrLayout isV6).1 = 12 := by
    rintro rfl
    rfl
  have haddr : ∀ off n, (addrLayout isV6).1 ≤ off →
    off + n ≤ (addrLayout isV6).1 + (addrLayout isV6).2 * 2 →
      field cleared off n = field pkt off n := fun off n hlow hhigh =>
    field_congr fun k h₁ h₂ => hkeep k (fun hin => by have := hstart hin.1; omega) (by omega)
  have hports : field cleared hdr.csumStart.toNat 4 = field pkt hdr.csumStart.toNat 4 :=
    field_congr fun k h₁ h₂ => hkeep k (by omega) (by omega)
  have hpayload : field cleared dataAt (segmentDataLen pkt hdr dataAt) =
      field pkt dataAt (segmentDataLen pkt hdr dataAt) :=
    field_congr fun k h₁ h₂ => hsame.payload h (by omega)
  rw [udpSum, udpSum, hsame.segmentDataLen_eq, haddr _ _ (le_refl _) (by omega),
    haddr _ _ (by omega) (by omega), hports, hpayload]

/-- A property of all packets, said of the places where their data begins. -/
theorem Cut.forall_iff {A : Bytes → Prop} {B : ℕ → Prop} {low : ℕ} {outs : List Bytes}
    (h : Cut pkt hdr (fun i dataAt out => dataAt = low + hdr.gsoSize.toNat * i → (A out ↔ B dataAt))
      0 low outs) :
    (∀ out ∈ outs, A out) ↔ ∀ j, low + hdr.gsoSize.toNat * j < pkt.length →
    B (low + hdr.gsoSize.toNat * j) := by
  constructor
  · intro hall j hj
    have hlt := h.lt_length hj
    have hget := h.get (getElem?_eq_getElem hlt)
    rw [zero_add] at hget
    exact (hget rfl).mp (hall _ (getElem_mem hlt))
  · intro hall out hout
    obtain ⟨j, hj⟩ := mem_iff_getElem?.mp hout
    have hget := h.get hj
    rw [zero_add] at hget
    exact (hget rfl).mpr (hall j (h.lt_of_getElem? hj))

theorem gsoSplit_udp_iff (h : Splittable pkt hdr isV6)
    (hudp : hdr.protocol = ipprotoUDP) (height : hdr.hdrLen.toNat = hdr.csumStart.toNat + 8)
    (hr : gsoSplit e pkt spare hdr bufs offset isV6 = some r) (hfew : r.tooManySegments = false) :
    (∀ out ∈ r.packets offset, be16At out (hdr.csumStart.toNat + 6) ≠ 0) ↔
      ∀ j, hdr.hdrLen.toNat + hdr.gsoSize.toNat * j < pkt.length →
        udpSum pkt hdr isV6 (hdr.hdrLen.toNat + hdr.gsoSize.toNat * j) % 65535 ≠ 0 := by
  obtain ⟨cleared, hclear, hsame⟩ := gsoClear_spec h
  have hcleared := hsame.splittable h
  obtain ⟨first, -, heq⟩ := gsoSplit_eq e spare h.transport h.fits offset bufs hclear hsame.length
  rw [heq] at hr
  have hcut := cut_of_gsoLoop
    (P := fun i dataAt out => dataAt = hdr.hdrLen.toNat + hdr.gsoSize.toNat * i →
      (be16At out (hdr.csumStart.toNat + 6) ≠ 0 ↔ udpSum pkt hdr isV6 dataAt % 65535 ≠ 0)) ?_
        (le_refl _) hr hfew
  · rw [hcut.2.forall_iff, hsame.length]
  · intro i dataAt out out' size hdata hmore hseg
    have hroom := gsoSegment_room hcleared (le_of_lt hmore) hseg
    obtain ⟨out₁, hout₁, hlen, htake⟩ :=
      gsoSegment_segmentOut e spare hcleared first i (le_of_lt hmore) hroom
    cases some.inj (hseg.symm.trans hout₁)
    refine ⟨rfl, hlen ▸ hroom, fun _ => not_congr ?_⟩
    rw [htake, segmentOut_csum_eq_zero_iff hcleared (gsoClear_cleared h hclear)
      hudp height hdata hmore hroom, udpSum_congr h hudp hdata hsame]

/-- The sum that `gsoNoneChecksum` folds is that of the transport packet as it was. -/
theorem gsoNoneChecksum_csum_eq_zero_iff {pkt' : Bytes} {cSumStart : BitVec 16}
    (hfits : cSumStart.toNat + 8 ≤ pkt.length) (hshort : pkt.length ≤ 65535)
    (h : gsoNoneChecksum e pkt cSumStart 6 = some pkt') : be16At pkt' (cSumStart.toNat + 6) = 0 ↔
      wordSum (pkt.drop cSumStart.toNat) ≠ 0 ∧ wordSum (pkt.drop cSumStart.toNat) % 65535 = 0 := by
  have hat : (cSumStart + 6).toNat = cSumStart.toNat + 6 := by
    rw [BitVec.toNat_add]
    exact mod_eq_of_lt (by have : (6 : BitVec 16).toNat = 6 := rfl; omega)
  have hnext : (cSumStart + 6 + 1).toNat = cSumStart.toNat + 6 + 1 := by
    rw [BitVec.toNat_add, hat]
    exact mod_eq_of_lt (by have : (1 : BitVec 16).toNat = 1 := rfl; omega)
  have hdata : (pkt.drop cSumStart.toNat).length = pkt.length - cSumStart.toNat := length_drop ..
  have hfield : be16At pkt (cSumStart.toNat + 6) = be16At (pkt.drop cSumStart.toNat) 6 := by
    rw [be16At, be16At, field, field, drop_drop]
  have hslice : sliceRange (patch pkt (cSumStart.toNat + 6) [0, 0]) cSumStart.toNat pkt.length =
      some (patch (pkt.drop cSumStart.toNat) 6 [0, 0]) := by
    rw [← drop_patch_add (by omega), sliceRange_eq (by omega) (by rw [patch_length]), field,
      take_of_length_le (by rw [length_drop, patch_length])]
  unfold gsoNoneChecksum at h
  dsimp only at h
  rw [hat, hnext] at h
  simp only [bind_eq_bind] at h
  rw [readBE16, if_pos (by omega), bind_some, writeAt_eq_patch (by rw [length_singleton]; omega),
    bind_some, writeAt_eq_patch (by rw [length_singleton, patch_length]; omega), bind_some,
    patch_patch_succ _ _ (by omega), patch_length, hslice, bind_some] at h
  have hwrite : ∀ v,
      writeAt (patch pkt (cSumStart.toNat + 6) [0, 0]) (cSumStart.toNat + 6) (be16 v) =
        some (patch (patch pkt (cSumStart.toNat + 6) [0, 0]) (cSumStart.toNat + 6) (be16 v)) :=
    fun v => writeAt_be16 v (by rw [patch_length]; omega)
  rw [hwrite] at h
  cases h
  -- the partial sum in the field is where the checksum starts from
  have hinitial : ((be16At pkt (cSumStart.toNat + 6)).setWidth 64).toNat =
      (be16At (pkt.drop cSumStart.toNat) 6).toNat := by
    rw [hfield, BitVec.toNat_setWidth]
    exact mod_eq_of_lt (by omega)
  rw [be16At_patch_same (by rw [patch_length]; omega), complement_eq_zero_iff, checksum_eq_top_iff,
    hinitial, add_comm, ← wordSum_clear (by decide) (by omega)]

theorem copyWhole_packets
    (h : copyWhole pkt bufs offset = some (.ok r)) : r.packets offset = [pkt] := by
  unfold copyWhole at h
  simp only [bind_eq_bind] at h
  obtain ⟨buf, -, h⟩ := bind_eq_some_iff.mp h
  obtain ⟨out, hslice, h⟩ := bind_eq_some_iff.mp h
  unfold sliceRange at hslice
  split_ifs at hslice with hrange
  have htake : (buf.take offset).length = offset := by
    rw [length_take]
    omega
  split_ifs at h with hlong
  · cases h
  · cases h
    rw [GsoResult.packets, map_singleton]
    dsimp only
    rw [drop_left' htake, take_left' rfl]

/-- What is read describes a UDP packet: its checksum is asked for, and the UDP header is where the
header says, behind the addresses. -/
def DescribesUDP (pkt : Bytes) (hdr : VirtioNetHdr) : Prop :=
  hdr.csumOffset = 6 ∧
    (hdr.gsoType = gsoUDPL4 ∧ (if byteAt pkt 0 >>> 4 = 6 then 40 else 20) ≤ hdr.csumStart.toNat ∨
      hdr.gsoType = gsoNone ∧ hdr.flags &&& needsCsum ≠ 0 ∧ hdr.csumStart.toNat + 8 ≤ pkt.length)

/-- No sum of a packet that is made of the read is a multiple of 65535.  Without segmentation the
checksum holds the sum of the pseudo header already. -/
def NoZeroSum (pkt : Bytes) (hdr : VirtioNetHdr) : Prop :=
  if hdr.gsoType = gsoNone then
    wordSum (pkt.drop hdr.csumStart.toNat) = 0 ∨ wordSum (pkt.drop hdr.csumStart.toNat) % 65535 ≠ 0
  else
    ∀ j, hdr.csumStart.toNat + 8 + hdr.gsoSize.toNat * j < pkt.length →
      udpSum pkt hdr (decide (byteAt pkt 0 >>> 4 = 6))
        (hdr.csumStart.toNat + 8 + hdr.gsoSize.toNat * j) % 65535 ≠ 0

/-- The packets that are cut.  A `gsoSize` of zero leaves nothing to cut, or is too many
segments. -/
theorem accepted_udp_iff (h : Accepted pkt hdr isV6)
    (htype : hdr.gsoType = gsoUDPL4) (hoffset : hdr.csumOffset = 6)
    (haddrs : (if byteAt pkt 0 >>> 4 = 6 then 40 else 20) ≤ hdr.csumStart.toNat)
    (hshort : pkt.length ≤ 65535)
    (hr : gsoSplit e pkt spare (hdr.withHeaders pkt) bufs offset isV6 = some r)
    (hfew : r.tooManySegments = false) :
    (∀ out ∈ r.packets offset, be16At out (hdr.csumStart.toNat + 6) ≠ 0) ↔
      ∀ j, hdr.csumStart.toNat + 8 + hdr.gsoSize.toNat * j < pkt.length →
        udpSum pkt hdr (decide (byteAt pkt 0 >>> 4 = 6))
          (hdr.csumStart.toNat + 8 + hdr.gsoSize.toNat * j) % 65535 ≠ 0 := by
  have hversion : isV6 = decide (byteAt pkt 0 >>> 4 = 6) := by
    rw [h.version]
    cases isV6 <;> rfl
  have hprotocol : hdr.protocol = ipprotoUDP := by
    unfold VirtioNetHdr.protocol
    rw [if_neg (by rw [htype]; decide)]
  have htransport : transportLen pkt hdr = 8 := if_pos htype
  have hlen : (hdr.withHeaders pkt).hdrLen.toNat = hdr.csumStart.toNat + 8 := by
    rw [VirtioNetHdr.withHeaders, BitVec.toNat_ofNat, mod_eq_of_lt h.noWrap, htransport]
  rw [← hversion]
  by_cases hsize : hdr.gsoSize.toNat = 0
  · -- a size of 0 never advances: with a payload, the buffers would run out
    obtain ⟨cleared, protocol, first, hcleared, hloop⟩ := gsoSplit_loop hr
    rw [hloop] at hr
    have hall : pkt.length ≤ hdr.csumStart.toNat + 8 := by
      by_contra hmore
      have hmany := (gsoLoop_count hr).2
        (by rw [show (hdr.withHeaders pkt).gsoSize = hdr.gsoSize from rfl, hsize, hcleared,
          hlen]; omega)
      rw [hfew] at hmany
      exact absurd hmany.1 (by decide)
    have hnil : r.packets offset = [] := by
      rw [gsoLoop_end (by rw [hcleared, hlen]; exact Nat.not_lt_of_le hall) hr]
      rfl
    rw [hnil]
    exact ⟨fun _ j hj => by omega, fun _ out hout => absurd hout not_mem_nil⟩
  · have hlayout : (addrLayout isV6).1 + (addrLayout isV6).2 * 2 ≤ hdr.csumStart.toNat := by
      have hbound : (addrLayout isV6).1 + (addrLayout isV6).2 * 2 =
          if byteAt pkt 0 >>> 4 = 6 then 40 else 20 := by
        rw [h.version]
        cases isV6 <;> rfl
      rw [hbound]
      exact haddrs
    have hsplit :=
      h.splittable hshort hlayout (by rw [hoffset, hprotocol]; rfl) (one_le_iff_ne_zero.mpr hsize)
    have hiff := gsoSplit_udp_iff hsplit hprotocol hlen hr hfew
    rw [hlen] at hiff
    exact hiff

/-- **The checksum zero.**  Of the UDP packets of a read, one has no checksum if and only if its sum
is a multiple of 65535: the complement is written as it is. -/
theorem udpChecksums_ne_zero_iff {data spare : Bytes} {bufs : List Bytes} {offset : ℕ}
    {r : GsoResult}
    (hdecode : VirtioNetHdr.decode e data = some hdr)
    (hshort : (data.drop virtioNetHdrLen).length ≤ 65535)
    (hudp : DescribesUDP (data.drop virtioNetHdrLen) hdr)
    (hread : handleVirtioRead e data spare bufs offset = some (.ok r))
    (hfew : r.tooManySegments = false) :
    (∀ out ∈ r.packets offset, be16At out (hdr.csumStart.toNat + 6) ≠ 0) ↔
      NoZeroSum (data.drop virtioNetHdrLen) hdr := by
  unfold handleVirtioRead at hread
  rw [hdecode] at hread
  dsimp only at hread
  revert hread hudp hshort
  generalize data.drop virtioNetHdrLen = pkt
  intro hshort ⟨hoffset, hkind⟩ hread
  rcases hkind with ⟨htype, haddrs⟩ | ⟨htype, hneeds, hfits⟩
  · have hnone : hdr.gsoType ≠ gsoNone := by
      rw [htype]
      decide
    have hsupported : ¬(hdr.gsoType ≠ gsoTCPv4 ∧ hdr.gsoType ≠ gsoTCPv6 ∧ hdr.gsoType ≠ gsoUDPL4) :=
      fun h => h.2.2 htype
    rw [if_neg hnone, if_neg hsupported] at hread
    obtain ⟨result, hcheck, hread⟩ := bind_eq_some_iff.mp hread
    match result, hcheck, hread with
    | .error _, _, hread => cases hread
    | .ok (hdr', isV6), hcheck, hread =>
      obtain ⟨-, haccepted, rfl⟩ := checkHeaders_ok_iff.mp hcheck
      obtain ⟨r', hr, heq⟩ := map_eq_some_iff.mp hread
      cases heq
      rw [NoZeroSum, if_neg hnone]
      exact accepted_udp_iff haccepted htype hoffset haddrs hshort hr hfew
  · rw [if_pos htype, if_pos hneeds] at hread
    obtain ⟨pkt', hpkt', hread⟩ := bind_eq_some_iff.mp hread
    rw [hoffset] at hpkt'
    rw [NoZeroSum, if_pos htype, copyWhole_packets hread, forall_mem_singleton, ne_eq,
      gsoNoneChecksum_csum_eq_zero_iff hfits hshort hpkt', not_and_or, not_not]

/-- A UDP packet with two bytes of data behind its virtio header.  Its checksum is the sum of the
pseudo header, as the kernel leaves it. -/
def udpRead (gsoType : Byte) (b₁ b₂ : Byte) : Bytes :=
  [1, gsoType, 28, 0, 2, 0, 20, 0, 6, 0] ++
    [0x45, 0, 0, 30, 0, 0, 0, 0, 64, 17, 0, 0, 10, 0, 0, 1, 10, 0, 0, 2, 0, 1, 0, 2, 0, 10, 0x14,
      0x1e, b₁, b₂]

theorem udpChecksums_ne_zero_example : ∃ r,
    handleVirtioRead .little (udpRead gsoUDPL4 0xaa 0xbb) [] [List.replicate 30 0] 0 =
      some (.ok r) ∧ (r.packets 0).length = 1 ∧ ∀ out ∈ r.packets 0, be16At out 26 ≠ 0 := by
  have hread : ((handleVirtioRead .little (udpRead gsoUDPL4 0xaa 0xbb) [] [replicate 30 0] 0).bind
      fun result => result.toOption.map fun r => (r.tooManySegments, (r.packets 0).length)) =
        some (false, 1) := by
    decide +kernel
  obtain ⟨result, hresult, hmap⟩ := bind_eq_some_iff.mp hread
  match result, hresult, hmap with
  | .ok r, hresult, hmap =>
    obtain ⟨hfew, hone⟩ := Prod.mk.inj (some.inj hmap)
    have hdecode : VirtioNetHdr.decode .little (udpRead gsoUDPL4 0xaa 0xbb) = some
        { flags := 1, gsoType := gsoUDPL4, hdrLen := 28, gsoSize := 2, csumStart := 20,
          csumOffset := 6 } := by
      decide
    refine ⟨r, hresult, hone,
      (udpChecksums_ne_zero_iff hdecode (by decide) ⟨rfl, Or.inl ⟨rfl, by decide⟩⟩ hresult
      hfew).mpr ?_⟩
    rw [NoZeroSum, if_neg (by decide)]
    intro j hj
    -- only the first segment has data
    have hzero : j = 0 := by
      have hlen : ((udpRead gsoUDPL4 0xaa 0xbb).drop virtioNetHdrLen).length = 30 := by decide
      rw [hlen] at hj
      change 20 + 8 + 2 * j < 30 at hj
      omega
    subst hzero
    decide

/-- **Packets without a checksum.**  The data `0xebd4` makes the sum `0xffff`, with segmentation and
without it. -/
theorem udpChecksums_eq_zero :
    ((handleVirtioRead .little (udpRead gsoUDPL4 0xeb 0xd4) [] [List.replicate 30 0] 0).bind
      fun result => result.toOption.map fun r => (r.packets 0).map fun out =>
        be16At out 26) = some [0] ∧
    ((handleVirtioRead .little (udpRead gsoNone 0xeb 0xd4) [] [List.replicate 30 0] 0).bind
      fun result => result.toOption.map fun r => (r.packets 0).map fun out =>
        be16At out 26) = some [0] := by
  constructor <;> decide +kernel

end AmneziaWG.Tun
