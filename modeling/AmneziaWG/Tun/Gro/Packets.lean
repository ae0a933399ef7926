import AmneziaWG.Tun.Gro.Step

/-!
# What Packets Carry

The TCP segment or the UDP datagram in a packet, as an endpoint reads it.  Neither depends on the
length and checksum fields, which are all that offloading changes in a header besides the fields
that tell the segments of a packet apart.

## Main results

- `tcpMeta_reads`, `udpMeta_reads`: what the checks of `tcpGRO` and `udpGRO` say about a packet.
- `Cut.train`: the segments that `gsoSplit` writes follow each other.
-/

namespace AmneziaWG.Tun

open AmneziaWG.Lib List Option Nat

/-! ## §1 Transport headers -/

/-- The version of an IP packet and the length of its IP header, when a header of the given protocol
follows.  A later fragment has no such header. -/
def transportAt (protocol : Byte) (pkt : Bytes) : Option (Bool × ℕ) :=
  if byteAt pkt 0 >>> 4 = 4 then
    let iphLen := ((byteAt pkt 0 &&& 0x0F) * 4).toNat
    if byteAt pkt 9 = protocol ∧ byteAt pkt 6 <<< 3 = 0 ∧ byteAt pkt 7 = 0 ∧ 20 ≤ iphLen ∧
        iphLen + minTransportLen protocol ≤ pkt.length then some (false, iphLen)
    else none
  else if byteAt pkt 0 >>> 4 = 6 then
    if byteAt pkt 6 = protocol ∧ 40 + minTransportLen protocol ≤ pkt.length then some (true, 40)
    else none
  else none

variable {pkt : Bytes} {iphLen : ℕ} {isV6 : Bool}

theorem transportAt_v4 {protocol : Byte} : transportAt protocol pkt = some (false, iphLen) ↔
      byteAt pkt 0 >>> 4 = 4 ∧ ((byteAt pkt 0 &&& 0x0F) * 4).toNat = iphLen ∧
        byteAt pkt 9 = protocol ∧ byteAt pkt 6 <<< 3 = 0 ∧ byteAt pkt 7 = 0 ∧ 20 ≤ iphLen ∧
        iphLen + minTransportLen protocol ≤ pkt.length := by
  simp only [transportAt]
  constructor
  · intro h
    split_ifs at h with hv4 hok
    · cases h
      exact ⟨hv4, rfl, hok⟩
    · cases h
  · rintro ⟨hv4, rfl, hok⟩
    rw [if_pos hv4, if_pos hok]

theorem transportAt_v6 {protocol : Byte} : transportAt protocol pkt = some (true, iphLen) ↔
      byteAt pkt 0 >>> 4 = 6 ∧ byteAt pkt 6 = protocol ∧ iphLen = 40 ∧
        40 + minTransportLen protocol ≤ pkt.length := by
  simp only [transportAt]
  constructor
  · intro h
    split_ifs at h with hv4 hok hv6 hok
    · cases h
    · cases h
      exact ⟨hv6, hok.1, rfl, hok.2⟩
  · rintro ⟨hv6, hprotocol, rfl, hfits⟩
    rw [hv6, if_neg (by decide), if_pos rfl, if_pos ⟨hprotocol, hfits⟩]

theorem transportAt_unique {p q : Byte} {v v' : Bool} {n n' : ℕ}
    (hp : transportAt p pkt = some (v, n)) (hq : transportAt q pkt = some (v', n')) : p = q := by
  cases v with
  | false =>
    obtain ⟨hv, -, hp, -⟩ := transportAt_v4.mp hp
    cases v' with
    | false =>
      obtain ⟨-, -, hq, -⟩ := transportAt_v4.mp hq
      exact hp.symm.trans hq
    | true =>
      obtain ⟨hv', -⟩ := transportAt_v6.mp hq
      exact absurd (hv.symm.trans hv') (by decide)
  | true =>
    obtain ⟨hv, hp, -⟩ := transportAt_v6.mp hp
    cases v' with
    | false =>
      obtain ⟨hv', -⟩ := transportAt_v4.mp hq
      exact absurd (hv.symm.trans hv') (by decide)
    | true =>
      obtain ⟨-, hq, -⟩ := transportAt_v6.mp hq
      exact hp.symm.trans hq

/-- Two packets whose headers differ in bytes only that differ between the segments of a packet. -/
def SameHeader (protocol : Byte) (isV6 : Bool) (iphLen hdrLen : ℕ) (pkt pkt' : Bytes) : Prop :=
  ∀ k, k < hdrLen → ¬IPChanges isV6 k →
    (k < iphLen ∨ ¬TransportChanges protocol (k - iphLen)) → pkt'[k]? = pkt[k]?

section Header

variable {protocol : Byte} {isV6 : Bool} {iphLen hdrLen : ℕ} {pkt pkt' : Bytes}

theorem transportAt_fits (h : transportAt protocol pkt = some (isV6, iphLen)) :
    20 ≤ iphLen ∧ (isV6 = true → iphLen = 40) ∧ iphLen + minTransportLen protocol ≤ pkt.length := by
  cases isV6 with
  | false =>
    obtain ⟨-, -, -, -, -, h20, hfits⟩ := transportAt_v4.mp h
    exact ⟨h20, Bool.noConfusion, hfits⟩
  | true =>
    obtain ⟨-, -, rfl, hfits⟩ := transportAt_v6.mp h
    exact ⟨by omega, fun _ => rfl, hfits⟩

theorem addrLayout_le (h20 : 20 ≤ iphLen) (h40 : isV6 = true → iphLen = 40) :
    (addrLayout isV6).1 + (addrLayout isV6).2 * 2 ≤ iphLen := by
  cases isV6 with
  | true => simp [addrLayout, ipv6SrcAddrOffset, h40 rfl]
  | false => simpa [addrLayout, ipv4SrcAddrOffset] using h20

theorem not_ipChanges_of_addr {k : ℕ} (h : (addrLayout isV6).1 ≤ k) : ¬IPChanges isV6 k := by
  cases isV6 with
  | true =>
    rw [ipChanges_v6]
    simp only [addrLayout, ipv6SrcAddrOffset, if_true] at h
    omega
  | false =>
    rw [ipChanges_v4]
    simp only [addrLayout, ipv4SrcAddrOffset, Bool.false_eq_true, if_false] at h
    omega

theorem SameHeader.byteAt_ip (h : SameHeader protocol isV6 iphLen hdrLen pkt pkt') {k : ℕ}
    (hiph : k < iphLen) (hle : iphLen ≤ hdrLen) (hip : ¬IPChanges isV6 k) :
    byteAt pkt' k = byteAt pkt k :=
  byteAt_congr (h k (lt_of_lt_of_le hiph hle) hip (Or.inl hiph))

theorem SameHeader.transport (h : SameHeader protocol isV6 iphLen hdrLen pkt pkt')
    (htransport : transportAt protocol pkt = some (isV6, iphLen)) (hle : iphLen ≤ hdrLen)
    (hfits : iphLen + minTransportLen protocol ≤ pkt'.length) :
    transportAt protocol pkt' = some (isV6, iphLen) := by
  obtain ⟨h20, -, -⟩ := transportAt_fits htransport
  have hkeep := fun k (hk : k < 20) => h.byteAt_ip (k := k) (by omega) hle
  cases isV6 with
  | false =>
    obtain ⟨hv4, hiph, hprotocol, hfrag, hfrag', -, -⟩ := transportAt_v4.mp htransport
    refine transportAt_v4.mpr ?_
    rw [hkeep 0 (by omega) (by rw [ipChanges_v4]; omega),
      hkeep 6 (by omega) (by rw [ipChanges_v4]; omega),
      hkeep 7 (by omega) (by rw [ipChanges_v4]; omega),
      hkeep 9 (by omega) (by rw [ipChanges_v4]; omega)]
    exact ⟨hv4, hiph, hprotocol, hfrag, hfrag', h20, hfits⟩
  | true =>
    obtain ⟨hv6, hprotocol, rfl, -⟩ := transportAt_v6.mp htransport
    refine transportAt_v6.mpr ?_
    rw [hkeep 0 (by omega) (by rw [ipChanges_v6]; omega),
      hkeep 6 (by omega) (by rw [ipChanges_v6]; omega)]
    exact ⟨hv6, hprotocol, rfl, hfits⟩

theorem SameHeader.field_addr (h : SameHeader protocol isV6 iphLen hdrLen pkt pkt') {off n : ℕ}
    (haddr : (addrLayout isV6).1 ≤ off) (hiph : off + n ≤ iphLen) (hle : iphLen ≤ hdrLen) :
    field pkt' off n = field pkt off n := by
  apply field_congr
  intro k hlow hhigh
  exact h k (by omega) (not_ipChanges_of_addr (by omega)) (Or.inl (by omega))

theorem SameHeader.addresses (h : SameHeader protocol isV6 iphLen hdrLen pkt pkt')
    (htransport : transportAt protocol pkt = some (isV6, iphLen)) (hle : iphLen ≤ hdrLen) :
    field pkt' (addrLayout isV6).1 (addrLayout isV6).2 =
        field pkt (addrLayout isV6).1 (addrLayout isV6).2 ∧
      field pkt' ((addrLayout isV6).1 + (addrLayout isV6).2) (addrLayout isV6).2 =
        field pkt ((addrLayout isV6).1 + (addrLayout isV6).2) (addrLayout isV6).2 := by
  obtain ⟨h20, h40, -⟩ := transportAt_fits htransport
  have haddrs := addrLayout_le h20 h40
  exact ⟨h.field_addr (le_refl _) (by omega) hle, h.field_addr (by omega) (by omega) hle⟩

theorem SameHeader.field_transport (h : SameHeader protocol isV6 iphLen hdrLen pkt pkt') {off n : ℕ}
    (h20 : 20 ≤ iphLen) (hfits : iphLen + off + n ≤ hdrLen)
    (hkeep : ∀ k, off ≤ k → k < off + n → ¬TransportChanges protocol k) :
    field pkt' (iphLen + off) n = field pkt (iphLen + off) n := by
  apply field_congr
  intro k hlow hhigh
  refine h k (by omega) ?_ (Or.inr (hkeep _ (by omega) (by omega)))
  rintro (hin | ⟨-, hin | hin⟩) <;> omega

end Header

/-! ## §2 TCP segments -/

/-- A segment of a TCP connection in one direction, with the acknowledgement that it carries. -/
structure TcpSegment where
  key : TcpFlowKey
  seq : BitVec 32
  psh : Bool
  payload : Bytes
  deriving DecidableEq, Repr

/-- The length of a TCP header, from its data offset. -/
def tcpHeaderLen (pkt : Bytes) (iphLen : ℕ) : ℕ := ((byteAt pkt (iphLen + 12) >>> 4) * 4).toNat

def tcpPSH (pkt : Bytes) (iphLen : ℕ) : Bool :=
    byteAt pkt (iphLen + tcpFlagsOffset) &&& tcpFlagPSH ≠ 0

def tcpSegment (pkt : Bytes) : Option TcpSegment :=
  (transportAt ipprotoTCP pkt).map fun (isV6, iphLen) =>
    { key := newTCPFlowKey pkt isV6 iphLen
      seq := be32At pkt (iphLen + 4)
      psh := tcpPSH pkt iphLen
      payload := pkt.drop (iphLen + tcpHeaderLen pkt iphLen) }

/-- A TCP packet with headers of the given lengths. -/
structure TcpLayout (isV6 : Bool) (iphLen tcphLen : ℕ) (pkt : Bytes) : Prop where
  transport : transportAt ipprotoTCP pkt = some (isV6, iphLen)
  headerLen : tcpHeaderLen pkt iphLen = tcphLen
  low : 20 ≤ tcphLen
  fits : iphLen + tcphLen ≤ pkt.length

section Tcp

variable {isV6 : Bool} {iphLen tcphLen : ℕ} {pkt pkt' : Bytes}

theorem TcpLayout.segment (h : TcpLayout isV6 iphLen tcphLen pkt) : tcpSegment pkt = some
      { key := newTCPFlowKey pkt isV6 iphLen
        seq := be32At pkt (iphLen + 4)
        psh := tcpPSH pkt iphLen
        payload := pkt.drop (iphLen + tcphLen) } := by
  simp only [tcpSegment, h.transport, map_some, h.headerLen]

theorem not_transportChanges_tcp {k : ℕ} (h : ¬(4 ≤ k ∧ k < 8)) (h13 : k ≠ 13)
    (hcsum : ¬(16 ≤ k ∧ k < 18)) : ¬TransportChanges ipprotoTCP k := by
  rintro (hin | ⟨-, hin | hin⟩)
  · exact h hin
  · exact h13 hin
  · exact hcsum hin

theorem SameHeader.tcp (hsame : SameHeader ipprotoTCP isV6 iphLen (iphLen + tcphLen) pkt pkt')
    (h : TcpLayout isV6 iphLen tcphLen pkt) (hfits : iphLen + tcphLen ≤ pkt'.length) :
    TcpLayout isV6 iphLen tcphLen pkt' ∧
      newTCPFlowKey pkt' isV6 iphLen = newTCPFlowKey pkt isV6 iphLen := by
  obtain ⟨h20, -⟩ := transportAt_fits h.transport
  have hlow := h.low
  have hmin : minTransportLen ipprotoTCP = 20 := rfl
  have hle : iphLen ≤ iphLen + tcphLen := le_add_right _ _
  -- the segments differ in the sequence number, the flags and the checksum only
  have hfield : ∀ off n, off + n ≤ 20 →
    (∀ k, off ≤ k → k < off + n → ¬TransportChanges ipprotoTCP k) →
      field pkt' (iphLen + off) n = field pkt (iphLen + off) n :=
    fun off n hn hkeep => hsame.field_transport h20 (by omega) hkeep
  constructor
  · refine ⟨hsame.transport h.transport hle (by omega), ?_, hlow, hfits⟩
    have hbyte : byteAt pkt' (iphLen + 12) = byteAt pkt (iphLen + 12) := by
      refine byteAt_congr (hsame _ (by omega) ?_ (Or.inr ?_))
      · rintro (hin | ⟨-, hin | hin⟩) <;> omega
      · exact not_transportChanges_tcp (by omega) (by omega) (by omega)
    rw [← h.headerLen, tcpHeaderLen, tcpHeaderLen, hbyte]
  · obtain ⟨hsrc, hdst⟩ := hsame.addresses h.transport hle
    have hports := hfield 0 2 (by omega) fun k _ _ =>
      not_transportChanges_tcp (by omega) (by omega) (by omega)
    have hports' := hfield 2 2 (by omega) fun k _ _ =>
      not_transportChanges_tcp (by omega) (by omega) (by omega)
    have hack := hfield 8 4 (by omega) fun k _ _ =>
      not_transportChanges_tcp (by omega) (by omega) (by omega)
    rw [add_zero] at hports
    simp only [newTCPFlowKey, be16At, be32At, hsrc, hdst, hports, hports', hack]

end Tcp

/-! ## §3 UDP datagrams -/

/-- The flow and the payload of the datagram in a packet. -/
def udpDatagram (pkt : Bytes) : Option (UdpFlowKey × Bytes) :=
  (transportAt ipprotoUDP pkt).map fun (isV6, iphLen) =>
    (newUDPFlowKey pkt isV6 iphLen, pkt.drop (iphLen + udphLen))

theorem udpDatagram_eq (h : transportAt ipprotoUDP pkt = some (isV6, iphLen)) :
    udpDatagram pkt = some (newUDPFlowKey pkt isV6 iphLen, pkt.drop (iphLen + udphLen)) := by
  simp only [udpDatagram, h, map_some]

theorem udpDatagram_of_tcp
    (h : transportAt ipprotoTCP pkt = some (isV6, iphLen)) : udpDatagram pkt = none := by
  rw [udpDatagram, map_eq_none_iff]
  by_contra hudp
  obtain ⟨⟨isV6', iphLen'⟩, hudp⟩ := ne_none_iff_exists'.mp hudp
  exact absurd (transportAt_unique h hudp) (by decide)

theorem tcpSegment_of_udp
    (h : transportAt ipprotoUDP pkt = some (isV6, iphLen)) : tcpSegment pkt = none := by
  rw [tcpSegment, map_eq_none_iff]
  by_contra htcp
  obtain ⟨⟨isV6', iphLen'⟩, htcp⟩ := ne_none_iff_exists'.mp htcp
  exact absurd (transportAt_unique h htcp) (by decide)

theorem SameHeader.udp {pkt' : Bytes}
    (hsame : SameHeader ipprotoUDP isV6 iphLen (iphLen + udphLen) pkt pkt')
    (h : transportAt ipprotoUDP pkt = some (isV6, iphLen))
    (hfits : iphLen + udphLen ≤ pkt'.length) :
    transportAt ipprotoUDP pkt' = some (isV6, iphLen) ∧
      newUDPFlowKey pkt' isV6 iphLen = newUDPFlowKey pkt isV6 iphLen := by
  obtain ⟨h20, -⟩ := transportAt_fits h
  have hle : iphLen ≤ iphLen + udphLen := le_add_right _ _
  refine ⟨hsame.transport h hle hfits, ?_⟩
  obtain ⟨hsrc, hdst⟩ := hsame.addresses h hle
  -- the ports are in front of the length and the checksum, which change
  have hkeep : ∀ k, k < 4 → ¬TransportChanges ipprotoUDP k := by
    rintro k hk (hin | ⟨hudp, -⟩)
    · omega
    · exact absurd hudp (by decide)
  have hports : field pkt' (iphLen + 0) 2 = field pkt (iphLen + 0) 2 :=
    hsame.field_transport h20 (by simp [udphLen]) fun k _ _ => hkeep k (by omega)
  have hports' : field pkt' (iphLen + 2) 2 = field pkt (iphLen + 2) 2 :=
    hsame.field_transport h20 (by simp [udphLen]) fun k _ _ => hkeep k (by omega)
  rw [add_zero] at hports
  simp only [newUDPFlowKey, be16At, hsrc, hdst, hports, hports']

/-! ## §4 Candidates -/

/-- The fields that make a packet a candidate. -/
def CandidateHeader (protocol : Byte) (pkt : Bytes) : Bool → Prop
  | false => byteAt pkt 0 >>> 4 = 4 ∧ byteAt pkt 0 &&& 0x0F = 5 ∧ byteAt pkt 9 = protocol
  | true => byteAt pkt 0 >>> 4 = 6 ∧ byteAt pkt 6 = protocol

/-- The length of the IP header of a candidate. -/
def candidateHeaderLen (isV6 : Bool) : ℕ := if isV6 then 40 else 20

section Candidate

variable {pkt : Bytes} {canUDPGRO isV6 : Bool} {protocol : Byte}

theorem packetIsGROCandidate_tcp (h : packetIsGROCandidate pkt canUDPGRO = .tcp isV6) :
    CandidateHeader ipprotoTCP pkt isV6 := by
  unfold packetIsGROCandidate at h
  split_ifs at h with hshort hv4 hihl htcp hudp hv6 htcp hudp
  · cases h
    exact ⟨hv4, not_not.mp hihl, htcp.1⟩
  · cases h
    exact ⟨hv6, htcp.1⟩

theorem packetIsGROCandidate_udp (h : packetIsGROCandidate pkt canUDPGRO = .udp isV6) :
    CandidateHeader ipprotoUDP pkt isV6 := by
  unfold packetIsGROCandidate at h
  split_ifs at h with hshort hv4 hihl htcp hudp hv6 htcp hudp
  · cases h
    exact ⟨hv4, not_not.mp hihl, hudp.1⟩
  · cases h
    exact ⟨hv6, hudp.1⟩

theorem groIPHeaderLen_eq (h : CandidateHeader protocol pkt isV6) {iphLen : ℕ}
    (hlen : groIPHeaderLen pkt isV6 = some iphLen) :
    iphLen = candidateHeaderLen isV6 ∧ pkt.length < 2 ^ 16 := by
  unfold groIPHeaderLen maxUint16 at hlen
  cases isV6 with
  | false =>
    have hihl : ((byteAt pkt 0 &&& 0x0F) * 4).toNat = 20 := by rw [h.2.1]; rfl
    simp only [hihl, Bool.false_eq_true, if_false] at hlen
    split_ifs at hlen
    cases hlen
    exact ⟨rfl, by omega⟩
  | true =>
    simp only [if_true] at hlen
    split_ifs at hlen
    cases hlen
    exact ⟨rfl, by omega⟩

theorem transportAt_of_candidate (h : CandidateHeader protocol pkt isV6)
    (hfragment : (!isV6 && isFragment pkt) = false)
    (hfits : candidateHeaderLen isV6 + minTransportLen protocol ≤ pkt.length) :
    transportAt protocol pkt = some (isV6, candidateHeaderLen isV6) := by
  cases isV6 with
  | false =>
    simp only [isFragment, Bool.not_false, Bool.true_and, decide_eq_false_iff_not, not_or,
      not_not] at hfragment
    have hihl : ((byteAt pkt 0 &&& 0x0F) * 4).toNat = 20 := by rw [h.2.1]; rfl
    exact transportAt_v4.mpr ⟨h.1, hihl, h.2.2, hfragment.2.1, hfragment.2.2, Nat.le_refl _, hfits⟩
  | true => exact transportAt_v6.mpr ⟨h.1, h.2, rfl, hfits⟩

/-- What `tcpGRO` reads from a packet is there. -/
structure TcpReads (isV6 : Bool) (m : TcpMeta) (pkt : Bytes) : Prop where
  layout : TcpLayout isV6 m.iphLen m.tcphLen pkt
  iphLen : m.iphLen = candidateHeaderLen isV6
  high : m.tcphLen ≤ 60
  seq : m.seq = be32At pkt (m.iphLen + 4)
  psh : tcpPSH pkt m.iphLen = m.pshSet
  gsoSize : m.gsoSize.toNat = (pkt.drop (m.iphLen + m.tcphLen)).length
  pos : 0 < m.gsoSize.toNat
  short : pkt.length < 2 ^ 16

theorem tcpMeta_reads {m : TcpMeta} (hcandidate : packetIsGROCandidate pkt canUDPGRO = .tcp isV6)
    (hmeta : tcpMeta pkt isV6 = some m) : TcpReads isV6 m pkt := by
  have hheader := packetIsGROCandidate_tcp hcandidate
  unfold tcpMeta at hmeta
  cases hlen : groIPHeaderLen pkt isV6 with
  | none =>
    rw [hlen] at hmeta
    cases hmeta
  | some iphLen =>
    obtain ⟨rfl, hshort⟩ := groIPHeaderLen_eq hheader hlen
    rw [hlen] at hmeta
    simp only [bind_eq_bind, bind_some] at hmeta
    split_ifs at hmeta with htcph hfits hfragment hflags hsize
    cases hmeta
    rw [not_or, Nat.not_lt, Nat.not_lt] at htcph
    have htransport := transportAt_of_candidate hheader (Bool.eq_false_iff.mpr hfragment)
      (by rw [show minTransportLen ipprotoTCP = 20 from rfl]; omega)
    -- the payload has at most 65535 bytes, and its length is not cut to 16 bits
    have hgso : (BitVec.ofNat 16 (pkt.length -
        ((byteAt pkt (candidateHeaderLen isV6 + 12) >>> 4) * 4).toNat -
          candidateHeaderLen isV6)).toNat =
        (pkt.drop (candidateHeaderLen isV6 +
          ((byteAt pkt (candidateHeaderLen isV6 + 12) >>> 4) * 4).toNat)).length := by
      rw [BitVec.toNat_ofNat, length_drop, mod_eq_of_lt (by omega)]
      omega
    refine ⟨⟨htransport, rfl, htcph.1, Nat.le_of_not_lt hfits⟩, rfl, htcph.2, rfl, ?_, hgso,
      ?_, hshort⟩
    · -- the flags are ACK, or ACK and PSH
      rw [not_and_or, not_not, not_not] at hflags
      rcases hflags with hflags | hflags
      · simp [tcpPSH, hflags, tcpFlagACK, tcpFlagPSH]
      · simp [tcpPSH, hflags, tcpFlagACK, tcpFlagPSH]
    · simp only [BitVec.lt_def] at hsize
      rw [← hgso] at *
      exact pos_of_ne_zero fun h0 => hsize (by rw [h0]; decide)

/-- What `udpGRO` reads from a packet is there. -/
structure UdpReads (isV6 : Bool) (m : UdpMeta) (pkt : Bytes) : Prop where
  transport : transportAt ipprotoUDP pkt = some (isV6, m.iphLen)
  iphLen : m.iphLen = candidateHeaderLen isV6
  gsoSize : m.gsoSize.toNat = (pkt.drop (m.iphLen + udphLen)).length
  pos : 0 < m.gsoSize.toNat

theorem udpMeta_reads {m : UdpMeta} (hcandidate : packetIsGROCandidate pkt canUDPGRO = .udp isV6)
    (hmeta : udpMeta pkt isV6 = some m) : UdpReads isV6 m pkt := by
  have hheader := packetIsGROCandidate_udp hcandidate
  unfold udpMeta at hmeta
  cases hlen : groIPHeaderLen pkt isV6 with
  | none =>
    rw [hlen] at hmeta
    cases hmeta
  | some iphLen =>
    obtain ⟨rfl, hshort⟩ := groIPHeaderLen_eq hheader hlen
    rw [hlen] at hmeta
    simp only [bind_eq_bind, bind_some] at hmeta
    split_ifs at hmeta with hfits hfragment hsize
    cases hmeta
    have htransport := transportAt_of_candidate hheader (Bool.eq_false_iff.mpr hfragment)
      (Nat.le_of_not_lt hfits)
    have hgso : (BitVec.ofNat 16 (pkt.length - udphLen - candidateHeaderLen isV6)).toNat =
        (pkt.drop (candidateHeaderLen isV6 + udphLen)).length := by
      rw [BitVec.toNat_ofNat, length_drop, mod_eq_of_lt (by omega)]
      omega
    refine ⟨htransport, rfl, hgso, ?_⟩
    simp only [BitVec.lt_def] at hsize
    exact pos_of_ne_zero fun h0 => hsize (by rw [h0]; decide)

end Candidate

/-! ## §5 Trains -/

/-- Segments that follow each other, all but the last of the same size; only the last may have the
PSH flag. -/
def train (key : TcpFlowKey) (size : ℕ) (psh : Bool) : BitVec 32 → List Bytes → List TcpSegment
  | _, [] => []
  | seq, c :: cs =>
    { key, seq, psh := psh && cs.isEmpty, payload := c } ::
      train key size psh (seq + BitVec.ofNat 32 size) cs

section Train

variable {key : TcpFlowKey} {size : ℕ}

theorem train_concat (psh : Bool) (seq : BitVec 32) (cs : List Bytes) (c : Bytes) :
    train key size psh seq (cs ++ [c]) = train key size false seq cs ++
      [{ key, seq := seq + BitVec.ofNat 32 (size * cs.length), psh, payload := c }] := by
  induction cs generalizing seq with
  | nil => simp [train]
  | cons d cs ih =>
    have hseq : seq + BitVec.ofNat 32 size + BitVec.ofNat 32 (size * cs.length) =
        seq + BitVec.ofNat 32 (size * (d :: cs).length) := by
      rw [BitVec.add_assoc, ← BitVec.ofNat_add, List.length_cons, Nat.mul_add, Nat.mul_one,
        Nat.add_comm size]
    rw [List.cons_append, train, ih, hseq, train]
    simp

theorem countP_train (psh : Bool) (seq : BitVec 32) {cs : List Bytes} (hcs : cs ≠ []) :
    (train key size psh seq cs).countP TcpSegment.psh = if psh then 1 else 0 := by
  induction cs generalizing seq with
  | nil => exact absurd rfl hcs
  | cons c cs ih =>
    cases cs with
    | nil => cases psh <;> rfl
    | cons d cs =>
      rw [train, countP_cons, ih _ (cons_ne_nil _ _)]
      simp

end Train

/-! ## §6 Splitting into a train -/

section Split

variable {pkt out : Bytes} {hdr : VirtioNetHdr} {isV6 : Bool} {i dataAt : ℕ}

theorem IsSegment.drop_eq (h : IsSegment pkt hdr isV6 i dataAt out)
    (hlen : out.length = hdr.hdrLen.toNat + segmentDataLen pkt hdr dataAt) :
    out.drop hdr.hdrLen.toNat = (pkt.drop dataAt).take hdr.gsoSize.toNat := by
  apply ext_getElem?
  intro k
  rw [getElem?_drop, getElem?_take, getElem?_drop]
  by_cases hk : k < segmentDataLen pkt hdr dataAt
  · rw [h.payload k hk]
    rw [segmentDataLen] at hk
    rw [if_pos (by omega)]
  · rw [List.getElem?_eq_none (by omega)]
    rw [segmentDataLen] at hk
    split_ifs
    · rw [getElem?_eq_none (by omega)]
    · rfl

theorem IsSegment.tcpPSH_eq (h : IsSegment pkt hdr isV6 i dataAt out)
    (htcp : hdr.protocol = ipprotoTCP)
    (hdata : dataAt < pkt.length) : tcpPSH out hdr.csumStart.toNat =
      (tcpPSH pkt hdr.csumStart.toNat && ((pkt.drop dataAt).drop hdr.gsoSize.toNat).isEmpty) := by
  have hclear : clearLastFlags (byteAt pkt (hdr.csumStart.toNat + 13)) &&& tcpFlagPSH = 0 := by
    have hmask : ~~~(tcpFlagFIN ||| tcpFlagPSH) &&& tcpFlagPSH = 0 := by decide
    rw [clearLastFlags, BitVec.and_assoc, hmask]
    exact BitVec.and_zero
  have hlast : ((pkt.drop dataAt).drop hdr.gsoSize.toNat).isEmpty =
      decide (dataAt + segmentDataLen pkt hdr dataAt = pkt.length) := by
    rw [Bool.eq_iff_iff, List.isEmpty_iff, List.drop_drop, List.drop_eq_nil_iff, decide_eq_true_eq,
      segmentDataLen]
    omega
  rw [tcpPSH, tcpFlagsOffset, h.flags htcp, hlast, tcpPSH, tcpFlagsOffset]
  split_ifs with hend
  · simp [hend]
  · simp [hend, hclear]

/-- The number that `gsoSplit` adds to the first sequence number does not wrap. -/
theorem gsoSize_mul_eq {g : BitVec 16} (h : g.toNat * i < 2 ^ 16) (hg : 0 < g.toNat) :
    (g * BitVec.ofNat 16 i).setWidth 32 = BitVec.ofNat 32 (g.toNat * i) := by
  have hi : i < 2 ^ 16 := Nat.lt_of_le_of_lt (Nat.le_mul_of_pos_left i hg) h
  apply BitVec.eq_of_toNat_eq
  rw [BitVec.toNat_setWidth, BitVec.toNat_mul, BitVec.toNat_ofNat, BitVec.toNat_ofNat,
    mod_eq_of_lt hi, mod_eq_of_lt h]

/-- The segments of a packet follow each other and carry its payload. -/
theorem Cut.train {iphLen tcphLen : ℕ} {outs : List Bytes}
    (hsegs : Segments pkt hdr isV6 i dataAt outs)
    (h : TcpLayout isV6 iphLen tcphLen pkt) (hstart : hdr.csumStart.toNat = iphLen)
    (hlen : hdr.hdrLen.toNat = iphLen + tcphLen) (htcp : hdr.protocol = ipprotoTCP)
    (hsize : 0 < hdr.gsoSize.toNat) (hshort : pkt.length < 2 ^ 16)
    (hdata : dataAt = iphLen + tcphLen + hdr.gsoSize.toNat * i) : outs.filterMap tcpSegment =
      train (newTCPFlowKey pkt isV6 iphLen) hdr.gsoSize.toNat (tcpPSH pkt iphLen)
        (be32At pkt (iphLen + 4) + BitVec.ofNat 32 (hdr.gsoSize.toNat * i))
        (chunks hdr.gsoSize.toNat (pkt.drop dataAt)) := by
  induction hsegs with
  | nil hend => rw [drop_eq_nil_of_le hend, chunks_nil, Tun.train, filterMap_nil]
  | @cons i dataAt out outs hmore hout hseg _ ih =>
    have hsame : SameHeader ipprotoTCP isV6 iphLen (iphLen + tcphLen) pkt out := by
      intro k hk hip hchange
      exact hseg.header k (by omega) hip (by rw [htcp, hstart]; exact hchange)
    obtain ⟨hlayout, hkey⟩ := hsame.tcp h (by omega)
    have hseq : be32At out (iphLen + 4) =
        be32At pkt (iphLen + 4) + BitVec.ofNat 32 (hdr.gsoSize.toNat * i) := by
      rw [← hstart, hseg.seq htcp, gsoSize_mul_eq (by omega) hsize]
    have hpsh := hseg.tcpPSH_eq htcp hmore
    rw [hstart] at hpsh
    have hpayload := hseg.drop_eq hout
    rw [hlen] at hpayload
    have hne : pkt.drop dataAt ≠ [] := by
      rw [Ne, drop_eq_nil_iff]
      omega
    -- the flag goes to the segment behind which nothing is left
    have hempty : ((pkt.drop dataAt).drop hdr.gsoSize.toNat).isEmpty =
        (chunks hdr.gsoSize.toNat ((pkt.drop dataAt).drop hdr.gsoSize.toNat)).isEmpty := by
      by_cases hnil : (pkt.drop dataAt).drop hdr.gsoSize.toNat = []
      · rw [hnil, chunks_nil]
        rfl
      · rw [chunks_eq_cons hsize hnil, isEmpty_eq_false_iff.mpr hnil, isEmpty_cons]
    have hnext : be32At pkt (iphLen + 4) + BitVec.ofNat 32 (hdr.gsoSize.toNat * i) +
        BitVec.ofNat 32 hdr.gsoSize.toNat =
        be32At pkt (iphLen + 4) + BitVec.ofNat 32 (hdr.gsoSize.toNat * (i + 1)) := by
      rw [BitVec.add_assoc, ← BitVec.ofNat_add, mul_add, mul_one]
    rw [List.filterMap_cons_some hlayout.segment,
      ih (by rw [hdata, Nat.mul_add, Nat.mul_one]; omega),
      chunks_eq_cons hsize hne, Tun.train, hkey, hseq, hpsh, hpayload, hempty, hnext, drop_drop]

theorem Cut.udp {iphLen : ℕ} {outs : List Bytes} (hsegs : Segments pkt hdr isV6 i dataAt outs)
    (h : transportAt ipprotoUDP pkt = some (isV6, iphLen)) (hstart : hdr.csumStart.toNat = iphLen)
    (hlen : hdr.hdrLen.toNat = iphLen + udphLen) (hudp : hdr.protocol = ipprotoUDP) :
    outs.filterMap tcpSegment = [] := by
  induction hsegs with
  | nil => exact filterMap_nil
  | @cons _ _ out _ _ hout hseg _ ih =>
    have hsame : SameHeader ipprotoUDP isV6 iphLen (iphLen + udphLen) pkt out := by
      intro k hk hip hchange
      exact hseg.header k (by omega) hip (by rw [hudp, hstart]; exact hchange)
    obtain ⟨htransport, -⟩ := hsame.udp h (by omega)
    rw [filterMap_cons_none (tcpSegment_of_udp htransport), ih]

end Split

end AmneziaWG.Tun
