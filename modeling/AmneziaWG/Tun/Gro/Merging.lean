import AmneziaWG.Tun.Gro.Accounting

/-!
# Merged Buffers

What the items say about their buffers.  A merge puts one payload behind the other, so that the
header in front is still that of the flow and the payload is cut into the payloads that were merged.

## Main results

- `TcpHeader.merge`: a TCP item describes the headers in its buffer.
- `UdpEntry.merge`: a UDP item describes its buffer.
-/

namespace AmneziaWG.Tun

open AmneziaWG.Lib List BitVec Nat

/-! ## §1 Appending to a buffer -/

section Append

variable {b : Buffer} {offset : ℕ}

theorem Buffer.pkt_append (hoffset : offset ≤ b.bytes.length) (data : Bytes) :
    (b.append data).pkt offset = b.pkt offset ++ data :=
  drop_append_of_le_length hoffset

theorem Buffer.length_pkt (b : Buffer) (offset : ℕ) :
    (b.pkt offset).length = b.bytes.length - offset :=
  length_drop ..

/-- With room in the array of the buffer, that array is kept. -/
theorem Buffer.cap_append {data : Bytes} (h : b.bytes.length + data.length ≤ b.cap) :
    (b.append data).cap = b.cap := by
  refine max_eq_left ?_
  rw [length_append]
  exact h

theorem sameHeader_append {protocol : Byte} {isV6 : Bool} {iphLen hdrLen : ℕ} {pkt : Bytes}
    (hfits : hdrLen ≤ pkt.length) (data : Bytes) :
    SameHeader protocol isV6 iphLen hdrLen pkt (pkt ++ data) :=
  fun _ hk _ _ => getElem?_append_left (lt_of_lt_of_le hk hfits)

theorem sameHeader_patch_flags {isV6 : Bool} {iphLen hdrLen : ℕ} (pkt : Bytes) (flags : Byte) :
    SameHeader ipprotoTCP isV6 iphLen hdrLen pkt (patch pkt (iphLen + tcpFlagsOffset) [flags]) := by
  intro k _ _ hchange
  apply patch_getElem?_of_outside
  by_contra hin
  have hk : k = iphLen + 13 := by
    simp only [tcpFlagsOffset, length_singleton] at hin
    omega
  rcases hchange with hlt | hnot
  · omega
  · exact hnot (Or.inr ⟨rfl, Or.inl (by omega)⟩)

end Append

theorem SameHeader.trans {protocol : Byte} {isV6 : Bool} {iphLen hdrLen : ℕ} {a b c : Bytes}
    (h : SameHeader protocol isV6 iphLen hdrLen a b)
    (h' : SameHeader protocol isV6 iphLen hdrLen b c) :
    SameHeader protocol isV6 iphLen hdrLen a c :=
  fun k hk hip hchange => (h' k hk hip hchange).trans (h k hk hip hchange)

/-! ## §2 TCP items -/

section TcpCoalesce

variable {pkt target : Bytes} {m : TcpMeta} {item : TcpGROItem}

theorem tcphLen_of_canCoalesce (h : tcpPacketsCanCoalesce pkt m item target ≠ .unavailable) :
    m.tcphLen = item.tcphLen := by
  by_contra hne
  rw [tcpPacketsCanCoalesce, if_pos hne] at h
  exact h rfl

/-- A packet that is appended follows the item, which has neither a PSH flag nor a short segment. -/
theorem canCoalesce_append (h : tcpPacketsCanCoalesce pkt m item target = .append) :
    m.seq = item.sentSeq + (item.gsoSize + item.numMerged * item.gsoSize).setWidth 32 ∧
      item.pshSet = false ∧
      (target.drop (m.iphLen + m.tcphLen)).length % item.gsoSize.toNat = 0 ∧
        m.gsoSize ≤ item.gsoSize := by
  unfold tcpPacketsCanCoalesce at h
  simp only at h
  split_ifs at h with h₁ h₂ h₃ hseq hpsh hmod hsize
  refine ⟨hseq, Bool.eq_false_iff.mpr hpsh, not_not.mp hmod, ?_⟩
  exact BitVec.not_lt.mp hsize

/-- A packet that is prepended is followed by the item, and no smaller than its segments. -/
theorem canCoalesce_prepend (h : tcpPacketsCanCoalesce pkt m item target = .prepend) :
    m.seq + m.gsoSize.setWidth 32 = item.sentSeq ∧ m.pshSet = false ∧ item.gsoSize ≤ m.gsoSize ∧
      (item.numMerged = 0 ∨ m.gsoSize = item.gsoSize) := by
  unfold tcpPacketsCanCoalesce at h
  simp only at h
  split_ifs at h with h₁ h₂ h₃ hseq hpsh hmod hsize hfront hpsh hsmall hlarge
  have hle : item.gsoSize ≤ m.gsoSize := BitVec.not_lt.mp hsmall
  refine ⟨hfront, Bool.eq_false_iff.mpr hpsh, hle, ?_⟩
  by_cases hmerged : item.numMerged = 0
  · exact Or.inl hmerged
  · refine Or.inr (BitVec.le_antisymm (BitVec.not_lt.mp fun hgt => hlarge ⟨hgt, ?_⟩) hle)
    have hne : item.numMerged.toNat ≠ 0 := fun h0 => hmerged (eq_of_toNat_eq h0)
    exact lt_def.mpr (pos_of_ne_zero hne)

theorem canCoalesce_cases {mode : CanCoalesce} (h : mode ≠ .unavailable) :
    mode = .append ∨ mode = .prepend := by
  cases mode with
  | prepend => exact Or.inr rfl
  | unavailable => exact absurd rfl h
  | append => exact Or.inl rfl

end TcpCoalesce

/-- A TCP item describes the headers in its buffer. -/
structure TcpHeader (offset : ℕ) (item : TcpGROItem) (b : Buffer) : Prop where
  offset_le : offset ≤ b.bytes.length
  layout : TcpLayout item.key.isV6 item.iphLen item.tcphLen (b.pkt offset)
  key : newTCPFlowKey (b.pkt offset) item.key.isV6 item.iphLen = item.key
  iphLen : item.iphLen = candidateHeaderLen item.key.isV6

section TcpHeader

variable {offset i : ℕ} {isV6 : Bool} {m : TcpMeta} {item : TcpGROItem} {buf target : Buffer}

theorem TcpHeader.insert (hoffset : offset ≤ buf.bytes.length)
    (h : TcpReads isV6 m (buf.pkt offset)) :
    TcpHeader offset (tcpItem (buf.pkt offset) m isV6 i) buf :=
  ⟨hoffset, h.layout, rfl, h.iphLen⟩

theorem TcpHeader.extend (h : TcpHeader offset item target) {pkt : Bytes}
    (hsame : SameHeader ipprotoTCP item.key.isV6 item.iphLen (item.iphLen + item.tcphLen)
      (target.pkt offset) pkt) (hlen : (target.pkt offset).length ≤ pkt.length) :
    TcpLayout item.key.isV6 item.iphLen item.tcphLen pkt ∧
      newTCPFlowKey pkt item.key.isV6 item.iphLen = item.key := by
  obtain ⟨hlayout, hkey⟩ := hsame.tcp h.layout (le_trans h.layout.fits hlen)
  exact ⟨hlayout, hkey.trans h.key⟩

theorem TcpHeader.of_reads (hoffset : offset ≤ buf.bytes.length)
    (hreads : TcpReads isV6 m (buf.pkt offset))
    (hkey : item.key = newTCPFlowKey (buf.pkt offset) isV6 m.iphLen)
    (hiph : item.iphLen = candidateHeaderLen item.key.isV6) (htcph : m.tcphLen = item.tcphLen) :
    m.iphLen = item.iphLen ∧ item.key.isV6 = isV6 ∧ TcpHeader offset item buf := by
  have hv6 : item.key.isV6 = isV6 := by
    rw [hkey]
    rfl
  have hlen : m.iphLen = item.iphLen := by rw [hreads.iphLen, hiph, hv6]
  refine ⟨hlen, hv6, hoffset, ?_, ?_, hiph⟩
  · rw [hv6, ← hlen, ← htcph]
    exact hreads.layout
  · rw [hv6, ← hlen, ← hkey]

/-- The packet in the buffer in front of a merge. -/
def tcpHeadPkt (mode : CanCoalesce) (m : TcpMeta) (item : TcpGROItem) (pkt target : Bytes) :
    Bytes :=
  if mode = .prepend then pkt
  else if m.pshSet then patch target (item.iphLen + tcpFlagsOffset)
    [byteAt target (item.iphLen + tcpFlagsOffset) ||| tcpFlagPSH]
  else target

/-- The payload that is put behind it. -/
def tcpTail (mode : CanCoalesce) (item : TcpGROItem) (pkt target : Bytes) : Bytes :=
  (if mode = .prepend then target else pkt).drop (item.iphLen + item.tcphLen)

theorem tcpMergedBuffer_pkt (mode : CanCoalesce) (m : TcpMeta) (item : TcpGROItem)
    (hbuf : offset ≤ buf.bytes.length) (htarget : offset ≤ target.bytes.length) :
    (tcpMergedBuffer mode buf target m item offset).pkt offset =
      tcpHeadPkt mode m item (buf.pkt offset) (target.pkt offset) ++
        tcpTail mode item (buf.pkt offset) (target.pkt offset) := by
  have hbyte : byteAt target.bytes (offset + (item.iphLen + tcpFlagsOffset)) =
      byteAt (target.pkt offset) (item.iphLen + tcpFlagsOffset) := by
    simp [byteAt, Buffer.pkt]
  simp only [tcpMergedBuffer, tcpHeadPkt, tcpTail]
  split_ifs
  · exact Buffer.pkt_append hbuf _
  · rw [Buffer.pkt_append (by rw [Buffer.patch, patch_length]; exact htarget), add_assoc,
      Buffer.pkt_patch htarget, hbyte]
  · exact Buffer.pkt_append htarget _

theorem tcpMergedBuffer_length (mode : CanCoalesce) (m : TcpMeta) (item : TcpGROItem)
    (hbuf : offset ≤ buf.bytes.length) (htarget : offset ≤ target.bytes.length) :
    offset ≤ (tcpMergedBuffer mode buf target m item offset).bytes.length := by
  simp only [tcpMergedBuffer]
  split_ifs
  all_goals
    simp only [Buffer.append, Buffer.patch, length_append, patch_length]
    omega

/-- A merge keeps the headers of the flow. -/
theorem TcpHeader.merge {mode : CanCoalesce} (h : TcpHeader offset item target)
    (hbuf : TcpHeader offset item buf) :
    TcpHeader offset (tcpMergedItem mode m item)
      (tcpMergedBuffer mode buf target m item offset) := by
  have hpkt := tcpMergedBuffer_pkt mode m item hbuf.offset_le h.offset_le
  have hlen := tcpMergedBuffer_length mode m item hbuf.offset_le h.offset_le
  -- the packet in front is that of the flow, whichever of the two it is
  have hfront : TcpLayout item.key.isV6 item.iphLen item.tcphLen
      ((tcpMergedBuffer mode buf target m item offset).pkt offset) ∧
      newTCPFlowKey ((tcpMergedBuffer mode buf target m item offset).pkt offset)
        item.key.isV6 item.iphLen = item.key := by
    rw [hpkt, tcpHeadPkt]
    split_ifs
    · exact hbuf.extend (sameHeader_append hbuf.layout.fits _) (by simp)
    · refine h.extend ((sameHeader_patch_flags _ _).trans (sameHeader_append ?_ _)) (by simp)
      rw [patch_length]
      exact h.layout.fits
    · exact h.extend (sameHeader_append h.layout.fits _) (by simp)
  exact ⟨hlen, hfront.1, hfront.2, h.iphLen⟩

theorem TcpHeader.accounted (e : Endian) (h : TcpHeader offset item target)
    (hlow : virtioNetHdrLen ≤ offset) :
    TcpLayout item.key.isV6 item.iphLen item.tcphLen
      ((tcpAccount e offset item target).pkt offset) ∧
      newTCPFlowKey ((tcpAccount e offset item target).pkt offset) item.key.isV6 item.iphLen =
        item.key ∧
      ((tcpAccount e offset item target).pkt offset).drop (item.iphLen + item.tcphLen) =
        (target.pkt offset).drop (item.iphLen + item.tcphLen) := by
  have haccounted := tcpAccount_spec (e := e) hlow h.offset_le item
  have hlow20 := h.layout.low
  obtain ⟨hlayout, hkey⟩ := h.extend
    (haccounted.sameHeader fun k h₁ h₂ => Or.inr ⟨rfl, Or.inr ⟨h₁, h₂⟩⟩) haccounted.length.ge
  exact ⟨hlayout, hkey, haccounted.drop_eq (by omega) (by omega)⟩

end TcpHeader

/-! ## §3 UDP items -/

theorem canCoalesce_udp {pkt target : Bytes} {m : UdpMeta} {item : UdpGROItem}
    (h : udpPacketsCanCoalesce pkt m item target = .append) :
    (target.drop (m.iphLen + udphLen)).length % item.gsoSize.toNat = 0 ∧
    m.gsoSize ≤ item.gsoSize := by
  unfold udpPacketsCanCoalesce at h
  split_ifs at h with h₁ hmod hsize
  exact ⟨not_not.mp hmod, BitVec.not_lt.mp hsize⟩

/-- The payloads in a buffer, as many as have been merged: one by one, of a size, the last of which
may be smaller. -/
def Merged (size merged : ℕ) (payload : Bytes) : Prop :=
  ∃ cs : List Bytes, cs.flatten = payload ∧ Chunked size cs ∧ cs.length = merged + 1

section Merged

variable {size merged : ℕ} {payload : Bytes}

theorem Merged.single {g : BitVec 16} (hsize : g.toNat = payload.length) (hpos : 0 < g.toNat) :
    Merged (BitVec.ofNat 16 payload.length).toNat 0 payload := by
  rw [← hsize, ofNat_toNat, setWidth_eq]
  exact ⟨[payload], by simp, ⟨hsize ▸ hpos, hsize.ge⟩, rfl⟩

theorem Merged.pos (h : Merged size merged payload) : 0 < size := by
  obtain ⟨cs, -, hcs, -⟩ := h
  exact hcs.pos

theorem Merged.append (h : Merged size merged payload) (hfull : payload.length % size = 0)
    {data : Bytes} (hpos : 0 < data.length) (hle : data.length ≤ size) :
    Merged size (merged + 1) (payload ++ data) ∧
      chunks size (payload ++ data) = chunks size payload ++ [data] := by
  obtain ⟨cs, rfl, hcs, hcount⟩ := h
  have hchunked := hcs.append hfull hpos hle
  have hflatten : (cs ++ [data]).flatten = cs.flatten ++ data := by simp
  refine ⟨⟨cs ++ [data], hflatten, hchunked, by simp [hcount]⟩, ?_⟩
  rw [← hflatten, chunks_flatten hchunked, chunks_flatten hcs]

theorem Merged.prepend (h : Merged size merged payload) {data : Bytes}
    (hfull : data.length = size) :
    Merged size (merged + 1) (data ++ payload) ∧
      chunks size (data ++ payload) = data :: chunks size payload := by
  obtain ⟨cs, rfl, hcs, hcount⟩ := h
  have hchunked := hcs.cons hfull
  refine ⟨⟨data :: cs, rfl, hchunked, by simp [hcount]⟩, ?_⟩
  rw [← flatten_cons, chunks_flatten hchunked, chunks_flatten hcs]

theorem Merged.resize (h : Merged size 0 payload) {size' : ℕ} (hle : size ≤ size') :
    Merged size' 0 payload ∧ chunks size' payload = [payload] := by
  obtain ⟨cs, rfl, hcs, hcount⟩ := h
  obtain ⟨c, rfl⟩ := length_eq_one_iff.mp hcount
  have hchunked : Chunked size' [c] := ⟨hcs.1, le_trans hcs.2 hle⟩
  refine ⟨⟨[c], rfl, hchunked, rfl⟩, ?_⟩
  rw [chunks_flatten hchunked, flatten_singleton]

theorem Merged.chunks_of_fresh {a : BitVec 16} (h : Merged size a.toNat payload) (hfresh : ¬a > 0) :
    chunks size payload = [payload] := by
  have hzero : a.toNat = 0 := Nat.eq_zero_of_not_pos hfresh
  rw [hzero] at h
  exact (h.resize (le_refl _)).2

theorem Merged.count_le (h : Merged size merged payload) : merged + 1 ≤ payload.length := by
  obtain ⟨cs, rfl, hcs, hcount⟩ := h
  rw [← hcount]
  exact hcs.length_le

theorem Merged.length_eq (h : Merged size merged payload) (hfull : payload.length % size = 0) :
    payload.length = size * (merged + 1) := by
  obtain ⟨cs, rfl, hcs, hcount⟩ := h
  obtain ⟨hlow, hhigh⟩ := hcs.flatten_length
  rw [hcount, Nat.add_sub_cancel] at hlow
  rw [hcount] at hhigh
  obtain ⟨q, hq⟩ := dvd_of_mod_eq_zero hfull
  rw [hq] at hlow hhigh ⊢
  have hq₁ := lt_of_mul_lt_mul_left hlow
  have hq₂ := le_of_mul_le_mul_left hhigh hcs.pos
  rw [show q = merged + 1 by omega]

end Merged

/-- A UDP item describes its buffer. -/
structure UdpEntry (offset : ℕ) (item : UdpGROItem) (b : Buffer) : Prop where
  offset_le : offset ≤ b.bytes.length
  transport : transportAt ipprotoUDP (b.pkt offset) = some (item.key.isV6, item.iphLen)
  key : newUDPFlowKey (b.pkt offset) item.key.isV6 item.iphLen = item.key
  iphLen : item.iphLen = candidateHeaderLen item.key.isV6
  merged : Merged item.gsoSize.toNat item.numMerged.toNat
    ((b.pkt offset).drop (item.iphLen + udphLen))

section UdpEntry

variable {offset i : ℕ} {isV6 : Bool} {m : UdpMeta} {item : UdpGROItem} {buf target : Buffer}

theorem UdpEntry.insert (hoffset : offset ≤ buf.bytes.length) (h : UdpReads isV6 m (buf.pkt offset))
    (cSumKnownInvalid : Bool) :
    UdpEntry offset (udpItem (buf.pkt offset) m isV6 i cSumKnownInvalid) buf := by
  exact ⟨hoffset, h.transport, rfl, h.iphLen, .single h.gsoSize h.pos⟩

theorem UdpEntry.iphLen_eq (h : UdpEntry offset item target)
    (hreads : UdpReads isV6 m (buf.pkt offset))
    (hkey : item.key = newUDPFlowKey (buf.pkt offset) isV6 m.iphLen) : m.iphLen = item.iphLen := by
  rw [hreads.iphLen, h.iphLen, hkey]
  rfl

theorem UdpEntry.drop_merged (h : UdpEntry offset item target) :
    ((udpMergedBuffer buf target item offset).pkt offset).drop (item.iphLen + udphLen) =
      (target.pkt offset).drop (item.iphLen + udphLen) ++
        (buf.pkt offset).drop (item.iphLen + udphLen) := by
  have hfits : item.iphLen + udphLen ≤ (target.pkt offset).length :=
    (transportAt_fits h.transport).2.2
  rw [udpMergedBuffer, Buffer.pkt_append h.offset_le, drop_append_of_le_length hfits]

/-- The next datagram of the flow is the last payload in the buffer. -/
theorem UdpEntry.merge (h : UdpEntry offset item target) (hreads : UdpReads isV6 m (buf.pkt offset))
    (hkey : item.key = newUDPFlowKey (buf.pkt offset) isV6 m.iphLen)
    (hcan : udpPacketsCanCoalesce (buf.pkt offset) m item (target.pkt offset) = .append)
    (hcount : item.numMerged.toNat + 1 < 2 ^ 16) :
    UdpEntry offset { item with numMerged := item.numMerged + 1 }
      (udpMergedBuffer buf target item offset) ∧ chunks item.gsoSize.toNat
          (((udpMergedBuffer buf target item offset).pkt offset).drop (item.iphLen + udphLen)) =
        chunks item.gsoSize.toNat ((target.pkt offset).drop (item.iphLen + udphLen)) ++
          [(buf.pkt offset).drop (item.iphLen + udphLen)] := by
  have hiph := h.iphLen_eq hreads hkey
  obtain ⟨hfull, hsize⟩ := canCoalesce_udp hcan
  have hlen := hreads.gsoSize
  have hpos := hreads.pos
  rw [hiph] at hfull hlen
  rw [hlen] at hpos
  have hfits : item.iphLen + udphLen ≤ (target.pkt offset).length :=
    (transportAt_fits h.transport).2.2
  -- the payload goes behind, and the headers stay those of the item
  have hpkt : (udpMergedBuffer buf target item offset).pkt offset =
      target.pkt offset ++ (buf.pkt offset).drop (item.iphLen + udphLen) :=
    Buffer.pkt_append h.offset_le _
  obtain ⟨htransport, hsame⟩ := (sameHeader_append hfits
    ((buf.pkt offset).drop (item.iphLen + udphLen))).udp h.transport (by rw [length_append]; omega)
  obtain ⟨hmerged, hchunks⟩ := h.merged.append hfull hpos (by rw [← hlen]; exact le_def.mp hsize)
  have hnum : (item.numMerged + 1).toNat = item.numMerged.toNat + 1 := by
    rw [toNat_add]
    exact mod_eq_of_lt hcount
  refine ⟨⟨?_, ?_, ?_, h.iphLen, ?_⟩, ?_⟩
  · simp only [udpMergedBuffer, Buffer.append, length_append]
    exact le_trans h.offset_le (le_add_right _ _)
  · rw [hpkt]
    exact htransport
  · rw [hpkt]
    exact hsame.trans h.key
  · rw [h.drop_merged, hnum]
    exact hmerged
  · rw [h.drop_merged, hchunks]

theorem UdpEntry.accounted (e : Endian) (h : UdpEntry offset item target)
    (hlow : virtioNetHdrLen ≤ offset) :
    transportAt ipprotoUDP ((udpAccount e offset item target).pkt offset) =
        some (item.key.isV6, item.iphLen) ∧
      newUDPFlowKey ((udpAccount e offset item target).pkt offset) item.key.isV6 item.iphLen =
        item.key ∧
      ((udpAccount e offset item target).pkt offset).drop (item.iphLen + udphLen) =
        (target.pkt offset).drop (item.iphLen + udphLen) := by
  have haccounted := udpAccount_spec (e := e) hlow h.offset_le item
  obtain ⟨h20, -, hfits⟩ := transportAt_fits h.transport
  obtain ⟨htransport, hkey⟩ :=
    (haccounted.sameHeader fun k h₁ h₂ => Or.inl ⟨h₁, h₂⟩).udp h.transport
    (haccounted.length ▸ hfits)
  exact ⟨htransport, hkey.trans h.key, haccounted.drop_eq (le_refl _) (by omega)⟩

end UdpEntry

end AmneziaWG.Tun
