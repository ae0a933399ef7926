import AmneziaWG.Tun.Gro.Order

/-!
# The Segments of an Item

A TCP item stands for the segments that have been merged into its buffer, which follow each other.
The accounting describes them in the virtio header, so that `gsoSplit` cuts the buffer into them
again.

## Main results

- `TcpEntry.merge`: a merge adds the segment of the packet to those of the item.
- `TcpEntry.expand`: the buffer of an item is expanded to the segments of the item.
-/

namespace AmneziaWG.Tun

open AmneziaWG.Lib List Option BitVec Nat

/-! ## §1 The segments of an item -/

/-- A TCP item describes its buffer. -/
structure TcpEntry (offset : ℕ) (item : TcpGROItem) (b : Buffer) : Prop where
  header : TcpHeader offset item b
  cap : b.cap ≤ 65535
  seq : be32At (b.pkt offset) (item.iphLen + 4) = item.sentSeq
  merged : Merged item.gsoSize.toNat item.numMerged.toNat
    ((b.pkt offset).drop (item.iphLen + item.tcphLen))
  psh : tcpPSH (b.pkt offset) item.iphLen = true → item.pshSet = true
  fresh : item.numMerged = 0 → tcpPSH (b.pkt offset) item.iphLen = item.pshSet

/-- The segments in the buffer of an item, with a PSH flag on the last. -/
def itemSegments (offset : ℕ) (item : TcpGROItem) (psh : Bool) (b : Buffer) : List TcpSegment :=
  train item.key item.gsoSize.toNat psh item.sentSeq
    (chunks item.gsoSize.toNat ((b.pkt offset).drop (item.iphLen + item.tcphLen)))

section TcpEntry

variable {offset i : ℕ} {isV6 : Bool} {m : TcpMeta} {item : TcpGROItem} {buf target : Buffer}

theorem TcpEntry.length_lt (h : TcpEntry offset item target) :
    (target.pkt offset).length < 2 ^ 16 := by
  have hcap := h.cap
  have hlen := target.len_le
  rw [Buffer.length_pkt]
  omega

theorem TcpEntry.chunks_ne_nil (h : TcpEntry offset item target) :
    chunks item.gsoSize.toNat ((target.pkt offset).drop (item.iphLen + item.tcphLen)) ≠ [] := by
  obtain ⟨cs, hflatten, hcs, hcount⟩ := h.merged
  rw [← hflatten, chunks_flatten hcs]
  exact ne_nil_of_length_eq_add_one hcount

theorem TcpEntry.segments_of_fresh (h : TcpEntry offset item target) (hfresh : item.numMerged = 0) :
    itemSegments offset item item.pshSet target = (tcpSegment (target.pkt offset)).toList := by
  have hchunks := h.merged.chunks_of_fresh (by rw [hfresh]; decide)
  rw [itemSegments, hchunks, h.header.layout.segment, h.header.key, h.seq, h.fresh hfresh]
  simp [train]

theorem TcpReads.segment {pkt : Bytes} (h : TcpReads isV6 m pkt) :
    tcpSegment pkt = some
      { key := newTCPFlowKey pkt isV6 m.iphLen, seq := m.seq, psh := m.pshSet
        payload := pkt.drop (m.iphLen + m.tcphLen) } := by
  rw [h.layout.segment, h.seq, h.psh]

theorem TcpEntry.insert (hoffset : offset ≤ buf.bytes.length) (hcap : buf.cap ≤ 65535)
    (h : TcpReads isV6 m (buf.pkt offset)) :
    TcpEntry offset (tcpItem (buf.pkt offset) m isV6 i) buf where
  header := TcpHeader.insert hoffset h
  cap := hcap
  seq := rfl
  merged := .single h.gsoSize h.pos
  psh := id
  fresh := fun _ => rfl

/-- A merge that is carried out fits the array of the buffer in front. -/
theorem cap_of_check {e : Endian} {mode : CanCoalesce}
    (hcheck : tcpCoalesceCheck e mode buf m item target offset isV6 = .success) :
    (target.pkt offset).length + (buf.pkt offset).length - (item.iphLen + item.tcphLen) ≤
      (if mode = .prepend then buf else target).cap - offset - offset := by
  unfold tcpCoalesceCheck at hcheck
  simp only at hcheck
  by_contra hcap
  rw [if_pos (Nat.lt_of_not_le hcap)] at hcheck
  cases hcheck

theorem tcpMergedBuffer_cap {mode : CanCoalesce} (hbuf : TcpHeader offset item buf)
    (htarget : TcpHeader offset item target)
    (hroom : (target.pkt offset).length + (buf.pkt offset).length - (item.iphLen + item.tcphLen) ≤
      (if mode = .prepend then buf else target).cap - offset - offset) :
    (tcpMergedBuffer mode buf target m item offset).cap =
      (if mode = .prepend then buf else target).cap := by
  have hfits := hbuf.layout.fits
  have hfits' := htarget.layout.fits
  have hlen := buf.length_pkt offset
  have hlen' := target.length_pkt offset
  have hdrop : ∀ b : Buffer, ((b.pkt offset).drop (item.iphLen + item.tcphLen)).length =
      (b.pkt offset).length - (item.iphLen + item.tcphLen) := fun b => length_drop ..
  have hpos := hbuf.layout.low
  have hoff := hbuf.offset_le
  have hoff' := htarget.offset_le
  simp only [tcpMergedBuffer]
  -- in front, behind with the flag set, behind without it
  split_ifs at hroom ⊢
  · refine Buffer.cap_append ?_
    rw [hdrop]
    omega
  · refine (Buffer.cap_append ?_).trans rfl
    rw [hdrop, Buffer.patch, patch_length]
    show _ ≤ target.cap
    omega
  · refine Buffer.cap_append ?_
    rw [hdrop]
    omega

theorem tcpHeadPkt_spec (mode : CanCoalesce) (hbuf : TcpHeader offset item buf)
    (htarget : TcpHeader offset item target) :
    item.iphLen + item.tcphLen ≤
      (tcpHeadPkt mode m item (buf.pkt offset) (target.pkt offset)).length ∧
      be32At (tcpHeadPkt mode m item (buf.pkt offset) (target.pkt offset)) (item.iphLen + 4) =
        be32At (if mode = .prepend then buf.pkt offset else target.pkt offset) (item.iphLen + 4) ∧
      tcpPSH (tcpHeadPkt mode m item (buf.pkt offset) (target.pkt offset)) item.iphLen =
        (if mode = .prepend then tcpPSH (buf.pkt offset) item.iphLen
          else m.pshSet || tcpPSH (target.pkt offset) item.iphLen) ∧
      (tcpHeadPkt mode m item (buf.pkt offset) (target.pkt offset)).drop
        (item.iphLen + item.tcphLen) =
        (if mode = .prepend then buf.pkt offset else target.pkt offset).drop
          (item.iphLen + item.tcphLen) := by
  have hlow := htarget.layout.low
  have hfits := htarget.layout.fits
  unfold tcpHeadPkt
  -- only a flag set on the item behind which the packet goes changes a byte
  split_ifs with hmode hpsh
  · exact ⟨hbuf.layout.fits, rfl, rfl, rfl⟩
  · refine ⟨by rw [patch_length]; exact hfits, ?_, ?_, ?_⟩
    · rw [be32At, be32At, field_patch _ (Or.inl (by simp [tcpFlagsOffset]))]
    · have hset : ∀ x : Byte, (x ||| tcpFlagPSH) &&& tcpFlagPSH ≠ 0 := by decide
      rw [tcpPSH, byteAt_patch_same (by simp only [tcpFlagsOffset]; omega), hpsh, Bool.true_or]
      exact decide_eq_true (hset _)
    · exact drop_patch _ (by simp only [tcpFlagsOffset, length_singleton]; omega)
  · rw [Bool.not_eq_true] at hpsh
    rw [hpsh, Bool.false_or]
    exact ⟨hfits, rfl, rfl, rfl⟩

theorem tcpMergedBuffer_spec (mode : CanCoalesce) (hbuf : TcpHeader offset item buf)
    (htarget : TcpHeader offset item target) :
    be32At ((tcpMergedBuffer mode buf target m item offset).pkt offset) (item.iphLen + 4) =
        be32At (if mode = .prepend then buf.pkt offset else target.pkt offset) (item.iphLen + 4) ∧
      tcpPSH ((tcpMergedBuffer mode buf target m item offset).pkt offset) item.iphLen =
        (if mode = .prepend then tcpPSH (buf.pkt offset) item.iphLen
          else m.pshSet || tcpPSH (target.pkt offset) item.iphLen) ∧
      ((tcpMergedBuffer mode buf target m item offset).pkt offset).drop
        (item.iphLen + item.tcphLen) =
        (if mode = .prepend then buf.pkt offset else target.pkt offset).drop
            (item.iphLen + item.tcphLen) ++
          (if mode = .prepend then target.pkt offset else buf.pkt offset).drop
            (item.iphLen + item.tcphLen) := by
  obtain ⟨hlen, hseq, hpsh, hdrop⟩ := tcpHeadPkt_spec (m := m) mode hbuf htarget
  have hlow := htarget.layout.low
  rw [tcpMergedBuffer_pkt mode m item hbuf.offset_le htarget.offset_le]
  refine ⟨?_, ?_, ?_⟩
  · rw [← hseq, be32At, be32At, field_append_left _ (by omega)]
  · rw [← hpsh, tcpPSH, tcpPSH, byteAt_append_left _ (by simp only [tcpFlagsOffset]; omega)]
  · rw [drop_append_of_le_length hlen, hdrop, tcpTail]

theorem TcpEntry.numMerged_succ (h : TcpEntry offset item target) :
    (item.numMerged + 1).toNat = item.numMerged.toNat + 1 := by
  have hcount := h.merged.count_le
  have hlen := h.length_lt
  rw [length_drop] at hcount
  rw [toNat_add]
  exact mod_eq_of_lt (show item.numMerged.toNat + 1 < 2 ^ 16 by omega)

/-- A packet of a flow behind the segments of an item. -/
theorem TcpEntry.append_spec (h : TcpEntry offset item target)
    (hreads : TcpReads isV6 m (buf.pkt offset)) (hiph : m.iphLen = item.iphLen)
    (htcph : m.tcphLen = item.tcphLen)
    (hcan : tcpPacketsCanCoalesce (buf.pkt offset) m item (target.pkt offset) = .append) :
    Merged item.gsoSize.toNat (item.numMerged.toNat + 1)
        ((target.pkt offset).drop (item.iphLen + item.tcphLen) ++
          (buf.pkt offset).drop (item.iphLen + item.tcphLen)) ∧
      train item.key item.gsoSize.toNat m.pshSet item.sentSeq
          (chunks item.gsoSize.toNat ((target.pkt offset).drop (item.iphLen + item.tcphLen) ++
            (buf.pkt offset).drop (item.iphLen + item.tcphLen))) =
        itemSegments offset item false target ++
          [{ key := item.key, seq := m.seq, psh := m.pshSet
             payload := (buf.pkt offset).drop (item.iphLen + item.tcphLen) }] := by
  obtain ⟨hseq, hpsh, hfull, hle⟩ := canCoalesce_append hcan
  have hsize := hreads.gsoSize
  have hpos := hreads.pos
  rw [hiph, htcph] at hfull hsize
  rw [hsize] at hpos
  obtain ⟨hmerged, hchunks⟩ := h.merged.append hfull hpos (by rw [← hsize]; exact le_def.mp hle)
  refine ⟨hmerged, ?_⟩
  -- the item ends where the packet begins
  have hlength := h.merged.length_eq hfull
  have hshort := h.length_lt
  have hcs : (chunks item.gsoSize.toNat
    ((target.pkt offset).drop (item.iphLen + item.tcphLen))).length =
      item.numMerged.toNat + 1 := by
    obtain ⟨cs, hflatten, hcs, hcount⟩ := h.merged
    rw [← hflatten, chunks_flatten hcs, hcount]
  have hend : (item.gsoSize + item.numMerged * item.gsoSize).setWidth 32 =
      BitVec.ofNat 32 (item.gsoSize.toNat * (item.numMerged.toNat + 1)) := by
    -- the sum that the code forms in 16 bits does not wrap
    have hlt : item.gsoSize.toNat * (item.numMerged.toNat + 1) < 2 ^ 16 := by
      rw [← hlength, length_drop]
      omega
    apply eq_of_toNat_eq
    have hexpand : item.gsoSize.toNat + item.numMerged.toNat * item.gsoSize.toNat =
        item.gsoSize.toNat * (item.numMerged.toNat + 1) := by ring
    rw [toNat_setWidth, toNat_add, toNat_mul, add_mod_mod, hexpand, toNat_ofNat, mod_eq_of_lt hlt]
  rw [hchunks, train_concat, hcs, hseq, hend]
  rfl

/-- A packet of a flow in front of the segments of an item. -/
theorem TcpEntry.prepend_spec (h : TcpEntry offset item target)
    (hreads : TcpReads isV6 m (buf.pkt offset)) (hiph : m.iphLen = item.iphLen)
    (htcph : m.tcphLen = item.tcphLen)
    (hcan : tcpPacketsCanCoalesce (buf.pkt offset) m item (target.pkt offset) = .prepend)
    (psh : Bool) :
    Merged m.gsoSize.toNat (item.numMerged.toNat + 1)
        ((buf.pkt offset).drop (item.iphLen + item.tcphLen) ++
          (target.pkt offset).drop (item.iphLen + item.tcphLen)) ∧
      train item.key m.gsoSize.toNat psh m.seq
          (chunks m.gsoSize.toNat ((buf.pkt offset).drop (item.iphLen + item.tcphLen) ++
            (target.pkt offset).drop (item.iphLen + item.tcphLen))) =
        { key := item.key, seq := m.seq, psh := m.pshSet
          payload := (buf.pkt offset).drop (item.iphLen + item.tcphLen) } ::
          itemSegments offset item psh target := by
  obtain ⟨hseq, hpsh, hle, hsame⟩ := canCoalesce_prepend hcan
  have hsize := hreads.gsoSize
  rw [hiph, htcph] at hsize
  -- cut at the size of the packet, the item has the same segments
  have hitem : Merged m.gsoSize.toNat item.numMerged.toNat
      ((target.pkt offset).drop (item.iphLen + item.tcphLen)) ∧
      train item.key m.gsoSize.toNat psh item.sentSeq
        (chunks m.gsoSize.toNat ((target.pkt offset).drop (item.iphLen + item.tcphLen))) =
        itemSegments offset item psh target := by
    rcases hsame with hzero | heq
    · -- nothing merged yet: one segment, whatever larger size it is cut at
      have hone := h.merged
      have hnum : item.numMerged.toNat = 0 := by
        rw [hzero]
        rfl
      rw [hnum] at hone ⊢
      obtain ⟨hlarge, hchunks⟩ := hone.resize (le_def.mp hle)
      obtain ⟨-, hchunks'⟩ := hone.resize (le_refl _)
      refine ⟨hlarge, ?_⟩
      rw [itemSegments, hchunks, hchunks']
      rfl
    · rw [heq]
      exact ⟨h.merged, rfl⟩
  obtain ⟨hmerged, hchunks⟩ := hitem.1.prepend hsize.symm
  refine ⟨hmerged, ?_⟩
  have hne : chunks m.gsoSize.toNat ((target.pkt offset).drop (item.iphLen + item.tcphLen)) ≠
      [] := by
    obtain ⟨cs, hflatten, hcs, hcount⟩ := hitem.1
    rw [← hflatten, chunks_flatten hcs]
    exact ne_nil_of_length_eq_add_one hcount
  have hnext : m.seq + BitVec.ofNat 32 m.gsoSize.toNat = item.sentSeq := by
    rw [← hseq]
    congr 1
    apply eq_of_toNat_eq
    rw [toNat_ofNat, toNat_setWidth]
  rw [hchunks, train, hnext, hitem.2, hpsh, isEmpty_eq_false_iff.mpr hne, Bool.and_false]

/-- A merge adds the segment of the packet to those of the item.  The PSH flag of the item is that
of the header, unless the packet is put in front. -/
theorem TcpEntry.merge {e : Endian} {mode : CanCoalesce} (h : TcpEntry offset item target)
    (hoffset : offset ≤ buf.bytes.length) (hcap : buf.cap ≤ 65535)
    (hreads : TcpReads isV6 m (buf.pkt offset))
    (hkey : item.key = newTCPFlowKey (buf.pkt offset) isV6 m.iphLen) (hmode : mode ≠ .unavailable)
    (hcan : tcpPacketsCanCoalesce (buf.pkt offset) m item (target.pkt offset) = mode)
    (hcheck : tcpCoalesceCheck e mode buf m item target offset isV6 = .success) :
    TcpEntry offset (tcpMergedItem mode m item) (tcpMergedBuffer mode buf target m item offset) ∧
      (itemSegments offset (tcpMergedItem mode m item) (tcpMergedItem mode m item).pshSet
          (tcpMergedBuffer mode buf target m item offset)).Perm
        ((tcpSegment (buf.pkt offset)).toList ++ itemSegments offset item item.pshSet target) ∧
      tcpPSH ((tcpMergedBuffer mode buf target m item offset).pkt offset) item.iphLen =
        (if mode = .prepend then false else (tcpMergedItem mode m item).pshSet) := by
  have htcph := tcphLen_of_canCoalesce (by rw [hcan]; exact hmode)
  obtain ⟨hiph, hv6, hbuf⟩ := TcpHeader.of_reads hoffset hreads hkey h.header.iphLen htcph
  have hheader : TcpHeader offset (tcpMergedItem mode m item)
      (tcpMergedBuffer mode buf target m item offset) := h.header.merge hbuf
  obtain ⟨hseq, hpsh, hdrop⟩ := tcpMergedBuffer_spec (m := m) mode hbuf h.header
  have hcap' := tcpMergedBuffer_cap (m := m) hbuf h.header (cap_of_check hcheck)
  have hsegment := hreads.segment
  rw [← hkey, hiph, htcph] at hsegment
  have hnum : (tcpMergedItem mode m item).numMerged.toNat = item.numMerged.toNat + 1 :=
    h.numMerged_succ
  have hnotFresh : (tcpMergedItem mode m item).numMerged ≠ 0 := by
    intro hzero
    rw [hzero] at hnum
    cases hnum
  rcases canCoalesce_cases hmode with rfl | rfl
  · -- behind the item
    obtain ⟨hmerged, htrain⟩ := h.append_spec hreads hiph htcph hcan
    obtain ⟨-, hnoPSH, -, hle⟩ := canCoalesce_append hcan
    have hsize : (tcpMergedItem .append m item).gsoSize = item.gsoSize :=
      if_neg (BitVec.not_lt.mpr hle)
    have hflag : (tcpMergedItem .append m item).pshSet = m.pshSet := by
      simp only [tcpMergedItem, hnoPSH, true_and]
      cases m.pshSet <;> rfl
    -- an item that takes packets behind has no flag, so the flag is that of the packet
    have htarget : tcpPSH (target.pkt offset) item.iphLen = false := by
      by_contra hset
      rw [Bool.not_eq_false] at hset
      exact Bool.false_ne_true (hnoPSH.symm.trans (h.psh hset))
    have hnew : tcpPSH ((tcpMergedBuffer .append buf target m item offset).pkt offset) item.iphLen =
        (tcpMergedItem .append m item).pshSet := by
      rw [hpsh, if_neg CanCoalesce.noConfusion, htarget, Bool.or_false, hflag]
    simp only [if_neg (show ¬CanCoalesce.append = CanCoalesce.prepend from CanCoalesce.noConfusion)]
      at hseq hdrop hcap' ⊢
    -- the array and the first sequence number are those of the item
    refine ⟨⟨hheader, by rw [hcap']; exact h.cap, hseq.trans h.seq, ?_, ?_,
      fun hzero => absurd hzero hnotFresh⟩, ?_, hnew⟩
    · rw [hsize, hnum]
      exact hdrop ▸ hmerged
    · exact fun hset => hnew ▸ hset
    · have hsegments : itemSegments offset (tcpMergedItem .append m item)
          (tcpMergedItem .append m item).pshSet (tcpMergedBuffer .append buf target m item offset) =
          itemSegments offset item false target ++
            [⟨item.key, m.seq, m.pshSet, (buf.pkt offset).drop (item.iphLen + item.tcphLen)⟩] := by
        rw [← htrain, ← hdrop, itemSegments, hsize, hflag]
        rfl
      -- the new segment comes last in the item, and first in the statement
      rw [hsegments, hsegment, hnoPSH, toList_some]
      exact perm_append_comm
  · -- in front of the item
    obtain ⟨-, hnoPSH, hle, -⟩ := canCoalesce_prepend hcan
    obtain ⟨hmerged, htrain⟩ := h.prepend_spec hreads hiph htcph hcan item.pshSet
    -- a packet in front is at least as large as the segments behind it
    have hsize : (tcpMergedItem .prepend m item).gsoSize = m.gsoSize := by
      simp only [tcpMergedItem]
      split_ifs with hgt
      · rfl
      · exact BitVec.le_antisymm hle (BitVec.not_lt.mp hgt)
    have hflag : (tcpMergedItem .prepend m item).pshSet = item.pshSet := rfl
    have hnew : tcpPSH ((tcpMergedBuffer .prepend buf target m item offset).pkt offset)
        item.iphLen = false := by
      rw [hpsh, if_pos rfl, ← hiph, hreads.psh, hnoPSH]
    simp only [if_true] at hseq hdrop hcap' ⊢
    -- the array and the first sequence number are those of the packet
    refine ⟨⟨hheader, by rw [hcap']; exact hcap, ?_, ?_, ?_, fun hzero => absurd hzero hnotFresh⟩,
      ?_, hnew⟩
    · refine hseq.trans ?_
      rw [← hiph]
      exact hreads.seq.symm
    · rw [hsize, hnum]
      exact hdrop ▸ hmerged
    · exact fun hset => absurd (hnew.symm.trans hset) Bool.false_ne_true
    · have hsegments : itemSegments offset (tcpMergedItem .prepend m item)
          (tcpMergedItem .prepend m item).pshSet
            (tcpMergedBuffer .prepend buf target m item offset) =
          ⟨item.key, m.seq, m.pshSet, (buf.pkt offset).drop (item.iphLen + item.tcphLen)⟩ ::
            itemSegments offset item item.pshSet target := by
        rw [← htrain, ← hdrop, itemSegments, hsize, hflag]
        rfl
      rw [hsegments, hsegment, toList_some, singleton_append]

end TcpEntry

/-! ## §2 Expanding -/

/-- The packets that a written buffer stands for: itself, or those that `gsoSplit` makes of it. -/
def expand (e : Endian) (offset : ℕ) (outBuffs : List Bytes) (outOffset : ℕ) (b : Buffer) :
    Option (List Bytes) := do
  let hdr ← VirtioNetHdr.decode e (b.hdrBytes offset)
  if hdr.gsoType = gsoNone then some [b.pkt offset]
  else
    let r ← gsoSplit e (b.pkt offset) [] hdr outBuffs outOffset
      (decide (byteAt (b.pkt offset) 0 >>> 4 = 6))
    if r.tooManySegments then none else some (r.packets outOffset)

/-- Buffers for all segments that a packet can have. -/
structure EnoughRoom (outBuffs : List Bytes) (outOffset : ℕ) : Prop where
  count : 65535 ≤ outBuffs.length
  size : ∀ buf ∈ outBuffs, outOffset + 65535 ≤ buf.length

section Expand

variable {e : Endian} {offset outOffset : ℕ} {outBuffs : List Bytes}

theorem transportAt_version {protocol : Byte} {pkt : Bytes} {isV6 : Bool} {iphLen : ℕ}
    (h : transportAt protocol pkt = some (isV6, iphLen)) :
    decide (byteAt pkt 0 >>> 4 = 6) = isV6 := by
  cases isV6 with
  | false =>
    rw [(transportAt_v4.mp h).1]
    decide
  | true =>
    rw [(transportAt_v6.mp h).1]
    decide

theorem expand_single {b : Buffer} {hdr : VirtioNetHdr}
    (hdecode : VirtioNetHdr.decode e (b.hdrBytes offset) = some hdr)
    (htype : hdr.gsoType = gsoNone) :
    expand e offset outBuffs outOffset b = some [b.pkt offset] := by
  simp only [expand, hdecode, bind_eq_bind, bind_some, htype, if_true]

theorem expand_split {b : Buffer} {hdr : VirtioNetHdr} {isV6 : Bool}
    (hroom : EnoughRoom outBuffs outOffset)
    (hdecode : VirtioNetHdr.decode e (b.hdrBytes offset) = some hdr) (htype : hdr.gsoType ≠ gsoNone)
    (hversion : decide (byteAt (b.pkt offset) 0 >>> 4 = 6) = isV6)
    (hsplit : Splittable (b.pkt offset) hdr isV6) :
    ∃ outs, expand e offset outBuffs outOffset b = some outs ∧
      Segments (b.pkt offset) hdr isV6 0 hdr.hdrLen.toNat outs := by
  have hshort := hsplit.short
  have hsize : ∀ buf ∈ outBuffs, outOffset +
      (hdr.hdrLen.toNat + segmentDataLen (b.pkt offset) hdr hdr.hdrLen.toNat) ≤ buf.length := by
    have hend := add_segmentDataLen_le hdr hsplit.fits
    exact fun buf hbuf => le_trans (by omega) (hroom.size buf hbuf)
  have henough : (b.pkt offset).length ≤
      hdr.hdrLen.toNat + hdr.gsoSize.toNat * outBuffs.length := by
    have hcount := hroom.count
    have hmul := Nat.le_mul_of_pos_left outBuffs.length hsplit.gsoSize
    omega
  obtain ⟨r, hr, hfew, hsegs⟩ := gsoSplit_spec e [] hsplit hsize henough
  refine ⟨r.packets outOffset, ?_, hsegs⟩
  simp only [expand, hdecode, bind_eq_bind, bind_some, htype, if_false, hversion, hr, hfew,
    Bool.false_eq_true]

/-- The virtio header of a packet with several payloads behind its headers. -/
structure MergeHdr (proto : Byte) (iphLen hdrLen : ℕ) (gsoSize : BitVec 16) (hdr : VirtioNetHdr) :
    Prop where
  protocol : hdr.protocol = proto
  gsoType : hdr.gsoType ≠ gsoNone
  csumStart : hdr.csumStart.toNat = iphLen
  hdrLen : hdr.hdrLen.toNat = hdrLen
  gsoSize : hdr.gsoSize = gsoSize
  csumOffset : hdr.csumOffset = transportCsumOffset proto

theorem tcpItemHdr_merge {item : TcpGROItem} (hmerged : item.numMerged > 0)
    (hshort : item.iphLen + item.tcphLen < 2 ^ 16) :
    MergeHdr ipprotoTCP item.iphLen (item.iphLen + item.tcphLen) item.gsoSize
      (tcpItemHdr item) := by
  rw [tcpItemHdr, if_pos hmerged]
  refine ⟨?_, ?_, toNat_ofNat16 (by omega), toNat_ofNat16 hshort, rfl, rfl⟩
  · rw [VirtioNetHdr.protocol]
    cases item.key.isV6 <;> rfl
  · show (if item.key.isV6 then gsoTCPv6 else gsoTCPv4) ≠ gsoNone
    cases item.key.isV6 <;> decide

theorem udpItemHdr_merge {item : UdpGROItem} (hmerged : item.numMerged > 0)
    (hshort : item.iphLen + udphLen < 2 ^ 16) :
    MergeHdr ipprotoUDP item.iphLen (item.iphLen + udphLen) item.gsoSize (udpItemHdr item) := by
  rw [udpItemHdr, if_pos hmerged]
  exact ⟨rfl, show gsoUDPL4 ≠ gsoNone by decide, toNat_ofNat16 (by omega), toNat_ofNat16 hshort,
    rfl, rfl⟩

theorem MergeHdr.splittable {protocol : Byte} {iphLen hdrLen : ℕ} {gsoSize : BitVec 16}
    {hdr : VirtioNetHdr}
    {pkt : Bytes} {isV6 : Bool} (h : MergeHdr protocol iphLen hdrLen gsoSize hdr)
    (htransport : transportAt protocol pkt = some (isV6, iphLen))
    (hmin : iphLen + minTransportLen protocol ≤ hdrLen) (hfits : hdrLen ≤ pkt.length)
    (hshort : pkt.length < 2 ^ 16) (hpos : 0 < gsoSize.toNat) : Splittable pkt hdr isV6 where
  addrs := by
    obtain ⟨h20, h40, -⟩ := transportAt_fits htransport
    rw [h.csumStart]
    exact addrLayout_le h20 h40
  transport := by rwa [h.csumStart, h.hdrLen, h.protocol]
  fits := by rwa [h.hdrLen]
  short := hshort
  csumOffset := by rw [h.csumOffset, h.protocol]
  gsoSize := by rwa [h.gsoSize]

/-- The buffer of a TCP item. -/
theorem TcpEntry.expand {item : TcpGROItem} {b : Buffer} (h : TcpEntry offset item b)
    (hlow : virtioNetHdrLen ≤ offset) (hroom : EnoughRoom outBuffs outOffset) :
    ∃ outs, expand e offset outBuffs outOffset (tcpAccount e offset item b) = some outs ∧
      outs.filterMap tcpSegment = itemSegments offset item
        (tcpPSH (b.pkt offset) item.iphLen) b := by
  have haccounted := tcpAccount_spec (e := e) hlow h.header.offset_le item
  obtain ⟨hlayout, hkey, hpayload⟩ := h.header.accounted e hlow
  obtain ⟨h20, -, -⟩ := transportAt_fits hlayout.transport
  have hshort := haccounted.length ▸ h.length_lt
  generalize hb' : tcpAccount e offset item b = b' at haccounted hlayout hkey hpayload hshort
  -- neither the sequence number nor the flags are among the bytes that change
  have hkeep : ∀ k, item.iphLen + 4 ≤ k → k < item.iphLen + 16 →
      (b'.pkt offset)[k]? = (b.pkt offset)[k]? := by
    intro k hk₁ hk₂
    apply haccounted.same
    rintro ((hin | ⟨-, hin | hin⟩) | hin) <;> omega
  have hseq : be32At (b'.pkt offset) (item.iphLen + 4) = item.sentSeq := by
    rw [← h.seq, be32At, be32At, field_congr fun k hk₁ hk₂ => hkeep k hk₁ (by omega)]
  have hpsh : tcpPSH (b'.pkt offset) item.iphLen = tcpPSH (b.pkt offset) item.iphLen := by
    rw [tcpPSH, tcpPSH,
      byteAt_congr (hkeep _ (by simp [tcpFlagsOffset]) (by simp [tcpFlagsOffset]))]
  have hdecode : VirtioNetHdr.decode e (b'.hdrBytes offset) = some (tcpItemHdr item) := by
    rw [haccounted.hdrBytes, VirtioNetHdr.decode_encode]
  by_cases hmerged : item.numMerged > 0
  · have hhdr := tcpItemHdr_merge hmerged (lt_of_le_of_lt hlayout.fits hshort)
    have hpos := h.merged.pos
    obtain ⟨outs, hexpand, hsegs⟩ := expand_split hroom hdecode hhdr.gsoType
      (transportAt_version hlayout.transport) (hhdr.splittable hlayout.transport
        (Nat.add_le_add_left hlayout.low _) hlayout.fits hshort hpos)
    refine ⟨outs, hexpand, ?_⟩
    have htrain := hsegs.train hlayout hhdr.csumStart hhdr.hdrLen hhdr.protocol
      (by rw [hhdr.gsoSize]; exact hpos) hshort (by rw [hhdr.hdrLen, Nat.mul_zero, Nat.add_zero])
    rw [htrain, hkey, hpsh, hseq, hhdr.gsoSize, hhdr.hdrLen, hpayload, Nat.mul_zero,
      BitVec.add_zero]
    rfl
  · -- nothing has been merged
    rw [show tcpItemHdr item = VirtioNetHdr.zero from if_neg hmerged] at hdecode
    refine ⟨[b'.pkt offset], expand_single hdecode rfl, ?_⟩
    rw [filterMap_cons_some hlayout.segment, hkey, hseq, hpsh, hpayload, itemSegments,
      h.merged.chunks_of_fresh hmerged]
    simp [train]

/-- The buffer of a UDP item is expanded to datagrams only. -/
theorem UdpEntry.expand {item : UdpGROItem} {b : Buffer} (h : UdpEntry offset item b)
    (hcap : b.cap ≤ 65535)
    (hlow : virtioNetHdrLen ≤ offset) (hroom : EnoughRoom outBuffs outOffset) :
    ∃ outs, Tun.expand e offset outBuffs outOffset (udpAccount e offset item b) = some outs ∧
      outs.filterMap tcpSegment = [] := by
  have haccounted := udpAccount_spec (e := e) hlow h.offset_le item
  have hlen := b.len_le
  have hshort : (b.pkt offset).length < 2 ^ 16 := by
    rw [Buffer.length_pkt]
    omega
  rw [← haccounted.length] at hshort
  have htransport := (h.accounted e hlow).1
  generalize hb' : udpAccount e offset item b = b' at haccounted htransport hshort
  have hfits : item.iphLen + udphLen ≤ (b'.pkt offset).length := (transportAt_fits htransport).2.2
  have hdecode : VirtioNetHdr.decode e (b'.hdrBytes offset) = some (udpItemHdr item) := by
    rw [haccounted.hdrBytes, VirtioNetHdr.decode_encode]
  by_cases hmerged : item.numMerged > 0
  · have hhdr := udpItemHdr_merge hmerged (lt_of_le_of_lt hfits hshort)
    obtain ⟨outs, hexpand, hsegs⟩ :=
      expand_split hroom hdecode hhdr.gsoType (transportAt_version htransport)
      (hhdr.splittable htransport (le_refl _) hfits hshort h.merged.pos)
    exact ⟨outs, hexpand, hsegs.udp htransport hhdr.csumStart hhdr.hdrLen hhdr.protocol⟩
  · rw [show udpItemHdr item = VirtioNetHdr.zero from if_neg hmerged] at hdecode
    refine ⟨[b'.pkt offset], expand_single hdecode rfl, ?_⟩
    rw [filterMap_cons_none (tcpSegment_of_udp htransport), filterMap_nil]

end Expand

end AmneziaWG.Tun
