import AmneziaWG.Tun.Gro.Written

/-!
# Accounting

What the accounting at the end of `handleGRO` does to the buffers that are to be written: the virtio
header in front of a packet says how to tell its segments apart, and in the packet only lengths and
checksums change.

## Main results

- `Represents.accounted`: the buffers behind the indices to write.
- `tcpAccount_spec`, `udpAccount_spec`: what is in front of a packet, and what is kept of it.
-/

namespace AmneziaWG.Tun

open AmneziaWG.Lib List BitVec Nat

/-! ## §1 Virtio headers -/

theorem VirtioNetHdr.encode_length (e : Endian) (hdr : VirtioNetHdr) :
    (hdr.encode e).length = virtioNetHdrLen := by
  simp [VirtioNetHdr.encode, virtioNetHdrLen]

theorem VirtioNetHdr.zero_encode (e : Endian) :
    VirtioNetHdr.zero.encode e = List.replicate virtioNetHdrLen 0 := by
  cases e <;> rfl

theorem VirtioNetHdr.decode_encode (e : Endian) (hdr : VirtioNetHdr) :
    VirtioNetHdr.decode e (hdr.encode e) = some hdr := by
  have hread : ∀ v : BitVec 16, BitVec.ofNat 16 (e.nat (e.bytes 2 v.toNat)) = v := by
    intro v
    rw [e.nat_bytes (by have := v.isLt; omega), BitVec.ofNat_toNat, BitVec.setWidth_eq]
  -- a field behind a field of two bytes
  have hskip : ∀ (a : Bytes) (v off : ℕ), field (e.bytes 2 v ++ a) (off + 2) 2 = field a off 2 := by
    intro a v off
    rw [field, field, add_comm, ← drop_drop, drop_left' (e.bytes_length 2 v)]
  have hfirst : ∀ (a : Bytes) (v : ℕ), field (e.bytes 2 v ++ a) 0 2 = e.bytes 2 v := by
    intro a v
    rw [field, drop_zero, take_left' (e.bytes_length 2 v)]
  have hlast : ∀ v : ℕ, field (e.bytes 2 v) 0 2 = e.bytes 2 v := by
    intro v
    rw [field, drop_zero, take_of_length_le (by rw [e.bytes_length])]
  have htwo : ∀ (x y : Byte) (a : Bytes) (off : ℕ), field ([x, y] ++ a) (off + 2) 2 =
      field a off 2 :=
    fun x y a off => rfl
  unfold VirtioNetHdr.decode
  rw [VirtioNetHdr.encode_length, if_neg (lt_irrefl _)]
  simp only [native16At, VirtioNetHdr.encode]
  rw [htwo _ _ _ 0, htwo _ _ _ 2, htwo _ _ _ 4, htwo _ _ _ 6, hfirst, hskip _ _ 0, hfirst,
    hskip _ _ 2,
    hskip _ _ 0, hfirst, hskip _ _ 4, hskip _ _ 2, hskip _ _ 0, hlast, hread, hread, hread, hread]
  rfl

theorem VirtioNetHdr.decode_eq {e : Endian} {b : Bytes} (h : virtioNetHdrLen ≤ b.length) :
    ∃ hdr, VirtioNetHdr.decode e b = some hdr ∧ hdr.gsoType = byteAt b 1 :=
  ⟨_, if_neg (not_lt.mpr h), rfl⟩

/-! ## §2 Changes to a buffer -/

section Buffer

variable {b b' b'' : Buffer} {offset : ℕ}

theorem Buffer.pkt_patch (hoffset : offset ≤ b.bytes.length) (off : ℕ) (src : Bytes) :
    (b.patch (offset + off) src).pkt offset = Lib.patch (b.pkt offset) off src :=
  drop_patch_add hoffset

theorem Buffer.pkt_encodeHdr (e : Endian) (hlow : virtioNetHdrLen ≤ offset) (hdr : VirtioNetHdr) :
    (b.encodeHdr e offset hdr).pkt offset = b.pkt offset := by
  refine drop_patch _ ?_
  rw [hdr.encode_length]
  omega

theorem Buffer.hdrBytes_encodeHdr (e : Endian) (hlow : virtioNetHdrLen ≤ offset)
    (hoffset : offset ≤ b.bytes.length) (hdr : VirtioNetHdr) :
    (b.encodeHdr e offset hdr).hdrBytes offset = hdr.encode e := by
  have hfit : offset - virtioNetHdrLen + (hdr.encode e).length ≤ b.bytes.length := by
    rw [hdr.encode_length]
    omega
  have hsame := field_patch_same hfit
  rwa [hdr.encode_length] at hsame

theorem Buffer.hdrBytes_patch (off : ℕ) (src : Bytes) (h : virtioNetHdrLen ≤ offset) :
    (b.patch (offset + off) src).hdrBytes offset = b.hdrBytes offset :=
  field_patch _ (Or.inl (by omega))

/-- Only the given bytes of the packet in a buffer are changed, and nothing in front of it. -/
structure Touches (offset : ℕ) (changes : ℕ → Prop) (b b' : Buffer) : Prop where
  length : b'.bytes.length = b.bytes.length
  hdrBytes : b'.hdrBytes offset = b.hdrBytes offset
  same : ∀ k, ¬changes k → (b'.pkt offset)[k]? = (b.pkt offset)[k]?

theorem Touches.trans {changes : ℕ → Prop} (h : Touches offset changes b b')
    (h' : Touches offset changes b' b'') : Touches offset changes b b'' where
  length := h'.length.trans h.length
  hdrBytes := h'.hdrBytes.trans h.hdrBytes
  same := fun k hk => (h'.same k hk).trans (h.same k hk)

theorem Touches.patch {changes : ℕ → Prop} (hlow : virtioNetHdrLen ≤ offset)
    (hoffset : offset ≤ b.bytes.length) {off : ℕ} {src : Bytes}
    (hchanges : ∀ k, off ≤ k → k < off + src.length → changes k) :
    Touches offset changes b (b.patch (offset + off) src) where
  length := patch_length _ _ _
  hdrBytes := Buffer.hdrBytes_patch off src hlow
  same := by
    intro k hk
    rw [Buffer.pkt_patch hoffset]
    apply patch_getElem?_of_outside
    by_contra hin
    exact hk (hchanges k (by omega) (by omega))

end Buffer

/-! ## §3 The buffer of an item -/

section Account

variable {e : Endian} {offset : ℕ} {b : Buffer}
variable {hdr : VirtioNetHdr} {b' : Buffer}

theorem accountIPHeader_touches (hlow : virtioNetHdrLen ≤ offset)
    (hoffset : offset ≤ b.bytes.length) (isV6 : Bool) (iphLen : ℕ) :
    Touches offset (IPChanges isV6) b (accountIPHeader e isV6 iphLen offset b) := by
  have hpatch : ∀ (b' : Buffer), b'.bytes.length = b.bytes.length → ∀ (off : ℕ) (src : Bytes),
      src.length = 2 → (∀ k, off ≤ k → k < off + 2 → IPChanges isV6 k) →
      Touches offset (IPChanges isV6) b' (b'.patch (offset + off) src) := by
    intro b' hlen off src hsrc hin
    exact Touches.patch hlow (by omega) (by rw [hsrc]; exact hin)
  unfold accountIPHeader
  cases isV6 with
  | true =>
    exact hpatch b rfl 4 _ (be16_length _) fun k h₁ h₂ => ipChanges_v6.mpr (by omega)
  | false =>
    have hcsum : ∀ k, 10 ≤ k → k < 10 + 2 → IPChanges false k :=
      fun k h₁ h₂ => ipChanges_v4.mpr (Or.inr (by omega))
    have hlen : ∀ k, 2 ≤ k → k < 2 + 2 → IPChanges false k :=
      fun k h₁ h₂ => ipChanges_v4.mpr (Or.inl (by omega))
    have h₁ := hpatch b rfl 10 [0, 0] rfl hcsum
    have h₂ := hpatch _ h₁.length 2 (be16 (BitVec.ofNat 16 (b.pkt offset).length))
      (be16_length _) hlen
    have h₃ := hpatch _ (h₂.length.trans h₁.length) 10 (be16 (~~~checksum e
      ((((b.patch (offset + 10) [0, 0]).patch (offset + 2)
        (be16 (BitVec.ofNat 16 (b.pkt offset).length))).pkt offset).take iphLen) 0))
          (be16_length _) hcsum
    exact (h₁.trans h₂).trans h₃

theorem accountPseudoChecksum_touches (hlow : virtioNetHdrLen ≤ offset)
    (hoffset : offset ≤ b.bytes.length) (protocol : Byte) (isV6 : Bool) (iphLen csumAt : ℕ) :
    Touches offset (fun k => csumAt ≤ k ∧ k < csumAt + 2) b
      (accountPseudoChecksum e protocol isV6 iphLen csumAt offset b) :=
  Touches.patch hlow hoffset fun _ h₁ h₂ => ⟨h₁, h₂⟩

/-- The bytes that the accounting of an item changes in its packet. -/
def AccountChanges (isV6 : Bool) (low high : ℕ) (k : ℕ) : Prop :=
  IPChanges isV6 k ∨ (low ≤ k ∧ k < high)

/-- A buffer has the given virtio header and the packet of another one, up to the given bytes. -/
structure Accounted (e : Endian) (offset : ℕ) (changes : ℕ → Prop) (hdr : VirtioNetHdr)
    (b b' : Buffer) : Prop where
  hdrBytes : b'.hdrBytes offset = hdr.encode e
  length : (b'.pkt offset).length = (b.pkt offset).length
  same : ∀ k, ¬changes k → (b'.pkt offset)[k]? = (b.pkt offset)[k]?

theorem Accounted.of_touches {changes : ℕ → Prop} {b₁ b₂ : Buffer} (hlow : virtioNetHdrLen ≤ offset)
    (hoffset : offset ≤ b.bytes.length) (h₁ : Touches offset changes b b₁)
    (h₂ : Touches offset changes (b₁.encodeHdr e offset hdr) b₂) :
    Accounted e offset changes hdr b b₂ where
  hdrBytes := by
    rw [h₂.hdrBytes, Buffer.hdrBytes_encodeHdr e hlow (by rw [h₁.length]; exact hoffset)]
  length := by
    have hlen : b₂.bytes.length = b.bytes.length :=
      (h₂.length.trans (patch_length _ _ _)).trans h₁.length
    simp only [Buffer.pkt, length_drop, hlen]
  same := by
    intro k hk
    rw [h₂.same k hk, Buffer.pkt_encodeHdr e hlow, h₁.same k hk]

theorem Accounted.sameHeader {protocol : Byte} {isV6 : Bool} {iphLen hdrLen low high : ℕ}
    (h : Accounted e offset (AccountChanges isV6 (iphLen + low) (iphLen + high)) hdr b b')
    (hchange : ∀ k, low ≤ k → k < high → TransportChanges protocol k) :
    SameHeader protocol isV6 iphLen hdrLen (b.pkt offset) (b'.pkt offset) := by
  intro k _ hip hkeep
  apply h.same
  rintro (hin | ⟨hlow, hhigh⟩)
  · exact hip hin
  · rcases hkeep with hlt | hnot
    · omega
    · exact hnot (hchange _ (by omega) (by omega))

theorem Accounted.drop_eq {isV6 : Bool} {low high k : ℕ}
    (h : Accounted e offset (AccountChanges isV6 low high) hdr b b') (hk : high ≤ k)
    (h12 : 12 ≤ k) :
    (b'.pkt offset).drop k = (b.pkt offset).drop k := by
  apply ext_getElem?
  intro j
  rw [getElem?_drop, getElem?_drop]
  apply h.same
  rintro ((hin | ⟨-, hin | hin⟩) | hin) <;> omega

theorem Touches.mono {changes changes' : ℕ → Prop} (h : Touches offset changes b b')
    (hsub : ∀ k, changes k → changes' k) : Touches offset changes' b b' :=
  ⟨h.length, h.hdrBytes, fun k hk => h.same k fun hin => hk (hsub k hin)⟩

theorem Touches.refl (changes : ℕ → Prop) (b : Buffer) : Touches offset changes b b :=
  ⟨rfl, rfl, fun _ _ => rfl⟩

theorem tcpAccount_spec (hlow : virtioNetHdrLen ≤ offset) (hoffset : offset ≤ b.bytes.length)
    (item : TcpGROItem) :
    Accounted e offset (AccountChanges item.key.isV6 (item.iphLen + 16) (item.iphLen + 18))
      (tcpItemHdr item) b (tcpAccount e offset item b) := by
  unfold tcpAccount
  split_ifs
  · have h₁ := accountIPHeader_touches (e := e) hlow hoffset item.key.isV6 item.iphLen
    have h₂ := accountPseudoChecksum_touches (e := e) hlow
      (b := (accountIPHeader e item.key.isV6 item.iphLen offset b).encodeHdr e offset
        (tcpItemHdr item))
      (by rw [Buffer.encodeHdr, Buffer.patch, patch_length, h₁.length]; exact hoffset)
      ipprotoTCP item.key.isV6 item.iphLen (item.iphLen + 16)
    exact .of_touches hlow hoffset (h₁.mono fun _ => Or.inl) (h₂.mono fun _ => Or.inr)
  · exact .of_touches hlow hoffset (.refl _ b) (.refl _ _)

theorem udpAccount_spec (hlow : virtioNetHdrLen ≤ offset) (hoffset : offset ≤ b.bytes.length)
    (item : UdpGROItem) :
    Accounted e offset (AccountChanges item.key.isV6 (item.iphLen + 4) (item.iphLen + 8))
      (udpItemHdr item) b (udpAccount e offset item b) := by
  unfold udpAccount
  split_ifs
  · have h₁ := accountIPHeader_touches (e := e) hlow hoffset item.key.isV6 item.iphLen
    have hlen : ((accountIPHeader e item.key.isV6 item.iphLen offset b).encodeHdr e offset
        (udpItemHdr item)).bytes.length = b.bytes.length := (patch_length _ _ _).trans h₁.length
    refine .of_touches hlow hoffset (h₁.mono fun _ => Or.inl) (Touches.trans ?_
      ((accountPseudoChecksum_touches hlow ?_ ipprotoUDP item.key.isV6 item.iphLen
        (item.iphLen + 6)).mono fun k hk => Or.inr ⟨by omega, by omega⟩))
    · -- the length in the UDP header
      rw [add_assoc]
      refine Touches.patch hlow (by rw [hlen]; exact hoffset) ?_
      intro k hlow hhigh
      rw [be16_length] at hhigh
      exact Or.inr ⟨hlow, by omega⟩
    · rw [Buffer.patch, patch_length, hlen]
      exact hoffset
  · exact .of_touches hlow hoffset (.refl _ b) (.refl _ _)

end Account

/-! ## §4 All buffers -/

def Entry.accounted (e : Endian) (offset : ℕ) (entry : Entry) : Buffer :=
  match entry.held with
  | .raw => entry.buf
  | .tcp item => tcpAccount e offset item entry.buf
  | .udp item => udpAccount e offset item entry.buf

section Batch

variable {e : Endian} {order : MapOrder} {canUDPGRO : Bool} {offset : ℕ} {batch : List Buffer}

def accountedBufs (e : Endian) (order : MapOrder) (offset : ℕ) (st : GroState) : ℕ → Buffer :=
  applyAccounting order (·.bufsIndex.toNat) (udpAccount e offset) st.udpTable
    (applyAccounting order (·.bufsIndex.toNat) (tcpAccount e offset) st.tcpTable st.bufs)

/-- The buffers at the indices to write are those of the entries. -/
theorem Represents.accounted {i : ℕ} {st : GroState} {entries : List Entry}
    (h : Represents batch i st entries) {entry : Entry} (hentry : entry ∈ entries) :
    accountedBufs e order offset st entry.index = entry.accounted e offset := by
  unfold accountedBufs
  obtain ⟨htcp, hnotTCP⟩ := applyAccounting_spec h.tcpIndexed order (tcpAccount e offset) st.bufs
  obtain ⟨hudp, hnotUDP⟩ := applyAccounting_spec h.udpIndexed order (udpAccount e offset)
    (applyAccounting order (·.bufsIndex.toNat) (tcpAccount e offset) st.tcpTable st.bufs)
  have hbuf := h.buf entry hentry
  -- an item with the index of the entry is that of the entry
  have hskipTCP : (∀ item, entry.held ≠ .tcp item) →
      applyAccounting order (·.bufsIndex.toNat) (tcpAccount e offset)
        st.tcpTable st.bufs entry.index = entry.buf := by
    intro hnot
    rw [hnotTCP, hbuf]
    intro hin
    obtain ⟨item, hitem⟩ := mem_map.mp hin
    exact hnot item ((h.held_tcp_iff hentry).mpr hitem)
  have hskipUDP : (∀ item, entry.held ≠ .udp item) →
      entry.index ∉ st.udpTable.items.map fun item => item.bufsIndex.toNat := by
    intro hnot hin
    obtain ⟨item, hitem⟩ := mem_map.mp hin
    exact hnot item ((h.held_udp_iff hentry).mpr hitem)
  unfold Entry.accounted
  -- the UDP items are visited last, and touch no buffer of a TCP item
  cases hheld : entry.held with
  | raw => rw [hnotUDP _ (hskipUDP (by simp [hheld])), hskipTCP (by simp [hheld])]
  | tcp item =>
    obtain ⟨hitem, hidx⟩ := (h.held_tcp_iff hentry).mp hheld
    rw [hnotUDP _ (hskipUDP (by simp [hheld])), ← hidx, htcp item hitem, hidx, hbuf]
  | udp item =>
    obtain ⟨hitem, hidx⟩ := (h.held_udp_iff hentry).mp hheld
    rw [← hidx, hudp item hitem, hidx, hskipTCP (by simp [hheld])]

/-- A batch on which `handleGRO` succeeds: all packets have been treated, and the accounting
done. -/
theorem handleGRO_ok {st' : GroState} (h : handleGRO e order canUDPGRO offset batch = .ok st') :
    ∃ st, Reached e canUDPGRO offset batch batch.length st ∧ st'.toWrite = st.toWrite ∧
      st'.bufs = accountedBufs e order offset st := by
  unfold handleGRO at h
  cases hloop : groLoop e canUDPGRO offset 0 batch.length (groInit batch) with
  | error err =>
    rw [hloop] at h
    cases h
  | ok st =>
    rw [hloop] at h
    cases h
    exact ⟨st, hloop, rfl, rfl⟩

end Batch

end AmneziaWG.Tun
