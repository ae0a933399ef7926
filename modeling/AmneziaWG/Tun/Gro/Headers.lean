import AmneziaWG.Tun.Gro.Lockstep
import AmneziaWG.Tun.Gro.Lossless

/-!
# Fresh Virtio Headers

The bytes in front of the packets that are written.  A packet that is written as it is gets a header
of zeros, and a merged packet the header that describes the merge.  An item that is dropped from its
table for an invalid checksum gets neither: its packet is still written, behind the bytes that stood
there before.

## Main results

- `Reached.traced`: which packets of the batch are in which buffer.
- `handleGRO_fresh_iff`: all headers are fresh if and only if no item is found to have an invalid
  checksum.
-/

namespace AmneziaWG.Tun

open AmneziaWG.Lib List Option BitVec Nat

/-! ## §1 Merges -/

/-- The index of the buffer that a packet is merged into. -/
def MoveLabel.target : MoveLabel → Option ℕ
  | .tcpMerge _ item => some item.bufsIndex.toNat
  | .udpMerge item => some item.bufsIndex.toNat
  | _ => none

/-- The number of packets that have been merged into the same buffer before. -/
def MoveLabel.numMerged : MoveLabel → ℕ
  | .tcpMerge _ item => item.numMerged.toNat
  | .udpMerge item => item.numMerged.toNat
  | _ => 0

/-- The indices of the items, and the numbers of packets that are merged into them, have 16 bits. -/
structure FitItems (e : Endian) (canUDPGRO : Bool) (offset : ℕ) (batch : List Buffer) (n : ℕ) :
    Prop where
  indices : FitIndices e canUDPGRO offset batch n
  counts : ∀ i st, i < n → Reached e canUDPGRO offset batch i st →
    (stepLabel e canUDPGRO offset i st).numMerged + 1 < 2 ^ 16

/-- The payload of a packet of the batch, behind headers of the given length. -/
def payloadOf (offset : ℕ) (batch : List Buffer) (hdrLen k : ℕ) : Bytes :=
  ((bufferAt batch k).pkt offset).drop hdrLen

/-- A payload is made of those of the given packets of the batch, all but the last of the same
size. -/
structure Composed (offset : ℕ) (batch : List Buffer) (hdrLen size : ℕ) (members : List ℕ)
    (payload : Bytes) : Prop where
  flatten : (members.map (payloadOf offset batch hdrLen)).flatten = payload
  chunked : Chunked size (members.map (payloadOf offset batch hdrLen))

section Composed

variable {offset hdrLen size i : ℕ} {batch : List Buffer} {members : List ℕ} {payload : Bytes}

theorem Composed.single {g : BitVec 16} (hsize : g.toNat = (payloadOf offset batch hdrLen i).length)
    (hpos : 0 < g.toNat) :
    Composed offset batch hdrLen
      (BitVec.ofNat 16 (payloadOf offset batch hdrLen i).length).toNat [i]
      (payloadOf offset batch hdrLen i) := by
  have hread : (BitVec.ofNat 16 (payloadOf offset batch hdrLen i).length).toNat =
      (payloadOf offset batch hdrLen i).length := by
    rw [← hsize, ofNat_toNat, setWidth_eq]
  rw [hread]
  exact ⟨by simp, hsize ▸ hpos, le_refl _⟩

theorem Composed.append (h : Composed offset batch hdrLen size members payload)
    (hfull : payload.length % size = 0) (hpos : 0 < (payloadOf offset batch hdrLen i).length)
    (hle : (payloadOf offset batch hdrLen i).length ≤ size) :
    Composed offset batch hdrLen size (members ++ [i])
      (payload ++ payloadOf offset batch hdrLen i) where
  flatten := by simp [h.flatten]
  chunked := by
    rw [map_append, map_singleton]
    exact h.chunked.append (by rw [h.flatten]; exact hfull) hpos hle

theorem Composed.prepend (h : Composed offset batch hdrLen size members payload)
    (hle : size ≤ (payloadOf offset batch hdrLen i).length)
    (hsize : members.length = 1 ∨ (payloadOf offset batch hdrLen i).length = size) :
    Composed offset batch hdrLen (payloadOf offset batch hdrLen i).length (i :: members)
      (payloadOf offset batch hdrLen i ++ payload) where
  flatten := by simp [h.flatten]
  chunked := by
    rw [map_cons]
    refine Chunked.cons ?_ rfl
    rcases hsize with hone | hsame
    · obtain ⟨k, rfl⟩ := length_eq_one_iff.mp hone
      exact ⟨h.chunked.1, le_trans h.chunked.2 hle⟩
    · rw [hsame]
      exact h.chunked

end Composed

/-- The virtio header of a packet that TCP segments have been merged into. -/
structure TcpMergeHdr (offset : ℕ) (batch : List Buffer) (members : List ℕ) (pkt : Bytes)
    (hdr : VirtioNetHdr) (isV6 : Bool) (iphLen tcphLen : ℕ) : Prop where
  layout : TcpLayout isV6 iphLen tcphLen pkt
  composed : Composed offset batch (iphLen + tcphLen) hdr.gsoSize.toNat members
    (pkt.drop (iphLen + tcphLen))
  flags : hdr.flags = needsCsum
  gsoType : hdr.gsoType = if isV6 then gsoTCPv6 else gsoTCPv4
  hdrLen : hdr.hdrLen.toNat = iphLen + tcphLen
  csumStart : hdr.csumStart.toNat = iphLen
  csumOffset : hdr.csumOffset = 16

/-- The virtio header of a packet that UDP datagrams have been merged into. -/
structure UdpMergeHdr (offset : ℕ) (batch : List Buffer) (members : List ℕ) (pkt : Bytes)
    (hdr : VirtioNetHdr) (isV6 : Bool) (iphLen : ℕ) : Prop where
  transport : transportAt ipprotoUDP pkt = some (isV6, iphLen)
  composed : Composed offset batch (iphLen + udphLen) hdr.gsoSize.toNat members
    (pkt.drop (iphLen + udphLen))
  flags : hdr.flags = needsCsum
  gsoType : hdr.gsoType = gsoUDPL4
  hdrLen : hdr.hdrLen.toNat = iphLen + udphLen
  csumStart : hdr.csumStart.toNat = iphLen
  csumOffset : hdr.csumOffset = 6

/-- The header describes the packet that the given packets of the batch have been merged into. -/
def DescribesMerge (offset : ℕ) (batch : List Buffer) (members : List ℕ) (pkt : Bytes)
    (hdr : VirtioNetHdr) : Prop :=
  (∃ isV6 iphLen tcphLen, TcpMergeHdr offset batch members pkt hdr isV6 iphLen tcphLen) ∨
    ∃ isV6 iphLen, UdpMergeHdr offset batch members pkt hdr isV6 iphLen

section Property

variable (e : Endian) (canUDPGRO : Bool) (offset : ℕ) (batch : List Buffer)

/-- The packet at `k` is merged into the buffer at `w`. -/
def MergedInto (k w : ℕ) : Prop :=
  k < batch.length ∧ ∃ st, Reached e canUDPGRO offset batch k st ∧
    (stepLabel e canUDPGRO offset k st).target = some w

/-- The bytes in front of a written packet: zeros when it is written as it is, or else the header
that describes the merge. -/
def FreshHeader (st : GroState) (w : ℕ) : Prop :=
  ((st.bufs w).hdrBytes offset = List.replicate virtioNetHdrLen 0 ∧
      (st.bufs w).pkt offset = (bufferAt batch w).pkt offset ∧
        ∀ k, ¬MergedInto e canUDPGRO offset batch k w) ∨
    ∃ hdr members, (st.bufs w).hdrBytes offset = hdr.encode e ∧ members.Nodup ∧ 2 ≤ members.length ∧
      (∀ k, k ∈ members ↔ k = w ∨ MergedInto e canUDPGRO offset batch k w) ∧
      DescribesMerge offset batch members ((st.bufs w).pkt offset) hdr

/-- The batch with other bytes in the place of the virtio headers. -/
def withHeaders (previous : ℕ → Bytes) : List Buffer :=
  batch.mapIdx fun k b => b.patch (offset - virtioNetHdrLen) (previous k)

/-- Whatever stands in front of the packets before, no index is written twice, and the bytes in
front of every written packet are fresh and always the same. -/
def FreshHeaders (order : MapOrder) : Prop :=
  ∃ written : ℕ → Bytes, ∀ previous : ℕ → Bytes, (∀ k, (previous k).length = virtioNetHdrLen) →
    ∃ st, handleGRO e order canUDPGRO offset (withHeaders offset batch previous) = .ok st ∧
      st.toWrite.Nodup ∧ ∀ w ∈ st.toWrite, (st.bufs w).hdrBytes offset = written w ∧
        FreshHeader e canUDPGRO offset (withHeaders offset batch previous) st w

end Property

/-! ## §2 Items with an invalid checksum -/

/-- What comes of the packet at `i` and an item of its flow, when they can be coalesced. -/
def tcpTryCoalesce (e : Endian) (offset i : ℕ) (isV6 : Bool) (m : TcpMeta) (st : GroState)
    (item : TcpGROItem) : Option CoalesceResult :=
  let buf := st.bufs i
  let target := st.bufs item.bufsIndex.toNat
  let can := tcpPacketsCanCoalesce (buf.pkt offset) m item (target.pkt offset)
  if can = .unavailable then none else some (tcpCoalesceCheck e can buf m item target offset isV6)

/-- No packet can be coalesced with an item of its flow that is found to have an invalid checksum,
unless `tcpGRO` is done with the packet before it comes to that item. -/
def NoInvalidItem (e : Endian) (canUDPGRO : Bool) (offset : ℕ) (batch : List Buffer)
    (n : ℕ) : Prop :=
  ∀ i st isV6 m, i < n → Reached e canUDPGRO offset batch i st →
    packetIsGROCandidate ((st.bufs i).pkt offset) canUDPGRO = .tcp isV6 →
    tcpMeta ((st.bufs i).pkt offset) isV6 = some m →
    ∀ front item behind,
      st.tcpTable.flow (newTCPFlowKey ((st.bufs i).pkt offset) isV6 m.iphLen) =
        front ++ item :: behind →
      tcpTryCoalesce e offset i isV6 m st item = some .itemInvalidCSum →
      ∃ x ∈ behind, tcpTryCoalesce e offset i isV6 m st x = some .success ∨
        tcpTryCoalesce e offset i isV6 m st x = some .pktInvalidCSum

def NoDrop (e : Endian) (canUDPGRO : Bool) (offset : ℕ) (batch : List Buffer) (n : ℕ) : Prop :=
  ∀ i st, i < n → Reached e canUDPGRO offset batch i st → stepDeleted e canUDPGRO offset i st = []

section Scan

variable {e : Endian} {canUDPGRO : Bool} {offset i n : ℕ} {isV6 : Bool} {m : TcpMeta}
    {st : GroState}
  {batch : List Buffer}

/-- Behind every item that is found invalid there is one at which the loop ends. -/
def EndsBehind (result : TcpGROItem → Option CoalesceResult) (items : List TcpGROItem) : Prop :=
  ∀ front item behind, items = front ++ item :: behind → result item = some .itemInvalidCSum →
    ∃ x ∈ behind, result x = some .success ∨ result x = some .pktInvalidCSum

theorem endsBehind_concat {result : TcpGROItem → Option CoalesceResult} {items : List TcpGROItem}
    {last : TcpGROItem} : EndsBehind result (items ++ [last]) ↔
      (result last = some .success ∨ result last = some .pktInvalidCSum) ∨
        (result last ≠ some .itemInvalidCSum ∧ EndsBehind result items) := by
  constructor
  · intro h
    refine or_iff_not_imp_left.mpr fun hends =>
      ⟨fun hinvalid => ?_, fun front item behind heq hinvalid => ?_⟩
    · simpa using h items last [] rfl hinvalid
    · obtain ⟨x, hx, hend⟩ := h front item (behind ++ [last]) (by simp [heq]) hinvalid
      rcases mem_append.mp hx with hx | hx
      · exact ⟨x, hx, hend⟩
      · exact absurd (mem_singleton.mp hx ▸ hend) hends
  · intro h front item behind heq hinvalid
    -- the last item, or one in front of it
    rcases eq_nil_or_concat' behind with rfl | ⟨rest, x, rfl⟩
    · obtain ⟨-, hlast⟩ := append_inj' heq rfl
      obtain rfl := (cons.inj hlast).1
      simp [hinvalid] at h
    · rw [← List.cons_append, ← List.append_assoc] at heq
      obtain ⟨hitems, hlast⟩ := append_inj' heq rfl
      cases hlast
      rcases h with hend | ⟨-, h⟩
      · exact ⟨last, by simp, hend⟩
      · obtain ⟨x, hx, hend⟩ := h front item rest hitems hinvalid
        exact ⟨x, mem_append_left _ hx, hend⟩

/-- The loop over the items of a flow, from the last item on, drops nothing when it ends before it
comes to an invalid item. -/
theorem tcpScan_deleted_eq_nil_iff (items : List TcpGROItem) :
    (tcpScan e offset i isV6 m items.zipIdx.reverse st).deleted = [] ↔
      EndsBehind (tcpTryCoalesce e offset i isV6 m st) items := by
  induction items using reverseRecOn with
  | nil => simp [tcpScan, EndsBehind]
  | append_singleton items last ih =>
    have hzip : (items ++ [last]).zipIdx.reverse = (last, items.length) ::
        items.zipIdx.reverse := by
      simp [zipIdx_append]
    rw [hzip, endsBehind_concat, ← ih, tcpTryCoalesce]
    simp only [tcpScan]
    generalize tcpPacketsCanCoalesce ((st.bufs i).pkt offset) m last
      ((st.bufs last.bufsIndex.toNat).pkt offset) = can
    split_ifs
    · simp
    · cases tcpCoalesceCheck e can (st.bufs i) m last (st.bufs last.bufsIndex.toNat) offset isV6
        <;> simp

theorem noInvalidItem_iff : NoInvalidItem e canUDPGRO offset batch n ↔
    NoDrop e canUDPGRO offset batch n := by
  constructor
  · intro h i st hi hst
    unfold stepDeleted
    split
    · next isV6 hcandidate =>
      split
      · rfl
      · next m hmeta =>
          exact (tcpScan_deleted_eq_nil_iff _).mpr (h i st isV6 m hi hst hcandidate hmeta)
    · rfl
  · intro h i st isV6 m hi hst hcandidate hmeta
    have hdeleted := h i st hi hst
    simp only [stepDeleted, hcandidate, hmeta] at hdeleted
    exact (tcpScan_deleted_eq_nil_iff _).mp hdeleted

theorem NoDrop.sameRun {batch' : List Buffer} (h : NoDrop e canUDPGRO offset batch n)
    (halike : ∀ w, Alike offset (bufferAt batch' w) (bufferAt batch w)) :
    NoDrop e canUDPGRO offset batch' n := by
  intro i st hi hst
  obtain ⟨st', hst', hsame⟩ := hst.sameRun halike
  rw [← hsame.stepDeleted]
  exact h i st' hi hst'

theorem FitItems.sameRun {batch' : List Buffer} (h : FitItems e canUDPGRO offset batch n)
    (halike : ∀ w, Alike offset (bufferAt batch' w) (bufferAt batch w)) :
    FitItems e canUDPGRO offset batch' n := by
  refine ⟨fun i st hi hst => ?_, fun i st hi hst => ?_⟩
  all_goals
    obtain ⟨st', hst', hsame⟩ := hst.sameRun halike
    rw [← hsame.stepLabel]
  · exact h.indices i st' hi hst'
  · exact h.counts i st' hi hst'

end Scan

/-! ## §3 Which packets are in which buffer -/

/-- The item of an entry describes what is in its buffer: the packet of the batch, or the payloads
of the given packets. -/
def Entry.Holds (offset : ℕ) (batch : List Buffer) (members : List ℕ) (entry : Entry) : Prop :=
  match entry.held with
  | .raw => members.length = 1 ∧ entry.buf.pkt offset = (bufferAt batch entry.index).pkt offset
  | .tcp item => TcpHeader offset item entry.buf ∧
      Composed offset batch (item.iphLen + item.tcphLen) item.gsoSize.toNat members
        ((entry.buf.pkt offset).drop (item.iphLen + item.tcphLen)) ∧
      members.length = item.numMerged.toNat + 1 ∧
      (item.numMerged = 0 → entry.buf = bufferAt batch entry.index)
  | .udp item => UdpEntry offset item entry.buf ∧
      Composed offset batch (item.iphLen + udphLen) item.gsoSize.toNat members
        ((entry.buf.pkt offset).drop (item.iphLen + udphLen)) ∧
      members.length = item.numMerged.toNat + 1 ∧
      (item.numMerged = 0 → entry.buf = bufferAt batch entry.index)

/-- An entry after `k` iterations, with the packets that are in its buffer. -/
structure Entry.Traced (e : Endian) (canUDPGRO : Bool) (offset : ℕ) (batch : List Buffer) (k : ℕ)
    (members : List ℕ) (entry : Entry) : Prop where
  below : entry.index < k
  heldAt : entry.held.At entry.index
  offset_le : offset ≤ entry.buf.bytes.length
  nodup : members.Nodup
  mem : ∀ j, j ∈ members ↔ j = entry.index ∨
    (j < k ∧ MergedInto e canUDPGRO offset batch j entry.index)
  holds : entry.Holds offset batch members

section Members

variable {e : Endian} {canUDPGRO : Bool} {offset k : ℕ} {batch : List Buffer} {members : List ℕ}
  {entry : Entry}

theorem Entry.Traced.next (h : entry.Traced e canUDPGRO offset batch k members)
    (hnot : ¬MergedInto e canUDPGRO offset batch k entry.index) :
    entry.Traced e canUDPGRO offset batch (k + 1) members where
  below := Nat.lt_succ_of_lt h.below
  heldAt := h.heldAt
  offset_le := h.offset_le
  nodup := h.nodup
  mem := by
    intro j
    rw [h.mem j, Nat.lt_succ_iff_lt_or_eq]
    refine or_congr_right ⟨fun ⟨hj, hm⟩ => ⟨Or.inl hj, hm⟩, ?_⟩
    rintro ⟨hj | rfl, hm⟩
    · exact ⟨hj, hm⟩
    · exact absurd hm hnot
  holds := h.holds

theorem Entry.Traced.mem_lt (h : entry.Traced e canUDPGRO offset batch k members) {j : ℕ}
    (hj : j ∈ members) : j < k := by
  rcases (h.mem j).mp hj with rfl | ⟨hlt, -⟩
  · exact h.below
  · exact hlt

theorem Entry.Traced.length_le (h : entry.Traced e canUDPGRO offset batch k members) :
    members.length ≤ k := by
  have hsub : members ⊆ range k := fun j hj => mem_range.mpr (h.mem_lt hj)
  have hle := (subperm_of_subset h.nodup hsub).length_le
  rwa [length_range] at hle

theorem Entry.Traced.merge {entry' : Entry} {members' : List ℕ}
    (h : entry.Traced e canUDPGRO offset batch k members) (hindex : entry'.index = entry.index)
    (hat : entry'.held.At entry'.index) (hoffset : offset ≤ entry'.buf.bytes.length)
    (hmerged : MergedInto e canUDPGRO offset batch k entry.index)
    (hperm : members'.Perm (k :: members)) (hholds : entry'.Holds offset batch members') :
    entry'.Traced e canUDPGRO offset batch (k + 1) members' where
  below := hindex ▸ Nat.lt_succ_of_lt h.below
  heldAt := hat
  offset_le := hoffset
  nodup := hperm.nodup_iff.mpr
    (List.nodup_cons.mpr ⟨fun hk => Nat.lt_irrefl k (h.mem_lt hk), h.nodup⟩)
  mem := by
    intro j
    rw [hperm.mem_iff, List.mem_cons, h.mem j, hindex, Nat.lt_succ_iff_lt_or_eq]
    constructor
    · rintro (rfl | hj | ⟨hj, hm⟩)
      · exact Or.inr ⟨Or.inr rfl, hmerged⟩
      · exact Or.inl hj
      · exact Or.inr ⟨Or.inl hj, hm⟩
    · rintro (hj | ⟨hj | hj, hm⟩)
      · exact Or.inr (Or.inl hj)
      · exact Or.inr (Or.inr ⟨hj, hm⟩)
      · exact Or.inl hj
  holds := hholds

theorem Entry.Traced.of_length_one (h : entry.Traced e canUDPGRO offset batch k members)
    (hone : members.length = 1) : members = [entry.index] := by
  obtain ⟨j, rfl⟩ := length_eq_one_iff.mp hone
  have hself : entry.index ∈ [j] := (h.mem _).mpr (Or.inl rfl)
  rw [mem_singleton.mp hself]

end Members

section Holds

variable {offset i w : ℕ} {batch : List Buffer} {isV6 : Bool} {members : List ℕ} {target : Buffer}

theorem toNat_succ_of_lt {a : BitVec 16} (h : a.toNat + 1 < 2 ^ 16) :
    (a + 1).toNat = a.toNat + 1 := by
  rw [toNat_add]
  exact mod_eq_of_lt h

theorem ne_zero_of_toNat_succ {a : BitVec 16} (h : a.toNat + 1 < 2 ^ 16) : a + 1 ≠ 0 := by
  intro hzero
  have hsucc := toNat_succ_of_lt h
  rw [hzero] at hsucc
  exact absurd hsucc (by simp)

theorem Entry.Holds.tcp_insert {m : TcpMeta} (hoffset : offset ≤ (bufferAt batch i).bytes.length)
    (hreads : TcpReads isV6 m ((bufferAt batch i).pkt offset)) :
    (⟨i, .tcp (tcpItem ((bufferAt batch i).pkt offset) m isV6 i), bufferAt batch i⟩ : Entry).Holds
      offset batch [i] :=
  ⟨TcpHeader.insert hoffset hreads, Composed.single hreads.gsoSize hreads.pos, rfl, fun _ => rfl⟩

theorem Entry.Holds.tcp_merge {m : TcpMeta} {mode : CanCoalesce} {item : TcpGROItem}
    (h : (⟨w, .tcp item, target⟩ : Entry).Holds offset batch members)
    (hoffset : offset ≤ (bufferAt batch i).bytes.length)
    (hreads : TcpReads isV6 m ((bufferAt batch i).pkt offset))
    (hkey : item.key = newTCPFlowKey ((bufferAt batch i).pkt offset) isV6 m.iphLen)
    (hmode : mode ≠ .unavailable)
    (hcan : tcpPacketsCanCoalesce ((bufferAt batch i).pkt offset) m item (target.pkt offset) = mode)
    (hcount : item.numMerged.toNat + 1 < 2 ^ 16) : (⟨w, .tcp (tcpMergedItem mode m item),
      tcpMergedBuffer mode (bufferAt batch i) target m item offset⟩ : Entry).Holds offset batch
        (if mode = .prepend then i :: members else members ++ [i]) := by
  obtain ⟨hheader, hcomposed, hlength, -⟩ := h
  have htarget : TcpHeader offset item target := hheader
  obtain ⟨hiph, -, hbuf⟩ := TcpHeader.of_reads hoffset hreads hkey htarget.iphLen
    (tcphLen_of_canCoalesce (hcan ▸ hmode))
  have htcph := tcphLen_of_canCoalesce (hcan ▸ hmode)
  -- the size that was read is that of the payload behind the same headers
  have hsize : m.gsoSize.toNat =
      (payloadOf offset batch (item.iphLen + item.tcphLen) i).length := by
    rw [← hiph, ← htcph]
    exact hreads.gsoSize
  have hpos := hsize ▸ hreads.pos
  obtain ⟨-, -, hdrop⟩ := tcpMergedBuffer_spec (m := m) mode hbuf htarget
  refine ⟨htarget.merge hbuf, ?_, ?_, fun hzero => absurd hzero (ne_zero_of_toNat_succ hcount)⟩
  · show Composed offset batch (item.iphLen + item.tcphLen)
      (tcpMergedItem mode m item).gsoSize.toNat _
      (((tcpMergedBuffer mode (bufferAt batch i) target m item offset).pkt offset).drop
        (item.iphLen + item.tcphLen))
    rw [hdrop]
    -- the segments of the item keep their size, or take that of the packet in front
    rcases canCoalesce_cases hmode with rfl | rfl
    · obtain ⟨-, -, hfull, hle⟩ := canCoalesce_append hcan
      rw [hiph, htcph] at hfull
      have hkeeps : (tcpMergedItem .append m item).gsoSize = item.gsoSize :=
        if_neg (BitVec.not_lt.mpr hle)
      rw [hkeeps]
      exact hcomposed.append hfull hpos (hsize ▸ le_def.mp hle)
    · obtain ⟨-, -, hle, hcase⟩ := canCoalesce_prepend hcan
      have htakes : (tcpMergedItem .prepend m item).gsoSize = m.gsoSize := by
        simp only [tcpMergedItem]
        split_ifs with hlt
        · rfl
        · exact BitVec.le_antisymm hle (BitVec.not_lt.mp hlt)
      rw [htakes, hsize]
      refine hcomposed.prepend (hsize ▸ le_def.mp hle) ?_
      rcases hcase with hzero | hsame
      · exact Or.inl (by rw [hlength, hzero]; rfl)
      · exact Or.inr (by rw [← hsize, hsame])
  · show _ = (item.numMerged + 1).toNat + 1
    rw [toNat_succ_of_lt hcount, ← hlength]
    split_ifs <;> simp

theorem Entry.Holds.udp_insert {m : UdpMeta} (hoffset : offset ≤ (bufferAt batch i).bytes.length)
    (hreads : UdpReads isV6 m ((bufferAt batch i).pkt offset)) (known : Bool) :
    (⟨i, .udp (udpItem ((bufferAt batch i).pkt offset) m isV6 i known),
      bufferAt batch i⟩ : Entry).Holds
      offset batch [i] :=
  ⟨UdpEntry.insert hoffset hreads known, Composed.single hreads.gsoSize hreads.pos, rfl,
    fun _ => rfl⟩

theorem Entry.Holds.udp_merge {m : UdpMeta} {item : UdpGROItem}
    (h : (⟨w, .udp item, target⟩ : Entry).Holds offset batch members)
    (hreads : UdpReads isV6 m ((bufferAt batch i).pkt offset))
    (hkey : item.key = newUDPFlowKey ((bufferAt batch i).pkt offset) isV6 m.iphLen)
    (hcan : udpPacketsCanCoalesce ((bufferAt batch i).pkt offset) m item (target.pkt offset) =
      .append)
    (hcount : item.numMerged.toNat + 1 < 2 ^ 16) :
    (⟨w, .udp { item with numMerged := item.numMerged + 1 },
      udpMergedBuffer (bufferAt batch i) target item offset⟩ : Entry).Holds offset batch
        (members ++ [i]) := by
  obtain ⟨hentry, hcomposed, hlength, -⟩ := h
  have hold : UdpEntry offset item target := hentry
  obtain ⟨hnew, -⟩ := hold.merge hreads hkey hcan hcount
  obtain ⟨hfull, hle⟩ := canCoalesce_udp hcan
  have hiph := hold.iphLen_eq hreads hkey
  rw [hiph] at hfull
  have hsize : m.gsoSize.toNat = (payloadOf offset batch (item.iphLen + udphLen) i).length := by
    rw [← hiph]
    exact hreads.gsoSize
  refine ⟨hnew, ?_, ?_, fun hzero => absurd hzero (ne_zero_of_toNat_succ hcount)⟩
  · show Composed offset batch (item.iphLen + udphLen) item.gsoSize.toNat _
      (((udpMergedBuffer (bufferAt batch i) target item offset).pkt offset).drop
        (item.iphLen + udphLen))
    -- datagrams are only put behind, and only behind full ones
    rw [hold.drop_merged]
    exact hcomposed.append hfull (hsize ▸ hreads.pos) (hsize ▸ le_def.mp hle)
  · show _ = (item.numMerged + 1).toNat + 1
    rw [toNat_succ_of_lt hcount, ← hlength]
    simp

end Holds

/-! ## §4 One iteration -/

/-- The entries after `k` iterations: every buffer with its packets, and every merge into one of
them. -/
structure Traced (e : Endian) (canUDPGRO : Bool) (offset : ℕ) (batch : List Buffer) (k : ℕ)
    (entries : List Entry) : Prop where
  entry : ∀ x ∈ entries, ∃ members, x.Traced e canUDPGRO offset batch k members
  target : ∀ j w, j < k → MergedInto e canUDPGRO offset batch j w → w < j ∧
    ∃ x ∈ entries, x.index = w

/-- A dropped packet is still to be written, in the buffer that it came in. -/
def Stale (batch : List Buffer) (entries : List Entry) : Prop :=
  ∃ x ∈ entries, x.held = .raw ∧ x.buf = bufferAt batch x.index

section Step

variable {e : Endian} {canUDPGRO : Bool} {offset i : ℕ} {batch : List Buffer} {buf : Buffer}
  {entries entries' : List Entry} {deleted : List TcpGROItem} {label : MoveLabel}

theorem EntryDrops.map_index (h : EntryDrops entries deleted entries') :
    entries'.map Entry.index = entries.map Entry.index := by
  induction h with
  | nil => rfl
  | cons _ _ _ ih => rw [ih]; simp

theorem EntryDrops.mem_of_raw (h : EntryDrops entries deleted entries') {x : Entry}
    (hx : x ∈ entries) (hraw : x.held = .raw) : x ∈ entries' := by
  induction h with
  | nil => exact hx
  | cons _ _ _ ih =>
    rcases mem_replace.mp hx with rfl | hx
    · cases hraw
    · exact ih (mem_replace.mpr (Or.inr hx))

/-- What is written as it is stays so, and a packet that is newly so has a header of zeros. -/
theorem EntryMove.raw_iff (h : EntryMove e canUDPGRO offset i buf entries label entries')
    {x : Entry} (hraw : x.held = .raw) :
    x ∈ entries' ↔ x ∈ entries ∨ label = .raw ∧
    x = ⟨i, .raw, buf.encodeHdr e offset VirtioNetHdr.zero⟩ := by
  have htcp : ∀ w item b, x ≠ ⟨w, .tcp item, b⟩ := by
    rintro w item b rfl
    cases hraw
  have hudp : ∀ w item b, x ≠ ⟨w, .udp item, b⟩ := by
    rintro w item b rfl
    cases hraw
  cases h <;> simp [htcp, hudp]

theorem Traced.drops (h : Traced e canUDPGRO offset batch i entries)
    (hdrops : EntryDrops entries deleted entries') :
    Traced e canUDPGRO offset batch i entries' ∧ (deleted ≠ [] → Stale batch entries') := by
  induction hdrops with
  | nil => exact ⟨h, fun hne => absurd rfl hne⟩
  | @cons before behind entries' w item buf deleted hindex hmerged hrest ih =>
    obtain ⟨members, htraced⟩ := h.entry ⟨w, .tcp item, buf⟩ (mem_replace.mpr (Or.inl rfl))
    obtain ⟨-, -, hlength, hbuf⟩ := htraced.holds
    have hsame : buf = bufferAt batch w := hbuf hmerged
    have hone : members.length = 1 := by
      rw [hlength, hmerged]
      rfl
    have hraw : (⟨w, .raw, buf⟩ : Entry).Traced e canUDPGRO offset batch i members :=
      ⟨htraced.below, trivial, htraced.offset_le, htraced.nodup, htraced.mem, hone, by rw [hsame]⟩
    have hdropped : Traced e canUDPGRO offset batch i (before ++ ⟨w, .raw, buf⟩ :: behind) := by
      refine ⟨forall_replace h.entry ⟨members, hraw⟩, fun j v hj hinto => ?_⟩
      obtain ⟨hlt, hexists⟩ := h.target j v hj hinto
      exact ⟨hlt, exists_replace hexists id⟩
    refine ⟨(ih hdropped).1, fun _ => ?_⟩
    exact ⟨⟨w, .raw, buf⟩, hrest.mem_of_raw (mem_replace.mpr (Or.inl rfl)) rfl, rfl, hsame⟩

theorem Traced.push (h : Traced e canUDPGRO offset batch i entries) {x : Entry}
    (hindex : x.index = i)
    (hat : x.held.At x.index) (hoffset : offset ≤ x.buf.bytes.length)
    (hholds : x.Holds offset batch [i])
    (hlabel : ∀ w, MergedInto e canUDPGRO offset batch i w ↔ label.target = some w)
    (hnone : label.target = none) : Traced e canUDPGRO offset batch (i + 1) (entries ++ [x]) := by
  have hnot : ∀ w, ¬MergedInto e canUDPGRO offset batch i w := by
    intro w hinto
    rw [hlabel, hnone] at hinto
    cases hinto
  refine ⟨forall_push ?_ ⟨[i], ?_⟩, ?_⟩
  · intro y hy
    obtain ⟨members, htraced⟩ := h.entry y hy
    exact ⟨members, htraced.next (hnot _)⟩
  · refine ⟨by omega, hat, hoffset, nodup_singleton i, fun j => ?_, hholds⟩
    rw [mem_singleton, hindex]
    refine ⟨Or.inl, fun hj => hj.resolve_right ?_⟩
    rintro ⟨hj, hinto⟩
    rcases Nat.lt_succ_iff_lt_or_eq.mp hj with hj | rfl
    · -- all targets so far are entries, whose packets came before
      obtain ⟨-, y, hy, hyi⟩ := h.target j i hj hinto
      obtain ⟨members, htraced⟩ := h.entry y hy
      exact lt_irrefl i (hyi ▸ htraced.below)
    · exact hnot _ hinto
  · intro j w hj hinto
    rcases Nat.lt_succ_iff_lt_or_eq.mp hj with hj | rfl
    · obtain ⟨hlt, hexists⟩ := h.target j w hj hinto
      exact ⟨hlt, exists_push hexists⟩
    · exact absurd hinto (hnot w)

theorem Traced.replace {before behind : List Entry} {x x' : Entry}
    (h : Traced e canUDPGRO offset batch i (before ++ x :: behind))
    (hnodup : ((before ++ x :: behind).map Entry.index).Nodup) (hindex : x'.index = x.index)
    (htraced : ∃ members, x'.Traced e canUDPGRO offset batch (i + 1) members)
    (hlabel : ∀ w, MergedInto e canUDPGRO offset batch i w ↔ label.target = some w)
    (htarget : label.target = some x.index) :
    Traced e canUDPGRO offset batch (i + 1) (before ++ x' :: behind) := by
  have hne := idx_ne_of_nodup hnodup
  refine ⟨fun y hy => ?_, fun j w hj hinto => ?_⟩
  · rcases mem_replace.mp hy with rfl | hy
    · exact htraced
    · obtain ⟨members, hother⟩ := h.entry y (mem_replace.mpr (Or.inr hy))
      refine ⟨members, hother.next fun hinto => ?_⟩
      rw [hlabel, htarget] at hinto
      exact hne y hy (some.inj hinto).symm
  · rcases Nat.lt_succ_iff_lt_or_eq.mp hj with hj | rfl
    · obtain ⟨hlt, hexists⟩ := h.target j w hj hinto
      exact ⟨hlt, exists_replace hexists hindex.trans⟩
    · rw [hlabel, htarget] at hinto
      obtain ⟨members, hx⟩ := h.entry x (mem_replace.mpr (Or.inl rfl))
      have hw := some.inj hinto
      exact ⟨hw ▸ hx.below, x', mem_replace.mpr (Or.inl rfl), hindex.trans hw⟩

theorem Traced.move (h : Traced e canUDPGRO offset batch i entries)
    (hnodup : (entries.map Entry.index).Nodup) (hlow : virtioNetHdrLen ≤ offset)
    (hoffset : offset ≤ (bufferAt batch i).bytes.length)
    (hindex : label = .tcpInsert ∨ label = .udpInsert → i < 2 ^ 16)
    (hcount : label.numMerged + 1 < 2 ^ 16)
    (hlabel : ∀ w, MergedInto e canUDPGRO offset batch i w ↔ label.target = some w)
    (hmove : EntryMove e canUDPGRO offset i (bufferAt batch i) entries label entries') :
    Traced e canUDPGRO offset batch (i + 1) entries' := by
  cases hmove with
  | raw =>
    refine h.push rfl trivial ?_ ⟨rfl, Buffer.pkt_encodeHdr e hlow _⟩ hlabel rfl
    rw [Buffer.encodeHdr, Buffer.patch, patch_length]
    exact hoffset
  | tcpInsert hcandidate hmeta =>
    have hreads := tcpMeta_reads hcandidate hmeta
    exact h.push rfl (toNat_ofNat16 (hindex (Or.inl rfl))) hoffset
      (Entry.Holds.tcp_insert hoffset hreads) hlabel rfl
  | @tcpMerge before behind w target isV6 m mode item hcandidate hmeta hkey hmode hcan hcheck =>
    obtain ⟨members, htraced⟩ := h.entry ⟨w, .tcp item, target⟩ (mem_replace.mpr (Or.inl rfl))
    have hw : item.bufsIndex.toNat = w := htraced.heldAt
    have hreads := tcpMeta_reads hcandidate hmeta
    refine h.replace hnodup rfl ⟨_, htraced.merge rfl hw ?_ ?_ ?_
      (htraced.holds.tcp_merge hoffset hreads hkey hmode hcan hcount)⟩ hlabel (by rw [← hw]; rfl)
    · exact tcpMergedBuffer_length mode m item hoffset htraced.offset_le
    · exact (hlabel _).mpr (by rw [← hw]; rfl)
    · -- in front or behind; the packets of a buffer are counted without their order
      split_ifs
      · exact List.Perm.refl _
      · exact perm_append_singleton i members
  -- a new item has the index of its packet, as far as it has 16 bits
  | udpInsert hcandidate hmeta =>
    have hreads := udpMeta_reads hcandidate hmeta
    exact h.push rfl (toNat_ofNat16 (hindex (Or.inr rfl))) hoffset
      (Entry.Holds.udp_insert hoffset hreads _) hlabel rfl
  | @udpMerge before behind w target isV6 m item hcandidate hmeta hw hkey hlast hcan hcheck =>
    obtain ⟨members, htraced⟩ := h.entry ⟨w, .udp item, target⟩ (mem_replace.mpr (Or.inl rfl))
    have hreads := udpMeta_reads hcandidate hmeta
    have hholds := htraced.holds.udp_merge hreads hkey hcan hcount
    refine h.replace hnodup rfl ⟨_, htraced.merge rfl hw hholds.1.offset_le ?_
      (perm_append_singleton i members) hholds⟩ hlabel (by rw [← hw]; rfl)
    exact (hlabel _).mpr (by rw [← hw]; rfl)

theorem Traced.numMerged_lt (h : Traced e canUDPGRO offset batch i entries) (hi : i < 2 ^ 16)
    (hmove : EntryMove e canUDPGRO offset i (bufferAt batch i) entries label entries') :
    label.numMerged + 1 < 2 ^ 16 := by
  cases hmove with
  | raw | tcpInsert | udpInsert => decide
  | @tcpMerge _ _ w target _ _ _ item =>
    obtain ⟨members, htraced⟩ := h.entry ⟨w, .tcp item, target⟩ (mem_replace.mpr (Or.inl rfl))
    exact htraced.holds.2.2.1 ▸ lt_of_le_of_lt htraced.length_le hi
  | @udpMerge _ _ w target _ _ item =>
    obtain ⟨members, htraced⟩ := h.entry ⟨w, .udp item, target⟩ (mem_replace.mpr (Or.inl rfl))
    exact htraced.holds.2.2.1 ▸ lt_of_le_of_lt htraced.length_le hi

end Step

/-! ## §5 Whole runs -/

section Run

variable {e : Endian} {canUDPGRO : Bool} {offset n : ℕ} {batch : List Buffer} {st : GroState}

theorem mergedInto_iff {i w : ℕ} (hi : i < batch.length)
    (hst : Reached e canUDPGRO offset batch i st) :
    MergedInto e canUDPGRO offset batch i w ↔
      (stepLabel e canUDPGRO offset i st).target = some w := by
  refine ⟨?_, fun h => ⟨hi, st, hst, h⟩⟩
  rintro ⟨-, st', hst', h⟩
  have hsame : st' = st := Except.ok.inj (hst'.symm.trans hst)
  rwa [hsame] at h

theorem NoDrop.mono {k : ℕ} (h : NoDrop e canUDPGRO offset batch n) (hk : k ≤ n) :
    NoDrop e canUDPGRO offset batch k :=
  fun i st hi => h i st (lt_of_lt_of_le hi hk)

/-- The entries after `k` iterations: every packet is traced into its buffer, and the headers of
packets that are written as they are have been set to zero, unless an item has been dropped. -/
structure HeadersAt (e : Endian) (canUDPGRO : Bool) (offset : ℕ) (batch : List Buffer) (k : ℕ)
    (entries : List Entry) : Prop where
  traced : Traced e canUDPGRO offset batch k entries
  zero : NoDrop e canUDPGRO offset batch k →
    ∀ x ∈ entries, x.held = .raw → x.buf.hdrBytes offset = VirtioNetHdr.zero.encode e
  stale : ¬NoDrop e canUDPGRO offset batch k → Stale batch entries

theorem Reached.traced (h : Reached e canUDPGRO offset batch n st) (hn : n ≤ batch.length)
    (hfits : FitItems e canUDPGRO offset batch n) :
    ∃ entries, Represents batch n st entries ∧ HeadersAt e canUDPGRO offset batch n entries := by
  -- on the iterations: items are dropped first, and then the packet is moved
  refine h.induction hfits.indices ?_ ?_
  · refine ⟨⟨fun _ hx => absurd hx not_mem_nil, fun _ _ hj => absurd hj (not_lt_zero _)⟩,
      fun _ _ hx => absurd hx not_mem_nil, fun hdrop => absurd ?_ hdrop⟩
    exact fun i _ hi => absurd hi (not_lt_zero i)
  · rintro i st entries entries' hi hst hrepresents ⟨htraced, hzero, hstale⟩ ⟨hlow, hhigh, entries₁,
      hdrops, hmove⟩
    obtain ⟨htraced₁, hleft⟩ := htraced.drops hdrops
    have hnodup : (entries₁.map Entry.index).Nodup := by
      rw [hdrops.map_index]
      exact hrepresents.sorted.imp ne_of_lt
    have hi' : i < batch.length := lt_of_lt_of_le hi hn
    refine ⟨htraced₁.move hnodup hlow (le_of_lt hhigh) (hfits.indices i st hi hst)
      (hfits.counts i st hi hst)
      (fun w => mergedInto_iff hi' hst) hmove, fun hno x hx hraw => ?_, fun hdrop => ?_⟩
    · have hnil := hno i st (lt_succ_self i) hst
      rw [hnil] at hdrops
      cases hdrops
      rcases (hmove.raw_iff hraw).mp hx with hold | ⟨-, rfl⟩
      · exact hzero (hno.mono (le_succ i)) x hold hraw
      · exact Buffer.hdrBytes_encodeHdr e hlow (le_of_lt hhigh) _
    · -- dropped in this iteration, or before
      have hstale₁ : Stale batch entries₁ := by
        by_cases hnil : stepDeleted e canUDPGRO offset i st = []
        · have hbefore : ¬NoDrop e canUDPGRO offset batch i := by
            intro hno
            refine hdrop fun j st' hj hst' => ?_
            rcases Nat.lt_succ_iff_lt_or_eq.mp hj with hj | rfl
            · exact hno j st' hj hst'
            · rw [show st' = st from Except.ok.inj (hst'.symm.trans hst)]
              exact hnil
          obtain ⟨x, hx, hraw, hbuf⟩ := hstale hbefore
          exact ⟨x, hdrops.mem_of_raw hx hraw, hraw, hbuf⟩
        · exact hleft hnil
      obtain ⟨x, hx, hraw, hbuf⟩ := hstale₁
      exact ⟨x, (hmove.raw_iff hraw).mpr (Or.inl hx), hraw, hbuf⟩

/-- With at most 65536 packets the indices and the numbers have 16 bits. -/
theorem Reached.fitItems (h : Reached e canUDPGRO offset batch n st) (hn : n ≤ batch.length)
    (hlen : n ≤ 2 ^ 16) :
    FitItems e canUDPGRO offset batch n := by
  refine ⟨fitIndices_of_length hlen, ?_⟩
  induction n generalizing st with
  | zero => exact fun i _ hi => absurd hi (not_lt_zero i)
  | succ n ih =>
    obtain ⟨st₀, hst₀, hok⟩ := Reached.succ_iff.mp h
    have hcounts := ih hst₀ (le_of_succ_le hn) (le_of_succ_le hlen)
    intro i st hi hst
    rcases Nat.lt_succ_iff_lt_or_eq.mp hi with hi | rfl
    · exact hcounts i st hi hst
    · cases Except.ok.inj (hst.symm.trans hst₀)
      -- the packets before are traced, and the iteration merges into one of their buffers
      obtain ⟨entries, hrepresents, hheaders⟩ :=
        hst₀.traced (le_of_succ_le hn) ⟨fitIndices_of_length (le_of_succ_le hlen), hcounts⟩
      obtain ⟨entries', ⟨-, -, entries₁, hdrops, hmove⟩, -⟩ := hrepresents.step hok fun _ => hlen
      exact (hheaders.traced.drops hdrops).1.numMerged_lt hlen hmove

theorem Represents.held_eq {batch' : List Buffer} {k k' : ℕ} {st' : GroState}
    {entries entries' : List Entry} (h : Represents batch k st entries)
    (h' : Represents batch' k' st' entries')
    (htcp : st'.tcpTable = st.tcpTable) (hudp : st'.udpTable = st.udpTable) {x y : Entry}
    (hx : x ∈ entries) (hy : y ∈ entries') (hindex : x.index = y.index) : y.held = x.held := by
  have htcp' : ∀ item, x.held = .tcp item ↔ y.held = .tcp item := by
    intro item
    rw [h.held_tcp_iff hx, h'.held_tcp_iff hy, htcp, hindex]
  have hudp' : ∀ item, x.held = .udp item ↔ y.held = .udp item := by
    intro item
    rw [h.held_udp_iff hx, h'.held_udp_iff hy, hudp, hindex]
  cases hheld : x.held with
  | tcp item => exact (htcp' item).mp hheld
  | udp item => exact (hudp' item).mp hheld
  | raw =>
    simp only [hheld, reduceCtorEq, false_iff] at htcp' hudp'
    cases hheld' : y.held with
    | raw => rfl
    | tcp item => exact absurd hheld' (htcp' item)
    | udp item => exact absurd hheld' (hudp' item)

end Run

/-! ## §6 What is written -/

section Written

variable {e : Endian} {canUDPGRO : Bool} {offset k : ℕ} {batch : List Buffer} {members : List ℕ}
  {entry : Entry}

/-- The header in front of a written packet, by the item of its entry. -/
theorem Entry.accounted_hdrBytes (hlow : virtioNetHdrLen ≤ offset)
    (hoffset : offset ≤ entry.buf.bytes.length) :
    (entry.accounted e offset).hdrBytes offset =
      match entry.held with
      | .raw => entry.buf.hdrBytes offset
      | .tcp item => (tcpItemHdr item).encode e
      | .udp item => (udpItemHdr item).encode e := by
  unfold Entry.accounted
  cases entry.held with
  | raw => rfl
  | tcp item => exact (tcpAccount_spec hlow hoffset item).hdrBytes
  | udp item => exact (udpAccount_spec hlow hoffset item).hdrBytes

theorem numMerged_pos {a : BitVec 16} (h : a ≠ 0) : a > 0 := by
  have hne : a.toNat ≠ 0 := fun h0 => h (eq_of_toNat_eq h0)
  exact lt_def.mpr (pos_of_ne_zero hne)

/-- A TCP header has less than 256 bytes, an IP header of a candidate at most 40. -/
theorem toNat_hdrLen (isV6 : Bool) (tcphLen : ℕ) (h : tcphLen < 2 ^ 8) :
    (BitVec.ofNat 16 (candidateHeaderLen isV6 + tcphLen)).toNat =
      candidateHeaderLen isV6 + tcphLen := by
  have hle : candidateHeaderLen isV6 ≤ 40 := by cases isV6 <;> decide
  exact toNat_ofNat16 (by omega)

theorem TcpHeader.mergeHdr {item : TcpGROItem} {b : Buffer} (h : TcpHeader offset item b)
    (hlow : virtioNetHdrLen ≤ offset) (hmerged : item.numMerged ≠ 0)
    (hcomposed : Composed offset batch (item.iphLen + item.tcphLen) item.gsoSize.toNat members
      ((b.pkt offset).drop (item.iphLen + item.tcphLen))) :
    TcpMergeHdr offset batch members ((tcpAccount e offset item b).pkt offset) (tcpItemHdr item)
      item.key.isV6 item.iphLen item.tcphLen := by
  obtain ⟨hlayout, -, hpayload⟩ := h.accounted e hlow
  have hlen : item.tcphLen < 2 ^ 8 := by
    rw [← h.layout.headerLen]
    exact isLt _
  have hiph := toNat_hdrLen item.key.isV6 0 (by decide)
  have hhdr := toNat_hdrLen item.key.isV6 _ hlen
  rw [← h.iphLen] at hiph hhdr
  rw [tcpItemHdr, if_pos (numMerged_pos hmerged)]
  exact ⟨hlayout, by rw [hpayload]; exact hcomposed, rfl, rfl, hhdr, hiph, rfl⟩

theorem UdpEntry.mergeHdr {item : UdpGROItem} {b : Buffer} (h : UdpEntry offset item b)
    (hlow : virtioNetHdrLen ≤ offset) (hmerged : item.numMerged ≠ 0)
    (hcomposed : Composed offset batch (item.iphLen + udphLen) item.gsoSize.toNat members
      ((b.pkt offset).drop (item.iphLen + udphLen))) :
    UdpMergeHdr offset batch members ((udpAccount e offset item b).pkt offset) (udpItemHdr item)
      item.key.isV6 item.iphLen := by
  obtain ⟨htransport, -, hpayload⟩ := h.accounted e hlow
  have hiph := toNat_hdrLen item.key.isV6 0 (by decide)
  have hhdr := toNat_hdrLen item.key.isV6 udphLen (by decide)
  rw [← h.iphLen] at hiph hhdr
  rw [udpItemHdr, if_pos (numMerged_pos hmerged)]
  exact ⟨htransport, by rw [hpayload]; exact hcomposed, rfl, rfl, hhdr, hiph, rfl⟩

theorem Entry.Traced.fresh (h : entry.Traced e canUDPGRO offset batch batch.length members)
    (hlow : virtioNetHdrLen ≤ offset)
    (hself : ¬MergedInto e canUDPGRO offset batch entry.index entry.index)
    (hzero : entry.held = .raw → entry.buf.hdrBytes offset = VirtioNetHdr.zero.encode e)
    {st : GroState} (hbuf : st.bufs entry.index = entry.accounted e offset) :
    FreshHeader e canUDPGRO offset batch st entry.index := by
  have hmem : ∀ j, j ∈ members ↔ j = entry.index ∨
      MergedInto e canUDPGRO offset batch j entry.index := by
    intro j
    rw [h.mem j]
    exact or_congr_right ⟨And.right, fun hinto => ⟨hinto.1, hinto⟩⟩
  -- nothing is merged into a buffer with one packet
  have hnot : members.length = 1 → ∀ j, ¬MergedInto e canUDPGRO offset batch j entry.index := by
    intro hone j hinto
    have hj : j ∈ members := (hmem j).mpr (Or.inr hinto)
    rw [h.of_length_one hone, mem_singleton] at hj
    exact hself (hj ▸ hinto)
  -- a packet of its own, or a merge
  have hitem : ∀ {a : BitVec 16} {hdr : VirtioNetHdr}, members.length = a.toNat + 1 →
      (entry.accounted e offset).hdrBytes offset = hdr.encode e →
      (a = 0 → hdr = .zero ∧ (entry.accounted e offset).pkt offset =
        (bufferAt batch entry.index).pkt offset) →
      (a ≠ 0 → DescribesMerge offset batch members ((entry.accounted e offset).pkt offset) hdr) →
      FreshHeader e canUDPGRO offset batch st entry.index := by
    intro a hdr hlength hhdr hzero hmerge
    rw [FreshHeader, hbuf]
    by_cases ha : a = 0
    · obtain ⟨rfl, hpkt⟩ := hzero ha
      refine Or.inl ⟨?_, hpkt, hnot (by simp [hlength, ha])⟩
      rw [hhdr, VirtioNetHdr.zero_encode]
    · have hpos : a.toNat ≠ 0 := fun h0 => ha (eq_of_toNat_eq h0)
      exact Or.inr ⟨hdr, members, hhdr, h.nodup, by omega, hmem, hmerge ha⟩
  have hhdr := Entry.accounted_hdrBytes (e := e) hlow h.offset_le
  have hholds := h.holds
  unfold Entry.Holds at hholds
  cases hheld : entry.held with
  | raw =>
    simp only [hheld] at hholds hhdr
    have hsame : entry.accounted e offset = entry.buf := by simp only [Entry.accounted, hheld]
    rw [FreshHeader, hbuf]
    refine Or.inl ⟨?_, ?_, hnot hholds.1⟩
    · rw [hhdr, hzero hheld, VirtioNetHdr.zero_encode]
    · rw [hsame, hholds.2]
  | tcp item =>
    simp only [hheld] at hholds hhdr
    obtain ⟨hheader, hcomposed, hlength, hbatch⟩ := hholds
    have haccounted : entry.accounted e offset = tcpAccount e offset item entry.buf := by
      simp only [Entry.accounted, hheld]
    refine hitem hlength hhdr (fun hnone => ?_) fun hmerged => ?_
    · simp [haccounted, tcpAccount, tcpItemHdr, hnone, Buffer.pkt_encodeHdr e hlow, hbatch hnone]
    · rw [haccounted]
      exact Or.inl ⟨_, _, _, hheader.mergeHdr hlow hmerged hcomposed⟩
  | udp item =>
    simp only [hheld] at hholds hhdr
    obtain ⟨hentry, hcomposed, hlength, hbatch⟩ := hholds
    have haccounted : entry.accounted e offset = udpAccount e offset item entry.buf := by
      simp only [Entry.accounted, hheld]
    refine hitem hlength hhdr (fun hnone => ?_) fun hmerged => ?_
    · simp [haccounted, udpAccount, udpItemHdr, hnone, Buffer.pkt_encodeHdr e hlow, hbatch hnone]
    · rw [haccounted]
      exact Or.inr ⟨_, _, hentry.mergeHdr hlow hmerged hcomposed⟩

theorem FreshHeader.flags {st : GroState} {w : ℕ} (h : FreshHeader e canUDPGRO offset batch st w) :
    byteAt ((st.bufs w).hdrBytes offset) 0 ≠ 0xff := by
  rcases h with ⟨hzero, -⟩ | ⟨hdr, members, hhdr, -, -, -, htcp | hudp⟩
  · rw [hzero]
    decide
  · obtain ⟨_, _, _, hmerge⟩ := htcp
    have hfirst : byteAt (hdr.encode e) 0 = hdr.flags := rfl
    rw [hhdr, hfirst, hmerge.flags]
    decide
  · obtain ⟨_, _, hmerge⟩ := hudp
    have hfirst : byteAt (hdr.encode e) 0 = hdr.flags := rfl
    rw [hhdr, hfirst, hmerge.flags]
    decide

end Written

section Batch

variable {e : Endian} {order : MapOrder} {canUDPGRO : Bool} {offset : ℕ} {batch : List Buffer}
  {previous : ℕ → Bytes}
variable {st : GroState} {entries : List Entry}

theorem length_withHeaders : (withHeaders offset batch previous).length = batch.length :=
  length_mapIdx

theorem bufferAt_withHeaders {w : ℕ} (hw : w < batch.length) :
    bufferAt (withHeaders offset batch previous) w =
      (bufferAt batch w).patch (offset - virtioNetHdrLen) (previous w) := by
  simp [bufferAt, withHeaders, List.getD_eq_getElem?_getD, List.getElem?_mapIdx,
    List.getElem?_eq_getElem hw]

theorem alike_withHeaders (hlow : batch ≠ [] → virtioNetHdrLen ≤ offset)
    (hprevious : ∀ k, (previous k).length = virtioNetHdrLen) (w : ℕ) :
    Alike offset (bufferAt batch w) (bufferAt (withHeaders offset batch previous) w) := by
  by_cases hw : w < batch.length
  · have hlow' := hlow (ne_nil_of_length_pos (lt_of_le_of_lt (zero_le w) hw))
    rw [bufferAt_withHeaders hw]
    exact Alike.patch_front _ (by rw [hprevious]; omega)
  · have hdefault : ∀ l : List Buffer, l.length = batch.length →
        bufferAt l w = { bytes := [], cap := 0, len_le := le_refl 0 } :=
      fun l hl => getD_eq_default _ _ (by omega)
    rw [hdefault _ rfl, hdefault _ length_withHeaders]
    exact Alike.refl _

theorem handleGRO_of_reached (order : MapOrder)
    (h : Reached e canUDPGRO offset batch batch.length st) :
    handleGRO e order canUDPGRO offset batch =
      .ok { st with bufs := accountedBufs e order offset st } := by
  have hloop : groLoop e canUDPGRO offset 0 batch.length (groInit batch) = .ok st := h
  unfold handleGRO
  rw [hloop]
  rfl

theorem HeadersAt.header (order : MapOrder) {n : ℕ}
    (h : HeadersAt e canUDPGRO offset batch n entries) (hrepresents : Represents batch n st entries)
    (hno : NoDrop e canUDPGRO offset batch n) (hlow : virtioNetHdrLen ≤ offset) {x : Entry}
    (hx : x ∈ entries) :
    (accountedBufs e order offset st x.index).hdrBytes offset =
      match x.held with
      | .raw => VirtioNetHdr.zero.encode e
      | .tcp item => (tcpItemHdr item).encode e
      | .udp item => (udpItemHdr item).encode e := by
  obtain ⟨members, htraced⟩ := h.traced.entry x hx
  rw [hrepresents.accounted hx, Entry.accounted_hdrBytes hlow htraced.offset_le]
  cases hheld : x.held with
  | raw => exact h.zero hno x hx hheld
  | tcp item => rfl
  | udp item => rfl

theorem HeadersAt.fresh (order : MapOrder)
    (h : HeadersAt e canUDPGRO offset batch batch.length entries)
    (hrepresents : Represents batch batch.length st entries)
    (hno : NoDrop e canUDPGRO offset batch batch.length) (hlow : virtioNetHdrLen ≤ offset)
    {x : Entry} (hx : x ∈ entries) :
    FreshHeader e canUDPGRO offset batch
      { st with bufs := accountedBufs e order offset st } x.index := by
  obtain ⟨members, htraced⟩ := h.traced.entry x hx
  refine htraced.fresh hlow (fun hself => ?_) (h.zero hno x hx) (hrepresents.accounted hx)
  exact lt_irrefl _ (h.traced.target _ _ htraced.below hself).1

/-- A dropped packet is written behind the bytes that stood there before. -/
theorem Stale.hdrBytes (order : MapOrder) {n : ℕ}
    (hstale : Stale (withHeaders offset batch previous) entries) (hn : n ≤ batch.length)
    (hprevious : ∀ k, (previous k).length = virtioNetHdrLen)
    (hrepresents : Represents (withHeaders offset batch previous) n st entries)
    (h : HeadersAt e canUDPGRO offset (withHeaders offset batch previous) n entries)
    (hlow : virtioNetHdrLen ≤ offset) :
    ∃ w ∈ st.toWrite, (accountedBufs e order offset st w).hdrBytes offset = previous w := by
  obtain ⟨x, hx, hraw, hbuf⟩ := hstale
  obtain ⟨members, htraced⟩ := h.traced.entry x hx
  have hoffset := htraced.offset_le
  have hsame : x.accounted e offset = x.buf := by simp only [Entry.accounted, hraw]
  refine ⟨x.index, ?_, ?_⟩
  · rw [hrepresents.toWrite]
    exact mem_map_of_mem hx
  · rw [hrepresents.accounted hx, hsame, hbuf]
    rw [hbuf] at hoffset
    rw [bufferAt_withHeaders (lt_of_lt_of_le (hrepresents.below x hx) hn)] at hoffset ⊢
    have hfit : offset - virtioNetHdrLen + (previous x.index).length ≤
        (bufferAt batch x.index).bytes.length := by
      rw [Buffer.patch, patch_length] at hoffset
      rw [hprevious]
      omega
    have hfield := field_patch_same hfit
    rwa [hprevious] at hfield

/-- The run on the same packets with other bytes in front of them. -/
theorem Reached.withHeaders (h : Reached e canUDPGRO offset batch batch.length st)
    (hfits : FitItems e canUDPGRO offset batch batch.length)
    (hprevious : ∀ k, (previous k).length = virtioNetHdrLen) :
    ∃ st₁ entries, SameRun offset st st₁ ∧
      Reached e canUDPGRO offset (withHeaders offset batch previous)
        (withHeaders offset batch previous).length st₁ ∧
      Represents (withHeaders offset batch previous) (withHeaders offset batch previous).length st₁
        entries ∧
      HeadersAt e canUDPGRO offset (withHeaders offset batch previous)
        (withHeaders offset batch previous).length entries := by
  have hlow : batch ≠ [] → virtioNetHdrLen ≤ offset :=
    fun hne => h.offset_le (length_pos_of_ne_nil hne)
  obtain ⟨st₁, hreached, hsame⟩ := h.sameRun (alike_withHeaders hlow hprevious)
  have hlen : (Tun.withHeaders offset batch previous).length = batch.length := length_withHeaders
  have hfits₁ := hfits.sameRun fun w => (alike_withHeaders hlow hprevious w).symm
  rw [← hlen] at hreached hfits₁
  obtain ⟨entries, hrepresents, hheaders⟩ := hreached.traced (le_refl _) hfits₁
  exact ⟨st₁, entries, hsame, hreached, hrepresents, hheaders⟩

/-- **The headers of all packets that are written are fresh** if and only if no packet can be
coalesced with an item that has an invalid checksum. -/
theorem handleGRO_fresh_iff {st : GroState} (h : handleGRO e order canUDPGRO offset batch = .ok st)
    (hfits : FitItems e canUDPGRO offset batch batch.length) :
    FreshHeaders e canUDPGRO offset batch order ↔
    NoInvalidItem e canUDPGRO offset batch batch.length := by
  obtain ⟨st₀, hreached, -, hbufs⟩ := handleGRO_ok h
  have hlow : batch ≠ [] → virtioNetHdrLen ≤ offset :=
    fun hne => hreached.offset_le (length_pos_of_ne_nil hne)
  rw [noInvalidItem_iff]
  constructor
  · -- bytes that are no header would stay in front of a dropped packet
    rintro ⟨written, hfresh⟩
    by_contra hdrop
    have hne : batch ≠ [] := by
      rintro rfl
      exact hdrop fun i _ hi => absurd hi (not_lt_zero i)
    have hprevious : ∀ k : ℕ, ((fun _ => replicate virtioNetHdrLen 0xff : ℕ → Bytes) k).length =
        virtioNetHdrLen := fun _ => length_replicate
    obtain ⟨st₁, entries, hsame, hreached₁, hrepresents, hheaders⟩ :=
      hreached.withHeaders hfits hprevious
    obtain ⟨st', hok, -, hall⟩ := hfresh _ hprevious
    rw [handleGRO_of_reached order hreached₁] at hok
    cases hok
    have hstale := hheaders.stale fun hno => hdrop (by
      rw [length_withHeaders] at hno
      exact hno.sameRun (alike_withHeaders hlow hprevious))
    obtain ⟨w, hw, hhdr⟩ :=
      hstale.hdrBytes order (le_of_eq length_withHeaders) hprevious hrepresents
      hheaders (hlow hne)
    have hflags := (hall w hw).2.flags
    exact hflags (by rw [hhdr]; rfl)
  · -- the bytes of this run are written whatever stood in front of the packets
    intro hno
    obtain ⟨entries, hrepresents, hheaders⟩ := hreached.traced (le_refl _) hfits
    refine ⟨fun w => (st.bufs w).hdrBytes offset, fun previous hprevious => ?_⟩
    obtain ⟨st₁, entries₁, hsame, hreached₁, hrepresents₁, hheaders₁⟩ :=
      hreached.withHeaders hfits hprevious
    have hno₁ : NoDrop e canUDPGRO offset (withHeaders offset batch previous)
        (withHeaders offset batch previous).length := by
      rw [length_withHeaders]
      exact hno.sameRun fun w => (alike_withHeaders hlow hprevious w).symm
    refine ⟨_, handleGRO_of_reached order hreached₁, ?_, fun w hw => ?_⟩
    · show st₁.toWrite.Nodup
      rw [hrepresents₁.toWrite]
      exact hrepresents₁.sorted.imp ne_of_lt
    · -- the entries of the two runs with this index
      have hw₁ : w ∈ st₁.toWrite := hw
      have hw₀ : w ∈ st₀.toWrite := hsame.toWrite ▸ hw₁
      rw [hrepresents₁.toWrite] at hw₁
      rw [hrepresents.toWrite] at hw₀
      obtain ⟨y, hy, rfl⟩ := mem_map.mp hw₁
      obtain ⟨x, hx, hxy⟩ := mem_map.mp hw₀
      have hlow' : virtioNetHdrLen ≤ offset := hlow (by
        rintro rfl
        exact absurd (hrepresents.below x hx) (not_lt_zero _))
      have hheld := hrepresents.held_eq hrepresents₁ hsame.tcpTable hsame.udpTable hx hy hxy
      have hhdr := hheaders.header order hrepresents hno hlow' hx
      have hhdr₁ := hheaders₁.header order hrepresents₁ hno₁ hlow' hy
      refine ⟨?_, hheaders₁.fresh order hrepresents₁ hno₁ hlow' hy⟩
      rw [hheld] at hhdr₁
      rw [hxy] at hhdr
      refine (hhdr₁.trans hhdr.symm).trans ?_
      rw [hbufs]

end Batch

/-! ## §7 Two batches -/

/-- In their order two valid segments are merged, behind a fresh header. -/
theorem handleGRO_fresh_pushedLast : FreshHeaders .little true 10 pushedLast insertionOrder := by
  have horder : ∀ i < 2, InOrder pushedLast i = true := by decide +kernel
  have hno : NoInvalidItem .little true 10 pushedLast pushedLast.length :=
    noInvalidItem_iff.mpr fun i st hi hst => (InOrder.of_reached (horder i hi) hst).1
  have hok : (handleGRO .little insertionOrder true 10 pushedLast).toOption.isSome = true := by
    decide +kernel
  cases hst : handleGRO .little insertionOrder true 10 pushedLast with
  | error err => rw [hst] at hok; cases hok
  | ok st =>
    obtain ⟨st₀, hreached, -⟩ := handleGRO_ok hst
    exact (handleGRO_fresh_iff hst (hreached.fitItems (le_refl _) (by decide))).mpr hno

/-- A segment with an invalid checksum, and the one that follows it. -/
def invalidFirst : List Buffer :=
  [packetBuffer (tcpPacket 100 16 [0, 0] 65), packetBuffer (tcpPacket 101 24 [89, 88] 66)]

/-- What stands in front of the packets before the batch. -/
def oldBytes : ℕ → Bytes := fun _ => List.replicate virtioNetHdrLen 0xff

/-- The indices to write, and the bytes in front of the first packet. -/
def writtenFirst (batch : List Buffer) : Option (List ℕ × Bytes) :=
  match handleGRO .little insertionOrder true 10 batch with
  | .ok st => some (st.toWrite, (st.bufs 0).hdrBytes 10)
  | .error _ => none

/-- The second packet finds the first one invalid, which is then written behind the old bytes. -/
theorem stale_header_written :
    writtenFirst (withHeaders 10 invalidFirst oldBytes) =
      some ([0, 1], List.replicate virtioNetHdrLen 0xff) ∧
      ¬FreshHeaders .little true 10 invalidFirst insertionOrder := by
  have hrun : writtenFirst (withHeaders 10 invalidFirst oldBytes) =
      some ([0, 1], List.replicate virtioNetHdrLen 0xff) := by decide +kernel
  refine ⟨hrun, ?_⟩
  rintro ⟨written, hfresh⟩
  obtain ⟨st, hok, -, hall⟩ := hfresh oldBytes fun _ => length_replicate
  simp only [writtenFirst, hok, Option.some.injEq, Prod.mk.injEq] at hrun
  have hflags := (hall 0 (by rw [hrun.1]; decide)).2.flags
  exact hflags (by rw [hrun.2]; rfl)

end AmneziaWG.Tun
