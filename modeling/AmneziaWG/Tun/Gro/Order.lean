import AmneziaWG.Tun.Gro.Merging

/-!
# The Order of Datagrams

A datagram that can be merged is put behind the last item of its flow.  A datagram that cannot be
merged is written at its own place, also when the flow has an item in front of it, to which later
datagrams are then added.

## Main results

- `handleGRO_ordered`: the datagrams of every flow keep their order when no datagram is merged over
  one of its flow that is written as it is, and with different payloads only then.
-/

namespace AmneziaWG.Tun

open AmneziaWG.Lib List Option Nat

/-! ## §1 Reading datagrams -/

/-- The datagrams in a written buffer: one, or those that its virtio header cuts the payload
into. -/
def readDatagrams (e : Endian) (offset : ℕ) (b : Buffer) : List (UdpFlowKey × Bytes) :=
  match udpDatagram (b.pkt offset), VirtioNetHdr.decode e (b.hdrBytes offset) with
  | some (key, payload), some hdr =>
    if hdr.gsoType = gsoNone then [(key, payload)]
    else (chunks hdr.gsoSize.toNat payload).map fun c => (key, c)
  | _, _ => []

/-- The datagrams in the buffers to write, in their order. -/
def writtenDatagrams (e : Endian) (offset : ℕ) (st : GroState) : List (UdpFlowKey × Bytes) :=
  st.toWrite.flatMap fun w => readDatagrams e offset (st.bufs w)

def batchDatagrams (offset : ℕ) (batch : List Buffer) : List (UdpFlowKey × Bytes) :=
  batch.filterMap fun b => udpDatagram (b.pkt offset)

def flowPayloads (key : UdpFlowKey) (datagrams : List (UdpFlowKey × Bytes)) : List Bytes :=
  (datagrams.filter fun d => d.1 = key).map Prod.snd

/-- The payloads of every flow are written in the order of the batch. -/
def UdpOrdered (e : Endian) (offset : ℕ) (batch : List Buffer) (st : GroState) : Prop :=
  ∀ key, flowPayloads key (writtenDatagrams e offset st) =
    flowPayloads key (batchDatagrams offset batch)

/-- A packet that `udpGRO` looks up in its table. -/
def GroDatagram (canUDPGRO : Bool) (pkt : Bytes) : Prop :=
  ∃ isV6 m, packetIsGROCandidate pkt canUDPGRO = .udp isV6 ∧ udpMeta pkt isV6 = some m

section Condition

variable (e : Endian) (canUDPGRO : Bool) (offset : ℕ) (batch : List Buffer) (n : ℕ)

/-- No datagram is merged over one of its flow that is written as it is. -/
def NoOvertaking : Prop :=
  ∀ i st item, i < n → Reached e canUDPGRO offset batch i st →
    stepLabel e canUDPGRO offset i st = .udpMerge item →
    ∀ j payload, item.bufsIndex.toNat < j → j < i →
      udpDatagram ((bufferAt batch j).pkt offset) = some (item.key, payload) →
      GroDatagram canUDPGRO ((bufferAt batch j).pkt offset)

/-- The number of datagrams that are merged into one buffer has 16 bits. -/
def FitCounts : Prop :=
  ∀ i st item, i < n → Reached e canUDPGRO offset batch i st →
    stepLabel e canUDPGRO offset i st = .udpMerge item → item.numMerged.toNat + 1 < 2 ^ 16

end Condition

section Payloads

variable {key : UdpFlowKey}

theorem flowPayloads_append (a b : List (UdpFlowKey × Bytes)) :
    flowPayloads key (a ++ b) = flowPayloads key a ++ flowPayloads key b := by
  simp [flowPayloads]

theorem flowPayloads_eq_nil {l : List (UdpFlowKey × Bytes)} (h : ∀ d ∈ l, d.1 ≠ key) :
    flowPayloads key l = [] := by
  rw [flowPayloads, map_eq_nil_iff, filter_eq_nil_iff]
  intro d hd
  simpa using h d hd

theorem flowPayloads_sublist (key : UdpFlowKey) {a b : List (UdpFlowKey × Bytes)}
    (h : a.Sublist b) :
    (flowPayloads key a).Sublist (flowPayloads key b) :=
  (h.filter _).map _

theorem not_both_orders {α : Type} {l : List α} (h : l.Nodup) {x y : α} (hxy : [x, y].Sublist l)
    (hyx : [y, x].Sublist l) : False := by
  induction l with
  | nil => cases hxy
  | cons z l ih =>
    rw [nodup_cons] at h
    rcases sublist_cons_iff.mp hxy with hxy' | ⟨r, hr, hxy'⟩
    · rcases sublist_cons_iff.mp hyx with hyx' | ⟨r', hr', hyx'⟩
      · exact ih h.2 hxy' hyx'
      · cases hr'
        exact h.1 (hxy'.subset (by simp))
    · cases hr
      rcases sublist_cons_iff.mp hyx with hyx' | ⟨r', hr', hyx'⟩
      · exact h.1 (hyx'.subset (by simp))
      · cases hr'
        exact h.1 (hxy'.subset (by simp))

end Payloads

/-! ## §2 The datagrams of an entry -/

def Entry.datagrams (offset : ℕ) (entry : Entry) : List (UdpFlowKey × Bytes) :=
  match entry.held with
  | .udp item =>
    (chunks item.gsoSize.toNat ((entry.buf.pkt offset).drop (item.iphLen + udphLen))).map fun c =>
      (item.key, c)
  | _ => (udpDatagram (entry.buf.pkt offset)).toList

def entryDatagrams (offset : ℕ) (entries : List Entry) : List (UdpFlowKey × Bytes) :=
  entries.flatMap (Entry.datagrams offset)

/-- A buffer that is written as it is: no datagram, or one that cannot be merged, with a header that
says so. -/
structure RawDatagram (canUDPGRO : Bool) (offset : ℕ) (batch : List Buffer) (w : ℕ) (b : Buffer) :
    Prop where
  pkt : b.pkt offset = (bufferAt batch w).pkt offset
  hdr : b.hdrBytes offset = VirtioNetHdr.zero.encode .little
  notGRO : ¬GroDatagram canUDPGRO (b.pkt offset)

/-- The item of an entry describes its buffer, as far as datagrams are concerned. -/
def Entry.Udp (canUDPGRO : Bool) (offset : ℕ) (batch : List Buffer) (entry : Entry) : Prop :=
  match entry.held with
  | .raw => offset ≤ entry.buf.bytes.length ∧
      (udpDatagram (entry.buf.pkt offset) = none ∨
        RawDatagram canUDPGRO offset batch entry.index entry.buf)
  | .tcp item => TcpHeader offset item entry.buf
  | .udp item => UdpEntry offset item entry.buf

section Read

variable {e : Endian} {canUDPGRO : Bool} {offset : ℕ} {batch : List Buffer} {entry : Entry}

theorem Entry.Udp.read (h : entry.Udp canUDPGRO offset batch) (hlow : virtioNetHdrLen ≤ offset) :
    readDatagrams e offset (entry.accounted e offset) = entry.datagrams offset := by
  unfold Entry.Udp at h
  unfold Entry.accounted Entry.datagrams
  cases hheld : entry.held with
  | raw =>
    rw [hheld] at h
    obtain ⟨-, hnone | hraw⟩ := h
    · simp only [readDatagrams, hnone, toList_none]
    · -- the zero header says NONE, and the packet is read whole
      have hdecode : VirtioNetHdr.decode e (entry.buf.hdrBytes offset) =
          some VirtioNetHdr.zero := by
        rw [hraw.hdr, VirtioNetHdr.zero_encode, ← VirtioNetHdr.zero_encode e,
          VirtioNetHdr.decode_encode]
      simp only [readDatagrams, hdecode]
      cases udpDatagram (entry.buf.pkt offset) <;> rfl
  | tcp item =>
    rw [hheld] at h
    have hlayout := (h.accounted e hlow).1
    simp only [readDatagrams, udpDatagram_of_tcp hlayout.transport,
      udpDatagram_of_tcp h.layout.transport, toList_none]
  | udp item =>
    rw [hheld] at h
    obtain ⟨htransport, hkey, hpayload⟩ := h.accounted e hlow
    have hdecode : VirtioNetHdr.decode e ((udpAccount e offset item entry.buf).hdrBytes offset) =
        some (udpItemHdr item) := by
      rw [(udpAccount_spec hlow h.offset_le item).hdrBytes, VirtioNetHdr.decode_encode]
    simp only [readDatagrams, udpDatagram_eq htransport, hdecode, hkey, hpayload, udpItemHdr]
    by_cases hmerged : item.numMerged > 0
    · simp only [hmerged, if_true]
      rfl
    · -- nothing has been merged, and the payload is the only one
      simp only [hmerged, if_false, h.merged.chunks_of_fresh hmerged]
      rfl

end Read

/-! ## §3 One iteration -/

/-- Every entry describes its buffer, and every datagram before `i` that cannot be merged has an
entry of its own. -/
structure UdpInv (canUDPGRO : Bool) (offset : ℕ) (batch : List Buffer) (i : ℕ)
    (entries : List Entry) : Prop where
  entry : ∀ x ∈ entries, x.Udp canUDPGRO offset batch
  raw : ∀ j d, j < i → udpDatagram ((bufferAt batch j).pkt offset) = some d →
    ¬GroDatagram canUDPGRO ((bufferAt batch j).pkt offset) →
    ∃ x ∈ entries, x.index = j ∧ x.held = .raw ∧ x.datagrams offset = [d]

section Step

variable {e : Endian} {canUDPGRO : Bool} {offset i : ℕ} {batch : List Buffer}
  {entries entries' before behind : List Entry} {entry : Entry}

theorem entryDatagrams_append (a b : List Entry) :
    entryDatagrams offset (a ++ b) = entryDatagrams offset a ++ entryDatagrams offset b :=
  flatMap_append

theorem entryDatagrams_cons (x : Entry) (a : List Entry) :
    entryDatagrams offset (x :: a) = x.datagrams offset ++ entryDatagrams offset a :=
  flatMap_cons

theorem TcpHeader.no_datagram {item : TcpGROItem} {b : Buffer} (h : TcpHeader offset item b) :
    udpDatagram (b.pkt offset) = none :=
  udpDatagram_of_tcp h.layout.transport

theorem Entry.Udp.datagrams_tcp {w : ℕ} {item : TcpGROItem} {b : Buffer}
    (h : (⟨w, .tcp item, b⟩ : Entry).Udp canUDPGRO offset batch) :
    (⟨w, .tcp item, b⟩ : Entry).datagrams offset = [] := by
  have hheader : TcpHeader offset item b := h
  simp only [Entry.datagrams, hheader.no_datagram, toList_none]

theorem UdpInv.replace {entry' : Entry}
    (h : UdpInv canUDPGRO offset batch i (before ++ entry :: behind))
    (hentry : entry'.Udp canUDPGRO offset batch) (hheld : entry.held ≠ .raw) :
    UdpInv canUDPGRO offset batch i (before ++ entry' :: behind) := by
  refine ⟨forall_replace h.entry hentry, fun j d hj hd hnot => exists_replace
    (h.raw j d hj hd hnot) ?_⟩
  exact fun hraw => absurd hraw.2.1 hheld

/-- Dropped items are items of TCP, so that no datagram is concerned. -/
theorem UdpInv.drops {deleted : List TcpGROItem} (h : UdpInv canUDPGRO offset batch i entries)
    (hdrops : EntryDrops entries deleted entries') : UdpInv canUDPGRO offset batch i entries' ∧
      entryDatagrams offset entries' = entryDatagrams offset entries := by
  induction hdrops with
  | nil => exact ⟨h, rfl⟩
  | @cons before behind entries' w item buf deleted _ _ _ ih =>
    have hudp := h.entry ⟨w, .tcp item, buf⟩ (mem_replace.mpr (Or.inl rfl))
    have hheader : TcpHeader offset item buf := hudp
    have hraw : (⟨w, .raw, buf⟩ : Entry).Udp canUDPGRO offset batch :=
      ⟨hheader.offset_le, Or.inl hheader.no_datagram⟩
    obtain ⟨hinv, hsame⟩ := ih (h.replace hraw Held.noConfusion)
    refine ⟨hinv, hsame.trans ?_⟩
    rw [entryDatagrams_append, entryDatagrams_cons, entryDatagrams_append, entryDatagrams_cons,
      hudp.datagrams_tcp]
    simp only [Entry.datagrams, hheader.no_datagram, toList_none]

theorem UdpInv.push (h : UdpInv canUDPGRO offset batch i entries)
    (hentry : entry.Udp canUDPGRO offset batch)
    (hnew : ∀ d, udpDatagram ((bufferAt batch i).pkt offset) = some d →
      ¬GroDatagram canUDPGRO ((bufferAt batch i).pkt offset) →
      entry.index = i ∧ entry.held = .raw ∧ entry.datagrams offset = [d]) :
    UdpInv canUDPGRO offset batch (i + 1) (entries ++ [entry]) := by
  refine ⟨forall_push h.entry hentry, fun j d hj hd hnot => ?_⟩
  rcases Nat.lt_succ_iff_lt_or_eq.mp hj with hj | rfl
  · exact exists_push (h.raw j d hj hd hnot)
  · exact ⟨entry, mem_append_right _ (mem_singleton_self _), hnew d hd hnot⟩

/-- A packet that is merged or that has no datagram needs no entry. -/
theorem UdpInv.next (h : UdpInv canUDPGRO offset batch i entries)
    (hgro : GroDatagram canUDPGRO ((bufferAt batch i).pkt offset) ∨
      udpDatagram ((bufferAt batch i).pkt offset) = none) :
    UdpInv canUDPGRO offset batch (i + 1) entries := by
  refine ⟨h.entry, fun j d hj hd hnot => ?_⟩
  rcases Nat.lt_succ_iff_lt_or_eq.mp hj with hj | rfl
  · exact h.raw j d hj hd hnot
  · rcases hgro with hgro | hnone
    · exact absurd hgro hnot
    · rw [hnone] at hd
      cases hd

theorem GroDatagram.label_ne {st : GroState} (h : GroDatagram canUDPGRO ((st.bufs i).pkt offset)) :
    stepLabel e canUDPGRO offset i st ≠ .raw := by
  obtain ⟨isV6, m, hcandidate, hmeta⟩ := h
  simp only [stepLabel, hcandidate, hmeta]
  split
  · exact MoveLabel.noConfusion
  · split_ifs
    · exact MoveLabel.noConfusion
    · exact MoveLabel.noConfusion

theorem UdpReads.datagram {isV6 : Bool} {m : UdpMeta} {pkt : Bytes} (h : UdpReads isV6 m pkt) :
    udpDatagram pkt = some (newUDPFlowKey pkt isV6 m.iphLen, pkt.drop (m.iphLen + udphLen)) :=
  udpDatagram_eq h.transport

/-- Where the datagram of the packet at `i` is put among the others. -/
structure Placed (offset i : ℕ) (batch : List Buffer) (entries entries' : List Entry)
    (front back : List (UdpFlowKey × Bytes)) : Prop where
  old : entryDatagrams offset entries = front ++ back
  new : entryDatagrams offset entries' =
    front ++ ((udpDatagram ((bufferAt batch i).pkt offset)).toList ++ back)

/-- The datagram of the packet at `i` is put behind the others, or behind those of the item that it
is merged into. -/
def Moves (canUDPGRO : Bool) (offset i : ℕ) (batch : List Buffer) (label : MoveLabel)
    (entries entries' : List Entry) : Prop :=
  UdpInv canUDPGRO offset batch (i + 1) entries' ∧
    ∃ front back, Placed offset i batch entries entries' front back ∧
      ((∀ item, label ≠ .udpMerge item) → back = []) ∧
      ∀ item, label = .udpMerge item → ∃ before entry behind, entries = before ++ entry :: behind ∧
        entry.index = item.bufsIndex.toNat ∧
        (∀ x ∈ behind, x.held.udpOf item.key = none) ∧ back = entryDatagrams offset behind ∧
        ∃ payload, udpDatagram ((bufferAt batch i).pkt offset) = some (item.key, payload)

theorem UdpInv.moves_behind {label : MoveLabel} (h : UdpInv canUDPGRO offset batch (i + 1) entries')
    (hlabel : ∀ item, label ≠ .udpMerge item) (hnew : entryDatagrams offset entries' =
      entryDatagrams offset entries ++ (udpDatagram ((bufferAt batch i).pkt offset)).toList) :
    Moves canUDPGRO offset i batch label entries entries' :=
  ⟨h, entryDatagrams offset entries, [], ⟨by simp, by simp [hnew]⟩, fun _ => rfl,
    fun item hitem => absurd hitem (hlabel item)⟩

theorem UdpInv.move {label : MoveLabel} (h : UdpInv canUDPGRO offset batch i entries)
    (hlow : virtioNetHdrLen ≤ offset) (hhigh : offset < (bufferAt batch i).bytes.length)
    (hlabel : GroDatagram canUDPGRO ((bufferAt batch i).pkt offset) → label ≠ .raw)
    (hcount : ∀ item, label = .udpMerge item → item.numMerged.toNat + 1 < 2 ^ 16)
    (hmove : EntryMove e canUDPGRO offset i (bufferAt batch i) entries label entries') :
    Moves canUDPGRO offset i batch label entries entries' := by
  have hoffset := le_of_lt hhigh
  cases hmove with
  | raw =>
    -- a datagram that could be merged never ends here
    have hnot : ¬GroDatagram canUDPGRO ((bufferAt batch i).pkt offset) :=
      fun hgro => hlabel hgro rfl
    have hpkt := Buffer.pkt_encodeHdr (b := bufferAt batch i) e hlow VirtioNetHdr.zero
    have hdatagrams : (⟨i, .raw, (bufferAt batch i).encodeHdr e offset VirtioNetHdr.zero⟩ :
        Entry).datagrams offset = (udpDatagram ((bufferAt batch i).pkt offset)).toList := by
      simp only [Entry.datagrams, hpkt]
    refine UdpInv.moves_behind (h.push ⟨?_, Or.inr ⟨hpkt, ?_, ?_⟩⟩ ?_) (by simp) ?_
    · rw [Buffer.encodeHdr, Buffer.patch, patch_length]
      exact hoffset
    · rw [Buffer.hdrBytes_encodeHdr e hlow hoffset, VirtioNetHdr.zero_encode,
        VirtioNetHdr.zero_encode]
    · rw [hpkt]
      exact hnot
    · intro d hd _
      rw [hdatagrams, hd]
      exact ⟨rfl, rfl, rfl⟩
    · simp [entryDatagrams, hdatagrams]
  | tcpInsert hcandidate hmeta =>
    have hreads := tcpMeta_reads hcandidate hmeta
    -- a segment is no datagram, nor is the item it goes into
    have hnone := udpDatagram_of_tcp hreads.layout.transport
    have hudp : (⟨i, .tcp (tcpItem ((bufferAt batch i).pkt offset) _ _ i), bufferAt batch i⟩ :
        Entry).Udp canUDPGRO offset batch := TcpHeader.insert hoffset hreads
    refine UdpInv.moves_behind (h.push hudp ?_) (by simp) ?_
    · simp [hnone]
    · simp [entryDatagrams, hudp.datagrams_tcp, hnone]
  | @tcpMerge before behind w target isV6 m mode item hcandidate hmeta hkey hmode hcan hcheck =>
    have hreads := tcpMeta_reads hcandidate hmeta
    have hnone := udpDatagram_of_tcp hreads.layout.transport
    have hold := h.entry ⟨w, .tcp item, target⟩ (mem_replace.mpr (Or.inl rfl))
    have hheader : TcpHeader offset item target := hold
    obtain ⟨-, -, hbuf⟩ := TcpHeader.of_reads hoffset hreads hkey hheader.iphLen
      (tcphLen_of_canCoalesce (by rw [hcan]; exact hmode))
    have hnew : (⟨w, .tcp (tcpMergedItem mode m item),
        tcpMergedBuffer mode (bufferAt batch i) target m item offset⟩ :
          Entry).Udp canUDPGRO offset batch :=
      hheader.merge hbuf
    refine UdpInv.moves_behind ((h.replace hnew Held.noConfusion).next (Or.inr hnone)) (by simp) ?_
    simp [entryDatagrams, hnew.datagrams_tcp, hold.datagrams_tcp, hnone]
  | @udpInsert _ isV6 m cSumKnownInvalid hcandidate hmeta =>
    have hreads := udpMeta_reads hcandidate hmeta
    have hentry := UdpEntry.insert (i := i) hoffset hreads cSumKnownInvalid
    have hudp : (⟨i, .udp (udpItem ((bufferAt batch i).pkt offset) m isV6 i cSumKnownInvalid),
        bufferAt batch i⟩ : Entry).Udp canUDPGRO offset batch := hentry
    have hchunks := hentry.merged.chunks_of_fresh (show ¬(0 : BitVec 16) > 0 by decide)
    refine UdpInv.moves_behind (h.push hudp ?_) (by simp) ?_
    · exact fun d _ hnot => absurd ⟨isV6, m, hcandidate, hmeta⟩ hnot
    · rw [entryDatagrams_append, entryDatagrams_cons, hreads.datagram]
      simp only [Entry.datagrams, hchunks, map_singleton]
      rfl
  | @udpMerge before behind w target isV6 m item hcandidate hmeta hindex hkey hlast hcan hcheck =>
    have hreads := udpMeta_reads hcandidate hmeta
    have hold : UdpEntry offset item target :=
      h.entry ⟨w, .udp item, target⟩ (mem_replace.mpr (Or.inl rfl))
    -- the only datagram that is put before others: behind its item, not at the end
    obtain ⟨hmerged, hchunks⟩ := hold.merge hreads hkey hcan (hcount item rfl)
    have hdatagram := hreads.datagram
    rw [← hkey, hold.iphLen_eq hreads hkey] at hdatagram
    have hnew : (⟨w, .udp { item with numMerged := item.numMerged + 1 },
        udpMergedBuffer (bufferAt batch i) target item offset⟩ :
          Entry).Udp canUDPGRO offset batch := hmerged
    refine ⟨(h.replace hnew Held.noConfusion).next (Or.inl ⟨isV6, m, hcandidate, hmeta⟩),
      entryDatagrams offset (before ++ [⟨w, .udp item, target⟩]), entryDatagrams offset behind,
      ⟨?_, ?_⟩, ?_, ?_⟩
    · rw [← entryDatagrams_append, append_assoc]
      rfl
    · rw [entryDatagrams_append, entryDatagrams_cons, entryDatagrams_append, hdatagram]
      simp only [Entry.datagrams, hchunks, entryDatagrams_cons, map_append, append_assoc]
      rfl
    · exact fun hnot => absurd rfl (hnot item)
    · rintro item' hitem
      cases hitem
      exact ⟨before, ⟨w, .udp item, target⟩, behind, rfl, hindex.symm, hlast, rfl, _, hdatagram⟩

/-- Behind the item that a datagram is merged into there is no other datagram of the flow, unless
the datagram is merged over one that is written as it is. -/
theorem UdpInv.back_eq_nil {st : GroState} {item : UdpGROItem}
    (h : UdpInv canUDPGRO offset batch i (before ++ entry :: behind))
    (hrepresents : Represents batch i st (before ++ entry :: behind))
    (hindex : entry.index = item.bufsIndex.toNat)
    (hlast : ∀ x ∈ behind, x.held.udpOf item.key = none)
    (hover : ∀ j payload, item.bufsIndex.toNat < j → j < i →
      udpDatagram ((bufferAt batch j).pkt offset) = some (item.key, payload) →
      GroDatagram canUDPGRO ((bufferAt batch j).pkt offset)) :
    flowPayloads item.key (entryDatagrams offset behind) = [] := by
  apply flowPayloads_eq_nil
  intro d hd
  obtain ⟨x, hx, hin⟩ := mem_flatMap.mp hd
  have hmem : x ∈ before ++ entry :: behind := mem_replace.mpr (Or.inr (mem_append_right _ hx))
  have hudp := h.entry x hmem
  -- the entries behind have larger indices
  have hlt : entry.index < x.index := by
    have hsorted := hrepresents.sorted
    rw [map_append, map_cons, pairwise_append, pairwise_cons] at hsorted
    exact hsorted.2.1.1 _ (mem_map_of_mem hx)
  unfold Entry.Udp at hudp
  unfold Entry.datagrams at hin
  cases hheld : x.held with
  | raw =>
    rw [hheld] at hudp hin
    rw [mem_toList] at hin
    obtain ⟨-, hnone | hraw⟩ := hudp
    · rw [hnone] at hin
      cases hin
    · -- a datagram of the flow in between is one that GRO takes, never written raw
      rintro hkey
      have hdatagram : udpDatagram ((bufferAt batch x.index).pkt offset) =
          some (item.key, d.2) := by
        rw [← hraw.pkt, mem_def.mp hin, ← hkey]
      have hgro := hover x.index d.2 (hindex ▸ hlt) (hrepresents.below x hmem) hdatagram
      rw [← hraw.pkt] at hgro
      exact hraw.notGRO hgro
  | tcp item' =>
    rw [hheld] at hudp hin
    rw [hudp.no_datagram] at hin
    cases hin
  | udp item' =>
    rw [hheld] at hin
    obtain ⟨c, -, rfl⟩ := mem_map.mp hin
    intro hkey
    -- the item is the last of its flow
    have hnone := hlast x hx
    rw [hheld, Held.udpOf, if_pos hkey] at hnone
    cases hnone

/-- What an iteration does to the datagrams that are to be written. -/
theorem UdpInv.step {st : GroState} (h : UdpInv canUDPGRO offset batch i entries)
    (hrepresents : Represents batch i st entries)
    (hcount : ∀ item, stepLabel e canUDPGRO offset i st = .udpMerge item →
      item.numMerged.toNat + 1 < 2 ^ 16)
    (hstep : EntryStep e canUDPGRO offset batch i st entries entries') :
    Moves canUDPGRO offset i batch (stepLabel e canUDPGRO offset i st) entries entries' := by
  obtain ⟨hlow, hhigh, entries₁, hdrops, hmove⟩ := hstep
  obtain ⟨hinv₁, hsame⟩ := h.drops hdrops
  have hbuf := hrepresents.untouched i (le_refl i)
  have hlabel : GroDatagram canUDPGRO ((bufferAt batch i).pkt offset) →
      stepLabel e canUDPGRO offset i st ≠ .raw := by
    intro hgro
    rw [← hbuf] at hgro
    exact hgro.label_ne
  obtain ⟨hinv', front, back, hplaced, hother, hmerge⟩ := hinv₁.move hlow hhigh hlabel hcount hmove
  refine ⟨hinv', front, back, ⟨hsame.symm.trans hplaced.old, hplaced.new⟩, hother, ?_⟩
  intro item hitem
  -- an iteration that merges a datagram drops no item
  have hnodrop : entries₁ = entries := by
    have hdeleted : stepDeleted e canUDPGRO offset i st = [] := by
      unfold stepLabel at hitem
      unfold stepDeleted
      cases hcandidate : packetIsGROCandidate ((st.bufs i).pkt offset) canUDPGRO with
      | none => rfl
      | udp isV6 => rfl
      | tcp isV6 =>
        simp only [hcandidate] at hitem ⊢
        cases hmeta : tcpMeta ((st.bufs i).pkt offset) isV6 with
        | none => rfl
        | some m =>
          simp only [hmeta] at hitem
          split at hitem <;> cases hitem
    rw [hdeleted] at hdrops
    cases hdrops
    rfl
  subst hnodrop
  exact hmerge item hitem

end Step

/-! ## §4 The whole batch -/

section Batch

variable {e : Endian} {order : MapOrder} {canUDPGRO : Bool} {offset : ℕ}
    {batch : List Buffer} {n : ℕ}
variable {i : ℕ} {st : GroState}

theorem take_succ_bufferAt (hi : i < batch.length) :
    batch.take (i + 1) = batch.take i ++ [bufferAt batch i] := by
  rw [take_add_one, getElem?_eq_getElem hi, bufferAt, getD_eq_getElem _ _ hi, toList_some]

theorem batchDatagrams_take_succ (hi : i < batch.length) :
    batchDatagrams offset (batch.take (i + 1)) = batchDatagrams offset (batch.take i) ++
      (udpDatagram ((bufferAt batch i).pkt offset)).toList := by
  rw [take_succ_bufferAt hi, batchDatagrams, filterMap_append, filterMap_cons]
  cases udpDatagram ((bufferAt batch i).pkt offset) <;> rfl

theorem udpInv_init : UdpInv canUDPGRO offset batch 0 [] :=
  ⟨fun _ h => absurd h not_mem_nil, fun _ _ h => absurd h (not_lt_zero _)⟩

/-- Without overtaking, the payloads of every flow are in the order of the batch after every
iteration. -/
theorem Reached.in_order (h : Reached e canUDPGRO offset batch n st)
    (hn : n ≤ batch.length) (hfits : FitIndices e canUDPGRO offset batch n)
    (hcounts : FitCounts e canUDPGRO offset batch n)
    (hover : NoOvertaking e canUDPGRO offset batch n) :
    ∃ entries, Represents batch n st entries ∧ UdpInv canUDPGRO offset batch n entries ∧
      ∀ key, flowPayloads key (entryDatagrams offset entries) =
        flowPayloads key (batchDatagrams offset (batch.take n)) := by
  refine h.induction (P := fun n entries => UdpInv canUDPGRO offset batch n entries ∧
    ∀ key, flowPayloads key (entryDatagrams offset entries) =
      flowPayloads key (batchDatagrams offset (batch.take n))) hfits
        ⟨udpInv_init, fun key => rfl⟩ ?_
  rintro i st entries entries' hi hreached hrepresents ⟨hinv, hordered⟩ hstep
  obtain ⟨hinv', front, back, hplaced, hother, hmerge⟩ :=
    hinv.step hrepresents (fun item => hcounts i st item hi hreached) hstep
  refine ⟨hinv', fun key => ?_⟩
  rw [hplaced.new, batchDatagrams_take_succ (lt_of_lt_of_le hi hn), flowPayloads_append,
    flowPayloads_append, flowPayloads_append, ← hordered key, hplaced.old, flowPayloads_append]
  -- behind the datagram of the packet there is none of its flow
  have hback : flowPayloads key (udpDatagram ((bufferAt batch i).pkt offset)).toList = [] ∨
      flowPayloads key back = [] := by
    by_cases hlabel : ∃ item, stepLabel e canUDPGRO offset i st = .udpMerge item
    · obtain ⟨item, hlabel⟩ := hlabel
      obtain ⟨before, entry, behind, rfl, hindex, hlast, rfl, payload, hpayload⟩ :=
        hmerge item hlabel
      by_cases hkey : item.key = key
      · subst hkey
        exact Or.inr
          (hinv.back_eq_nil hrepresents hindex hlast (hover i st item hi hreached hlabel))
      · refine Or.inl (flowPayloads_eq_nil fun d hd => ?_)
        rw [hpayload, toList_some, mem_singleton] at hd
        rw [hd]
        exact hkey
    · rw [hother fun item hitem => hlabel ⟨item, hitem⟩]
      exact Or.inr rfl
  rcases hback with hnil | hnil
  · rw [hnil, nil_append, append_nil]
  · rw [hnil, append_nil, append_nil]

/-- Once a datagram is merged over another one of its flow, it stays in front of it. -/
theorem Reached.overtaken (h : Reached e canUDPGRO offset batch n st)
    (hfits : FitIndices e canUDPGRO offset batch n)
    (hcounts : FitCounts e canUDPGRO offset batch n) {st₀ : GroState} {item : UdpGROItem}
    (hi : i < n) (hreached : Reached e canUDPGRO offset batch i st₀)
    (hlabel : stepLabel e canUDPGRO offset i st₀ = .udpMerge item) {j : ℕ} {payload : Bytes}
    (hidx : item.bufsIndex.toNat < j) (hj : j < i)
    (hdatagram : udpDatagram ((bufferAt batch j).pkt offset) = some (item.key, payload))
    (hnot : ¬GroDatagram canUDPGRO ((bufferAt batch j).pkt offset)) :
    ∃ payload', udpDatagram ((bufferAt batch i).pkt offset) = some (item.key, payload') ∧
      ∃ entries, Represents batch n st entries ∧ UdpInv canUDPGRO offset batch n entries ∧
        [(item.key, payload'), (item.key, payload)].Sublist (entryDatagrams offset entries) := by
  have hall : ∃ entries, Represents batch n st entries ∧ UdpInv canUDPGRO offset batch n entries ∧
      (i < n → ∃ payload', udpDatagram ((bufferAt batch i).pkt offset) = some (item.key, payload') ∧
        [(item.key, payload'), (item.key, payload)].Sublist (entryDatagrams offset entries)) := by
    refine h.induction (P := fun n entries => UdpInv canUDPGRO offset batch n entries ∧
      (i < n → ∃ payload', udpDatagram ((bufferAt batch i).pkt offset) = some (item.key, payload') ∧
        [(item.key, payload'), (item.key, payload)].Sublist (entryDatagrams offset entries))) hfits
      ⟨udpInv_init, fun hlt => absurd hlt (not_lt_zero i)⟩ ?_
    rintro k st entries entries' hk hst hrepresents ⟨hinv, hsublist⟩ hstep
    obtain ⟨hinv', front, back, hplaced, -, hmerge⟩ :=
      hinv.step hrepresents (fun item => hcounts k st item hk hst) hstep
    refine ⟨hinv', fun hlt => ?_⟩
    rcases Nat.lt_succ_iff_lt_or_eq.mp hlt with hlt | rfl
    · -- datagrams are only added
      obtain ⟨payload', hpayload', hsub⟩ := hsublist hlt
      refine ⟨payload', hpayload', hsub.trans ?_⟩
      rw [hplaced.new, hplaced.old]
      exact List.Sublist.append_left (sublist_append_right _ _) _
    · cases hst.symm.trans hreached
      obtain ⟨before, entry, behind, rfl, hindex, -, rfl, payload', hpayload'⟩ := hmerge item hlabel
      refine ⟨payload', hpayload', ?_⟩
      -- the datagram that is written as it is has an entry behind the item
      obtain ⟨x, hx, hxindex, -, hxdatagrams⟩ := hinv.raw j (item.key, payload) hj hdatagram hnot
      have hbehind : x ∈ behind := by
        have hsorted := hrepresents.sorted
        rw [map_append, map_cons, pairwise_append, pairwise_cons] at hsorted
        rcases mem_replace.mp hx with rfl | hin
        · exact absurd (hxindex.symm.trans hindex) (ne_of_gt hidx)
        · rcases mem_append.mp hin with hin | hin
          · have hlt := hsorted.2.2 _ (mem_map_of_mem hin) _ mem_cons_self
            rw [hxindex, hindex] at hlt
            exact absurd hlt (Nat.not_lt_of_lt hidx)
          · exact hin
      have hmem : (item.key, payload) ∈ entryDatagrams offset behind :=
        mem_flatMap.mpr ⟨x, hbehind, by rw [hxdatagrams]; exact mem_singleton_self _⟩
      rw [hplaced.new, hpayload', toList_some]
      exact (List.Sublist.cons_cons _ (singleton_sublist.mpr hmem)).trans (sublist_append_right _ _)
  obtain ⟨entries, hrepresents, hinv, hsub⟩ := hall
  obtain ⟨payload', hpayload', hsub⟩ := hsub hi
  exact ⟨payload', hpayload', entries, hrepresents, hinv, hsub⟩

theorem writtenDatagrams_eq {st' : GroState} {entries : List Entry}
    (hrepresents : Represents batch n st entries) (hinv : UdpInv canUDPGRO offset batch n entries)
    (hlow : entries ≠ [] → virtioNetHdrLen ≤ offset) (htoWrite : st'.toWrite = st.toWrite)
    (hbufs : st'.bufs = accountedBufs e order offset st) :
    writtenDatagrams e offset st' = entryDatagrams offset entries := by
  rw [writtenDatagrams, htoWrite, hrepresents.toWrite, flatMap_map, entryDatagrams]
  refine flatMap_congr fun x hx => ?_
  rw [hbufs, hrepresents.accounted hx]
  exact (hinv.entry x hx).read (hlow (ne_nil_of_mem hx))

theorem pair_sublist_batch {j : ℕ} (hj : j < i) (hi : i < batch.length) {d d' : UdpFlowKey × Bytes}
    (hd : udpDatagram ((bufferAt batch j).pkt offset) = some d)
    (hd' : udpDatagram ((bufferAt batch i).pkt offset) = some d') :
    [d, d'].Sublist (batchDatagrams offset batch) := by
  have hfront : [bufferAt batch j].Sublist (batch.take i) := by
    refine singleton_sublist.mpr (mem_take_iff_getElem.mpr ⟨j, by omega, ?_⟩)
    rw [bufferAt, getD_eq_getElem _ _ (by omega)]
  have hback : [bufferAt batch i].Sublist (batch.drop i) := by
    refine singleton_sublist.mpr (mem_drop_iff_getElem.mpr ⟨0, by omega, ?_⟩)
    simp [bufferAt, hi]
  have hpair := (hfront.append hback).filterMap fun b => udpDatagram (b.pkt offset)
  rw [take_append_drop] at hpair
  simpa [batchDatagrams, hd, hd'] using hpair

/-- A batch on which `handleGRO` succeeds and is not empty has room for virtio headers. -/
theorem Reached.offset_le (h : Reached e canUDPGRO offset batch n st) (hn : 0 < n) :
    virtioNetHdrLen ≤ offset := by
  obtain ⟨k, rfl⟩ : ∃ k, n = k + 1 := ⟨n - 1, by omega⟩
  obtain ⟨st₀, -, hstep⟩ := Reached.succ_iff.mp h
  exact (groStep_offset hstep).1

theorem Represents.offset_le {entries : List Entry} (h : Represents batch n st entries)
    (hreached : Reached e canUDPGRO offset batch n st) (hne : entries ≠ []) :
    virtioNetHdrLen ≤ offset := by
  obtain ⟨x, hx⟩ := exists_mem_of_ne_nil entries hne
  exact hreached.offset_le (lt_of_le_of_lt (zero_le _) (h.below x hx))

/-- **The datagrams of every flow keep their order** when no datagram is merged over one that is
written as it is, and, where the payloads of a flow differ, only then. -/
theorem handleGRO_ordered {st : GroState} (h : handleGRO e order canUDPGRO offset batch = .ok st)
    (hfits : FitIndices e canUDPGRO offset batch batch.length)
    (hcounts : FitCounts e canUDPGRO offset batch batch.length) :
    (NoOvertaking e canUDPGRO offset batch batch.length → UdpOrdered e offset batch st) ∧
      ((∀ key, (flowPayloads key (batchDatagrams offset batch)).Nodup) →
        UdpOrdered e offset batch st → NoOvertaking e canUDPGRO offset batch batch.length) := by
  obtain ⟨st₀, hreached, htoWrite, hbufs⟩ := handleGRO_ok h
  constructor
  · intro hover key
    obtain ⟨entries, hrepresents, hinv, hordered⟩ :=
      hreached.in_order (le_refl _) hfits hcounts hover
    rw [writtenDatagrams_eq hrepresents hinv (hrepresents.offset_le hreached) htoWrite hbufs,
      hordered key, take_length]
  · -- an overtaken datagram is written behind, and came before, the one merged
    intro hdistinct hordered i st₁ item hi hst₁ hlabel j payload hidx hj hdatagram
    by_contra hnot
    obtain ⟨payload', hpayload', entries, hrepresents, hinv, hsub⟩ :=
      hreached.overtaken hfits hcounts hi hst₁ hlabel hidx hj hdatagram hnot
    rw [← writtenDatagrams_eq hrepresents hinv (hrepresents.offset_le hreached) htoWrite hbufs]
      at hsub
    have hwritten := flowPayloads_sublist item.key hsub
    have hbatch := flowPayloads_sublist item.key (pair_sublist_batch hj hi hdatagram hpayload')
    rw [hordered item.key] at hwritten
    have hpair : ∀ x y : Bytes, flowPayloads item.key [(item.key, x), (item.key, y)] = [x, y] := by
      intro x y
      simp [flowPayloads]
    rw [hpair] at hwritten hbatch
    exact not_both_orders (hdistinct item.key) hwritten hbatch

end Batch

/-! ## §5 Bounds and a batch that is reordered -/

section Bounds

variable {e : Endian} {canUDPGRO : Bool} {offset : ℕ} {batch : List Buffer}

theorem fitIndices_of_length {n : ℕ} (h : n ≤ 2 ^ 16) : FitIndices e canUDPGRO offset batch n :=
  fun _ _ hi _ _ => lt_of_lt_of_le hi h

/-- No more datagrams are merged into a buffer than there are packets behind it. -/
theorem Reached.numMerged_lt {n : ℕ} {st : GroState} (h : Reached e canUDPGRO offset batch n st)
    (hfits : FitIndices e canUDPGRO offset batch n) : ∃ entries, Represents batch n st entries ∧
      ∀ x ∈ entries, ∀ item, x.held = .udp item → item.numMerged.toNat + x.index < n := by
  refine h.induction (P := fun n entries => ∀ x ∈ entries, ∀ item, x.held = .udp item →
    item.numMerged.toNat + x.index < n) hfits (fun _ hx => absurd hx not_mem_nil) ?_
  rintro i st entries entries' hi hst hrepresents hbound ⟨-, -, entries₁, hdrops, hmove⟩
  have hbound₁ : ∀ x ∈ entries₁, ∀ item, x.held = .udp item →
      item.numMerged.toNat + x.index < i := by
    clear hmove hst hrepresents
    generalize stepDeleted e canUDPGRO offset i st = deleted at hdrops
    induction hdrops with
    | nil => exact hbound
    | cons _ _ _ ih => exact ih (forall_replace hbound fun item => Held.noConfusion)
  have hlater : ∀ x ∈ entries₁, ∀ item, x.held = .udp item →
      item.numMerged.toNat + x.index < i + 1 :=
    fun x hx item hitem => lt_succ_of_lt (hbound₁ x hx item hitem)
  generalize stepLabel e canUDPGRO offset i st = label at hmove
  cases hmove with
  | raw => exact forall_push hlater fun item => Held.noConfusion
  | tcpInsert => exact forall_push hlater fun item => Held.noConfusion
  | udpInsert =>
    refine forall_push hlater fun item hitem => ?_
    cases hitem
    exact lt_succ_of_le (zero_add i).le
  | tcpMerge => exact forall_replace hlater fun item => Held.noConfusion
  | @udpMerge before behind w target isV6 m item' _ _ _ _ _ _ _ =>
    refine forall_replace hlater fun item hitem => ?_
    cases hitem
    have hold : item'.numMerged.toNat + w < i :=
      hbound₁ ⟨w, .udp item', target⟩ (mem_replace.mpr (Or.inl rfl)) item' rfl
    -- even if it wraps, the count grows by at most one, as the index does
    have hle : (item'.numMerged + 1).toNat ≤ item'.numMerged.toNat + 1 := by
      rw [BitVec.toNat_add]
      exact mod_le _ _
    show (item'.numMerged + 1).toNat + w < i + 1
    omega

theorem fitCounts_of_length {n : ℕ} (h : n ≤ 2 ^ 16) : FitCounts e canUDPGRO offset batch n := by
  intro i st item hi hst hlabel
  obtain ⟨entries, hrepresents, hbound⟩ :=
    hst.numMerged_lt (fitIndices_of_length (le_trans (le_of_lt hi) h))
  -- the item that is merged into is one of the table
  have hmem : item ∈ st.udpTable.items := by
    unfold stepLabel at hlabel
    simp only at hlabel
    split at hlabel
    · cases hlabel
    · split at hlabel
      · cases hlabel
      · split at hlabel <;> cases hlabel
    · split at hlabel
      · cases hlabel
      · split at hlabel
        · cases hlabel
        · next hlast =>
          split_ifs at hlabel
          cases hlabel
          exact GROTable.mem_items_of_flow (mem_of_getLast? hlast)
  obtain ⟨x, hx, hheld⟩ := hrepresents.udp_mem.mp hmem
  have := hbound x hx item hheld
  omega

end Bounds

/-- The maps of the tables in the order in which they are kept. -/
def insertionOrder : MapOrder := { visit := id, perm := fun _ => List.Perm.refl _ }

def packetBuffer (pkt : Bytes) : Buffer :=
  { bytes := List.replicate 10 0 ++ pkt
    cap := max 65535 (10 + pkt.length)
    len_le := by rw [List.length_append, List.length_replicate]; exact le_max_right _ _ }

/-- A UDP packet from 10.0.0.1, port 1 to 10.0.0.2, port 2. -/
def udpPacket (totalLen ipChecksum udpLen : Byte) (checksum payload : Bytes) : Bytes :=
  [69, 0, 0, totalLen, 0, 0, 0, 0, 64, 17, 102, ipChecksum, 10, 0, 0, 1, 10, 0, 0, 2, 0, 1, 0, 2, 0,
    udpLen] ++ checksum ++ payload

/-- Two datagrams of a flow with an empty one between them. -/
def emptyBetween : List Buffer :=
  [packetBuffer (udpPacket 29 206 9 [170, 214] [65]),
    packetBuffer (udpPacket 28 207 8 [235, 216] []),
    packetBuffer (udpPacket 29 206 9 [168, 214] [67])]

def portsFlow : UdpFlowKey :=
  { srcAddr := keyAddr [10, 0, 0, 1], dstAddr := keyAddr [10, 0, 0, 2], srcPort := 1, dstPort := 2,
    isV6 := false }

/-- The datagrams that are written for a batch. -/
def handledDatagrams (batch : List Buffer) : Option (List (UdpFlowKey × Bytes)) :=
  match handleGRO .little insertionOrder true 10 batch with
  | .ok st => some (writtenDatagrams .little 10 st)
  | .error _ => none

/-- The last datagram is written in front of the empty one. -/
theorem empty_datagram_overtaken :
    handledDatagrams emptyBetween = some [(portsFlow, [65]), (portsFlow, [67]), (portsFlow, [])] ∧
      batchDatagrams 10 emptyBetween = [(portsFlow, [65]), (portsFlow, []), (portsFlow, [67])] ∧
      ∃ st, handleGRO .little insertionOrder true 10 emptyBetween = .ok st ∧
        ¬UdpOrdered .little 10 emptyBetween st := by
  have hwritten : handledDatagrams emptyBetween =
      some [(portsFlow, [65]), (portsFlow, [67]), (portsFlow, [])] := by decide +kernel
  have hbatch : batchDatagrams 10 emptyBetween =
      [(portsFlow, [65]), (portsFlow, []), (portsFlow, [67])] := by decide +kernel
  refine ⟨hwritten, hbatch, ?_⟩
  unfold handledDatagrams at hwritten
  split at hwritten
  · next st hst =>
    refine ⟨st, hst, fun hordered => ?_⟩
    have hflow := hordered portsFlow
    rw [some.inj hwritten, hbatch] at hflow
    exact absurd hflow (by decide)
  · cases hwritten

/-- Three datagrams of a flow, the last of which is empty. -/
def emptyLast : List Buffer :=
  [packetBuffer (udpPacket 29 206 9 [170, 214] [65]),
    packetBuffer (udpPacket 29 206 9 [168, 214] [67]),
    packetBuffer (udpPacket 28 207 8 [235, 216] [])]

/-- Two of them are merged, none over another. -/
theorem handleGRO_ordered_emptyLast :
    handledDatagrams emptyLast = some [(portsFlow, [65]), (portsFlow, [67]), (portsFlow, [])] ∧
      ∃ st, handleGRO .little insertionOrder true 10 emptyLast = .ok st ∧
        UdpOrdered .little 10 emptyLast st ∧ NoOvertaking .little true 10 emptyLast 3 := by
  have hwritten : handledDatagrams emptyLast =
      some [(portsFlow, [65]), (portsFlow, [67]), (portsFlow, [])] := by decide +kernel
  have hbatch : batchDatagrams 10 emptyLast =
      [(portsFlow, [65]), (portsFlow, [67]), (portsFlow, [])] := by decide +kernel
  refine ⟨hwritten, ?_⟩
  unfold handledDatagrams at hwritten
  split at hwritten
  · next st hst =>
    have hlen : emptyLast.length ≤ 2 ^ 16 := by decide
    have hordered : UdpOrdered .little 10 emptyLast st := by
      intro key
      rw [some.inj hwritten, hbatch]
    have honlyIf := (handleGRO_ordered hst (fitIndices_of_length hlen) (fitCounts_of_length hlen)).2
    refine ⟨st, hst, hordered, honlyIf (fun key => ?_) hordered⟩
    rw [hbatch]
    by_cases hkey : portsFlow = key
    · simp [flowPayloads, hkey]
    · simp [flowPayloads, hkey]
  · cases hwritten

end AmneziaWG.Tun
