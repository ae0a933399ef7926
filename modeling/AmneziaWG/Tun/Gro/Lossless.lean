import AmneziaWG.Tun.Gro.Segments
import Mathlib.Algebra.Order.BigOperators.Group.List

/-!
# No Segment Is Lost

Expanding what is written gives the TCP segments of the batch back.  Merging keeps every segment in
the buffer of its item; but the header in front of a merged buffer is that of its first packet, so
that a packet that is put in front of a segment with the PSH flag hides the flag.

## Main results

- `Reached.conserved`: every segment of the batch is in the buffer of an entry.
- `handleGRO_lossless_iff`: all segments come back if and only if no packet is put in front of an
  item with the PSH flag.
-/

namespace AmneziaWG.Tun

open AmneziaWG.Lib List Option Nat

/-! ## §1 Expanding a batch -/

def batchSegments (offset : ℕ) (batch : List Buffer) : List TcpSegment :=
  batch.filterMap fun b => tcpSegment (b.pkt offset)

/-- Expanding all buffers to write gives the segments of the batch, in any order. -/
def Lossless (e : Endian) (offset : ℕ) (outBuffs : List Bytes) (outOffset : ℕ) (batch : List Buffer)
    (st : GroState) : Prop :=
  ∃ outs, st.toWrite.mapM (fun w => expand e offset outBuffs outOffset (st.bufs w)) = some outs ∧
    (outs.flatten.filterMap tcpSegment).Perm (batchSegments offset batch)

section Condition

variable (e : Endian) (canUDPGRO : Bool) (offset : ℕ) (batch : List Buffer) (n : ℕ)

/-- An item that is dropped for its checksum has a buffer whose virtio header says that it is one
packet. -/
def NoStaleHeader : Prop :=
  ∀ i st item, i < n → Reached e canUDPGRO offset batch i st →
    item ∈ stepDeleted e canUDPGRO offset i st →
    (bufferAt batch item.bufsIndex.toNat).gsoType offset = gsoNone

/-- No packet is put in front of an item with the PSH flag. -/
def NoHiddenPSH : Prop :=
  ∀ i st item, i < n → Reached e canUDPGRO offset batch i st →
    stepLabel e canUDPGRO offset i st = .tcpMerge .prepend item → item.pshSet = false

end Condition

/-! ## §2 Entries -/

def Entry.segments (offset : ℕ) (entry : Entry) : List TcpSegment :=
  match entry.held with
  | .tcp item => itemSegments offset item item.pshSet entry.buf
  | _ => (tcpSegment (entry.buf.pkt offset)).toList

/-- The segments that come out of an entry: the PSH flag is read from the header. -/
def Entry.outSegments (offset : ℕ) (entry : Entry) : List TcpSegment :=
  match entry.held with
  | .tcp item => itemSegments offset item (tcpPSH (entry.buf.pkt offset) item.iphLen) entry.buf
  | _ => (tcpSegment (entry.buf.pkt offset)).toList

/-- The item of an entry describes its buffer.  The buffer of an item that nothing has been merged
into is the one of the batch. -/
def Entry.Tcp (offset : ℕ) (batch : List Buffer) (entry : Entry) : Prop :=
  match entry.held with
  | .raw => offset ≤ entry.buf.bytes.length ∧ entry.buf.gsoType offset = gsoNone
  | .tcp item => TcpEntry offset item entry.buf ∧
      (item.numMerged = 0 → entry.buf = bufferAt batch entry.index)
  | .udp item => UdpEntry offset item entry.buf ∧ entry.buf.cap ≤ 65535

/-- The PSH flag of the item of an entry is not in its header. -/
def Entry.HidesPSH (offset : ℕ) (entry : Entry) : Prop :=
  ∃ item, entry.held = .tcp item ∧ item.numMerged ≠ 0 ∧ item.pshSet = true ∧
    tcpPSH (entry.buf.pkt offset) item.iphLen = false

/-- The PSH flag of the item of an entry is that of its header. -/
def Entry.ShowsPSH (offset : ℕ) (entry : Entry) : Prop :=
  ∀ item, entry.held = .tcp item → tcpPSH (entry.buf.pkt offset) item.iphLen = item.pshSet

section Entry

variable {e : Endian} {offset outOffset : ℕ} {batch : List Buffer} {entry : Entry}
    {outBuffs : List Bytes}

theorem Entry.Tcp.expand (h : entry.Tcp offset batch) (hlow : virtioNetHdrLen ≤ offset)
    (hroom : EnoughRoom outBuffs outOffset) :
    ∃ outs, Tun.expand e offset outBuffs outOffset (entry.accounted e offset) = some outs ∧
      outs.filterMap tcpSegment = entry.outSegments offset := by
  unfold Entry.Tcp at h
  unfold Entry.accounted Entry.outSegments
  cases hheld : entry.held with
  | raw =>
    rw [hheld] at h
    have hlen : (entry.buf.hdrBytes offset).length = virtioNetHdrLen := field_length (by omega)
    obtain ⟨hdr, hdecode, htype⟩ := VirtioNetHdr.decode_eq (e := e) (le_of_eq hlen.symm)
    refine ⟨[entry.buf.pkt offset], expand_single hdecode (htype.trans h.2), ?_⟩
    cases hsegment : tcpSegment (entry.buf.pkt offset) with
    | none => rw [filterMap_cons_none hsegment, filterMap_nil, toList_none]
    | some segment => rw [filterMap_cons_some hsegment, filterMap_nil, toList_some]
  | tcp item =>
    rw [hheld] at h
    exact h.1.expand hlow hroom
  | udp item =>
    rw [hheld] at h
    obtain ⟨outs, hexpand, hnil⟩ := h.1.expand (e := e) h.2 hlow hroom
    refine ⟨outs, hexpand, hnil.trans ?_⟩
    rw [tcpSegment_of_udp h.1.transport, toList_none]

end Entry

/-! ## §3 One iteration -/

def entrySegments (offset : ℕ) (entries : List Entry) : List TcpSegment :=
  entries.flatMap (Entry.segments offset)

section Step

variable {e : Endian} {canUDPGRO : Bool} {offset i : ℕ} {batch : List Buffer}
  {entries entries' before behind : List Entry} {entry entry' : Entry}

theorem entrySegments_replace : entrySegments offset (before ++ entry :: behind) =
      entrySegments offset before ++ (entry.segments offset ++ entrySegments offset behind) := by
  rw [entrySegments, flatMap_append, flatMap_cons]
  rfl

theorem entrySegments_push :
    (entrySegments offset (entries ++ [entry])).Perm
      (entry.segments offset ++ entrySegments offset entries) := by
  rw [entrySegments, flatMap_append, flatMap_singleton]
  exact perm_append_comm

theorem perm_entrySegments_replace {new : List TcpSegment}
    (h : (entry'.segments offset).Perm (new ++ entry.segments offset)) :
    (entrySegments offset (before ++ entry' :: behind)).Perm
      (new ++ entrySegments offset (before ++ entry :: behind)) := by
  rw [entrySegments_replace, entrySegments_replace]
  have hmiddle :=
    (h.append_right (entrySegments offset behind)).append_left (entrySegments offset before)
  refine hmiddle.trans ?_
  rw [append_assoc, ← append_assoc, ← append_assoc new]
  exact perm_append_comm.append_right _

theorem showsPSH_of_ne (h : ∀ item, entry.held ≠ .tcp item) : entry.ShowsPSH offset :=
  fun item hitem => absurd hitem (h item)

/-- What changes of the list of entries keep: the description of the buffers, and which entries show
or hide the PSH flag of their item. -/
structure Kept (offset : ℕ) (batch : List Buffer) (entries entries' : List Entry) : Prop where
  tcp : ∀ x ∈ entries', x.Tcp offset batch
  hides : (∃ x ∈ entries, x.HidesPSH offset) → ∃ x ∈ entries', x.HidesPSH offset

/-- Dropped items keep their segment, which is written as it is. -/
theorem drops_segments {deleted : List TcpGROItem} (h : ∀ x ∈ entries, x.Tcp offset batch)
    (hstale : ∀ item ∈ deleted, (bufferAt batch item.bufsIndex.toNat).gsoType offset = gsoNone)
    (hdrops : EntryDrops entries deleted entries') :
    Kept offset batch entries entries' ∧ entrySegments offset entries' =
      entrySegments offset entries ∧
      ((∀ x ∈ entries, x.ShowsPSH offset) → ∀ x ∈ entries', x.ShowsPSH offset) := by
  induction hdrops with
  | nil => exact ⟨⟨h, id⟩, rfl, id⟩
  | @cons before behind entries' w item buf deleted hindex hmerged _ ih =>
    obtain ⟨hentry, hbatch⟩ := h ⟨w, .tcp item, buf⟩ (mem_replace.mpr (Or.inl rfl))
    have hbuf : buf = bufferAt batch w := hbatch hmerged
    -- what stands in front of the dropped packet is the header it came with
    have hraw : (⟨w, .raw, buf⟩ : Entry).Tcp offset batch := by
      refine ⟨hentry.header.offset_le, ?_⟩
      show buf.gsoType offset = gsoNone
      rw [hbuf, ← hindex]
      exact hstale item mem_cons_self
    obtain ⟨hkept, hsame, hshows⟩ := ih (forall_replace h hraw)
      (fun x hx => hstale x (mem_cons_of_mem _ hx))
    refine ⟨⟨hkept.tcp, fun hhides => hkept.hides (exists_replace hhides ?_)⟩, hsame.trans ?_, ?_⟩
    · rintro ⟨item', hitem', hnot, -⟩
      cases hitem'
      exact absurd hmerged hnot
    · have hsegments : (⟨w, .tcp item, buf⟩ : Entry).segments offset =
          (⟨w, .raw, buf⟩ : Entry).segments offset := hentry.segments_of_fresh hmerged
      rw [entrySegments_replace, entrySegments_replace, hsegments]
    · exact fun hall => hshows (forall_replace hall (showsPSH_of_ne fun _ => Held.noConfusion))

/-- The segment of the packet at `i` is added to the entries, and a flag is hidden if and only if
the packet is put in front of an item with the flag. -/
structure Adds (offset i : ℕ) (batch : List Buffer) (label : MoveLabel)
    (entries entries' : List Entry) : Prop
    extends Kept offset batch entries entries' where
  perm : (entrySegments offset entries').Perm
    ((tcpSegment ((bufferAt batch i).pkt offset)).toList ++ entrySegments offset entries)
  shows : (∀ item, label = .tcpMerge .prepend item → item.pshSet = false) →
    (∀ x ∈ entries, x.ShowsPSH offset) → ∀ x ∈ entries', x.ShowsPSH offset
  hidesNow : ∀ item, label = .tcpMerge .prepend item → item.pshSet = true →
    ∃ x ∈ entries', x.HidesPSH offset

theorem Adds.push {label : MoveLabel} (h : ∀ x ∈ entries, x.Tcp offset batch)
    (hentry : entry.Tcp offset batch)
    (hlabel : ∀ item, label ≠ .tcpMerge .prepend item) (hshows : entry.ShowsPSH offset)
    (hsegments : entry.segments offset = (tcpSegment ((bufferAt batch i).pkt offset)).toList) :
    Adds offset i batch label entries (entries ++ [entry]) where
  tcp := forall_push h hentry
  hides := exists_push
  perm := hsegments ▸ entrySegments_push
  shows := fun _ hall => forall_push hall hshows
  hidesNow := fun item hitem => absurd hitem (hlabel item)

/-- A packet is moved: its segment is added to the entries. -/
theorem move_segments {label : MoveLabel} (h : ∀ x ∈ entries, x.Tcp offset batch)
    (hlow : virtioNetHdrLen ≤ offset) (hhigh : offset < (bufferAt batch i).bytes.length)
    (hcap : (bufferAt batch i).cap ≤ 65535)
    (hmove : EntryMove e canUDPGRO offset i (bufferAt batch i) entries label entries') :
    Adds offset i batch label entries entries' := by
  have hoffset := le_of_lt hhigh
  cases hmove with
  | raw =>
    -- a packet that becomes no item gets the zero header
    have hpkt := Buffer.pkt_encodeHdr (b := bufferAt batch i) e hlow VirtioNetHdr.zero
    have hraw : (⟨i, .raw, (bufferAt batch i).encodeHdr e offset VirtioNetHdr.zero⟩ :
        Entry).Tcp offset batch := by
      constructor
      · rw [Buffer.encodeHdr, Buffer.patch, patch_length]
        exact hoffset
      · show byteAt (((bufferAt batch i).encodeHdr e offset VirtioNetHdr.zero).hdrBytes offset)
          1 = gsoNone
        rw [Buffer.hdrBytes_encodeHdr e hlow hoffset]
        rfl
    refine .push h hraw (by simp) (showsPSH_of_ne fun _ => Held.noConfusion) ?_
    simp only [Entry.segments, hpkt]
  | @tcpInsert _ isV6 m hcandidate hmeta =>
    have hreads := tcpMeta_reads hcandidate hmeta
    have hentry := TcpEntry.insert (i := i) hoffset hcap hreads
    have htcp : (⟨i, .tcp (tcpItem ((bufferAt batch i).pkt offset) m isV6 i), bufferAt batch i⟩ :
        Entry).Tcp offset batch := ⟨hentry, fun _ => rfl⟩
    refine .push h htcp (by simp) (fun item hitem => ?_) (hentry.segments_of_fresh rfl)
    cases hitem
    exact hentry.fresh rfl
  | @tcpMerge before behind w target isV6 m mode item hcandidate hmeta hkey hmode hcan hcheck =>
    have hreads := tcpMeta_reads hcandidate hmeta
    obtain ⟨hold, -⟩ := h ⟨w, .tcp item, target⟩ (mem_replace.mpr (Or.inl rfl))
    obtain ⟨hnew, hperm, hpsh⟩ := hold.merge hoffset hcap hreads hkey hmode hcan hcheck
    have hnotFresh : (tcpMergedItem mode m item).numMerged ≠ 0 := by
      intro hzero
      have hnum := hold.numMerged_succ
      have hzero' : item.numMerged + 1 = 0 := hzero
      rw [hzero'] at hnum
      cases hnum
    have htcp : (⟨w, .tcp (tcpMergedItem mode m item),
        tcpMergedBuffer mode (bufferAt batch i) target m item offset⟩ : Entry).Tcp offset batch :=
      ⟨hnew, fun hzero => absurd hzero hnotFresh⟩
    -- in front of an item with the flag, the packet hides it
    have hhides : mode = .prepend → item.pshSet = true → (⟨w, .tcp (tcpMergedItem mode m item),
        tcpMergedBuffer mode (bufferAt batch i) target m item offset⟩ : Entry).HidesPSH offset := by
      rintro rfl hset
      exact ⟨_, rfl, hnotFresh, hset, hpsh⟩
    refine ⟨⟨forall_replace h htcp, fun hex => exists_replace hex ?_⟩,
      perm_entrySegments_replace hperm, ?_, ?_⟩
    · rintro ⟨item', hitem', -, hset, -⟩
      cases hitem'
      refine hhides ?_ hset
      rcases canCoalesce_cases hmode with rfl | rfl
      · obtain ⟨-, hnoPSH, -⟩ := canCoalesce_append hcan
        exact absurd (hnoPSH.symm.trans hset) Bool.false_ne_true
      · rfl
    · intro hprepend hall
      refine forall_replace hall fun item' hitem' => ?_
      cases hitem'
      rcases canCoalesce_cases hmode with rfl | rfl
      · exact hpsh
      · exact hpsh.trans (hprepend item rfl).symm
    · rintro item' hitem' hset
      cases hitem'
      exact ⟨_, mem_replace.mpr (Or.inl rfl), hhides rfl hset⟩
  | @udpInsert _ isV6 m cSumKnownInvalid hcandidate hmeta =>
    have hreads := udpMeta_reads hcandidate hmeta
    have hudp : (⟨i, .udp (udpItem ((bufferAt batch i).pkt offset) m isV6 i cSumKnownInvalid),
        bufferAt batch i⟩ : Entry).Tcp offset batch :=
      ⟨UdpEntry.insert hoffset hreads cSumKnownInvalid, hcap⟩
    exact .push h hudp (by simp) (showsPSH_of_ne fun _ => Held.noConfusion) rfl
  | @udpMerge before behind w target isV6 m item hcandidate hmeta hindex hkey hlast hcan hcheck =>
    have hreads := udpMeta_reads hcandidate hmeta
    obtain ⟨hold, hcap'⟩ := h ⟨w, .udp item, target⟩ (mem_replace.mpr (Or.inl rfl))
    have hold' : UdpEntry offset item target := hold
    have htarget : target.cap ≤ 65535 := hcap'
    have hlen := target.len_le
    -- every datagram takes a byte, so the counter cannot wrap
    have hcount : item.numMerged.toNat + 1 < 2 ^ 16 := by
      have hle := hold'.merged.count_le
      rw [length_drop, Buffer.length_pkt] at hle
      omega
    obtain ⟨hnew, -⟩ := hold'.merge hreads hkey hcan hcount
    -- the merge fits the array of the buffer
    have hroom : (target.pkt offset).length + ((bufferAt batch i).pkt offset).length -
        (item.iphLen + udphLen) ≤ target.cap - offset - offset := by
      unfold udpCoalesceCheck at hcheck
      simp only at hcheck
      by_contra hnot
      rw [if_pos (Nat.lt_of_not_le hnot)] at hcheck
      cases hcheck
    have hnewCap : (udpMergedBuffer (bufferAt batch i) target item offset).cap = target.cap := by
      refine Buffer.cap_append ?_
      have hfits := (transportAt_fits hold'.transport).2.2
      have hoff := hold'.offset_le
      have hmin : minTransportLen ipprotoUDP = udphLen := rfl
      have hlen' := Buffer.length_pkt target offset
      rw [length_drop]
      omega
    have hudp : (⟨w, .udp { item with numMerged := item.numMerged + 1 },
        udpMergedBuffer (bufferAt batch i) target item offset⟩ : Entry).Tcp offset batch :=
      ⟨hnew, hnewCap ▸ htarget⟩
    refine ⟨⟨forall_replace h hudp, fun hex => exists_replace hex ?_⟩,
      perm_entrySegments_replace ?_, ?_, fun item hitem => MoveLabel.noConfusion hitem⟩
    · rintro ⟨item', hitem', -⟩
      cases hitem'
    · -- no datagram is a TCP segment, before or after
      have hnone := tcpSegment_of_udp hreads.transport
      have hnone' := tcpSegment_of_udp hold'.transport
      have hnone'' := tcpSegment_of_udp hnew.transport
      simp only [Entry.segments, hnone, hnone', hnone'', toList_none, append_nil]
      exact List.Perm.refl _
    · exact fun _ hall => forall_replace hall (showsPSH_of_ne fun _ => Held.noConfusion)

end Step

/-! ## §4 The whole batch -/

section Batch

variable {e : Endian} {order : MapOrder} {canUDPGRO : Bool} {offset outOffset : ℕ}
    {batch : List Buffer}
  {outBuffs : List Bytes} {n : ℕ}

theorem batchSegments_take_succ {i : ℕ} (hi : i < batch.length) :
    batchSegments offset (batch.take (i + 1)) = batchSegments offset (batch.take i) ++
      (tcpSegment ((bufferAt batch i).pkt offset)).toList := by
  rw [take_succ_bufferAt hi, batchSegments, filterMap_append, filterMap_cons]
  cases tcpSegment ((bufferAt batch i).pkt offset) <;> rfl

theorem cap_bufferAt (hcap : ∀ b ∈ batch, b.cap ≤ 65535) {i : ℕ} (hi : i < batch.length) :
    (bufferAt batch i).cap ≤ 65535 := by
  rw [bufferAt, getD_eq_getElem _ _ hi]
  exact hcap _ (getElem_mem hi)

/-- The segments of the packets before `k` are in the entries; a flag is hidden if and only if a
packet has been put in front of an item with the flag. -/
structure Conserved (e : Endian) (canUDPGRO : Bool) (offset : ℕ) (batch : List Buffer) (k : ℕ)
    (entries : List Entry) : Prop where
  tcp : ∀ x ∈ entries, x.Tcp offset batch
  perm : (entrySegments offset entries).Perm (batchSegments offset (batch.take k))
  shows : NoHiddenPSH e canUDPGRO offset batch k → ∀ x ∈ entries, x.ShowsPSH offset
  hides : ¬NoHiddenPSH e canUDPGRO offset batch k → ∃ x ∈ entries, x.HidesPSH offset

theorem NoHiddenPSH.mono {k : ℕ} (h : NoHiddenPSH e canUDPGRO offset batch n) (hk : k ≤ n) :
    NoHiddenPSH e canUDPGRO offset batch k :=
  fun i st item hi => h i st item (lt_of_lt_of_le hi hk)

/-- Every segment of the batch is in an entry. -/
theorem Reached.conserved {st : GroState} (h : Reached e canUDPGRO offset batch n st)
    (hn : n ≤ batch.length) (hcap : ∀ b ∈ batch, b.cap ≤ 65535)
    (hfits : FitIndices e canUDPGRO offset batch n)
    (hstale : NoStaleHeader e canUDPGRO offset batch n) :
    ∃ entries, Represents batch n st entries ∧ Conserved e canUDPGRO offset batch n entries := by
  refine h.induction (P := Conserved e canUDPGRO offset batch) hfits ?_ ?_
  · refine ⟨fun _ hx => absurd hx not_mem_nil, List.Perm.refl _,
      fun _ _ hx => absurd hx not_mem_nil, fun hnot => absurd ?_ hnot⟩
    exact fun _ _ _ hi => absurd hi (not_lt_zero _)
  · rintro i st entries entries' hi hst hrepresents hold ⟨hlow, hhigh, entries₁, hdrops, hmove⟩
    have hi' := lt_of_lt_of_le hi hn
    obtain ⟨hkept₁, hsame, hshows₁⟩ :=
      drops_segments hold.tcp (fun item => hstale i st item hi hst) hdrops
    have hadds :=
      move_segments hkept₁.tcp hlow hhigh (cap_bufferAt hcap hi') hmove
    refine ⟨hadds.tcp, ?_, ?_, ?_⟩
    · -- the segment of the packet is put in front by the move, and behind in the batch
      rw [batchSegments_take_succ hi']
      have hperm := hadds.perm
      rw [hsame] at hperm
      exact (hperm.trans (hold.perm.append_left _)).trans perm_append_comm
    · intro hno
      exact hadds.shows (fun item => hno i st item (lt_succ_self i) hst)
        (hshows₁ (hold.shows (hno.mono (le_succ i))))
    · -- the flag has been hidden before, or is hidden now
      intro hnot
      by_cases hbefore : NoHiddenPSH e canUDPGRO offset batch i
      · by_contra hshown
        refine hnot fun k st' item hk hst' hlabel => ?_
        rcases Nat.lt_succ_iff_lt_or_eq.mp hk with hk | rfl
        · exact hbefore k st' item hk hst' hlabel
        · cases hst'.symm.trans hst
          by_contra hset
          exact hshown (hadds.hidesNow item hlabel (Bool.eq_true_of_not_eq_false hset))
      · exact hadds.hides (hkept₁.hides (hold.hides hbefore))

theorem expand_all {st st' : GroState} {entries : List Entry}
    (hrepresents : Represents batch n st entries)
    (htcp : ∀ x ∈ entries, x.Tcp offset batch) (hlow : entries ≠ [] → virtioNetHdrLen ≤ offset)
    (hroom : EnoughRoom outBuffs outOffset) (htoWrite : st'.toWrite = st.toWrite)
    (hbufs : st'.bufs = accountedBufs e order offset st) :
    ∃ outs, st'.toWrite.mapM (fun w => expand e offset outBuffs outOffset (st'.bufs w)) =
      some outs ∧
      outs.flatten.filterMap tcpSegment = entries.flatMap (Entry.outSegments offset) := by
  rw [htoWrite, hrepresents.toWrite]
  have heach : ∀ x ∈ entries, ∃ outs,
      expand e offset outBuffs outOffset (st'.bufs x.index) = some outs ∧
        outs.filterMap tcpSegment = x.outSegments offset := by
    intro x hx
    rw [hbufs, hrepresents.accounted hx]
    exact (htcp x hx).expand (hlow (ne_nil_of_mem hx)) hroom
  clear hrepresents htcp hlow
  induction entries with
  | nil => exact ⟨[], rfl, rfl⟩
  | cons x entries ih =>
    obtain ⟨out, hout, hsegments⟩ := heach x mem_cons_self
    obtain ⟨outs, houts, hrest⟩ := ih fun y hy => heach y (mem_cons_of_mem _ hy)
    refine ⟨out :: outs, ?_, ?_⟩
    · rw [map_cons, mapM_cons, hout, houts]
      rfl
    · rw [flatten_cons, filterMap_append, hsegments, hrest, flatMap_cons]

theorem countP_itemSegments {item : TcpGROItem} {b : Buffer} (h : TcpEntry offset item b)
    (psh : Bool) :
    (itemSegments offset item psh b).countP TcpSegment.psh = if psh then 1 else 0 :=
  countP_train psh _ h.chunks_ne_nil

/-- No PSH flag is added, and a hidden one is missing. -/
theorem countP_outSegments {x : Entry} (h : x.Tcp offset batch) :
    (x.outSegments offset).countP TcpSegment.psh ≤ (x.segments offset).countP TcpSegment.psh ∧
      (x.HidesPSH offset →
        (x.outSegments offset).countP TcpSegment.psh <
          (x.segments offset).countP TcpSegment.psh) := by
  unfold Entry.Tcp at h
  unfold Entry.outSegments Entry.segments
  cases hheld : x.held with
  | raw | udp =>
    refine ⟨le_refl _, ?_⟩
    rintro ⟨item, hitem, -⟩
    rw [hheld] at hitem
    cases hitem
  | tcp item =>
    rw [hheld] at h
    simp only [countP_itemSegments h.1]
    constructor
    · cases hpsh : tcpPSH (x.buf.pkt offset) item.iphLen with
      | false => exact zero_le _
      | true => rw [h.1.psh hpsh]
    · rintro ⟨item', hitem', -, hset, hhidden⟩
      rw [hheld] at hitem'
      cases hitem'
      simp [hset, hhidden]

/-- **All segments come back** if and only if no packet is put in front of an item with the PSH
flag, where the indices of items fit and no dropped item has a stale header. -/
theorem handleGRO_lossless_iff {st : GroState}
    (h : handleGRO e order canUDPGRO offset batch = .ok st)
    (hcap : ∀ b ∈ batch, b.cap ≤ 65535) (hroom : EnoughRoom outBuffs outOffset)
    (hfits : FitIndices e canUDPGRO offset batch batch.length)
    (hstale : NoStaleHeader e canUDPGRO offset batch batch.length) :
    Lossless e offset outBuffs outOffset batch st ↔
    NoHiddenPSH e canUDPGRO offset batch batch.length := by
  obtain ⟨st₀, hreached, htoWrite, hbufs⟩ := handleGRO_ok h
  obtain ⟨entries, hrepresents, hconserved⟩ := hreached.conserved (le_refl _) hcap hfits hstale
  have htcp := hconserved.tcp
  have hperm := hconserved.perm
  rw [take_length] at hperm
  obtain ⟨outs, houts, hsegments⟩ :=
    expand_all hrepresents htcp (hrepresents.offset_le hreached) hroom htoWrite hbufs
  constructor
  · -- a hidden flag is missing from the flags that come back
    rintro ⟨outs', houts', hback⟩
    by_contra hnot
    cases houts.symm.trans houts'
    rw [hsegments] at hback
    have hcount := (hback.trans hperm.symm).countP_eq TcpSegment.psh
    have hlt : ((entries.map fun x => (x.outSegments offset).countP TcpSegment.psh)).sum <
        ((entries.map fun x => (x.segments offset).countP TcpSegment.psh)).sum := by
      refine sum_lt_sum _ _ (fun x hx => (countP_outSegments (htcp x hx)).1) ?_
      obtain ⟨x, hx, hhidden⟩ := hconserved.hides hnot
      exact ⟨x, hx, (countP_outSegments (htcp x hx)).2 hhidden⟩
    rw [entrySegments, countP_flatMap, countP_flatMap] at hcount
    exact Nat.ne_of_lt hlt hcount
  · intro hno
    refine ⟨outs, houts, ?_⟩
    -- no flag is hidden, so the last segment of each item shows what the item holds
    have hsame : entries.flatMap (Entry.outSegments offset) = entrySegments offset entries := by
      refine flatMap_congr fun x hx => ?_
      have hshown := hconserved.shows hno x hx
      unfold Entry.outSegments Entry.segments
      cases hheld : x.held with
      | raw => rfl
      | udp item => rfl
      | tcp item => simp only [hshown item hheld]
    rw [hsegments, hsame]
    exact hperm

end Batch

/-! ## §5 Two batches -/

/-- A TCP segment with a payload of one byte from 10.0.0.1, port 1 to 10.0.0.2, port 2. -/
def tcpPacket (seq flags : Byte) (checksum : Bytes) (payload : Byte) : Bytes :=
  [69, 0, 0, 41, 0, 0, 0, 0, 64, 6, 102, 205, 10, 0, 0, 1, 10, 0, 0, 2, 0, 1, 0, 2, 0, 0, 0, seq, 0,
    0, 0, 9, 80, flags, 0, 0] ++ checksum ++ [0, 0, payload]

/-- A segment with the PSH flag that has overtaken the one in front of it. -/
def pushedFirst : List Buffer :=
  [packetBuffer (tcpPacket 101 24 [89, 88] 66), packetBuffer (tcpPacket 100 16 [90, 97] 65)]

/-- The same segments in their order. -/
def pushedLast : List Buffer :=
  [packetBuffer (tcpPacket 100 16 [90, 97] 65), packetBuffer (tcpPacket 101 24 [89, 88] 66)]

/-- The payloads and PSH flags that come back from what is written for a batch. -/
def expandedFlags (outBuffs : List Bytes) (batch : List Buffer) : Option (List (Bytes × Bool)) :=
  match handleGRO .little insertionOrder true 10 batch with
  | .ok st => (st.toWrite.mapM fun w => expand .little 10 outBuffs 0 (st.bufs w)).map fun outs =>
      (outs.flatten.filterMap tcpSegment).map fun s => (s.payload, s.psh)
  | .error _ => none

/-- The PSH flag is lost when the segment in front is merged into the buffer. -/
theorem pushed_flag_hidden :
    expandedFlags (List.replicate 4 (List.replicate 100 0)) pushedFirst =
      some [([65], false), ([66], false)] ∧
      (batchSegments 10 pushedFirst).map (fun s => (s.payload, s.psh)) =
        [([66], true), ([65], false)] ∧
      ∃ st, handleGRO .little insertionOrder true 10 pushedFirst = .ok st ∧
        ¬Lossless .little 10 (List.replicate 4 (List.replicate 100 0)) 0 pushedFirst st := by
  have hflags : expandedFlags (replicate 4 (replicate 100 0)) pushedFirst =
      some [([65], false), ([66], false)] := by decide +kernel
  have hbatch : (batchSegments 10 pushedFirst).map (fun s => (s.payload, s.psh)) =
      [([66], true), ([65], false)] := by decide +kernel
  refine ⟨hflags, hbatch, ?_⟩
  unfold expandedFlags at hflags
  split at hflags
  · next st hst =>
    refine ⟨st, hst, ?_⟩
    rintro ⟨outs, houts, hperm⟩
    rw [houts, map_some] at hflags
    have hmapped := hperm.map fun s => (s.payload, s.psh)
    rw [hbatch, some.inj hflags] at hmapped
    exact absurd hmapped (by decide)
  · cases hflags

/-- The iteration drops no item and puts no packet in front of another. -/
def InOrder (batch : List Buffer) (i : ℕ) : Bool :=
  match groLoop .little true 10 0 i (groInit batch) with
  | .ok st =>
    match stepDeleted .little true 10 i st, stepLabel .little true 10 i st with
    | _ :: _, _ => false
    | [], .tcpMerge .prepend _ => false
    | [], _ => true
  | .error _ => true

theorem InOrder.of_reached {batch : List Buffer} {i : ℕ} {st : GroState}
    (h : InOrder batch i = true) (hst : Reached .little true 10 batch i st) :
    stepDeleted .little true 10 i st = [] ∧ ∀ item, stepLabel .little true 10 i st ≠
      .tcpMerge .prepend item := by
  unfold InOrder at h
  rw [show groLoop .little true 10 0 i (groInit batch) = .ok st from hst] at h
  dsimp only at h
  split at h
  · cases h
  · cases h
  · next hdeleted hlabel => exact ⟨hdeleted, hlabel⟩

/-- In their order nothing is dropped, and the second segment is put behind the first. -/
theorem handleGRO_lossless_pushedLast :
    ∃ st, handleGRO .little insertionOrder true 10 pushedLast = .ok st ∧
      Lossless .little 10 (List.replicate 65535 (List.replicate 65535 0)) 0 pushedLast st := by
  have horder : ∀ i < 2, InOrder pushedLast i = true := by decide +kernel
  have hfit : FitIndices .little true 10 pushedLast pushedLast.length :=
    fitIndices_of_length (by decide)
  have hcap : ∀ b ∈ pushedLast, b.cap ≤ 65535 := by decide
  have hroom : EnoughRoom (replicate 65535 (replicate 65535 0)) 0 := by
    refine ⟨by rw [length_replicate], fun buf hbuf => ?_⟩
    rw [eq_of_mem_replicate hbuf, length_replicate]
  have hstale : NoStaleHeader .little true 10 pushedLast pushedLast.length := by
    intro i st item hi hst hitem
    rw [(InOrder.of_reached (horder i hi) hst).1] at hitem
    cases hitem
  have hno : NoHiddenPSH .little true 10 pushedLast pushedLast.length := by
    intro i st item hi hst hlabel
    exact absurd hlabel ((InOrder.of_reached (horder i hi) hst).2 item)
  have hok : (handleGRO .little insertionOrder true 10 pushedLast).toOption.isSome = true := by
    decide +kernel
  cases hst : handleGRO .little insertionOrder true 10 pushedLast with
  | error err => rw [hst] at hok; cases hok
  | ok st => exact ⟨st, rfl, (handleGRO_lossless_iff hst hcap hroom hfit hstale).mpr hno⟩

end AmneziaWG.Tun
