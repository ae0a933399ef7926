import AmneziaWG.Tun.Gro.Order

/-!
# Runs on the Same Packets

Two batches with the same packets, whatever stands in front of them, are treated in the same way:
the tables, the indices to write and the packets agree after every iteration.

## Main results

- `SameRun.groStep`: an iteration on both sides, with the same items dropped and the same move.
- `Reached.sameRun`: the two runs side by side.
-/

namespace AmneziaWG.Tun

open AmneziaWG.Lib List Option Nat Function

/-! ## §1 Buffers with the same packet -/

/-- Two buffers of one size with the same packet. -/
structure Alike (offset : ℕ) (b b' : Buffer) : Prop where
  cap : b'.cap = b.cap
  length : b'.bytes.length = b.bytes.length
  pkt : b'.pkt offset = b.pkt offset

section Alike

variable {offset : ℕ} {b b' : Buffer}

theorem Alike.refl (b : Buffer) : Alike offset b b := ⟨rfl, rfl, rfl⟩

theorem Alike.symm (h : Alike offset b b') : Alike offset b' b :=
  ⟨h.cap.symm, h.length.symm, h.pkt.symm⟩

theorem Alike.append (h : Alike offset b b') (data : Bytes) :
    Alike offset (b.append data) (b'.append data) where
  cap := by simp only [Buffer.append, length_append, h.cap, h.length]
  length := by simp only [Buffer.append, length_append, h.length]
  pkt := by
    have hpkt : b'.bytes.drop offset = b.bytes.drop offset := h.pkt
    simp only [Buffer.append, Buffer.pkt, drop_append, h.length, hpkt]

theorem Alike.patch (h : Alike offset b b') (off : ℕ) (src : Bytes) :
    Alike offset (b.patch (offset + off) src) (b'.patch (offset + off) src) where
  cap := h.cap
  length := by simp only [Buffer.patch, patch_length, h.length]
  pkt := by
    by_cases hoffset : offset ≤ b.bytes.length
    · have hoffset' : offset ≤ b'.bytes.length := h.length ▸ hoffset
      rw [Buffer.pkt_patch hoffset, Buffer.pkt_patch hoffset', h.pkt]
    · -- there is no packet to change
      have hnone : ∀ x : Buffer, x.bytes.length = b.bytes.length → x.pkt offset = [] :=
        fun x hx => drop_eq_nil_of_le (by omega)
      rw [hnone (b'.patch (offset + off) src) ((patch_length ..).trans h.length),
        hnone (b.patch (offset + off) src) (patch_length ..)]

theorem Alike.patch_front (b : Buffer) {off : ℕ} {src : Bytes}
    (hfront : off + src.length ≤ offset) :
    Alike offset b (b.patch off src) :=
  ⟨rfl, patch_length .., drop_patch _ hfront⟩

theorem Alike.encodeHdr (h : Alike offset b b') (hlow : virtioNetHdrLen ≤ offset) (e : Endian)
    (hdr : VirtioNetHdr) : Alike offset (b.encodeHdr e offset hdr) (b'.encodeHdr e offset hdr) where
  cap := h.cap
  length := by simp only [Buffer.encodeHdr, Buffer.patch, patch_length, h.length]
  pkt := by rw [Buffer.pkt_encodeHdr e hlow, Buffer.pkt_encodeHdr e hlow, h.pkt]

end Alike

/-! ## §2 States with the same packets -/

/-- Two states with the same tables and the same packets. -/
structure SameRun (offset : ℕ) (st st' : GroState) : Prop where
  bufs : ∀ w, Alike offset (st.bufs w) (st'.bufs w)
  tcpTable : st'.tcpTable = st.tcpTable
  udpTable : st'.udpTable = st.udpTable
  toWrite : st'.toWrite = st.toWrite

section Update

variable {offset : ℕ} {bufs bufs' : ℕ → Buffer}

theorem alike_update (h : ∀ w, Alike offset (bufs w) (bufs' w)) {k : ℕ} {b b' : Buffer}
    (hb : Alike offset b b') :
    ∀ w, Alike offset (Function.update bufs k b w) (Function.update bufs' k b' w) := by
  intro w
  by_cases hw : w = k
  · subst hw
    rw [update_self, update_self]
    exact hb
  · rw [update_of_ne hw, update_of_ne hw]
    exact h w

theorem alike_tcpMerge (h : ∀ w, Alike offset (bufs w) (bufs' w)) (mode : CanCoalesce) (pktI : ℕ)
    (m : TcpMeta) (item : TcpGROItem) :
    ∀ w, Alike offset (tcpMerge mode bufs pktI m item offset w)
      (tcpMerge mode bufs' pktI m item offset w) := by
  have htarget := h item.bufsIndex.toNat
  have hpkt := h pktI
  simp only [tcpMerge, htarget.pkt, hpkt.pkt]
  split_ifs
  · exact alike_update (alike_update h htarget) (hpkt.append _)
  · -- the flags byte is one of the packet
    have hflags : byteAt (bufs' item.bufsIndex.toNat).bytes
      (offset + item.iphLen + tcpFlagsOffset) =
        byteAt (bufs item.bufsIndex.toNat).bytes (offset + item.iphLen + tcpFlagsOffset) := by
      have hbyte : ∀ b : Buffer, byteAt b.bytes (offset + item.iphLen + tcpFlagsOffset) =
          byteAt (b.pkt offset) (item.iphLen + tcpFlagsOffset) := by
        intro b
        simp [byteAt, Buffer.pkt, add_assoc]
      rw [hbyte, hbyte, htarget.pkt]
    rw [hflags, add_assoc]
    exact alike_update h ((htarget.patch _ _).append _)
  · exact alike_update h (htarget.append _)

end Update

section Checks

variable {e : Endian} {offset : ℕ} {buf buf' target target' : Buffer}

theorem tcpCoalesceCheck_alike (hbuf : Alike offset buf buf')
    (htarget : Alike offset target target')
    (mode : CanCoalesce) (m : TcpMeta) (item : TcpGROItem) (isV6 : Bool) :
    tcpCoalesceCheck e mode buf' m item target' offset isV6 =
      tcpCoalesceCheck e mode buf m item target offset isV6 := by
  have hhead : (if mode = .prepend then buf' else target').cap = (if mode = .prepend then buf
      else target).cap := by
    split_ifs
    · exact hbuf.cap
    · exact htarget.cap
  simp only [tcpCoalesceCheck, hbuf.pkt, htarget.pkt, hhead]

theorem udpCoalesceCheck_alike (hbuf : Alike offset buf buf')
    (htarget : Alike offset target target') (item : UdpGROItem) (isV6 : Bool) :
    udpCoalesceCheck e buf' item target' offset isV6 =
      udpCoalesceCheck e buf item target offset isV6 := by
  simp only [udpCoalesceCheck, hbuf.pkt, htarget.pkt, htarget.cap]

end Checks

/-! ## §3 One iteration -/

section Step

variable {e : Endian} {canUDPGRO : Bool} {offset i : ℕ} {st st' : GroState}

/-- The loop over the items of a flow takes the same decisions. -/
theorem SameRun.tcpScan (h : SameRun offset st st') (isV6 : Bool) (m : TcpMeta)
    (items : List (TcpGROItem × ℕ)) :
    SameRun offset (tcpScan e offset i isV6 m items st).state
      (tcpScan e offset i isV6 m items st').state ∧
      (tcpScan e offset i isV6 m items st').ended = (tcpScan e offset i isV6 m items st).ended ∧
      (tcpScan e offset i isV6 m items st').deleted =
        (tcpScan e offset i isV6 m items st).deleted := by
  induction items generalizing st st' with
  | nil => exact ⟨h, rfl, rfl⟩
  -- the check reads the packets only, so both scans take the same branch
  | cons head rest ih =>
    obtain ⟨item, j⟩ := head
    have hbuf := h.bufs i
    have htarget := h.bufs item.bufsIndex.toNat
    simp only [Tun.tcpScan, hbuf.pkt, htarget.pkt, tcpCoalesceCheck_alike hbuf htarget]
    split_ifs
    · exact ih h
    · cases tcpCoalesceCheck e _ (st.bufs i) m item (st.bufs item.bufsIndex.toNat) offset isV6 with
      | success =>
        refine ⟨⟨alike_tcpMerge h.bufs _ i m item, ?_, h.udpTable, h.toWrite⟩, rfl, rfl⟩
        show st'.tcpTable.updateAt _ j _ = st.tcpTable.updateAt _ j _
        rw [h.tcpTable]
      | itemInvalidCSum =>
        have hdropped : SameRun offset { st with tcpTable := st.tcpTable.deleteAt item.key j }
            { st' with tcpTable := st'.tcpTable.deleteAt item.key j } :=
          ⟨h.bufs, by simp only [h.tcpTable], h.udpTable, h.toWrite⟩
        obtain ⟨hstate, hended, hdeleted⟩ := ih hdropped
        exact ⟨hstate, hended, congrArg (item :: ·) hdeleted⟩
      | pktInvalidCSum => exact ⟨h, rfl, rfl⟩
      | insufficientCap => exact ih h
      | pshEnding => exact ih h

theorem SameRun.tcpScanFlow (h : SameRun offset st st') (isV6 : Bool) (m : TcpMeta) :
    SameRun offset (tcpScanFlow e offset i isV6 m st).state
      (tcpScanFlow e offset i isV6 m st').state ∧
      (tcpScanFlow e offset i isV6 m st').ended = (tcpScanFlow e offset i isV6 m st).ended ∧
      (tcpScanFlow e offset i isV6 m st').deleted = (tcpScanFlow e offset i isV6 m st).deleted := by
  unfold Tun.tcpScanFlow
  rw [(h.bufs i).pkt, h.tcpTable]
  exact h.tcpScan isV6 m _

theorem SameRun.udpTryCoalesce (h : SameRun offset st st') (isV6 : Bool) (m : UdpMeta)
    (item : UdpGROItem) :
    udpTryCoalesce e offset i isV6 m item st' = udpTryCoalesce e offset i isV6 m item st := by
  have hbuf := h.bufs i
  have htarget := h.bufs item.bufsIndex.toNat
  simp only [Tun.udpTryCoalesce, hbuf.pkt, htarget.pkt, udpCoalesceCheck_alike hbuf htarget]

theorem SameRun.stepDeleted (h : SameRun offset st st') :
    stepDeleted e canUDPGRO offset i st' = stepDeleted e canUDPGRO offset i st := by
  simp only [Tun.stepDeleted, (h.bufs i).pkt]
  split
  · split
    · rfl
    · exact (h.tcpScanFlow _ _).2.2
  · rfl

theorem SameRun.stepLabel (h : SameRun offset st st') :
    stepLabel e canUDPGRO offset i st' = stepLabel e canUDPGRO offset i st := by
  simp only [Tun.stepLabel, (h.bufs i).pkt, h.udpTable,
    fun isV6 m => (h.tcpScanFlow (e := e) (i := i) isV6 m).2.1, h.udpTryCoalesce]

theorem SameRun.tcpGRO (h : SameRun offset st st') (isV6 : Bool) {s : GroState} {result : GroResult}
    (hok : tcpGRO e offset i isV6 st = some (s, result)) :
    ∃ s', tcpGRO e offset i isV6 st' = some (s', result) ∧ SameRun offset s s' := by
  simp only [Tun.tcpGRO, (h.bufs i).pkt] at hok ⊢
  cases hmeta : tcpMeta ((st.bufs i).pkt offset) isV6 with
  | none =>
    simp only [hmeta] at hok ⊢
    cases hok
    exact ⟨st', rfl, h⟩
  | some m =>
    obtain ⟨hstate, hended, -⟩ := h.tcpScanFlow (e := e) (i := i) isV6 m
    simp only [hmeta, hended] at hok ⊢
    cases hend : (Tun.tcpScanFlow e offset i isV6 m st).ended with
    | merged mode item =>
      simp only [hend] at hok ⊢
      cases hok
      exact ⟨_, rfl, hstate⟩
    | invalidPacket =>
      simp only [hend] at hok ⊢
      cases hok
      exact ⟨_, rfl, hstate⟩
    | exhausted =>
      simp only [hend] at hok ⊢
      -- no item took the packet, which becomes one in both tables
      obtain ⟨tcpTable, hpush, heq⟩ := map_eq_some_iff.mp hok
      cases heq
      rw [hstate.tcpTable, hpush]
      exact ⟨_, rfl, hstate.bufs, rfl, hstate.udpTable, hstate.toWrite⟩

theorem SameRun.udpGRO (h : SameRun offset st st') (isV6 : Bool) {s : GroState} {result : GroResult}
    (hok : udpGRO e offset i isV6 st = some (s, result)) :
    ∃ s', udpGRO e offset i isV6 st' = some (s', result) ∧ SameRun offset s s' := by
  simp only [Tun.udpGRO, h.udpTryCoalesce] at hok ⊢
  rw [(h.bufs i).pkt, h.udpTable]
  cases hmeta : udpMeta ((st.bufs i).pkt offset) isV6 with
  | none =>
    simp only [hmeta] at hok ⊢
    cases hok
    exact ⟨st', rfl, h⟩
  | some m =>
    simp only [hmeta] at hok ⊢
    -- a packet that becomes an item of its own
    have hinsert : ∀ known : Bool,
        ((st.udpTable.push (newUDPFlowKey ((st.bufs i).pkt offset) isV6 m.iphLen)
          (udpItem ((st.bufs i).pkt offset) m isV6 i known)).map fun udpTable =>
            ({ st with udpTable }, GroResult.tableInsert)) = some (s, result) →
        ∃ s', ((st.udpTable.push (newUDPFlowKey ((st.bufs i).pkt offset) isV6 m.iphLen)
          (udpItem ((st.bufs i).pkt offset) m isV6 i known)).map fun udpTable =>
            ({ st' with udpTable }, GroResult.tableInsert)) = some (s', result) ∧
              SameRun offset s s' := by
      intro known hok
      obtain ⟨udpTable, hpush, heq⟩ := map_eq_some_iff.mp hok
      cases heq
      rw [hpush]
      exact ⟨_, rfl, h.bufs, h.tcpTable, rfl, h.toWrite⟩
    cases hlast : ((st.udpTable.itemsByFlow.lookup
        (newUDPFlowKey ((st.bufs i).pkt offset) isV6 m.iphLen)).getD []).getLast? with
    | none =>
      simp only [hlast] at hok ⊢
      exact hinsert false hok
    | some item =>
      simp only [hlast] at hok ⊢
      cases htry : Tun.udpTryCoalesce e offset i isV6 m item st with
      | none =>
        simp only [htry] at hok ⊢
        exact hinsert false hok
      | some check =>
        cases check with
        | success =>
          simp only [htry] at hok ⊢
          cases hok
          refine ⟨_, rfl, ?_, h.tcpTable, rfl, h.toWrite⟩
          simp only [udpMerge, (h.bufs i).pkt]
          exact alike_update h.bufs ((h.bufs _).append _)
        | pktInvalidCSum =>
          simp only [htry] at hok ⊢
          exact hinsert true hok
        | insufficientCap | pshEnding | itemInvalidCSum =>
          simp only [htry] at hok ⊢
          exact hinsert false hok

/-- What follows the look-up of a packet, when both sides have found the same. -/
theorem sameRun_finish (hlow : virtioNetHdrLen ≤ offset) {s : GroState}
    (found found' : Option (GroState × GroResult))
    (hfound : ∀ s₁ result, found = some (s₁, result) →
      ∃ s₁', found' = some (s₁', result) ∧ SameRun offset s₁ s₁')
    (hok : groFinish e offset i found = .ok s) :
    ∃ s', groFinish e offset i found' = .ok s' ∧ SameRun offset s s' := by
  cases found with
  | none => cases hok
  | some pair =>
    obtain ⟨s₁, result⟩ := pair
    obtain ⟨s₁', rfl, h₁⟩ := hfound s₁ result rfl
    cases result with
    | noop =>
      cases hok
      exact ⟨_, rfl, alike_update h₁.bufs ((h₁.bufs i).encodeHdr hlow e _), h₁.tcpTable,
        h₁.udpTable, congrArg (· ++ [i]) h₁.toWrite⟩
    | tableInsert =>
      cases hok
      exact ⟨_, rfl, h₁.bufs, h₁.tcpTable, h₁.udpTable, congrArg (· ++ [i]) h₁.toWrite⟩
    | coalesced =>
      cases hok
      exact ⟨_, rfl, h₁⟩

/-- An iteration on both sides. -/
theorem SameRun.groStep (h : SameRun offset st st') {s : GroState}
    (hok : groStep e canUDPGRO offset i st = .ok s) :
    ∃ s', groStep e canUDPGRO offset i st' = .ok s' ∧ SameRun offset s s' := by
  obtain ⟨hlow, hhigh⟩ := groStep_offset hok
  rw [groStep_eq hlow hhigh] at hok
  rw [groStep_eq hlow (by rw [(h.bufs i).length]; exact hhigh)]
  simp only [groLookup, (h.bufs i).pkt] at hok ⊢
  cases hcandidate : packetIsGROCandidate ((st.bufs i).pkt offset) canUDPGRO with
  | none =>
    simp only [hcandidate] at hok ⊢
    refine sameRun_finish hlow (some (st, .noop)) (some (st', .noop))
      (fun s₁ result hsome => ?_) hok
    cases hsome
    exact ⟨st', rfl, h⟩
  | tcp isV6 =>
    simp only [hcandidate] at hok ⊢
    exact sameRun_finish hlow _ _ (fun s₁ result => h.tcpGRO isV6) hok
  | udp isV6 =>
    simp only [hcandidate] at hok ⊢
    exact sameRun_finish hlow _ _ (fun s₁ result => h.udpGRO isV6) hok

end Step

/-! ## §4 Runs -/

section Run

variable {e : Endian} {canUDPGRO : Bool} {offset n : ℕ} {batch batch' : List Buffer}

/-- Two batches with the same packets, side by side. -/
theorem Reached.sameRun {st : GroState} (h : Reached e canUDPGRO offset batch n st)
    (halike : ∀ w, Alike offset (bufferAt batch w) (bufferAt batch' w)) :
    ∃ st', Reached e canUDPGRO offset batch' n st' ∧ SameRun offset st st' := by
  induction n generalizing st with
  | zero =>
    cases h
    exact ⟨groInit batch', rfl, halike, rfl, rfl, rfl⟩
  | succ n ih =>
    obtain ⟨st₀, hst₀, hstep⟩ := Reached.succ_iff.mp h
    obtain ⟨st₀', hst₀', hsame⟩ := ih hst₀
    obtain ⟨st', hstep', hsame'⟩ := hsame.groStep hstep
    exact ⟨st', Reached.succ_iff.mpr ⟨st₀', hst₀', hstep'⟩, hsame'⟩

end Run

end AmneziaWG.Tun
