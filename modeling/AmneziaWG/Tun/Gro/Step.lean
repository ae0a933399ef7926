import AmneziaWG.Tun.Gro.Table
import Mathlib.Data.List.Induction

/-!
# One Packet of a Batch

What one iteration of `handleGRO` does to the tables, the buffers and the indices to write: items
with an invalid checksum are dropped from the table, and then the packet is written as it is,
becomes an item of its own, or is merged into an item.

## Main results

- `groStep_moves`: every iteration is some drops and one move.
-/

namespace AmneziaWG.Tun

open AmneziaWG.Lib List Option Nat

/-! ## §1 Moves -/

/-- What becomes of the packet of an iteration. -/
inductive MoveLabel where
  | raw
  | tcpInsert
  | tcpMerge (mode : CanCoalesce) (item : TcpGROItem)
  | udpInsert
  | udpMerge (item : UdpGROItem)
  deriving DecidableEq

/-- Items that are dropped one after the other. -/
inductive Drops : GroState → List TcpGROItem → GroState → Prop
  | nil (st : GroState) : Drops st [] st
  | cons {st st' : GroState} {item : TcpGROItem} {deleted : List TcpGROItem} {j : ℕ}
      (hitem : (st.tcpTable.flow item.key)[j]? = some item) (hmerged : item.numMerged = 0)
      (rest : Drops { st with tcpTable := st.tcpTable.deleteAt item.key j } deleted st') :
      Drops st (item :: deleted) st'

section Move

variable (e : Endian) (canUDPGRO : Bool) (offset i : ℕ)

/-- The packet at `i` is moved. -/
inductive Move (st : GroState) : MoveLabel → GroState → Prop
  | raw : Move st .raw { st with
      bufs := Function.update st.bufs i ((st.bufs i).encodeHdr e offset VirtioNetHdr.zero)
      toWrite := st.toWrite ++ [i] }
  | tcpInsert {isV6 : Bool} {m : TcpMeta} {tcpTable : GROTable TcpFlowKey TcpGROItem}
      (hcandidate : packetIsGROCandidate ((st.bufs i).pkt offset) canUDPGRO = .tcp isV6)
      (hmeta : tcpMeta ((st.bufs i).pkt offset) isV6 = some m)
      (hpush : st.tcpTable.push (tcpItem ((st.bufs i).pkt offset) m isV6 i).key
        (tcpItem ((st.bufs i).pkt offset) m isV6 i) = some tcpTable) :
      Move st .tcpInsert { st with tcpTable, toWrite := st.toWrite ++ [i] }
  | tcpMerge {isV6 : Bool} {m : TcpMeta} {mode : CanCoalesce} {item : TcpGROItem} {j : ℕ}
      (hcandidate : packetIsGROCandidate ((st.bufs i).pkt offset) canUDPGRO = .tcp isV6)
      (hmeta : tcpMeta ((st.bufs i).pkt offset) isV6 = some m)
      (hitem : (st.tcpTable.flow item.key)[j]? = some item)
      (hkey : item.key = newTCPFlowKey ((st.bufs i).pkt offset) isV6 m.iphLen)
      (hmode : mode ≠ .unavailable)
      (hcan : tcpPacketsCanCoalesce ((st.bufs i).pkt offset) m item
        ((st.bufs item.bufsIndex.toNat).pkt offset) = mode)
      (hcheck : tcpCoalesceCheck e mode (st.bufs i) m item (st.bufs item.bufsIndex.toNat)
        offset isV6 = .success) :
      Move st (.tcpMerge mode item) { st with
        bufs := tcpMerge mode st.bufs i m item offset
        tcpTable := st.tcpTable.updateAt item.key j (tcpMergedItem mode m item) }
  | udpInsert {isV6 : Bool} {m : UdpMeta} {cSumKnownInvalid : Bool}
      {udpTable : GROTable UdpFlowKey UdpGROItem}
      (hcandidate : packetIsGROCandidate ((st.bufs i).pkt offset) canUDPGRO = .udp isV6)
      (hmeta : udpMeta ((st.bufs i).pkt offset) isV6 = some m)
      (hpush : st.udpTable.push (newUDPFlowKey ((st.bufs i).pkt offset) isV6 m.iphLen)
        (udpItem ((st.bufs i).pkt offset) m isV6 i cSumKnownInvalid) = some udpTable) :
      Move st .udpInsert { st with udpTable, toWrite := st.toWrite ++ [i] }
  | udpMerge {isV6 : Bool} {m : UdpMeta} {item : UdpGROItem}
      (hcandidate : packetIsGROCandidate ((st.bufs i).pkt offset) canUDPGRO = .udp isV6)
      (hmeta : udpMeta ((st.bufs i).pkt offset) isV6 = some m)
      (hitem : (st.udpTable.flow (newUDPFlowKey ((st.bufs i).pkt offset) isV6 m.iphLen)).getLast? =
        some item)
      (hcan : udpPacketsCanCoalesce ((st.bufs i).pkt offset) m item
        ((st.bufs item.bufsIndex.toNat).pkt offset) = .append)
      (hcheck : udpCoalesceCheck e (st.bufs i) item (st.bufs item.bufsIndex.toNat) offset isV6 =
        .success) :
      Move st (.udpMerge item) { st with
        bufs := udpMerge st.bufs i item offset
        udpTable := st.udpTable.updateAt (newUDPFlowKey ((st.bufs i).pkt offset) isV6 m.iphLen)
          ((st.udpTable.flow (newUDPFlowKey ((st.bufs i).pkt offset) isV6 m.iphLen)).length - 1)
          { item with numMerged := item.numMerged + 1 } }

end Move

/-! ## §2 The loop of `tcpGRO` -/

theorem Drops.frame {st st' : GroState} {deleted : List TcpGROItem} (h : Drops st deleted st') :
    st'.bufs = st.bufs ∧ st'.udpTable = st.udpTable ∧ st'.toWrite = st.toWrite := by
  induction h with
  | nil => exact ⟨rfl, rfl, rfl⟩
  | cons _ _ _ ih => exact ih

/-- Only an item that nothing has been merged into is found to be invalid. -/
theorem numMerged_of_itemInvalidCSum {e : Endian} {mode : CanCoalesce} {buf target : Buffer}
    {m : TcpMeta} {item : TcpGROItem} {offset : ℕ} {isV6 : Bool}
    (h : tcpCoalesceCheck e mode buf m item target offset isV6 = .itemInvalidCSum) :
    item.numMerged = 0 := by
  unfold tcpCoalesceCheck at h
  by_contra hmerged
  simp only [hmerged, false_and, if_false] at h
  split_ifs at h

/-- How the loop over the items `pre` of a flow ends, the last item first; `kept` are the items
behind that have been looked at and are still there. -/
theorem tcpScan_spec {e : Endian} {offset pktI : ℕ} {isV6 : Bool} {m : TcpMeta} {key : TcpFlowKey}
    {pre kept : List TcpGROItem} {st : GroState} (hflow : st.tcpTable.flow key = pre ++ kept)
    (hkey : ∀ item ∈ pre, item.key = key) :
    ∃ st₁, Drops st (tcpScan e offset pktI isV6 m pre.zipIdx.reverse st).deleted st₁ ∧
      match (tcpScan e offset pktI isV6 m pre.zipIdx.reverse st).ended with
      | .merged mode item =>
        ∃ j, (st₁.tcpTable.flow item.key)[j]? = some item ∧ item.key = key ∧ mode ≠ .unavailable ∧
          tcpPacketsCanCoalesce ((st.bufs pktI).pkt offset) m item
            ((st.bufs item.bufsIndex.toNat).pkt offset) = mode ∧
          tcpCoalesceCheck e mode (st.bufs pktI) m item (st.bufs item.bufsIndex.toNat) offset isV6 =
            .success ∧
          (tcpScan e offset pktI isV6 m pre.zipIdx.reverse st).state = { st₁ with
            bufs := tcpMerge mode st₁.bufs pktI m item offset
            tcpTable := st₁.tcpTable.updateAt item.key j (tcpMergedItem mode m item) }
      | _ => (tcpScan e offset pktI isV6 m pre.zipIdx.reverse st).state = st₁ := by
  induction pre using reverseRecOn generalizing kept st with
  | nil => exact ⟨st, .nil st, rfl⟩
  | append_singleton pre item ih =>
    have hitem : item.key = key := hkey item (by simp)
    have hget : (st.tcpTable.flow item.key)[pre.length]? = some item := by
      rw [hitem, hflow]
      simp
    have hrest : ∀ x ∈ pre, x.key = key := fun x hx => hkey x (by simp [hx])
    have hzip : (pre ++ [item]).zipIdx.reverse = (item, pre.length) :: pre.zipIdx.reverse := by
      simp [zipIdx_append]
    rw [hzip]
    -- an item that is passed over stays behind the others
    have hpassed : st.tcpTable.flow key = pre ++ (item :: kept) := by
      rw [hflow, append_assoc]
      rfl
    have hskip := ih hpassed hrest
    generalize hcan : tcpPacketsCanCoalesce ((st.bufs pktI).pkt offset) m item
      ((st.bufs item.bufsIndex.toNat).pkt offset) = can
    generalize hcheck : tcpCoalesceCheck e can (st.bufs pktI) m item
      (st.bufs item.bufsIndex.toNat) offset isV6 = check
    by_cases hmode : can = .unavailable
    · simp only [tcpScan, hcan, hmode, if_true]
      exact hskip
    · cases check with
      | success =>
        simp only [tcpScan, hcan, hmode, if_false, hcheck]
        exact ⟨st, .nil st, pre.length, hget, hitem, hmode, trivial, trivial, rfl⟩
      -- the item goes, and the positions of those still to be visited stay
      | itemInvalidCSum =>
        have hdropped : ({ st with tcpTable := st.tcpTable.deleteAt item.key pre.length } :
            GroState).tcpTable.flow key = pre ++ kept := by
          rw [hitem, GROTable.flow_deleteAt, hpassed,
            List.eraseIdx_append_of_length_le (Nat.le_refl _), Nat.sub_self,
            List.eraseIdx_cons_zero]
        obtain ⟨st₁, hdrops, hended⟩ := ih hdropped hrest
        simp only [tcpScan, hcan, hmode, if_false, hcheck]
        exact ⟨st₁, .cons hget (numMerged_of_itemInvalidCSum hcheck) hdrops, hended⟩
      | pktInvalidCSum =>
        simp only [tcpScan, hcan, hmode, if_false, hcheck]
        exact ⟨st, .nil st, rfl⟩
      | insufficientCap | pshEnding =>
        simp only [tcpScan, hcan, hmode, if_false, hcheck]
        exact hskip

/-! ## §3 One iteration -/

section Step

variable (e : Endian) (canUDPGRO : Bool) (offset i : ℕ) (st : GroState)

/-- The items that `tcpGRO` deletes in an iteration. -/
def stepDeleted : List TcpGROItem :=
  match packetIsGROCandidate ((st.bufs i).pkt offset) canUDPGRO with
  | .tcp isV6 =>
    match tcpMeta ((st.bufs i).pkt offset) isV6 with
    | none => []
    | some m => (tcpScanFlow e offset i isV6 m st).deleted
  | _ => []

/-- What an iteration does with its packet. -/
def stepLabel : MoveLabel :=
  let pkt := (st.bufs i).pkt offset
  match packetIsGROCandidate pkt canUDPGRO with
  | .none => .raw
  | .tcp isV6 =>
    match tcpMeta pkt isV6 with
    | none => .raw
    | some m =>
      match (tcpScanFlow e offset i isV6 m st).ended with
      | .merged mode item => .tcpMerge mode item
      | .invalidPacket => .raw
      | .exhausted => .tcpInsert
  | .udp isV6 =>
    match udpMeta pkt isV6 with
    | none => .raw
    | some m =>
      match (st.udpTable.flow (newUDPFlowKey pkt isV6 m.iphLen)).getLast? with
      | none => .udpInsert
      | some item =>
        if udpTryCoalesce e offset i isV6 m item st = some .success then .udpMerge item
          else .udpInsert

end Step

variable {e : Endian} {canUDPGRO : Bool} {offset i : ℕ} {st st' : GroState}

/-- The look-up of the packet of an iteration. -/
def groLookup (e : Endian) (canUDPGRO : Bool) (offset i : ℕ) (st : GroState) :
    Option (GroState × GroResult) :=
  match packetIsGROCandidate ((st.bufs i).pkt offset) canUDPGRO with
  | .tcp isV6 => tcpGRO e offset i isV6 st
  | .udp isV6 => udpGRO e offset i isV6 st
  | .none => some (st, .noop)

/-- What an iteration does behind the look-up. -/
def groFinish (e : Endian) (offset i : ℕ) : Option (GroState × GroResult) → Except GroError GroState
  | none => .error .emptyPool
  | some (st, .noop) => .ok { st with
      bufs := Function.update st.bufs i ((st.bufs i).encodeHdr e offset VirtioNetHdr.zero)
      toWrite := st.toWrite ++ [i] }
  | some (st, .tableInsert) => .ok { st with toWrite := st.toWrite ++ [i] }
  | some (st, .coalesced) => .ok st

theorem groStep_eq (hlow : virtioNetHdrLen ≤ offset) (hhigh : offset < (st.bufs i).bytes.length) :
    groStep e canUDPGRO offset i st = groFinish e offset i (groLookup e canUDPGRO offset i st) := by
  unfold groStep
  rw [if_neg (by omega)]
  rfl

theorem groStep_offset (h : groStep e canUDPGRO offset i st = .ok st') :
    virtioNetHdrLen ≤ offset ∧ offset < (st.bufs i).bytes.length := by
  unfold groStep at h
  by_cases hoffset : offset < virtioNetHdrLen ∨ (offset : ℤ) > ((st.bufs i).bytes.length : ℤ) - 1
  · rw [if_pos hoffset] at h
    cases h
  · omega

theorem groFinish_of_groStep (h : groStep e canUDPGRO offset i st = .ok st') :
    groFinish e offset i (groLookup e canUDPGRO offset i st) = .ok st' := by
  obtain ⟨hlow, hhigh⟩ := groStep_offset h
  rwa [groStep_eq hlow hhigh] at h

theorem groStep_tcp {isV6 : Bool} {m : TcpMeta}
    (hkeyed : ∀ key, ∀ item ∈ st.tcpTable.flow key, item.key = key)
    (hcandidate : packetIsGROCandidate ((st.bufs i).pkt offset) canUDPGRO = .tcp isV6)
    (hmeta : tcpMeta ((st.bufs i).pkt offset) isV6 = some m)
    (h : groStep e canUDPGRO offset i st = .ok st') :
    ∃ st₁, Drops st (stepDeleted e canUDPGRO offset i st) st₁ ∧
      Move e canUDPGRO offset i st₁ (stepLabel e canUDPGRO offset i st) st' := by
  have hflow : st.tcpTable.flow (newTCPFlowKey ((st.bufs i).pkt offset) isV6 m.iphLen) =
      st.tcpTable.flow (newTCPFlowKey ((st.bufs i).pkt offset) isV6 m.iphLen) ++ [] :=
    (append_nil _).symm
  obtain ⟨st₁, hdrops, hended⟩ := tcpScan_spec (e := e) (m := m) hflow (hkeyed _)
  have hscan : tcpScan e offset i isV6 m (st.tcpTable.flow
      (newTCPFlowKey ((st.bufs i).pkt offset) isV6 m.iphLen)).zipIdx.reverse st =
      tcpScanFlow e offset i isV6 m st := rfl
  rw [hscan] at hdrops hended
  obtain ⟨hbufs, -, -⟩ := hdrops.frame
  have hcandidate₁ : packetIsGROCandidate ((st₁.bufs i).pkt offset) canUDPGRO = .tcp isV6 := by
    rw [hbufs]
    exact hcandidate
  have hmeta₁ : tcpMeta ((st₁.bufs i).pkt offset) isV6 = some m := by
    rw [hbufs]
    exact hmeta
  have hdeleted : stepDeleted e canUDPGRO offset i st =
      (tcpScanFlow e offset i isV6 m st).deleted := by
    simp only [stepDeleted, hcandidate, hmeta]
  rw [hdeleted]
  refine ⟨st₁, hdrops, ?_⟩
  replace h := groFinish_of_groStep h
  simp only [groLookup, stepLabel, hcandidate, hmeta, tcpGRO] at h ⊢
  -- how the loop over the items of the flow has ended
  generalize tcpScanFlow e offset i isV6 m st = scan at *
  obtain ⟨state, ended, deleted⟩ := scan
  cases ended with
  | merged mode item =>
    obtain ⟨j, hitem, hkey, hmode, hcan, hcheck, hstate⟩ := hended
    cases h
    rw [← hbufs] at hkey hcan hcheck
    rw [hstate]
    exact Move.tcpMerge hcandidate₁ hmeta₁ hitem hkey hmode hcan hcheck
  | invalidPacket =>
    cases h
    rw [hended]
    exact Move.raw
  -- no item took the packet: it is pushed, if the pool has a slice
  | exhausted =>
    rw [hended, ← hbufs] at h
    cases hpush : st₁.tcpTable.push (tcpItem ((st₁.bufs i).pkt offset) m isV6 i).key
        (tcpItem ((st₁.bufs i).pkt offset) m isV6 i) with
    | none =>
      simp only [hpush, map_none] at h
      cases h
    | some tcpTable =>
      simp only [hpush, map_some] at h
      cases h
      exact Move.tcpInsert hcandidate₁ hmeta₁ hpush

section Udp

variable {isV6 : Bool} {m : UdpMeta}
  (hcandidate : packetIsGROCandidate ((st.bufs i).pkt offset) canUDPGRO = .udp isV6)
  (hmeta : udpMeta ((st.bufs i).pkt offset) isV6 = some m)
include hcandidate hmeta

theorem udpInsert_move (known : Bool)
    (h : groFinish e offset i
      ((st.udpTable.push (newUDPFlowKey ((st.bufs i).pkt offset) isV6 m.iphLen)
      (udpItem ((st.bufs i).pkt offset) m isV6 i known)).map fun udpTable =>
        ({ st with udpTable }, GroResult.tableInsert)) = .ok st') :
    Move e canUDPGRO offset i st .udpInsert st' := by
  cases hpush : st.udpTable.push (newUDPFlowKey ((st.bufs i).pkt offset) isV6 m.iphLen)
      (udpItem ((st.bufs i).pkt offset) m isV6 i known) with
  | none =>
    rw [hpush] at h
    cases h
  | some udpTable =>
    rw [hpush] at h
    cases h
    exact Move.udpInsert hcandidate hmeta hpush

theorem groStep_udp (h : groStep e canUDPGRO offset i st = .ok st') :
    Move e canUDPGRO offset i st (stepLabel e canUDPGRO offset i st) st' := by
  replace h := groFinish_of_groStep h
  simp only [groLookup, stepLabel, hcandidate, hmeta, udpGRO] at h ⊢
  cases hlast : ((st.udpTable.itemsByFlow.lookup
      (newUDPFlowKey ((st.bufs i).pkt offset) isV6 m.iphLen)).getD []).getLast? with
  | none =>
    simp only [hlast, GROTable.flow] at h ⊢
    exact udpInsert_move hcandidate hmeta false h
  | some item =>
    simp only [hlast, GROTable.flow] at h ⊢
    cases htry : udpTryCoalesce e offset i isV6 m item st with
    | none =>
      simp only [htry] at h ⊢
      exact udpInsert_move hcandidate hmeta false h
    | some result =>
      cases result with
      | success =>
        simp only [htry] at h ⊢
        cases h
        have hcan : udpPacketsCanCoalesce ((st.bufs i).pkt offset) m item
            ((st.bufs item.bufsIndex.toNat).pkt offset) = .append := by
          by_contra hcan
          simp [udpTryCoalesce, hcan] at htry
        have hcheck : udpCoalesceCheck e (st.bufs i) item (st.bufs item.bufsIndex.toNat)
            offset isV6 = .success := by
          simpa [udpTryCoalesce, hcan] using htry
        exact Move.udpMerge hcandidate hmeta hlast hcan hcheck
      -- the new item remembers that its checksum does not hold
      | pktInvalidCSum =>
        simp only [htry] at h ⊢
        exact udpInsert_move hcandidate hmeta true h
      | insufficientCap | pshEnding | itemInvalidCSum =>
        simp only [htry] at h ⊢
        exact udpInsert_move hcandidate hmeta false h

end Udp

/-- An iteration drops items of the TCP table and then moves its packet. -/
theorem groStep_moves (hkeyed : ∀ key, ∀ item ∈ st.tcpTable.flow key, item.key = key)
    (h : groStep e canUDPGRO offset i st = .ok st') :
    ∃ st₁, Drops st (stepDeleted e canUDPGRO offset i st) st₁ ∧
      Move e canUDPGRO offset i st₁ (stepLabel e canUDPGRO offset i st) st' := by
  have hfinish := groFinish_of_groStep h
  -- a packet that is not looked up in a table
  have hraw : groFinish e offset i (some (st, .noop)) = .ok st' →
      Move e canUDPGRO offset i st .raw st' := by
    intro h
    cases h
    exact Move.raw
  cases hcandidate : packetIsGROCandidate ((st.bufs i).pkt offset) canUDPGRO with
  | none =>
    simp only [groLookup, hcandidate, stepDeleted, stepLabel] at hfinish ⊢
    exact ⟨st, .nil st, hraw hfinish⟩
  | tcp isV6 =>
    cases hmeta : tcpMeta ((st.bufs i).pkt offset) isV6 with
    | some m => exact groStep_tcp hkeyed hcandidate hmeta h
    | none =>
      simp only [groLookup, hcandidate, hmeta, tcpGRO, stepDeleted, stepLabel] at hfinish ⊢
      exact ⟨st, .nil st, hraw hfinish⟩
  | udp isV6 =>
    have hdeleted : stepDeleted e canUDPGRO offset i st = [] := by
      simp only [stepDeleted, hcandidate]
    rw [hdeleted]
    refine ⟨st, .nil st, ?_⟩
    cases hmeta : udpMeta ((st.bufs i).pkt offset) isV6 with
    | some m => exact groStep_udp hcandidate hmeta h
    | none =>
      simp only [groLookup, hcandidate, hmeta, udpGRO, stepLabel] at hfinish ⊢
      exact hraw hfinish

end AmneziaWG.Tun
