import AmneziaWG.Tun.Gro.Packets

/-!
# What Is to Be Written

An abstract view of a batch: the buffers that are to be written, in order, each with the item that
stands for it in a table.  A packet is put at the end of this list or merged into one of its
buffers; the tables and indices of the code refine it.

## Main results

- `Represents.drops`, `Represents.move`: what an iteration does to the tables and buffers, it does
  to the list of entries.
-/

namespace AmneziaWG.Tun

open AmneziaWG.Lib List Option Nat Function

/-! ## §1 Entries -/

/-- The item of a written buffer: none, for one that is written as it is. -/
inductive Held where
  | raw
  | tcp (item : TcpGROItem)
  | udp (item : UdpGROItem)

/-- The item is one for the buffer at an index. -/
def Held.At : Held → ℕ → Prop
  | .raw, _ => True
  | .tcp item, w => item.bufsIndex.toNat = w
  | .udp item, w => item.bufsIndex.toNat = w

/-- The item, when it is one of a UDP flow. -/
def Held.udpOf (key : UdpFlowKey) : Held → Option UdpGROItem
  | .udp item => if item.key = key then some item else none
  | _ => none

structure Entry where
  index : ℕ
  held : Held
  buf : Buffer

/-- The items of a UDP flow, in the order of their buffers. -/
def udpItems (key : UdpFlowKey) (entries : List Entry) : List UdpGROItem :=
  entries.filterMap fun entry => entry.held.udpOf key

/-- The buffer that `coalesceTCPPackets` makes of the packet in `buf` and the item in `target`. -/
def tcpMergedBuffer (mode : CanCoalesce) (buf target : Buffer) (m : TcpMeta) (item : TcpGROItem)
    (offset : ℕ) : Buffer :=
  let headersLen := item.iphLen + item.tcphLen
  if mode = .prepend then buf.append ((target.pkt offset).drop headersLen)
  else
    let flagsAt := offset + item.iphLen + tcpFlagsOffset
    let head := if m.pshSet then target.patch flagsAt [byteAt target.bytes flagsAt ||| tcpFlagPSH]
      else target
    head.append ((buf.pkt offset).drop headersLen)

/-- The buffer that `coalesceUDPPackets` makes. -/
def udpMergedBuffer (buf target : Buffer) (item : UdpGROItem) (offset : ℕ) : Buffer :=
  target.append ((buf.pkt offset).drop (item.iphLen + udphLen))

/-- Items are dropped; their buffers are then written as they are. -/
inductive EntryDrops : List Entry → List TcpGROItem → List Entry → Prop
  | nil (entries : List Entry) : EntryDrops entries [] entries
  | cons {before behind entries' : List Entry} {w : ℕ} {item : TcpGROItem} {buf : Buffer}
      {deleted : List TcpGROItem} (hindex : item.bufsIndex.toNat = w) (hmerged : item.numMerged = 0)
      (rest : EntryDrops (before ++ ⟨w, .raw, buf⟩ :: behind) deleted entries') :
      EntryDrops (before ++ ⟨w, .tcp item, buf⟩ :: behind) (item :: deleted) entries'

section EntryMove

variable (e : Endian) (canUDPGRO : Bool) (offset i : ℕ) (buf : Buffer)

/-- The packet in `buf`, the one at index `i` of the batch, is moved. -/
inductive EntryMove : List Entry → MoveLabel → List Entry → Prop
  | raw {entries : List Entry} : EntryMove entries .raw
      (entries ++ [⟨i, .raw, buf.encodeHdr e offset VirtioNetHdr.zero⟩])
  | tcpInsert {entries : List Entry} {isV6 : Bool} {m : TcpMeta}
      (hcandidate : packetIsGROCandidate (buf.pkt offset) canUDPGRO = .tcp isV6)
      (hmeta : tcpMeta (buf.pkt offset) isV6 = some m) :
      EntryMove entries .tcpInsert (entries ++ [⟨i, .tcp (tcpItem (buf.pkt offset) m isV6 i), buf⟩])
  | tcpMerge {before behind : List Entry} {w : ℕ} {target : Buffer} {isV6 : Bool} {m : TcpMeta}
      {mode : CanCoalesce} {item : TcpGROItem}
      (hcandidate : packetIsGROCandidate (buf.pkt offset) canUDPGRO = .tcp isV6)
      (hmeta : tcpMeta (buf.pkt offset) isV6 = some m)
      (hkey : item.key = newTCPFlowKey (buf.pkt offset) isV6 m.iphLen) (hmode : mode ≠ .unavailable)
      (hcan : tcpPacketsCanCoalesce (buf.pkt offset) m item (target.pkt offset) = mode)
      (hcheck : tcpCoalesceCheck e mode buf m item target offset isV6 = .success) :
      EntryMove (before ++ ⟨w, .tcp item, target⟩ :: behind) (.tcpMerge mode item)
        (before ++ ⟨w, .tcp (tcpMergedItem mode m item),
          tcpMergedBuffer mode buf target m item offset⟩ :: behind)
  | udpInsert {entries : List Entry} {isV6 : Bool} {m : UdpMeta} {cSumKnownInvalid : Bool}
      (hcandidate : packetIsGROCandidate (buf.pkt offset) canUDPGRO = .udp isV6)
      (hmeta : udpMeta (buf.pkt offset) isV6 = some m) :
      EntryMove entries .udpInsert
        (entries ++ [⟨i, .udp (udpItem (buf.pkt offset) m isV6 i cSumKnownInvalid), buf⟩])
  | udpMerge {before behind : List Entry} {w : ℕ} {target : Buffer} {isV6 : Bool} {m : UdpMeta}
      {item : UdpGROItem}
      (hcandidate : packetIsGROCandidate (buf.pkt offset) canUDPGRO = .udp isV6)
      (hmeta : udpMeta (buf.pkt offset) isV6 = some m)
      (hindex : item.bufsIndex.toNat = w)
      (hkey : item.key = newUDPFlowKey (buf.pkt offset) isV6 m.iphLen)
      (hlast : ∀ entry ∈ behind, entry.held.udpOf item.key = none)
      (hcan : udpPacketsCanCoalesce (buf.pkt offset) m item (target.pkt offset) = .append)
      (hcheck : udpCoalesceCheck e buf item target offset isV6 = .success) :
      EntryMove (before ++ ⟨w, .udp item, target⟩ :: behind) (.udpMerge item)
        (before ++ ⟨w, .udp { item with numMerged := item.numMerged + 1 },
          udpMergedBuffer buf target item offset⟩ :: behind)

end EntryMove

/-! ## §2 The relation -/

/-- The entries are those that the tables and indices describe, before packet `i`. -/
structure Represents (batch : List Buffer) (i : ℕ) (st : GroState) (entries : List Entry) :
    Prop where
  toWrite : st.toWrite = entries.map Entry.index
  sorted : (entries.map Entry.index).Pairwise (· < ·)
  below : ∀ entry ∈ entries, entry.index < i
  buf : ∀ entry ∈ entries, st.bufs entry.index = entry.buf
  untouched : ∀ k, i ≤ k → st.bufs k = bufferAt batch k
  tcpIndexed : st.tcpTable.Indexed TcpGROItem.key (·.bufsIndex.toNat)
  udpIndexed : st.udpTable.Indexed UdpGROItem.key (·.bufsIndex.toNat)
  tcpMem : ∀ item, item ∈ st.tcpTable.items ↔ ∃ entry ∈ entries, entry.held = .tcp item
  udpFlow : ∀ key, st.udpTable.flow key = udpItems key entries
  heldAt : ∀ entry ∈ entries, entry.held.At entry.index

section Represents

variable {batch : List Buffer} {i : ℕ} {st st' : GroState} {entries before behind : List Entry}
  {entry entry' : Entry}
variable {P : Entry → Prop} {key : UdpFlowKey} {item : TcpGROItem}

theorem represents_init (batch : List Buffer) : Represents batch 0 (groInit batch) [] where
  toWrite := rfl
  sorted := List.Pairwise.nil
  below := fun _ h => absurd h not_mem_nil
  buf := fun _ h => absurd h not_mem_nil
  untouched := fun _ _ => rfl
  tcpIndexed := GROTable.Indexed.new
  udpIndexed := GROTable.Indexed.new
  tcpMem := fun _ => ⟨fun h => absurd h not_mem_nil, fun ⟨_, h, _⟩ => absurd h not_mem_nil⟩
  udpFlow := fun _ => rfl
  heldAt := fun _ h => absurd h not_mem_nil

theorem Represents.index_ne (h : Represents batch i st (before ++ entry :: behind)) :
    ∀ x ∈ before ++ behind, x.index ≠ entry.index :=
  idx_ne_of_nodup (h.sorted.imp ne_of_lt)

theorem Represents.eq_of_index (h : Represents batch i st entries) {x y : Entry} (hx : x ∈ entries)
    (hy : y ∈ entries) (heq : x.index = y.index) : x = y :=
  inj_on_of_nodup_map (h.sorted.imp ne_of_lt) hx hy heq

theorem Represents.index_tcp (h : Represents batch i st entries) {x : Entry} (hx : x ∈ entries)
    (hheld : x.held = .tcp item) : item.bufsIndex.toNat = x.index := by
  have hat := h.heldAt x hx
  rw [hheld] at hat
  exact hat

theorem Represents.held_tcp_iff (h : Represents batch i st entries) {x : Entry} (hx : x ∈ entries) :
    x.held = .tcp item ↔ item ∈ st.tcpTable.items ∧ item.bufsIndex.toNat = x.index := by
  refine ⟨fun hheld => ⟨(h.tcpMem item).mpr ⟨x, hx, hheld⟩, h.index_tcp hx hheld⟩, ?_⟩
  rintro ⟨hitem, hindex⟩
  obtain ⟨y, hy, hheld⟩ := (h.tcpMem item).mp hitem
  rwa [h.eq_of_index hx hy (hindex.symm.trans (h.index_tcp hy hheld))]

theorem mem_replace {x : Entry} :
    x ∈ before ++ entry :: behind ↔ x = entry ∨ x ∈ before ++ behind := by
  rw [perm_middle.mem_iff, mem_cons]

theorem forall_replace (h : ∀ x ∈ before ++ entry :: behind, P x) (hentry : P entry') :
    ∀ x ∈ before ++ entry' :: behind, P x := by
  intro x hx
  rcases mem_replace.mp hx with rfl | hx
  · exact hentry
  · exact h x (mem_replace.mpr (Or.inr hx))

theorem forall_push (h : ∀ x ∈ entries, P x) (hentry : P entry) :
    ∀ x ∈ entries ++ [entry], P x := by
  intro x hx
  rcases mem_append.mp hx with hx | hx
  · exact h x hx
  · rw [mem_singleton.mp hx]
    exact hentry

theorem exists_replace (h : ∃ x ∈ before ++ entry :: behind, P x)
    (hentry : P entry → P entry') : ∃ x ∈ before ++ entry' :: behind, P x := by
  obtain ⟨x, hx, hP⟩ := h
  rcases mem_replace.mp hx with rfl | hx
  · exact ⟨entry', mem_replace.mpr (Or.inl rfl), hentry hP⟩
  · exact ⟨x, mem_replace.mpr (Or.inr hx), hP⟩

theorem exists_push (h : ∃ x ∈ entries, P x) : ∃ x ∈ entries ++ [entry], P x := by
  obtain ⟨x, hx, hP⟩ := h
  exact ⟨x, mem_append_left _ hx, hP⟩

theorem Represents.replace {i' : ℕ} (h : Represents batch i st (before ++ entry :: behind))
    (hi : i ≤ i') (hindex : entry'.index = entry.index) (hat : entry'.held.At entry'.index)
    (htoWrite : st'.toWrite = st.toWrite) (hbuf : st'.bufs entry.index = entry'.buf)
    (hother : ∀ w, w < i → w ≠ entry.index → st'.bufs w = st.bufs w)
    (huntouched : ∀ k, i' ≤ k → st'.bufs k = bufferAt batch k)
    (htcpIndexed : st'.tcpTable.Indexed TcpGROItem.key (·.bufsIndex.toNat))
    (hudpIndexed : st'.udpTable.Indexed UdpGROItem.key (·.bufsIndex.toNat))
    (htcpMem : ∀ item, item ∈ st'.tcpTable.items ↔
      entry'.held = .tcp item ∨ (item ∈ st.tcpTable.items ∧ item.bufsIndex.toNat ≠ entry.index))
    (hudpFlow : ∀ key, st'.udpTable.flow key = udpItems key (before ++ entry' :: behind)) :
    Represents batch i' st' (before ++ entry' :: behind) := by
  have hne := h.index_ne
  have hmap : (before ++ entry' :: behind).map Entry.index =
      (before ++ entry :: behind).map Entry.index := by
    simp [hindex]
  have hrest : ∀ x ∈ before ++ behind, x ∈ before ++ entry :: behind := fun x hx =>
    mem_replace.mpr (Or.inr hx)
  have hself : entry ∈ before ++ entry :: behind := mem_replace.mpr (Or.inl rfl)
  constructor
  case toWrite => rw [htoWrite, h.toWrite, hmap]
  case sorted => rw [hmap]; exact h.sorted
  case below =>
    refine forall_replace (fun x hx => lt_of_lt_of_le (h.below x hx) hi) ?_
    rw [hindex]
    exact lt_of_lt_of_le (h.below entry hself) hi
  case buf =>
    intro x hx
    rcases mem_replace.mp hx with rfl | hx
    · rw [hindex, hbuf]
    · rw [hother x.index (h.below x (hrest x hx)) (hne x hx), h.buf x (hrest x hx)]
  case untouched => exact huntouched
  case tcpIndexed => exact htcpIndexed
  case udpIndexed => exact hudpIndexed
  case tcpMem =>
    intro item
    rw [htcpMem, h.tcpMem]
    constructor
    · rintro (hheld | ⟨⟨x, hx, hheld⟩, hidx⟩)
      · exact ⟨entry', mem_replace.mpr (Or.inl rfl), hheld⟩
      · -- an item of the replaced entry has its index, and is gone
        rcases mem_replace.mp hx with rfl | hrest'
        · exact absurd (h.index_tcp hx hheld) hidx
        · exact ⟨x, mem_replace.mpr (Or.inr hrest'), hheld⟩
    · rintro ⟨x, hx, hheld⟩
      rcases mem_replace.mp hx with rfl | hx
      · exact Or.inl hheld
      · have hat := h.index_tcp (hrest x hx) hheld
        exact Or.inr ⟨⟨x, hrest x hx, hheld⟩, fun heq => hne x hx (hat.symm.trans heq)⟩
  case udpFlow => exact hudpFlow
  case heldAt => exact forall_replace h.heldAt hat

theorem Represents.push (h : Represents batch i st entries) (hindex : entry.index = i)
    (hat : entry.held.At i) (htoWrite : st'.toWrite = st.toWrite ++ [i])
    (hbuf : st'.bufs i = entry.buf) (hother : ∀ w, w ≠ i → st'.bufs w = st.bufs w)
    (htcpIndexed : st'.tcpTable.Indexed TcpGROItem.key (·.bufsIndex.toNat))
    (hudpIndexed : st'.udpTable.Indexed UdpGROItem.key (·.bufsIndex.toNat))
    (htcpMem : ∀ item, item ∈ st'.tcpTable.items ↔
      entry.held = .tcp item ∨ item ∈ st.tcpTable.items)
    (hudpFlow : ∀ key, st'.udpTable.flow key = udpItems key (entries ++ [entry])) :
    Represents batch (i + 1) st' (entries ++ [entry]) := by
  constructor
  case toWrite => rw [htoWrite, h.toWrite, map_append, map_singleton, hindex]
  -- the new index is larger than all that came before
  case sorted =>
    rw [map_append, map_singleton, pairwise_append]
    refine ⟨h.sorted, pairwise_singleton _ _, ?_⟩
    intro a ha b hb
    obtain ⟨x, hx, rfl⟩ := mem_map.mp ha
    rw [mem_singleton.mp hb, hindex]
    exact h.below x hx
  case below =>
    exact forall_push (fun x hx => lt_succ_of_lt (h.below x hx)) (hindex ▸ lt_succ_self i)
  case buf =>
    refine forall_push (fun x hx => ?_) (by rw [hindex, hbuf])
    rw [hother _ (Nat.ne_of_lt (h.below x hx)), h.buf x hx]
  case untouched =>
    intro k hk
    rw [hother k (ne_of_gt hk), h.untouched k (le_of_succ_le hk)]
  case tcpIndexed => exact htcpIndexed
  case udpIndexed => exact hudpIndexed
  case tcpMem =>
    intro item
    rw [htcpMem, h.tcpMem]
    simp only [mem_append, mem_singleton, or_and_right, exists_or, exists_eq_left]
    exact or_comm
  case udpFlow => exact hudpFlow
  case heldAt => exact forall_push h.heldAt (hindex.symm ▸ hat)

/-! ## §3 The steps -/

theorem udpItems_replace (hsame : entry.held.udpOf key = entry'.held.udpOf key) :
    udpItems key (before ++ entry :: behind) = udpItems key (before ++ entry' :: behind) := by
  simp only [udpItems, filterMap_append, filterMap_cons, hsame]

theorem udpItems_push (hnone : entry.held.udpOf key = none) :
    udpItems key entries = udpItems key (entries ++ [entry]) := by
  simp [udpItems, hnone]

theorem Represents.exists_tcp (h : Represents batch i st entries)
    (hitem : item ∈ st.tcpTable.items) : ∃ before behind, entries = before ++
      ⟨item.bufsIndex.toNat, .tcp item, st.bufs item.bufsIndex.toNat⟩ :: behind := by
  obtain ⟨⟨w, held, buf⟩, hmem, hheld⟩ := (h.tcpMem item).mp hitem
  cases hheld
  have hw : item.bufsIndex.toNat = w := h.heldAt _ hmem
  have hbuf : st.bufs w = buf := h.buf _ hmem
  obtain ⟨before, behind, rfl⟩ := append_of_mem hmem
  subst hw hbuf
  exact ⟨before, behind, rfl⟩

/-- Dropping items changes how their buffers are written. -/
theorem Represents.drops (h : Represents batch i st entries) {deleted : List TcpGROItem}
    (hdrops : Drops st deleted st') :
    ∃ entries', EntryDrops entries deleted entries' ∧ Represents batch i st' entries' := by
  induction hdrops generalizing entries with
  | nil st => exact ⟨entries, .nil entries, h⟩
  | @cons st st' item deleted j hitem hmerged _ ih =>
    obtain ⟨hindexed, hiff⟩ := h.tcpIndexed.deleteAt hitem
    obtain ⟨before, behind, rfl⟩ :=
      h.exists_tcp (GROTable.mem_items_of_flow (mem_of_getElem? hitem))
    have hdropped : Represents batch i { st with tcpTable := st.tcpTable.deleteAt item.key j }
        (before ++ ⟨item.bufsIndex.toNat, .raw, st.bufs item.bufsIndex.toNat⟩ :: behind) := by
      refine h.replace (le_refl i) rfl trivial rfl rfl (fun _ _ _ => rfl) h.untouched hindexed
        h.udpIndexed ?_ ?_
      · intro x
        rw [hiff x]
        exact ⟨Or.inr, fun hx => hx.resolve_left Held.noConfusion⟩
      · exact fun key => (h.udpFlow key).trans (udpItems_replace rfl)
    obtain ⟨entries', hrest, hrepresents⟩ := ih hdropped
    exact ⟨entries', .cons rfl hmerged hrest, hrepresents⟩

theorem tcpMerge_target {mode : CanCoalesce} {bufs : ℕ → Buffer} {m : TcpMeta} {offset : ℕ} :
    tcpMerge mode bufs i m item offset item.bufsIndex.toNat =
      tcpMergedBuffer mode (bufs i) (bufs item.bufsIndex.toNat) m item offset := by
  simp only [tcpMerge, tcpMergedBuffer]
  split_ifs <;> rw [update_self]

theorem tcpMerge_other {mode : CanCoalesce} {bufs : ℕ → Buffer} {m : TcpMeta}
    {offset w : ℕ} (hi : w ≠ i) (hw : w ≠ item.bufsIndex.toNat) :
    tcpMerge mode bufs i m item offset w = bufs w := by
  simp only [tcpMerge]
  split_ifs
  · rw [update_of_ne hw, update_of_ne hi]
  · rw [update_of_ne hw]
  · rw [update_of_ne hw]

theorem Held.udpOf_eq_some {item : UdpGROItem} {held : Held} {key : UdpFlowKey} :
    held.udpOf key = some item ↔ held = .udp item ∧ item.key = key := by
  cases held with
  | raw | tcp => simp [Held.udpOf]
  | udp item' =>
    simp only [Held.udpOf, Held.udp.injEq, ite_none_right_eq_some, some.injEq]
    constructor
    · rintro ⟨hkey, rfl⟩
      exact ⟨rfl, hkey⟩
    · rintro ⟨rfl, hkey⟩
      exact ⟨hkey, rfl⟩

theorem exists_last_udp {item : UdpGROItem} (h : (udpItems key entries).getLast? = some item) :
    ∃ before w buf behind, entries = before ++ ⟨w, .udp item, buf⟩ :: behind ∧ item.key = key ∧
      ∀ x ∈ behind, x.held.udpOf key = none := by
  induction entries using reverseRecOn with
  | nil => cases h
  | append_singleton entries x ih =>
    obtain ⟨w, held, buf⟩ := x
    cases hheld : held.udpOf key with
    -- the last entry holds no item of the flow, and goes behind
    | none =>
      have hskip : udpItems key (entries ++ [⟨w, held, buf⟩]) = udpItems key entries := by
        simp [udpItems, hheld]
      rw [hskip] at h
      obtain ⟨before, w', buf', behind, rfl, hkey, hlast⟩ := ih h
      refine ⟨before, w', buf', behind ++ [⟨w, held, buf⟩], by simp, hkey, ?_⟩
      intro x hx
      rcases mem_append.mp hx with hx | hx
      · exact hlast x hx
      · rw [mem_singleton.mp hx]
        exact hheld
    | some item' =>
      have hitem : udpItems key (entries ++ [⟨w, held, buf⟩]) =
          udpItems key entries ++ [item'] := by
        simp [udpItems, hheld]
      rw [hitem, getLast?_concat] at h
      cases h
      obtain ⟨rfl, hkey⟩ := Held.udpOf_eq_some.mp hheld
      exact ⟨entries, w, buf, [], rfl, hkey, fun x hx => absurd hx not_mem_nil⟩

section Move

variable {e : Endian} {canUDPGRO : Bool} {offset : ℕ}
variable {item : UdpGROItem}

theorem toNat_ofNat16 {n : ℕ} (h : n < 2 ^ 16) : (BitVec.ofNat 16 n).toNat = n := by
  rw [BitVec.toNat_ofNat, mod_eq_of_lt h]

theorem Represents.not_mem_tcp (h : Represents batch i st entries) :
    i ∉ st.tcpTable.items.map fun item => item.bufsIndex.toNat := by
  intro hin
  obtain ⟨item, hitem, hidx⟩ := mem_map.mp hin
  obtain ⟨x, hx, hheld⟩ := (h.tcpMem item).mp hitem
  exact lt_irrefl i (hidx.symm.trans (h.index_tcp hx hheld) ▸ h.below x hx)

theorem Represents.insert_tcp (h : Represents batch i st entries) (hfits : i < 2 ^ 16) {isV6 : Bool}
    {m : TcpMeta} {tcpTable : GROTable TcpFlowKey TcpGROItem}
    (hpush : st.tcpTable.push (tcpItem ((bufferAt batch i).pkt offset) m isV6 i).key
      (tcpItem ((bufferAt batch i).pkt offset) m isV6 i) = some tcpTable) :
    Represents batch (i + 1) { st with tcpTable, toWrite := st.toWrite ++ [i] }
      (entries ++ [⟨i, .tcp (tcpItem ((bufferAt batch i).pkt offset) m isV6 i),
        bufferAt batch i⟩]) := by
  have hidx : (tcpItem ((bufferAt batch i).pkt offset) m isV6 i).bufsIndex.toNat = i :=
    toNat_ofNat16 hfits
  have hnew := h.not_mem_tcp
  rw [← hidx] at hnew
  obtain ⟨hindexed, hiff⟩ := h.tcpIndexed.push hpush rfl hnew
  refine h.push rfl hidx rfl (h.untouched i (le_refl i)) (fun _ _ => rfl)
    hindexed h.udpIndexed ?_ ?_
  · intro item
    rw [hiff item, Held.tcp.injEq]
    exact or_congr_left eq_comm
  · exact fun key => (h.udpFlow key).trans (udpItems_push rfl)

theorem Represents.merge_tcp (h : Represents batch i st entries) {m : TcpMeta} {mode : CanCoalesce}
    {item : TcpGROItem} {j : ℕ} (hitem : (st.tcpTable.flow item.key)[j]? = some item) :
    ∃ before behind, entries = before ++
        ⟨item.bufsIndex.toNat, .tcp item, st.bufs item.bufsIndex.toNat⟩ :: behind ∧
      Represents batch (i + 1) { st with
          bufs := tcpMerge mode st.bufs i m item offset
          tcpTable := st.tcpTable.updateAt item.key j (tcpMergedItem mode m item) }
        (before ++ ⟨item.bufsIndex.toNat, .tcp (tcpMergedItem mode m item),
          tcpMergedBuffer mode (bufferAt batch i) (st.bufs item.bufsIndex.toNat) m item offset⟩ ::
            behind) := by
  have hkey : (tcpMergedItem mode m item).key = item.key := rfl
  obtain ⟨hindexed, hiff⟩ := h.tcpIndexed.updateAt hitem hkey rfl
  obtain ⟨before, behind, rfl⟩ :=
    h.exists_tcp (GROTable.mem_items_of_flow (mem_of_getElem? hitem))
  -- the item is not in the buffer of the packet, so only the two buffers change
  have hbelow : item.bufsIndex.toNat < i := h.below _ (mem_replace.mpr (Or.inl rfl))
  refine ⟨before, behind, rfl,
    h.replace (le_succ i) rfl rfl rfl ?_ ?_ ?_ hindexed h.udpIndexed ?_ ?_⟩
  · rw [← h.untouched i (le_refl i)]
    exact tcpMerge_target
  · exact fun w hw hne => tcpMerge_other (Nat.ne_of_lt hw) hne
  · intro k hk
    rw [← h.untouched k (le_of_succ_le hk)]
    exact tcpMerge_other (ne_of_gt hk) (by omega)
  · intro x
    rw [hiff x, Held.tcp.injEq]
    exact or_congr_left eq_comm
  · exact fun key => (h.udpFlow key).trans (udpItems_replace rfl)

theorem Held.udpOf_self (item : UdpGROItem) : (Held.udp item).udpOf item.key = some item :=
  if_pos rfl

theorem udpItems_last (item : UdpGROItem) {w : ℕ} {buf : Buffer}
    (hlast : ∀ x ∈ behind, x.held.udpOf item.key = none) :
    udpItems item.key (before ++ ⟨w, .udp item, buf⟩ :: behind) = udpItems item.key before ++
      [item] := by
  have hnil : behind.filterMap (fun x => x.held.udpOf item.key) = [] :=
    filterMap_eq_nil_iff.mpr hlast
  simp only [udpItems, filterMap_append, filterMap_cons, Held.udpOf_self, hnil]

theorem Represents.udp_mem (h : Represents batch i st entries) :
    item ∈ st.udpTable.items ↔ ∃ entry ∈ entries, entry.held = .udp item := by
  rw [h.udpIndexed.mem_items_iff, h.udpFlow, udpItems, mem_filterMap]
  simp only [Held.udpOf_eq_some, and_true]

theorem Represents.index_udp (h : Represents batch i st entries) {x : Entry} (hx : x ∈ entries)
    (hheld : x.held = .udp item) : item.bufsIndex.toNat = x.index := by
  have hat := h.heldAt x hx
  rw [hheld] at hat
  exact hat

theorem Represents.held_udp_iff (h : Represents batch i st entries) {x : Entry} (hx : x ∈ entries) :
    x.held = .udp item ↔ item ∈ st.udpTable.items ∧ item.bufsIndex.toNat = x.index := by
  refine ⟨fun hheld => ⟨h.udp_mem.mpr ⟨x, hx, hheld⟩, h.index_udp hx hheld⟩, ?_⟩
  rintro ⟨hitem, hindex⟩
  obtain ⟨y, hy, hheld⟩ := h.udp_mem.mp hitem
  rwa [h.eq_of_index hx hy (hindex.symm.trans (h.index_udp hy hheld))]

theorem Represents.not_mem_udp (h : Represents batch i st entries) :
    i ∉ st.udpTable.items.map fun item => item.bufsIndex.toNat := by
  intro hin
  obtain ⟨item, hitem, hidx⟩ := mem_map.mp hin
  obtain ⟨x, hx, hheld⟩ := h.udp_mem.mp hitem
  exact lt_irrefl i (hidx.symm.trans (h.index_udp hx hheld) ▸ h.below x hx)

theorem Represents.insert_udp (h : Represents batch i st entries) (hfits : i < 2 ^ 16)
    (hidx : item.bufsIndex = BitVec.ofNat 16 i) {udpTable : GROTable UdpFlowKey UdpGROItem}
    (hpush : st.udpTable.push item.key item = some udpTable) :
    Represents batch (i + 1) { st with udpTable, toWrite := st.toWrite ++ [i] }
      (entries ++ [⟨i, .udp item, bufferAt batch i⟩]) := by
  have hidx' : item.bufsIndex.toNat = i := by
    rw [hidx]
    exact toNat_ofNat16 hfits
  have hnew := h.not_mem_udp
  rw [← hidx'] at hnew
  obtain ⟨hindexed, -⟩ := h.udpIndexed.push hpush rfl hnew
  obtain ⟨hother, hflow⟩ := GROTable.push_spec hpush
  refine h.push rfl hidx' rfl (h.untouched i (le_refl i)) (fun _ _ => rfl)
    h.tcpIndexed hindexed ?_ ?_
  · exact fun x => ⟨Or.inr, fun hx => hx.resolve_left Held.noConfusion⟩
  · intro key
    by_cases hkey : item.key = key
    · subst hkey
      simp [udpItems, Held.udpOf, hflow, h.udpFlow]
    · have hsame : udpTable.flow key = st.udpTable.flow key := by
        rw [GROTable.flow, hother key (Ne.symm hkey)]
        rfl
      refine (hsame.trans (h.udpFlow key)).trans (udpItems_push ?_)
      simp [Held.udpOf, hkey]

theorem Represents.merge_udp (h : Represents batch i st entries) {key : UdpFlowKey}
    (hitem : (st.udpTable.flow key).getLast? = some item) :
    ∃ before behind, entries = before ++
        ⟨item.bufsIndex.toNat, .udp item, st.bufs item.bufsIndex.toNat⟩ :: behind ∧ item.key = key ∧
      (∀ x ∈ behind, x.held.udpOf key = none) ∧
      Represents batch (i + 1) { st with
          bufs := udpMerge st.bufs i item offset
          udpTable := st.udpTable.updateAt key ((st.udpTable.flow key).length - 1)
            { item with numMerged := item.numMerged + 1 } }
        (before ++ ⟨item.bufsIndex.toNat, .udp { item with numMerged := item.numMerged + 1 },
          udpMergedBuffer (bufferAt batch i) (st.bufs item.bufsIndex.toNat) item offset⟩ ::
            behind) := by
  have hlast := hitem
  rw [h.udpFlow] at hlast
  obtain ⟨before, w, buf, behind, rfl, rfl, hbehind⟩ := exists_last_udp hlast
  have hself : (⟨w, .udp item, buf⟩ : Entry) ∈ before ++ ⟨w, .udp item, buf⟩ :: behind :=
    mem_replace.mpr (Or.inl rfl)
  have hw : item.bufsIndex.toNat = w := h.heldAt _ hself
  have hbuf : st.bufs w = buf := h.buf _ hself
  subst hw hbuf
  have hbelow : item.bufsIndex.toNat < i := h.below _ hself
  refine ⟨before, behind, rfl, rfl, hbehind, ?_⟩
  -- the items of the flow: those before the last, and the last
  have hflow : st.udpTable.flow item.key = udpItems item.key before ++ [item] :=
    (h.udpFlow item.key).trans (udpItems_last item hbehind)
  have hget : (st.udpTable.flow item.key)[(st.udpTable.flow item.key).length - 1]? = some item := by
    simp [hflow]
  have hkey : ({ item with numMerged := item.numMerged + 1 } : UdpGROItem).key = item.key := rfl
  obtain ⟨hindexed, -⟩ := h.udpIndexed.updateAt hget hkey rfl
  refine h.replace (le_succ i) rfl rfl rfl ?_ ?_ ?_ h.tcpIndexed hindexed ?_ ?_
  · rw [← h.untouched i (le_refl i)]
    exact update_self ..
  · exact fun w _ hne => update_of_ne hne ..
  · intro k hk
    rw [← h.untouched k (le_of_succ_le hk)]
    exact update_of_ne (by omega) ..
  · intro x
    refine ⟨fun hx => Or.inr ⟨hx, ?_⟩, fun hx => (hx.resolve_left Held.noConfusion).1⟩
    intro heq
    cases (h.held_tcp_iff hself).mpr ⟨hx, heq⟩
  · intro key
    by_cases hne : item.key = key
    · subst hne
      refine Eq.trans ?_ (udpItems_last { item with numMerged := item.numMerged + 1 } hbehind).symm
      rw [GROTable.flow_updateAt, hflow]
      simp
    · -- the items of another flow stay
      have hsame : (st.udpTable.updateAt item.key ((st.udpTable.flow item.key).length - 1)
          { item with numMerged := item.numMerged + 1 }).flow key = st.udpTable.flow key := by
        rw [GROTable.flow, GROTable.lookup_updateAt_ne _ (Ne.symm hne)]
        rfl
      refine (hsame.trans (h.udpFlow key)).trans (udpItems_replace ?_)
      simp [Held.udpOf, hne]

/-- Moving the packet at `i` moves it in the list of entries; a new item needs an index of 16
bits. -/
theorem Represents.move (h : Represents batch i st entries) {label : MoveLabel}
    (hmove : Move e canUDPGRO offset i st label st')
    (hfits : label = .tcpInsert ∨ label = .udpInsert → i < 2 ^ 16) :
    ∃ entries', EntryMove e canUDPGRO offset i (bufferAt batch i) entries label entries' ∧
      Represents batch (i + 1) st' entries' := by
  -- the packet is still as it was in the batch
  have hbuf := h.untouched i (le_refl i)
  cases hmove with
  | raw =>
    rw [hbuf]
    refine ⟨_, .raw, h.push rfl trivial rfl (update_self ..) ?_ h.tcpIndexed h.udpIndexed ?_ ?_⟩
    · exact fun w hw => update_of_ne hw ..
    · exact fun x => ⟨Or.inr, fun hx => hx.resolve_left Held.noConfusion⟩
    · exact fun key => (h.udpFlow key).trans (udpItems_push rfl)
  | tcpInsert hcandidate hmeta hpush =>
    rw [hbuf] at hcandidate hmeta hpush
    exact ⟨_, .tcpInsert hcandidate hmeta, h.insert_tcp (hfits (Or.inl rfl)) hpush⟩
  | tcpMerge hcandidate hmeta hitem hkey hmode hcan hcheck =>
    rw [hbuf] at hcandidate hmeta hkey hcan hcheck
    obtain ⟨before, behind, rfl, hmerged⟩ := h.merge_tcp hitem
    exact ⟨_, .tcpMerge hcandidate hmeta hkey hmode hcan hcheck, hmerged⟩
  | udpInsert hcandidate hmeta hpush =>
    rw [hbuf] at hcandidate hmeta hpush
    exact ⟨_, .udpInsert hcandidate hmeta, h.insert_udp (hfits (Or.inr rfl)) rfl hpush⟩
  | udpMerge hcandidate hmeta hitem hcan hcheck =>
    rw [hbuf] at hcandidate hmeta hitem hcan hcheck ⊢
    obtain ⟨before, behind, rfl, hkey, hlast, hmerged⟩ := h.merge_udp hitem
    rw [← hkey] at hlast
    exact ⟨_, .udpMerge hcandidate hmeta rfl hkey hlast hcan hcheck, hmerged⟩

end Move

end Represents

/-! ## §4 Runs -/

section Run

variable {e : Endian} {canUDPGRO : Bool} {offset : ℕ} {batch : List Buffer}

/-- The loop of `handleGRO` has treated the packets before `i`. -/
def Reached (e : Endian) (canUDPGRO : Bool) (offset : ℕ) (batch : List Buffer) (i : ℕ)
    (st : GroState) : Prop :=
  groLoop e canUDPGRO offset 0 i (groInit batch) = .ok st

theorem groLoop_succ (i n : ℕ) (st : GroState) : groLoop e canUDPGRO offset i (n + 1) st =
      (groLoop e canUDPGRO offset i n st).bind (groStep e canUDPGRO offset (i + n)) := by
  induction n generalizing i st with
  | zero =>
    show (groStep e canUDPGRO offset i st).bind (groLoop e canUDPGRO offset (i + 1) 0) =
      groStep e canUDPGRO offset i st
    cases groStep e canUDPGRO offset i st <;> rfl
  | succ n ih =>
    have hunfold : ∀ n, groLoop e canUDPGRO offset i (n + 1) st =
        (groStep e canUDPGRO offset i st).bind (groLoop e canUDPGRO offset (i + 1) n) :=
          fun _ => rfl
    rw [hunfold, hunfold]
    cases groStep e canUDPGRO offset i st with
    | error err => rfl
    | ok st' =>
      have hnext := ih (i + 1) st'
      rw [add_right_comm, add_assoc] at hnext
      exact hnext

theorem Reached.succ_iff {i : ℕ} {st' : GroState} : Reached e canUDPGRO offset batch (i + 1) st' ↔
      ∃ st, Reached e canUDPGRO offset batch i st ∧ groStep e canUDPGRO offset i st = .ok st' := by
  unfold Reached
  rw [groLoop_succ, zero_add]
  cases groLoop e canUDPGRO offset 0 i (groInit batch) with
  | error err => simp [Except.bind]
  | ok st => simp [Except.bind]

/-- What an iteration on the packet at `i` does to the entries. -/
structure EntryStep (e : Endian) (canUDPGRO : Bool) (offset : ℕ) (batch : List Buffer) (i : ℕ)
    (st : GroState) (entries entries' : List Entry) : Prop where
  low : virtioNetHdrLen ≤ offset
  high : offset < (bufferAt batch i).bytes.length
  moves : ∃ entries₁, EntryDrops entries (stepDeleted e canUDPGRO offset i st) entries₁ ∧
    EntryMove e canUDPGRO offset i (bufferAt batch i) entries₁ (stepLabel e canUDPGRO offset i st)
      entries'

/-- The indices of the items that are made in the first `n` iterations have 16 bits. -/
def FitIndices (e : Endian) (canUDPGRO : Bool) (offset : ℕ) (batch : List Buffer) (n : ℕ) : Prop :=
  ∀ i st, i < n → Reached e canUDPGRO offset batch i st →
    stepLabel e canUDPGRO offset i st = .tcpInsert ∨
      stepLabel e canUDPGRO offset i st = .udpInsert →
    i < 2 ^ 16

theorem Represents.step {i : ℕ} {st st' : GroState} {entries : List Entry}
    (h : Represents batch i st entries) (hstep : groStep e canUDPGRO offset i st = .ok st')
    (hfits : stepLabel e canUDPGRO offset i st = .tcpInsert ∨
      stepLabel e canUDPGRO offset i st = .udpInsert → i < 2 ^ 16) :
    ∃ entries', EntryStep e canUDPGRO offset batch i st entries entries' ∧
      Represents batch (i + 1) st' entries' := by
  obtain ⟨hlow, hhigh⟩ := groStep_offset hstep
  rw [h.untouched i (le_refl i)] at hhigh
  obtain ⟨st₁, hdrops, hmove⟩ := groStep_moves h.tcpIndexed.keyed hstep
  obtain ⟨entries₁, hentries, h₁⟩ := h.drops hdrops
  obtain ⟨entries', hmoved, h'⟩ := h₁.move hmove hfits
  exact ⟨entries', ⟨hlow, hhigh, entries₁, hentries, hmoved⟩, h'⟩

/-- What holds of no entries and is kept by every iteration holds of the entries of every state that
is reached. -/
theorem Reached.induction {P : ℕ → List Entry → Prop} {n : ℕ} {st : GroState}
    (h : Reached e canUDPGRO offset batch n st) (hfits : FitIndices e canUDPGRO offset batch n)
    (hinit : P 0 [])
    (hstep : ∀ i st entries entries', i < n → Reached e canUDPGRO offset batch i st →
      Represents batch i st entries → P i entries →
      EntryStep e canUDPGRO offset batch i st entries entries' → P (i + 1) entries') :
    ∃ entries, Represents batch n st entries ∧ P n entries := by
  induction n generalizing st with
  | zero =>
    cases h
    exact ⟨[], represents_init batch, hinit⟩
  | succ n ih =>
    obtain ⟨st₀, hreached, hok⟩ := Reached.succ_iff.mp h
    obtain ⟨entries, hrepresents, hP⟩ := ih hreached (fun i st hi => hfits i st (lt_succ_of_lt hi))
      (fun i st entries entries' hi => hstep i st entries entries' (lt_succ_of_lt hi))
    obtain ⟨entries', hentries, hrepresents'⟩ :=
      hrepresents.step hok (hfits n st₀ (lt_succ_self n) hreached)
    exact ⟨entries', hrepresents', hstep n st₀ entries entries' (lt_succ_self n) hreached
      hrepresents hP hentries⟩

end Run

end AmneziaWG.Tun
