import AmneziaWG.Device.AllowedIPs.Refinement
import Mathlib.Data.List.Nodup

/-!
# The Shape of the Table

What a walk over the pointers of `AllowedIPs` finds: the nodes below the two roots, the slots that
hold them, and the lists of the peers, which `EntriesForPeer` goes through.

## Main results

- `structure_kept`: after any operations the tries are well formed, `EntriesForPeer` enumerates what
  the peer owns, and without peers nothing is left.
-/

namespace AmneziaWG.Device

open AmneziaWG.Lib List Option Nat

/-- The prefix as it is stored: the address without its host bits. -/
def Prefix.masked (pfx : Prefix) : Bytes × ℕ :=
  (Device.masked pfx.addr pfx.bits, pfx.bits)

theorem EntryOk.bits_eq {P : Type} {e : TrieEntry P} (he : EntryOk e) {ip : Bytes}
    (hlen : e.bits.length = ip.length)
    (hbits : e.prefixBits = (toBits ip).take e.cidr) : e.bits = Device.masked ip e.cidr := by
  have hip : IsAddr ip := by
    obtain ⟨f, hf⟩ := he.addr
    exact ⟨f, hlen ▸ hf⟩
  have hc : e.cidr ≤ 8 * ip.length := hlen ▸ he.cidr_le
  have hcovers := (AllowedIPs.prefixBits_eq_iff he hlen).mp hbits
  refine eq_of_agreeTo (by rw [hlen, masked_length]) fun i hi => ?_
  rw [bitAt_masked hip hc (hlen ▸ hi)]
  by_cases hlt : i < e.cidr
  · simp [hlt, hcovers.agree i hlt]
  · simp [hlt, he.masked i (Nat.le_of_not_lt hlt) hi]

namespace AllowedIPs

variable {P : Type}

/-! ## §1 Definitions -/

/-- The loop of `EntriesForPeer`, with what the callback has gathered so far. -/
def entriesFrom {σ : Type} (t : AllowedIPs P) (cb : σ → Bytes × ℕ → σ × Bool) : List ℕ → σ → σ
  | [], s => s
  | n :: ns, s =>
    let (s, more) := cb s ((t.node n).bits, (t.node n).cidr)
    if more then t.entriesFrom cb ns s else s

/-- `EntriesForPeer`: the callback gets the address and the length of each prefix, and may end the
loop. -/
def entriesForPeer {σ : Type} (t : AllowedIPs P) (peer : P) (cb : σ → Bytes × ℕ → σ × Bool)
    (s : σ) : σ :=
  t.entriesFrom cb (t.trieEntries peer) s

/-- The prefixes that a callback sees which never ends the loop. -/
def entries (t : AllowedIPs P) (peer : P) : List (Bytes × ℕ) :=
  t.entriesForPeer peer (fun seen pfx => (seen ++ [pfx], true)) []

inductive Below (t : AllowedIPs P) (f : Family) : ℕ → Prop
  | root {n : ℕ} (h : t.root f = some n) : t.Below f n
  | child {p n : ℕ} (bit : Bool) (hp : t.Below f p) (h : (t.node p).child bit = some n) :
      t.Below f n

/-- The three ways in which nodes are linked agree: with the slots, with their parents and with the
lists of the peers. -/
structure WellLinked (t : AllowedIPs P) : Prop where
  masked : ∀ f n, t.Below f n → (t.node n).bits.length = f.addrLen ∧ EntryOk (t.node n)
  extend : ∀ f p bit n, t.Below f p → (t.node p).child bit = some n →
    Extends (t.node p) bit (t.node n)
  rootSlot : ∀ f n, t.root f = some n → (t.node n).parent = (Slot.root f).indirection
  childSlot : ∀ f p bit n, t.Below f p → (t.node p).child bit = some n →
    (t.node n).parent = (Slot.child p bit).indirection
  branch : ∀ f n, t.Below f n → (t.node n).peer = none → ∀ bit, (t.node n).child bit ≠ none
  listed : ∀ peer n, n ∈ t.trieEntries peer ↔ (∃ f, t.Below f n) ∧ (t.node n).peer = some peer
  nodup : ∀ peer, (t.trieEntries peer).Nodup

/-! ## §2 The nodes below the roots -/

variable {t : AllowedIPs P} {f : Family} {n : ℕ} {peer : P}

theorem Below.live (h : Linked t) (hn : t.Below f n) : t.Live n := by
  induction hn with
  | root hroot => exact h.root_live hroot
  | child _ _ hchild ih => exact h.child_live ih hchild

theorem Below.addrLen (h : Linked t) (hn : t.Below f n) : (t.node n).bits.length = f.addrLen := by
  induction hn with
  | root hroot => exact h.family f _ hroot
  | child bit hp hchild ih => exact (h.edge _ bit _ (hp.live h) hchild).len.trans ih

/-- The way up from a node ends at a root. -/
theorem Linked.below (h : Linked t) (hn : t.Live n) : ∃ f, t.Below f n := by
  obtain ⟨f, hf⟩ := (h.entry n hn).addr
  obtain ⟨r, hr, hpath⟩ := h.root_above hn hf
  refine ⟨f, ?_⟩
  clear hf hn
  induction hpath with
  | refl => exact .root hr
  | tail _ hlink ih =>
    obtain ⟨-, bit, hchild⟩ := hlink
    exact .child bit ih hchild

theorem WF.wellLinked (h : WF t) : WellLinked t where
  masked f n hn := ⟨hn.addrLen h.toLinked, h.entry n (hn.live h.toLinked)⟩
  extend f p bit n hp hchild := h.edge p bit n (hp.live h.toLinked) hchild
  rootSlot f n hroot := (h.held (.root f) n trivial hroot).2
  childSlot f p bit n hp hchild := (h.held (.child p bit) n (hp.live h.toLinked) hchild).2
  branch f n hn := h.branch n (hn.live h.toLinked)
  listed peer n := by
    rw [h.listed peer n]
    refine and_congr_left fun _ => ⟨h.toLinked.below, ?_⟩
    rintro ⟨f, hn⟩
    exact hn.live h.toLinked
  nodup := h.nodup

/-! ## §3 What a peer owns -/

theorem entries_eq (t : AllowedIPs P) (peer : P) :
    t.entries peer = (t.trieEntries peer).map fun n => ((t.node n).bits, (t.node n).cidr) := by
  have hfrom : ∀ ns seen, t.entriesFrom (fun seen pfx => (seen ++ [pfx], true)) ns seen =
      seen ++ ns.map fun n => ((t.node n).bits, (t.node n).cidr) := by
    intro ns
    induction ns with
    | nil => simp [entriesFrom]
    | cons n ns ih => simp [entriesFrom, ih]
  exact hfrom (t.trieEntries peer) []

/-- `EntriesForPeer` passes on exactly the prefixes that the peer owns. -/
theorem WF.mem_entries_iff (h : WF t) {m : Family → PrefixMap P} (hm : t.Refines m) (pfx : Prefix) :
    pfx.masked ∈ t.entries peer ↔ m pfx.family pfx.maskedBits = some peer := by
  rw [entries_eq, List.mem_map, hm]
  have hc : pfx.bits ≤ 8 * pfx.addr.length := pfx.addr_len ▸ pfx.bits_le
  constructor
  · rintro ⟨n, hn, heq⟩
    obtain ⟨hlive, hpeer⟩ := (h.listed peer n).mp hn
    obtain ⟨hbits, hcidr⟩ := Prod.mk.inj heq
    refine ⟨n, hlive, by rw [hbits, masked_length, pfx.addr_len], ?_, hpeer⟩
    rw [TrieEntry.prefixBits, hbits, hcidr, Prefix.maskedBits,
      take_toBits_eq_iff (masked_length _ _) (by rw [masked_length]; exact hc)]
    exact masked_agree ⟨_, pfx.addr_len⟩ hc
  · rintro ⟨n, hlive, hlen, hbits, hpeer⟩
    have hentry := h.entry n hlive
    have hcidr : (t.node n).cidr = pfx.bits := by
      rw [← prefixBits_length hentry, hbits, Prefix.maskedBits, List.length_take, toBits_length]
      omega
    rw [Prefix.maskedBits, ← hcidr] at hbits
    refine ⟨n, (h.listed peer n).mpr ⟨hlive, hpeer⟩, ?_⟩
    rw [hentry.bits_eq (hlen.trans pfx.addr_len.symm) hbits, hcidr]
    rfl

theorem WF.entries_nodup (h : WF t) (peer : P) :
    (t.entries peer).Nodup ∧ ∀ x ∈ t.entries peer, ∃ pfx : Prefix, pfx.masked = x := by
  rw [entries_eq]
  constructor
  · refine List.Nodup.map_on (fun a ha b hb heq => ?_) (h.nodup peer)
    obtain ⟨hbits, hcidr⟩ := Prod.mk.inj heq
    refine h.eq_of_prefixBits ((h.listed peer a).mp ha).1 ((h.listed peer b).mp hb).1
      (by rw [hbits]) ?_
    rw [TrieEntry.prefixBits, TrieEntry.prefixBits, hbits, hcidr]
  · intro x hx
    obtain ⟨n, hn, rfl⟩ := mem_map.mp hx
    have hentry := h.entry n ((h.listed peer n).mp hn).1
    obtain ⟨f, hf⟩ := hentry.addr
    refine ⟨⟨f, (t.node n).bits, (t.node n).cidr, hf, hf ▸ hentry.cidr_le⟩, ?_⟩
    rw [Prefix.masked, ← hentry.bits_eq rfl rfl]

/-! ## §4 Without peers -/

/-- A trie without owners would branch for ever. -/
theorem WF.root_eq_none (h : WF t) (hnone : ∀ n, t.Live n → (t.node n).peer = none) (f : Family) :
    t.root f = none := by
  -- the children of a node have longer prefixes, and no prefix is longer than an address
  have hend : ∀ k n, t.Live n → 8 * (t.node n).bits.length ≤ (t.node n).cidr + k → False := by
    intro k
    induction k with
    | zero =>
      intro n hn hle
      obtain ⟨c, hchild⟩ := ne_none_iff_exists'.mp (h.branch n hn (hnone n hn) false)
      have hedge := h.edge n false c hn hchild
      have hfits := (h.entry c (h.child_live hn hchild)).cidr_le
      have hlen := hedge.len
      have hlt := hedge.lt
      omega
    | succ k ih =>
      intro n hn hle
      obtain ⟨c, hchild⟩ := ne_none_iff_exists'.mp (h.branch n hn (hnone n hn) false)
      have hedge := h.edge n false c hn hchild
      have hlen := hedge.len
      have hlt := hedge.lt
      exact ih c (h.child_live hn hchild) (by omega)
  cases hroot : t.root f with
  | none => rfl
  | some n => exact (hend _ n (h.root_live hroot) (le_add_left _ _)).elim

variable [DecidableEq P]

theorem foldl_removeByPeer (peers : List P) (m : Family → PrefixMap P) (f : Family) (p : List Bool)
    (q : P) :
    (peers.map Op.removeByPeer).foldl Op.apply m f p = some q ↔ m f p = some q ∧ q ∉ peers := by
  induction peers generalizing m with
  | nil => simp
  | cons peer peers ih =>
    rw [map_cons, foldl_cons, ih]
    simp only [Op.apply, PrefixMap.removeOwner, mem_cons, not_or]
    by_cases hq : m f p = some peer
    · simp only [hq, if_true, some.injEq]
      constructor
      · rintro ⟨h, -⟩
        cases h
      · rintro ⟨rfl, hne, -⟩
        exact absurd rfl hne
    · rw [if_neg hq]
      refine and_congr_right fun heq => ⟨fun h => ⟨?_, h⟩, And.right⟩
      rintro rfl
      exact hq heq

/-- **The structure of the table.**  After every sequence of operations from the empty table the
nodes are linked as they should be; `EntriesForPeer` passes on the prefixes that were last inserted
for the peer and not since removed, each once; and the removal of all peers that own a prefix leaves
both roots `nil`. -/
theorem structure_kept (ops : List (Op P)) : ∃ t, empty.runOps ops = some t ∧ WellLinked t ∧
      (∀ peer, (t.entries peer).Nodup ∧ (∀ x ∈ t.entries peer, ∃ pfx : Prefix, pfx.masked = x) ∧
        ∀ pfx : Prefix, pfx.masked ∈ t.entries peer ↔
          owners ops pfx.family pfx.maskedBits = some peer) ∧
      ∀ peers : List P, (∀ f p q, owners ops f p = some q → q ∈ peers) →
        ∃ t', t.runOps (peers.map Op.removeByPeer) = some t' ∧ ∀ f, t'.root f = none := by
  obtain ⟨t, hrun, h, hm⟩ := runOps_spec empty_wf empty_refines ops
  refine ⟨t, hrun, h.wellLinked, fun peer => ?_, fun peers hall => ?_⟩
  · obtain ⟨hnodup, hmasked⟩ := h.entries_nodup peer
    exact ⟨hnodup, hmasked, h.mem_entries_iff hm⟩
  · obtain ⟨t', hrun', h', hm'⟩ := runOps_spec h hm (peers.map Op.removeByPeer)
    refine ⟨t', hrun', h'.root_eq_none fun n hn => ?_⟩
    by_contra hpeer
    obtain ⟨q, hq⟩ := ne_none_iff_exists'.mp hpeer
    obtain ⟨f, hf⟩ := (h'.entry n hn).addr
    obtain ⟨howned, hnot⟩ :=
      (foldl_removeByPeer peers _ f _ q).mp ((hm' f _ q).mpr ⟨n, hn, hf, rfl, hq⟩)
    exact hnot (hall f _ q howned)

end AllowedIPs

end AmneziaWG.Device
