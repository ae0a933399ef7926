import AmneziaWG.Device.AllowedIPs.Links

/-!
# Owners of Prefixes

What the invariant says about owners and lists of nodes, and what a table stands for,
after a change of owners: a table that has grown by an owned node (`Grown`), and a stored
prefix that gets another owner (`setOwner_spec`).
-/

namespace AmneziaWG.Device

open AmneziaWG.Lib List Function

variable {P : Type}

namespace AllowedIPs

variable {t t' : AllowedIPs P}

/-! ## §1 A table with one more owner -/

/-- `t'` has the nodes of `t`, a node `k` owned by `peer`, and possibly new branch nodes. -/
structure Grown [DecidableEq P] (t t' : AllowedIPs P) (k : ℕ) (peer : P) : Prop where
  fresh : ¬t.Live k
  live : t'.Live k
  owner : (t'.node k).owner = (some peer, some peer)
  kept : ∀ n, t.Live n → t'.Live n ∧ (t'.node n).data = (t.node n).data ∧
    (t'.node n).owner = (t.node n).owner
  child_kept : ∀ n bit, t.Live n → t.get (.child n bit) ≠ none → t'.get (.child n bit) ≠ none
  other : ∀ n, t'.Live n → n ≠ k → ¬t.Live n →
    (t'.node n).owner = (none, none) ∧ ∀ bit, t'.get (.child n bit) ≠ none
  bound : ∀ n, t'.Live n → n < t'.next
  entries : t'.trieEntries = Function.update t.trieEntries peer (t.trieEntries peer ++ [k])

theorem peer_of_owner {e e' : TrieEntry P} (h : e'.owner = e.owner) : e'.peer = e.peer :=
  (Prod.mk.inj h).1

theorem cidr_of_data {e e' : TrieEntry P} (h : e'.data = e.data) : e'.cidr = e.cidr := by
  simpa [TrieEntry.data] using congrArg TrieEntry.cidr h

theorem prefixBits_of_data {e e' : TrieEntry P} (h : e'.data = e.data) :
    e'.prefixBits = e.prefixBits := by
  rw [TrieEntry.prefixBits, TrieEntry.prefixBits, bits_of_data h, cidr_of_data h]

theorem Linked.eq_of_prefixBits (h : Linked t) {m n : ℕ} (hm : t.Live m) (hn : t.Live n)
    (hlen : (t.node m).bits.length = (t.node n).bits.length)
    (hbits : (t.node m).prefixBits = (t.node n).prefixBits) : m = n := by
  have hcidr : (t.node m).cidr = (t.node n).cidr := by
    rw [← prefixBits_length (h.entry m hm), hbits, prefixBits_length (h.entry n hn)]
  refine h.unique hm hn hlen hcidr ?_
  rw [← hcidr]
  refine ((prefixBits_eq_iff (h.entry m hm) hlen).mp ?_).agree
  rw [hbits, hcidr]
  rfl

theorem nodup_append_singleton {l : List ℕ} {k : ℕ} (hl : l.Nodup) (hk : k ∉ l) :
    (l ++ [k]).Nodup := by
  rw [nodup_append]
  refine ⟨hl, by simp, ?_⟩
  rintro a ha b hb rfl
  exact hk (mem_singleton.mp hb ▸ ha)

theorem update_insert_of_ne {m : Family → PrefixMap P} {f g : Family} {p p' : List Bool} {peer : P}
    (h : ¬(g = f ∧ p = p')) : Function.update m f ((m f).insert p' peer) g p = m g p := by
  by_cases hgf : g = f
  · subst hgf
    have hp : p ≠ p' := fun hp => h ⟨rfl, hp⟩
    rw [update_self, PrefixMap.insert_of_ne _ hp]
  · rw [update_of_ne hgf]

section Owners

variable [DecidableEq P]

/-- Growing a table by an owner keeps the invariant, as far as the links are in order. -/
theorem Grown.wf (h : WF t) {k : ℕ} {peer : P} (hg : Grown t t' k peer) (h' : Linked t') :
    WF t' where
  toLinked := h'
  bound := hg.bound
  branch := by
    intro n hn hpeer bit
    -- the new node has an owner, old nodes keep theirs, and others have two children
    by_cases hk : n = k
    · have : (t'.node n).peer = some peer := by
        rw [hk]
        exact (Prod.mk.inj hg.owner).1
      rw [this] at hpeer
      cases hpeer
    · by_cases hold : t.Live n
      · have hpeer' : (t.node n).peer = none :=
          (peer_of_owner (hg.kept n hold).2.2).symm.trans hpeer
        exact hg.child_kept n bit hold (h.branch n hold hpeer' bit)
      · exact (hg.other n hn hk hold).2 bit
  elem := by
    intro n hn
    by_cases hk : n = k
    · rw [hk, (Prod.mk.inj hg.owner).1, (Prod.mk.inj hg.owner).2]
    · by_cases hold : t.Live n
      · obtain ⟨hpeer, helem⟩ := Prod.mk.inj (hg.kept n hold).2.2
        rw [hpeer, helem]
        exact h.elem n hold
      · obtain ⟨hpeer, helem⟩ := Prod.mk.inj (hg.other n hn hk hold).1
        rw [hpeer, helem]
  listed := by
    intro q n
    -- the lists name the owned nodes of before; the new node is behind them
    have hold : n ∈ t.trieEntries q ↔ n ≠ k ∧ t'.Live n ∧ (t'.node n).peer = some q := by
      rw [h.listed]
      constructor
      · rintro ⟨hn, hpeer⟩
        obtain ⟨hlive, -, howner⟩ := hg.kept n hn
        refine ⟨?_, hlive, (peer_of_owner howner).trans hpeer⟩
        rintro rfl
        exact hg.fresh hn
      · rintro ⟨hk, hn, hpeer⟩
        by_cases hlive : t.Live n
        · exact ⟨hlive, (peer_of_owner (hg.kept n hlive).2.2).symm.trans hpeer⟩
        · rw [(Prod.mk.inj (hg.other n hn hk hlive).1).1] at hpeer
          cases hpeer
    have hpeer_k := (Prod.mk.inj hg.owner).1
    rw [hg.entries, update_apply]
    by_cases hk : n = k
    · have hnot : ∀ q, k ∉ t.trieEntries q := fun q hmem => hg.fresh ((h.listed q k).mp hmem).1
      by_cases hq : q = peer
      · simp [hk, hq, hg.live, hpeer_k]
      · simp [hk, hq, hnot, hpeer_k, Ne.symm hq]
    · by_cases hq : q = peer
      · subst hq
        simp [hk, hold]
      · simp [hk, hq, hold]
  nodup := by
    intro q
    rw [hg.entries, update_apply]
    by_cases hq : q = peer
    · have hnot : k ∉ t.trieEntries peer := fun hmem => hg.fresh ((h.listed peer k).mp hmem).1
      rw [if_pos hq]
      exact nodup_append_singleton (h.nodup peer) hnot
    · rw [if_neg hq]
      exact h.nodup q

theorem Grown.refines {m : Family → PrefixMap P} (hm : t.Refines m) {k : ℕ} {peer : P}
    (hg : Grown t t' k peer) (h' : Linked t') {f : Family}
    (hf : (t'.node k).bits.length = f.addrLen) :
    t'.Refines (Function.update m f ((m f).insert (t'.node k).prefixBits peer)) := by
  have hpeer_k := (Prod.mk.inj hg.owner).1
  -- owners other than `k` were there before, under another prefix
  have hold : ∀ g p q, t.Owns g p q ↔ ∃ n, n ≠ k ∧ t'.Live n ∧
      (t'.node n).bits.length = g.addrLen ∧ (t'.node n).prefixBits = p ∧
      (t'.node n).peer = some q := by
    intro g p q
    constructor
    · rintro ⟨n, hn, hlen, hp, hq⟩
      obtain ⟨hlive, hdata, howner⟩ := hg.kept n hn
      refine ⟨n, ?_, hlive, (bits_of_data hdata).symm ▸ hlen, (prefixBits_of_data hdata).trans hp,
        (peer_of_owner howner).trans hq⟩
      rintro rfl
      exact hg.fresh hn
    · rintro ⟨n, hk, hn, hlen, hp, hq⟩
      by_cases hlive : t.Live n
      · obtain ⟨-, hdata, howner⟩ := hg.kept n hlive
        exact ⟨n, hlive, bits_of_data hdata ▸ hlen, (prefixBits_of_data hdata).symm.trans hp,
          (peer_of_owner howner).symm.trans hq⟩
      · rw [(Prod.mk.inj (hg.other n hn hk hlive).1).1] at hq
        cases hq
  intro g p q
  by_cases hnew : g = f ∧ p = (t'.node k).prefixBits
  · -- at the new prefix, where links leave room for one node only
    obtain ⟨rfl, rfl⟩ := hnew
    rw [update_self, PrefixMap.insert_self]
    constructor
    · intro hq
      exact ⟨k, hg.live, hf, rfl, hpeer_k.trans hq⟩
    · rintro ⟨n, hn, hlen, hp, hq⟩
      have hnk : n = k := h'.eq_of_prefixBits hn hg.live (hlen.trans hf.symm) hp
      rw [hnk, hpeer_k] at hq
      exact hq
  · rw [update_insert_of_ne hnew, hm g p q, hold]
    constructor
    · rintro ⟨n, -, hn, hrest⟩
      exact ⟨n, hn, hrest⟩
    · rintro ⟨n, hn, hlen, hp, hq⟩
      refine ⟨n, ?_, hn, hlen, hp, hq⟩
      rintro rfl
      exact hnew ⟨addrLen_injective (hlen.symm.trans hf), hp.symm⟩

end Owners

/-! ## §2 Another owner for a stored prefix -/

section SetOwner

variable [DecidableEq P]

/-- Leaving the list of its peer changes nothing else about a node. -/
theorem removeFromPeerEntries_spec (h : WF t) {n : ℕ} (hn : t.Live n) :
    (∀ s, (t.removeFromPeerEntries n).get s = t.get s) ∧
    (∀ m, ((t.removeFromPeerEntries n).node m).parent = (t.node m).parent) ∧
    (∀ m, ((t.removeFromPeerEntries n).node m).data = (t.node m).data) ∧
    (∀ m, ((t.removeFromPeerEntries n).node m).peer = (t.node m).peer) ∧
    (∀ m, ((t.removeFromPeerEntries n).node m).perPeerElem =
      if m = n then none else (t.node m).perPeerElem) ∧ (t.removeFromPeerEntries n).next = t.next ∧
    (∀ q x, x ∈ (t.removeFromPeerEntries n).trieEntries q ↔ x ≠ n ∧ x ∈ t.trieEntries q) ∧
    (∀ q, ((t.removeFromPeerEntries n).trieEntries q).Nodup) := by
  rw [removeFromPeerEntries_eq t n (h.elem n hn)]
  refine ⟨?_, ?_, ?_, ?_, ?_, rfl, ?_, ?_⟩
  · intro s
    cases s with
    | root f => rfl
    | child m bit => by_cases hm : m = n <;> simp [get, hm]
  · intro m
    by_cases hm : m = n <;> simp [hm]
  · intro m
    by_cases hm : m = n <;> simp [hm, TrieEntry.data]
  · intro m
    by_cases hm : m = n <;> simp [hm]
  · intro m
    by_cases hm : m = n <;> simp [hm]
  · intro q x
    -- a node is in the list of its peer and in no other one
    cases hpeer : (t.node n).peer with
    | none =>
      have hnot : n ∉ t.trieEntries q := by
        rw [h.listed, hpeer]
        simp
      refine ⟨fun hx => ⟨?_, hx⟩, fun hx => hx.2⟩
      rintro rfl
      exact hnot hx
    | some o =>
      by_cases hq : q = o
      · simp [hq, (h.nodup o).mem_erase_iff]
      · have hnot : n ∉ t.trieEntries q := by
          rw [h.listed, hpeer]
          simp [Ne.symm hq]
        simp only [update_of_ne hq]
        refine ⟨fun hx => ⟨?_, hx⟩, fun hx => hx.2⟩
        rintro rfl
        exact hnot hx
  · intro q
    cases hpeer : (t.node n).peer with
    | none => exact h.nodup q
    | some o =>
      by_cases hq : q = o
      · simpa [hq] using (h.nodup o).erase n
      · simpa [hq] using h.nodup q

/-- A stored prefix changes its owner. -/
theorem setOwner_spec {m : Family → PrefixMap P} (h : WF t) (hm : t.Refines m) {n : ℕ}
    (hn : t.Live n) {f : Family} (hf : (t.node n).bits.length = f.addrLen) (peer : P) :
    WF (((t.removeFromPeerEntries n).setPeer n (some peer)).addToPeerEntries n peer) ∧
      (((t.removeFromPeerEntries n).setPeer n (some peer)).addToPeerEntries n peer).Refines
        (Function.update m f ((m f).insert (t.node n).prefixBits peer)) := by
  obtain ⟨hget, hpar, hdata, hpeer, helem, hnext, hmem, hnodup⟩ := removeFromPeerEntries_spec h hn
  obtain ⟨t', ht'⟩ : ∃ t', t' =
    ((t.removeFromPeerEntries n).setPeer n (some peer)).addToPeerEntries n peer := ⟨_, rfl⟩
  rw [← ht']
  -- links and prefixes stay; the owner and the list element of `n` are new
  have hget' : ∀ s, t'.get s = t.get s := by simp [ht', hget]
  have hpar' : ∀ x, (t'.node x).parent = (t.node x).parent := by simp [ht', hpar]
  have hdata' : ∀ x, (t'.node x).data = (t.node x).data := by simp [ht', hdata]
  have hpeer' : ∀ x, (t'.node x).peer = if x = n then some peer else (t.node x).peer := by
    intro x
    by_cases hx : x = n <;> simp [ht', addToPeerEntries, setPeer, node_modify, hx, hpeer]
  have helem' : ∀ x, (t'.node x).perPeerElem =
      if x = n then some peer else (t.node x).perPeerElem := by
    intro x
    by_cases hx : x = n <;> simp [ht', addToPeerEntries, setPeer, node_modify, hx, helem]
  have hlive : ∀ x, t'.Live x ↔ t.Live x := by
    intro x
    rw [Live, Live, hpar']
  have hlinked : Linked t' := h.toLinked.congr hlive (fun s _ => hget' s) (fun x _ => hpar' x)
    (fun x _ => hdata' x)
  have hentries : t'.trieEntries = update (t.removeFromPeerEntries n).trieEntries peer
      ((t.removeFromPeerEntries n).trieEntries peer ++ [n]) := by
    rw [ht']
    rfl
  -- the fields of `WF` behind the links, and then the map
  refine ⟨⟨hlinked, ?_, ?_, ?_, ?_, ?_⟩, ?_⟩
  · intro x hx
    have : t'.next = t.next := by
      rw [ht']
      exact hnext
    rw [this]
    exact h.bound x ((hlive x).mp hx)
  · -- only nodes other than `n` can still be without an owner
    intro x hx hnone bit
    rw [hpeer'] at hnone
    split_ifs at hnone with hxn
    rw [child_eq_get, hget']
    exact h.branch x ((hlive x).mp hx) hnone bit
  · intro x hx
    rw [hpeer', helem']
    split_ifs with hxn
    · rfl
    · exact h.elem x ((hlive x).mp hx)
  · -- the node has left the list of its old peer and is at the end of the new one
    intro q x
    have hold : x ∈ (t.removeFromPeerEntries n).trieEntries q ↔
        x ≠ n ∧ t.Live x ∧ (t.node x).peer = some q := by
      rw [hmem, h.listed]
    rw [hentries, hlive, hpeer', update_apply]
    by_cases hxn : x = n
    · by_cases hq : q = peer
      · simp [hxn, hq, hn]
      · simp [hxn, hq, hmem, Ne.symm hq]
    · by_cases hq : q = peer
      · subst hq
        simp [hxn, hold]
      · simp [hxn, hq, hold]
  · intro q
    rw [hentries, update_apply]
    by_cases hq : q = peer
    · have hnot : n ∉ (t.removeFromPeerEntries n).trieEntries peer :=
        fun hx => ((hmem _ _).mp hx).1 rfl
      rw [if_pos hq]
      exact nodup_append_singleton (hnodup peer) hnot
    · rw [if_neg hq]
      exact hnodup q
  · intro g p q
    -- the map changes at the prefix of `n`; another node has another prefix
    by_cases hnew : g = f ∧ p = (t.node n).prefixBits
    · obtain ⟨rfl, rfl⟩ := hnew
      rw [update_self, PrefixMap.insert_self]
      constructor
      · intro hq
        exact ⟨n, (hlive n).mpr hn, (bits_of_data (hdata' n)) ▸ hf, prefixBits_of_data (hdata' n),
          by rw [hpeer', if_pos rfl, hq]⟩
      · rintro ⟨x, hx, hlen, hp, hq⟩
        have hxn : x = n := by
          refine h.eq_of_prefixBits ((hlive x).mp hx) hn ?_
            ((prefixBits_of_data (hdata' x)).symm.trans hp)
          rw [← bits_of_data (hdata' x), hlen, hf]
        rw [hpeer', if_pos hxn] at hq
        exact hq
    · rw [update_insert_of_ne hnew, hm g p q]
      have hne : ∀ x, (t.node x).bits.length = g.addrLen → (t.node x).prefixBits = p → x ≠ n := by
        rintro x hlen hp rfl
        exact hnew ⟨addrLen_injective (hlen.symm.trans hf), hp.symm⟩
      constructor
      · rintro ⟨x, hx, hlen, hp, hq⟩
        exact ⟨x, (hlive x).mpr hx, (bits_of_data (hdata' x)).symm ▸ hlen,
          (prefixBits_of_data (hdata' x)).trans hp, by rw [hpeer', if_neg (hne x hlen hp), hq]⟩
      · rintro ⟨x, hx, hlen, hp, hq⟩
        rw [bits_of_data (hdata' x)] at hlen
        rw [prefixBits_of_data (hdata' x)] at hp
        rw [hpeer', if_neg (hne x hlen hp)] at hq
        exact ⟨x, (hlive x).mp hx, hlen, hp, hq⟩

end SetOwner

end AllowedIPs

end AmneziaWG.Device
