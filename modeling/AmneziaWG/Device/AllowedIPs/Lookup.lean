import AmneziaWG.Device.AllowedIPs.Invariant

/-!
# Walks Through the Trie

What `nodePlacement` and `lookup` find on a table that satisfies the invariant.
Both walks end within their fuel because prefixes get longer along the links.

- `nodePlacement_spec`: the node to insert at, and what is in the way below it.
- `lookup_eq_longest`: a lookup is a longest-prefix match in the map that the table
  stands for.
-/

namespace AmneziaWG.Device

open AmneziaWG.Lib List Option

variable {P : Type}

def TrieEntry.prefixBits (e : TrieEntry P) : List Bool :=
  (toBits e.bits).take e.cidr

namespace AllowedIPs

/-! ## §1 The map that a table stands for -/

/-- Peer `q` owns prefix `p` of family `f` in the table. -/
def Owns (t : AllowedIPs P) (f : Family) (p : List Bool) (q : P) : Prop :=
  ∃ n, t.Live n ∧ (t.node n).bits.length = f.addrLen ∧ (t.node n).prefixBits = p ∧
    (t.node n).peer = some q

/-- The table stands for the prefix maps `m`, one for each family. -/
def Refines (t : AllowedIPs P) (m : Family → PrefixMap P) : Prop :=
  ∀ f p q, m f p = some q ↔ t.Owns f p q

variable {ip : Bytes} {t : AllowedIPs P} {m : Family → PrefixMap P} {f : Family}

theorem prefixBits_eq_iff {e : TrieEntry P} (he : EntryOk e) (hlen : e.bits.length = ip.length) :
    e.prefixBits = (toBits ip).take e.cidr ↔ Covers e ip := by
  rw [TrieEntry.prefixBits, take_toBits_eq_iff hlen he.cidr_le]
  exact ⟨fun h => ⟨hlen, h⟩, fun h => h.agree⟩

theorem prefixBits_length {e : TrieEntry P} (he : EntryOk e) : e.prefixBits.length = e.cidr := by
  rw [TrieEntry.prefixBits, length_take, toBits_length, min_eq_left he.cidr_le]

theorem Refines.at_node (hm : t.Refines m) (h : Linked t) {n : ℕ} (hn : t.Live n)
    (hip : ip.length = f.addrLen) (hc : Covers (t.node n) ip) :
    m f ((toBits ip).take (t.node n).cidr) = (t.node n).peer := by
  have hpfx := (prefixBits_eq_iff (h.entry n hn) hc.len).mpr hc
  have hlen : (t.node n).bits.length = f.addrLen := hc.len.trans hip
  cases hpeer : (t.node n).peer with
  | some q => exact (hm f _ q).mpr ⟨n, hn, hlen, hpfx, hpeer⟩
  | none =>
    cases hval : m f ((toBits ip).take (t.node n).cidr) with
    | none => rfl
    | some q =>
      -- an owner would be another node with the same prefix
      obtain ⟨n', hn', hlen', hpfx', hpeer'⟩ := (hm f _ q).mp hval
      have hcidr : (t.node n').cidr = (t.node n).cidr := by
        rw [← prefixBits_length (h.entry n' hn'), hpfx', ← hpfx, prefixBits_length (h.entry n hn)]
      have hc' : Covers (t.node n') ip :=
        (prefixBits_eq_iff (h.entry n' hn') (hlen'.trans hip.symm)).mp (hcidr ▸ hpfx')
      have hsame : n' = n := h.unique hn' hn (hlen'.trans hlen.symm) hcidr
        (hcidr ▸ hc'.agree.trans (hcidr ▸ hc.agree).symm)
      rw [hsame, hpeer] at hpeer'
      cases hpeer'

theorem Refines.node_at (hm : t.Refines m) (h : Linked t) (hip : ip.length = f.addrLen) {i : ℕ}
    (hi : i ≤ 8 * ip.length) {q : P} (hval : m f ((toBits ip).take i) = some q) :
    ∃ n, t.Live n ∧ (t.node n).cidr = i ∧ Covers (t.node n) ip := by
  obtain ⟨n, hn, hlen, hpfx, -⟩ := (hm f _ q).mp hval
  have hcidr : (t.node n).cidr = i := by
    rw [← prefixBits_length (h.entry n hn), hpfx, length_take, toBits_length, min_eq_left hi]
  refine ⟨n, hn, hcidr, ?_⟩
  exact (prefixBits_eq_iff (h.entry n hn) (hlen.trans hip.symm)).mp (hcidr ▸ hpfx)

/-! ## §2 `nodePlacement` -/

/-- What a placement says about the table. -/
def Placed (t : AllowedIPs P) (f : Family) (ip : Bytes) (cidr : ℕ) : Option ℕ × Bool → Prop
  | (none, true) => False
  | (none, false) =>
    ∀ r, t.root f = some r → ¬((t.node r).cidr ≤ cidr ∧ Covers (t.node r) ip)
  | (some n, true) => t.Live n ∧ Covers (t.node n) ip ∧ (t.node n).cidr = cidr
  | (some n, false) =>
    t.Live n ∧ Covers (t.node n) ip ∧ (t.node n).cidr < cidr ∧
      ∀ c, (t.node n).child (bitAt ip (t.node n).cidr) = some c →
        ¬((t.node c).cidr ≤ cidr ∧ Covers (t.node c) ip)

/-- The walk from a child slot of a node `p` that has matched. -/
private theorem nodePlacementFrom_child (h : Linked t) (f : Family)
    {cidr : ℕ} (hcidr : cidr ≤ 8 * ip.length) (fuel p : ℕ) (hp : t.Live p)
    (hcov : Covers (t.node p) ip) (hlt : (t.node p).cidr < cidr)
    (hfuel : 8 * ip.length + 2 ≤ fuel + ((t.node p).cidr + 1)) :
    ∃ r, t.nodePlacementFrom ip cidr fuel (some p)
      ((t.node p).child (bitAt ip (t.node p).cidr)) = some r ∧ t.Placed f ip cidr r := by
  -- each turn goes to a longer prefix, and no prefix is longer than the address
  induction fuel generalizing p with
  | zero => omega
  | succ fuel ih =>
    cases hchild : (t.node p).child (bitAt ip (t.node p).cidr) with
    | none =>
      refine ⟨(some p, false), rfl, hp, hcov, hlt, ?_⟩
      intro c hc
      rw [hchild] at hc
      cases hc
    | some c =>
      have hlive := h.child_live hp hchild
      have hedge := h.edge p _ c hp hchild
      have hclen : (t.node c).bits.length = ip.length := hedge.len.trans hcov.len
      have hge := commonBits_ge_iff (h.entry c hlive) hclen
      simp only [nodePlacementFrom]
      -- the test of the loop, said of prefixes
      by_cases hmatch : (t.node c).cidr ≤ cidr ∧ Covers (t.node c) ip
      · rw [if_pos ⟨hmatch.1, hge.mpr hmatch.2⟩]
        by_cases hexact : (t.node c).cidr = cidr
        · rw [if_pos hexact]
          exact ⟨(some c, true), rfl, hlive, hmatch.2, hexact⟩
        · have hlt' : (t.node c).cidr < cidr := lt_of_le_of_ne hmatch.1 hexact
          have hplt := hedge.lt
          rw [if_neg hexact, (h.entry c hlive).choose (by omega), bind_some]
          exact ih c hlive hmatch.2 hlt' (by omega)
      · rw [if_neg fun hc => hmatch ⟨hc.1, hge.mp hc.2⟩]
        refine ⟨(some p, false), rfl, hp, hcov, hlt, ?_⟩
        intro c' hc'
        rw [hchild] at hc'
        cases hc'
        exact hmatch

/-- `nodePlacement` ends, and at the right node. -/
theorem nodePlacement_spec (h : Linked t)
    (hip : ip.length = f.addrLen) {cidr : ℕ} (hcidr : cidr ≤ 8 * ip.length) :
    ∃ r, t.nodePlacement f ip cidr = some r ∧ t.Placed f ip cidr r := by
  rw [nodePlacement]
  cases hroot : t.root f with
  | none =>
    refine ⟨(none, false), rfl, ?_⟩
    intro r hr
    rw [hroot] at hr
    cases hr
  | some n =>
    have hlive := h.root_live hroot
    have hlen : (t.node n).bits.length = ip.length := (h.family f n hroot).trans hip.symm
    have hge := commonBits_ge_iff (h.entry n hlive) hlen
    simp only [nodePlacementFrom]
    -- the root is the only node without a parent that the walk could stop at
    by_cases hmatch : (t.node n).cidr ≤ cidr ∧ Covers (t.node n) ip
    · rw [if_pos ⟨hmatch.1, hge.mpr hmatch.2⟩]
      by_cases hexact : (t.node n).cidr = cidr
      · rw [if_pos hexact]
        exact ⟨(some n, true), rfl, hlive, hmatch.2, hexact⟩
      · have hlt : (t.node n).cidr < cidr := lt_of_le_of_ne hmatch.1 hexact
        rw [if_neg hexact, (h.entry n hlive).choose (by omega), bind_some]
        exact nodePlacementFrom_child h f hcidr _ n hlive hmatch.2 hlt (by omega)
    · rw [if_neg fun hc => hmatch ⟨hc.1, hge.mp hc.2⟩]
      refine ⟨(none, false), rfl, ?_⟩
      intro r hr
      rw [hroot] at hr
      cases hr
      exact hmatch

/-! ## §3 `lookup` -/

/-- The state of a lookup walk: `found` is the best match with fewer than `k` bits, and
every longer live prefix of `ip` is at or below `node`. -/
structure Walk (t : AllowedIPs P) (m : PrefixMap P) (ip : Bytes) (k : ℕ) (found : Option P)
    (node : Option ℕ) : Prop where
  found_eq : found = m.below (toBits ip) k
  ahead : ∀ x, t.Live x → Covers (t.node x) ip → k ≤ (t.node x).cidr →
    ∃ n, node = some n ∧ (t.node n).cidr ≤ (t.node x).cidr ∧ Covers (t.node n) ip
  live : ∀ n, node = some n →
    t.Live n ∧ (t.node n).bits.length = ip.length ∧ k ≤ (t.node n).cidr

private theorem Walk.finish (hm : t.Refines m) (h : Linked t) (hip : ip.length = f.addrLen) {k : ℕ}
    (hk : k ≤ 8 * ip.length + 1) {found : Option P} (hfound : found = (m f).below (toBits ip) k)
    (hnone : ∀ x, t.Live x → Covers (t.node x) ip → ¬k ≤ (t.node x).cidr) :
    found = (m f).longest (toBits ip) := by
  rw [hfound, PrefixMap.longest, toBits_length]
  refine (PrefixMap.below_eq_of_gap hk ?_).symm
  intro i hki hi
  cases hval : m f ((toBits ip).take i) with
  | none => rfl
  | some q =>
    obtain ⟨x, hx, hcidr, hcov⟩ := hm.node_at h hip (by omega) hval
    exact absurd (hcidr ▸ hki) (hnone x hx hcov)

/-- Passing a node that covers `ip` decides all lengths up to the node's. -/
private theorem Walk.pass (hm : t.Refines m) (h : Linked t) (hip : ip.length = f.addrLen) {k n : ℕ}
    {found : Option P} (w : Walk t (m f) ip k found (some n)) (hcov : Covers (t.node n) ip) :
    (t.node n).peer.or found = (m f).below (toBits ip) ((t.node n).cidr + 1) ∧
      ∀ x, t.Live x → Covers (t.node x) ip → (t.node n).cidr + 1 ≤ (t.node x).cidr →
        ∃ c, (t.node n).child (bitAt ip (t.node n).cidr) = some c ∧
          (t.node c).cidr ≤ (t.node x).cidr ∧ Covers (t.node c) ip := by
  obtain ⟨hn, -, hkn⟩ := w.live n rfl
  constructor
  · rw [PrefixMap.below_succ, hm.at_node h hn hip hcov, w.found_eq]
    congr 1
    refine (PrefixMap.below_eq_of_gap hkn ?_).symm
    intro i hki hi
    cases hval : m f ((toBits ip).take i) with
    | none => rfl
    | some q =>
      have hle := (h.entry n hn).cidr_le
      rw [hcov.len] at hle
      obtain ⟨x, hx, hcidr, hxcov⟩ := hm.node_at h hip (by omega) hval
      obtain ⟨n', hn', hle', -⟩ := w.ahead x hx hxcov (by omega)
      cases hn'
      omega
  · intro x hx hxcov hlt
    exact h.toward hn hx hcov hxcov (by omega)

private theorem lookupFrom_eq (hm : t.Refines m)
    (h : Linked t) (hip : ip.length = f.addrLen) (fuel k : ℕ)
    (found : Option P) (node : Option ℕ) (hfuel : 8 * ip.length + 2 ≤ fuel + k)
    (hk : k ≤ 8 * ip.length + 1) (w : Walk t (m f) ip k found node) :
    t.lookupFrom ip fuel found node = some ((m f).longest (toBits ip)) := by
  -- `Walk` is the invariant: all matches shorter than `k` have been passed
  induction fuel generalizing k found node with
  | zero => omega
  | succ fuel ih =>
    cases node with
    | none =>
      have hend : ∀ x, t.Live x → Covers (t.node x) ip → ¬k ≤ (t.node x).cidr := by
        intro x hx hcov hle
        obtain ⟨n, hn, -⟩ := w.ahead x hx hcov hle
        cases hn
      rw [lookupFrom, Walk.finish hm h hip hk w.found_eq hend]
    | some n =>
      obtain ⟨hn, hlen, hkn⟩ := w.live n rfl
      have hentry := h.entry n hn
      have hge := commonBits_ge_iff hentry hlen
      simp only [lookupFrom]
      by_cases hcov : Covers (t.node n) ip
      · obtain ⟨hfound, hahead⟩ := Walk.pass hm h hip w hcov
        have hle := hentry.cidr_le
        rw [hlen] at hle
        rw [if_pos (hge.mpr hcov)]
        by_cases hlast : (t.node n).bitAtByte = ip.length
        · -- a full-length prefix: `cidr / 8 = len(ip)`
          have hfull : 8 * ip.length ≤ (t.node n).cidr := by
            rw [hentry.byte] at hlast
            omega
          rw [if_pos hlast, Walk.finish hm h hip (by omega) hfound]
          intro x hx hxcov hlt
          have hxle := (h.entry x hx).cidr_le
          rw [hxcov.len] at hxle
          omega
        · have hlt : (t.node n).cidr < 8 * ip.length := by
            rw [hentry.byte] at hlast
            omega
          rw [if_neg hlast, hentry.choose hlt, bind_some]
          refine ih ((t.node n).cidr + 1) _ _ (by omega) (by omega) ⟨hfound, hahead, ?_⟩
          intro c hc
          have hedge := h.edge n _ c hn hc
          exact ⟨h.child_live hn hc, hedge.len.trans hlen, hedge.lt⟩
      · -- every longer match would be below this node, which does not match
        rw [if_neg (mt hge.mp hcov), Walk.finish hm h hip hk w.found_eq]
        intro x hx hxcov hle
        obtain ⟨n', hn', -, hcov'⟩ := w.ahead x hx hxcov hle
        cases hn'
        exact hcov hcov'

/-- A lookup is a longest-prefix match in the map that the table stands for. -/
theorem lookup_eq_longest (hm : t.Refines m) (h : Linked t) (hip : ip.length = f.addrLen) :
    t.lookup ip = some ((m f).longest (toBits ip)) := by
  have hwalk : Walk t (m f) ip 0 none (t.root f) := by
    refine ⟨rfl, ?_, ?_⟩
    · intro x hx hcov _
      obtain ⟨r, hr, hpath⟩ := h.root_above hx (hcov.len.trans hip)
      exact ⟨r, hr, h.covers_of_above hpath hcov⟩
    · intro n hn
      exact ⟨h.root_live hn, (h.family f n hn).trans hip.symm, Nat.zero_le _⟩
  have hrun := lookupFrom_eq hm h hip (8 * ip.length + 2) 0 none (t.root f) (by omega) (by omega)
    hwalk
  rw [lookup]
  cases f with
  | ipv4 =>
    have hne : ip.length ≠ Family.ipv6.addrLen := by
      rw [hip]
      decide
    rw [if_neg hne, if_pos hip, hrun]
  | ipv6 => rw [if_pos hip, hrun]

end AllowedIPs

end AmneziaWG.Device
