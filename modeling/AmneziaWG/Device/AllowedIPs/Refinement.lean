import AmneziaWG.Device.AllowedIPs.Insert
import AmneziaWG.Device.AllowedIPs.Remove

/-!
# AllowedIPs Refines a Prefix Map

Runs of `Insert`, `Remove` and `RemoveByPeer` on an empty table never go wrong, and after
every run the table answers lookups by longest-prefix match in the map that the same
operations make.

The abstract map gives an owner to every masked prefix, which is a bit string: the first
`bits` bits of the address.  Host bits do not appear in it.

## Main results

- `runOps_spec`: every run succeeds, keeps the invariant and refines the abstract run.
- `lookup_longest_prefix`: what a lookup returns after any run.
-/

namespace AmneziaWG.Device

open AmneziaWG.Lib List Option Function

def Prefix.maskedBits (pfx : Prefix) : List Bool :=
  (toBits pfx.addr).take pfx.bits

namespace AllowedIPs

variable {P : Type} [DecidableEq P]
variable {t : AllowedIPs P}

/-! ## §1 Runs -/

inductive Op (P : Type) where
  | insert (pfx : Prefix) (peer : P)
  | remove (pfx : Prefix) (peer : P)
  | removeByPeer (peer : P)

def Op.run (t : AllowedIPs P) : Op P → Option (AllowedIPs P)
  | .insert pfx peer => t.insertPrefix pfx peer
  | .remove pfx peer => t.remove pfx peer
  | .removeByPeer peer => t.removeByPeer peer

def runOps (t : AllowedIPs P) : List (Op P) → Option (AllowedIPs P)
  | [] => some t
  | op :: ops => (op.run t).bind fun t => t.runOps ops

/-- What an operation means for the owners of masked prefixes. -/
def Op.apply (m : Family → PrefixMap P) : Op P → Family → PrefixMap P
  | .insert pfx peer => Function.update m pfx.family ((m pfx.family).insert pfx.maskedBits peer)
  | .remove pfx peer => Function.update m pfx.family ((m pfx.family).remove pfx.maskedBits peer)
  | .removeByPeer peer => fun f => (m f).removeOwner peer

/-- The owners after a sequence of operations on no owners at all. -/
def owners (ops : List (Op P)) : Family → PrefixMap P :=
  ops.foldl Op.apply fun _ => PrefixMap.empty

/-! ## §2 Refinement -/

theorem Op.run_spec {m : Family → PrefixMap P} (h : WF t) (hm : t.Refines m)
    (op : Op P) : ∃ t', op.run t = some t' ∧ WF t' ∧ t'.Refines (op.apply m) := by
  cases op with
  | insert pfx peer =>
    refine insert_spec h hm pfx.addr_len ?_ peer
    rw [pfx.addr_len]
    exact pfx.bits_le
  | remove pfx peer => exact remove_spec h hm pfx peer
  | removeByPeer peer => exact removeByPeer_spec h hm peer

/-- A whole run. -/
theorem runOps_spec {m : Family → PrefixMap P} (h : WF t) (hm : t.Refines m) (ops : List (Op P)) :
    ∃ t', t.runOps ops = some t' ∧ WF t' ∧ t'.Refines (ops.foldl Op.apply m) := by
  induction ops generalizing t m with
  | nil => exact ⟨t, rfl, h, hm⟩
  | cons op ops ih =>
    obtain ⟨t₁, hrun, h₁, hm₁⟩ := op.run_spec h hm
    obtain ⟨t', hrun', h', hm'⟩ := ih h₁ hm₁
    refine ⟨t', ?_, h', hm'⟩
    rw [runOps, hrun, bind_some, hrun']

omit [DecidableEq P] in
theorem empty_refines : (empty : AllowedIPs P).Refines fun _ => PrefixMap.empty := by
  intro f p q
  constructor
  · intro h
    cases h
  · rintro ⟨n, hn, -⟩
    exact absurd rfl hn

/-- After any operations a lookup returns the owner of the longest masked prefix that
contains the address, and `nil` when there is none. -/
theorem lookup_longest_prefix (ops : List (Op P)) (f : Family) (ip : Bytes)
    (hip : ip.length = f.addrLen) : ∃ t, empty.runOps ops = some t ∧
      (∀ peer, t.lookup ip = some (some peer) ↔ ∃ p, p <+: toBits ip ∧ owners ops f p = some peer ∧
          ∀ q, q <+: toBits ip → p.length < q.length → owners ops f q = none) ∧
      (t.lookup ip = some none ↔ ∀ p, p <+: toBits ip → owners ops f p = none) := by
  obtain ⟨t, hrun, h, hm⟩ := runOps_spec empty_wf empty_refines ops
  have hlookup : t.lookup ip = some ((owners ops f).longest (toBits ip)) :=
    lookup_eq_longest hm h.toLinked hip
  refine ⟨t, hrun, ?_, ?_⟩
  · intro peer
    rw [hlookup, some.injEq, PrefixMap.longest_eq_some_iff]
  · rw [hlookup, some.injEq, PrefixMap.longest_eq_none_iff]

/-- `10.0.0.0/8` for peer 0 and, with host bits set, `10.1.2.3/16` for peer 1. -/
def nestedPrefixes : List (Op (Fin 2)) :=
  [.insert ⟨.ipv4, [10, 0, 0, 0], 8, rfl, by decide⟩ 0,
    .insert ⟨.ipv4, [10, 1, 2, 3], 16, rfl, by decide⟩ 1]

theorem lookup_longest_prefix_nested : ([10, 1, 7, 7] : Bytes).length = Family.ipv4.addrLen ∧
      ∃ t, empty.runOps nestedPrefixes = some t ∧ t.lookup [10, 1, 7, 7] = some (some 1) := by
  refine ⟨rfl, ?_⟩
  obtain ⟨t, hrun, hsome, -⟩ :=
    lookup_longest_prefix nestedPrefixes .ipv4 ([10, 1, 7, 7] : Bytes) rfl
  refine ⟨t, hrun, (hsome 1).mpr ⟨(toBits [10, 1, 7, 7]).take 16, take_prefix _ _, ?_, ?_⟩⟩
  · decide
  · intro q hq hlt
    have hle := hq.length_le
    have hall : ∀ i < 33, 16 < i →
        owners nestedPrefixes .ipv4 ((toBits [10, 1, 7, 7]).take i) = none := by decide
    rw [prefix_iff_eq_take.mp hq]
    exact hall q.length (Nat.lt_succ_of_le hle) hlt

/-! ## §3 Tables that carry the invariant -/

omit [DecidableEq P] in
theorem WF.exists_refines (h : WF t) : ∃ m, t.Refines m := by
  classical
  refine ⟨fun f p => if howned : ∃ q, t.Owns f p q then some howned.choose else none, ?_⟩
  intro f p q
  by_cases howned : ∃ q, t.Owns f p q
  · simp only [dif_pos howned]
    constructor
    · intro hq
      exact some.inj hq ▸ howned.choose_spec
    · rintro ⟨n, hn, hlen, hp, hq⟩
      -- both owners are the peer of the one node with this prefix
      obtain ⟨n', hn', hlen', hp', hq'⟩ := howned.choose_spec
      have hsame : n' = n := h.eq_of_prefixBits hn' hn (hlen'.trans hlen.symm) (hp'.trans hp.symm)
      rw [← hq', hsame, hq]
  · simp only [dif_neg howned]
    constructor
    · intro hq
      cases hq
    · intro hq
      exact absurd ⟨q, hq⟩ howned

theorem Op.run_isSome (h : WF t) (op : Op P) : ∃ t', op.run t = some t' ∧ WF t' := by
  obtain ⟨m, hm⟩ := h.exists_refines
  obtain ⟨t', hrun, h', -⟩ := op.run_spec h hm
  exact ⟨t', hrun, h'⟩

end AllowedIPs

/-- An `AllowedIPs` with its invariant: the operations on it are total. -/
structure RoutingTable (P : Type) where
  table : AllowedIPs P
  wf : table.WF

namespace RoutingTable

variable {P : Type}

def empty : RoutingTable P :=
  ⟨AllowedIPs.empty, AllowedIPs.empty_wf⟩

/-- Peer `q` owns prefix `p` of family `f`. -/
def Owns (t : RoutingTable P) (f : Family) (p : List Bool) (q : P) : Prop := t.table.Owns f p q

theorem not_owns_empty (f : Family) (p : List Bool) (q : P) :
    ¬(empty : RoutingTable P).Owns f p q := by
  rintro ⟨n, hn, -⟩
  exact absurd rfl hn

theorem owner_unique (t : RoutingTable P) {f : Family} {p : List Bool} {q q' : P} (h : t.Owns f p q)
    (h' : t.Owns f p q') : q = q' := by
  obtain ⟨m, hm⟩ := t.wf.exists_refines
  exact some.inj (((hm f p q).mpr h).symm.trans ((hm f p q').mpr h'))

variable [DecidableEq P]

def apply (t : RoutingTable P) (op : AllowedIPs.Op P) : RoutingTable P :=
  match h : op.run t.table with
  | some t' => ⟨t', by
      obtain ⟨t'', hrun, hwf⟩ := op.run_isSome t.wf
      rw [hrun] at h
      exact Option.some.inj h ▸ hwf⟩
  | none => t

def insert (t : RoutingTable P) (pfx : Prefix) (peer : P) : RoutingTable P :=
  t.apply (.insert pfx peer)

def remove (t : RoutingTable P) (pfx : Prefix) (peer : P) : RoutingTable P :=
  t.apply (.remove pfx peer)

def removeByPeer (t : RoutingTable P) (peer : P) : RoutingTable P :=
  t.apply (.removeByPeer peer)

section

variable (t : RoutingTable P) (op : AllowedIPs.Op P) (peer : P) (f : Family) (p : List Bool) (q : P)

theorem run_eq : op.run t.table = some (t.apply op).table := by
  obtain ⟨t', hrun, -⟩ := op.run_isSome t.wf
  unfold apply
  split
  · next t'' h => exact h
  · next h => simp [hrun] at h

/-- An operation changes the owners as it changes the map that the table stands for. -/
theorem exists_refines_apply :
    ∃ m, t.table.Refines m ∧ (t.apply op).table.Refines (op.apply m) := by
  obtain ⟨m, hm⟩ := t.wf.exists_refines
  obtain ⟨t', hrun, -, hm'⟩ := op.run_spec t.wf hm
  rw [t.run_eq op] at hrun
  cases hrun
  exact ⟨m, hm, hm'⟩

theorem owns_insert_iff (pfx : Prefix) (peer : P) (f : Family) (p : List Bool) (q : P) :
    (t.insert pfx peer).Owns f p q ↔
      if f = pfx.family ∧ p = pfx.maskedBits then q = peer else t.Owns f p q := by
  obtain ⟨m, hm, hm'⟩ := t.exists_refines_apply (.insert pfx peer)
  rw [Owns, insert, ← hm' f p q, AllowedIPs.Op.apply]
  split
  · next h =>
    obtain ⟨rfl, rfl⟩ := h
    rw [update_self, PrefixMap.insert_self, some.injEq, eq_comm]
  · next h => rw [AllowedIPs.update_insert_of_ne h, hm f p q, Owns]

theorem owns_of_owns_remove {t : RoutingTable P} {pfx : Prefix} {peer : P} {f : Family}
    {p : List Bool} {q : P} (h : (t.remove pfx peer).Owns f p q) : t.Owns f p q := by
  obtain ⟨m, hm, hm'⟩ := t.exists_refines_apply (.remove pfx peer)
  rw [Owns, remove, ← hm' f p q, AllowedIPs.Op.apply] at h
  refine (hm f p q).mp ?_
  by_cases hf : f = pfx.family
  · subst hf
    rw [update_self, PrefixMap.remove] at h
    split at h
    · cases h
    · exact h
  · rwa [update_of_ne hf] at h

theorem owns_removeByPeer_iff : (t.removeByPeer peer).Owns f p q ↔ t.Owns f p q ∧ q ≠ peer := by
  obtain ⟨m, hm, hm'⟩ := t.exists_refines_apply (.removeByPeer peer)
  rw [Owns, removeByPeer, ← hm' f p q, Owns, ← hm f p q]
  show (if m f p = some peer then none else m f p) = some q ↔ _
  split
  · next h =>
    rw [h]
    constructor
    · intro hq
      cases hq
    · rintro ⟨hq, hne⟩
      exact absurd (some.inj hq).symm hne
  · next h =>
    constructor
    · intro hq
      refine ⟨hq, ?_⟩
      rintro rfl
      exact h hq
    · exact And.left

end

end RoutingTable

end AmneziaWG.Device
