import AmneziaWG.Device.AllowedIPs.Prefixes
import AmneziaWG.Lib.PrefixMap

/-!
# The Invariant of the Trie

The invariant is local: it speaks about one link at a time.  A node is *live* while its
`parentBit` is set (`zeroizePointers` clears it), live slots and live nodes point at each
other, and along every link the prefix gets longer in the direction of the slot.

From this the two global facts follow that the operations rely on: a prefix is stored in
at most one node (`Linked.unique`), and a walk towards a stored prefix never leaves the
path to it (`Linked.toward`).
-/

namespace AmneziaWG.Device

open AmneziaWG.Lib Option Nat

variable {P : Type}

/-! ## §1 Nodes that are well formed on their own -/

/-- The fields of a node agree with each other. -/
structure EntryOk (e : TrieEntry P) : Prop where
  addr : IsAddr e.bits
  cidr_le : e.cidr ≤ 8 * e.bits.length
  byte : e.bitAtByte = e.cidr / 8
  shift : e.bitAtShift = 7 - e.cidr % 8
  masked : ∀ i, e.cidr ≤ i → i < 8 * e.bits.length → bitAt e.bits i = false

/-- The prefix of `n` extends the prefix of `p` in direction `bit`. -/
structure Extends (p : TrieEntry P) (bit : Bool) (n : TrieEntry P) : Prop where
  len : n.bits.length = p.bits.length
  lt : p.cidr < n.cidr
  agree : AgreeTo p.cidr p.bits n.bits
  bit : bitAt n.bits p.cidr = bit

/-- The prefix of `p` is a prefix of the address `ip`. -/
structure Covers (p : TrieEntry P) (ip : Bytes) : Prop where
  len : p.bits.length = ip.length
  agree : AgreeTo p.cidr p.bits ip

theorem Covers.of_le {p n : TrieEntry P} {ip : Bytes} (hlen : p.bits.length = n.bits.length)
    (hle : p.cidr ≤ n.cidr) (hagree : AgreeTo p.cidr p.bits n.bits) (h : Covers n ip) :
    Covers p ip :=
  ⟨hlen.trans h.len, hagree.trans (h.agree.mono hle)⟩

/-- `commonBits(node.bits, ip) >= node.cidr` is the test of containment. -/
theorem commonBits_ge_iff {e : TrieEntry P} (he : EntryOk e) {ip : Bytes}
    (hlen : e.bits.length = ip.length) : commonBits e.bits ip ≥ e.cidr ↔ Covers e ip := by
  rw [ge_iff_le, le_commonBits_iff he.addr hlen he.cidr_le]
  exact ⟨fun h => ⟨hlen, h⟩, fun h => h.agree⟩

theorem EntryOk.choose {e : TrieEntry P} (he : EntryOk e) {ip : Bytes}
    (h : e.cidr < 8 * ip.length) : e.choose ip = some (bitAt ip e.cidr) :=
  choose_eq he.byte he.shift h

namespace AllowedIPs

/-! ## §2 Links -/

/-- A node that is linked into a table. -/
def Live (t : AllowedIPs P) (n : ℕ) : Prop :=
  (t.node n).parent.parentBit ≠ none

/-- The slots of the table: the two roots and the child fields of live nodes. -/
def LiveSlot (t : AllowedIPs P) : Slot → Prop
  | .root _ => True
  | .child n _ => t.Live n

/-- Slots and nodes point at each other, and prefixes grow along the links. -/
structure Linked (t : AllowedIPs P) : Prop where
  held : ∀ s n, t.LiveSlot s → t.get s = some n →
    t.Live n ∧ (t.node n).parent = s.indirection
  holds : ∀ n s, t.Live n → (t.node n).parent.parentBit = some s →
    t.LiveSlot s ∧ t.get s = some n
  entry : ∀ n, t.Live n → EntryOk (t.node n)
  edge : ∀ p bit n, t.Live p → t.get (.child p bit) = some n →
    Extends (t.node p) bit (t.node n)
  family : ∀ f n, t.root f = some n → (t.node n).bits.length = f.addrLen

/-- The whole invariant: links, branch nodes with two children, and for every peer the
list of exactly the nodes that it owns. -/
structure WF (t : AllowedIPs P) : Prop extends Linked t where
  bound : ∀ n, t.Live n → n < t.next
  branch : ∀ n, t.Live n → (t.node n).peer = none → ∀ bit, (t.node n).child bit ≠ none
  elem : ∀ n, t.Live n → (t.node n).perPeerElem = (t.node n).peer
  listed : ∀ peer n, n ∈ t.trieEntries peer ↔ t.Live n ∧ (t.node n).peer = some peer
  nodup : ∀ peer, (t.trieEntries peer).Nodup

variable {t : AllowedIPs P} {n : ℕ}

theorem Linked.root_live (h : Linked t) {f : Family} (hr : t.root f = some n) : t.Live n :=
  (h.held (.root f) n trivial hr).1

theorem Linked.child_live (h : Linked t) {p : ℕ} {bit : Bool}
    (hp : t.Live p) (hc : (t.node p).child bit = some n) : t.Live n :=
  (h.held (.child p bit) n hp hc).1

theorem Linked.slot_cases (h : Linked t) (hn : t.Live n) :
    (∃ f, t.root f = some n ∧ (t.node n).parent = (Slot.root f).indirection) ∨
      ∃ p bit, t.Live p ∧ (t.node p).child bit = some n ∧
        (t.node n).parent = (Slot.child p bit).indirection := by
  obtain ⟨s, hs⟩ := ne_none_iff_exists'.mp hn
  obtain ⟨hlive, hget⟩ := h.holds n s hn hs
  have hpar := (h.held s n hlive hget).2
  cases s with
  | root f => exact Or.inl ⟨f, hget, hpar⟩
  | child p bit => exact Or.inr ⟨p, bit, hlive, hget, hpar⟩

theorem addrLen_injective : Function.Injective Family.addrLen := by
  intro f g h
  cases f <;> cases g <;> first | rfl | cases h

/-! ## §3 Paths and uniqueness of prefixes -/

def Link (t : AllowedIPs P) (p n : ℕ) : Prop := t.Live p ∧ ∃ bit, (t.node p).child bit = some n

/-- Node `p` is on the path from a root to node `n`. -/
def Above (t : AllowedIPs P) : ℕ → ℕ → Prop := Relation.ReflTransGen t.Link

theorem Linked.covers_of_above (h : Linked t) {p : ℕ} (hpn : t.Above p n) {ip : Bytes}
    (hni : Covers (t.node n) ip) : (t.node p).cidr ≤ (t.node n).cidr ∧ Covers (t.node p) ip := by
  induction hpn with
  | refl => exact ⟨le_rfl, hni⟩
  | @tail q n hpq hlink ih =>
    obtain ⟨hq, bit, hc⟩ := hlink
    have hedge := h.edge q bit n hq hc
    obtain ⟨hle, hpi⟩ := ih (.of_le hedge.len.symm hedge.lt.le hedge.agree hni)
    exact ⟨hle.trans hedge.lt.le, hpi⟩

theorem Linked.root_above (h : Linked t) {f : Family} (hn : t.Live n)
    (hf : (t.node n).bits.length = f.addrLen) : ∃ r, t.root f = some r ∧ t.Above r n := by
  -- by induction on the prefix length, going from a node to the holder of its slot
  induction hk : (t.node n).cidr using Nat.strong_induction_on generalizing n with
  | _ k ih =>
    subst hk
    rcases h.slot_cases hn with ⟨g, hg, -⟩ | ⟨p, bit, hp, hc, -⟩
    · have hgf : g = f := addrLen_injective ((h.family g n hg).symm.trans hf)
      exact ⟨n, hgf ▸ hg, .refl⟩
    · have hedge := h.edge p bit n hp hc
      obtain ⟨r, hr, habove⟩ := ih _ hedge.lt hp (hedge.len.symm.trans hf) rfl
      exact ⟨r, hr, habove.tail ⟨hp, bit, hc⟩⟩

/-- The first link of a path to a node that covers `ip` goes in the direction of `ip`. -/
theorem Linked.first_link (h : Linked t) {p c : ℕ} {bit : Bool} (hp : t.Live p)
    (hc : (t.node p).child bit = some c) (hcn : t.Above c n) {ip : Bytes}
    (hni : Covers (t.node n) ip) :
    (t.node p).cidr < (t.node n).cidr ∧ bit = bitAt ip (t.node p).cidr := by
  have hedge := h.edge p bit c hp hc
  obtain ⟨hle, hci⟩ := h.covers_of_above hcn hni
  exact ⟨hedge.lt.trans_le hle, hedge.bit.symm.trans (hci.agree _ hedge.lt)⟩

theorem Linked.comparable (h : Linked t) {m : ℕ} (hm : t.Live m) (hn : t.Live n) {ip : Bytes}
    (hmi : Covers (t.node m) ip) (hni : Covers (t.node n) ip) : t.Above m n ∨ t.Above n m := by
  induction hk : (t.node n).cidr using Nat.strong_induction_on generalizing n with
  | _ k ih =>
    subst hk
    rcases h.slot_cases hn with ⟨f, hf, -⟩ | ⟨q, bit, hq, hc, -⟩
    · obtain ⟨r, hr, habove⟩ :=
        h.root_above hm (hmi.len.trans (hni.len.symm.trans (h.family f n hf)))
      rw [hf] at hr
      exact .inr (Option.some.inj hr ▸ habove)
    · have hedge := h.edge q bit n hq hc
      have hqi : Covers (t.node q) ip := .of_le hedge.len.symm hedge.lt.le hedge.agree hni
      rcases ih _ hedge.lt hq hqi rfl with hmq | hqm
      · exact .inl (hmq.tail ⟨hq, bit, hc⟩)
      · rcases Relation.ReflTransGen.cases_head hqm with rfl | ⟨c, ⟨-, bit', hc'⟩, hcm⟩
        · exact .inl (.single ⟨hq, bit, hc⟩)
        · -- the path from `q` towards the address goes through `n`
          rw [(h.first_link hq hc' hcm hmi).2, ← (h.first_link hq hc .refl hni).2, hc] at hc'
          exact .inr (Option.some.inj hc' ▸ hcm)

/-- A prefix is stored in at most one node. -/
theorem Linked.unique (h : Linked t) {m : ℕ} (hm : t.Live m) (hn : t.Live n)
    (hlen : (t.node m).bits.length = (t.node n).bits.length)
    (hcidr : (t.node m).cidr = (t.node n).cidr)
    (hagree : AgreeTo (t.node n).cidr (t.node m).bits (t.node n).bits) : m = n := by
  have hni : Covers (t.node n) (t.node n).bits := ⟨rfl, AgreeTo.refl _ _⟩
  have hmi : Covers (t.node m) (t.node n).bits := ⟨hlen, hcidr ▸ hagree⟩
  -- a path between prefixes of one length has no link
  rcases h.comparable hm hn hmi hni with hpath | hpath
  all_goals rcases Relation.ReflTransGen.cases_head hpath with heq | ⟨c, ⟨hp, bit, hc⟩, hcn⟩
  · exact heq
  · exact absurd hcidr (h.first_link hp hc hcn hni).1.ne
  · exact heq.symm
  · exact absurd hcidr.symm (h.first_link hp hc hcn hmi).1.ne

/-- From a node that covers `ip`, the child in the direction of `ip` lies on the path to
every longer live prefix of `ip`. -/
theorem Linked.toward (h : Linked t) {p : ℕ} (hp : t.Live p) (hn : t.Live n)
    {ip : Bytes} (hpi : Covers (t.node p) ip) (hni : Covers (t.node n) ip)
    (hlt : (t.node p).cidr < (t.node n).cidr) :
    ∃ c, (t.node p).child (bitAt ip (t.node p).cidr) = some c ∧
      (t.node c).cidr ≤ (t.node n).cidr ∧ Covers (t.node c) ip := by
  have hpath : t.Above p n := (h.comparable hp hn hpi hni).resolve_right fun hnp =>
    Nat.not_le.mpr hlt (h.covers_of_above hnp hpi).1
  rcases Relation.ReflTransGen.cases_head hpath with rfl | ⟨c, ⟨-, bit, hc⟩, hcn⟩
  · exact absurd hlt (Nat.lt_irrefl _)
  · rw [(h.first_link hp hc hcn hni).2] at hc
    exact ⟨c, hc, h.covers_of_above hcn hni⟩

theorem empty_wf : WF (empty : AllowedIPs P) := by
  have hdead : ∀ n, ¬(empty : AllowedIPs P).Live n := fun n hn => hn rfl
  refine
    { held := ?_
      holds := fun n s hn => (hdead n hn).elim
      entry := fun n hn => (hdead n hn).elim
      edge := fun p bit n hp => (hdead p hp).elim
      family := fun f n hf => ?_
      bound := fun n hn => (hdead n hn).elim
      branch := fun n hn => (hdead n hn).elim
      elem := fun n hn => (hdead n hn).elim
      listed := fun peer n => ?_
      nodup := fun peer => List.nodup_nil }
  · intro s n hs hget
    cases s with
    | root f => cases hget
    | child p bit => exact (hdead p hs).elim
  · cases hf
  · constructor
    · intro hmem
      cases hmem
    · intro hn
      exact (hdead n hn.1).elim

end AllowedIPs

end AmneziaWG.Device
