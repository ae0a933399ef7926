import AmneziaWG.Device.AllowedIPs.Lookup

/-!
# Pointer Writes and the Two Changes of Shape

`insert` and `remove` change the shape of a trie in two ways only: a node is put into a
slot, above what the slot held (`Linked.attach`), or a node with at most one child is
taken out and its child moves up (`Linked.splice`).  Every structural case of the code is
one of these or two of them in a row, whatever the order of its pointer writes.

§1 gives what can be read after each write.  A table is seen through four readers: the
content of a slot (`get`), and of a node its `parent`, its `owner` and its `data`, which is
the prefix that it stands for.
-/

namespace AmneziaWG.Device

open AmneziaWG.Lib Option Function TrieEntry

variable {P : Type}

/-- A node without its links and its owner. -/
def TrieEntry.data (e : TrieEntry P) : TrieEntry P :=
  { e with peer := none, child := fun _ => none, parent := noParent, perPeerElem := none }

/-- The peer of a node and the list that the node is in. -/
def TrieEntry.owner (e : TrieEntry P) : Option P × Option P :=
  (e.peer, e.perPeerElem)

namespace AllowedIPs

variable {t t' : AllowedIPs P}
variable {bit : Bool} {s : Slot} {n : ℕ}

/-! ## §1 What is read after a write -/

section Reads

variable (t s n) (s' : Slot) (m : ℕ) (v : Option ℕ) (parent : ParentIndirection) (peer : Option P)
  (e : TrieEntry P) (f : TrieEntry P → TrieEntry P)

theorem child_eq_get (bit : Bool) : (t.node n).child bit = t.get (.child n bit) := rfl

theorem node_modify : (t.modify n f).node m = if m = n then f (t.node m) else t.node m := by
  by_cases h : m = n
  · subst h
    simp [modify]
  · simp [modify, h]

@[simp] theorem get_set : (t.set s v).get s' = if s' = s then v else t.get s' := by
  cases s with
  | root f =>
    cases s' with
    | root g => by_cases h : g = f <;> simp [set, get, h]
    | child m bit => simp [set, get]
  | child n bit =>
    cases s' with
    | root g => simp [set, get, modify]
    | child m bit' =>
      by_cases h : m = n
      · by_cases hb : bit' = bit <;> simp [set, get, node_modify, h, hb]
      · simp [set, get, node_modify, h]

@[simp] theorem parent_set : ((t.set s v).node n).parent = (t.node n).parent := by
  cases s with
  | root f => rfl
  | child m bit => by_cases h : n = m <;> simp [set, node_modify, h]

@[simp] theorem data_set : ((t.set s v).node n).data = (t.node n).data := by
  cases s with
  | root f => rfl
  | child m bit => by_cases h : n = m <;> simp [set, node_modify, data, h]

@[simp] theorem owner_set : ((t.set s v).node n).owner = (t.node n).owner := by
  cases s with
  | root f => rfl
  | child m bit => by_cases h : n = m <;> simp [set, node_modify, owner, h]

@[simp] theorem next_set : (t.set s v).next = t.next := by
  cases s <;> rfl

@[simp] theorem trieEntries_set : (t.set s v).trieEntries = t.trieEntries := by
  cases s <;> rfl

theorem get_modify (hf : ∀ e, (f e).child = e.child) : (t.modify n f).get s = t.get s := by
  cases s with
  | root g => rfl
  | child m bit => by_cases h : m = n <;> simp [get, node_modify, h, hf]

@[simp] theorem get_setParent : (t.setParent n parent).get s = t.get s := by
  apply get_modify
  intro e
  rfl

@[simp] theorem parent_setParent :
    ((t.setParent n parent).node m).parent = if m = n then parent else (t.node m).parent := by
  by_cases h : m = n <;> simp [setParent, node_modify, h]

@[simp] theorem data_setParent : ((t.setParent n parent).node m).data = (t.node m).data := by
  by_cases h : m = n <;> simp [setParent, node_modify, data, h]

@[simp] theorem owner_setParent : ((t.setParent n parent).node m).owner = (t.node m).owner := by
  by_cases h : m = n <;> simp [setParent, node_modify, owner, h]

@[simp] theorem get_setPeer : (t.setPeer n peer).get s = t.get s := by
  apply get_modify
  intro e
  rfl

@[simp] theorem parent_setPeer : ((t.setPeer n peer).node m).parent = (t.node m).parent := by
  by_cases h : m = n <;> simp [setPeer, node_modify, h]

@[simp] theorem data_setPeer : ((t.setPeer n peer).node m).data = (t.node m).data := by
  by_cases h : m = n <;> simp [setPeer, node_modify, data, h]

@[simp] theorem owner_setPeer : ((t.setPeer n peer).node m).owner =
      if m = n then (peer, (t.node m).perPeerElem) else (t.node m).owner := by
  by_cases h : m = n <;> simp [setPeer, node_modify, owner, h]

@[simp] theorem get_link : (t.link s n).get s' = if s' = s then some n else t.get s' := by
  simp [link]

@[simp] theorem parent_link :
    ((t.link s n).node m).parent = if m = n then s.indirection else (t.node m).parent := by
  simp [link]

@[simp] theorem data_link : ((t.link s n).node m).data = (t.node m).data := by
  simp [link]

@[simp] theorem owner_link : ((t.link s n).node m).owner = (t.node m).owner := by
  simp [link]

@[simp] theorem next_link : (t.link s n).next = t.next := by
  simp [link, setParent, modify]

@[simp] theorem trieEntries_link : (t.link s n).trieEntries = t.trieEntries := by
  simp [link, setParent, modify]

theorem node_new : (t.new e).node m = if m = t.next then e else t.node m := by
  simp [new, update_apply]

@[simp] theorem next_new : (t.new e).next = t.next + 1 := rfl

@[simp] theorem trieEntries_new : (t.new e).trieEntries = t.trieEntries := rfl

@[simp] theorem get_new : (t.new e).get s = match s with
      | .root f => t.root f
      | .child m bit => if m = t.next then e.child bit else t.get s := by
  cases s with
  | root f => rfl
  | child m bit => by_cases h : m = t.next <;> simp [get, node_new, h]

section Entries

variable [DecidableEq P]

@[simp] theorem get_addToPeerEntries (peer : P) : (t.addToPeerEntries n peer).get s = t.get s := by
  cases s with
  | root f => rfl
  | child m bit => by_cases h : m = n <;> simp [get, addToPeerEntries, node_modify, h]

@[simp] theorem parent_addToPeerEntries (peer : P) :
    ((t.addToPeerEntries n peer).node m).parent = (t.node m).parent := by
  by_cases h : m = n <;> simp [addToPeerEntries, node_modify, h]

@[simp] theorem data_addToPeerEntries (peer : P) :
    ((t.addToPeerEntries n peer).node m).data = (t.node m).data := by
  by_cases h : m = n <;> simp [addToPeerEntries, node_modify, data, h]

@[simp] theorem owner_addToPeerEntries (peer : P) : ((t.addToPeerEntries n peer).node m).owner =
      if m = n then ((t.node m).peer, some peer) else (t.node m).owner := by
  by_cases h : m = n <;> simp [addToPeerEntries, node_modify, owner, h]

@[simp] theorem next_addToPeerEntries (peer : P) : (t.addToPeerEntries n peer).next = t.next := rfl

@[simp] theorem trieEntries_addToPeerEntries (peer : P) : (t.addToPeerEntries n peer).trieEntries =
      Function.update t.trieEntries peer (t.trieEntries peer ++ [n]) := rfl

/-- A node that is in the list of its peer, or in none when it has no peer, leaves it. -/
theorem removeFromPeerEntries_eq (h : (t.node n).perPeerElem = (t.node n).peer) :
    t.removeFromPeerEntries n =
      { t with
        node := update t.node n { t.node n with perPeerElem := none }
        trieEntries := match (t.node n).peer with
          | some peer => update t.trieEntries peer ((t.trieEntries peer).erase n)
          | none => t.trieEntries } := by
  rw [removeFromPeerEntries, h]
  cases hp : (t.node n).peer with
  | none =>
    have hsame : { t.node n with perPeerElem := none } = t.node n := by
      rw [hp] at h
      rw [← h]
    simp [hsame]
  | some peer => simp [modify]

end Entries

end Reads

/-! ## §2 Putting a node into a slot -/

theorem entryOk_of_data {e e' : TrieEntry P} (h : e'.data = e.data) (he : EntryOk e) :
    EntryOk e' := by
  have he' : EntryOk e.data := ⟨he.addr, he.cidr_le, he.byte, he.shift, he.masked⟩
  rw [← h] at he'
  exact ⟨he'.addr, he'.cidr_le, he'.byte, he'.shift, he'.masked⟩

theorem extends_of_data {p p' n n' : TrieEntry P} (hp : p'.data = p.data)
    (hn : n'.data = n.data) (h : Extends p bit n) : Extends p' bit n' := by
  have h' : Extends p.data bit n.data := ⟨h.len, h.lt, h.agree, h.bit⟩
  rw [← hp, ← hn] at h'
  exact ⟨h'.len, h'.lt, h'.agree, h'.bit⟩

theorem bits_of_data {e e' : TrieEntry P} (h : e'.data = e.data) : e'.bits = e.bits := by
  simpa [data] using congrArg bits h

theorem extends_trans {p n c : TrieEntry P} {bit' : Bool} (h : Extends p bit n)
    (h' : Extends n bit' c) : Extends p bit c where
  len := h'.len.trans h.len
  lt := h.lt.trans h'.lt
  agree := h.agree.trans (h'.agree.mono h.lt.le)
  bit := (h'.agree _ h.lt).symm.trans h.bit

/-- The prefix of entry `e` belongs into slot `s`. -/
def Fits (t : AllowedIPs P) (s : Slot) (e : TrieEntry P) : Prop :=
  match s with
  | .root f => e.bits.length = f.addrLen
  | .child p bit => Extends (t.node p) bit e

theorem Linked.fits (h : Linked t) (hs : t.LiveSlot s)
    (hget : t.get s = some n) : t.Fits s (t.node n) := by
  cases s with
  | root f => exact h.family f n hget
  | child p bit => exact h.edge p bit n hs hget

theorem Fits.of_data {e e' : TrieEntry P}
    (hslot : ∀ p b, s = .child p b → (t'.node p).data = (t.node p).data) (he : e'.data = e.data)
    (h : t.Fits s e) : t'.Fits s e' := by
  cases s with
  | root f => exact (congrArg List.length (bits_of_data he)).trans h
  | child p bit => exact extends_of_data (hslot p bit rfl) he h

theorem Fits.congr {e e' : TrieEntry P}
    (hdata : ∀ n, t.Live n → (t'.node n).data = (t.node n).data) (hs : t.LiveSlot s)
    (he : e'.data = e.data) (h : t.Fits s e) : t'.Fits s e' := by
  refine h.of_data ?_ he
  rintro p b rfl
  exact hdata p hs

theorem Fits.trans {e c : TrieEntry P} (h : t.Fits s e) (h' : Extends e bit c) : t.Fits s c := by
  cases s with
  | root f => exact h'.len.trans h
  | child p b => exact extends_trans h h'

theorem Linked.slot_unique (h : Linked t) {s' : Slot} (hs : t.LiveSlot s) (hs' : t.LiveSlot s')
    (hn : t.get s = some n) (hn' : t.get s' = some n) : s' = s := by
  have hpar := (h.held s' n hs' hn').2.symm.trans (h.held s n hs hn).2
  simp only [Slot.indirection, ParentIndirection.mk.injEq, some.injEq] at hpar
  exact hpar.1

/-- The links of a table slot by slot: what a slot holds points back at it and fits it. -/
theorem Linked.of_slots (hheld : ∀ s n, t.LiveSlot s → t.get s = some n →
      t.Live n ∧ (t.node n).parent = s.indirection ∧ t.Fits s (t.node n))
    (hholds : ∀ n s, t.Live n → (t.node n).parent.parentBit = some s → t.LiveSlot s ∧
      t.get s = some n)
    (hentry : ∀ n, t.Live n → EntryOk (t.node n)) : Linked t where
  held s n hs hn := ⟨(hheld s n hs hn).1, (hheld s n hs hn).2.1⟩
  holds := hholds
  entry := hentry
  edge p bit n hp hn := (hheld (.child p bit) n hp hn).2.2
  family f n hn := (hheld (.root f) n trivial hn).2.2

theorem Linked.congr (h : Linked t) (hlive : ∀ n, t'.Live n ↔ t.Live n)
    (hget : ∀ s, t.LiveSlot s → t'.get s = t.get s)
    (hpar : ∀ n, t.Live n → (t'.node n).parent = (t.node n).parent)
    (hdata : ∀ n, t.Live n → (t'.node n).data = (t.node n).data) : Linked t' := by
  have hslot : ∀ s, t'.LiveSlot s ↔ t.LiveSlot s := by
    intro s
    cases s with
    | root f => exact Iff.rfl
    | child n bit => exact hlive n
  refine .of_slots ?_ ?_ ?_
  · intro s n hs hn
    have hs' := (hslot s).mp hs
    rw [hget s hs'] at hn
    obtain ⟨hlive_n, hpar_n⟩ := h.held s n hs' hn
    exact ⟨(hlive n).mpr hlive_n, (hpar n hlive_n).trans hpar_n,
      (h.fits hs' hn).congr hdata hs' (hdata n hlive_n)⟩
  · intro n s hn hs
    have hn' := (hlive n).mp hn
    obtain ⟨hs', hget'⟩ := h.holds n s hn' (hpar n hn' ▸ hs)
    exact ⟨(hslot s).mpr hs', (hget s hs').trans hget'⟩
  · intro n hn
    have hn' := (hlive n).mp hn
    exact entryOk_of_data (hdata n hn') (h.entry n hn')

/-- Node `k` has been put into slot `s`, with the former content of `s` as its child
`bit` and no other child. -/
structure Attached (t t' : AllowedIPs P) (s : Slot) (k : ℕ) (bit : Bool) : Prop where
  get_eq : ∀ s', t'.get s' =
    if s' = s then some k
    else if s' = .child k bit then t.get s
    else if s' = .child k (!bit) then none
    else t.get s'
  parent_eq : ∀ n, (t'.node n).parent =
    if n = k then s.indirection
    else if t.get s = some n then (Slot.child k bit).indirection
    else (t.node n).parent
  data_eq : ∀ n, n ≠ k → (t'.node n).data = (t.node n).data

theorem Attached.live_iff (h : Linked t) {k : ℕ}
    (hs : t.LiveSlot s) (ha : Attached t t' s k bit) (n : ℕ) : t'.Live n ↔ n = k ∨ t.Live n := by
  rw [Live, ha.parent_eq]
  by_cases hk : n = k
  · simp [hk, Slot.indirection]
  · by_cases hd : t.get s = some n
    · simp [hk, hd, Slot.indirection, (h.held s n hs hd).1]
    · simp [hk, hd, Live]

/-- Putting a node into a slot keeps the links in order. -/
theorem Linked.attach (h : Linked t) {k : ℕ} (hs : t.LiveSlot s)
    (hk : ¬t.Live k) (ha : Attached t t' s k bit) (hentry : EntryOk (t'.node k))
    (hfit : t.Fits s (t'.node k))
    (hdown : ∀ d, t.get s = some d → Extends (t'.node k) bit (t.node d)) : Linked t' := by
  have hlive := ha.live_iff h hs
  have hne : ∀ b, s ≠ .child k b := by
    rintro b rfl
    exact hk hs
  have hne' : ∀ n, t.Live n → n ≠ k := by
    rintro n hn rfl
    exact hk hn
  have hdata : ∀ n, t.Live n → (t'.node n).data = (t.node n).data :=
    fun n hn => ha.data_eq n (hne' n hn)
  -- the slots that are live after the change
  have hslot : ∀ s', t'.LiveSlot s' ↔ (∃ b, s' = .child k b) ∨ t.LiveSlot s' := by
    intro s'
    cases s' with
    | root f => simp [LiveSlot]
    | child n b => simp [LiveSlot, hlive]
  refine .of_slots ?_ ?_ ?_
  · -- every slot: the one that was written, the one under the new node, or an old one
    intro s' n hs' hget
    rw [ha.get_eq] at hget
    rw [hlive, ha.parent_eq]
    split_ifs at hget with h1 h2 h3
    · cases hget
      subst h1
      exact ⟨Or.inl rfl, by simp, hfit.congr hdata hs rfl⟩
    · subst h2
      have hn := (h.held s n hs hget).1
      exact ⟨Or.inr hn, by simp [hget, hne' n hn], extends_of_data rfl (hdata n hn) (hdown n hget)⟩
    · have hold : t.LiveSlot s' := by
        rcases (hslot s').mp hs' with ⟨b, rfl⟩ | hold
        · cases b <;> cases bit <;> simp_all
        · exact hold
      obtain ⟨hn, hpar⟩ := h.held s' n hold hget
      have hother : t.get s ≠ some n := fun hd => h1 (h.slot_unique hs hold hd hget)
      exact ⟨Or.inr hn, by simp [hne' n hn, hother, hpar],
        (h.fits hold hget).congr hdata hold (hdata n hn)⟩
  · -- every live node: the new one, the one that moved down, or another one
    intro n s' hn hpar
    rw [hslot, ha.get_eq]
    rw [ha.parent_eq] at hpar
    split_ifs at hpar with h1 h2
    · cases hpar
      simp [h1, hs]
    · cases hpar
      simp [h2, (hne bit).symm]
    · have hn' : t.Live n := ((hlive n).mp hn).resolve_left h1
      obtain ⟨hold, hget⟩ := h.holds n s' hn' hpar
      have h3 : s' ≠ s := by
        rintro rfl
        exact h2 hget
      have h4 : ∀ b, s' ≠ .child k b := by
        rintro b rfl
        exact hk hold
      simp [h3, h4, hold, hget]
  · intro n hn
    rcases (hlive n).mp hn with rfl | hn'
    · exact hentry
    · exact entryOk_of_data (hdata n hn') (h.entry n hn')

/-! ## §3 Taking a node out -/

/-- Node `n` has been taken out of slot `s`, and its child `bit` has moved up. -/
structure Spliced (t t' : AllowedIPs P) (s : Slot) (n : ℕ) (bit : Bool) : Prop where
  get_eq : ∀ s', (∀ b, s' ≠ .child n b) →
    t'.get s' = if s' = s then t.get (.child n bit) else t.get s'
  dead : (t'.node n).parent.parentBit = none
  parent_eq : ∀ m, m ≠ n → (t'.node m).parent =
    if t.get (.child n bit) = some m then s.indirection else (t.node m).parent
  data_eq : ∀ m, m ≠ n → (t'.node m).data = (t.node m).data

theorem Spliced.live_iff (h : Linked t) (hn : t.Live n)
    (hp : Spliced t t' s n bit) (m : ℕ) : t'.Live m ↔ m ≠ n ∧ t.Live m := by
  by_cases hm : m = n
  · simp [Live, hm, hp.dead]
  · rw [Live, hp.parent_eq m hm]
    by_cases hc : t.get (.child n bit) = some m
    · simp [hm, hc, Slot.indirection, (h.held (.child n bit) m hn hc).1]
    · simp [hm, hc, Live]

theorem Linked.child_ne (h : Linked t) (hn : t.Live n) (bit : Bool) :
    t.get (.child n bit) ≠ some n := by
  intro hget
  exact lt_irrefl _ (h.edge n bit n hn hget).lt

/-- Taking out a node that has no child on the other side keeps the links in order. -/
theorem Linked.splice (h : Linked t) (hs : t.LiveSlot s)
    (hn : t.get s = some n) (hnone : t.get (.child n (!bit)) = none)
    (hp : Spliced t t' s n bit) : Linked t' := by
  obtain ⟨hlive_n, hpar_n⟩ := h.held s n hs hn
  have hlive := hp.live_iff h hlive_n
  have hs_ne : ∀ b, s ≠ .child n b := by
    rintro b rfl
    exact h.child_ne hlive_n b hn
  have hslot : ∀ s', t'.LiveSlot s' ↔ (∀ b, s' ≠ .child n b) ∧ t.LiveSlot s' := by
    intro s'
    cases s' with
    | root f => simp [LiveSlot]
    | child m b =>
      by_cases hm : m = n <;> simp [LiveSlot, hlive, hm]
  -- prefixes do not change, so what fitted a slot that is left still fits it
  have hfits : ∀ s' m, (∀ b, s' ≠ .child n b) → m ≠ n → t.Fits s' (t.node m) →
      t'.Fits s' (t'.node m) := by
    intro s' m hout hm hfit
    refine hfit.of_data ?_ (hp.data_eq m hm)
    rintro p b rfl
    exact hp.data_eq p fun hpn => hout b (hpn ▸ rfl)
  refine .of_slots ?_ ?_ ?_
  · intro s' m hs' hget
    obtain ⟨hout, hold⟩ := (hslot s').mp hs'
    rw [hp.get_eq s' hout] at hget
    rw [hlive]
    split_ifs at hget with h1
    · -- the child that moves up
      subst h1
      have hm : m ≠ n := fun hmn => h.child_ne hlive_n bit (hmn ▸ hget)
      rw [hp.parent_eq m hm, if_pos hget]
      exact ⟨⟨hm, h.child_live hlive_n hget⟩, rfl,
        hfits _ m hout hm ((h.fits hs hn).trans (h.edge n bit m hlive_n hget))⟩
    · obtain ⟨hlive_m, hpar⟩ := h.held s' m hold hget
      have hm : m ≠ n := by
        rintro rfl
        exact h1 (h.slot_unique hs hold hn hget)
      have hother : t.get (.child n bit) ≠ some m :=
        fun hc => hout bit (h.slot_unique (s := .child n bit) hlive_n hold hc hget)
      rw [hp.parent_eq m hm, if_neg hother]
      exact ⟨⟨hm, hlive_m⟩, hpar, hfits _ m hout hm (h.fits hold hget)⟩
  · intro m s' hm hpar
    obtain ⟨hne, hlive_m⟩ := (hlive m).mp hm
    rw [hp.parent_eq m hne] at hpar
    split_ifs at hpar with h1
    · cases hpar
      exact ⟨(hslot s).mpr ⟨hs_ne, hs⟩, by rw [hp.get_eq s hs_ne, if_pos rfl, h1]⟩
    · obtain ⟨hold, hget⟩ := h.holds m s' hlive_m hpar
      have hout : ∀ b, s' ≠ .child n b := by
        rintro b rfl
        -- a child on either side of `n`: one is excluded, the other side is empty
        by_cases hb : b = bit
        · exact h1 (hb ▸ hget)
        · have : b = !bit := by cases b <;> cases bit <;> simp_all
          rw [this, hnone] at hget
          cases hget
      have h2 : s' ≠ s := by
        rintro rfl
        exact hne (some.inj (hget.symm.trans hn))
      exact ⟨(hslot s').mpr ⟨hout, hold⟩, by rw [hp.get_eq s' hout, if_neg h2, hget]⟩
  · intro m hm
    obtain ⟨hne, hlive_m⟩ := (hlive m).mp hm
    exact entryOk_of_data (hp.data_eq m hne) (h.entry m hlive_m)

end AllowedIPs

end AmneziaWG.Device
