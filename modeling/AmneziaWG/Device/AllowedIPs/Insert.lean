import AmneziaWG.Device.AllowedIPs.Owners

/-!
# Insertion

`insert` keeps the invariant and gives the masked prefix to the peer, in all of its five
structural cases: the empty table, a prefix that is stored already, an empty slot, a node
in the way that goes below the new one, and a node in the way that goes beside the new one
under a branch node.

The first four put one node into a slot or only change an owner.  The last one puts the
branch node into the slot and then the new node into the free side of the branch node.
-/

namespace AmneziaWG.Device

open AmneziaWG.Lib Option Nat

variable {P : Type}

/-! ## §1 New nodes -/

/-- A node as it is made, before it is linked. -/
def newNode (peer : Option P) (ip : Bytes) (cidr : ℕ) : TrieEntry P :=
  (newTrieEntry peer noParent ip cidr).maskSelf

theorem newNode_ok (peer : Option P) {ip : Bytes} (hip : IsAddr ip) {cidr : ℕ}
    (hc : cidr ≤ 8 * ip.length) :
    EntryOk (newNode peer ip cidr) where
  addr := by
    obtain ⟨f, hf⟩ := hip
    exact ⟨f, (masked_length ip cidr).trans hf⟩
  cidr_le := by simpa [newNode, TrieEntry.maskSelf, newTrieEntry, masked] using
    (masked_length ip cidr).symm ▸ hc
  byte := rfl
  shift := rfl
  masked := by
    intro i hi hlt
    have hlt' : i < 8 * ip.length := (masked_length ip cidr) ▸ hlt
    have hbit := bitAt_masked hip hc hlt'
    have hge : ¬i < cidr := not_lt.mpr hi
    show bitAt (Device.masked ip cidr) i = false
    simpa [hge] using hbit

theorem newNode_prefixBits (peer : Option P) {ip : Bytes} (hip : IsAddr ip) {cidr : ℕ}
    (hc : cidr ≤ 8 * ip.length) : (newNode peer ip cidr).prefixBits = (toBits ip).take cidr := by
  show (toBits (masked ip cidr)).take cidr = _
  rw [take_toBits_eq_iff (masked_length ip cidr) ((masked_length ip cidr).symm ▸ hc)]
  exact masked_agree hip hc

namespace AllowedIPs

variable {t t₁ t' : AllowedIPs P}
variable {e : TrieEntry P} {k : ℕ} {s : Slot}

/-- `t₁` is `t` with a new node `k` that is not linked yet. -/
structure Allocated (t t₁ : AllowedIPs P) (k : ℕ) : Prop where
  get_eq : ∀ s, (∀ b, s ≠ .child k b) → t₁.get s = t.get s
  empty : ∀ b, t₁.get (.child k b) = none
  parent_eq : ∀ n, n ≠ k → (t₁.node n).parent = (t.node n).parent
  data_eq : ∀ n, n ≠ k → (t₁.node n).data = (t.node n).data

theorem allocated_new (t : AllowedIPs P) (he : ∀ b, e.child b = none) :
    Allocated t (t.new e) t.next where
  get_eq := by
    intro s hs
    cases s with
    | root f => rfl
    | child m b =>
      have hm : m ≠ t.next := by
        rintro rfl
        exact hs b rfl
      simp [hm]
  empty := by simp [he]
  parent_eq := by
    intro n hn
    simp [node_new, hn]
  data_eq := by
    intro n hn
    simp [node_new, hn]

theorem Allocated.link_empty (h : Allocated t t₁ k) (hs : t.get s = none)
    (bit : Bool) : Attached t (t₁.link s k) s k bit where
  get_eq := by
    intro s'
    by_cases h1 : s' = s
    · simp [h1]
    · by_cases h2 : ∃ b, s' = .child k b
      · obtain ⟨b, rfl⟩ := h2
        simp [h1, h.empty, hs]
        intro hb
        cases b <;> cases bit <;> simp_all
      · rw [not_exists] at h2
        simp [h1, h2, h.get_eq s' h2]
  parent_eq := by
    intro n
    by_cases hn : n = k
    · simp [hn]
    · simp [hn, hs, h.parent_eq n hn]
  data_eq := by
    intro n hn
    simp [h.data_eq n hn]

theorem Allocated.link_above (h : Allocated t t₁ k) {d : ℕ} (hs : t.get s = some d) (bit : Bool) :
    Attached t ((t₁.link (.child k bit) d).link s k) s k bit where
  get_eq := by
    intro s'
    by_cases h1 : s' = s
    · simp [h1]
    · by_cases h2 : ∃ b, s' = .child k b
      · obtain ⟨b, rfl⟩ := h2
        cases b <;> cases bit <;> simp [h1, h.empty, hs]
      · rw [not_exists] at h2
        simp [h1, h2, h.get_eq s' h2]
  parent_eq := by
    intro n
    by_cases hn : n = k
    · simp [hn]
    · by_cases hd : d = n
      · simp [hn, hs, hd]
      · simp [hn, hs, hd, Ne.symm hd, h.parent_eq n hn]
  data_eq := by
    intro n hn
    simp [h.data_eq n hn]

theorem Allocated.linked (h : Linked t) (ha : Allocated t t₁ k) (hk : ¬t.Live k)
    (hk' : ¬t₁.Live k) : Linked t₁ := by
  have hne : ∀ n, t.Live n → n ≠ k := by
    rintro n hn rfl
    exact hk hn
  refine h.congr ?_ ?_ (fun n hn => ha.parent_eq n (hne n hn)) (fun n hn => ha.data_eq n (hne n hn))
  · intro n
    by_cases hn : n = k
    · rw [hn]
      exact ⟨fun hl => absurd hl hk', fun hl => absurd hl hk⟩
    · rw [Live, Live, ha.parent_eq n hn]
  · intro s hs
    refine ha.get_eq s ?_
    rintro b rfl
    exact hk hs

section Attach

variable [DecidableEq P]

/-- One node put into a slot, with an owner and at the end of the heap. -/
theorem Attached.grown (h : WF t) {s : Slot} {peer : P} {bit : Bool} (hs : t.LiveSlot s)
    (ha : Attached t t' s t.next bit) (howner : (t'.node t.next).owner = (some peer, some peer))
    (hkept : ∀ n, n ≠ t.next → (t'.node n).owner = (t.node n).owner) (hnext : t'.next = t.next + 1)
    (hentries : t'.trieEntries =
      Function.update t.trieEntries peer (t.trieEntries peer ++ [t.next])) :
    Grown t t' t.next peer := by
  have hlive := ha.live_iff h.toLinked hs
  have hne : ∀ n, t.Live n → n ≠ t.next := fun n hn => (h.bound n hn).ne
  refine ⟨fun hk => hne _ hk rfl, (hlive _).mpr (Or.inl rfl), howner, ?_, ?_, ?_, ?_, hentries⟩
  · intro n hn
    exact ⟨(hlive n).mpr (Or.inr hn), ha.data_eq n (hne n hn), hkept n (hne n hn)⟩
  · intro n b hn hsome
    have hout : ∀ b', Slot.child n b ≠ .child t.next b' := by
      intro b' heq
      cases heq
      exact hne _ hn rfl
    rw [ha.get_eq]
    -- the slot that the node was put into is not empty now either
    by_cases h1 : Slot.child n b = s
    · simp [h1]
    · simpa [h1, hout] using hsome
  · intro n hn hk hnot
    exact absurd ((hlive n).mp hn) (not_or.mpr ⟨hk, hnot⟩)
  · intro n hn
    rw [hnext]
    rcases (hlive n).mp hn with rfl | hold
    · exact lt_succ_self _
    · exact (h.bound n hold).trans (lt_succ_self _)

end Attach

/-! ## §2 A node in the way -/

theorem Fits.between {d b : TrieEntry P} (he : t.Fits s e) (hd : t.Fits s d)
    (hlen : b.bits.length = e.bits.length) (hagree : AgreeTo b.cidr b.bits e.bits)
    (hmax : ∀ i, i ≤ e.cidr → AgreeTo i d.bits e.bits → i ≤ b.cidr) : t.Fits s b := by
  cases s with
  | root f => exact hlen.trans he
  | child p bit =>
    have he' : Extends (t.node p) bit e := he
    have hd' : Extends (t.node p) bit d := hd
    have hcommon : AgreeTo ((t.node p).cidr + 1) d.bits e.bits := by
      rw [agreeTo_succ]
      exact ⟨hd'.agree.symm.trans he'.agree, hd'.bit.trans he'.bit.symm⟩
    have hlt : (t.node p).cidr < b.cidr := hmax _ he'.lt hcommon
    exact
      { len := hlen.trans he'.len
        lt := hlt
        agree := he'.agree.trans (hagree.mono hlt.le).symm
        bit := (hagree _ hlt).trans he'.bit }

theorem Fits.len_eq {d : TrieEntry P} (he : t.Fits s e) (hd : t.Fits s d) :
    e.bits.length = d.bits.length := by
  cases s with
  | root f => exact Eq.trans he (Eq.symm hd)
  | child p bit => exact (Extends.len he).trans (Extends.len hd).symm

theorem fits_of_data {e' : TrieEntry P} (h : e'.data = e.data) (he : t.Fits s e) : t.Fits s e' :=
  he.of_data (fun _ _ _ => rfl) h

/-- The slot in which `hang` puts a node. -/
def SlotUnder (f : Family) : Option ℕ → Slot → Prop
  | none, s => s = .root f
  | some p, s => ∃ bit, s = .child p bit

theorem hang_eq (h : Linked t) {f : Family} {parent : Option ℕ}
    (hunder : SlotUnder f parent s) (hs : t.LiveSlot s)
    (hdata : ∀ n, t.Live n → (t'.node n).data = (t.node n).data) {n : ℕ}
    (hn : (t'.node n).data = e.data) (he : EntryOk e) (hfit : t.Fits s e) :
    t'.hang f parent n = some (t'.link s n) := by
  cases parent with
  | none =>
    cases hunder
    rfl
  | some p =>
    obtain ⟨bit, rfl⟩ := hunder
    have hext : Extends (t'.node p) bit (t'.node n) := hfit.congr hdata hs hn
    have hlt := lt_of_lt_of_le hext.lt (entryOk_of_data hn he).cidr_le
    rw [hang, (entryOk_of_data (hdata p hs) (h.entry p hs)).choose hlt, hext.bit]
    rfl

theorem Attached.link_comm {t₂ : AllowedIPs P} {s₁ s₂ : Slot} {d n₁ n₂ : ℕ}
    {bit : Bool} (hs : s₁ ≠ s₂)
    (hn : n₁ ≠ n₂) (ha : Attached t ((t₂.link s₁ n₁).link s₂ n₂) s d bit) :
    Attached t ((t₂.link s₂ n₂).link s₁ n₁) s d bit := by
  refine ⟨?_, ?_, ?_⟩
  · intro s'
    rw [← ha.get_eq s']
    by_cases h1 : s' = s₁
    · simp [h1, hs]
    · simp [h1]
  · intro n
    rw [← ha.parent_eq n]
    by_cases h1 : n = n₁
    · simp [h1, hn]
    · simp [h1]
  · intro n hne
    rw [← ha.data_eq n hne]
    simp

@[simp] theorem bits_link (t : AllowedIPs P) (s : Slot) (n m : ℕ) :
    ((t.link s n).node m).bits = (t.node m).bits :=
  bits_of_data (data_link t s n m)

@[simp] theorem choose_link (t : AllowedIPs P) (s : Slot) (n m : ℕ) :
    ((t.link s n).node m).choose = (t.node m).choose := by
  have h := data_link t s n m
  simp only [TrieEntry.data, TrieEntry.mk.injEq] at h
  funext ip
  simp [TrieEntry.choose, h]

section Beside

variable [DecidableEq P]

/-- The table after `newNode` has been made and put into the list of its peer. -/
def withNew (t : AllowedIPs P) (ip : Bytes) (cidr : ℕ) (peer : P) : AllowedIPs P :=
  (t.new (newTrieEntry (some peer) noParent ip cidr).maskSelf).addToPeerEntries t.next peer

section

variable (t : AllowedIPs P) (ip : Bytes) (cidr : ℕ) (peer : P)

theorem withNew_allocated : Allocated t (t.withNew ip cidr peer) t.next := by
  have h := allocated_new t (e := newNode (some peer) ip cidr) fun _ => rfl
  refine ⟨?_, ?_, ?_, ?_⟩ <;>
    simp only [withNew, get_addToPeerEntries, parent_addToPeerEntries, data_addToPeerEntries]
  exacts [h.get_eq, h.empty, h.parent_eq, h.data_eq]

theorem withNew_data : ((t.withNew ip cidr peer).node t.next).data =
      (newNode (some peer) ip cidr).data := by
  simp [withNew, node_new, newNode]

theorem withNew_owner (n : ℕ) : ((t.withNew ip cidr peer).node n).owner =
      if n = t.next then (some peer, some peer) else (t.node n).owner := by
  by_cases h : n = t.next <;> simp [withNew, node_new, h, newTrieEntry, TrieEntry.maskSelf]

theorem withNew_dead : ¬(t.withNew ip cidr peer).Live t.next := by
  simp [withNew, node_new, Live, newTrieEntry, TrieEntry.maskSelf, noParent]

end

variable {ip : Bytes} {cidr : ℕ} {peer : P} {s : Slot} {d : ℕ} {bit : Bool}

section Attached

variable (h : WF t) (hip : IsAddr ip) (hc : cidr ≤ 8 * ip.length) (hs : t.LiveSlot s)
  (hfit : t.Fits s (newNode (some peer) ip cidr))
include h hip hc hs hfit

theorem withNew_attached (ha : Attached t t' s t.next bit)
    (hdata : (t'.node t.next).data = ((t.withNew ip cidr peer).node t.next).data)
    (howner : ∀ n, (t'.node n).owner = ((t.withNew ip cidr peer).node n).owner)
    (hnext : t'.next = (t.withNew ip cidr peer).next)
    (hentries : t'.trieEntries = (t.withNew ip cidr peer).trieEntries)
    (hdown : ∀ d, t.get s = some d → Extends (newNode (some peer) ip cidr) bit (t.node d)) :
    Linked t' ∧ Grown t t' t.next peer := by
  rw [withNew_data] at hdata
  refine ⟨?_, ?_⟩
  · exact h.attach hs (fun hk => (h.bound _ hk).ne rfl) ha
      (entryOk_of_data hdata (newNode_ok _ hip hc))
      (fits_of_data hdata hfit) fun d hd => extends_of_data hdata rfl (hdown d hd)
  · refine ha.grown h hs ?_ ?_ ?_ ?_
    · rw [howner, withNew_owner, if_pos rfl]
    · intro n hn
      rw [howner, withNew_owner, if_neg hn]
    · simp [hnext, withNew]
    · simp [hentries, withNew]

theorem withNew_leaf (hget : t.get s = none) : Linked ((t.withNew ip cidr peer).link s t.next) ∧
      Grown t ((t.withNew ip cidr peer).link s t.next) t.next peer :=
  withNew_attached h hip hc hs hfit ((withNew_allocated t ip cidr peer).link_empty hget false)
    (by simp)
    (by simp) (by simp) (by simp) (by simp [hget])

theorem withNew_above (hget : t.get s = some d)
    (hdown : Extends (newNode (some peer) ip cidr) bit (t.node d)) :
    Linked (((t.withNew ip cidr peer).link (.child t.next bit) d).link s t.next) ∧
      Grown t (((t.withNew ip cidr peer).link (.child t.next bit) d).link s t.next) t.next peer :=
  withNew_attached h hip hc hs hfit ((withNew_allocated t ip cidr peer).link_above hget bit)
    (by simp)
    (by simp) (by simp) (by simp) (by simpa [hget] using hdown)

end Attached

theorem withNew_live_iff (h : WF t) (n : ℕ) : (t.withNew ip cidr peer).Live n ↔ t.Live n := by
  by_cases hn : n = t.next
  · rw [hn]
    exact ⟨fun hl => absurd hl (withNew_dead t ip cidr peer),
      fun hl => absurd rfl (h.bound _ hl).ne⟩
  · rw [Live, Live, (withNew_allocated t ip cidr peer).parent_eq n hn]

/-- The new node and the one in the way side by side under a branch node. -/
theorem withNew_branch (h : WF t) (hip : IsAddr ip) (hc : cidr ≤ 8 * ip.length)
    (hs : t.LiveSlot s) (hget : t.get s = some d) {b : TrieEntry P} (hb : EntryOk b)
    (hbchild : ∀ bit, b.child bit = none) (hbowner : b.owner = (none, none)) (hfit : t.Fits s b)
    (hdown : Extends b bit (t.node d))
    (hnew : Extends b (!bit) (newNode (some peer) ip cidr)) :
    let t₂ := (t.withNew ip cidr peer).new b
    let t' := ((t₂.link (.child (t.next + 1) bit) d).link (.child (t.next + 1) (!bit)) t.next).link
      s (t.next + 1)
    Linked t' ∧ Grown t t' t.next peer := by
  intro t₂ t'
  have halloc := withNew_allocated t ip cidr peer
  have hk : ¬t.Live t.next := fun hk => (h.bound _ hk).ne rfl
  have hj : ¬t.Live (t.next + 1) := fun hj => absurd (h.bound _ hj) (by omega)
  have hd : t.Live d := (h.held s d hs hget).1
  have hlt : d < t.next := h.bound d hd
  have hsk : ∀ b', s ≠ .child t.next b' := by
    rintro b' rfl
    exact hk hs
  have hsj : ∀ b', s ≠ .child (t.next + 1) b' := by
    rintro b' rfl
    exact hj hs
  -- first the branch node alone is put into the slot
  have halloc₂ : Allocated (t.withNew ip cidr peer) t₂ (t.next + 1) := allocated_new _ hbchild
  have hget₁ : (t.withNew ip cidr peer).get s = some d := (halloc.get_eq s hsk).trans hget
  have hlinked₁ := halloc.linked h.toLinked hk (withNew_dead t ip cidr peer)
  let tₘ := (t₂.link (.child (t.next + 1) bit) d).link s (t.next + 1)
  have hmid : Attached _ tₘ s (t.next + 1) bit := halloc₂.link_above hget₁ bit
  have hdata_j : (tₘ.node (t.next + 1)).data = b.data := by simp [tₘ, t₂, node_new, withNew]
  have hslot₁ : (t.withNew ip cidr peer).LiveSlot s := by
    cases s with
    | root f => trivial
    | child p bit' => exact (withNew_live_iff h p).mpr hs
  have hfit₁ : (t.withNew ip cidr peer).Fits s b :=
    hfit.congr (fun n hn => halloc.data_eq n (h.bound n hn).ne) hs rfl
  have hlinked_m := hlinked₁.attach hslot₁ (mt (withNew_live_iff h _).mp hj) hmid
    (entryOk_of_data hdata_j hb) (fits_of_data hdata_j hfit₁) (by
      intro d' hd'
      rw [hget₁] at hd'
      cases hd'
      exact extends_of_data hdata_j (halloc.data_eq d hlt.ne) hdown)
  have hlive_m := hmid.live_iff hlinked₁ hslot₁
  -- then the new node goes to its free side
  have hfree : tₘ.get (.child (t.next + 1) (!bit)) = none := by
    rw [hmid.get_eq]
    simp [(hsj _).symm]
  have hempty : ∀ b', tₘ.get (.child t.next b') = none := by
    intro b'
    rw [hmid.get_eq]
    simp [(hsk _).symm, halloc.empty]
  have hdead_k : ¬tₘ.Live t.next := by
    rw [hlive_m, withNew_live_iff h]
    simp [hk]
  have hself : Allocated tₘ tₘ t.next := ⟨fun _ _ => rfl, hempty, fun _ _ => rfl, fun _ _ => rfl⟩
  have ha : Attached tₘ t' (.child (t.next + 1) (!bit)) t.next false :=
    (hself.link_empty hfree false).link_comm (hsj _) (by omega)
  have hslot_m : tₘ.LiveSlot (.child (t.next + 1) (!bit)) := (hlive_m _).mpr (Or.inl rfl)
  have hdata_k : (t'.node t.next).data = (newNode (some peer) ip cidr).data := by
    simp only [t', t₂, data_link]
    rw [halloc₂.data_eq _ (by omega), withNew_data]
  have hlinked := hlinked_m.attach hslot_m hdead_k ha
    (entryOk_of_data hdata_k (newNode_ok _ hip hc)) (extends_of_data hdata_j hdata_k hnew) (by
      intro d' hd'
      rw [hfree] at hd'
      cases hd')
  -- what the table after both links looks like, for the fields of `Grown`
  have hlive : ∀ n, t'.Live n ↔ n = t.next ∨ n = t.next + 1 ∨ t.Live n := by
    intro n
    rw [ha.live_iff hlinked_m hslot_m, hlive_m, withNew_live_iff h]
  have howner : ∀ n, (t'.node n).owner = if n = t.next + 1 then (none, none)
      else if n = t.next then (some peer, some peer) else (t.node n).owner := by
    intro n
    simp only [t', t₂, owner_link]
    by_cases hn : n = t.next + 1
    · rw [node_new, if_pos (by simpa [withNew] using hn), if_pos hn, hbowner]
    · rw [node_new, if_neg (by simpa [withNew] using hn), if_neg hn, withNew_owner]
  have hget' : ∀ s', t'.get s' = if s' = s then some (t.next + 1)
      else if s' = .child (t.next + 1) (!bit) then some t.next
      else if s' = .child (t.next + 1) bit then some d else t₂.get s' := by
    intro s'
    simp [t']
  refine ⟨hlinked, hk, (hlive _).mpr (Or.inl rfl), ?_, ?_, ?_, ?_, ?_, ?_⟩
  · rw [howner, if_neg (by omega), if_pos rfl]
  · intro n hn
    have hn1 : n ≠ t.next := (h.bound n hn).ne
    have hn2 : n ≠ t.next + 1 := by
      have := h.bound n hn
      omega
    refine ⟨(hlive n).mpr (Or.inr (Or.inr hn)), ?_, ?_⟩
    · simp only [t', t₂, data_link]
      rw [halloc₂.data_eq n hn2, halloc.data_eq n hn1]
    · rw [howner, if_neg hn2, if_neg hn1]
  · -- a slot of an old node that was taken stays taken
    intro n b' hn hsome
    have hlt_n := h.bound n hn
    have hout : ∀ k b'', t.next ≤ k → Slot.child n b' ≠ .child k b'' := by
      intro k b'' hk heq
      cases heq
      omega
    rw [hget', halloc₂.get_eq _ fun b'' => hout _ b'' (by omega),
      halloc.get_eq _ fun b'' => hout _ b'' le_rfl]
    split_ifs
    · simp
    · simp
    · simp
    · exact hsome
  · -- the branch node has no owner, and two children
    intro n hn hne hnot
    have hn' : n = t.next + 1 := by
      rcases (hlive n).mp hn with h1 | h1 | h1
      · exact absurd h1 hne
      · exact h1
      · exact absurd h1 hnot
    subst hn'
    refine ⟨by rw [howner, if_pos rfl], ?_⟩
    intro b'
    rw [hget']
    cases b' <;> cases bit <;> simp [(hsj _).symm]
  · intro n hn
    have hnext : t'.next = t.next + 2 := by simp [t', t₂, withNew]
    rw [hnext]
    rcases (hlive n).mp hn with h1 | h1 | h1
    · omega
    · omega
    · have := h.bound n h1
      omega
  · simp [t', t₂, withNew]

/-- `insertBeside` succeeds when the node in the way does not cover the new prefix. -/
theorem insertBeside_spec (h : WF t) (hip : IsAddr ip) (hc : cidr ≤ 8 * ip.length) {f : Family}
    {parent : Option ℕ} (hunder : SlotUnder f parent s) (hs : t.LiveSlot s)
    (hget : t.get s = some d) (hfit : t.Fits s (newNode (some peer) ip cidr))
    (hnot : ¬((t.node d).cidr ≤ cidr ∧ Covers (t.node d) (masked ip cidr))) :
    ∃ t', (t.withNew ip cidr peer).insertBeside f parent t.next d = some t' ∧
      Linked t' ∧ Grown t t' t.next peer ∧
      (t'.node t.next).data = (newNode (some peer) ip cidr).data := by
  have he : EntryOk (newNode (some peer) ip cidr) := newNode_ok _ hip hc
  have hd : t.Live d := (h.held s d hs hget).1
  have hdOk := h.entry d hd
  have halloc := withNew_allocated t ip cidr peer
  have hold : ∀ n, t.Live n → ((t.withNew ip cidr peer).node n).data = (t.node n).data :=
    fun n hn => halloc.data_eq n (h.bound n hn).ne
  have hnew := withNew_data t ip cidr peer
  have hlen : (t.node d).bits.length = (masked ip cidr).length := (h.fits hs hget).len_eq hfit
  have hle : cidr ≤ 8 * (t.node d).bits.length := by
    rw [hlen, masked_length]
    exact hc
  -- lengths up to which the two prefixes agree are shorter than the one in the way
  have hbelow : ∀ i, i ≤ cidr → AgreeTo i (t.node d).bits (masked ip cidr) →
      i < (t.node d).cidr := by
    intro i hi hagree
    by_contra hge
    exact hnot ⟨by omega, hlen, hagree.mono (by omega)⟩
  have hcommon : ∀ i, i ≤ 8 * (t.node d).bits.length →
      (i ≤ commonBits (t.node d).bits (masked ip cidr) ↔
        AgreeTo i (t.node d).bits (masked ip cidr)) :=
    fun i hi => le_commonBits_iff hdOk.addr hlen hi
  have hbits₁ : ((t.withNew ip cidr peer).node t.next).bits = masked ip cidr := bits_of_data hnew
  have hcidr₁ : ((t.withNew ip cidr peer).node t.next).cidr = cidr := cidr_of_data hnew
  have hbits_d : ((t.withNew ip cidr peer).node d).bits = (t.node d).bits :=
    bits_of_data (hold d hd)
  simp only [insertBeside, hbits₁, hcidr₁, hbits_d]
  by_cases hcase : cidr = min (commonBits (t.node d).bits (masked ip cidr)) cidr
  · -- the new prefix covers the node in the way
    have hagree := (hcommon cidr hle).mp (by omega)
    have hlt := hbelow cidr le_rfl hagree
    have hchoose : ((t.withNew ip cidr peer).node t.next).choose (t.node d).bits =
        some (bitAt (t.node d).bits cidr) := by
      rw [(entryOk_of_data hnew he).choose, hcidr₁]
      rw [hcidr₁]
      exact lt_of_lt_of_le hlt hdOk.cidr_le
    have hdown : Extends (newNode (some peer) ip cidr)
        (bitAt (t.node d).bits cidr) (t.node d) := ⟨hlen, hlt, hagree.symm, rfl⟩
    rw [if_pos hcase, hchoose, bind_eq_bind, bind_some,
      hang_eq h.toLinked hunder hs (fun n hn => (data_link _ _ _ _).trans (hold n hn))
        ((data_link _ _ _ _).trans hnew) he hfit]
    obtain ⟨hlinked, hgrown⟩ := withNew_above h hip hc hs hfit hget hdown
    exact ⟨_, rfl, hlinked, hgrown, by simpa using hnew⟩
  · -- they part before either ends
    obtain ⟨common, hcommon_eq⟩ : ∃ c, commonBits (t.node d).bits (masked ip cidr) = c := ⟨_, rfl⟩
    rw [hcommon_eq] at hcase hcommon ⊢
    have hmin : min common cidr = common := by omega
    have hlt_c : common < cidr := by omega
    have hagree := (hcommon common (by omega)).mp le_rfl
    have hlt := hbelow common hlt_c.le hagree
    have hpart : bitAt (masked ip cidr) common = !bitAt (t.node d).bits common := by
      by_contra hsame
      have hsame' : bitAt (t.node d).bits common = bitAt (masked ip cidr) common := by
        revert hsame
        cases bitAt (masked ip cidr) common <;> cases bitAt (t.node d).bits common <;> simp
      have := (hcommon (common + 1) (by omega)).mpr (agreeTo_succ.mpr ⟨hagree, hsame'⟩)
      omega
    have hc' : common ≤ 8 * (masked ip cidr).length := by
      rw [masked_length]
      omega
    let branch : TrieEntry P := newNode none (masked ip cidr) common
    have hb : EntryOk branch := newNode_ok none he.addr hc'
    have hagree_b : AgreeTo common (masked (masked ip cidr) common) (masked ip cidr) :=
      masked_agree he.addr hc'
    have hlen_b : (masked (masked ip cidr) common).length = (masked ip cidr).length :=
      masked_length _ _
    have hfit_b : t.Fits s branch := by
      refine Fits.between hfit (h.fits hs hget) hlen_b hagree_b ?_
      intro i hi hi'
      have hi'' : i ≤ cidr := hi
      exact (hcommon i (by omega)).mpr hi'
    have hdown : Extends branch (bitAt (t.node d).bits common) (t.node d) :=
      ⟨hlen.trans hlen_b.symm, hlt, hagree_b.trans hagree.symm, rfl⟩
    have hnew_b : Extends branch (!bitAt (t.node d).bits common) (newNode (some peer) ip cidr) :=
      ⟨hlen_b.symm, hlt_c, hagree_b, hpart⟩
    obtain ⟨hlinked, hgrown⟩ :=
      withNew_branch h hip hc hs hget hb (fun _ => rfl) rfl hfit_b hdown hnew_b
    have hnext : (t.withNew ip cidr peer).next = t.next + 1 := by simp [withNew]
    -- what the three `choose` calls read
    let t₂ := (t.withNew ip cidr peer).new branch
    have halloc₂ : Allocated (t.withNew ip cidr peer) t₂ (t.next + 1) :=
      hnext ▸ allocated_new _ fun _ => rfl
    have hdata_j : (t₂.node (t.next + 1)).data = branch.data := by rw [node_new, if_pos hnext.symm]
    have hdata_k := (halloc₂.data_eq t.next (by omega)).trans hnew
    have hold₂ := fun n hn => (halloc₂.data_eq n (by have := h.bound n hn; omega)).trans (hold n hn)
    have hbits_d₂ := bits_of_data (hold₂ d hd)
    have hbits_k₂ : (t₂.node t.next).bits = masked ip cidr := bits_of_data hdata_k
    have hchoose : ∀ a, common < 8 * a.length → (t₂.node (t.next + 1)).choose a =
        some (bitAt a common) := by
      intro a ha
      have hcidr_j : (t₂.node (t.next + 1)).cidr = common := cidr_of_data hdata_j
      rw [(entryOk_of_data hdata_j hb).choose (by rw [hcidr_j]; exact ha), hcidr_j]
    rw [if_neg (by omega), hmin,
      show (newTrieEntry none noParent (masked ip cidr) common).maskSelf = branch from rfl]
    simp only [hnext, bind_eq_bind, choose_link, bits_link]
    rw [hbits_d₂, hchoose _ (lt_of_lt_of_le hlt hdOk.cidr_le), bind_some, hbits_k₂,
      hchoose (masked ip cidr) (lt_of_lt_of_le hlt_c he.cidr_le), bind_some, hpart]
    rw [hang_eq h.toLinked hunder hs (fun n hn => by simpa using hold₂ n hn)
      (by simpa using hdata_j) hb hfit_b]
    exact ⟨_, rfl, hlinked, hgrown, by simpa using hdata_k⟩

end Beside

/-! ## §3 `insert` -/

theorem covers_masked {ip : Bytes} (hip : IsAddr ip) {cidr : ℕ}
    (hc : cidr ≤ 8 * ip.length) (hle : e.cidr ≤ cidr) :
    Covers e (masked ip cidr) ↔ Covers e ip := by
  have hagree := (masked_agree hip hc).mono hle
  have hlen := masked_length ip cidr
  constructor
  · intro h
    exact ⟨h.len.trans hlen, h.agree.trans hagree⟩
  · intro h
    exact ⟨h.len.trans hlen.symm, h.agree.trans hagree.symm⟩

section Insert

variable [DecidableEq P]
/-- `insert` succeeds, keeps the invariant, and gives the masked prefix to the peer. -/
theorem insert_spec {m : Family → PrefixMap P} (h : WF t) (hm : t.Refines m) {f : Family}
    {ip : Bytes} (hip : ip.length = f.addrLen) {cidr : ℕ} (hc : cidr ≤ 8 * ip.length) (peer : P) :
    ∃ t', t.insert f ip cidr peer = some t' ∧ WF t' ∧
      t'.Refines (Function.update m f ((m f).insert ((toBits ip).take cidr) peer)) := by
  have haddr : IsAddr ip := ⟨f, hip⟩
  have hnew := withNew_data t ip cidr peer
  -- growing by the new node is what every case but one has to show
  have hgrown : ∀ t', Linked t' → Grown t t' t.next peer →
      (t'.node t.next).data = (newNode (some peer) ip cidr).data →
      WF t' ∧ t'.Refines (Function.update m f ((m f).insert ((toBits ip).take cidr) peer)) := by
    intro t' hlinked hg hdata
    have hpfx := newNode_prefixBits (some peer) haddr hc
    rw [← prefixBits_of_data hdata] at hpfx
    refine ⟨hg.wf h hlinked, ?_⟩
    rw [← hpfx]
    refine hg.refines hm hlinked ?_
    rw [bits_of_data hdata]
    exact (masked_length ip cidr).trans hip
  rw [insert]
  -- the branches of `insert`: an empty trie, and then how the placement ends
  cases hroot : t.root f with
  | none =>
    have hfit : t.Fits (.root f) (newNode (some peer) ip cidr) :=
      (masked_length ip cidr).trans hip
    obtain ⟨hlinked, hg⟩ := withNew_leaf h haddr hc (s := .root f) trivial hfit hroot
    have hgrown' := hgrown _ hlinked hg (by simpa using hnew)
    refine ⟨_, ?_, hgrown'⟩
    -- the node is made with its `parent` set, which is what linking does
    simp [link, withNew, setParent, set, modify, addToPeerEntries, new, newTrieEntry,
      TrieEntry.maskSelf]
  | some root =>
    obtain ⟨⟨placed, exact⟩, hrun, hplaced⟩ := nodePlacement_spec h.toLinked hip hc
    rw [hrun]
    simp only [bind_eq_bind, bind_some]
    cases placed with
    | none =>
      cases exact with
      | true => exact hplaced.elim
      | false =>
        have hfit : t.Fits (.root f) (newNode (some peer) ip cidr) :=
          (masked_length ip cidr).trans hip
        have hnot : ¬((t.node root).cidr ≤ cidr ∧ Covers (t.node root) (masked ip cidr)) := by
          rintro ⟨hle, hcov⟩
          exact hplaced root hroot ⟨hle, (covers_masked haddr hc hle).mp hcov⟩
        have hunder : SlotUnder f none (.root f) := rfl
        -- nothing covers the prefix, so that the node goes beside the root
        obtain ⟨t', hrun', hlinked, hg, hdata⟩ :=
          insertBeside_spec h haddr hc hunder trivial hroot hfit hnot
        exact ⟨t', hrun', hgrown t' hlinked hg hdata⟩
    | some n =>
      cases exact with
      | true =>
        obtain ⟨hn, hcov, hcidr⟩ := hplaced
        have hlen : (t.node n).bits.length = f.addrLen := hcov.len.trans hip
        have hpfx : (t.node n).prefixBits = (toBits ip).take cidr := by
          rw [← hcidr, prefixBits_eq_iff (h.entry n hn) hcov.len]
          exact hcov
        -- the prefix is there already and only changes its owner
        refine ⟨_, rfl, ?_⟩
        rw [← hpfx]
        exact setOwner_spec h hm hn hlen peer
      | false =>
        obtain ⟨hn, hcov, hlt, hfree⟩ := hplaced
        have halloc := withNew_allocated t ip cidr peer
        have hne : n ≠ t.next := (h.bound n hn).ne
        have hbit : bitAt (masked ip cidr) (t.node n).cidr = bitAt ip (t.node n).cidr :=
          masked_agree haddr hc _ hlt
        have hchoose : ((t.withNew ip cidr peer).node n).choose
            ((t.withNew ip cidr peer).node t.next).bits = some (bitAt ip (t.node n).cidr) := by
          have hbits : ((t.withNew ip cidr peer).node t.next).bits = masked ip cidr :=
            bits_of_data hnew
          have hcidr := cidr_of_data (halloc.data_eq n hne)
          rw [hbits, (entryOk_of_data (halloc.data_eq n hne) (h.entry n hn)).choose, hcidr, hbit]
          rw [hcidr, masked_length]
          omega
        -- the placed node is the parent of the new one, on the side of bit `cidr`
        have hext : Extends (t.node n) (bitAt ip (t.node n).cidr) (newNode (some peer) ip cidr) :=
          { len := (masked_length ip cidr).trans hcov.len.symm
            lt := hlt
            agree := hcov.agree.trans ((masked_agree haddr hc).mono hlt.le).symm
            bit := hbit }
        have hchild : ((t.withNew ip cidr peer).node n).child (bitAt ip (t.node n).cidr) =
            t.get (.child n (bitAt ip (t.node n).cidr)) := by
          refine halloc.get_eq (.child n _) ?_
          intro b heq
          cases heq
          exact hne rfl
        show ∃ t', (((t.withNew ip cidr peer).node n).choose
          ((t.withNew ip cidr peer).node t.next).bits).bind _ = some t' ∧ _
        rw [hchoose, bind_some]
        have hslot : t.LiveSlot (.child n (bitAt ip (t.node n).cidr)) := hn
        unfold withNew at hchild
        rw [hchild]
        cases hdown : t.get (.child n (bitAt ip (t.node n).cidr)) with
        | none =>
          obtain ⟨hlinked, hg⟩ := withNew_leaf h haddr hc hslot hext hdown
          exact ⟨(t.withNew ip cidr peer).link (.child n (bitAt ip (t.node n).cidr)) t.next, rfl,
            hgrown _ hlinked hg (by simpa using hnew)⟩
        | some d =>
          have hunder : SlotUnder f (some n) (.child n (bitAt ip (t.node n).cidr)) := ⟨_, rfl⟩
          have hnot : ¬((t.node d).cidr ≤ cidr ∧ Covers (t.node d) (masked ip cidr)) := by
            rintro ⟨hle, hcov'⟩
            exact hfree d hdown ⟨hle, (covers_masked haddr hc hle).mp hcov'⟩
          obtain ⟨t', hrun', hlinked, hg, hdata⟩ :=
            insertBeside_spec h haddr hc hunder hslot hdown hext hnot
          exact ⟨t', hrun', hgrown t' hlinked hg hdata⟩

end Insert

end AllowedIPs

end AmneziaWG.Device
