import AmneziaWG.Device.AllowedIPs.Owners

/-!
# Removal

`(*trieEntry).remove` takes the owner of a node away.  A node with two children stays as a
branch node; otherwise it is spliced out, and when it was a leaf under a branch node, the
branch node has one child left and is spliced out as well.
-/

namespace AmneziaWG.Device

open AmneziaWG.Lib List Option Function

variable {P : Type}

namespace AllowedIPs

variable {t t' : AllowedIPs P}
variable {n : ℕ}

/-! ## §1 What is read after the writes of `remove` -/

/-- What `replaceChild` writes when the slot is there. -/
def moveUp (t : AllowedIPs P) (s : Slot) (child : Option ℕ) : AllowedIPs P :=
  (match child with
    | some c => t.setParent c s.indirection
    | none => t).set s child

section Reads

variable (t) (s s' : Slot) (child : Option ℕ) (n m : ℕ)

theorem replaceChild_eq : t.replaceChild s.indirection child = some (t.moveUp s child) := rfl

@[simp] theorem get_moveUp : (t.moveUp s child).get s' = if s' = s then child else t.get s' := by
  cases child <;> simp [moveUp]

@[simp] theorem parent_moveUp : ((t.moveUp s child).node m).parent =
      if child = some m then s.indirection else (t.node m).parent := by
  cases child with
  | none => simp [moveUp]
  | some c => simp [moveUp, eq_comm]

@[simp] theorem data_moveUp : ((t.moveUp s child).node m).data = (t.node m).data := by
  cases child <;> simp [moveUp]

@[simp] theorem owner_moveUp : ((t.moveUp s child).node m).owner = (t.node m).owner := by
  cases child <;> simp [moveUp]

@[simp] theorem next_moveUp : (t.moveUp s child).next = t.next := by
  cases child <;> simp [moveUp, setParent, modify]

@[simp] theorem trieEntries_moveUp : (t.moveUp s child).trieEntries = t.trieEntries := by
  cases child <;> simp [moveUp, setParent, modify]

theorem dead_zeroizePointers : ((t.zeroizePointers n).node n).parent.parentBit = none := by
  simp [zeroizePointers, node_modify]

@[simp] theorem next_zeroizePointers : (t.zeroizePointers n).next = t.next := rfl

@[simp] theorem trieEntries_zeroizePointers : (t.zeroizePointers n).trieEntries = t.trieEntries :=
  rfl

end Reads

theorem get_zeroizePointers_of_ne (t : AllowedIPs P) {s : Slot}
    (hs : ∀ b, s ≠ .child n b) : (t.zeroizePointers n).get s = t.get s := by
  cases s with
  | root f => rfl
  | child m b =>
    have hm : m ≠ n := by
      rintro rfl
      exact hs b rfl
    simp [get, zeroizePointers, node_modify, hm]

theorem node_zeroizePointers_of_ne (t : AllowedIPs P) {m : ℕ} (hm : m ≠ n) :
    (t.zeroizePointers n).node m = t.node m := by
  simp [zeroizePointers, node_modify, hm]

/-- The node in a slot makes way for its child. -/
def spliceOut (t : AllowedIPs P) (s : Slot) (n : ℕ) (bit : Bool) : AllowedIPs P :=
  (t.moveUp s (t.get (.child n bit))).zeroizePointers n

theorem spliced_spliceOut (t : AllowedIPs P) (s : Slot) (n : ℕ) (bit : Bool) :
    Spliced t (t.spliceOut s n bit) s n bit := by
  unfold spliceOut
  refine ⟨?_, dead_zeroizePointers _ n, ?_, ?_⟩
  · intro s' hs'
    rw [get_zeroizePointers_of_ne _ hs', get_moveUp]
  · intro m hm
    rw [node_zeroizePointers_of_ne _ hm, parent_moveUp]
  · intro m hm
    rw [node_zeroizePointers_of_ne _ hm, data_moveUp]

theorem Linked.slot_of (h : Linked t) (hn : t.Live n) :
    ∃ s, t.LiveSlot s ∧ t.get s = some n ∧ (t.node n).parent = s.indirection := by
  obtain ⟨s, hs⟩ := ne_none_iff_exists'.mp hn
  obtain ⟨hslot, hget⟩ := h.holds n s hn hs
  exact ⟨s, hslot, hget, (h.held s n hslot hget).2⟩

theorem modify_comm (t : AllowedIPs P) {m : ℕ} (h : n ≠ m) (f g : TrieEntry P → TrieEntry P) :
    (t.modify n f).modify m g = (t.modify m g).modify n f := by
  simp [modify, h, h.symm, update_comm h]

theorem zeroizePointers_moveUp (t : AllowedIPs P) {s : Slot} (hs : ∀ b, s ≠ .child n b)
    {child : Option ℕ} (hc : child ≠ some n) :
    (t.moveUp s child).zeroizePointers n = (t.zeroizePointers n).moveUp s child := by
  have hset : ∀ (u : AllowedIPs P) v, (u.set s v).zeroizePointers n =
      (u.zeroizePointers n).set s v := by
    intro u v
    cases s with
    | root f => rfl
    | child m b =>
      have hm : m ≠ n := by
        rintro rfl
        exact hs b rfl
      unfold set zeroizePointers
      exact modify_comm u hm _ _
  cases child with
  | none => exact hset t none
  | some c =>
    have hcn : c ≠ n := fun h => hc (congrArg some h)
    have hpar : (t.setParent c s.indirection).zeroizePointers n =
        (t.zeroizePointers n).setParent c s.indirection := by
      unfold setParent zeroizePointers
      exact modify_comm t hcn _ _
    unfold moveUp
    rw [hset, hpar]

/-! ## §2 What a table with one owner less stands for -/

/-- `t'` has the owned nodes of `t` other than `n`. -/
structure Kept (t t' : AllowedIPs P) (n : ℕ) : Prop where
  live : ∀ x, t'.Live x → t.Live x ∧ (t'.node x).data = (t.node x).data
  kept : ∀ x, t.Live x → x ≠ n → (t.node x).peer ≠ none → t'.Live x
  owner : ∀ x, t'.Live x → (t'.node x).owner = if x = n then (none, none) else (t.node x).owner
  next_eq : t'.next = t.next
  mem_entries : ∀ q x, x ∈ t'.trieEntries q ↔ x ≠ n ∧ x ∈ t.trieEntries q
  nodup : ∀ q, (t'.trieEntries q).Nodup

/-- The nodes other than `n` that have no owner are branch nodes. -/
def BranchBut (t : AllowedIPs P) (n : ℕ) : Prop :=
  ∀ x, t.Live x → x ≠ n → (t.node x).peer = none → ∀ bit, t.get (.child x bit) ≠ none

/-- `t'` has the owned nodes of `t` other than `n` and branch nodes. -/
structure Shrunk (t t' : AllowedIPs P) (n : ℕ) : Prop extends Kept t t' n where
  branch : ∀ x, t'.Live x → (t'.node x).peer = none → ∀ bit, t'.get (.child x bit) ≠ none

theorem Kept.peer_eq (hs : Kept t t' n) {x : ℕ} (hx : t'.Live x) :
    (t'.node x).peer = if x = n then none else (t.node x).peer := by
  have h := congrArg Prod.fst (hs.owner x hx)
  by_cases hxn : x = n <;> simpa [hxn, TrieEntry.owner] using h

theorem Shrunk.owned_iff (hs : Shrunk t t' n) (x : ℕ) (q : P) :
    t'.Live x ∧ (t'.node x).peer = some q ↔ x ≠ n ∧ t.Live x ∧ (t.node x).peer = some q := by
  constructor
  · rintro ⟨hx, hq⟩
    rw [hs.peer_eq hx] at hq
    split_ifs at hq with hxn
    exact ⟨hxn, (hs.live x hx).1, hq⟩
  · rintro ⟨hxn, hx, hq⟩
    have hx' := hs.kept x hx hxn (by simp [hq])
    exact ⟨hx', by rw [hs.peer_eq hx', if_neg hxn, hq]⟩

theorem Shrunk.wf (h : WF t) (hs : Shrunk t t' n) (h' : Linked t') : WF t' where
  toLinked := h'
  bound := fun x hx => hs.next_eq ▸ h.bound x (hs.live x hx).1
  branch := hs.branch
  elem := by
    intro x hx
    have hx' := (hs.live x hx).1
    have howner := hs.owner x hx
    by_cases hxn : x = n
    · rw [if_pos hxn] at howner
      exact (Prod.mk.inj howner).2.trans (Prod.mk.inj howner).1.symm
    · rw [if_neg hxn] at howner
      rw [(Prod.mk.inj howner).1, (Prod.mk.inj howner).2]
      exact h.elem x hx'
  listed := by
    intro q x
    rw [hs.mem_entries, h.listed, hs.owned_iff]
  nodup := hs.nodup

theorem Shrunk.owns_iff (hs : Shrunk t t' n) (f : Family) (p : List Bool) (q : P) :
    t'.Owns f p q ↔ ∃ x, x ≠ n ∧ t.Live x ∧ (t.node x).bits.length = f.addrLen ∧
      (t.node x).prefixBits = p ∧ (t.node x).peer = some q := by
  constructor
  · rintro ⟨x, hx, hlen, hp, hq⟩
    obtain ⟨hxn, hx', hq'⟩ := (hs.owned_iff x q).mp ⟨hx, hq⟩
    have hdata := (hs.live x hx).2
    exact ⟨x, hxn, hx', bits_of_data hdata ▸ hlen, (prefixBits_of_data hdata).symm.trans hp, hq'⟩
  · rintro ⟨x, hxn, hx, hlen, hp, hq⟩
    obtain ⟨hx', hq'⟩ := (hs.owned_iff x q).mpr ⟨hxn, hx, hq⟩
    have hdata := (hs.live x hx').2
    exact ⟨x, hx', (bits_of_data hdata).symm ▸ hlen, (prefixBits_of_data hdata).trans hp, hq'⟩

/-! ## §3 `(*trieEntry).remove` -/

section Remove

variable [DecidableEq P]
variable {n : ℕ} {m : Family → PrefixMap P} {f : Family}

theorem disown_spec (h : WF t) (hn : t.Live n) :
    let t₀ := (t.removeFromPeerEntries n).setPeer n none
    Linked t₀ ∧ Kept t t₀ n ∧ BranchBut t₀ n ∧ (∀ s, t₀.LiveSlot s ↔ t.LiveSlot s) ∧
      (∀ s, t₀.get s = t.get s) ∧ ∀ m, (t₀.node m).parent = (t.node m).parent := by
  intro t₀
  obtain ⟨hget, hpar, hdata, hpeer, helem, hnext, hmem, hnodup⟩ := removeFromPeerEntries_spec h hn
  -- only the owner of `n` and the list that it is in change
  have hget₀ : ∀ s, t₀.get s = t.get s := by simp [t₀, hget]
  have hpar₀ : ∀ m, (t₀.node m).parent = (t.node m).parent := by simp [t₀, hpar]
  have hdata₀ : ∀ m, (t₀.node m).data = (t.node m).data := by simp [t₀, hdata]
  have howner₀ : ∀ m, (t₀.node m).owner = if m = n then (none, none) else (t.node m).owner := by
    intro m
    by_cases hm : m = n
    · simp [t₀, hm, helem]
    · simp [t₀, hm, TrieEntry.owner, hpeer, helem, setPeer, node_modify]
  have hlive : ∀ x, t₀.Live x ↔ t.Live x := by
    intro x
    rw [Live, Live, hpar₀]
  have hkept : Kept t t₀ n :=
    ⟨fun x hx => ⟨(hlive x).mp hx, hdata₀ x⟩, fun x hx _ _ => (hlive x).mpr hx,
    fun x _ => howner₀ x, hnext, hmem, hnodup⟩
  refine ⟨h.toLinked.congr hlive (fun s _ => hget₀ s) (fun x _ => hpar₀ x) fun x _ => hdata₀ x,
    hkept, ?_, ?_, hget₀, hpar₀⟩
  · intro x hx hxn hnone b
    rw [hkept.peer_eq hx, if_neg hxn] at hnone
    rw [hget₀]
    exact h.branch x ((hlive x).mp hx) hnone b
  · intro s
    cases s with
    | root f => exact Iff.rfl
    | child x b => exact hlive x

section Splice

variable {u : AllowedIPs P} {n p : ℕ} {s : Slot} {bit : Bool}

omit [DecidableEq P] in
theorem Kept.splice (hk : Kept t u n) (h : Linked u) (hs : u.LiveSlot s) (hget : u.get s = some p)
    (hnone : u.get (.child p (!bit)) = none) (hpeer : (u.node p).peer = none) :
    Linked (u.spliceOut s p bit) ∧ Kept t (u.spliceOut s p bit) n := by
  have hsp := spliced_spliceOut u s p bit
  have hlive := hsp.live_iff h (h.held s p hs hget).1
  refine ⟨h.splice hs hget hnone hsp, ?_, ?_, ?_, by simpa [spliceOut] using hk.next_eq,
    by simpa [spliceOut] using hk.mem_entries, by simpa [spliceOut] using hk.nodup⟩
  · intro x hx
    obtain ⟨hxp, hx'⟩ := (hlive x).mp hx
    exact ⟨(hk.live x hx').1, (hsp.data_eq x hxp).trans (hk.live x hx').2⟩
  · intro x hx hxn howned
    have hx' := hk.kept x hx hxn howned
    refine (hlive x).mpr ⟨?_, hx'⟩
    rintro rfl
    rw [hk.peer_eq hx', if_neg hxn] at hpeer
    exact howned hpeer
  · intro x hx
    obtain ⟨hxp, hx'⟩ := (hlive x).mp hx
    rw [spliceOut, node_zeroizePointers_of_ne _ hxp, owner_moveUp, hk.owner x hx']

omit [DecidableEq P] in
/-- Splicing out the only node that may lack a child leaves branch nodes, in all slots that it does
not empty. -/
theorem BranchBut.splice (hbut : BranchBut u p) (h : Linked u) (hp : u.Live p) {x : ℕ} {b : Bool}
    (hx : (u.spliceOut s p bit).Live x) (hpeer : ((u.spliceOut s p bit).node x).peer = none)
    (hfull : s = .child x b → u.get (.child p bit) ≠ none) :
    (u.spliceOut s p bit).get (.child x b) ≠ none := by
  have hsp := spliced_spliceOut u s p bit
  obtain ⟨hxp, hx'⟩ := (hsp.live_iff h hp x).mp hx
  rw [spliceOut, node_zeroizePointers_of_ne _ hxp, peer_of_owner (owner_moveUp _ _ _ _)] at hpeer
  rw [hsp.get_eq _ (by simp [hxp])]
  split_ifs with h1
  · exact hfull h1.symm
  · exact hbut x hx' hxp hpeer b

/-- One node spliced out.  The slot must not be left empty in a branch node. -/
theorem shrunk_splice (h : WF t) (hn : t.Live n) (hs : t.LiveSlot s)
    (hget : t.get s = some n) (hnone : t.get (.child n (!bit)) = none)
    (hfull : ∀ p b, s = .child p b → (t.node p).peer = none → t.get (.child n bit) ≠ none) :
    let t₀ := (t.removeFromPeerEntries n).setPeer n none
    Linked (t₀.spliceOut s n bit) ∧ Shrunk t (t₀.spliceOut s n bit) n := by
  intro t₀
  obtain ⟨hlinked₀, hkept₀, hbut₀, hslot₀, hget₀, -⟩ := disown_spec h hn
  have hn₀ : t₀.Live n := (hslot₀ (.child n bit)).mpr hn
  obtain ⟨hlinked, hkept⟩ := hkept₀.splice hlinked₀ ((hslot₀ s).mpr hs) ((hget₀ s).trans hget)
    ((hget₀ _).trans hnone) (by rw [hkept₀.peer_eq hn₀, if_pos rfl])
  refine ⟨hlinked, hkept, fun x hx hpeer b => hbut₀.splice hlinked₀ hn₀ hx hpeer ?_⟩
  rintro rfl
  have hxn : x ≠ n := by
    rintro rfl
    exact h.child_ne hn b hget
  rw [hkept.peer_eq hx, if_neg hxn] at hpeer
  rw [hget₀]
  exact hfull x b rfl hpeer

theorem shrunk_splice_two (h : WF t) (hn : t.Live n) {p : ℕ} {b : Bool} (hp : t.Live p)
    (hget : t.get (.child p b) = some n) (hleaf : ∀ bit, t.get (.child n bit) = none)
    (hpeer : (t.node p).peer = none) {sp : Slot} (hsp : t.LiveSlot sp) (hgetp : t.get sp = some p) :
    let t₀ := (t.removeFromPeerEntries n).setPeer n none
    let t₁ := t₀.moveUp (.child p b) none
    let t' := ((t₁.moveUp sp (t.get (.child p (!b)))).zeroizePointers n).zeroizePointers p
    Linked t' ∧ Shrunk t t' n := by
  intro t₀ t₁ t'
  obtain ⟨hlinked₀, hkept₀, hbut₀, hslot₀, hget₀, -⟩ := disown_spec h hn
  have hn₀ : t₀.Live n := (hslot₀ (.child n b)).mpr hn
  have hnp : n ≠ p := by
    rintro rfl
    exact h.child_ne hn b hget
  -- the slot of the branch node is not a child slot of the leaf
  have hsp_n : ∀ b', sp ≠ .child n b' := by
    rintro b' rfl
    rw [hleaf] at hgetp
    cases hgetp
  have hsp_p : ∀ b', sp ≠ .child p b' := by
    rintro b' rfl
    exact h.child_ne hp b' hgetp
  have hsib_n : t.get (.child p (!b)) ≠ some n := by
    intro hsib
    have hpar := (h.held (.child p (!b)) n hp hsib).2
    rw [(h.held (.child p b) n hp hget).2] at hpar
    simp [Slot.indirection] at hpar
  -- first the leaf
  let tₘ := t₀.spliceOut (.child p b) n false
  have hspliced : Spliced t₀ tₘ (.child p b) n false := spliced_spliceOut _ _ _ _
  obtain ⟨hlinked_m, hkept_m⟩ : Linked tₘ ∧ Kept t tₘ n :=
    hkept₀.splice hlinked₀ ((hslot₀ (.child p b)).mpr hp) ((hget₀ _).trans hget)
    ((hget₀ _).trans (hleaf (!false))) (by rw [hkept₀.peer_eq hn₀, if_pos rfl])
  have hbut_m : BranchBut tₘ p := by
    intro x hx hxp hnone b'
    refine hbut₀.splice hlinked₀ hn₀ hx hnone fun heq => ?_
    cases heq
    exact absurd rfl hxp
  have hlive_m : ∀ x, tₘ.Live x ↔ x ≠ n ∧ t.Live x := by
    intro x
    rw [hspliced.live_iff hlinked₀ hn₀]
    exact and_congr_right fun _ => hslot₀ (.child x b)
  have hget_m : ∀ s', (∀ b', s' ≠ .child n b') → tₘ.get s' = if s' = .child p b then
      none else t.get s' := by
    intro s' hs'
    rw [hspliced.get_eq s' hs', hget₀, hget₀, hleaf]
  have hsib : tₘ.get (.child p (!b)) = t.get (.child p (!b)) := by
    rw [hget_m _ (by simp [Ne.symm hnp])]
    simp
  -- then the branch node, from the table without the leaf
  have ht' : t' = tₘ.spliceOut sp p (!b) := by
    simp only [t', t₁]
    rw [zeroizePointers_moveUp _ hsp_n hsib_n, spliceOut, hsib]
    simp only [tₘ, t₀, spliceOut, hget₀, hleaf]
  have hsp_m : tₘ.LiveSlot sp := by
    cases sp with
    | root f => trivial
    | child q b' =>
      refine (hlive_m q).mpr ⟨?_, hsp⟩
      rintro rfl
      exact hsp_n b' rfl
  have hgetp_m : tₘ.get sp = some p := by
    rw [hget_m sp hsp_n, if_neg (hsp_p b), hgetp]
  have hempty_m : tₘ.get (.child p (!!b)) = none := by
    rw [Bool.not_not, hget_m _ (by simp [Ne.symm hnp]), if_pos rfl]
  have hlive_p : tₘ.Live p := (hlive_m p).mpr ⟨Ne.symm hnp, hp⟩
  obtain ⟨hlinked, hkept⟩ := hkept_m.splice hlinked_m hsp_m hgetp_m hempty_m
    (by rw [hkept_m.peer_eq hlive_p, if_neg (Ne.symm hnp), hpeer])
  rw [ht']
  refine ⟨hlinked, hkept, fun x hx hnone b' => hbut_m.splice hlinked_m hlive_p hx hnone fun _ => ?_⟩
  rw [hsib]
  exact h.branch p hp hpeer (!b)

end Splice

/-- `remove` on a live node succeeds and takes away its ownership only. -/
theorem removeNode_spec (h : WF t) (hn : t.Live n) :
    ∃ t', t.removeNode n = some t' ∧ Linked t' ∧ Shrunk t t' n := by
  obtain ⟨hlinked₀, hkept₀, hbut₀, hslot₀, hget₀, hpar₀⟩ := disown_spec h hn
  obtain ⟨s, hs, hget, hpar⟩ := h.toLinked.slot_of hn
  have hchild₀ : ∀ b, (((t.removeFromPeerEntries n).setPeer n none).node n).child b =
      t.get (.child n b) := fun b => hget₀ (.child n b)
  rw [removeNode]
  simp only [hchild₀, hpar₀, hpar]
  by_cases hboth : t.get (.child n false) ≠ none ∧ t.get (.child n true) ≠ none
  · -- the node becomes a branch node
    rw [if_pos hboth]
    refine ⟨_, rfl, hlinked₀, hkept₀, fun x hx hpeer b => ?_⟩
    by_cases hxn : x = n
    · rw [hget₀, hxn]
      cases b
      · exact hboth.1
      · exact hboth.2
    · exact hbut₀ x hx hxn hpeer b
  · rw [if_neg hboth]
    -- the side with the child, if there is one
    obtain ⟨bit, hbit⟩ : ∃ bit, (t.get (.child n false)).isNone = bit := ⟨_, rfl⟩
    have hnone : t.get (.child n (!bit)) = none := by
      cases hf : t.get (.child n false) with
      | none =>
        rw [hf] at hbit
        subst hbit
        exact hf
      | some c =>
        rw [hf] at hbit
        subst hbit
        by_contra htrue
        exact hboth ⟨by simp [hf], htrue⟩
    rw [hbit, replaceChild_eq, bind_eq_bind, bind_some, ← hget₀ (.child n bit)]
    by_cases hone : t.get (.child n false) ≠ none ∨ t.get (.child n true) ≠ none ∨
        s.indirection.parentBitType > 1
    · -- one child takes the place of the node, or a leaf at the root goes away
      rw [if_pos hone]
      refine ⟨_, rfl, shrunk_splice h hn hs hget hnone ?_⟩
      rintro p b rfl -
      rcases hone with h1 | h1 | h1
      · cases bit
        · exact h1
        · exact absurd hnone h1
      · cases bit
        · exact absurd hnone h1
        · exact h1
      · cases b <;> simp [Slot.indirection, Slot.bitType] at h1
    · rw [if_neg hone]
      simp only [not_or, not_not] at hone
      obtain ⟨hf, ht, htype⟩ := hone
      have hleaf : ∀ b, t.get (.child n b) = none := by
        intro b
        cases b
        · exact hf
        · exact ht
      cases s with
      | root f => simp [Slot.indirection, Slot.bitType] at htype
      | child p b =>
        have hp : t.Live p := hs
        have hnp : p ≠ n := by
          rintro rfl
          exact h.child_ne hn b hget
        have howner : slotOwner (Slot.child p b).indirection = some p := by
          simp [slotOwner, Slot.indirection, Slot.bitType]
        obtain ⟨sp, hsp, hgetp, hparp⟩ := h.toLinked.slot_of hp
        obtain ⟨t₁, ht₁⟩ : ∃ t₁, ((t.removeFromPeerEntries n).setPeer n none).moveUp (.child p b)
            (((t.removeFromPeerEntries n).setPeer n none).get (.child n bit)) = t₁ := ⟨_, rfl⟩
        have hpeer : (t₁.node p).peer = (t.node p).peer := by
          rw [← ht₁, peer_of_owner (owner_moveUp _ _ _ _),
            hkept₀.peer_eq ((hslot₀ (.child p b)).mpr hp), if_neg hnp]
        rw [howner, bind_eq_bind, bind_some, ht₁, hpeer]
        by_cases howned : (t.node p).peer ≠ none
        · -- the parent has an owner and may lack a child
          rw [if_pos howned]
          refine ⟨_, rfl, ?_⟩
          rw [← ht₁]
          refine shrunk_splice h hn hs hget hnone ?_
          rintro q b' heq hq
          cases heq
          exact absurd hq howned
        · -- the parent is a branch node: its other child takes its place
          rw [if_neg howned]
          rw [not_not] at howned
          have hparent : (t₁.node p).parent = sp.indirection := by
            rw [← ht₁, parent_moveUp, hget₀, hleaf, if_neg (by simp), hpar₀, hparp]
          have hsib : (t₁.node p).child (decide ((Slot.child p b).indirection.parentBitType = 0)) =
              t.get (.child p (!b)) := by
            have hside : decide ((Slot.child p b).indirection.parentBitType = 0) = !b := by
              cases b <;> rfl
            rw [hside, child_eq_get, ← ht₁, get_moveUp, if_neg (by simp), hget₀]
          have ht₁' : t₁ =
              ((t.removeFromPeerEntries n).setPeer n none).moveUp (.child p b) none := by
            rw [← ht₁, hget₀, hleaf]
          rw [hparent, hsib, replaceChild_eq, bind_some, ht₁']
          exact ⟨_, rfl, shrunk_splice_two h hn hp hget hleaf howned hsp hgetp⟩

/-! ## §4 `Remove` and `RemoveByPeer` -/

theorem Shrunk.refines (h : WF t) (hm : t.Refines m)
    (hn : t.Live n) (hs : Shrunk t t' n) (hf : (t.node n).bits.length = f.addrLen)
    {peer : P} (hpeer : (t.node n).peer = some peer) :
    t'.Refines (Function.update m f ((m f).remove (t.node n).prefixBits peer)) := by
  intro g p q
  rw [hs.owns_iff]
  have howned : m f (t.node n).prefixBits = some peer := (hm f _ peer).mpr ⟨n, hn, hf, rfl, hpeer⟩
  -- the prefix of `n` has no owner left, and no other prefix is concerned
  by_cases hkey : g = f ∧ p = (t.node n).prefixBits
  · obtain ⟨rfl, rfl⟩ := hkey
    rw [update_self, PrefixMap.remove, if_pos ⟨rfl, howned⟩]
    constructor
    · intro hq
      cases hq
    · rintro ⟨x, hxn, hx, hlen, hp, -⟩
      exact absurd (h.eq_of_prefixBits hx hn (hlen.trans hf.symm) hp) hxn
  · have hsame : update m f ((m f).remove (t.node n).prefixBits peer) g p = m g p := by
      by_cases hgf : g = f
      · subst hgf
        rw [update_self, PrefixMap.remove, if_neg fun hp => hkey ⟨rfl, hp.1⟩]
      · rw [update_of_ne hgf]
    rw [hsame, hm g p q]
    constructor
    · rintro ⟨x, hx, hlen, hp, hq⟩
      refine ⟨x, ?_, hx, hlen, hp, hq⟩
      rintro rfl
      exact hkey ⟨addrLen_injective (hlen.symm.trans hf), hp.symm⟩
    · rintro ⟨x, -, hx, hrest⟩
      exact ⟨x, hx, hrest⟩

theorem remove_of_not_owned {p : List Bool} {peer : P}
    (h : m f p ≠ some peer) : Function.update m f ((m f).remove p peer) = m := by
  have hsame : (m f).remove p peer = m f := by
    funext q
    rw [PrefixMap.remove, if_neg]
    rintro ⟨rfl, hq⟩
    exact h hq
  rw [hsame, update_eq_self]

omit [DecidableEq P] in
theorem Placed.not_owned (h : WF t) (hm : t.Refines m)
    {ip : Bytes} (hip : ip.length = f.addrLen) {cidr : ℕ} (hc : cidr ≤ 8 * ip.length)
    {placed : Option ℕ} (hplaced : t.Placed f ip cidr (placed, false)) (peer : P) :
    m f ((toBits ip).take cidr) ≠ some peer := by
  intro howned
  obtain ⟨x, hx, hcidr, hcov⟩ := hm.node_at h.toLinked hip hc howned
  cases placed with
  | none =>
    obtain ⟨r, hr, hpath⟩ := h.root_above hx (hcov.len.trans hip)
    obtain ⟨hle, hcov_r⟩ := h.covers_of_above hpath hcov
    exact hplaced r hr ⟨by omega, hcov_r⟩
  | some n =>
    obtain ⟨hn, hcov_n, hlt, hfree⟩ := hplaced
    obtain ⟨c, hchild, hle, hcov_c⟩ := h.toward hn hx hcov_n hcov (by omega)
    exact hfree c hchild ⟨by omega, hcov_c⟩

theorem remove_spec (h : WF t) (hm : t.Refines m) (pfx : Prefix)
    (peer : P) : ∃ t', t.remove pfx peer = some t' ∧ WF t' ∧
      t'.Refines (Function.update m pfx.family
        ((m pfx.family).remove ((toBits pfx.addr).take pfx.bits) peer)) := by
  have hc : pfx.bits ≤ 8 * pfx.addr.length := by
    rw [pfx.addr_len]
    exact pfx.bits_le
  obtain ⟨⟨placed, exact⟩, hrun, hplaced⟩ := nodePlacement_spec h.toLinked pfx.addr_len hc
  rw [remove, hrun, bind_some]
  cases exact with
  | false =>
    rw [remove_of_not_owned (hplaced.not_owned h hm pfx.addr_len hc peer)]
    cases placed <;> exact ⟨t, rfl, h, hm⟩
  | true =>
    cases placed with
    | none => exact hplaced.elim
    | some n =>
      obtain ⟨hn, hcov, hcidr⟩ := hplaced
      have hpfx : (t.node n).prefixBits = (toBits pfx.addr).take pfx.bits := by
        rw [← hcidr, prefixBits_eq_iff (h.entry n hn) hcov.len]
        exact hcov
      have hat := hm.at_node h.toLinked hn pfx.addr_len hcov
      rw [hcidr] at hat
      show ∃ t', (if (t.node n).peer = some peer then t.removeNode n else some t) = some t' ∧ _
      -- `Remove` does nothing to a prefix of another peer
      by_cases hpeer : (t.node n).peer = some peer
      · rw [if_pos hpeer]
        obtain ⟨t', hrun', hlinked, hs⟩ := removeNode_spec h hn
        refine ⟨t', hrun', hs.wf h hlinked, ?_⟩
        rw [← hpfx]
        exact hs.refines h hm hn (hcov.len.trans pfx.addr_len) hpeer
      · rw [if_neg hpeer, remove_of_not_owned (by rw [hat]; exact hpeer)]
        exact ⟨t, rfl, h, hm⟩

/-- Removing the nodes of a peer one by one leaves the owners of the other peers. -/
theorem removeNodes_spec (h : WF t) (peer : P) (ns : List ℕ) (hnodup : ns.Nodup)
    (hns : ∀ x, x ∈ t.trieEntries peer ↔ x ∈ ns) :
    ∃ t', t.removeNodes ns = some t' ∧ WF t' ∧ (∀ x, x ∉ t'.trieEntries peer) ∧
      ∀ f p q, q ≠ peer → (t'.Owns f p q ↔ t.Owns f p q) := by
  -- on the list, which stays that of the nodes that the peer still has
  induction ns generalizing t with
  | nil => exact ⟨t, rfl, h, fun x => by simp [hns], fun _ _ _ _ => Iff.rfl⟩
  | cons n ns ih =>
    obtain ⟨hnot, hnodup'⟩ := nodup_cons.mp hnodup
    obtain ⟨hn, hpeer⟩ := (h.listed peer n).mp ((hns n).mpr mem_cons_self)
    obtain ⟨t₁, hrun, hlinked, hs⟩ := removeNode_spec h hn
    -- the elements that are left are those of the rest of the list
    have hns₁ : ∀ x, x ∈ t₁.trieEntries peer ↔ x ∈ ns := by
      intro x
      rw [hs.mem_entries, hns, mem_cons]
      constructor
      · rintro ⟨hxn, rfl | hx⟩
        · exact absurd rfl hxn
        · exact hx
      · intro hx
        exact ⟨fun hxn => hnot (hxn ▸ hx), Or.inr hx⟩
    obtain ⟨t', hrun', h', hempty, howns⟩ := ih (hs.wf h hlinked) hnodup' hns₁
    refine ⟨t', ?_, h', hempty, ?_⟩
    · rw [removeNodes, hrun, bind_some, hrun']
    · intro f p q hq
      rw [howns f p q hq, hs.owns_iff]
      constructor
      · rintro ⟨x, -, hx⟩
        exact ⟨x, hx⟩
      · rintro ⟨x, hx, hlen, hp, hq'⟩
        refine ⟨x, ?_, hx, hlen, hp, hq'⟩
        rintro rfl
        rw [hpeer] at hq'
        exact hq (some.inj hq').symm

theorem removeByPeer_spec (h : WF t) (hm : t.Refines m) (peer : P) :
    ∃ t', t.removeByPeer peer = some t' ∧ WF t' ∧ t'.Refines fun f => (m f).removeOwner peer := by
  obtain ⟨t', hrun, h', hempty, howns⟩ :=
    removeNodes_spec h peer (t.trieEntries peer) (h.nodup peer) fun _ => Iff.rfl
  refine ⟨t', hrun, h', ?_⟩
  intro f p q
  show (if m f p = some peer then none else m f p) = some q ↔ _
  by_cases hq : q = peer
  · subst hq
    have hnone : ¬t'.Owns f p q := by
      rintro ⟨x, hx, -, -, hpeer⟩
      exact hempty x ((h'.listed q x).mpr ⟨hx, hpeer⟩)
    simp [hnone]
  · rw [howns f p q hq, ← hm f p q]
    constructor
    · intro hval
      split_ifs at hval with howned
      exact hval
    · intro hval
      rw [if_neg, hval]
      rw [hval]
      exact fun heq => hq (some.inj heq)

end Remove

end AllowedIPs

end AmneziaWG.Device
