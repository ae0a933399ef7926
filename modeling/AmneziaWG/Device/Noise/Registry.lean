import AmneziaWG.Device.Noise.Sessions

/-!
# The Registry of Indices

An abstract view of who owns which index of the table.  A peer holds an index for its handshake,
and one for each keypair in its slots.  The registry knows four moves, and every operation on a
device is a sequence of them: an index of a handshake is released, a free one is registered, a
handshake hands its index to a new keypair, and keypairs are dropped from the slots.

Index 0 is what a handshake without an index holds, and `Delete` of it is not guarded.  What a peer
knows about its own indices is therefore stated for the others only.

## Main results

- `Inv.release`, `Inv.assign`, `Inv.adopt`, `Inv.drop`: every move keeps the invariant.
- `GivesUp.others_iff`: a move on one peer leaves the entries of the others alone, unless it gives
  up index 0 while that is the index of another.
-/

namespace AmneziaWG.Device

open AmneziaWG.Lib List Option Nat Function IndexTable

/-! ## §1 Slots and tables -/

namespace Keypairs

def Has (ks : Keypairs) (k : ℕ) : Prop :=
  ks.current = some k ∨ ks.previous = some k ∨ ks.next = some k

structure Distinct (ks : Keypairs) : Prop where
  current_previous : ∀ k, ks.current = some k → ks.previous ≠ some k
  current_next : ∀ k, ks.current = some k → ks.next ≠ some k
  previous_next : ∀ k, ks.previous = some k → ks.next ≠ some k

/-- `rest` is what is left of the slots when keypairs are dropped. -/
structure Drops (ks rest : Keypairs) (dropped : List ℕ) : Prop where
  has : ∀ k, rest.Has k → ks.Has k ∧ k ∉ dropped
  cover : ∀ k, ks.Has k → rest.Has k ∨ k ∈ dropped
  dropped : ∀ k ∈ dropped, ks.Has k
  distinct : rest.Distinct

/-- `ks` are the slots `rest` with one more keypair. -/
structure Adopts (rest ks : Keypairs) (k : ℕ) : Prop where
  has : ∀ l, ks.Has l → rest.Has l ∨ l = k
  cover : ∀ l, rest.Has l → ks.Has l
  new : ks.Has k
  distinct : ks.Distinct

theorem not_has_none (k : ℕ) : ¬Keypairs.none.Has k := by simp [Has, Keypairs.none]

theorem distinct_none : Keypairs.none.Distinct := by constructor <;> simp [Keypairs.none]

end Keypairs

def IndexTableEntry.ofHandshake (p : ℕ) : IndexTableEntry :=
  { peer := some p, handshake := some p, keypair := none }

def IndexTableEntry.ofKeypair (p k : ℕ) : IndexTableEntry :=
  { peer := some p, handshake := none, keypair := some k }

namespace IndexTable

section

variable (t : IndexTable) (i j : BitVec 32)

theorem delete_apply : t.delete i j = if j = i then none else t j := update_apply _ _ _ _

theorem set_apply (e : IndexTableEntry) :
    t.set i e j = if j = i then some e else t j := update_apply _ _ _ _

theorem swapIndexForKeypair_apply (k : ℕ) :
    t.swapIndexForKeypair i k j =
      if j = i then (t i).map (fun e => { peer := e.peer, keypair := some k, handshake := none })
      else t j := by
  unfold swapIndexForKeypair
  cases hi : t i with
  | none =>
    by_cases hj : j = i
    · simp [hj, hi]
    · simp [hj]
  | some e => simp [set_apply]

theorem foldl_delete_apply (is : List (BitVec 32)) (j : BitVec 32) :
    is.foldl delete t j = if j ∈ is then none else t j := by
  induction is generalizing t with
  | nil => simp
  | cons i is ih =>
    rw [foldl_cons, ih, delete_apply]
    by_cases hj : j = i <;> by_cases hmem : j ∈ is <;> simp [hj, hmem]

end

/-- A new index is one of the draws and was free, and only its entry is new. -/
theorem newIndexForHandshake_spec {t t' : IndexTable} {p : ℕ} {draws : List (BitVec 32)}
    {i : BitVec 32} (h : t.newIndexForHandshake p draws = some (i, t')) :
    i ∈ draws ∧ t i = none ∧ t' = t.set i (.ofHandshake p) := by
  induction draws with
  | nil => cases h
  | cons j draws ih =>
    unfold newIndexForHandshake at h
    cases hj : t j with
    | some e =>
      rw [hj] at h
      obtain ⟨hmem, hrest⟩ := ih h
      exact ⟨mem_cons_of_mem _ hmem, hrest⟩
    | none =>
      rw [hj] at h
      cases h
      exact ⟨mem_cons_self, hj, rfl⟩

end IndexTable

/-! ## §2 The registry and its moves -/

/-- Who holds which index.  A handshake without an index holds 0. -/
@[ext]
structure Registry where
  table : IndexTable
  localIndex : ℕ → BitVec 32
  slots : ℕ → Keypairs
  keypairIndex : ℕ → BitVec 32
  nextKeypair : ℕ

namespace Registry

/-- The handshake of a peer gives up its index. -/
def release (r : Registry) (p : ℕ) : Registry :=
  { r with
    table := r.table.delete (r.localIndex p), localIndex := Function.update r.localIndex p 0 }

/-- The handshake of a peer gets an index. -/
def register (r : Registry) (p : ℕ) (i : BitVec 32) : Registry :=
  { r with
    table := r.table.set i (.ofHandshake p), localIndex := Function.update r.localIndex p i }

/-- The slots of a peer become `ks`, and the entries of the dropped keypairs are deleted. -/
def drop (r : Registry) (p : ℕ) (ks : Keypairs) (dropped : List ℕ) : Registry :=
  { r with
    table := (dropped.map r.keypairIndex).foldl IndexTable.delete r.table
    slots := Function.update r.slots p ks }

/-- A new keypair takes over the index of the handshake; the slots with it are `ks`. -/
def adopt (r : Registry) (p : ℕ) (ks : Keypairs) : Registry :=
  { table := r.table.swapIndexForKeypair (r.localIndex p) r.nextKeypair
    localIndex := Function.update r.localIndex p 0
    slots := Function.update r.slots p ks
    keypairIndex := Function.update r.keypairIndex r.nextKeypair (r.localIndex p)
    nextKeypair := r.nextKeypair + 1 }

/-- A peer holds an index, for its handshake or for a keypair. -/
def Holds (r : Registry) (p : ℕ) (i : BitVec 32) : Prop :=
  r.localIndex p = i ∨ ∃ k, (r.slots p).Has k ∧ r.keypairIndex k = i

/-- What holds of every registry that a device reaches. -/
structure Inv (r : Registry) : Prop where
  handshake : ∀ p, r.localIndex p ≠ 0 → r.table (r.localIndex p) = some (.ofHandshake p)
  slot : ∀ p k, (r.slots p).Has k → r.keypairIndex k ≠ 0 →
    r.table (r.keypairIndex k) = some (.ofKeypair p k)
  distinct : ∀ p, (r.slots p).Distinct
  allocated : ∀ p k, (r.slots p).Has k → k < r.nextKeypair
  held : ∀ i e, r.table i = some e → ∃ p, e.peer = some p ∧ r.Holds p i
  entryAllocated : ∀ i e k, r.table i = some e → e.keypair = some k → k < r.nextKeypair

/-! ## §3 The moves keep the invariant -/

section Slots

variable {r : Registry} {p q k : ℕ} {ks : Keypairs} {dropped : List ℕ}

theorem has_of_drop (hks : (r.slots p).Drops ks dropped)
    (hk : ((r.drop p ks dropped).slots q).Has k) :
    (r.slots q).Has k := by
  by_cases hqp : q = p
  · subst hqp
    exact (hks.has k (by simpa [Registry.drop] using hk)).1
  · simpa [Registry.drop, hqp] using hk

theorem has_of_adopt (hks : (r.slots p).Adopts ks r.nextKeypair)
    (hk : ((r.adopt p ks).slots q).Has k) : (r.slots q).Has k ∨ q = p ∧ k = r.nextKeypair := by
  by_cases hqp : q = p
  · subst hqp
    exact (hks.has k (by simpa [Registry.adopt] using hk)).imp id fun heq => ⟨rfl, heq⟩
  · exact .inl (by simpa [Registry.adopt, hqp] using hk)

end Slots

namespace Inv

variable {r : Registry}

theorem localIndex_inj (h : r.Inv) {p q : ℕ} (hp : r.localIndex p ≠ 0)
    (heq : r.localIndex q = r.localIndex p) : q = p := by
  have hentry := h.handshake q (heq ▸ hp)
  rw [heq, h.handshake p hp] at hentry
  simpa [IndexTableEntry.ofHandshake, eq_comm] using hentry

theorem localIndex_ne_keypairIndex (h : r.Inv) {p q k : ℕ} (hne : r.keypairIndex k ≠ 0)
    (hk : (r.slots q).Has k) : r.keypairIndex k ≠ r.localIndex p := by
  intro heq
  have hentry := h.slot q k hk hne
  rw [heq, h.handshake p (heq ▸ hne)] at hentry
  simp [IndexTableEntry.ofHandshake, IndexTableEntry.ofKeypair] at hentry

theorem keypairIndex_inj (h : r.Inv) {p q k l : ℕ} (hk : (r.slots p).Has k) (hl : (r.slots q).Has l)
    (hne : r.keypairIndex k ≠ 0) (heq : r.keypairIndex l = r.keypairIndex k) : q = p ∧ l = k := by
  have hentry := h.slot q l hl (heq ▸ hne)
  rw [heq, h.slot p k hk hne] at hentry
  simpa [IndexTableEntry.ofKeypair, eq_comm] using hentry

theorem release (h : r.Inv) (p : ℕ) : (r.release p).Inv where
  handshake q hq := by
    have hqp : q ≠ p := by rintro rfl; simp [Registry.release] at hq
    simp only [Registry.release, update_of_ne hqp] at hq ⊢
    have hne : r.localIndex q ≠ r.localIndex p := fun heq => hqp (h.localIndex_inj hq heq.symm).symm
    rw [delete_apply, if_neg hne]
    exact h.handshake q hq
  slot q k hk hne := by
    simp only [Registry.release] at hk hne ⊢
    rw [delete_apply, if_neg (h.localIndex_ne_keypairIndex hne hk)]
    exact h.slot q k hk hne
  distinct := h.distinct
  allocated := h.allocated
  held i e he := by
    simp only [Registry.release, delete_apply] at he
    -- an entry that is left was not that of the handshake
    split_ifs at he with hi
    obtain ⟨q, hq, howner⟩ := h.held i e he
    refine ⟨q, hq, ?_⟩
    rcases howner with hown | hslot
    · have hqp : q ≠ p := by rintro rfl; exact hi hown.symm
      exact .inl (by simpa [Registry.release, hqp] using hown)
    · exact .inr hslot
  entryAllocated i e k he := by
    simp only [Registry.release, delete_apply] at he
    split_ifs at he
    exact h.entryAllocated i e k he

/-- What a peer still owns after it has given up its index, it owns for a keypair. -/
theorem release_held (h : r.Inv) {p : ℕ} {e : IndexTableEntry} {i : BitVec 32}
    (he : (r.release p).table i = some e) (hp : e.peer = some p) :
    ∃ k, (r.slots p).Has k ∧ r.keypairIndex k = i := by
  simp only [Registry.release, delete_apply] at he
  split_ifs at he with hi
  obtain ⟨q, hq, howner⟩ := h.held i e he
  obtain rfl : q = p := some.inj (hq.symm.trans hp)
  exact howner.resolve_left fun hown => hi hown.symm

/-- The handshake of a peer gets a free index in place of its own. -/
theorem assign (h : r.Inv) {p : ℕ} {i : BitVec 32} (hfree : (r.release p).table i = none) :
    ((r.release p).register p i).Inv where
  handshake q hq := by
    by_cases hqp : q = p
    · simp [Registry.register, hqp, set_apply]
    · have hlocal : ((r.release p).register p i).localIndex q = (r.release p).localIndex q := by
        simp [Registry.register, hqp]
      rw [hlocal] at hq ⊢
      have hentry := (h.release p).handshake q hq
      -- the index was free, so nobody else holds it
      have hne : (r.release p).localIndex q ≠ i := by rintro rfl; rw [hfree] at hentry; cases hentry
      simpa [Registry.register, set_apply, hne] using hentry
  slot q k hk hne := by
    have hentry := (h.release p).slot q k hk hne
    have hne' : (r.release p).keypairIndex k ≠ i := by
      rintro rfl; rw [hfree] at hentry; cases hentry
    simpa [Registry.register, set_apply, hne'] using hentry
  distinct := h.distinct
  allocated := h.allocated
  held j e he := by
    simp only [Registry.register, set_apply] at he
    split_ifs at he with hj
    · cases he
      exact ⟨p, rfl, .inl (by simp [Registry.register, hj])⟩
    · obtain ⟨q, hq, howner⟩ := (h.release p).held j e he
      refine ⟨q, hq, ?_⟩
      by_cases hqp : q = p
      · subst hqp
        exact .inr (h.release_held he hq)
      · rcases howner with hown | hslot
        · exact .inl (by simpa [Registry.register, hqp] using hown)
        · exact .inr hslot
  entryAllocated j e k he hk := by
    simp only [Registry.register, set_apply] at he
    split_ifs at he
    · cases he; cases hk
    · exact (h.release p).entryAllocated j e k he hk

/-- Keypairs leave the slots together with their entries. -/
theorem drop (h : r.Inv) {p : ℕ} {ks : Keypairs} {dropped : List ℕ}
    (hks : (r.slots p).Drops ks dropped) : (r.drop p ks dropped).Inv := by
  -- the entry of an index other than 0 goes when its keypair is dropped, and only then
  have hkeep : ∀ i, (∀ k ∈ dropped, r.keypairIndex k ≠ i) → (r.drop p ks dropped).table i =
      r.table i := by
    intro i hi
    have hnot : i ∉ dropped.map r.keypairIndex := by simpa using hi
    simp [Registry.drop, foldl_delete_apply, hnot]
  refine ⟨?_, ?_, ?_, fun q k hk => h.allocated q k (has_of_drop hks hk), ?_, ?_⟩
  · intro q hq
    have hentry := h.handshake q hq
    rw [← hentry]
    exact hkeep _ fun k hk heq =>
      h.localIndex_ne_keypairIndex (heq ▸ hq) (hks.dropped k hk) heq
  · intro q k hk hne
    have hentry := h.slot q k (has_of_drop hks hk) hne
    rw [← hentry]
    refine hkeep _ fun l hl heq => ?_
    -- a dropped keypair with the same index would be the same keypair
    obtain ⟨rfl, rfl⟩ := h.keypairIndex_inj (has_of_drop hks hk) (hks.dropped l hl) hne heq
    exact (hks.has l (by simpa [Registry.drop] using hk)).2 hl
  · intro q
    by_cases hqp : q = p
    · simpa [Registry.drop, hqp] using hks.distinct
    · simpa [Registry.drop, hqp] using h.distinct q
  · intro i e he
    simp only [Registry.drop, foldl_delete_apply] at he
    split_ifs at he with hi
    obtain ⟨q, hq, howner⟩ := h.held i e he
    refine ⟨q, hq, howner.imp id ?_⟩
    rintro ⟨k, hk, hki⟩
    refine ⟨k, ?_, hki⟩
    by_cases hqp : q = p
    · subst hqp
      have hnot : k ∉ dropped := fun hmem => hi (hki ▸ mem_map_of_mem hmem)
      simpa [Registry.drop] using (hks.cover k hk).resolve_right hnot
    · simpa [Registry.drop, hqp] using hk
  · intro i e k he
    simp only [Registry.drop, foldl_delete_apply] at he
    split_ifs at he
    exact h.entryAllocated i e k he

/-- A new keypair takes over the index of the handshake. -/
theorem adopt (h : r.Inv) {p : ℕ} {ks : Keypairs} (hks : (r.slots p).Adopts ks r.nextKeypair) :
    (r.adopt p ks).Inv := by
  have hold : ∀ q k, (r.slots q).Has k → (r.adopt p ks).keypairIndex k = r.keypairIndex k := by
    intro q k hk
    simp [Registry.adopt, (h.allocated q k hk).ne]
  have hkeep : ∀ i, i ≠ r.localIndex p → (r.adopt p ks).table i = r.table i := by
    intro i hi
    simp [Registry.adopt, swapIndexForKeypair_apply, hi]
  refine ⟨?_, ?_, ?_, ?_, ?_, ?_⟩
  · intro q hq
    have hqp : q ≠ p := by rintro rfl; simp [Registry.adopt] at hq
    have hlocal : (r.adopt p ks).localIndex q = r.localIndex q := by simp [Registry.adopt, hqp]
    rw [hlocal] at hq ⊢
    rw [hkeep _ fun heq => hqp (h.localIndex_inj hq heq.symm).symm]
    exact h.handshake q hq
  · -- the new keypair has the index of the handshake, and its entry names it
    intro q k hk hne
    rcases has_of_adopt hks hk with hk' | ⟨rfl, rfl⟩
    · rw [hold q k hk'] at hne ⊢
      rw [hkeep _ (h.localIndex_ne_keypairIndex hne hk')]
      exact h.slot q k hk' hne
    · have hindex : (r.adopt q ks).keypairIndex r.nextKeypair = r.localIndex q := by
        simp [Registry.adopt]
      rw [hindex] at hne ⊢
      simp [Registry.adopt, swapIndexForKeypair_apply, h.handshake q hne,
        IndexTableEntry.ofHandshake, IndexTableEntry.ofKeypair]
  · intro q
    by_cases hqp : q = p
    · simpa [Registry.adopt, hqp] using hks.distinct
    · simpa [Registry.adopt, hqp] using h.distinct q
  · intro q k hk
    rcases has_of_adopt hks hk with hk' | ⟨-, rfl⟩
    · exact lt_succ_of_lt (h.allocated q k hk')
    · exact lt_succ_self _
  · intro i e he
    -- the entry keeps its peer, and what the handshake held the new keypair holds now
    have hentry : ∃ e', r.table i = some e' ∧ e'.peer = e.peer := by
      simp only [Registry.adopt, swapIndexForKeypair_apply] at he
      split_ifs at he with hi
      · obtain ⟨e', he', rfl⟩ := map_eq_some_iff.mp he
        exact ⟨e', hi ▸ he', rfl⟩
      · exact ⟨e, he, rfl⟩
    obtain ⟨e', he', hpeer⟩ := hentry
    obtain ⟨q, hq, howner⟩ := h.held i e' he'
    refine ⟨q, hpeer ▸ hq, ?_⟩
    rcases howner with hown | ⟨k, hk, hki⟩
    · by_cases hqp : q = p
      · subst hqp
        exact .inr ⟨r.nextKeypair, by simpa [Registry.adopt] using hks.new,
          by simpa [Registry.adopt] using hown⟩
      · exact .inl (by simpa [Registry.adopt, hqp] using hown)
    · refine .inr ⟨k, ?_, (hold q k hk).trans hki⟩
      by_cases hqp : q = p
      · subst hqp
        simpa [Registry.adopt] using hks.cover k hk
      · simpa [Registry.adopt, hqp] using hk
  · intro i e k he hk
    simp only [Registry.adopt, swapIndexForKeypair_apply] at he
    split_ifs at he with hi
    · obtain ⟨e', -, rfl⟩ := map_eq_some_iff.mp he
      cases hk
      exact lt_succ_self _
    · exact lt_succ_of_lt (h.entryAllocated i e k he hk)

end Inv

/-! ## §4 What a move on one peer does to the others -/

/-- A move on a peer gives up the indices `T`.  The entries of all others stay, one of another
peer does not stay when its index is given up, and that can only be index 0. -/
structure GivesUp (r r' : Registry) (p : ℕ) (T : List (BitVec 32)) : Prop where
  keeps : ∀ i ∉ T, ∀ e, r.table i = some e → r'.table i = some e
  takes : ∀ i ∈ T, ∀ e, r.table i = some e → e.peer ≠ some p → r'.table i ≠ some e
  own : ∀ i ∈ T, i ≠ 0 → ∀ e, r.table i = some e → e.peer = some p

/-- The entries of the others stay exactly when index 0 is not given up while another has it. -/
theorem GivesUp.others_iff {r r' : Registry} {p : ℕ} {T : List (BitVec 32)} (h : r.GivesUp r' p T) :
    (∀ i e, r.table i = some e → e.peer ≠ some p → r'.table i = some e) ↔
      ¬(0 ∈ T ∧ ∃ e, r.table 0 = some e ∧ e.peer ≠ some p) := by
  constructor
  · rintro hsame ⟨hzero, e, he, hpeer⟩
    exact h.takes 0 hzero e he hpeer (hsame 0 e he hpeer)
  · intro hnot i e he hpeer
    by_cases hi : i ∈ T
    · by_cases hzero : i = 0
      · subst hzero
        exact absurd ⟨hi, e, he, hpeer⟩ hnot
      · exact absurd (h.own i hi hzero e he) hpeer
    · exact h.keeps i hi e he

theorem GivesUp.refl (r : Registry) (p : ℕ) : r.GivesUp r p [] where
  keeps _ _ _ he := he
  takes _ hi := nomatch hi
  own _ hi := nomatch hi

namespace Inv

variable {r : Registry}
variable {p : ℕ} {ks : Keypairs} {dropped : List ℕ}

theorem own_localIndex (h : r.Inv) {e : IndexTableEntry} (hne : r.localIndex p ≠ 0)
    (he : r.table (r.localIndex p) = some e) : e.peer = some p := by
  rw [h.handshake p hne] at he
  cases he
  rfl

theorem own_keypairIndex (h : r.Inv) {k : ℕ} (hk : (r.slots p).Has k) {e : IndexTableEntry}
    (hne : r.keypairIndex k ≠ 0) (he : r.table (r.keypairIndex k) = some e) : e.peer = some p := by
  rw [h.slot p k hk hne] at he
  cases he
  rfl

/-- What is given up together with dropped keypairs is the peer's own, unless it is 0. -/
theorem own_given (h : r.Inv) (hks : (r.slots p).Drops ks dropped) {i : BitVec 32}
    (hi : i ∈ r.localIndex p :: dropped.map r.keypairIndex) (hne : i ≠ 0) {e : IndexTableEntry}
    (he : r.table i = some e) : e.peer = some p := by
  rcases mem_cons.mp hi with rfl | hmem
  · exact h.own_localIndex hne he
  · obtain ⟨k, hk, rfl⟩ := mem_map.mp hmem
    exact h.own_keypairIndex (hks.dropped k hk) hne he

theorem givesUp_release (h : r.Inv) (p : ℕ) : r.GivesUp (r.release p) p [r.localIndex p] where
  keeps i hi e he := by
    rw [mem_singleton] at hi
    simpa [Registry.release, delete_apply, hi] using he
  takes i hi e _ _ := by
    rw [mem_singleton] at hi
    simp [Registry.release, delete_apply, hi]
  own i hi hne e he := by
    obtain rfl := mem_singleton.mp hi
    exact h.own_localIndex hne he

theorem givesUp_assign (h : r.Inv) {i : BitVec 32} (hfree : (r.release p).table i = none) :
    r.GivesUp ((r.release p).register p i) p [r.localIndex p] where
  keeps j hj e he := by
    have hkept := (h.givesUp_release p).keeps j hj e he
    have hne : j ≠ i := by rintro rfl; rw [hfree] at hkept; cases hkept
    simpa [Registry.register, set_apply, hne] using hkept
  takes j hj e he hpeer hsame := by
    by_cases hji : j = i
    · -- the new entry is one of this peer
      simp only [Registry.register, set_apply, if_pos hji] at hsame
      cases hsame
      exact hpeer rfl
    · simp only [Registry.register, set_apply, if_neg hji] at hsame
      exact (h.givesUp_release p).takes j hj e he hpeer hsame
  own := (h.givesUp_release p).own

theorem givesUp_drop (h : r.Inv) (hks : (r.slots p).Drops ks dropped) :
    r.GivesUp (r.drop p ks dropped) p (dropped.map r.keypairIndex) where
  keeps i hi e he := by simpa [Registry.drop, foldl_delete_apply, hi] using he
  takes i hi e _ _ := by simp [Registry.drop, foldl_delete_apply, hi]
  own _ hi hne _ he := h.own_given hks (mem_cons_of_mem _ hi) hne he

theorem givesUp_drop_release (h : r.Inv) (hks : (r.slots p).Drops ks dropped) :
    r.GivesUp ((r.drop p ks dropped).release p) p
      (r.localIndex p :: dropped.map r.keypairIndex) where
  keeps i hi e he := by
    rw [mem_cons, not_or] at hi
    exact ((h.drop hks).givesUp_release p).keeps i (by simpa [Registry.drop] using hi.1) e
      ((h.givesUp_drop hks).keeps i hi.2 e he)
  takes i hi e he hpeer := by
    simp only [Registry.release, delete_apply]
    split_ifs with hlocal
    · exact nofun
    · have hmem : i ∈ dropped.map r.keypairIndex := (mem_cons.mp hi).resolve_left hlocal
      exact (h.givesUp_drop hks).takes i hmem e he hpeer
  own _ hi hne _ he := h.own_given hks hi hne he

theorem givesUp_drop_adopt (h : r.Inv) {rest : Keypairs} (hks : (r.slots p).Drops rest dropped) :
    r.GivesUp ((r.drop p rest dropped).adopt p ks) p
      (r.localIndex p :: dropped.map r.keypairIndex) where
  keeps i hi e he := by
    rw [mem_cons, not_or] at hi
    have hkept := (h.givesUp_drop hks).keeps i hi.2 e he
    have hne : i ≠ (r.drop p rest dropped).localIndex p := hi.1
    simpa [Registry.adopt, swapIndexForKeypair_apply, hne] using hkept
  takes i hi e he hpeer hsame := by
    simp only [Registry.adopt, swapIndexForKeypair_apply] at hsame
    split_ifs at hsame with hlocal
    · -- the entry would be that of the new keypair, which no entry had before
      obtain ⟨e', -, rfl⟩ := map_eq_some_iff.mp hsame
      exact lt_irrefl _ (h.entryAllocated i _ _ he rfl)
    · have hmem : i ∈ dropped.map r.keypairIndex := (mem_cons.mp hi).resolve_left hlocal
      exact (h.givesUp_drop hks).takes i hmem e he hpeer hsame
  own _ hi hne _ he := h.own_given hks hi hne he

end Inv

/-! ## §5 Registries without index 0 -/

structure NoZero (r : Registry) : Prop where
  table : r.table 0 = none
  keypair : ∀ p k, (r.slots p).Has k → r.keypairIndex k ≠ 0

namespace NoZero

variable {r : Registry}

theorem release (h : r.NoZero) (p : ℕ) : (r.release p).NoZero where
  table := by simp only [Registry.release, delete_apply, h.table, ite_self]
  keypair := h.keypair

theorem register (h : r.NoZero) (p : ℕ) {i : BitVec 32} (hi : i ≠ 0) : (r.register p i).NoZero where
  table := by simp only [Registry.register, set_apply, h.table, if_neg hi.symm]
  keypair := h.keypair

theorem drop (h : r.NoZero) {p : ℕ} {ks : Keypairs} {dropped : List ℕ}
    (hks : (r.slots p).Drops ks dropped) : (r.drop p ks dropped).NoZero where
  table := by simp only [Registry.drop, foldl_delete_apply, h.table, ite_self]
  keypair q k hk := h.keypair q k (has_of_drop hks hk)

theorem adopt (h : r.NoZero) {p : ℕ} {ks : Keypairs}
    (hks : (r.slots p).Adopts ks r.nextKeypair) (hp : r.localIndex p ≠ 0) :
    (r.adopt p ks).NoZero where
  table := by
    simp only [Registry.adopt, swapIndexForKeypair_apply, h.table, if_neg hp.symm]
  keypair q k hk := by
    by_cases hknew : k = r.nextKeypair
    · simpa [Registry.adopt, hknew] using hp
    · have hk' : (r.slots q).Has k := (has_of_adopt hks hk).resolve_right fun h => hknew h.2
      simpa [Registry.adopt, hknew] using h.keypair q k hk'

end NoZero

end Registry

end AmneziaWG.Device
