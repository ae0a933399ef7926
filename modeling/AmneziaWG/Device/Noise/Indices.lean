import AmneziaWG.Device.Noise.Registry
import AmneziaWG.Lib.Transition

/-!
# Slots and Indices over Whole Runs

The handshake operations of a device, each as one step, and their effect on the registry of
indices.

## Main results

- `slots_and_table_consistent`: without a draw of 0, every entry of the table has one owner, every
  keypair in a slot is registered, and a responder's keypair becomes current only when it has been
  received with.
- `others_unchanged_iff`: an operation on a peer leaves the entries of the others alone, unless it
  gives up index 0 while that is the index of another peer.
-/

namespace AmneziaWG.Device

open AmneziaWG.Lib List Option Function Registry IndexTable Handshake

variable {S M : Type}

/-! ## §1 The registry of a device -/

/-- The slots after a rotation are the old ones, without those that are deleted, and the new
keypair. -/
theorem rotate_spec {ks : Keypairs} (hks : ks.Distinct) {k : ℕ} (hk : ¬ks.Has k)
    (isInitiator : Bool) :
    ∃ rest, ks.Drops rest ((NoiseDevice.rotate ks isInitiator k).2.filterMap id) ∧
      rest.Adopts (NoiseDevice.rotate ks isInitiator k).1 k := by
  obtain ⟨hcp, hcn, hpn⟩ := hks
  simp only [Keypairs.Has, not_or] at hk
  -- an initiator gives up the current slot or the one behind it, a responder all but the current
  refine ⟨if isInitiator then
      { current := none, next := none,
        previous := if ks.next ≠ none then ks.next else ks.current }
    else { current := ks.current, previous := none, next := none }, ⟨?_, ?_, ?_, ?_⟩,
    ⟨?_, ?_, ?_, ?_⟩⟩
  case refine_4 => cases isInitiator <;> constructor <;> grind
  case refine_8 => cases isInitiator <;> constructor <;> simp only [NoiseDevice.rotate] <;> grind
  all_goals
    cases isInitiator <;> cases hnext : ks.next <;> simp [NoiseDevice.rotate, Keypairs.Has, hnext]
      <;> grind

namespace NoiseDevice

/-- Who holds which index of a device. -/
def registry (d : NoiseDevice S M) : Registry :=
  { table := d.indexTable
    localIndex := fun p => (d.handshake p).localIndex
    slots := d.keypairs
    keypairIndex := fun k => (d.keypair k).localIndex
    nextKeypair := d.nextKeypair }

section

variable (d : NoiseDevice S M) (p q : ℕ) (ks : Keypairs)

theorem handshake_setHandshake (h : Handshake S M) :
    (d.setHandshake p h).handshake q = if q = p then h else d.handshake q := by
  simp only [setHandshake, handshake, update_apply]
  split_ifs <;> rfl

theorem keypairs_setHandshake (h : Handshake S M) :
    (d.setHandshake p h).keypairs q = d.keypairs q := by
  simp only [setHandshake, keypairs, update_apply]
  split_ifs with hqp
  · rw [hqp]
  · rfl

theorem handshake_setKeypairs : (d.setKeypairs p ks).handshake q = d.handshake q := by
  simp only [setKeypairs, handshake, update_apply]
  split_ifs with hqp
  · rw [hqp]
  · rfl

theorem keypairs_setKeypairs :
    (d.setKeypairs p ks).keypairs q = if q = p then ks else d.keypairs q := by
  simp only [setKeypairs, keypairs, update_apply]
  split_ifs <;> rfl

theorem registry_setHandshake (h : Handshake S M) : (d.setHandshake p h).registry =
      { d.registry with localIndex := update d.registry.localIndex p h.localIndex } := by
  ext1
  · rfl
  · funext q
    simp only [registry, handshake_setHandshake, update_apply]
    split_ifs <;> rfl
  · funext q
    exact keypairs_setHandshake d p q h
  · rfl
  · rfl

end

variable {d d' : NoiseDevice S M} {p typeDraw : ℕ} {h : Handshake S M} {c : Primitives S M} {e : S}
  {draws : List (BitVec 32)}

theorem registry_setHandshake_same (hindex : h.localIndex = (d.handshake p).localIndex) :
    (d.setHandshake p h).registry = d.registry := by
  rw [registry_setHandshake, hindex]
  exact congrArg (fun f => { d.registry with localIndex := f }) (update_eq_self _ _)

theorem registry_setKeypairs (d : NoiseDevice S M) (p : ℕ) (ks : Keypairs) :
    (d.setKeypairs p ks).registry = { d.registry with slots := update d.registry.slots p ks } := by
  ext1
  · rfl
  · funext q
    exact congrArg Handshake.localIndex (handshake_setKeypairs d p q ks)
  · funext q
    simp only [registry, keypairs_setKeypairs, update_apply]
  · rfl
  · rfl

theorem foldl_deleteKeypair (d : NoiseDevice S M) (keys : List (Option ℕ)) :
    keys.foldl deleteKeypair d =
      { d with
        indexTable :=
          ((keys.filterMap id).map d.registry.keypairIndex).foldl delete d.indexTable } := by
  induction keys generalizing d with
  | nil => rfl
  | cons key keys ih =>
    cases key with
    | none => exact ih d
    | some k =>
      rw [foldl_cons, ih]
      rfl

/-! ## §2 The sections as moves -/

/-- The device behind the choice of an index for a handshake. -/
def assign (d : NoiseDevice S M) (p : ℕ) (i : BitVec 32) (h : Handshake S M) : NoiseDevice S M :=
  { d with indexTable := (d.indexTable.delete (d.handshake p).localIndex).set i (.ofHandshake p) }
    |>.setHandshake p h

theorem registry_assign (d : NoiseDevice S M) {i : BitVec 32} (hi : h.localIndex = i) :
    (d.assign p i h).registry = (d.registry.release p).register p i := by
  rw [assign, registry_setHandshake, hi]
  ext1
  · rfl
  · exact (update_idem _ _ _).symm
  · rfl
  · rfl
  · rfl

theorem registry_release (d : NoiseDevice S M) (hi : h.localIndex = 0) :
    ({ d with indexTable := d.indexTable.delete (d.handshake p).localIndex }
      |>.setHandshake p h).registry = d.registry.release p := by
  rw [registry_setHandshake, hi]
  rfl

/-- `CreateMessageInitiation` fails early, or gives the handshake a free index. -/
theorem createMessageInitiation_cases
    {now : ℤ} {msg : Option (MessageInitiation M)}
    (h : d.createMessageInitiation c p e typeDraw now draws = some (d', msg)) :
    let created := (d.handshake p).createInitiation c d.publicKey e (tai64nStamp now)
    (created.2 = none ∧ d' = d.setHandshake p created.1) ∨
      ∃ body i, created.2 = some body ∧ i ∈ draws ∧ (d.registry.release p).table i = none ∧
        d' = d.assign p i
          { created.1.mixHash c body.timestamp with
            localIndex := i, state := .initiationCreated } := by
  intro created
  have hframe := createInitiation_frame c (d.handshake p) d.publicKey e (tai64nStamp now)
  unfold createMessageInitiation at h
  obtain ⟨type, -, h⟩ := bind_eq_some_iff.mp h
  -- the key schedule fails before an index is chosen, or not at all
  rcases hcreated : created with ⟨handshake, _ | body⟩
  · simp only [show (d.handshake p).createInitiation c d.publicKey e (tai64nStamp now) = _
      from hcreated] at h
    cases h
    exact .inl ⟨rfl, rfl⟩
  · simp only [show (d.handshake p).createInitiation c d.publicKey e (tai64nStamp now) = _
      from hcreated] at h hframe
    obtain ⟨⟨i, table⟩, hindex, h⟩ := bind_eq_some_iff.mp h
    obtain ⟨hmem, hfree, htable⟩ := newIndexForHandshake_spec hindex
    have hlocal : handshake.localIndex = (d.handshake p).localIndex := by rw [hframe]
    subst htable
    cases h
    rw [hlocal] at hfree ⊢
    exact .inr ⟨body, i, rfl, hmem, hfree, rfl⟩

/-- `CreateMessageResponse` refuses, or gives the handshake a free index. -/
theorem createMessageResponse_cases {msg : Option (MessageResponse M)}
    (h : d.createMessageResponse c p e typeDraw draws = some (d', msg)) :
    ((d.handshake p).state ≠ .initiationConsumed ∧ d' = d ∧ msg = none) ∨
      ∃ i, (d.handshake p).state = .initiationConsumed ∧ i ∈ draws ∧
        (d.registry.release p).table i = none ∧
        d' = d.assign p i
          (({ d.handshake p with localIndex := i } : Handshake S M).createResponse c e).1 := by
  unfold createMessageResponse at h
  by_cases hstate : (d.handshake p).state = .initiationConsumed
  · rw [if_neg (not_not.mpr hstate)] at h
    obtain ⟨⟨i, table⟩, hindex, h⟩ := bind_eq_some_iff.mp h
    obtain ⟨hmem, hfree, htable⟩ := newIndexForHandshake_spec hindex
    obtain ⟨type, -, h⟩ := bind_eq_some_iff.mp h
    subst htable
    -- the index has been chosen before the key schedule can fail
    refine .inr ⟨i, hstate, hmem, hfree, ?_⟩
    rcases hcreated : ({ d.handshake p with localIndex := i } : Handshake S M).createResponse
      c e with ⟨handshake, _ | body⟩
    · simp only [hcreated] at h
      cases h
      rfl
    · simp only [hcreated] at h
      cases h
      rfl
  · rw [if_pos hstate] at h
    cases h
    exact .inl ⟨hstate, rfl, rfl⟩

theorem registry_createMessageInitiation
    {now : ℤ} {msg : Option (MessageInitiation M)}
    (h : d.createMessageInitiation c p e typeDraw now draws = some (d', msg)) :
    let created := (d.handshake p).createInitiation c d.publicKey e (tai64nStamp now)
    (created.2 = none ∧ d'.registry = d.registry) ∨
      ∃ body i, created.2 = some body ∧ i ∈ draws ∧ (d.registry.release p).table i = none ∧
        d'.registry = (d.registry.release p).register p i := by
  intro created
  rcases createMessageInitiation_cases h with ⟨hnone, rfl⟩ | ⟨body, i, hsome, hmem, hfree, rfl⟩
  · refine .inl ⟨hnone, registry_setHandshake_same ?_⟩
    rw [createInitiation_frame]
  · exact .inr ⟨body, i, hsome, hmem, hfree, registry_assign d rfl⟩

theorem registry_createMessageResponse {msg : Option (MessageResponse M)}
    (h : d.createMessageResponse c p e typeDraw draws = some (d', msg)) :
    ((d.handshake p).state ≠ .initiationConsumed ∧ d'.registry = d.registry) ∨
      ∃ i, (d.handshake p).state = .initiationConsumed ∧ i ∈ draws ∧
        (d.registry.release p).table i = none ∧
        d'.registry = (d.registry.release p).register p i := by
  rcases createMessageResponse_cases h with ⟨hstate, rfl, -⟩ | ⟨i, hstate, hmem, hfree, rfl⟩
  · exact .inl ⟨hstate, rfl⟩
  · refine .inr ⟨i, hstate, hmem, hfree, registry_assign d ?_⟩
    rw [createResponse_frame]

theorem beginSymmetricSession_some
    {keys : SessionKeys M} (hkeys : (d.handshake p).deriveKeys c = some keys) (now : ℕ) :
    d.beginSymmetricSession c p now =
      let rotated := rotate (d.keypairs p) keys.isInitiator d.nextKeypair
      let keypair := update d.keypair d.nextKeypair (newKeypair (d.handshake p) keys now)
      ({ d with
          keypair, nextKeypair := d.nextKeypair + 1
          indexTable := ((rotated.2.filterMap id).map fun k => (keypair k).localIndex).foldl
            delete
            (d.indexTable.swapIndexForKeypair (d.handshake p).localIndex d.nextKeypair)
          peer := update d.peer p
            { d.peer p with handshake := (d.handshake p).spend c, keypairs := rotated.1 } },
        true) := by
  simp only [beginSymmetricSession, hkeys, foldl_deleteKeypair]
  simp [setHandshake, setKeypairs, keypairs, registry, update_idem]

theorem rotate_current (ks : Keypairs) (k : ℕ) : (rotate ks true k).1.current = some k := by
  by_cases hnext : ks.next = none <;> simp [rotate, hnext]

theorem beginSymmetricSession_none (hkeys : (d.handshake p).deriveKeys c = none) (now : ℕ) :
    d.beginSymmetricSession c p now = (d, false) := by
  simp only [beginSymmetricSession, hkeys]

/-- A session drops keypairs from the slots, and adopts a new one. -/
theorem registry_beginSymmetricSession
    (hinv : d.registry.Inv) {keys : SessionKeys M}
    (hkeys : (d.handshake p).deriveKeys c = some keys) (now : ℕ) :
    let rotated := rotate (d.keypairs p) keys.isInitiator d.nextKeypair
    ∃ rest, (d.keypairs p).Drops rest (rotated.2.filterMap id) ∧
      ((d.registry.drop p rest (rotated.2.filterMap id)).slots p).Adopts rotated.1 d.nextKeypair ∧
      (d.beginSymmetricSession c p now).1.registry =
        (d.registry.drop p rest (rotated.2.filterMap id)).adopt p rotated.1 := by
  intro rotated
  have hfresh : ¬(d.keypairs p).Has d.nextKeypair :=
    fun hhas => Nat.lt_irrefl _ (hinv.allocated p _ hhas)
  obtain ⟨rest, hdrops, hadopts⟩ := rotate_spec (hinv.distinct p) hfresh keys.isInitiator
  refine ⟨rest, hdrops, by simpa [Registry.drop, rotated, registry] using hadopts, ?_⟩
  -- the keypairs that are deleted are not the new one
  have hindices : (rotated.2.filterMap id).map (fun k =>
      (update d.keypair d.nextKeypair (newKeypair (d.handshake p) keys now) k).localIndex) =
      (rotated.2.filterMap id).map d.registry.keypairIndex := by
    refine map_congr_left fun k hk => ?_
    have hne : k ≠ d.nextKeypair := by rintro rfl; exact hfresh (hdrops.dropped _ hk)
    simp [registry, hne]
  rw [beginSymmetricSession_some hkeys]
  ext1
  · -- the source swaps first and deletes then; the indices are different ones
    funext j
    simp only [registry, Registry.adopt, Registry.drop] at hindices ⊢
    rw [hindices, foldl_delete_apply, swapIndexForKeypair_apply,
      IndexTable.swapIndexForKeypair_apply, IndexTable.foldl_delete_apply,
      foldl_delete_apply]
    by_cases hj : j = (d.handshake p).localIndex
    · subst hj
      split_ifs <;> simp
    · simp [hj]
  · funext q
    by_cases hqp : q = p
    · subst hqp; simp [registry, adopt, handshake, spend]
    · simp [registry, Registry.adopt, Registry.drop, handshake, hqp]
  · funext q
    by_cases hqp : q = p
    · subst hqp; simp [registry, adopt, keypairs, rotated]
    · simp [registry, Registry.adopt, Registry.drop, keypairs, hqp]
  · funext k
    by_cases hk : k = d.nextKeypair
    · subst hk; simp [registry, Registry.adopt, Registry.drop, newKeypair]
    · simp [registry, Registry.adopt, Registry.drop, hk]
  · rfl

/-- A keypair that has been received with moves on, and the previous one is dropped. -/
theorem registry_receivedWithKeypair (hinv : d.registry.Inv) {k : ℕ}
    (hnext : (d.keypairs p).next = some k) :
    ∃ ks : Keypairs, ks = { previous := (d.keypairs p).current, current := some k, next := none } ∧
      (d.keypairs p).Drops ks (d.keypairs p).previous.toList ∧
      (d.receivedWithKeypair p k).1.registry =
        d.registry.drop p ks (d.keypairs p).previous.toList := by
  obtain ⟨hcp, hcn, hpn⟩ := hinv.distinct p
  simp only [registry] at hcp hcn hpn
  refine ⟨_, rfl, ⟨?_, ?_, ?_, by constructor <;> grind⟩, ?_⟩
  iterate 3
    · simp only [Keypairs.Has, mem_toList]
      grind
  · -- the delete of the source, with or without a previous keypair
    unfold receivedWithKeypair
    rw [if_neg (not_not.mpr hnext), hnext]
    cases hprev : (d.keypairs p).previous with
    | none => exact registry_setKeypairs d p _
    | some old =>
      have h := registry_setKeypairs d p
        { previous := (d.keypairs p).current, current := some k, next := none }
      simp only [deleteKeypair, Registry.drop, toList, map_cons, map_nil, foldl_cons, foldl_nil]
      ext1
      · rfl
      · exact (congrArg Registry.localIndex h :)
      · exact (congrArg slots h :)
      · rfl
      · rfl

theorem receivedWithKeypair_refused {k : ℕ}
    (hnext : (d.keypairs p).next ≠ some k) : d.receivedWithKeypair p k = (d, false) :=
  if_pos hnext

theorem registry_expireCurrentKeypairs (c : Primitives S M) (d : NoiseDevice S M) (p : ℕ)
    (now : ℤ) :
    (d.expireCurrentKeypairs c p now).registry = d.registry.release p := by
  have hreject : ∀ (d : NoiseDevice S M) (key : Option ℕ), (d.rejectKeypair key).registry =
      d.registry := by
    intro d key
    cases key with
    | none => rfl
    | some k =>
      ext1
      · rfl
      · rfl
      · rfl
      · funext l
        by_cases hl : l = k
        · subst hl; simp [registry, rejectKeypair]
        · simp [registry, rejectKeypair, hl]
      · rfl
  simp only [expireCurrentKeypairs, hreject]
  exact registry_release d rfl

theorem registry_zeroHandshake (c : Primitives S M) (d : NoiseDevice S M) (p : ℕ) :
    (d.zeroHandshake c p).registry = d.registry.release p :=
  registry_release d rfl

def allKeypairs (ks : Keypairs) : List ℕ := [ks.previous, ks.current, ks.next].filterMap id

theorem mem_allKeypairs (ks : Keypairs) (k : ℕ) : k ∈ allKeypairs ks ↔ ks.Has k := by
  simp only [allKeypairs, mem_filterMap, mem_cons, not_mem_nil, or_false, id, Keypairs.Has]
  grind

theorem registry_zeroKeypairs (d : NoiseDevice S M) (p : ℕ) :
    (d.keypairs p).Drops Keypairs.none (allKeypairs (d.keypairs p)) ∧
      (d.zeroKeypairs p).registry = d.registry.drop p Keypairs.none
        (allKeypairs (d.keypairs p)) := by
  refine ⟨⟨?_, ?_, ?_, Keypairs.distinct_none⟩, ?_⟩
  · intro k hk
    exact absurd hk (Keypairs.not_has_none k)
  · intro k hk
    exact .inr ((mem_allKeypairs _ k).mpr hk)
  · intro k hk
    exact (mem_allKeypairs _ k).mp hk
  · simp only [zeroKeypairs, foldl_deleteKeypair, registry_setKeypairs]
    rfl

theorem registry_commitInitiation (d : NoiseDevice S M) (pending : PendingInitiation M) (now : ℤ) :
    (d.commitInitiation pending now).registry = d.registry :=
  registry_setHandshake_same rfl

theorem registry_commitResponse (d : NoiseDevice S M) (pending : PendingResponse M) :
    (d.commitResponse pending).registry = d.registry :=
  registry_setHandshake_same rfl

theorem registry_consumeMessageInitiation (c : Primitives S M) (d : NoiseDevice S M)
    (msg : MessageInitiation M) (now : ℤ) :
    (d.consumeMessageInitiation c msg now).1.registry = d.registry := by
  unfold consumeMessageInitiation
  cases d.checkInitiation c msg now with
  | none => rfl
  | some pending => exact registry_commitInitiation d pending now

theorem registry_consumeMessageResponse (c : Primitives S M) (d : NoiseDevice S M)
    (msg : MessageResponse M) : (d.consumeMessageResponse c msg).1.registry = d.registry := by
  unfold consumeMessageResponse
  cases d.checkResponse c msg with
  | none => rfl
  | some pending => exact registry_commitResponse d pending

end NoiseDevice

/-! ## §3 Runs of operations -/

/-- The handshake operations, with what they draw and read. -/
inductive HandshakeOp (S M : Type) where
  | createMessageInitiation (peer : ℕ) (ephemeral : S) (typeDraw : ℕ) (now : ℤ)
      (draws : List (BitVec 32))
  | consumeMessageInitiation (msg : MessageInitiation M) (now : ℤ)
  | createMessageResponse (peer : ℕ) (ephemeral : S) (typeDraw : ℕ) (draws : List (BitVec 32))
  | consumeMessageResponse (msg : MessageResponse M)
  | beginSymmetricSession (peer : ℕ) (now : ℕ)
  | receivedWithKeypair (peer keypair : ℕ)
  | expireCurrentKeypairs (peer : ℕ) (now : ℤ)
  | zeroAndFlushAll (peer : ℕ)

/-- What `randUint32` gives during an operation. -/
def HandshakeOp.draws : HandshakeOp S M → List (BitVec 32)
  | .createMessageInitiation _ _ _ _ draws => draws
  | .createMessageResponse _ _ _ draws => draws
  | _ => []

/-- The peer on which an operation is called. -/
def HandshakeOp.peer : HandshakeOp S M → Option ℕ
  | .createMessageInitiation peer _ _ _ _ => some peer
  | .createMessageResponse peer _ _ _ => some peer
  | .beginSymmetricSession peer _ => some peer
  | .receivedWithKeypair peer _ => some peer
  | .expireCurrentKeypairs peer _ => some peer
  | .zeroAndFlushAll peer => some peer
  | .consumeMessageInitiation _ _ => none
  | .consumeMessageResponse _ => none

namespace NoiseDevice

/-- One operation; `none` when it panics, or has not drawn a free index yet. -/
def step (c : Primitives S M) (d : NoiseDevice S M) : HandshakeOp S M → Option (NoiseDevice S M)
  | .createMessageInitiation peer ephemeral typeDraw now draws =>
    (d.createMessageInitiation c peer ephemeral typeDraw now draws).map Prod.fst
  | .consumeMessageInitiation msg now => some (d.consumeMessageInitiation c msg now).1
  | .createMessageResponse peer ephemeral typeDraw draws =>
    (d.createMessageResponse c peer ephemeral typeDraw draws).map Prod.fst
  | .consumeMessageResponse msg => some (d.consumeMessageResponse c msg).1
  | .beginSymmetricSession peer now => some (d.beginSymmetricSession c peer now).1
  | .receivedWithKeypair peer keypair => some (d.receivedWithKeypair peer keypair).1
  | .expireCurrentKeypairs peer now => some (d.expireCurrentKeypairs c peer now)
  | .zeroAndFlushAll peer => some (d.zeroAndFlushAll c peer)

/-- A device before its first handshake, with any peers. -/
structure Fresh (d : NoiseDevice S M) : Prop where
  indexTable : d.indexTable = IndexTable.empty
  state : ∀ p, (d.handshake p).state = .zeroed
  localIndex : ∀ p, (d.handshake p).localIndex = 0
  keypairs : ∀ p, d.keypairs p = Keypairs.none

variable {d d' : NoiseDevice S M} {c : Primitives S M} {op : HandshakeOp S M} {p : ℕ}
  {h' : Handshake S M}

theorem Fresh.not_has (h : d.Fresh) (p k : ℕ) : ¬(d.registry.slots p).Has k := by
  simp only [registry, h.keypairs p]
  exact Keypairs.not_has_none k

theorem Fresh.inv (h : d.Fresh) : d.registry.Inv where
  handshake p hp := absurd (h.localIndex p) hp
  slot p k hk := absurd hk (h.not_has p k)
  distinct p := by
    simp only [registry, h.keypairs p]
    exact Keypairs.distinct_none
  allocated p k hk := absurd hk (h.not_has p k)
  held i e he := by simp [registry, h.indexTable, empty] at he
  entryAllocated i e k he := by simp [registry, h.indexTable, empty] at he

/-- The indices that an operation gives to `Delete` and `SwapIndexForKeypair`. -/
def givenUp (c : Primitives S M) (d : NoiseDevice S M) : HandshakeOp S M → List (BitVec 32)
  | .createMessageInitiation peer ephemeral _ now _ =>
    match ((d.handshake peer).createInitiation c d.publicKey ephemeral (tai64nStamp now)).2 with
    | none => []
    | some _ => [(d.handshake peer).localIndex]
  | .createMessageResponse peer _ _ _ =>
    if (d.handshake peer).state = .initiationConsumed then [(d.handshake peer).localIndex] else []
  | .beginSymmetricSession peer _ =>
    match (d.handshake peer).deriveKeys c with
    | none => []
    | some keys =>
      (d.handshake peer).localIndex ::
        ((rotate (d.keypairs peer) keys.isInitiator d.nextKeypair).2.filterMap id).map
          fun k => (d.keypair k).localIndex
  | .receivedWithKeypair peer keypair =>
    if (d.keypairs peer).next = some keypair then
      (d.keypairs peer).previous.toList.map fun k => (d.keypair k).localIndex
    else []
  | .expireCurrentKeypairs peer _ => [(d.handshake peer).localIndex]
  | .zeroAndFlushAll peer =>
    (d.handshake peer).localIndex ::
      (allKeypairs (d.keypairs peer)).map fun k => (d.keypair k).localIndex
  | .consumeMessageInitiation _ _ => []
  | .consumeMessageResponse _ => []

/-- What one operation does to the registry. -/
theorem registry_step (hinv : d.registry.Inv) (hstep : d.step c op = some d') : d'.registry.Inv ∧
      ∀ p, op.peer = some p → d.registry.GivesUp d'.registry p (d.givenUp c op) := by
  -- each operation as changes of the registry, whose rules are those of `Registry`
  cases op with
  | createMessageInitiation peer ephemeral typeDraw now draws =>
    obtain ⟨⟨d₁, msg⟩, hcreate, rfl⟩ := map_eq_some_iff.mp hstep
    rcases registry_createMessageInitiation hcreate with
      ⟨hnone, hregistry⟩ | ⟨body, i, hsome, -, hfree, hregistry⟩
    · simp only [givenUp, hnone, hregistry]
      exact ⟨hinv, fun p _ => .refl _ p⟩
    · simp only [givenUp, hsome, hregistry]
      refine ⟨hinv.assign hfree, ?_⟩
      rintro p ⟨⟩
      exact hinv.givesUp_assign hfree
  | consumeMessageInitiation msg now =>
    cases hstep
    rw [registry_consumeMessageInitiation]
    exact ⟨hinv, nofun⟩
  | createMessageResponse peer ephemeral typeDraw draws =>
    obtain ⟨⟨d₁, msg⟩, hcreate, rfl⟩ := map_eq_some_iff.mp hstep
    rcases registry_createMessageResponse hcreate with
      ⟨hstate, hregistry⟩ | ⟨i, hstate, -, hfree, hregistry⟩
    · simp only [givenUp, if_neg hstate, hregistry]
      exact ⟨hinv, fun p _ => .refl _ p⟩
    · simp only [givenUp, if_pos hstate, hregistry]
      refine ⟨hinv.assign hfree, ?_⟩
      rintro p ⟨⟩
      exact hinv.givesUp_assign hfree
  | consumeMessageResponse msg =>
    cases hstep
    rw [registry_consumeMessageResponse]
    exact ⟨hinv, nofun⟩
  | beginSymmetricSession peer now =>
    cases hstep
    cases hkeys : (d.handshake peer).deriveKeys c with
    | none =>
      simp only [givenUp, hkeys, beginSymmetricSession_none hkeys]
      exact ⟨hinv, fun p _ => .refl _ p⟩
    | some keys =>
      obtain ⟨rest, hdrops, hadopts, hregistry⟩ := registry_beginSymmetricSession hinv hkeys now
      simp only [givenUp, hkeys]
      rw [hregistry]
      refine ⟨(hinv.drop hdrops).adopt hadopts, ?_⟩
      rintro p ⟨⟩
      exact hinv.givesUp_drop_adopt hdrops
  | receivedWithKeypair peer keypair =>
    cases hstep
    by_cases hnext : (d.keypairs peer).next = some keypair
    · obtain ⟨ks, -, hdrops, hregistry⟩ := registry_receivedWithKeypair hinv hnext
      simp only [givenUp, if_pos hnext]
      rw [hregistry]
      refine ⟨hinv.drop hdrops, ?_⟩
      rintro p ⟨⟩
      exact hinv.givesUp_drop hdrops
    · simp only [givenUp, if_neg hnext, receivedWithKeypair_refused hnext]
      exact ⟨hinv, fun p _ => .refl _ p⟩
  | expireCurrentKeypairs peer now =>
    cases hstep
    rw [registry_expireCurrentKeypairs]
    refine ⟨hinv.release peer, ?_⟩
    rintro p ⟨⟩
    exact hinv.givesUp_release peer
  -- both sections, one behind the other
  | zeroAndFlushAll peer =>
    cases hstep
    obtain ⟨hdrops, hregistry⟩ := registry_zeroKeypairs d peer
    rw [zeroAndFlushAll, registry_zeroHandshake, hregistry]
    refine ⟨(hinv.drop hdrops).release peer, ?_⟩
    rintro p ⟨⟩
    exact hinv.givesUp_drop_release hdrops

theorem registry_inv {d₀ : NoiseDevice S M} {ops : List (HandshakeOp S M)}
    (hfresh : d₀.Fresh) (hrun : runFrom (step c) d₀ ops = some d) : d.registry.Inv :=
  runFrom_invariant (fun _ _ _ hinv hstep => (registry_step hinv hstep).1) hfresh.inv hrun

/-! ## §4 Peers and each other's indices -/

/-- An operation on a peer leaves the entries of the other peers alone exactly when it does not
give up index 0 while that is the index of another peer. -/
theorem others_unchanged_iff {c : Primitives S M} {d₀ d : NoiseDevice S M}
    {ops : List (HandshakeOp S M)} (hfresh : d₀.Fresh) (hrun : runFrom (step c) d₀ ops = some d)
    {op : HandshakeOp S M} {p : ℕ} (hop : op.peer = some p) {d' : NoiseDevice S M}
    (hstep : d.step c op = some d') :
    (∀ i e, d.indexTable i = some e → e.peer ≠ some p → d'.indexTable i = some e) ↔
      ¬(0 ∈ d.givenUp c op ∧ ∃ e, d.indexTable 0 = some e ∧ e.peer ≠ some p) :=
  ((registry_step (registry_inv hfresh hrun) hstep).2 p hop).others_iff

/-- A device with symbolic primitives and a peer for every number. -/
def symbolicDevice : NoiseDevice ℕ Term :=
  { privateKey := 1, publicKey := .pub 1, headers := Headers.default
    lookupPeer := fun
      | .pub n => some n
      | _ => none
    peer := fun p => newPeer symbolic 1 (.pub p) (zeroed symbolic)
    indexTable := IndexTable.empty
    keypair := fun _ => newKeypair (newPeer symbolic 1 (.pub 0) (zeroed symbolic)).handshake
      { send := .text [], receive := .text [], isInitiator := true } 0
    nextKeypair := 0 }

def symbolicPartner : NoiseDevice ℕ Term :=
  { symbolicDevice with
    privateKey := 2, publicKey := .pub 2
    peer := fun p => newPeer symbolic 2 (.pub p) (zeroed symbolic) }

/-- An initiation of peer 2, as it is received. -/
def partnerInitiation : MessageInitiation Term :=
  match symbolicPartner.createMessageInitiation symbolic 1 20 0 0 [9] with
  | some (_, some msg) => { msg with type := messageInitiationType }
  | _ =>
    { type := 0, sender := 0, ephemeral := .text [], static := .text [], timestamp := .text [] }

/-- The response of peer 2 to the initiation with ephemeral key 20 and index 5, as it is
received. -/
def partnerResponse : MessageResponse Term :=
  let response := do
    let (_, initiation) ← symbolicDevice.createMessageInitiation symbolic 2 20 0 0 [5]
    let initiation ← initiation
    let (partner, peer) := symbolicPartner.consumeMessageInitiation symbolic
      { initiation with type := messageInitiationType } 0
    let (_, response) ← partner.createMessageResponse symbolic (← peer) 30 0 [9]
    response
  match response with
  | some msg => { msg with type := messageResponseType }
  | none => { type := 0, sender := 0, receiver := 0, ephemeral := .text [], empty := .text [] }

theorem symbolicDevice_fresh : symbolicDevice.Fresh :=
  ⟨rfl, fun _ => rfl, fun _ => rfl, fun _ => rfl⟩

/-- An initiation to peer 0 is sent with index 0.  The handshake of peer 1 has no index yet, and an
initiation to it deletes the index of peer 0. -/
theorem zero_index_deleted : ∃ d d', symbolicDevice.Fresh ∧
      runFrom (step symbolic) symbolicDevice [.createMessageInitiation 0 10 0 0 [0]] = some d ∧
      d.step symbolic (.createMessageInitiation 1 11 0 0 [7]) = some d' ∧
      d.indexTable 0 = some (.ofHandshake 0) ∧ d'.indexTable 0 = none :=
  ⟨_, _, symbolicDevice_fresh, rfl, rfl, rfl, rfl⟩

/-- With index 5 for peer 0, an initiation to peer 1 leaves it alone. -/
theorem others_unchanged_five : ∃ d d',
      runFrom (step symbolic) symbolicDevice [.createMessageInitiation 0 10 0 0 [5]] = some d ∧
      d.step symbolic (.createMessageInitiation 1 11 0 0 [7]) = some d' ∧
      ∀ i e, d.indexTable i = some e → e.peer ≠ some 1 → d'.indexTable i = some e := by
  have hrun : ∃ d d',
      runFrom (step symbolic) symbolicDevice [.createMessageInitiation 0 10 0 0 [5]] = some d ∧
      d.step symbolic (.createMessageInitiation 1 11 0 0 [7]) = some d' ∧ d.indexTable 0 = none :=
    ⟨_, _, rfl, rfl, rfl⟩
  obtain ⟨d, d', hd, hd', hzero⟩ := hrun
  refine ⟨d, d', hd, hd', (others_unchanged_iff symbolicDevice_fresh hd rfl hd').mpr ?_⟩
  rintro ⟨-, e, he, -⟩
  rw [hzero] at he
  cases he

/-! ## §5 Runs without a draw of 0 -/

/-- Index 0 is not in use, and handshakes that wait for a response or a session have an index. -/
structure NoZero (d : NoiseDevice S M) : Prop where
  registry : d.registry.NoZero
  indexed : ∀ p, (d.handshake p).state ≠ .zeroed → (d.handshake p).state ≠ .initiationConsumed →
    (d.handshake p).localIndex ≠ 0

theorem Fresh.noZero (h : d.Fresh) : d.NoZero where
  registry :=
    { table := by simp only [NoiseDevice.registry, h.indexTable, empty]
      keypair := fun p k hk => absurd hk (h.not_has p k) }
  indexed p hstate := absurd (h.state p) hstate

theorem NoZero.setHandshake (h : d.NoZero)
    {table : IndexTable}
    (hregistry : ({ d with indexTable := table }.setHandshake p h').registry.NoZero)
    (hindexed : h'.state ≠ .zeroed → h'.state ≠ .initiationConsumed → h'.localIndex ≠ 0) :
    ({ d with indexTable := table }.setHandshake p h').NoZero where
  registry := hregistry
  indexed q := by
    rw [handshake_setHandshake]
    split_ifs
    · exact hindexed
    · exact h.indexed q

theorem NoZero.setHandshake_same (h : d.NoZero) (hsame : h'.localIndex = (d.handshake p).localIndex)
    (hindexed : h'.state ≠ .zeroed → h'.state ≠ .initiationConsumed →
      (d.handshake p).localIndex ≠ 0) : (d.setHandshake p h').NoZero :=
  h.setHandshake ((registry_setHandshake_same hsame).symm ▸ h.registry) (hsame ▸ hindexed)

theorem NoZero.assign (h : d.NoZero) {i : BitVec 32} (hlocal : h'.localIndex = i) (hi : i ≠ 0) :
    (d.assign p i h').NoZero := by
  refine h.setHandshake ?_ fun _ _ => hlocal ▸ hi
  change (d.assign p i h').registry.NoZero
  rw [registry_assign d hlocal]
  exact (h.registry.release p).register p hi

theorem handshake_foldl_deleteKeypair (d : NoiseDevice S M) (keys : List (Option ℕ)) (q : ℕ) :
    (keys.foldl deleteKeypair d).handshake q = d.handshake q := by
  rw [foldl_deleteKeypair]
  rfl

theorem handshake_beginSymmetricSession
    {keys : SessionKeys M} (hkeys : (d.handshake p).deriveKeys c = some keys) (now : ℕ) (q : ℕ) :
    (d.beginSymmetricSession c p now).1.handshake q =
      if q = p then (d.handshake p).spend c else d.handshake q := by
  rw [beginSymmetricSession_some hkeys]
  by_cases hqp : q = p
  · subst hqp; simp [handshake]
  · simp [handshake, hqp]

theorem handshake_receivedWithKeypair (d : NoiseDevice S M) (p k q : ℕ) :
    (d.receivedWithKeypair p k).1.handshake q = d.handshake q := by
  by_cases hnext : (d.keypairs p).next = some k
  · rw [receivedWithKeypair, if_neg (not_not.mpr hnext)]
    exact (handshake_foldl_deleteKeypair _ [(d.keypairs p).previous] q).trans
      (handshake_setKeypairs d p q _)
  · rw [receivedWithKeypair_refused hnext]

theorem handshake_expireCurrentKeypairs (c : Primitives S M) (d : NoiseDevice S M) (p : ℕ) (now : ℤ)
    (q : ℕ) : (d.expireCurrentKeypairs c p now).handshake q = if q = p then
        { (d.handshake p).clear c with lastSentHandshake := some (now - (rekeyTimeout + 10 ^ 9)) }
      else d.handshake q := by
  have hreject : ∀ (d : NoiseDevice S M) (key : Option ℕ),
      (d.rejectKeypair key).handshake q = d.handshake q := by
    intro d key
    cases key <;> rfl
  simp only [expireCurrentKeypairs, hreject]
  exact handshake_setHandshake _ _ _ _

theorem deriveKeys_state {h : Handshake S M} {keys : SessionKeys M}
    (hkeys : h.deriveKeys c = some keys) : (h.state = .responseConsumed ∧ keys.isInitiator = true) ∨
      (h.state = .responseCreated ∧ keys.isInitiator = false) := by
  cases hstate : h.state <;> simp only [deriveKeys, hstate] at hkeys <;> cases hkeys
  · exact .inr ⟨rfl, rfl⟩
  · exact .inl ⟨rfl, rfl⟩

theorem checkResponse_state {msg : MessageResponse M}
    {pending : PendingResponse M} (h : d.checkResponse c msg = some pending) :
    (d.handshake pending.peer).state = .initiationCreated ∧ pending.msg = msg ∧
      (d.handshake pending.peer).openResponse c d.privateKey msg = some pending.transcript := by
  unfold checkResponse at h
  split_ifs at h
  cases hlookup : (d.indexTable.lookup msg.receiver).handshake with
  | none => simp [hlookup] at h
  | some peer =>
    rw [hlookup] at h
    obtain ⟨transcript, hopen, h⟩ := bind_eq_some_iff.mp h
    cases h
    refine ⟨?_, rfl, hopen⟩
    by_contra hstate
    simp [openResponse, hstate] at hopen

theorem NoZero.step (h : d.NoZero) (hinv : d.registry.Inv) (hdraws : 0 ∉ op.draws)
    (hstep : d.step c op = some d') : d'.NoZero := by
  -- only a draw brings an index in, and a waiting handshake has one
  cases op with
  | createMessageInitiation peer ephemeral typeDraw now draws =>
    obtain ⟨⟨d₁, msg⟩, hcreate, rfl⟩ := map_eq_some_iff.mp hstep
    rcases createMessageInitiation_cases hcreate with ⟨-, rfl⟩ | ⟨body, i, -, hmem, hfree, rfl⟩
    · have hframe := createInitiation_frame c (d.handshake peer) d.publicKey ephemeral
        (tai64nStamp now)
      refine h.setHandshake_same (by rw [hframe]) ?_
      rw [hframe]
      exact h.indexed peer
    · exact h.assign rfl (by rintro rfl; exact hdraws hmem)
  | consumeMessageInitiation msg now =>
    cases hstep
    unfold consumeMessageInitiation
    cases d.checkInitiation c msg now with
    | none => exact h
    | some pending => exact h.setHandshake_same rfl fun _ hstate => absurd rfl hstate
  | createMessageResponse peer ephemeral typeDraw draws =>
    obtain ⟨⟨d₁, msg⟩, hcreate, rfl⟩ := map_eq_some_iff.mp hstep
    rcases createMessageResponse_cases hcreate with ⟨-, rfl, -⟩ | ⟨i, -, hmem, hfree, rfl⟩
    · exact h
    · exact h.assign (by rw [createResponse_frame]) (by rintro rfl; exact hdraws hmem)
  | consumeMessageResponse msg =>
    cases hstep
    unfold consumeMessageResponse
    cases hcheck : d.checkResponse c msg with
    | none => exact h
    | some pending =>
      -- the handshake had an index while it waited for the response
      have hstate := (checkResponse_state hcheck).1
      exact h.setHandshake_same rfl fun _ _ =>
        h.indexed pending.peer (by rw [hstate]; decide) (by rw [hstate]; decide)
  | beginSymmetricSession peer now =>
    cases hstep
    cases hkeys : (d.handshake peer).deriveKeys c with
    | none => rwa [beginSymmetricSession_none hkeys]
    | some keys =>
      obtain ⟨rest, hdrops, hadopts, hregistry⟩ := registry_beginSymmetricSession hinv hkeys now
      -- keys are derived in states that have an index
      have hlocal : (d.handshake peer).localIndex ≠ 0 := by
        rcases deriveKeys_state hkeys with ⟨hstate, -⟩ | ⟨hstate, -⟩ <;>
          exact h.indexed peer (by rw [hstate]; decide) (by rw [hstate]; decide)
      constructor
      · rw [hregistry]
        exact (h.registry.drop hdrops).adopt hadopts hlocal
      · intro q
        rw [handshake_beginSymmetricSession hkeys]
        split_ifs
        · exact fun hstate => absurd rfl hstate
        · exact h.indexed q
  | receivedWithKeypair peer keypair =>
    cases hstep
    constructor
    · by_cases hnext : (d.keypairs peer).next = some keypair
      · obtain ⟨ks, -, hdrops, hregistry⟩ := registry_receivedWithKeypair hinv hnext
        rw [hregistry]
        exact h.registry.drop hdrops
      · rw [receivedWithKeypair_refused hnext]
        exact h.registry
    · intro q
      rw [handshake_receivedWithKeypair]
      exact h.indexed q
  | expireCurrentKeypairs peer now =>
    cases hstep
    constructor
    · rw [registry_expireCurrentKeypairs]
      exact h.registry.release peer
    · intro q
      rw [handshake_expireCurrentKeypairs]
      split_ifs
      · exact fun hstate => absurd rfl hstate
      · exact h.indexed q
  | zeroAndFlushAll peer =>
    cases hstep
    obtain ⟨hdrops, hregistry⟩ := registry_zeroKeypairs d peer
    constructor
    · rw [zeroAndFlushAll, registry_zeroHandshake, hregistry]
      exact (h.registry.drop hdrops).release peer
    · intro q
      have hkept : (d.zeroKeypairs peer).handshake q = d.handshake q :=
        (handshake_setKeypairs _ peer q _).trans (handshake_foldl_deleteKeypair d _ q)
      rw [zeroAndFlushAll, zeroHandshake, handshake_setHandshake]
      split_ifs
      · exact fun hstate => absurd rfl hstate
      · exact hkept ▸ h.indexed q

/-- Who may own an entry of the table. -/
inductive IndexOwner where
  | handshake
  | current
  | previous
  | next

def Owns (d : NoiseDevice S M) (p : ℕ) (i : BitVec 32) : IndexOwner → Prop
  | .handshake => (d.handshake p).localIndex = i
  | .current => ∃ k, (d.keypairs p).current = some k ∧ (d.keypair k).localIndex = i
  | .previous => ∃ k, (d.keypairs p).previous = some k ∧ (d.keypair k).localIndex = i
  | .next => ∃ k, (d.keypairs p).next = some k ∧ (d.keypair k).localIndex = i

/-- The slots and the table fit together. -/
structure Consistent (d : NoiseDevice S M) : Prop where
  owned : ∀ i e, d.indexTable i = some e → ∃ p, e.peer = some p ∧ ∃! o, d.Owns p i o
  registered : ∀ p k, (d.keypairs p).Has k →
    d.indexTable (d.keypair k).localIndex = some (.ofKeypair p k)
  distinct : ∀ p, (d.keypairs p).Distinct

theorem owner_unique (hinv : d.registry.Inv) {i : BitVec 32} (hi : i ≠ 0)
    {o o' : IndexOwner} (ho : d.Owns p i o) (ho' : d.Owns p i o') : o = o' := by
  -- a handshake and a keypair
  have hmixed : ∀ k, (d.keypairs p).Has k → (d.keypair k).localIndex = i →
      (d.handshake p).localIndex ≠ i := by
    rintro k hk rfl hlocal
    exact hinv.localIndex_ne_keypairIndex hi hk hlocal.symm
  -- two keypairs
  have hsame : ∀ k l, (d.keypairs p).Has k → (d.keypairs p).Has l → (d.keypair k).localIndex = i →
      (d.keypair l).localIndex = i → l = k := by
    rintro k l hk hl rfl hli
    exact (hinv.keypairIndex_inj hk hl hi hli).2
  obtain ⟨hcp, hcn, hpn⟩ := hinv.distinct p
  cases o <;> cases o' <;>
    simp only [Owns, Keypairs.Has, registry] at ho ho' hmixed hsame hcp hcn hpn ⊢ <;> grind

theorem Consistent.of_inv (hinv : d.registry.Inv) (h : d.registry.NoZero) : d.Consistent where
  owned i e he := by
    have hi : i ≠ 0 := by
      rintro rfl
      have hnone : d.indexTable 0 = none := h.table
      rw [hnone] at he
      cases he
    obtain ⟨p, hp, howner⟩ := hinv.held i e he
    refine ⟨p, hp, ?_⟩
    have hexists : ∃ o, d.Owns p i o := by
      rcases howner with hlocal | ⟨k, hcurrent | hprevious | hnext, hki⟩
      · exact ⟨.handshake, hlocal⟩
      · exact ⟨.current, k, hcurrent, hki⟩
      · exact ⟨.previous, k, hprevious, hki⟩
      · exact ⟨.next, k, hnext, hki⟩
    obtain ⟨o, ho⟩ := hexists
    exact ⟨o, ho, fun o' ho' => owner_unique hinv hi ho' ho⟩
  registered p k hk := hinv.slot p k hk (h.keypair p k hk)
  distinct := hinv.distinct

theorem current_responder (hinv : d.registry.Inv) (hstep : d.step c op = some d') {k : ℕ}
    (hcurrent : (d'.keypairs p).current = some k) (hnew : (d.keypairs p).current ≠ some k)
    (hresponder : (d'.keypair k).isInitiator = false) : op = .receivedWithKeypair p k := by
  -- the operations that leave the slots alone
  have hslots : d'.registry.slots = d.registry.slots → False := by
    intro hsame
    have hp : d'.keypairs p = d.keypairs p := congrFun hsame p
    exact hnew (hp ▸ hcurrent)
  cases op with
  | createMessageInitiation peer ephemeral typeDraw now draws =>
    obtain ⟨⟨d₁, msg⟩, hcreate, rfl⟩ := map_eq_some_iff.mp hstep
    rcases registry_createMessageInitiation hcreate with ⟨-, hregistry⟩ | ⟨_, _, -, -, -, hregistry⟩
    all_goals exact absurd (congrArg Registry.slots hregistry) hslots
  | consumeMessageInitiation msg now =>
    cases hstep
    exact absurd (congrArg Registry.slots (registry_consumeMessageInitiation c d msg now)) hslots
  | createMessageResponse peer ephemeral typeDraw draws =>
    obtain ⟨⟨d₁, msg⟩, hcreate, rfl⟩ := map_eq_some_iff.mp hstep
    rcases registry_createMessageResponse hcreate with ⟨-, hregistry⟩ | ⟨_, -, -, -, hregistry⟩
    all_goals exact absurd (congrArg Registry.slots hregistry) hslots
  | consumeMessageResponse msg =>
    cases hstep
    exact absurd (congrArg Registry.slots (registry_consumeMessageResponse c d msg)) hslots
  | beginSymmetricSession peer now =>
    cases hstep
    cases hkeys : (d.handshake peer).deriveKeys c with
    | none => exact absurd (by rw [beginSymmetricSession_none hkeys]) hslots
    | some keys =>
      rw [beginSymmetricSession_some hkeys] at hcurrent hresponder
      by_cases hp : p = peer
      · subst hp
        cases hinitiator : keys.isInitiator with
        | true =>
          -- the new keypair is one of an initiator
          rw [hinitiator] at hcurrent
          simp only [keypairs, update_self, rotate_current, some.injEq] at hcurrent
          simp [← hcurrent, newKeypair, hinitiator] at hresponder
        -- a responder puts its keypair into `next`, not into `current`
        | false =>
          simp only [keypairs, update_self, rotate, hinitiator] at hcurrent
          exact absurd hcurrent hnew
      · simp only [keypairs, update_of_ne hp] at hcurrent
        exact absurd hcurrent hnew
  | receivedWithKeypair peer keypair =>
    cases hstep
    by_cases hnext : (d.keypairs peer).next = some keypair
    · obtain ⟨ks, hks, -, hregistry⟩ := registry_receivedWithKeypair hinv hnext
      have hkeypairs := congrFun (congrArg Registry.slots hregistry) p
      simp only [Registry.drop, registry] at hkeypairs
      rw [hkeypairs] at hcurrent
      by_cases hp : p = peer
      · subst hp
        rw [update_self, hks] at hcurrent
        cases hcurrent
        rfl
      · rw [update_of_ne hp] at hcurrent
        exact absurd hcurrent hnew
    · exact absurd (by rw [receivedWithKeypair_refused hnext]) hslots
  | expireCurrentKeypairs peer now =>
    cases hstep
    exact absurd (congrArg Registry.slots (registry_expireCurrentKeypairs c d peer now)) hslots
  | zeroAndFlushAll peer =>
    cases hstep
    have hkeypairs : (d.zeroAndFlushAll c peer).keypairs p =
        (update d.keypairs peer Keypairs.none) p := by
      have hregistry := registry_zeroHandshake c (d.zeroKeypairs peer) peer
      rw [(registry_zeroKeypairs d peer).2] at hregistry
      exact congrFun (congrArg Registry.slots hregistry) p
    rw [hkeypairs] at hcurrent
    by_cases hp : p = peer
    · subst hp
      simp [Keypairs.none] at hcurrent
    · rw [update_of_ne hp] at hcurrent
      exact absurd hcurrent hnew

/-- Both invariants hold along every run without a draw of 0. -/
theorem noZero_of_run {c : Primitives S M} {ops : List (HandshakeOp S M)}
    (h : d.registry.Inv ∧ d.NoZero)
    (hdraws : ∀ op ∈ ops, 0 ∉ op.draws) (hrun : runFrom (step c) d ops = some d') :
    d'.registry.Inv ∧ d'.NoZero := by
  have hstep : ∀ (s : NoiseDevice S M) op s', s.registry.Inv ∧ s.NoZero → 0 ∉ op.draws →
      step c s op = some s' → s'.registry.Inv ∧ s'.NoZero :=
    fun _ _ _ h hop hs => ⟨(registry_step h.1 hs).1, h.2.step h.1 hop hs⟩
  exact runFrom_invariant_along hstep h (along_of_forall hdraws) hrun

/-- Without a draw of 0, the slots and the table fit together in every state that a device reaches,
and a responder's keypair becomes current only when it has been received with. -/
theorem slots_and_table_consistent {c : Primitives S M} {d₀ d : NoiseDevice S M}
    {ops : List (HandshakeOp S M)} (hfresh : d₀.Fresh) (hdraws : ∀ op ∈ ops, 0 ∉ op.draws)
    (hrun : runFrom (step c) d₀ ops = some d) : d.Consistent ∧
      ∀ op d', d.step c op = some d' → ∀ p k, (d'.keypairs p).current = some k →
        (d.keypairs p).current ≠ some k → (d'.keypair k).isInitiator = false →
        op = .receivedWithKeypair p k := by
  have hinv := noZero_of_run ⟨hfresh.inv, hfresh.noZero⟩ hdraws hrun
  exact ⟨.of_inv hinv.1 hinv.2.registry,
    fun op d' hstep p k hcurrent hnew => current_responder hinv.1 hstep hcurrent hnew⟩

/-- An initiation of peer 2 is answered, and the keypair becomes current when it has been received
with. -/
def responderRun : List (HandshakeOp ℕ Term) :=
  [.createMessageInitiation 0 10 0 0 [5], .consumeMessageInitiation partnerInitiation 0,
    .createMessageResponse 2 30 0 [5, 7], .beginSymmetricSession 2 0, .receivedWithKeypair 2 0]

theorem slots_and_table_consistent_responder : ∃ d,
    runFrom (step symbolic) symbolicDevice responderRun = some d ∧ (d.keypairs 2).current = some 0 ∧
      d.indexTable 7 = some (.ofKeypair 2 0) ∧ d.Consistent := by
  have hrun : ∃ d, runFrom (step symbolic) symbolicDevice responderRun = some d ∧
      (d.keypairs 2).current = some 0 ∧ d.indexTable 7 = some (.ofKeypair 2 0) := ⟨_, rfl, rfl, rfl⟩
  obtain ⟨d, hd, hcurrent, hentry⟩ := hrun
  refine ⟨d, hd, hcurrent, hentry, (slots_and_table_consistent symbolicDevice_fresh ?_ hd).1⟩
  simp [responderRun, HandshakeOp.draws]

/-- Whatever is drawn, a peer never has more than four indices in the table. -/
theorem index_table_bounded {c : Primitives S M} {d₀ d : NoiseDevice S M}
    {ops : List (HandshakeOp S M)}
    (hfresh : d₀.Fresh) (hrun : runFrom (step c) d₀ ops = some d) (p : ℕ) :
    ∃ indices : List (BitVec 32), indices.length ≤ 4 ∧
      ∀ i e, d.indexTable i = some e → e.peer = some p → i ∈ indices := by
  have hinv := registry_inv hfresh hrun
  -- the index of the handshake and those of the keypairs in the three slots
  let slots := [(d.keypairs p).current, (d.keypairs p).previous, (d.keypairs p).next]
  refine ⟨(d.handshake p).localIndex :: (slots.filterMap id).map fun k =>
    (d.keypair k).localIndex, ?_, ?_⟩
  · rw [length_cons, length_map]
    exact Nat.succ_le_succ (length_filterMap_le id slots)
  · intro i e he hp
    obtain ⟨q, hq, hholds⟩ := hinv.held i e he
    cases hp.symm.trans hq
    rcases hholds with hlocal | ⟨k, hhas, hindex⟩
    · exact mem_cons.mpr (Or.inl hlocal.symm)
    · refine mem_cons_of_mem _ (mem_map.mpr ⟨k, mem_filterMap.mpr ⟨some k, ?_, rfl⟩, hindex⟩)
      rcases hhas with hslot | hslot | hslot <;> simp [slots, ← hslot, registry]

/-- The index of a second initiation, after a draw of 0 for the first. -/
theorem index_table_bounded_zero : ∃ d, runFrom (step symbolic) symbolicDevice
        [.createMessageInitiation 0 10 0 0 [0], .createMessageInitiation 0 11 0 0 [7]] = some d ∧
      ∃ indices : List (BitVec 32), indices.length ≤ 4 ∧
        ∀ i e, d.indexTable i = some e → e.peer = some 0 → i ∈ indices := by
  have hrun : ∃ d, runFrom (step symbolic) symbolicDevice
      [.createMessageInitiation 0 10 0 0 [0], .createMessageInitiation 0 11 0 0 [7]] = some d :=
        ⟨_, rfl⟩
  obtain ⟨d, hd⟩ := hrun
  exact ⟨d, hd, index_table_bounded symbolicDevice_fresh hd 0⟩

end NoiseDevice

end AmneziaWG.Device
