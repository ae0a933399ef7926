import AmneziaWG.Lib.Lineage
import AmneziaWG.Device.Noise.Workers

/-!
# One Keypair for One Handshake

The initiator's side of the handshake under concurrent workers.  Every chain key begins with the
public key of an ephemeral key, and the derivations after that are one-way: a chain key tells from
which initiation it comes.  So two keypairs from one chain key are two keypairs from one initiation.

`ConsumeMessageResponse` checks a response under the read lock, and stores what the check gave under
the write lock, whatever has happened to the handshake in between.

## Main results

- `one_keypair_per_handshake`: no chain key gives two keypairs, no two keypairs share a send key and
  no nonce is used twice with one key, in every run in which each update still finds the handshake
  that was checked.
- `duplicate_response_reuses_nonce`: two threads check one response, and both make a keypair of it.
-/

namespace AmneziaWG.Device

open AmneziaWG.Lib List Option BitVec Nat Function NoiseDevice Handshake WorkerState

variable {S M : Type}

/-! ## §1 Chain keys -/

/-- A chain key that begins with the public key of an ephemeral key. -/
inductive Chain (c : Primitives S M) (x : M) : M → Prop
  | base : Chain c x (kdf1 c (initialChainKey c) x)
  | next {ck : M} (h : Chain c x ck) (input : M) : Chain c x (kdf1 c ck input)

namespace Chain

variable {c : Primitives S M} {x y ck : M}

theorem cases_kdf1 (h : Chain c x ck) :
    ck = kdf1 c (initialChainKey c) x ∨ ∃ ck' input, Chain c x ck' ∧ ck = kdf1 c ck' input := by
  cases h with
  | base => exact .inl rfl
  | next h input => exact .inr ⟨_, input, h, rfl⟩

theorem ne_initialChainKey (hc : NoCollisions c) (h : Chain c x ck) : ck ≠ initialChainKey c := by
  rcases h.cases_kdf1 with rfl | ⟨ck', input, -, rfl⟩
  · exact hc.initialChainKey _ _
  · exact hc.initialChainKey _ _

/-- A chain key tells where it begins. -/
theorem unique (hc : NoCollisions c) (hx : Chain c x ck) (hy : Chain c y ck) : x = y := by
  induction hx with
  | base =>
    rcases hy.cases_kdf1 with heq | ⟨ck', input, hck', heq⟩
    · exact (hc.chainKey _ _ _ _ heq).2
    · exact absurd (hc.chainKey _ _ _ _ heq).1.symm (hck'.ne_initialChainKey hc)
  | next h input ih =>
    rcases hy.cases_kdf1 with heq | ⟨ck', input', hck', heq⟩
    · exact absurd (hc.chainKey _ _ _ _ heq).1 (h.ne_initialChainKey hc)
    · exact ih ((hc.chainKey _ _ _ _ heq).1 ▸ hck')

/-- `CreateMessageInitiation` begins a chain, whether it fails or not. -/
theorem createInitiation (c : Primitives S M) (h : Handshake S M) (publicKey : M) (e : S)
    (ts : BitVec 96) :
    Chain c (c.publicKey e) (h.createInitiation c publicKey e ts).1.chainKey := by
  cases hss : sharedSecret c e h.remoteStatic with
  | none =>
    simp only [Handshake.createInitiation, Handshake.mixHash, Handshake.mixKey, hss]
    exact .base
  | some ss =>
    cases hz : c.isZero h.precomputedStaticStatic with
    | true =>
      simp only [Handshake.createInitiation, Handshake.mixHash, Handshake.mixKey, hss, hz, if_true]
      exact .next .base ss
    | false =>
      simp only [Handshake.createInitiation, Handshake.mixHash, Handshake.mixKey, hss, hz,
        Bool.false_eq_true, if_false]
      exact .next (.next .base ss) _

/-- A response that passes the check goes on with the chain of the initiation. -/
theorem openResponse {h : Handshake S M} {sk : S} {msg : MessageResponse M} {t : Transcript M}
    (hopen : h.openResponse c sk msg = some t) (hx : Chain c x h.chainKey) :
    Chain c x t.chainKey := by
  unfold Handshake.openResponse at hopen
  split_ifs at hopen
  obtain ⟨ss, -, hopen⟩ := bind_eq_some_iff.mp hopen
  obtain ⟨ss', -, hopen⟩ := bind_eq_some_iff.mp hopen
  obtain ⟨plain, -, hopen⟩ := bind_eq_some_iff.mp hopen
  cases hopen
  exact .next (.next (.next (.next hx msg.ephemeral) ss) ss') h.presharedKey

end Chain

/-- The chain key of a handshake that is under way. -/
def Handshake.liveKey (h : Handshake S M) : Option M :=
  if h.state = .zeroed then none else some h.chainKey

theorem openResponse_state {c : Primitives S M} {h : Handshake S M} {sk : S}
    {msg : MessageResponse M} {t : Transcript M} (hopen : h.openResponse c sk msg = some t) :
    h.state = .initiationCreated := by
  by_contra hstate
  simp [openResponse, hstate] at hopen

/-! ## §2 The steps of an initiator -/

/-- The sections of an initiator, and sending. -/
def WorkerAction.IsInitiator : WorkerAction S M → Prop
  | .createMessageInitiation _ _ _ _ _ => True
  | .checkResponse _ _ => True
  | .commitResponse _ => True
  | .beginSymmetricSession _ _ => True
  | .expireCurrentKeypairs _ _ => True
  | .send _ => True
  | _ => False

namespace WorkerState

/-- When this action is an update of `ConsumeMessageResponse`, the check would still give what it
gave. -/
def StillPasses (c : Primitives S M) (s : WorkerState S M) (a : WorkerAction S M) : Prop :=
  ∀ w, a = .commitResponse w → ∀ pending, s.worker w = .responseChecked pending →
    (s.device.handshake pending.peer).openResponse c s.device.privateKey pending.msg =
      some pending.transcript

/-- What an initiator may do; the histories that are not mentioned stay. -/
inductive InitiatorStep (c : Primitives S M) (s : WorkerState S M) :
    NoiseDevice S M → List M → List (ℕ × M) → List (M × BitVec 64) → Prop
  | stay : InitiatorStep c s s.device s.ephemerals s.derived s.sent
  | create {peer e typeDraw now draws d' msg}
      (h : s.device.createMessageInitiation c peer e typeDraw now draws = some (d', msg)) :
      InitiatorStep c s d' (s.ephemerals ++ [c.publicKey e]) s.derived s.sent
  | commit {pending : NoiseDevice.PendingResponse M}
      (h : (s.device.handshake pending.peer).openResponse c s.device.privateKey pending.msg =
        some pending.transcript) :
      InitiatorStep c s (s.device.commitResponse pending) s.ephemerals s.derived s.sent
  | session {peer : ℕ} {keys : SessionKeys M} (now : ℕ)
      (h : (s.device.handshake peer).deriveKeys c = some keys) :
      InitiatorStep c s (s.device.beginSymmetricSession c peer now).1 s.ephemerals
        (s.derived ++ [(s.device.nextKeypair, (s.device.handshake peer).chainKey)]) s.sent
  | expire (peer : ℕ) (now : ℤ) :
      InitiatorStep c s (s.device.expireCurrentKeypairs c peer now) s.ephemerals s.derived s.sent
  | send {keypair : ℕ} (h : keypair < s.device.nextKeypair) :
      InitiatorStep c s (takeNonce s.device keypair).1 s.ephemerals s.derived
        (s.sent ++ (takeNonce s.device keypair).2.toList.map fun n =>
          ((s.device.keypair keypair).send, n))

variable {c : Primitives S M} {s : WorkerState S M} {d' d : NoiseDevice S M} {ephemerals : List M}
  {derived : List (ℕ × M)} {sent : List (M × BitVec 64)}

theorem step_initiator {s' : WorkerState S M} {a : WorkerAction S M}
    (ha : a.IsInitiator) (hpass : s.StillPasses c a) (h : s.step c a = some s') :
    InitiatorStep c s s'.device s'.ephemerals s'.derived s'.sent := by
  cases a with
  | createMessageInitiation peer e typeDraw now draws =>
    obtain ⟨⟨d', msg⟩, hcreate, h⟩ := bind_eq_some_iff.mp h
    cases h
    exact .create hcreate
  | checkResponse w msg =>
    simp only [step] at h
    split at h
    · split at h <;> cases h <;> exact .stay
    · cases h
  | commitResponse w =>
    simp only [step] at h
    split at h
    · next pending hw =>
      cases h
      -- what the check has found may have changed meanwhile; `hpass` says that it has not
      exact .commit (hpass w rfl pending hw)
    · cases h
  | beginSymmetricSession w now =>
    simp only [step] at h
    split at h
    · next peer hw =>
      cases hkeys : (s.device.handshake peer).deriveKeys c with
      | none =>
        simp only [hkeys, beginSymmetricSession_none hkeys] at h
        cases h
        exact .stay
      | some keys =>
        simp only [hkeys] at h
        cases h
        exact .session now hkeys
    · cases h
  | expireCurrentKeypairs peer now =>
    cases h
    exact .expire peer now
  | send keypair =>
    simp only [step] at h
    split_ifs at h with hk
    cases h
    exact .send hk
  | checkInitiation | commitInitiation | createMessageResponse | receivedWithKeypair | zeroKeypairs
  | zeroHandshake => exact ha.elim

theorem InitiatorStep.ephemerals_sublist
    (h : InitiatorStep c s d' ephemerals derived sent) : s.ephemerals.Sublist ephemerals := by
  cases h with
  | create h => exact sublist_append_left _ _
  | stay | commit | session | expire | send => exact List.Sublist.refl _

/-! ## §3 The lineage of chain keys -/

/-- Roots are the ephemeral keys of initiations, secrets are chain keys. -/
def lineage (d : NoiseDevice S M) (ephemerals : List M) (derived : List (ℕ × M)) : Lineage ℕ M M :=
  { drawn := ephemerals
    live := fun p => (d.handshake p).liveKey
    spent := derived.map Prod.snd }

theorem live_setHandshake (d : NoiseDevice S M) (p : ℕ) (h : Handshake S M) :
    (fun q => ((d.setHandshake p h).handshake q).liveKey) =
      Function.update (fun q => (d.handshake q).liveKey) p h.liveKey := by
  funext q
  rw [handshake_setHandshake]
  by_cases hqp : q = p
  · subst hqp; simp
  · simp [hqp]

/-- An initiator draws a root, goes on with a chain key, spends it or gives it up. -/
theorem InitiatorStep.lineage (hc : NoCollisions c)
    (h : InitiatorStep c s d' ephemerals derived sent) (hnodup : ephemerals.Nodup)
    (hinv : (lineage s.device s.ephemerals s.derived).Inv (Chain c)) :
    (WorkerState.lineage d' ephemerals derived).Inv (Chain c) := by
  have hunique : ∀ x y ck, Chain c x ck → Chain c y ck → x = y := fun x y ck => Chain.unique hc
  cases h with
  | stay => exact hinv
  | @create peer e typeDraw now draws _ msg hcreate =>
    have hfresh : c.publicKey e ∉ s.ephemerals := by
      intro hmem
      exact (nodup_append.mp hnodup).2.2 _ hmem _ (mem_singleton_self _) rfl
    have hchain := Chain.createInitiation c (s.device.handshake peer) s.device.publicKey e
      (tai64nStamp now)
    rcases createMessageInitiation_cases hcreate with
      ⟨-, rfl⟩ | ⟨body, i, -, -, -, rfl⟩
    · -- the state stays, so there may be no chain key under way
      simp only [lineage, live_setHandshake]
      refine hinv.draw hunique hfresh ?_
      intro ck hck
      simp only [liveKey] at hck
      split_ifs at hck
      cases hck
      exact hchain
    · simp only [lineage, assign, live_setHandshake]
      refine hinv.draw hunique hfresh ?_
      intro ck hck
      cases hck
      exact hchain
  -- the response goes on with the chain of the handshake that waits for it
  | @commit pending hopen =>
    have hstate := openResponse_state hopen
    have hlive : (lineage s.device s.ephemerals s.derived).live pending.peer =
        some (s.device.handshake pending.peer).chainKey := by
      simp [lineage, liveKey, hstate]
    have hrefined := hinv.refine hunique hlive (fun x hx => Chain.openResponse hopen hx)
    simp only [lineage, commitResponse, live_setHandshake]
    exact hrefined
  -- the chain key becomes that of the keypair, and the handshake gives it up
  | @session peer keys now hkeys =>
    have hstate : (s.device.handshake peer).state ≠ .zeroed := by
      rcases deriveKeys_state hkeys with ⟨hstate, -⟩ | ⟨hstate, -⟩ <;>
        rw [hstate] <;> decide
    have hlive : (lineage s.device s.ephemerals s.derived).live peer =
        some (s.device.handshake peer).chainKey := by
      simp [lineage, liveKey, hstate]
    have hafter : (fun q =>
        ((s.device.beginSymmetricSession c peer now).1.handshake q).liveKey) =
        update (fun q => (s.device.handshake q).liveKey) peer none := by
      funext q
      rw [handshake_beginSymmetricSession hkeys]
      by_cases hq : q = peer
      · subst hq; simp [liveKey, spend]
      · simp [hq]
    simp only [lineage, hafter, map_append, map_cons, map_nil]
    exact hinv.spend hlive
  | expire peer now =>
    have hafter : (fun q => ((s.device.expireCurrentKeypairs c peer now).handshake q).liveKey) =
        update (fun q => (s.device.handshake q).liveKey) peer none := by
      funext q
      rw [handshake_expireCurrentKeypairs]
      by_cases hq : q = peer
      · subst hq; simp [liveKey, clear]
      · simp [hq]
    simp only [lineage, hafter]
    exact hinv.drop peer
  -- nonces are in keypairs, and no handshake is touched
  | @send keypair hk =>
    have hafter : (takeNonce s.device keypair).1.peer = s.device.peer := by
      simp only [takeNonce]
      split_ifs <;> rfl
    have hlive : (fun q => ((takeNonce s.device keypair).1.handshake q).liveKey) =
        fun q => (s.device.handshake q).liveKey := by
      funext q
      simp only [handshake, hafter]
    simp only [lineage, hlive]
    exact hinv

/-! ## §4 Send keys and nonces -/

/-- What an initiator keeps. -/
structure InitiatorInv (c : Primitives S M) (d : NoiseDevice S M) (ephemerals : List M)
    (derived : List (ℕ × M)) (sent : List (M × BitVec 64)) : Prop where
  lineage : (lineage d ephemerals derived).Inv (Chain c)
  state : ∀ p, (d.handshake p).state ≠ .responseCreated
  send : ∀ k < d.nextKeypair, ∃ ck, (k, ck) ∈ derived ∧ (d.keypair k).send = kdf1 c ck (c.text [])
  nonce_le : ∀ k < d.nextKeypair, (d.keypair k).sendNonce ≤ rejectAfterMessages
  sent_lt : ∀ m ∈ sent, ∃ k < d.nextKeypair,
    m.1 = (d.keypair k).send ∧ m.2 < (d.keypair k).sendNonce
  sent_nodup : sent.Nodup

theorem InitiatorInv.send_inj (hc : NoCollisions c)
        (h : InitiatorInv c d ephemerals derived sent) {k l : ℕ} (hk : k < d.nextKeypair)
    (hl : l < d.nextKeypair) (heq : (d.keypair k).send = (d.keypair l).send) : k = l := by
  obtain ⟨ck, hck, hsend⟩ := h.send k hk
  obtain ⟨ck', hck', hsend'⟩ := h.send l hl
  rw [hsend, hsend'] at heq
  obtain rfl := (hc.chainKey _ _ _ _ heq).1
  have hsame := inj_on_of_nodup_map h.lineage.spent_nodup hck hck' rfl
  exact congrArg Prod.fst hsame

/-- Nonces that only go up, to the limit at most, with the keys and the messages unchanged. -/
theorem InitiatorInv.raise (h : InitiatorInv c d ephemerals derived sent)
    {ephemerals' : List M} (hlineage : (WorkerState.lineage d' ephemerals' derived).Inv (Chain c))
    (hstate : ∀ p, (d'.handshake p).state ≠ .responseCreated)
    (hnext : d'.nextKeypair = d.nextKeypair) (hsend : ∀ k, (d'.keypair k).send = (d.keypair k).send)
    (hnonce : ∀ k < d.nextKeypair, (d.keypair k).sendNonce ≤ (d'.keypair k).sendNonce ∧
      (d'.keypair k).sendNonce ≤ rejectAfterMessages) :
    InitiatorInv c d' ephemerals' derived sent where
  lineage := hlineage
  state := hstate
  send k hk := by
    rw [hsend]
    exact h.send k (hnext ▸ hk)
  nonce_le k hk := (hnonce k (hnext ▸ hk)).2
  sent_lt m hm := by
    obtain ⟨k, hk, hkey, hlt⟩ := h.sent_lt m hm
    have hle := (hnonce k hk).1
    exact ⟨k, hnext ▸ hk, by rw [hsend, hkey], by bv_omega⟩
  sent_nodup := h.sent_nodup

theorem InitiatorInv.keep (h : InitiatorInv c d ephemerals derived sent)
    {ephemerals' : List M} (hlineage : (WorkerState.lineage d' ephemerals' derived).Inv (Chain c))
    (hstate : ∀ p, (d'.handshake p).state ≠ .responseCreated)
    (hnext : d'.nextKeypair = d.nextKeypair) (hkeypair : d'.keypair = d.keypair) :
    InitiatorInv c d' ephemerals' derived sent :=
  h.raise hlineage hstate hnext (fun k => by rw [hkeypair]) fun k hk => by
    rw [hkeypair]
    exact ⟨BitVec.le_refl _, h.nonce_le k hk⟩

theorem keypair_rejectKeypair (d : NoiseDevice S M) (key : Option ℕ) (k : ℕ) :
    (d.rejectKeypair key).keypair k =
      if key = some k then { d.keypair k with sendNonce := rejectAfterMessages }
        else d.keypair k := by
  cases key with
  | none => simp [rejectKeypair]
  | some l =>
    by_cases hk : l = k
    · subst hk; simp [rejectKeypair]
    · simp [rejectKeypair, hk, Ne.symm hk]

theorem keypair_expireCurrentKeypairs (c : Primitives S M) (d : NoiseDevice S M) (p : ℕ) (now : ℤ)
    (k : ℕ) : (d.expireCurrentKeypairs c p now).keypair k = d.keypair k ∨
      (d.expireCurrentKeypairs c p now).keypair k =
        { d.keypair k with sendNonce := rejectAfterMessages } := by
  simp only [expireCurrentKeypairs, keypair_rejectKeypair, setHandshake]
  split_ifs
  · exact .inr rfl
  · exact .inr rfl
  · exact .inr rfl
  · exact .inl rfl

theorem nextKeypair_rejectKeypair (d : NoiseDevice S M) (key : Option ℕ) :
    (d.rejectKeypair key).nextKeypair = d.nextKeypair := by
  cases key <;> rfl

/-- A session of an initiator makes a keypair of the chain key. -/
theorem InitiatorInv.session
    (h : InitiatorInv c s.device s.ephemerals s.derived s.sent) {peer : ℕ} {keys : SessionKeys M}
    (now : ℕ) (hkeys : (s.device.handshake peer).deriveKeys c = some keys)
    (hlineage : (WorkerState.lineage (s.device.beginSymmetricSession c peer now).1 s.ephemerals
      (s.derived ++ [(s.device.nextKeypair, (s.device.handshake peer).chainKey)])).Inv (Chain c)) :
    InitiatorInv c (s.device.beginSymmetricSession c peer now).1 s.ephemerals
      (s.derived ++ [(s.device.nextKeypair, (s.device.handshake peer).chainKey)]) s.sent := by
  have hinitiator : (s.device.handshake peer).state = .responseConsumed := by
    rcases deriveKeys_state hkeys with ⟨hstate, -⟩ | ⟨hstate, -⟩
    · exact hstate
    · exact absurd hstate (h.state peer)
  -- the send key of an initiator is the first output of its chain key
  have hsend : keys.send = kdf1 c (s.device.handshake peer).chainKey (c.text []) := by
    simp only [deriveKeys, hinitiator] at hkeys
    cases hkeys
    rfl
  have hnext : (s.device.beginSymmetricSession c peer now).1.nextKeypair =
      s.device.nextKeypair + 1 := by
    rw [beginSymmetricSession_some hkeys]
  have hkeypair : (s.device.beginSymmetricSession c peer now).1.keypair =
      update s.device.keypair s.device.nextKeypair
        (newKeypair (s.device.handshake peer) keys now) := by
    rw [beginSymmetricSession_some hkeys]
  have hold : ∀ k < s.device.nextKeypair,
      (s.device.beginSymmetricSession c peer now).1.keypair k = s.device.keypair k := by
    intro k hk
    rw [hkeypair, update_of_ne hk.ne]
  -- old keypairs stay as they are, and the new one has sent nothing
  refine ⟨hlineage, ?_, ?_, ?_, ?_, h.sent_nodup⟩
  · intro q
    rw [handshake_beginSymmetricSession hkeys]
    split_ifs
    · exact fun hstate => by cases hstate
    · exact h.state q
  · intro k hk
    rcases Nat.lt_succ_iff_lt_or_eq.mp (hnext ▸ hk) with hlt | rfl
    · obtain ⟨ck, hck, hck'⟩ := h.send k hlt
      rw [hold k hlt]
      exact ⟨ck, mem_append_left _ hck, hck'⟩
    · rw [hkeypair, update_self]
      exact ⟨_, mem_append_right _ (mem_singleton_self _), hsend⟩
  · intro k hk
    rcases Nat.lt_succ_iff_lt_or_eq.mp (hnext ▸ hk) with hlt | rfl
    · rw [hold k hlt]
      exact h.nonce_le k hlt
    · rw [hkeypair, update_self]
      exact le_def.mpr (zero_le _)
  · intro m hm
    obtain ⟨k, hk, hm⟩ := h.sent_lt m hm
    exact ⟨k, hnext ▸ lt_succ_of_lt hk, by rwa [hold k hk]⟩

/-- A message takes a nonce that no message with the same key has. -/
theorem InitiatorInv.send_message (hc : NoCollisions c)
    (h : InitiatorInv c s.device s.ephemerals s.derived s.sent) {keypair : ℕ}
    (hk : keypair < s.device.nextKeypair)
    (hlineage : (WorkerState.lineage (takeNonce s.device keypair).1 s.ephemerals s.derived).Inv
      (Chain c)) : InitiatorInv c (takeNonce s.device keypair).1 s.ephemerals s.derived
      (s.sent ++ (takeNonce s.device keypair).2.toList.map fun n =>
        ((s.device.keypair keypair).send, n)) := by
  by_cases hlimit : (s.device.keypair keypair).sendNonce ≥ rejectAfterMessages
  · -- the keypair is used up, and stays so
    have htake : takeNonce s.device keypair = (s.device.rejectKeypair (some keypair), none) := by
      simp only [takeNonce, if_pos hlimit]
    rw [htake] at hlineage ⊢
    simp only [toList, map_nil, append_nil]
    refine h.raise hlineage h.state rfl ?_ ?_
    · intro k
      rw [keypair_rejectKeypair]
      split_ifs <;> rfl
    · intro k hk'
      rw [keypair_rejectKeypair]
      split_ifs
      · exact ⟨h.nonce_le k hk', BitVec.le_refl _⟩
      · exact ⟨BitVec.le_refl _, h.nonce_le k hk'⟩
  · obtain ⟨d', htake, hstate, hnext, hkeypair⟩ : ∃ d' : NoiseDevice S M,
        takeNonce s.device keypair = (d', some (s.device.keypair keypair).sendNonce) ∧
        d'.handshake = s.device.handshake ∧ d'.nextKeypair = s.device.nextKeypair ∧
        d'.keypair = update s.device.keypair keypair
          { s.device.keypair keypair with
            sendNonce := (s.device.keypair keypair).sendNonce + 1 } := by
      simp only [takeNonce, if_neg hlimit]
      exact ⟨_, rfl, rfl, rfl, rfl⟩
    rw [htake] at hlineage ⊢
    simp only [toList, map_cons, map_nil]
    have hbelow : (s.device.keypair keypair).sendNonce < rejectAfterMessages :=
      BitVec.not_le.mp hlimit
    -- the device with the counter raised; the message itself comes afterwards
    have hraised : InitiatorInv c d' s.ephemerals s.derived s.sent := by
      refine h.raise hlineage (hstate ▸ h.state) hnext ?_ ?_
      · intro k
        by_cases hkk : k = keypair
        · subst hkk; simp [hkeypair]
        · simp [hkeypair, hkk]
      · intro k hk'
        have hle := h.nonce_le k hk'
        by_cases hkk : k = keypair
        · subst hkk
          simp only [hkeypair, update_self]
          constructor <;> bv_omega
        · simp only [hkeypair, update_of_ne hkk]
          exact ⟨BitVec.le_refl _, hle⟩
    refine ⟨hraised.lineage, hraised.state, hraised.send, hraised.nonce_le, ?_, ?_⟩
    · intro m hm
      rcases mem_append.mp hm with hold | hnew
      · exact hraised.sent_lt m hold
      · rw [mem_singleton.mp hnew]
        refine ⟨keypair, hnext ▸ hk, by simp [hkeypair], ?_⟩
        simp only [hkeypair, update_self]
        bv_omega
    · -- a message with the same key came from the same keypair, and has a smaller nonce
      refine nodup_append.mpr ⟨h.sent_nodup, nodup_singleton _, ?_⟩
      intro m hm m' hm' heq
      obtain ⟨k, hk', hkey, hlt⟩ := h.sent_lt m hm
      rw [heq, mem_singleton.mp hm'] at hkey hlt
      obtain rfl := h.send_inj hc hk hk' hkey
      exact BitVec.lt_irrefl _ hlt

/-- Every step of an initiator keeps the invariant, as long as ephemeral keys do not repeat. -/
theorem InitiatorStep.inv (hc : NoCollisions c)
    (hstep : InitiatorStep c s d' ephemerals derived sent) (hnodup : ephemerals.Nodup)
    (h : InitiatorInv c s.device s.ephemerals s.derived s.sent) :
    InitiatorInv c d' ephemerals derived sent := by
  have hlineage := hstep.lineage hc hnodup h.lineage
  -- a handshake that is replaced is not in the state of a responder
  have hset : ∀ (d : NoiseDevice S M) (p : ℕ) (h' : Handshake S M),
      (∀ q, d.handshake q = s.device.handshake q) → h'.state ≠ .responseCreated →
      ∀ q, ((d.setHandshake p h').handshake q).state ≠ .responseCreated := by
    intro d p h' hd hh' q
    rw [handshake_setHandshake]
    split_ifs
    · exact hh'
    · rw [hd]
      exact h.state q
  cases hstep with
  | stay => exact h
  | @create peer e typeDraw now draws _ msg hcreate =>
    have hframe := createInitiation_frame c (s.device.handshake peer) s.device.publicKey e
      (tai64nStamp now)
    rcases createMessageInitiation_cases hcreate with
      ⟨-, rfl⟩ | ⟨body, i, -, -, -, rfl⟩
    · refine h.keep hlineage (hset _ _ _ (fun _ => rfl) ?_) rfl rfl
      rw [hframe]
      exact h.state peer
    · exact h.keep hlineage (hset _ _ _ (fun _ => rfl) nofun) rfl rfl
  | @commit pending hopen => exact h.keep hlineage (hset _ _ _ (fun _ => rfl) nofun) rfl rfl
  | @session peer keys now hkeys => exact h.session now hkeys hlineage
  -- an expiry clears the handshake and stores the limit in two keypairs
  | expire peer now =>
    refine h.raise hlineage ?_ ?_ ?_ ?_
    · intro q
      rw [handshake_expireCurrentKeypairs]
      split_ifs
      · exact nofun
      · exact h.state q
    · simp only [expireCurrentKeypairs, nextKeypair_rejectKeypair]
      rfl
    · intro k
      rcases keypair_expireCurrentKeypairs c s.device peer now k with hk | hk <;> rw [hk]
    · intro k hk
      have hle := h.nonce_le k hk
      rcases keypair_expireCurrentKeypairs c s.device peer now k with hk' | hk' <;> rw [hk']
      · exact ⟨BitVec.le_refl _, hle⟩
      · exact ⟨hle, BitVec.le_refl _⟩
  | @send keypair hk => exact h.send_message hc hk hlineage

/-! ## §5 All runs -/

theorem Start.initiatorInv (h : s.Start) :
    InitiatorInv c s.device s.ephemerals s.derived s.sent := by
  obtain ⟨hfresh, hnext, -, -, hephemerals, hderived, hsent⟩ := h
  rw [hephemerals, hderived, hsent]
  refine ⟨.empty fun p => ?_, ?_, ?_, ?_, nofun, nodup_nil⟩
  · simp [liveKey, hfresh.state p]
  · intro p
    rw [hfresh.state p]
    exact nofun
  · intro k hk
    rw [hnext] at hk
    cases hk
  · intro k hk
    rw [hnext] at hk
    cases hk

/-- In every run of the sections of an initiator, with ephemeral keys that do not repeat, in which
each update of `ConsumeMessageResponse` still finds the handshake that was checked: no two keypairs
are made of one chain key, no two keypairs share a send key, and no two transport messages share the
key and the nonce. -/
theorem one_keypair_per_handshake {c : Primitives S M} (hc : NoCollisions c)
    {s₀ s : WorkerState S M} {actions : List (WorkerAction S M)} (hstart : s₀.Start)
    (hactions : ∀ a ∈ actions, a.IsInitiator) (hrun : runFrom (step c) s₀ actions = some s)
    (hephemerals : s.ephemerals.Nodup) (hpass : Along (step c) (StillPasses c) s₀ actions) :
    (s.derived.map Prod.snd).Nodup ∧ (∀ k < s.device.nextKeypair, ∀ l < s.device.nextKeypair,
        (s.device.keypair k).send = (s.device.keypair l).send → k = l) ∧ s.sent.Nodup := by
  have hstep : ∀ (t : WorkerState S M) (a : WorkerAction S M) (t' : WorkerState S M),
      (t.ephemerals.Nodup → InitiatorInv c t.device t.ephemerals t.derived t.sent) →
      (a.IsInitiator ∧ t.StillPasses c a) → t.step c a = some t' →
      t'.ephemerals.Nodup → InitiatorInv c t'.device t'.ephemerals t'.derived t'.sent := by
    intro t a t' h ha ht' hnodup
    have hinitiator := step_initiator ha.1 ha.2 ht'
    refine hinitiator.inv hc hnodup (h ?_)
    exact hnodup.sublist hinitiator.ephemerals_sublist
  have hinv := runFrom_invariant_along hstep (fun _ => hstart.initiatorInv)
    ((along_of_forall hactions).and hpass) hrun hephemerals
  exact ⟨hinv.lineage.spent_nodup, fun k hk l hl => hinv.send_inj hc hk hl, hinv.sent_nodup⟩

/-- An update right after the check still finds the handshake. -/
theorem stillPasses_after_check {s' : WorkerState S M} {w : ℕ}
    {msg : MessageResponse M} (h : s.step c (.checkResponse w msg) = some s') :
    s'.StillPasses c (.commitResponse w) := by
  intro v hv pending hpending
  cases hv
  simp only [step] at h
  split at h
  · next hidle =>
    split at h
    · cases h
      rw [hidle] at hpending
      cases hpending
    · next checked hcheck =>
      cases h
      simp only [setWorker, update_self, Worker.responseChecked.injEq] at hpending
      subst hpending
      obtain ⟨-, rfl, hopen⟩ := checkResponse_state hcheck
      exact hopen
  · cases h

/-- One response, one session and two messages. -/
theorem one_keypair_per_handshake_once : ∃ s, runFrom (step symbolic) symbolicWorkers
        [.createMessageInitiation 2 20 0 0 [5], .checkResponse 0 NoiseDevice.partnerResponse,
          .commitResponse 0, .beginSymmetricSession 0 0, .send 0, .send 0] = some s ∧
      s.sent.length = 2 ∧ s.sent.Nodup := by
  have hrun : (runFrom (step symbolic) symbolicWorkers
      [.createMessageInitiation 2 20 0 0 [5], .checkResponse 0 partnerResponse,
        .commitResponse 0, .beginSymmetricSession 0 0, .send 0, .send 0]).map
      (fun s => (s.sent.length, s.ephemerals)) = some (2, [.pub 20]) := by decide +kernel
  obtain ⟨s, hs, hvalues⟩ := map_eq_some_iff.mp hrun
  simp only [Prod.mk.injEq] at hvalues
  refine ⟨s, hs, hvalues.1, ?_⟩
  refine (one_keypair_per_handshake symbolic_noCollisions symbolicWorkers_start ?_ hs ?_ ?_).2.2
  · simp [WorkerAction.IsInitiator]
  · rw [hvalues.2]
    exact nodup_singleton _
  · refine ⟨nofun, fun s₁ _ => ⟨nofun, fun s₂ hcheck => ⟨stillPasses_after_check hcheck, ?_⟩⟩⟩
    exact fun _ _ => ⟨nofun, fun _ _ => ⟨nofun, fun _ _ => ⟨nofun, fun _ _ => trivial⟩⟩⟩

/-- Two threads check two copies of one response.  The second update comes after the first
session. -/
def duplicateResponse : List (WorkerAction ℕ Term) :=
  [.createMessageInitiation 2 20 0 0 [5], .checkResponse 0 NoiseDevice.partnerResponse,
    .checkResponse 1 NoiseDevice.partnerResponse, .commitResponse 0, .beginSymmetricSession 0 0,
    .send 0, .commitResponse 1, .beginSymmetricSession 1 0, .send 1]

/-- Two keypairs are made of one chain key, and two messages have the same key and nonce. -/
theorem duplicate_response_reuses_nonce :
    ∃ s, symbolicWorkers.Start ∧ (∀ a ∈ duplicateResponse, a.IsInitiator) ∧
      runFrom (step symbolic) symbolicWorkers duplicateResponse = some s ∧ s.ephemerals.Nodup ∧
      ¬(s.derived.map Prod.snd).Nodup ∧ (s.device.keypair 0).send = (s.device.keypair 1).send ∧
      s.sent = [((s.device.keypair 0).send, 0), ((s.device.keypair 0).send, 0)] := by
  have hrun : (runFrom (step symbolic) symbolicWorkers duplicateResponse).map (fun s =>
      (decide (s.ephemerals.Nodup), decide ((s.derived.map Prod.snd).Nodup),
        decide ((s.device.keypair 0).send = (s.device.keypair 1).send),
        decide (s.sent = [((s.device.keypair 0).send, 0), ((s.device.keypair 0).send, 0)]))) =
      some (true, false, true, true) := by decide +kernel
  obtain ⟨s, hs, hvalues⟩ := map_eq_some_iff.mp hrun
  simp only [Prod.mk.injEq, decide_eq_true_eq, decide_eq_false_iff_not] at hvalues
  exact ⟨s, symbolicWorkers_start, by simp [duplicateResponse, WorkerAction.IsInitiator], hs,
    hvalues⟩

end WorkerState

end AmneziaWG.Device
