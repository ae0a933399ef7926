import AmneziaWG.Device.Noise.Indices

/-!
# Concurrent Handshake Workers

Any number of threads on one device, with the locked sections of the handshake functions as atomic
actions.  Between two sections a thread holds what its function holds in local variables
(`Worker`), so a message may be checked, and the check acted on much later.  `RoutineHandshake`
fixes in which order a thread takes its sections; the threads interleave freely, and every message
may arrive any number of times.

The state keeps four histories that no action reads: the initiations that were accepted, the public
keys of the ephemeral keys that were drawn for initiations, the chain keys from which keypairs were
made, and the key and nonce of every transport message.

## Main results

- `stopped_peer_erased_iff`: after `ZeroAndFlushAll` a peer has no keypair and no index, exactly
  when no session began after its keypairs were cleared.
-/

namespace AmneziaWG.Device

open AmneziaWG.Lib List Option NoiseDevice

variable {S M : Type}

/-! ## §1 Threads -/

/-- Where a thread stands between two locked sections. -/
inductive Worker (M : Type) where
  | idle
  /-- In `ConsumeMessageInitiation`, behind the check. -/
  | initiationChecked (pending : NoiseDevice.PendingInitiation M)
  /-- In `SendHandshakeResponse`, before `CreateMessageResponse`. -/
  | initiationConsumed (peer : ℕ)
  /-- In `ConsumeMessageResponse`, behind the check. -/
  | responseChecked (pending : NoiseDevice.PendingResponse M)
  /-- Before `BeginSymmetricSession`. -/
  | keysReady (peer : ℕ)
  /-- In `ZeroAndFlushAll`, between its sections. -/
  | keypairsZeroed (peer : ℕ)
  deriving DecidableEq

/-- A device, its threads, and the histories. -/
structure WorkerState (S M : Type) where
  device : NoiseDevice S M
  worker : ℕ → Worker M
  accepted : List (NoiseDevice.PendingInitiation M)
  ephemerals : List M
  derived : List (ℕ × M)
  sent : List (M × BitVec 64)

/-- The locked sections.  `w` is the thread; what is not part of `RoutineHandshake` may be called by
any thread. -/
inductive WorkerAction (S M : Type) where
  | createMessageInitiation (peer : ℕ) (ephemeral : S) (typeDraw : ℕ) (now : ℤ)
      (draws : List (BitVec 32))
  | checkInitiation (w : ℕ) (msg : MessageInitiation M) (now : ℤ)
  | commitInitiation (w : ℕ) (now : ℤ)
  | createMessageResponse (w : ℕ) (ephemeral : S) (typeDraw : ℕ) (draws : List (BitVec 32))
  | checkResponse (w : ℕ) (msg : MessageResponse M)
  | commitResponse (w : ℕ)
  | beginSymmetricSession (w : ℕ) (now : ℕ)
  | receivedWithKeypair (peer keypair : ℕ)
  | expireCurrentKeypairs (peer : ℕ) (now : ℤ)
  | zeroKeypairs (w : ℕ) (peer : ℕ)
  | zeroHandshake (w : ℕ)
  /-- One message of `SendStagedPackets`, with any keypair that was ever made. -/
  | send (keypair : ℕ)

/-- The sections of `ConsumeMessageResponse`, `CreateMessageResponse` and
`BeginSymmetricSession`. -/
def WorkerAction.IsHandshake : WorkerAction S M → Prop
  | .checkResponse _ _ => True
  | .commitResponse _ => True
  | .createMessageResponse _ _ _ _ => True
  | .beginSymmetricSession _ _ => True
  | _ => False

namespace WorkerState

def setWorker (s : WorkerState S M) (w : ℕ) (worker : Worker M) : WorkerState S M :=
  { s with worker := Function.update s.worker w worker }

/-- Take a nonce; `none` when the keypair has no more. -/
def takeNonce (d : NoiseDevice S M) (keypair : ℕ) : NoiseDevice S M × Option (BitVec 64) :=
  let nonce := (d.keypair keypair).sendNonce
  if nonce ≥ rejectAfterMessages then (d.rejectKeypair (some keypair), none)
  else
    ({ d with
       keypair := Function.update d.keypair keypair
         { d.keypair keypair with sendNonce := nonce + 1 } },
      some nonce)

/-- One action; `none` when it is not enabled. -/
def step (c : Primitives S M) (s : WorkerState S M) : WorkerAction S M → Option (WorkerState S M)
  | .createMessageInitiation peer ephemeral typeDraw now draws => do
    let (device, _) ← s.device.createMessageInitiation c peer ephemeral typeDraw now draws
    return { s with device, ephemerals := s.ephemerals ++ [c.publicKey ephemeral] }
  | .checkInitiation w msg now =>
    match s.worker w with
    | .idle =>
      match s.device.checkInitiation c msg now with
      | none => some s
      | some pending => some (s.setWorker w (.initiationChecked pending))
    | _ => none
  | .commitInitiation w now =>
    match s.worker w with
    | .initiationChecked pending =>
      let s := { s with
        device := s.device.commitInitiation pending now, accepted := s.accepted ++ [pending] }
      some (s.setWorker w (.initiationConsumed pending.peer))
    | _ => none
  | .createMessageResponse w ephemeral typeDraw draws =>
    match s.worker w with
    | .initiationConsumed peer => do
      let (device, msg) ← s.device.createMessageResponse c peer ephemeral typeDraw draws
      return { s with device }.setWorker w (if msg.isSome then .keysReady peer else .idle)
    | _ => none
  | .checkResponse w msg =>
    match s.worker w with
    | .idle =>
      match s.device.checkResponse c msg with
      | none => some s
      | some pending => some (s.setWorker w (.responseChecked pending))
    | _ => none
  | .commitResponse w =>
    match s.worker w with
    | .responseChecked pending =>
      some ({ s with device := s.device.commitResponse pending }.setWorker w
        (.keysReady pending.peer))
    | _ => none
  | .beginSymmetricSession w now =>
    match s.worker w with
    | .keysReady peer =>
      let derived :=
        match (s.device.handshake peer).deriveKeys c with
        | none => s.derived
        | some _ => s.derived ++ [(s.device.nextKeypair, (s.device.handshake peer).chainKey)]
      let device := (s.device.beginSymmetricSession c peer now).1
      some ({ s with device, derived }.setWorker w .idle)
    | _ => none
  | .receivedWithKeypair peer keypair =>
    some { s with device := (s.device.receivedWithKeypair peer keypair).1 }
  | .expireCurrentKeypairs peer now =>
    some { s with device := s.device.expireCurrentKeypairs c peer now }
  | .zeroKeypairs w peer =>
    match s.worker w with
    | .idle =>
      some ({ s with device := s.device.zeroKeypairs peer }.setWorker w (.keypairsZeroed peer))
    | _ => none
  | .zeroHandshake w =>
    match s.worker w with
    | .keypairsZeroed peer =>
      some ({ s with device := s.device.zeroHandshake c peer }.setWorker w .idle)
    | _ => none
  | .send keypair =>
    if keypair < s.device.nextKeypair then
      let (device, nonce) := takeNonce s.device keypair
      let sent := s.sent ++ nonce.toList.map fun n => ((s.device.keypair keypair).send, n)
      some { s with device, sent }
    else none

/-- The start: no handshake yet, no keypair, no thread in a section. -/
structure Start (s : WorkerState S M) : Prop where
  fresh : s.device.Fresh
  nextKeypair : s.device.nextKeypair = 0
  idle : ∀ w, s.worker w = .idle
  accepted : s.accepted = []
  ephemerals : s.ephemerals = []
  derived : s.derived = []
  sent : s.sent = []

/-! ## §2 What an action does to the device -/

/-- The sections that change a device, other than the update of `ConsumeMessageInitiation`. -/
inductive Section (c : Primitives S M) (d : NoiseDevice S M) : NoiseDevice S M → Prop
  | stay : Section c d d
  | createMessageInitiation {peer e typeDraw now draws d' msg}
      (h : d.createMessageInitiation c peer e typeDraw now draws = some (d', msg)) : Section c d d'
  | createMessageResponse {peer e typeDraw draws d' msg}
      (h : d.createMessageResponse c peer e typeDraw draws = some (d', msg)) : Section c d d'
  | commitResponse (pending : NoiseDevice.PendingResponse M) :
      Section c d (d.commitResponse pending)
  | beginSymmetricSession (peer now : ℕ) : Section c d (d.beginSymmetricSession c peer now).1
  | receivedWithKeypair (peer keypair : ℕ) : Section c d (d.receivedWithKeypair peer keypair).1
  | expireCurrentKeypairs (peer : ℕ) (now : ℤ) : Section c d (d.expireCurrentKeypairs c peer now)
  | zeroKeypairs (peer : ℕ) : Section c d (d.zeroKeypairs peer)
  | zeroHandshake (peer : ℕ) : Section c d (d.zeroHandshake c peer)
  | takeNonce (keypair : ℕ) : Section c d (takeNonce d keypair).1

structure Accepts (s s' : WorkerState S M) (a : WorkerAction S M) (w : ℕ) (now : ℤ)
    (pending : NoiseDevice.PendingInitiation M) : Prop where
  action : a = .commitInitiation w now
  checked : s.worker w = .initiationChecked pending
  device : s'.device = s.device.commitInitiation pending now
  accepted : s'.accepted = s.accepted ++ [pending]
  worker : s'.worker = Function.update s.worker w (.initiationConsumed pending.peer)

variable {c : Primitives S M} {s s' : WorkerState S M} {a : WorkerAction S M}
  {d d' : NoiseDevice S M} {p : ℕ} {keys : SessionKeys M}

/-- An action accepts an initiation, or changes the device by one other section at most. -/
theorem step_section (h : s.step c a = some s') :
    (Section c s.device s'.device ∧ s'.accepted = s.accepted) ∨
      ∃ w now pending, s.Accepts s' a w now pending := by
  -- the update of `ConsumeMessageInitiation` is the only section that accepts
  cases a with
  | createMessageInitiation peer e typeDraw now draws =>
    obtain ⟨⟨d', msg⟩, hcreate, h⟩ := bind_eq_some_iff.mp h
    cases h
    exact .inl ⟨.createMessageInitiation hcreate, rfl⟩
  | checkInitiation w msg now | checkResponse w msg =>
    simp only [step] at h
    split at h
    · split at h <;> cases h <;> exact .inl ⟨.stay, rfl⟩
    · cases h
  | commitInitiation w now =>
    simp only [step] at h
    split at h
    · next pending hw =>
      cases h
      exact .inr ⟨w, now, pending, rfl, hw, rfl, rfl, rfl⟩
    · cases h
  | createMessageResponse w e typeDraw draws =>
    simp only [step] at h
    split at h
    · obtain ⟨⟨d', msg⟩, hcreate, h⟩ := bind_eq_some_iff.mp h
      cases h
      exact .inl ⟨.createMessageResponse hcreate, rfl⟩
    · cases h
  | commitResponse w =>
    simp only [step] at h
    split at h
    · cases h
      exact .inl ⟨.commitResponse _, rfl⟩
    · cases h
  | beginSymmetricSession w now =>
    simp only [step] at h
    split at h
    · cases h
      exact .inl ⟨.beginSymmetricSession _ now, rfl⟩
    · cases h
  | receivedWithKeypair peer keypair =>
    cases h
    exact .inl ⟨.receivedWithKeypair peer keypair, rfl⟩
  | expireCurrentKeypairs peer now =>
    cases h
    exact .inl ⟨.expireCurrentKeypairs peer now, rfl⟩
  | zeroKeypairs w peer =>
    simp only [step] at h
    split at h
    · cases h
      exact .inl ⟨.zeroKeypairs peer, rfl⟩
    · cases h
  | zeroHandshake w =>
    simp only [step] at h
    split at h
    · cases h
      exact .inl ⟨.zeroHandshake _, rfl⟩
    · cases h
  | send keypair =>
    simp only [step] at h
    split_ifs at h
    cases h
    exact .inl ⟨.takeNonce keypair, rfl⟩

theorem registry_takeNonce (d : NoiseDevice S M) (k : ℕ) :
    (takeNonce d k).1.registry = d.registry := by
  have hindex : ∀ nonce, (fun l => (Function.update d.keypair k
      { d.keypair k with sendNonce := nonce } l).localIndex) = fun l =>
        (d.keypair l).localIndex := by
    intro nonce
    funext l
    by_cases hl : l = k
    · subst hl; simp
    · simp [hl]
  unfold takeNonce
  simp only []
  split_ifs
  · exact Registry.ext rfl rfl rfl (hindex _) rfl
  · exact Registry.ext rfl rfl rfl (hindex _) rfl

theorem Section.inv (h : Section c d d') (hinv : d.registry.Inv) : d'.registry.Inv := by
  -- each section as a change of the registry, as for undisturbed operations
  cases h with
  | stay => exact hinv
  | createMessageInitiation hcreate =>
    rcases registry_createMessageInitiation hcreate with
      ⟨-, hregistry⟩ | ⟨-, i, -, -, hfree, hregistry⟩
    · exact hregistry ▸ hinv
    · exact hregistry ▸ hinv.assign hfree
  | createMessageResponse hcreate =>
    rcases registry_createMessageResponse hcreate with
      ⟨-, hregistry⟩ | ⟨i, -, -, hfree, hregistry⟩
    · exact hregistry ▸ hinv
    · exact hregistry ▸ hinv.assign hfree
  | commitResponse pending => exact registry_commitResponse d pending ▸ hinv
  | beginSymmetricSession peer now =>
    cases hkeys : (d.handshake peer).deriveKeys c with
    | none => rwa [beginSymmetricSession_none hkeys]
    | some keys =>
      obtain ⟨rest, hdrops, hadopts, hregistry⟩ :=
        registry_beginSymmetricSession hinv hkeys now
      exact hregistry ▸ (hinv.drop hdrops).adopt hadopts
  | receivedWithKeypair peer keypair =>
    by_cases hnext : (d.keypairs peer).next = some keypair
    · obtain ⟨ks, -, hdrops, hregistry⟩ := registry_receivedWithKeypair hinv hnext
      exact hregistry ▸ hinv.drop hdrops
    · rwa [receivedWithKeypair_refused hnext]
  | expireCurrentKeypairs peer now =>
    exact registry_expireCurrentKeypairs c d peer now ▸ hinv.release peer
  | zeroKeypairs peer =>
    obtain ⟨hdrops, hregistry⟩ := registry_zeroKeypairs d peer
    exact hregistry ▸ hinv.drop hdrops
  | zeroHandshake peer => exact registry_zeroHandshake c d peer ▸ hinv.release peer
  | takeNonce keypair => exact registry_takeNonce d keypair ▸ hinv

theorem step_inv
    (h : s.step c a = some s') (hinv : s.device.registry.Inv) : s'.device.registry.Inv := by
  rcases step_section h with ⟨hsection, -⟩ | ⟨w, now, pending, haccepts⟩
  · exact hsection.inv hinv
  · rw [haccepts.device, registry_commitInitiation]
    exact hinv

theorem registry_inv {actions : List (WorkerAction S M)}
    (hinv : s.device.registry.Inv) (hrun : runFrom (step c) s actions = some s') :
    s'.device.registry.Inv :=
  runFrom_invariant (fun _ _ _ h hstep => step_inv hstep h) hinv hrun

/-! ## §3 Stopping a peer -/

/-- A peer has no keypair, and no index is its own. -/
structure Erased (d : NoiseDevice S M) (p : ℕ) : Prop where
  keypairs : d.keypairs p = Keypairs.none
  entries : ∀ i e, d.indexTable i = some e → e.peer ≠ some p

/-- A session on the peer does not begin now. -/
def NoSession (c : Primitives S M) (p : ℕ) (s : WorkerState S M) (a : WorkerAction S M) : Prop :=
  ∀ w now, a = .beginSymmetricSession w now → s.worker w = .keysReady p →
    (s.device.handshake p).deriveKeys c = none

/-- What a pending handshake may do. -/
inductive Pending (c : Primitives S M) (s : WorkerState S M) (a : WorkerAction S M) :
    NoiseDevice S M → Prop
  | stay : Pending c s a s.device
  | commitResponse (pending : NoiseDevice.PendingResponse M) :
      Pending c s a (s.device.commitResponse pending)
  | createMessageResponse {peer e typeDraw draws d' msg}
      (h : s.device.createMessageResponse c peer e typeDraw draws = some (d', msg)) :
      Pending c s a d'
  | beginSymmetricSession {w peer now : ℕ} {keys : SessionKeys M}
      (ha : a = .beginSymmetricSession w now) (hw : s.worker w = .keysReady peer)
      (hkeys : (s.device.handshake peer).deriveKeys c = some keys) :
      Pending c s a (s.device.beginSymmetricSession c peer now).1

theorem step_pending (ha : a.IsHandshake) (h : s.step c a = some s') : Pending c s a s'.device := by
  cases a with
  | checkResponse w msg =>
    simp only [step] at h
    split at h
    · split at h <;> cases h <;> exact .stay
    · cases h
  | commitResponse w =>
    simp only [step] at h
    split at h
    · cases h
      exact .commitResponse _
    · cases h
  | createMessageResponse w e typeDraw draws =>
    simp only [step] at h
    split at h
    · obtain ⟨⟨d', msg⟩, hcreate, h⟩ := bind_eq_some_iff.mp h
      cases h
      exact .createMessageResponse hcreate
    · cases h
  | beginSymmetricSession w now =>
    simp only [step] at h
    split at h
    · next peer hw =>
      cases h
      cases hkeys : (s.device.handshake peer).deriveKeys c with
      | none =>
        show Pending c s _ (s.device.beginSymmetricSession c peer now).1
        rw [beginSymmetricSession_none hkeys]
        exact .stay
      | some keys => exact .beginSymmetricSession rfl hw hkeys
    · cases h
  | createMessageInitiation | checkInitiation | commitInitiation | receivedWithKeypair |
    expireCurrentKeypairs | zeroKeypairs | zeroHandshake | send => exact ha.elim

/-- A pending handshake does not move a thread that is in `ZeroAndFlushAll`. -/
theorem worker_keypairsZeroed (ha : a.IsHandshake) (h : s.step c a = some s') {w : ℕ}
    (hw : s.worker w = .keypairsZeroed p) : s'.worker w = .keypairsZeroed p := by
  -- the thread that moves is another one
  have hother : ∀ (d : NoiseDevice S M) (ds : List (ℕ × M)) (v : ℕ) (x : Worker M),
      s.worker v ≠ .keypairsZeroed p →
      (({ s with device := d, derived := ds } : WorkerState S M).setWorker v x).worker w =
        .keypairsZeroed p := by
    intro d ds v x hv
    have hne : w ≠ v := by rintro rfl; exact hv hw
    simpa [setWorker, hne] using hw
  cases a with
  | checkResponse v msg =>
    -- the thread of the action waits elsewhere, or the action is not enabled
    simp only [step] at h
    split at h
    · next hv =>
      split at h
      · cases h
        exact hw
      · cases h
        exact hother s.device s.derived v _ (by rw [hv]; exact nofun)
    · cases h
  | commitResponse v =>
    simp only [step] at h
    split at h
    · next hv =>
      cases h
      exact hother _ s.derived v _ (by rw [hv]; exact nofun)
    · cases h
  | createMessageResponse v e typeDraw draws =>
    simp only [step] at h
    split at h
    · next hv =>
      obtain ⟨⟨d', msg⟩, -, h⟩ := bind_eq_some_iff.mp h
      cases h
      exact hother _ s.derived v _ (by rw [hv]; exact nofun)
    · cases h
  | beginSymmetricSession v now =>
    simp only [step] at h
    split at h
    · next hv =>
      cases h
      exact hother _ _ v _ (by rw [hv]; exact nofun)
    · cases h
  | createMessageInitiation | checkInitiation | commitInitiation | receivedWithKeypair |
    expireCurrentKeypairs | zeroKeypairs | zeroHandshake | send => exact ha.elim

theorem keypairs_beginSymmetricSession
    (hkeys : (d.handshake p).deriveKeys c = some keys) (now q : ℕ) :
    (d.beginSymmetricSession c p now).1.keypairs q =
      if q = p then (NoiseDevice.rotate (d.keypairs p) keys.isInitiator d.nextKeypair).1
      else d.keypairs q := by
  rw [beginSymmetricSession_some hkeys]
  by_cases hqp : q = p
  · subst hqp; simp [keypairs]
  · simp [keypairs, hqp]

theorem keypairs_createMessageResponse {e : S}
    {typeDraw : ℕ} {draws : List (BitVec 32)} {msg : Option (MessageResponse M)}
    (h : d.createMessageResponse c p e typeDraw draws = some (d', msg)) :
    d'.keypairs = d.keypairs := by
  rcases registry_createMessageResponse h with ⟨-, hregistry⟩ | ⟨i, -, -, -, hregistry⟩
  · exact congrArg Registry.slots hregistry
  · exact congrArg Registry.slots hregistry

theorem keypairs_commitResponse (d : NoiseDevice S M) (pending : NoiseDevice.PendingResponse M) :
    (d.commitResponse pending).keypairs = d.keypairs :=
  congrArg Registry.slots (registry_commitResponse d pending)

theorem entries_beginSymmetricSession (hinv : d.registry.Inv)
    (hkeys : (d.handshake p).deriveKeys c = some keys) {now : ℕ} {i : BitVec 32}
    {e : IndexTableEntry} (he : (d.beginSymmetricSession c p now).1.indexTable i = some e) :
    ∃ e₀, d.indexTable i = some e₀ ∧ e₀.peer = e.peer := by
  obtain ⟨rest, -, -, hregistry⟩ := registry_beginSymmetricSession hinv hkeys now
  have htable := congrFun (congrArg Registry.table hregistry) i
  rw [show (registry _).table i = some e from he] at htable
  simp only [Registry.adopt, Registry.drop, IndexTable.swapIndexForKeypair_apply,
    IndexTable.foldl_delete_apply] at htable
  split_ifs at htable with hi hdeleted hdeleted
  · cases htable
  · obtain ⟨e₀, he₀, rfl⟩ := map_eq_some_iff.mp htable.symm
    exact ⟨e₀, hi ▸ he₀, rfl⟩
  · exact ⟨e, htable.symm, rfl⟩

theorem has_of_session (hinv : d.registry.Inv)
    (hkeys : (d.handshake p).deriveKeys c = some keys) (now : ℕ) :
    ∃ k, ((d.beginSymmetricSession c p now).1.keypairs p).Has k := by
  obtain ⟨rest, -, hadopts, -⟩ := registry_beginSymmetricSession hinv hkeys now
  rw [keypairs_beginSymmetricSession hkeys, if_pos rfl]
  exact ⟨_, hadopts.new⟩

/-- A peer with a keypair keeps one, whatever pending handshakes do. -/
theorem Pending.has (h : Pending c s a d') (hinv : s.device.registry.Inv)
    (hhas : ∃ k, (s.device.keypairs p).Has k) : ∃ k, (d'.keypairs p).Has k := by
  cases h with
  | stay => exact hhas
  | commitResponse pending => rwa [keypairs_commitResponse]
  | createMessageResponse hcreate => rwa [keypairs_createMessageResponse hcreate]
  | @beginSymmetricSession w peer now keys ha hw hkeys =>
    by_cases hp : p = peer
    · subst hp
      exact has_of_session hinv hkeys now
    · rwa [keypairs_beginSymmetricSession hkeys, if_neg hp]

theorem Pending.keypairs_none (h : Pending c s a d') (hsession : NoSession c p s a)
    (hnone : s.device.keypairs p = Keypairs.none) : d'.keypairs p = Keypairs.none := by
  cases h with
  | stay => exact hnone
  | commitResponse pending => rwa [keypairs_commitResponse]
  | createMessageResponse hcreate => rwa [keypairs_createMessageResponse hcreate]
  | @beginSymmetricSession w peer now keys ha hw hkeys =>
    have hp : p ≠ peer := by
      rintro rfl
      rw [hsession w now ha hw] at hkeys
      cases hkeys
    rwa [keypairs_beginSymmetricSession hkeys, if_neg hp]

/-- A peer that is erased, and that has no initiation to respond to, stays so. -/
theorem Pending.erased (h : Pending c s a d') (hinv : s.device.registry.Inv)
    (hsession : NoSession c p s a) (herased : Erased s.device p)
    (hstate : (s.device.handshake p).state ≠ .initiationConsumed) :
    Erased d' p ∧ (d'.handshake p).state ≠ .initiationConsumed := by
  have hkeypairs := h.keypairs_none hsession herased.keypairs
  cases h with
  | stay => exact ⟨herased, hstate⟩
  | commitResponse pending =>
    refine ⟨⟨hkeypairs, herased.entries⟩, ?_⟩
    rw [NoiseDevice.commitResponse, NoiseDevice.handshake_setHandshake]
    split_ifs
    · exact nofun
    · exact hstate
  | @createMessageResponse peer e typeDraw draws d' msg hcreate =>
    rcases createMessageResponse_cases hcreate with
      ⟨-, rfl, -⟩ | ⟨i, hconsumed, -, -, rfl⟩
    · exact ⟨herased, hstate⟩
    · -- a session on the peer itself is what `NoSession` rules out
      have hp : p ≠ peer := by rintro rfl; exact hstate hconsumed
      refine ⟨⟨hkeypairs, ?_⟩, ?_⟩
      · intro j e' he'
        -- the new entry is that of the other peer
        simp only [assign, setHandshake, IndexTable.set_apply, IndexTable.delete_apply] at he'
        split_ifs at he'
        · cases he'
          simpa [IndexTableEntry.ofHandshake] using hp.symm
        · exact herased.entries j e' he'
      · rw [assign, handshake_setHandshake, if_neg hp]
        exact hstate
  | @beginSymmetricSession w peer now keys ha hw hkeys =>
    have hp : p ≠ peer := by
      rintro rfl
      rw [hsession w now ha hw] at hkeys
      cases hkeys
    refine ⟨⟨hkeypairs, ?_⟩, ?_⟩
    · intro i e he
      obtain ⟨e₀, he₀, hpeer⟩ := entries_beginSymmetricSession hinv hkeys he
      exact hpeer ▸ herased.entries i e₀ he₀
    · rw [handshake_beginSymmetricSession hkeys, if_neg hp]
      exact hstate

theorem has_of_run {as : List (WorkerAction S M)}
    (has : ∀ a ∈ as, a.IsHandshake) (hrun : runFrom (step c) s as = some s')
    (hinv : s.device.registry.Inv) (hhas : ∃ k, (s.device.keypairs p).Has k) :
    ∃ k, (s'.device.keypairs p).Has k := by
  have hstep : ∀ (s : WorkerState S M) (a : WorkerAction S M) (s' : WorkerState S M),
      (s.device.registry.Inv ∧ ∃ k, (s.device.keypairs p).Has k) → a.IsHandshake →
      s.step c a = some s' → s'.device.registry.Inv ∧ ∃ k, (s'.device.keypairs p).Has k :=
    fun s a s' h ha hs' =>
      ⟨step_inv hs' h.1, (step_pending ha hs').has h.1 h.2⟩
  exact (runFrom_invariant_along hstep ⟨hinv, hhas⟩ (along_of_forall has) hrun).2

theorem has_of_not_noSession
    (hinv : s.device.registry.Inv) (hnot : ¬NoSession c p s a) (h : s.step c a = some s') :
    ∃ k, (s'.device.keypairs p).Has k := by
  simp only [NoSession, not_forall] at hnot
  obtain ⟨w, now, rfl, hw, hkeys⟩ := hnot
  obtain ⟨keys, hkeys⟩ := ne_none_iff_exists'.mp hkeys
  simp only [step, hw] at h
  cases h
  exact has_of_session hinv hkeys now

theorem keypairs_zeroHandshake (c : Primitives S M) (d : NoiseDevice S M) (p : ℕ) :
    (d.zeroHandshake c p).keypairs = d.keypairs :=
  congrArg Registry.slots (registry_zeroHandshake c d p)

theorem erased_zeroHandshake (c : Primitives S M) (hinv : d.registry.Inv)
    (hnone : d.keypairs p = Keypairs.none) :
    Erased (d.zeroHandshake c p) p ∧ ((d.zeroHandshake c p).handshake p).state = .zeroed := by
  refine ⟨⟨?_, ?_⟩, ?_⟩
  · rw [keypairs_zeroHandshake]
    exact hnone
  · intro i e he hp
    -- what is left of the peer would belong to a keypair
    have he' : (d.registry.release p).table i = some e :=
      registry_zeroHandshake c d p ▸ he
    obtain ⟨k, hk, -⟩ := hinv.release_held he' hp
    rw [show d.registry.slots p = Keypairs.none from hnone] at hk
    exact Keypairs.not_has_none k hk
  · rw [zeroHandshake, handshake_setHandshake, if_pos rfl]
    rfl

/-- A peer is stopped while handshakes are pending.  After `ZeroAndFlushAll` it has no keypair and
no index exactly when no session on it began after its keypairs had been cleared. -/
theorem stopped_peer_erased_iff {c : Primitives S M} {s₀ s s₁ s₂ s₃ s₄ : WorkerState S M}
    {actions as bs : List (WorkerAction S M)} (hstart : s₀.Start)
    (hreach : runFrom (step c) s₀ actions = some s) {w p : ℕ}
    (hkeypairs : s.step c (.zeroKeypairs w p) = some s₁)
    (hbetween : runFrom (step c) s₁ as = some s₂) (has : ∀ a ∈ as, a.IsHandshake)
    (hhandshake : s₂.step c (.zeroHandshake w) = some s₃)
    (hafter : runFrom (step c) s₃ bs = some s₄) (hbs : ∀ a ∈ bs, a.IsHandshake) :
    Erased s₄.device p ↔
      Along (step c) (NoSession c p) s₁ as ∧ Along (step c) (NoSession c p) s₃ bs := by
  have hinv : s.device.registry.Inv := registry_inv hstart.fresh.inv hreach
  have hinv₁ : s₁.device.registry.Inv := step_inv hkeypairs hinv
  have hinv₂ : s₂.device.registry.Inv := registry_inv hinv₁ hbetween
  have hinv₃ : s₃.device.registry.Inv := step_inv hhandshake hinv₂
  -- the thread is still between its sections, and goes on with the same peer
  have hs₁ : s₁.worker w = .keypairsZeroed p ∧ s₁.device.keypairs p = Keypairs.none := by
    simp only [step] at hkeypairs
    split at hkeypairs
    · cases hkeypairs
      have hslots := congrFun (congrArg Registry.slots (registry_zeroKeypairs s.device p).2) p
      exact ⟨by simp [setWorker], hslots.trans (by simp [Registry.drop])⟩
    · cases hkeypairs
  have hworker : s₂.worker w = .keypairsZeroed p :=
    runFrom_invariant_along (fun s a s' h ha hs' => worker_keypairsZeroed ha hs' h) hs₁.1
      (along_of_forall has) hbetween
  have hdevice₃ : s₃.device = s₂.device.zeroHandshake c p := by
    simp only [step, hworker] at hhandshake
    cases hhandshake
    rfl
  constructor
  · intro herased
    have hno : ¬∃ k, (s₄.device.keypairs p).Has k := by
      rintro ⟨k, hk⟩
      rw [herased.keypairs] at hk
      exact Keypairs.not_has_none k hk
    constructor
    · -- a session between the sections leaves a keypair, which nobody deletes later
      by_contra hnot
      obtain ⟨as₁, a, as₂, t, t', rfl, ht, hviolated, ht', hrest⟩ := exists_violation hnot hbetween
      have hinvt : t.device.registry.Inv := registry_inv hinv₁ ht
      have hhas₂ := has_of_run (fun b hb => has b (mem_append_right _ (mem_cons_of_mem _ hb)))
        hrest (step_inv ht' hinvt) (has_of_not_noSession hinvt hviolated ht')
      refine hno (has_of_run hbs hafter hinv₃ ?_)
      rwa [hdevice₃, keypairs_zeroHandshake]
    · -- so does a session behind both sections
      by_contra hnot
      obtain ⟨bs₁, b, bs₂, t, t', rfl, ht, hviolated, ht', hrest⟩ := exists_violation hnot hafter
      have hinvt : t.device.registry.Inv := registry_inv hinv₃ ht
      exact hno (has_of_run (fun b hb => hbs b (mem_append_right _ (mem_cons_of_mem _ hb)))
        hrest (step_inv ht' hinvt) (has_of_not_noSession hinvt hviolated ht'))
  · rintro ⟨hsession, hsession'⟩
    -- without sessions the keypairs stay away, and then the handshake is cleared
    have hstep : ∀ (s : WorkerState S M) (a : WorkerAction S M) (s' : WorkerState S M),
        s.device.keypairs p = Keypairs.none → (a.IsHandshake ∧ NoSession c p s a) →
        s.step c a = some s' → s'.device.keypairs p = Keypairs.none :=
      fun s a s' h ha hs' => (step_pending ha.1 hs').keypairs_none ha.2 h
    have hnone : s₂.device.keypairs p = Keypairs.none :=
      runFrom_invariant_along hstep hs₁.2 ((along_of_forall has).and hsession) hbetween
    have herased := erased_zeroHandshake c hinv₂ hnone
    rw [← hdevice₃] at herased
    have hstep' : ∀ (s : WorkerState S M) (a : WorkerAction S M) (s' : WorkerState S M),
        (s.device.registry.Inv ∧ Erased s.device p ∧
          (s.device.handshake p).state ≠ .initiationConsumed) →
        (a.IsHandshake ∧ NoSession c p s a) → s.step c a = some s' →
        s'.device.registry.Inv ∧ Erased s'.device p ∧
          (s'.device.handshake p).state ≠ .initiationConsumed :=
      fun s a s' h ha hs' =>
        ⟨step_inv hs' h.1, (step_pending ha.1 hs').erased h.1 ha.2 h.2.1 h.2.2⟩
    exact (runFrom_invariant_along hstep' ⟨hinv₃, herased.1, by rw [herased.2]; decide⟩
      ((along_of_forall hbs).and hsession') hafter).2.1

def symbolicWorkers : WorkerState ℕ Term :=
  { device := NoiseDevice.symbolicDevice, worker := fun _ => .idle, accepted := [], ephemerals := []
    derived := [], sent := [] }

theorem symbolicWorkers_start : symbolicWorkers.Start :=
  ⟨symbolicDevice_fresh, rfl, fun _ => rfl, rfl, rfl, rfl, rfl⟩

/-- Thread 0 has responded to an initiation of peer 2, and derives the keys while thread 1 is
between the two sections of `ZeroAndFlushAll`. -/
def lateSession : List (WorkerAction ℕ Term) :=
  [.checkInitiation 0 NoiseDevice.partnerInitiation 0, .commitInitiation 0 0,
    .createMessageResponse 0 30 0 [5], .zeroKeypairs 1 2, .beginSymmetricSession 0 0,
    .zeroHandshake 1]

/-- The peer that was stopped keeps a keypair, and an index. -/
theorem session_survives_stop :
    ∃ s, symbolicWorkers.Start ∧ runFrom (step symbolic) symbolicWorkers lateSession = some s ∧
      s.worker 0 = .idle ∧ s.worker 1 = .idle ∧ (s.device.keypairs 2).next = some 0 ∧
      s.device.indexTable 5 = some (.ofKeypair 2 0) := by
  have hrun : (runFrom (step symbolic) symbolicWorkers lateSession).map (fun s =>
      (s.worker 0, s.worker 1, (s.device.keypairs 2).next, s.device.indexTable 5)) =
      some (.idle, .idle, some 0, some (.ofKeypair 2 0)) := by decide +kernel
  obtain ⟨s, hs, hvalues⟩ := map_eq_some_iff.mp hrun
  simp only [Prod.mk.injEq] at hvalues
  exact ⟨s, symbolicWorkers_start, hs, hvalues⟩

/-- When the session comes after both sections, it finds no keys. -/
theorem stopped_peer_erased_late :
    ∃ s s₁ s₃ s₄, runFrom (step symbolic) symbolicWorkers (lateSession.take 3) = some s ∧
      s.step symbolic (.zeroKeypairs 1 2) = some s₁ ∧
      s₁.step symbolic (.zeroHandshake 1) = some s₃ ∧
      runFrom (step symbolic) s₃ [.beginSymmetricSession 0 0] = some s₄ ∧ Erased s₄.device 2 := by
  have hrun : ∃ s s₁ s₃ s₄, runFrom (step symbolic) symbolicWorkers (lateSession.take 3) = some s ∧
      s.step symbolic (.zeroKeypairs 1 2) = some s₁ ∧
      s₁.step symbolic (.zeroHandshake 1) = some s₃ ∧
      runFrom (step symbolic) s₃ [.beginSymmetricSession 0 0] = some s₄ ∧
      (s₃.device.handshake 2).state = .zeroed := by
    have heval : ((runFrom (step symbolic) symbolicWorkers (lateSession.take 3)).bind fun s =>
        (s.step symbolic (.zeroKeypairs 1 2)).bind fun s₁ =>
        (s₁.step symbolic (.zeroHandshake 1)).bind fun s₃ =>
        (runFrom (step symbolic) s₃ [.beginSymmetricSession 0 0]).map fun _ =>
          (s₃.device.handshake 2).state) = some .zeroed := by decide +kernel
    obtain ⟨s, hs, heval⟩ := bind_eq_some_iff.mp heval
    obtain ⟨s₁, hs₁, heval⟩ := bind_eq_some_iff.mp heval
    obtain ⟨s₃, hs₃, heval⟩ := bind_eq_some_iff.mp heval
    obtain ⟨s₄, hs₄, hstate⟩ := map_eq_some_iff.mp heval
    exact ⟨s, s₁, s₃, s₄, hs, hs₁, hs₃, hs₄, hstate⟩
  obtain ⟨s, s₁, s₃, s₄, hs, hs₁, hs₃, hs₄, hstate⟩ := hrun
  refine ⟨s, s₁, s₃, s₄, hs, hs₁, hs₃, hs₄, ?_⟩
  have hbetween : runFrom (step symbolic) s₁ [] = some s₁ := rfl
  refine (stopped_peer_erased_iff symbolicWorkers_start hs hs₁ hbetween (forall_mem_nil _) hs₃
    hs₄ ?_).mpr ⟨trivial, ?_, fun _ _ => trivial⟩
  · simp [WorkerAction.IsHandshake]
  · intro w now _ _
    simp [Handshake.deriveKeys, hstate]

end WorkerState

end AmneziaWG.Device
