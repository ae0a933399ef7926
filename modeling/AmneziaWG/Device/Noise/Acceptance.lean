import AmneziaWG.Device.Noise.Workers

/-!
# How Often an Initiation Is Accepted

`ConsumeMessageInitiation` compares the timestamp of an initiation with `lastTimestamp` under the
read lock, and acts on the comparison under the write lock.  The update advances `lastTimestamp`
only when the timestamp is still after it, but it accepts the initiation in any case.

## Main results

- `accepted_once_iff`: over all runs, accepted timestamps increase in the order of the updates
  exactly when at every update the timestamp is still after `lastTimestamp`.
- `initiation_accepted_twice`: two threads check the same initiation before one of them accepts it.
-/

namespace AmneziaWG.Device

open AmneziaWG.Lib List Option BitVec Function

variable {S M : Type}

namespace NoiseDevice

/-! ## §1 What the sections leave alone -/

/-- Two devices open an initiation in the same way. -/
structure SameIdentity (d d' : NoiseDevice S M) : Prop where
  privateKey : d'.privateKey = d.privateKey
  publicKey : d'.publicKey = d.publicKey
  lookupPeer : d'.lookupPeer = d.lookupPeer
  isRunning : ∀ p, (d'.peer p).isRunning = (d.peer p).isRunning
  precomputed : ∀ p,
    (d'.handshake p).precomputedStaticStatic = (d.handshake p).precomputedStaticStatic

theorem SameIdentity.refl (d : NoiseDevice S M) : SameIdentity d d :=
  ⟨rfl, rfl, rfl, fun _ => rfl, fun _ => rfl⟩

theorem SameIdentity.trans {d d' d'' : NoiseDevice S M} (h : SameIdentity d d')
    (h' : SameIdentity d' d'') : SameIdentity d d'' where
  privateKey := h'.privateKey.trans h.privateKey
  publicKey := h'.publicKey.trans h.publicKey
  lookupPeer := h'.lookupPeer.trans h.lookupPeer
  isRunning p := (h'.isRunning p).trans (h.isRunning p)
  precomputed p := (h'.precomputed p).trans (h.precomputed p)

theorem openInitiation_congr {c : Primitives S M} {d d' : NoiseDevice S M} (h : SameIdentity d d')
    (msg : MessageInitiation M) : d'.openInitiation c msg = d.openInitiation c msg := by
  simp only [openInitiation, Handshake.openTimestamp, h.privateKey, h.publicKey, h.lookupPeer,
    h.isRunning, h.precomputed]

/-- The identity and all last timestamps are the same. -/
structure Kept (d d' : NoiseDevice S M) : Prop extends SameIdentity d d' where
  lastTimestamp : ∀ p, (d'.handshake p).lastTimestamp = (d.handshake p).lastTimestamp

section

variable (d : NoiseDevice S M)

theorem Kept.trans {d d' d'' : NoiseDevice S M} (h : Kept d d') (h' : Kept d' d'') : Kept d d'' :=
  ⟨h.toSameIdentity.trans h'.toSameIdentity,
    fun p => (h'.lastTimestamp p).trans (h.lastTimestamp p)⟩

theorem kept_tables (table : IndexTable) (keypair : ℕ → Keypair M) (n : ℕ) :
    Kept d { d with indexTable := table, keypair := keypair, nextKeypair := n } :=
  ⟨⟨rfl, rfl, rfl, fun _ => rfl, fun _ => rfl⟩, fun _ => rfl⟩

theorem sameIdentity_setHandshake {p : ℕ} {h : Handshake S M}
    (hpre : h.precomputedStaticStatic = (d.handshake p).precomputedStaticStatic) :
    SameIdentity d (d.setHandshake p h) where
  privateKey := rfl
  publicKey := rfl
  lookupPeer := rfl
  isRunning q := by
    by_cases hqp : q = p
    · subst hqp; simp [setHandshake]
    · simp [setHandshake, hqp]
  precomputed q := by
    rw [handshake_setHandshake]
    split_ifs with hqp
    · rw [hpre, hqp]
    · rfl

theorem kept_setHandshake {p : ℕ} {h : Handshake S M}
    (hpre : h.precomputedStaticStatic = (d.handshake p).precomputedStaticStatic)
    (hlast : h.lastTimestamp = (d.handshake p).lastTimestamp) : Kept d (d.setHandshake p h) := by
  refine ⟨sameIdentity_setHandshake d hpre, fun q => ?_⟩
  rw [handshake_setHandshake]
  split_ifs with hqp
  · rw [hlast, hqp]
  · rfl

theorem kept_setKeypairs (p : ℕ) (ks : Keypairs) : Kept d (d.setKeypairs p ks) := by
  have hhandshake := handshake_setKeypairs d p
  refine ⟨⟨rfl, rfl, rfl, fun q => ?_, fun q => by rw [hhandshake]⟩, fun q => by rw [hhandshake]⟩
  by_cases hqp : q = p
  · subst hqp; simp [setKeypairs]
  · simp [setKeypairs, hqp]

theorem kept_foldl_deleteKeypair (keys : List (Option ℕ)) :
    Kept d (keys.foldl deleteKeypair d) := by
  rw [foldl_deleteKeypair]
  exact kept_tables d _ d.keypair d.nextKeypair

theorem kept_rejectKeypair (key : Option ℕ) : Kept d (d.rejectKeypair key) := by
  cases key with
  | none => exact kept_tables d d.indexTable d.keypair d.nextKeypair
  | some k => exact kept_tables d d.indexTable _ d.nextKeypair

end

end NoiseDevice

namespace WorkerState

open NoiseDevice

variable {c : Primitives S M} {s s' : WorkerState S M} {a : WorkerAction S M} {d₀ : NoiseDevice S M}

/-- Only the update of `ConsumeMessageInitiation` changes a last timestamp. -/
theorem Section.kept {d d' : NoiseDevice S M} (h : Section c d d') : Kept d d' := by
  -- every section is made of changes that keep them
  have hsame : Kept d d := kept_tables d d.indexTable d.keypair d.nextKeypair
  have htable : ∀ table, Kept d { d with indexTable := table } :=
    fun table => kept_tables d table d.keypair d.nextKeypair
  cases h with
  | stay => exact hsame
  | @createMessageInitiation peer e typeDraw now draws _ msg hcreate =>
    have hframe :=
      Handshake.createInitiation_frame c (d.handshake peer) d.publicKey e (tai64nStamp now)
    rcases createMessageInitiation_cases hcreate with ⟨-, rfl⟩ | ⟨body, i, -, -, -, rfl⟩
    · exact kept_setHandshake d (by rw [hframe]) (by rw [hframe])
    · refine (htable _).trans (kept_setHandshake _ ?_ ?_)
      · simp only [Handshake.mixHash]
        rw [hframe]
        rfl
      · simp only [Handshake.mixHash]
        rw [hframe]
        rfl
  | createMessageResponse hcreate =>
    rcases createMessageResponse_cases hcreate with ⟨-, rfl, -⟩ | ⟨i, -, -, -, rfl⟩
    · exact hsame
    · refine (htable _).trans (kept_setHandshake _ ?_ ?_)
      · rw [Handshake.createResponse_frame]
        rfl
      · rw [Handshake.createResponse_frame]
        rfl
  | commitResponse pending =>
    unfold NoiseDevice.commitResponse
    exact kept_setHandshake d rfl rfl
  | beginSymmetricSession peer now =>
    -- without keys `BeginSymmetricSession` returns before it writes anything
    cases hkeys : (d.handshake peer).deriveKeys c with
    | none =>
      rw [beginSymmetricSession_none hkeys]
      exact hsame
    | some keys =>
      simp only [NoiseDevice.beginSymmetricSession, hkeys]
      refine (kept_tables d _ _ _).trans (((kept_setHandshake _ ?_ ?_).trans
        (kept_setKeypairs _ peer _)).trans (kept_foldl_deleteKeypair _ _))
      · rfl
      · rfl
  | receivedWithKeypair peer keypair =>
    by_cases hnext : (d.keypairs peer).next = some keypair
    · rw [NoiseDevice.receivedWithKeypair, if_neg (not_not.mpr hnext)]
      exact (kept_setKeypairs d peer _).trans
        (kept_foldl_deleteKeypair _ [(d.keypairs peer).previous])
    · rw [receivedWithKeypair_refused hnext]
      exact hsame
  | expireCurrentKeypairs peer now =>
    unfold NoiseDevice.expireCurrentKeypairs
    refine (htable _).trans (((kept_setHandshake _ ?_ ?_).trans (kept_rejectKeypair _ _)).trans
      (kept_rejectKeypair _ _))
    · rfl
    · rfl
  | zeroKeypairs peer =>
    exact (kept_foldl_deleteKeypair d _).trans (kept_setKeypairs _ peer _)
  | zeroHandshake peer =>
    unfold NoiseDevice.zeroHandshake
    refine (htable _).trans (kept_setHandshake _ ?_ ?_)
    · rfl
    · rfl
  | takeNonce keypair =>
    unfold WorkerState.takeNonce
    simp only []
    split_ifs
    · exact kept_rejectKeypair d (some keypair)
    · exact kept_tables d d.indexTable _ d.nextKeypair

/-! ## §2 The invariant -/

/-- The timestamp of a checked initiation is after the last one at the time of the check. -/
theorem checkInitiation_spec {d : NoiseDevice S M} {msg : MessageInitiation M}
    {now : ℤ} {pending : PendingInitiation M} (h : d.checkInitiation c msg now = some pending) :
    d.openInitiation c pending.msg = some (pending.peer, pending.timestamp, pending.transcript) ∧
      (d.handshake pending.peer).lastTimestamp < pending.timestamp := by
  unfold checkInitiation at h
  split_ifs at h
  cases hopen : d.openInitiation c msg with
  | none => simp [hopen] at h
  | some opened =>
    obtain ⟨peer, timestamp, transcript⟩ := opened
    simp only [hopen] at h
    split_ifs at h with hreplay hflood
    cases h
    exact ⟨hopen, hreplay⟩

/-- A thread behind the check of an initiation was there before, or has just checked it. -/
theorem step_checked (h : s.step c a = some s') {w : ℕ} {pending : PendingInitiation M}
    (hw : s'.worker w = .initiationChecked pending) : s.worker w = .initiationChecked pending ∨
      ∃ msg now, s.device.checkInitiation c msg now = some pending := by
  -- a thread that moves elsewhere is not behind the check
  have hmoved : ∀ (v : ℕ) (x : Worker M), s'.worker = update s.worker v x →
      x ≠ .initiationChecked pending → s.worker w = .initiationChecked pending := by
    intro v x hupdate hx
    rw [hupdate] at hw
    by_cases hwv : w = v
    · subst hwv
      rw [update_self] at hw
      exact absurd hw hx
    · rwa [update_of_ne hwv] at hw
  cases a with
  | createMessageInitiation peer e typeDraw now draws =>
    obtain ⟨⟨d', msg⟩, -, h⟩ := bind_eq_some_iff.mp h
    cases h
    exact .inl hw
  | checkInitiation v msg now =>
    simp only [step] at h
    split at h
    · split at h
      · cases h
        exact .inl hw
      · next checked hcheck =>
        cases h
        -- the one action that takes a thread behind the check
        by_cases hx : checked = pending
        · exact .inr ⟨msg, now, hx ▸ hcheck⟩
        · exact .inl (hmoved v _ rfl (by simpa using hx))
    · cases h
  | checkResponse v msg =>
    simp only [step] at h
    split at h
    · split at h
      · cases h
        exact .inl hw
      · cases h
        exact .inl (hmoved v _ rfl (by simp))
    · cases h
  | createMessageResponse v e typeDraw draws =>
    simp only [step] at h
    split at h
    · obtain ⟨⟨d', msg⟩, -, h⟩ := bind_eq_some_iff.mp h
      cases h
      exact .inl (hmoved v _ rfl (by split_ifs <;> simp))
    · cases h
  | commitInitiation v now | commitResponse v | beginSymmetricSession v now | zeroKeypairs v peer
  | zeroHandshake v =>
    simp only [step] at h
    split at h
    · cases h
      exact .inl (hmoved v _ rfl (by simp))
    · cases h
  | receivedWithKeypair peer keypair | expireCurrentKeypairs peer now =>
    cases h
    exact .inl hw
  | send keypair =>
    simp only [step] at h
    split_ifs at h
    cases h
    exact .inl hw

theorem lastTimestamp_commitInitiation (d : NoiseDevice S M) (pending : PendingInitiation M)
    (now : ℤ) (q : ℕ) : ((d.commitInitiation pending now).handshake q).lastTimestamp =
      if q = pending.peer ∧ (d.handshake q).lastTimestamp < pending.timestamp then pending.timestamp
      else (d.handshake q).lastTimestamp := by
  rw [commitInitiation, handshake_setHandshake]
  by_cases hq : q = pending.peer
  · subst hq
    simp
  · simp [hq]

/-- What every run keeps, from a device `d₀` on. -/
structure AcceptInv (c : Primitives S M) (d₀ : NoiseDevice S M) (s : WorkerState S M) : Prop where
  identity : SameIdentity d₀ s.device
  opened : ∀ pending ∈ s.accepted, ∃ transcript,
    d₀.openInitiation c pending.msg = some (pending.peer, pending.timestamp, transcript)
  checked : ∀ w pending, s.worker w = .initiationChecked pending →
    (∃ transcript,
      d₀.openInitiation c pending.msg = some (pending.peer, pending.timestamp, transcript)) ∧
    (d₀.handshake pending.peer).lastTimestamp < pending.timestamp
  accepted_le : ∀ pending ∈ s.accepted,
    pending.timestamp ≤ (s.device.handshake pending.peer).lastTimestamp
  base_le : ∀ p, (d₀.handshake p).lastTimestamp ≤ (s.device.handshake p).lastTimestamp
  last : ∀ p, (s.device.handshake p).lastTimestamp = (d₀.handshake p).lastTimestamp ∨
    ∃ pending ∈ s.accepted, pending.peer = p ∧
      pending.timestamp = (s.device.handshake p).lastTimestamp

theorem AcceptInv.init (c : Primitives S M) (hidle : ∀ w, s.worker w = .idle)
    (haccepted : s.accepted = []) : AcceptInv c s.device s where
  identity := .refl _
  opened := by simp [haccepted]
  checked w pending hw := by rw [hidle w] at hw; cases hw
  accepted_le := by simp [haccepted]
  base_le _ := BitVec.le_refl _
  last _ := .inl rfl

theorem AcceptInv.checked_step (h : AcceptInv c d₀ s) (hstep : s.step c a = some s') (w : ℕ)
    (pending : PendingInitiation M) (hw : s'.worker w = .initiationChecked pending) : (∃ transcript,
      d₀.openInitiation c pending.msg = some (pending.peer, pending.timestamp, transcript)) ∧
    (d₀.handshake pending.peer).lastTimestamp < pending.timestamp := by
  rcases step_checked hstep hw with hold | ⟨msg, now, hcheck⟩
  · exact h.checked w pending hold
  · obtain ⟨hopen, hlt⟩ := checkInitiation_spec hcheck
    rw [openInitiation_congr h.identity] at hopen
    have hbase := h.base_le pending.peer
    exact ⟨⟨_, hopen⟩, by bv_omega⟩

theorem AcceptInv.step (h : AcceptInv c d₀ s) (hstep : s.step c a = some s') :
    AcceptInv c d₀ s' := by
  have hchecked := h.checked_step hstep
  rcases step_section hstep with ⟨hsection, haccepted⟩ | ⟨w, now, pending, haccepts⟩
  · obtain ⟨hidentity, hlast⟩ := hsection.kept
    refine ⟨h.identity.trans hidentity, haccepted ▸ h.opened, hchecked, ?_, ?_, ?_⟩
    · simpa only [haccepted, hlast] using h.accepted_le
    · simpa only [hlast] using h.base_le
    · simpa only [haccepted, hlast] using h.last
  · have hlast := lastTimestamp_commitInitiation s.device pending now
    rw [← haccepts.device] at hlast
    -- the last timestamp does not go back
    have hmono : ∀ q, (s.device.handshake q).lastTimestamp ≤
        (s'.device.handshake q).lastTimestamp := by
      intro q
      rw [hlast]
      split_ifs with hq
      · exact BitVec.le_of_lt hq.2
      · exact BitVec.le_refl _
    have hnew : pending.timestamp ≤ (s'.device.handshake pending.peer).lastTimestamp := by
      rw [hlast]
      split_ifs with hq
      · exact BitVec.le_refl _
      · exact BitVec.not_lt.mp fun hlt => hq ⟨rfl, hlt⟩
    -- an accepted initiation joins the history, under the timestamp just written
    refine ⟨?_, ?_, hchecked, ?_, fun p => BitVec.le_trans (h.base_le p) (hmono p), ?_⟩
    · rw [haccepts.device]
      unfold commitInitiation
      exact h.identity.trans (sameIdentity_setHandshake _ rfl)
    · intro old hold
      rw [haccepts.accepted, mem_append, mem_singleton] at hold
      rcases hold with hold | rfl
      · exact h.opened old hold
      · exact (h.checked w old haccepts.checked).1
    · intro old hold
      rw [haccepts.accepted, mem_append, mem_singleton] at hold
      rcases hold with hold | rfl
      · exact BitVec.le_trans (h.accepted_le old hold) (hmono _)
      · exact hnew
    · intro p
      rw [hlast]
      split_ifs with hp
      · exact .inr ⟨pending, by simp [haccepts.accepted], hp.1.symm, rfl⟩
      · refine (h.last p).imp id ?_
        rintro ⟨old, hold, hpeer, htimestamp⟩
        exact ⟨old, by simp [haccepts.accepted, hold], hpeer, htimestamp⟩

theorem AcceptInv.run {s₀ : WorkerState S M} {actions : List (WorkerAction S M)}
    (hidle : ∀ w, s₀.worker w = .idle) (haccepted : s₀.accepted = [])
    (hrun : runFrom (WorkerState.step c) s₀ actions = some s) : AcceptInv c s₀.device s :=
  runFrom_invariant (fun _ _ _ h hstep => h.step hstep) (.init c hidle haccepted) hrun

/-! ## §3 All runs -/

def Increasing (s : WorkerState S M) : Prop :=
  s.accepted.Pairwise fun a b => a.peer = b.peer → a.timestamp < b.timestamp

/-- When this action is an update of `ConsumeMessageInitiation`, the timestamp is still after the
last one. -/
def StillAfter (s : WorkerState S M) (a : WorkerAction S M) : Prop :=
  ∀ w now, a = .commitInitiation w now → ∀ pending, s.worker w = .initiationChecked pending →
    pending.timestamp > (s.device.handshake pending.peer).lastTimestamp

theorem Increasing.step (h : s.Increasing) (hinv : AcceptInv c d₀ s) (hafter : s.StillAfter a)
    (hstep : s.step c a = some s') : s'.Increasing := by
  rcases step_section hstep with ⟨-, haccepted⟩ | ⟨w, now, pending, haccepts⟩
  · rwa [Increasing, haccepted]
  · have hlt := hafter w now haccepts.action pending haccepts.checked
    rw [Increasing, haccepts.accepted, pairwise_append]
    refine ⟨h, pairwise_singleton _ _, ?_⟩
    intro old hold new hnew hpeer
    obtain rfl := mem_singleton.mp hnew
    have hle := hinv.accepted_le old hold
    rw [hpeer] at hle
    bv_omega

/-- An update that is too late breaks the order. -/
theorem not_increasing_of_not_stillAfter (hinv : AcceptInv c d₀ s) (hnot : ¬s.StillAfter a)
    (hstep : s.step c a = some s') : ¬s'.Increasing := by
  simp only [StillAfter, not_forall] at hnot
  obtain ⟨w, now, rfl, pending, hw, hle⟩ := hnot
  simp only [step, hw] at hstep
  cases hstep
  intro hincreasing
  rw [Increasing, show (setWorker _ w _).accepted = s.accepted ++ [pending] from rfl,
    pairwise_append] at hincreasing
  have hbase := (hinv.checked w pending hw).2
  rcases hinv.last pending.peer with hlast | ⟨old, hold, hpeer, htimestamp⟩
  · -- nothing has been accepted since the check
    rw [hlast] at hle
    exact hle hbase
  · exact hle (htimestamp ▸ hincreasing.2.2 old hold pending (mem_singleton_self _) hpeer)

theorem accepted_grows {actions : List (WorkerAction S M)}
    (hrun : runFrom (step c) s actions = some s') : s.accepted <+: s'.accepted := by
  have hstep : ∀ (t : WorkerState S M) (a : WorkerAction S M) (t' : WorkerState S M),
      s.accepted <+: t.accepted → t.step c a = some t' → s.accepted <+: t'.accepted := by
    intro t a t' h ht'
    rcases step_section ht' with ⟨-, haccepted⟩ | ⟨w, now, pending, haccepts⟩
    · rwa [haccepted]
    · rw [haccepts.accepted]
      exact h.trans (prefix_append _ _)
  exact runFrom_invariant hstep prefix_rfl hrun

/-- In every run, the accepted timestamps of each peer increase in the order of the updates, and no
message is accepted twice, exactly when every update finds the timestamp still after the last
one. -/
theorem accepted_once_iff {c : Primitives S M} {s₀ s : WorkerState S M}
    {actions : List (WorkerAction S M)} (hidle : ∀ w, s₀.worker w = .idle)
    (haccepted : s₀.accepted = []) (hrun : runFrom (step c) s₀ actions = some s) :
    (s.Increasing ∧ s.accepted.Pairwise fun a b => a.msg ≠ b.msg) ↔
      Along (step c) StillAfter s₀ actions := by
  constructor
  · rintro ⟨hincreasing, -⟩
    by_contra hnot
    obtain ⟨as, a, bs, t, t', rfl, ht, hviolated, ht', hrest⟩ := exists_violation hnot hrun
    refine not_increasing_of_not_stillAfter (.run hidle haccepted ht) hviolated ht' ?_
    exact hincreasing.sublist (accepted_grows hrest).sublist
  · intro hafter
    have hstep : ∀ (t : WorkerState S M) (a : WorkerAction S M) (t' : WorkerState S M),
        (AcceptInv c s₀.device t ∧ t.Increasing) → t.StillAfter a → t.step c a = some t' →
        AcceptInv c s₀.device t' ∧ t'.Increasing :=
      fun t a t' h ha ht' => ⟨h.1.step ht', h.2.step h.1 ha ht'⟩
    obtain ⟨hinv, hincreasing⟩ := runFrom_invariant_along hstep
      ⟨.init c hidle haccepted, by simp [Increasing, haccepted]⟩ hafter hrun
    refine ⟨hincreasing, hincreasing.imp_of_mem ?_⟩
    -- the same message would have the same peer and the same timestamp
    intro a b ha hb hlt heq
    obtain ⟨ta, hopena⟩ := hinv.opened a ha
    obtain ⟨tb, hopenb⟩ := hinv.opened b hb
    rw [heq, hopenb] at hopena
    simp only [some.injEq, Prod.mk.injEq] at hopena
    have := hlt hopena.1.symm
    rw [hopena.2.1] at this
    exact absurd this (BitVec.lt_irrefl _)

/-- A copy that arrives after the update is refused, and the update was in time. -/
theorem accepted_once_copy : ∃ s, runFrom (step symbolic) symbolicWorkers
        [.checkInitiation 0 partnerInitiation 0, .commitInitiation 0 0,
          .checkInitiation 1 partnerInitiation 0] = some s ∧
      Along (step symbolic) StillAfter symbolicWorkers
        [.checkInitiation 0 partnerInitiation 0, .commitInitiation 0 0,
          .checkInitiation 1 partnerInitiation 0] := by
  have hrun : (runFrom (step symbolic) symbolicWorkers
      [.checkInitiation 0 partnerInitiation 0, .commitInitiation 0 0,
        .checkInitiation 1 partnerInitiation 0]).map (fun s => s.accepted.length) = some 1 := by
    decide +kernel
  obtain ⟨s, hs, hlength⟩ := map_eq_some_iff.mp hrun
  obtain ⟨pending, hpending⟩ := length_eq_one_iff.mp hlength
  refine ⟨s, hs, (accepted_once_iff (fun _ => rfl) rfl hs).mp ⟨?_, ?_⟩⟩
  · rw [Increasing, hpending]
    exact pairwise_singleton _ _
  · rw [hpending]
    exact pairwise_singleton _ _

/-- Two threads check the same initiation, and then both accept it. -/
def duplicated : List (WorkerAction ℕ Term) :=
  [.checkInitiation 0 partnerInitiation 0, .checkInitiation 1 partnerInitiation 0,
    .commitInitiation 0 0, .commitInitiation 1 0]

theorem initiation_accepted_twice :
    ∃ s, symbolicWorkers.Start ∧ runFrom (step symbolic) symbolicWorkers duplicated = some s ∧
      s.accepted.map (fun pending => pending.msg) = [partnerInitiation, partnerInitiation] := by
  have hrun : (runFrom (step symbolic) symbolicWorkers duplicated).map
      (fun s => s.accepted.map fun pending => pending.msg) =
      some [partnerInitiation, partnerInitiation] := by decide +kernel
  obtain ⟨s, hs, hmessages⟩ := map_eq_some_iff.mp hrun
  exact ⟨s, symbolicWorkers_start, hs, hmessages⟩

end WorkerState

end AmneziaWG.Device
