import AmneziaWG.Device.Keypair
import AmneziaWG.Lib.Transition
import Mathlib.Data.Finset.Card

/-!
# Nonces Near the Limit

The nonce counter of one keypair under concurrent `SendStagedPackets` (`device/send.go`) and
`ExpireCurrentKeypairs` (`device/peer.go`).  The counter is a 64-bit atomic that wraps.  A sender
takes a nonce with `Add(1) - 1`; when the nonce is not below `RejectAfterMessages` the packet is
not queued, and the sender puts the counter back with a `Store` of its own, before it takes
another nonce.

Between the two atomics of a sender others may take theirs, so the counter can go beyond the
limit, by at most one for each sender that still has to store.

## Main results

- `nonces_distinct`: queued nonces are distinct and below the limit, and the counter does not
  wrap, with up to 8192 senders at a time.
-/

namespace AmneziaWG.Device

open AmneziaWG.Lib List BitVec Nat

/-! ## §1 Senders -/

/-- How many senders may be in `SendStagedPackets` at a time. -/
def maxSenders : ℕ := 8192

/-- The counter of a keypair, the senders in `SendStagedPackets`, those of them that still have
to store, and the nonces of the packets that were queued for encryption. -/
structure SendState (W : Type) where
  sendNonce : BitVec 64
  senders : Finset W
  late : Finset W
  queued : List (BitVec 64)

inductive SendAction (W : Type) where
  | enter (w : W)
  | leave (w : W)
  /-- `elem.nonce = keypair.sendNonce.Add(1) - 1`, and the comparison with the limit. -/
  | add (w : W)
  /-- `keypair.sendNonce.Store(RejectAfterMessages)` after a nonce that was too large. -/
  | store (w : W)
  /-- The store of `ExpireCurrentKeypairs`. -/
  | expire

namespace SendState

variable {W : Type} [DecidableEq W]
variable {s s' : SendState W}

def init : SendState W :=
  { sendNonce := 0, senders := ∅, late := ∅, queued := [] }

/-- One action; `none` when it is not enabled. -/
def step (s : SendState W) : SendAction W → Option (SendState W)
  | .enter w =>
    if w ∉ s.senders ∧ s.senders.card < maxSenders then
      some { s with senders := insert w s.senders }
    else none
  | .leave w =>
    if w ∈ s.senders ∧ w ∉ s.late then some { s with senders := s.senders.erase w } else none
  | .add w =>
    if w ∈ s.senders ∧ w ∉ s.late then
      let sendNonce := s.sendNonce + 1
      let nonce := sendNonce - 1
      if nonce ≥ rejectAfterMessages then some { s with sendNonce, late := insert w s.late }
      else some { s with sendNonce, queued := s.queued ++ [nonce] }
    else none
  | .store w =>
    if w ∈ s.late then
      some { s with sendNonce := rejectAfterMessages, late := s.late.erase w }
    else none
  | .expire => some { s with sendNonce := rejectAfterMessages }

/-! ## §2 The invariant -/

/-- The counter exceeds the limit by no more than the number of senders that have to store. -/
structure Inv (s : SendState W) : Prop where
  late_subset : s.late ⊆ s.senders
  senders_le : s.senders.card ≤ maxSenders
  overshoot : s.sendNonce.toNat ≤ rejectAfterMessages.toNat + s.late.card
  queued_lt : ∀ n ∈ s.queued, n.toNat < s.sendNonce.toNat ∧ n < rejectAfterMessages
  queued_nodup : s.queued.Nodup

theorem rejectAfterMessages_toNat : rejectAfterMessages.toNat = 2 ^ 64 - 2 ^ 13 - 1 := by decide

omit [DecidableEq W] in
/-- A sender that may take a nonce leaves room for one more below the wrap. -/
theorem Inv.add_toNat (h : s.Inv) {w : W} (hw : w ∈ s.senders) (hlate : w ∉ s.late) :
    (s.sendNonce + 1).toNat = s.sendNonce.toNat + 1 := by
  have hlt : s.late.card < s.senders.card :=
    Finset.card_lt_card ⟨h.late_subset, fun hsub => hlate (hsub hw)⟩
  have hmax := h.senders_le
  have hover := h.overshoot
  rw [rejectAfterMessages_toNat] at hover
  unfold maxSenders at hmax
  rw [toNat_add]
  exact mod_eq_of_lt (by show s.sendNonce.toNat + 1 < 2 ^ 64; omega)

omit [DecidableEq W] in
/-- Storing the limit keeps every queued nonce below the counter. -/
theorem Inv.queued_lt_limit (h : s.Inv) :
    ∀ n ∈ s.queued, n.toNat < rejectAfterMessages.toNat ∧ n < rejectAfterMessages :=
  fun n hn => ⟨lt_def.mp (h.queued_lt n hn).2, (h.queued_lt n hn).2⟩

omit [DecidableEq W] in
theorem init_inv : (init : SendState W).Inv where
  late_subset := Finset.empty_subset _
  senders_le := zero_le _
  overshoot := zero_le _
  queued_lt := by simp [init]
  queued_nodup := nodup_nil

theorem Inv.add (h : s.Inv) {w : W} (hw : w ∈ s.senders) (hlate : w ∉ s.late)
    (hstep : s.step (.add w) = some s') : s'.Inv := by
  have hnext := h.add_toNat hw hlate
  have hnonce : s.sendNonce + 1 - 1 = s.sendNonce := add_sub_cancel _ _
  have hover := h.overshoot
  simp only [step, if_pos (And.intro hw hlate), hnonce] at hstep
  split_ifs at hstep with hlimit
  · -- one more sender has to store
    cases hstep
    refine ⟨Finset.insert_subset hw h.late_subset, h.senders_le, ?_, ?_, h.queued_nodup⟩
    · show (s.sendNonce + 1).toNat ≤ rejectAfterMessages.toNat + (insert w s.late).card
      rw [hnext, Finset.card_insert_of_notMem hlate]
      omega
    · intro n hn
      have hlt := h.queued_lt n hn
      exact ⟨by show n.toNat < (s.sendNonce + 1).toNat; omega, hlt.2⟩
  · -- the nonce is larger than all that were queued
    cases hstep
    have hbelow : s.sendNonce < rejectAfterMessages := BitVec.not_le.mp hlimit
    have hbelow' : s.sendNonce.toNat < rejectAfterMessages.toNat := lt_def.mp hbelow
    refine ⟨h.late_subset, h.senders_le, ?_, ?_, ?_⟩
    · show (s.sendNonce + 1).toNat ≤ rejectAfterMessages.toNat + s.late.card
      omega
    · intro n hn
      show n.toNat < (s.sendNonce + 1).toNat ∧ _
      rcases mem_append.mp hn with hold | hnew
      · have hlt := h.queued_lt n hold
        exact ⟨by omega, hlt.2⟩
      · rw [mem_singleton.mp hnew]
        exact ⟨by omega, hbelow⟩
    · rw [nodup_append]
      refine ⟨h.queued_nodup, nodup_singleton _, ?_⟩
      intro n hn m hm heq
      have hlt := (h.queued_lt n hn).1
      rw [heq, mem_singleton.mp hm] at hlt
      exact lt_irrefl _ hlt

theorem Inv.step (h : s.Inv) {a : SendAction W} (hstep : s.step a = some s') : s'.Inv := by
  cases a with
  | enter w =>
    simp only [SendState.step] at hstep
    split_ifs at hstep with henter
    cases hstep
    refine ⟨h.late_subset.trans (Finset.subset_insert _ _), ?_, h.overshoot, h.queued_lt,
      h.queued_nodup⟩
    show (insert w s.senders).card ≤ maxSenders
    rw [Finset.card_insert_of_notMem henter.1]
    exact henter.2
  -- a sender that still has to store the limit does not leave
  | leave w =>
    simp only [SendState.step] at hstep
    split_ifs at hstep with hleave
    cases hstep
    refine ⟨?_, ?_, h.overshoot, h.queued_lt, h.queued_nodup⟩
    · intro v hv
      refine Finset.mem_erase.mpr ⟨?_, h.late_subset hv⟩
      rintro rfl
      exact hleave.2 hv
    · exact (Finset.card_erase_le).trans h.senders_le
  | add w =>
    have henabled : w ∈ s.senders ∧ w ∉ s.late := by
      by_contra hnot
      simp [SendState.step, hnot] at hstep
    exact h.add henabled.1 henabled.2 hstep
  -- the limit is below every counter that a sender has seen too late
  | store w =>
    simp only [SendState.step] at hstep
    split_ifs at hstep
    cases hstep
    exact ⟨(Finset.erase_subset _ _).trans h.late_subset, h.senders_le, le_add_right _ _,
      h.queued_lt_limit, h.queued_nodup⟩
  | expire =>
    cases hstep
    exact ⟨h.late_subset, h.senders_le, le_add_right _ _, h.queued_lt_limit, h.queued_nodup⟩

theorem Inv.counter_le (h : s.Inv) {a : SendAction W} (hstep : s.step a = some s') :
    min s.sendNonce.toNat rejectAfterMessages.toNat ≤ s'.sendNonce.toNat := by
  cases a with
  | add w =>
    have henabled : w ∈ s.senders ∧ w ∉ s.late := by
      by_contra hnot
      simp [SendState.step, hnot] at hstep
    have hcounter : s'.sendNonce = s.sendNonce + 1 := by
      simp only [SendState.step, if_pos henabled] at hstep
      split_ifs at hstep <;> cases hstep <;> rfl
    rw [hcounter, h.add_toNat henabled.1 henabled.2]
    exact (min_le_left _ _).trans (le_succ _)
  | enter w | leave w =>
    simp only [SendState.step] at hstep
    split_ifs at hstep
    cases hstep
    exact min_le_left _ _
  | store w =>
    simp only [SendState.step] at hstep
    split_ifs at hstep
    cases hstep
    exact min_le_right _ _
  | expire =>
    cases hstep
    exact min_le_right _ _

/-! ## §3 All runs -/

/-- After any run the queued nonces are distinct and below the limit, and no further action makes
the counter wrap. -/
theorem nonces_distinct {actions : List (SendAction W)} {s : SendState W}
    (hrun : runFrom step init actions = some s) :
    s.queued.Nodup ∧ (∀ n ∈ s.queued, n < rejectAfterMessages) ∧ ∀ a s', s.step a = some s' →
        min s.sendNonce.toNat rejectAfterMessages.toNat ≤ s'.sendNonce.toNat := by
  have h : s.Inv := runFrom_invariant (fun _ _ _ hinv => hinv.step) init_inv hrun
  exact ⟨h.queued_nodup, fun n hn => (h.queued_lt n hn).2, fun a s' => h.counter_le⟩

/-- Two senders, and an expiry between them: the second nonce is beyond the limit. -/
theorem nonces_distinct_expired : ∃ s, runFrom step (init : SendState ℕ)
        [.enter 0, .enter 1, .add 0, .expire, .add 1, .store 1] = some s ∧
      s.queued = [0] ∧ s.queued.Nodup := by
  have hrun : ∃ s, runFrom step (init : SendState ℕ)
      [.enter 0, .enter 1, .add 0, .expire, .add 1, .store 1] = some s ∧ s.queued = [0] := by
    refine ⟨_, rfl, ?_⟩
    decide
  obtain ⟨s, hs, hqueued⟩ := hrun
  exact ⟨s, hs, hqueued, (nonces_distinct hs).1⟩

end SendState

end AmneziaWG.Device
