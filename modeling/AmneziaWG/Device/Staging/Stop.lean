import AmneziaWG.Device.Staging.Custody

/-!
# A Peer That Stops

The reader's test of `isRunning` and its staging are two steps, and `Stop` may run from its first
step to its last between them.  The container is then staged after the only flush and is never put
back.  Staging while `Stop` is still under way does no harm: the flush comes last.

## Main results

- `step_inv`: every step that stages in time accounts for every object.
- `stopped_peer_holds_nothing`: when no container is staged after `Stop` has returned, a peer that
  was stopped and removed has put back exactly once all that was obtained for it.
- `staged_after_the_flush`: a run in which the container stays.
-/

namespace AmneziaWG.Device.Staging

open AmneziaWG.Lib List Option State

/-! ## §1 Every step keeps the invariant -/

section Steps

variable {s t : State}

theorem State.Inv.flushStagedPackets {inHand : Multiset Resource} (h : s.Inv inHand) :
    (Staging.flushStagedPackets s).pools.Accounts
      ((Staging.flushStagedPackets s).held + inHand) := by
  -- the fold puts back container after container
  have hfold : ∀ (staged : List QueueOutboundElementsContainer) (others : Multiset Resource)
      (p : Pools), p.Accounts (others + heldBy staged) →
      (staged.foldl Pools.putContainer p).Accounts others := by
    intro staged others
    induction staged with
    | nil =>
      intro p hp
      simpa using hp
    | cons c rest ih =>
      intro p hp
      apply ih
      apply Pools.Accounts.putContainer
      rwa [heldBy_cons, add_comm (c.resources : Multiset Resource), ← add_assoc] at hp
  apply hfold s.staged
  have hheld : (Staging.flushStagedPackets s).held + inHand + heldBy s.staged =
      s.held + inHand := by
    simp only [held, Staging.flushStagedPackets, heldBy_nil]
    abel
  rw [hheld]
  exact h.accounts

/-- A flush by a timer, in any phase of `Stop`. -/
theorem State.Inv.flushStaged (h : s.Inv 0) : (Staging.flushStagedPackets s).Inv 0 :=
  ⟨⟨h.shape.running_idle, h.shape.alive, h.shape.drained, h.shape.nil_last, fun _ => rfl⟩,
    h.flushStagedPackets⟩

theorem State.Inv.start (h : s.Inv 0) (hstep : step s .start = some t) : t.Inv 0 := by
  simp only [step] at hstep
  split_ifs at hstep with hguard
  obtain ⟨hidle, -, -, hsender, -⟩ := hguard
  have hempty : s.outbound = [] := h.shape.drained (by simpa using hsender)
  rw [hempty] at hstep
  cases hstep
  refine h.move ⟨fun _ => hidle, ?_, ?_, ?_, ?_⟩ rfl ?_
  · exact fun _ => ⟨rfl, not_mem_nil⟩
  · exact fun hdead => absurd hdead (by simp)
  · exact not_mem_nil
  · exact fun hstopped => absurd hstopped.1 (by simp)
  · simp only [held, hempty]

theorem State.Inv.swap (h : s.Inv 0) (hstep : step s .swap = some t) : t.Inv 0 := by
  simp only [step] at hstep
  split_ifs at hstep with hidle hrunning
  · cases hstep
    refine h.move ⟨?_, ?_, h.shape.drained, h.shape.nil_last, ?_⟩ rfl rfl
    · exact fun hrun => absurd hrun (by simp)
    · exact fun _ => h.shape.alive (Or.inl hrunning)
    · exact fun hstopped => absurd hstopped.2 (by simp)
  · cases hstep
    exact h

theorem State.Inv.signalInbound (h : s.Inv 0) (hstep : step s .signalInbound = some t) :
    t.Inv 0 := by
  simp only [step] at hstep
  split_ifs at hstep with hphase
  cases hstep
  have hidle := h.shape.not_running (by rw [hphase]; decide)
  refine h.move ⟨fun hrun => absurd hrun hidle, ?_, h.shape.drained, h.shape.nil_last, ?_⟩ rfl rfl
  · exact fun _ => h.shape.alive (Or.inr (Or.inl hphase))
  · exact fun hstopped => absurd hstopped.2 (by simp)

/-- The nil is sent to a queue without one, as its last entry. -/
theorem State.Inv.signalOutbound (h : s.Inv 0) (hstep : step s .signalOutbound = some t) :
    t.Inv 0 := by
  simp only [step] at hstep
  split_ifs at hstep with hphase
  cases hstep
  have hidle := h.shape.not_running (by rw [hphase]; decide)
  have halive := h.shape.alive (Or.inr (Or.inr hphase))
  refine h.move ⟨fun hrun => absurd hrun hidle, ?_, ?_, ?_, ?_⟩ rfl ?_
  · rintro (hrun | hswapped | hsignalled)
    · exact absurd hrun hidle
    · exact absurd hswapped (by simp)
    · exact absurd hsignalled (by simp)
  · exact fun hdead => absurd (halive.1.symm.trans hdead) (by decide)
  · simpa using halive.2
  · exact fun hstopped => absurd hstopped.2 (by simp)
  · simp [held, reduceOption_append]

theorem State.Inv.later {phase : Phase} {sendNonce : Option (BitVec 64)} (h : s.Inv 0)
    (hfrom : s.stop ≠ .idle) (hto : phase = .waited ∨ phase = .cleared) :
    { s with stop := phase, sendNonce }.Inv 0 := by
  have hidle := h.shape.not_running hfrom
  refine h.move ⟨fun hrun => absurd hrun hidle, ?_, h.shape.drained, h.shape.nil_last, ?_⟩ rfl rfl
  · rintro (hrun | hphase)
    · exact absurd hrun hidle
    · rcases hto with rfl | rfl <;> simp at hphase
  · rintro ⟨-, hphase⟩
    rcases hto with rfl | rfl <;> cases hphase

theorem State.Inv.flush (h : s.Inv 0) (hstep : step s .flush = some t) : t.Inv 0 := by
  simp only [step] at hstep
  split_ifs at hstep with hphase
  cases hstep
  have hidle := h.shape.not_running (by rw [hphase]; decide)
  refine ⟨⟨fun _ => rfl, ?_, h.shape.drained, h.shape.nil_last, fun _ => rfl⟩, h.flushStagedPackets⟩
  rintro (hrun | hswapped | hsignalled)
  · exact absurd hrun hidle
  · cases hswapped
  · cases hsignalled

theorem State.Inv.gather {i : ℕ} {c : QueueOutboundElementsContainer}
    (h : { s with reader := .gathered c }.Inv 0) (hgather : Staging.gather i s c = some t) :
    t.Inv 0 := by
  unfold Staging.gather at hgather
  split at hgather
  · cases hgather
  · rename_i elem hslot
    obtain ⟨⟨e, pools⟩, hget, heq⟩ := map_eq_some_iff.mp hgather
    cases heq
    refine ⟨h.shape.congr rfl rfl rfl rfl rfl, ?_⟩
    have hgot := h.accounts.newOutboundElement hget
    refine Eq.mp (congrArg _ ?_) hgot
    -- the slot's element goes to the container, the new one to the slot
    have hset := elemResources_set hslot e
    have hjoin : (({ c with elems := c.elems ++ [elem] } :
        QueueOutboundElementsContainer).resources : Multiset Resource) =
        (c.resources : Multiset Resource) + (elemResources [elem] : Multiset Resource) := by
      rw [resources_mk, elemResources_append, ← Multiset.coe_add,
        show (c.resources : Multiset Resource) = _ from resources_mk c.container c.elems]
      abel
    simp only [held, Reader.held, hjoin]
    calc (c.resources : Multiset Resource) + heldBy s.keepalives + heldBy s.staged +
          heldBy s.outbound.reduceOption + (elemResources s.slots : Multiset Resource) + 0 +
          (elemResources [e] : Multiset Resource)
        = (c.resources : Multiset Resource) + heldBy s.keepalives + heldBy s.staged +
          heldBy s.outbound.reduceOption + ((elemResources s.slots : Multiset Resource) +
            (elemResources [e] : Multiset Resource)) := by abel
      _ = (c.resources : Multiset Resource) + heldBy s.keepalives + heldBy s.staged +
          heldBy s.outbound.reduceOption + ((elemResources (s.slots.set i e) : Multiset Resource) +
            (elemResources [elem] : Multiset Resource)) := by rw [hset]
      _ = _ := by abel

theorem State.Inv.lookup {i : ℕ} (h : s.Inv 0) (hstep : step s (.lookup i) = some t) : t.Inv 0 := by
  simp only [step] at hstep
  split_ifs at hstep with hremoved
  split at hstep
  · rename_i hreader
    obtain ⟨⟨container, pools⟩, hget, hgather⟩ := bind_eq_some_iff.mp hstep
    have hnew : { s with pools, reader := .gathered { container, elems := [] } }.Inv 0 := by
      refine ⟨h.shape.congr rfl rfl rfl rfl rfl, ?_⟩
      refine Eq.mp (congrArg _ ?_) (h.accounts.getOutboundElementsContainer hget)
      simp only [held, Reader.held, hreader, resources_mk, elemResources_nil, Multiset.coe_nil]
      abel
    exact State.Inv.gather (s := { s with pools }) hnew hgather
  · rename_i c hreader
    refine State.Inv.gather (h.move (h.shape.congr rfl rfl rfl rfl rfl) rfl ?_) hstep
    simp only [held, hreader]
  · cases hstep

theorem State.Inv.test (h : s.Inv 0) (hstep : step s .test = some t) : t.Inv 0 := by
  simp only [step] at hstep
  split at hstep
  · rename_i c hreader
    split_ifs at hstep with hrunning
    · cases hstep
      refine h.move (h.shape.congr rfl rfl rfl rfl rfl) rfl ?_
      simp only [held, hreader, Reader.held]
    · cases hstep
      have hinHand : { s with reader := .outside }.Inv (0 + (c.resources : Multiset Resource)) := by
        refine h.move (h.shape.congr rfl rfl rfl rfl rfl) rfl ?_
        simp only [held, hreader, Reader.held]
        abel
      exact hinHand.putContainer
  · cases hstep

theorem State.Inv.stage (h : s.Inv 0) (hnot : ¬ s.Stopped) (hstep : step s .stage = some t) :
    t.Inv 0 := by
  simp only [step] at hstep
  split at hstep
  · rename_i c hreader
    cases hstep
    refine State.Inv.stagePackets (h.move (h.shape.congr rfl rfl rfl rfl rfl) rfl ?_) hnot
    simp only [held, hreader, Reader.held]
    abel
  · cases hstep

theorem State.Inv.send {expired : Bool} (h : s.Inv 0) (hstep : step s (.send expired) = some t) :
    t.Inv 0 := by
  simp only [step] at hstep
  split at hstep
  · rename_i hreader
    have houtside : { s with reader := .outside }.Inv 0 := by
      refine h.move (h.shape.congr rfl rfl rfl rfl rfl) rfl ?_
      simp only [held, hreader, Reader.held]
    exact houtside.sendLoop rfl hstep
  · cases hstep

theorem State.Inv.keepalive (h : s.Inv 0) (hstep : step s .keepalive = some t) : t.Inv 0 := by
  simp only [step] at hstep
  split_ifs at hstep with hguard
  obtain ⟨⟨e, pools⟩, helem, hrest⟩ := bind_eq_some_iff.mp hstep
  obtain ⟨⟨container, pools'⟩, hcontainer, heq⟩ := map_eq_some_iff.mp hrest
  cases heq
  refine ⟨h.shape.congr rfl rfl rfl rfl rfl, ?_⟩
  have hgot := (h.accounts.newOutboundElement helem).getOutboundElementsContainer hcontainer
  refine Eq.mp (congrArg _ ?_) hgot
  simp only [held, heldBy_cons, resources_mk]
  abel

theorem State.Inv.stageKeepalive {i : ℕ} (h : s.Inv 0) (hnot : ¬ s.Stopped)
    (hstep : step s (.stageKeepalive i) = some t) : t.Inv 0 := by
  simp only [step] at hstep
  split at hstep
  · cases hstep
  · rename_i c hkeepalive
    have hinHand : { s with keepalives := s.keepalives.eraseIdx i }.Inv
        (0 + (c.resources : Multiset Resource)) := by
      refine h.move (h.shape.congr rfl rfl rfl rfl rfl) rfl ?_
      simp only [held, ← heldBy_eraseIdx hkeepalive]
      abel
    split_ifs at hstep with hroom
    · cases hstep
      refine hinHand.move ((h.shape.restage hnot _).congr rfl rfl rfl rfl rfl) rfl ?_
      simp only [held, heldBy_append, heldBy_cons, heldBy_nil]
      abel
    · cases hstep
      exact hinHand.putContainer

/-- The sender takes the first entry, and exits at the nil, behind which there is none. -/
theorem State.Inv.sequentialSender (h : s.Inv 0) (hsender : s.sender = true)
    (hstep : Staging.sequentialSender s = some t) : t.Inv 0 := by
  unfold Staging.sequentialSender at hstep
  split at hstep
  · cases hstep
  · rename_i rest hout
    cases hstep
    -- the nil is the last entry of the queue, and only `Stop` sends it
    have hrest : rest = [] := by
      have hlast := h.shape.nil_last
      rw [hout] at hlast
      cases rest with
      | nil => rfl
      | cons c rest => simp at hlast
    have hsignalled : ¬ s.Unsignalled := fun hun => by
      have hnone := (h.shape.alive hun).2
      rw [hout] at hnone
      exact hnone mem_cons_self
    subst hrest
    refine h.move ⟨h.shape.running_idle, ?_, fun _ => rfl, not_mem_nil, h.shape.flushed⟩ rfl ?_
    · exact fun hun => absurd hun hsignalled
    · simp [held, hout, reduceOption_cons_of_none]
  · rename_i c rest hout
    split_ifs at hstep with hlocked
    cases hstep
    -- the container leaves the queue, and its elements go back to the pools
    have hinHand : { s with outbound := rest }.Inv (0 + (c.resources : Multiset Resource)) := by
      refine h.move ⟨h.shape.running_idle, ?_, ?_, ?_, h.shape.flushed⟩ rfl ?_
      · intro hun
        have halive := h.shape.alive hun
        rw [hout] at halive
        exact ⟨halive.1, fun hmem => halive.2 (mem_cons_of_mem _ hmem)⟩
      · exact fun hdead => absurd (hsender.symm.trans hdead) (by decide)
      · have hlast := h.shape.nil_last
        rw [hout] at hlast
        cases rest with
        | nil => exact not_mem_nil
        | cons d rest => exact fun hmem => hlast (mem_cons_of_mem _ hmem)
      · simp only [held, hout, reduceOption_cons_of_some, heldBy_cons]
        abel
    exact hinHand.putContainer

/-- Every step that stages in time keeps the invariant. -/
theorem step_inv (h : s.Inv 0) {a : Action} (hcond : StagedInTime s a)
    (hstep : step s a = some t) : t.Inv 0 := by
  -- `StagedInTime` is needed where containers are staged, and nowhere else
  cases a with
  | start => exact h.start hstep
  | swap => exact h.swap hstep
  | signalInbound => exact h.signalInbound hstep
  | signalOutbound => exact h.signalOutbound hstep
  | wait =>
    simp only [step] at hstep
    split_ifs at hstep with hphase
    cases hstep
    exact h.later (by rw [hphase.1]; decide) (Or.inl rfl)
  | clear =>
    simp only [step] at hstep
    split_ifs at hstep with hphase
    cases hstep
    exact h.later (by rw [hphase]; decide) (Or.inr rfl)
  | flush => exact h.flush hstep
  | lookup i => exact h.lookup hstep
  | test => exact h.test hstep
  | stage => exact h.stage (hcond rfl) hstep
  | send expired => exact h.send hstep
  | keepalive => exact h.keepalive hstep
  | stageKeepalive i => exact h.stageKeepalive (hcond rfl) hstep
  | sendStaged expired => exact h.sendLoop rfl hstep
  | flushStaged =>
    cases hstep
    exact h.flushStaged
  | zeroAndFlushAll =>
    cases hstep
    have hcleared : { s with sendNonce := none }.Inv 0 :=
      h.move (h.shape.congr rfl rfl rfl rfl rfl) rfl rfl
    exact hcleared.flushStaged
  | sequentialSender =>
    simp only [step] at hstep
    split_ifs at hstep with hsender
    exact h.sequentialSender hsender hstep
  | otherGet k =>
    obtain ⟨pools, hget, heq⟩ := map_eq_some_iff.mp hstep
    cases heq
    exact ⟨h.shape.congr rfl rfl rfl rfl rfl, h.accounts.otherGet hget⟩
  | otherPut k =>
    obtain ⟨pools, hput, heq⟩ := map_eq_some_iff.mp hstep
    cases heq
    exact ⟨h.shape.congr rfl rfl rfl rfl rfl, h.accounts.otherPut hput⟩
  -- the others touch neither the containers nor what the shape speaks of
  | remove | setUp | keypair =>
    cases hstep
    exact h.move (h.shape.congr rfl rfl rfl rfl rfl) rfl rfl
  | encrypt | sequentialReceiver =>
    simp only [step] at hstep
    split_ifs at hstep
    cases hstep
    exact h.move (h.shape.congr rfl rfl rfl rfl rfl) rfl rfl

end Steps

/-! ## §2 A peer that was stopped and removed -/

theorem fillSlots_accounts {n : ℕ} {p p' : Pools} {held : Multiset Resource}
    {slots : List QueueOutboundElement} (h : p.Accounts held)
    (hfill : fillSlots n p = some (slots, p')) :
    p'.Accounts (held + (elemResources slots : Multiset Resource)) := by
  induction n generalizing p held slots with
  | zero =>
    cases hfill
    simpa using h
  | succ n ih =>
    obtain ⟨⟨e, p₁⟩, hget, hrest⟩ := bind_eq_some_iff.mp hfill
    obtain ⟨⟨slots', p₂⟩, hslots, heq⟩ := map_eq_some_iff.mp hrest
    cases heq
    have hmore := ih (h.newOutboundElement hget) hslots
    rwa [add_assoc, Multiset.coe_add, ← elemResources_cons] at hmore

theorem init_inv {max : BitVec 32} {batchSize : ℕ} {s : State}
    (h : State.init max batchSize = some s) : s.Inv 0 := by
  obtain ⟨⟨slots, pools⟩, hfill, heq⟩ := map_eq_some_iff.mp h
  cases heq
  refine ⟨⟨fun hrun => absurd hrun (by simp), ?_, fun _ => rfl, not_mem_nil, fun _ => rfl⟩, ?_⟩
  · rintro (hrun | hswapped | hsignalled)
    · cases hrun
    · cases hswapped
    · cases hsignalled
  · have haccounts := fillSlots_accounts (Pools.accounts_populate max) hfill
    simpa [held, Reader.held] using haccounts

theorem State.Inv.allPutBack {s : State} (h : s.Inv 0) (hquiet : s.Quiescent) : s.AllPutBack := by
  have hheld : s.held + 0 = (elemResources s.slots : Multiset Resource) := by
    simp only [held, hquiet.reader, hquiet.keepalives, h.shape.flushed hquiet.stopped,
      h.shape.drained hquiet.sender, Reader.held, heldBy_nil, reduceOption_nil, zero_add,
      add_zero]
  have haccounts := h.accounts
  rw [hheld] at haccounts
  exact ⟨fun r hgot hslot => haccounts.balanced.count_put hgot hslot, haccounts.counted⟩

/-- In every run in which no container is staged after `Stop` has returned, a peer that was
stopped and removed has put back exactly once everything that was obtained for it. -/
theorem stopped_peer_holds_nothing {max : BitVec 32} {batchSize : ℕ} {s₀ s : State}
    {actions : List Action} (hinit : State.init max batchSize = some s₀)
    (hcond : Along step StagedInTime s₀ actions) (hrun : runFrom step s₀ actions = some s)
    (hquiet : s.Quiescent) : s.AllPutBack :=
  (runFrom_invariant_along (fun _ _ _ h hc hs => step_inv h hc hs) (init_inv hinit) hcond
    hrun).allPutBack hquiet

/-- A packet that a timer flushes, one that is sent, and one that is staged while `Stop` is under
way. -/
def stagedInTime : List Action :=
  [.start, .lookup 0, .test, .stage, .send false, .flushStaged, .keypair (some 0), .lookup 0, .test,
    .stage, .send false, .encrypt 5, .sequentialSender, .lookup 0, .test, .remove, .swap, .stage,
    .signalInbound, .signalOutbound, .sequentialSender,
    .sequentialReceiver, .wait, .clear, .flush, .send false]

/-- With the bound of the Android build, the pools have regained everything after such a run. -/
theorem stopped_peer_regains_all_packets :
    ∃ s₀ s, State.init 4096 1 = some s₀ ∧ runFrom step s₀ stagedInTime = some s ∧
      s.pools.ledger.put.length = 9 ∧ s.AllPutBack := by
  have hinit : (init 4096 1).isSome = true := by decide +kernel
  obtain ⟨s₀, hs₀⟩ := isSome_iff_exists.mp hinit
  have hrun : ((init 4096 1).bind fun s₀ => (runFrom step s₀ stagedInTime).map fun s =>
      (decide (Along step StagedInTime s₀ stagedInTime), decide s.Quiescent,
        s.pools.ledger.put.length)) = some (true, true, 9) := by decide +kernel
  rw [hs₀] at hrun
  obtain ⟨s, hs, hvalues⟩ := map_eq_some_iff.mp hrun
  simp only [Prod.mk.injEq, decide_eq_true_eq] at hvalues
  obtain ⟨hcond, hquiet, hput⟩ := hvalues
  exact ⟨s₀, s, hs₀, hs, hput, stopped_peer_holds_nothing hs₀ hcond hs hquiet⟩

/-- The reader's test, all of `Stop`, and then the reader's staging. -/
def stagedTooLate : List Action :=
  [.start, .lookup 0, .test, .remove, .swap, .signalInbound, .signalOutbound, .sequentialSender,
    .sequentialReceiver, .wait, .clear, .flush, .stage, .send false]

/-- The container and its message buffer are never put back, and the pool stays one short. -/
theorem staged_after_the_flush :
    ∃ s₀ s, State.init 4096 1 = some s₀ ∧ runFrom step s₀ stagedTooLate = some s ∧ s.Quiescent ∧
      s.staged ≠ [] ∧ s.pools.ledger.put = [] ∧ ¬ s.AllPutBack := by
  have hinit : (init 4096 1).isSome = true := by decide +kernel
  obtain ⟨s₀, hs₀⟩ := isSome_iff_exists.mp hinit
  have hrun : ((init 4096 1).bind fun s₀ => (runFrom step s₀ stagedTooLate).map fun s =>
      decide (s.Quiescent ∧ s.staged ≠ [] ∧ s.pools.ledger.put = [] ∧ s.slots = [⟨3, 4⟩] ∧
        s.pools.others .messageBuffers = 0 ∧ s.pools.pool .messageBuffers = ⟨2, 4096⟩)) =
      some true := by decide +kernel
  rw [hs₀] at hrun
  obtain ⟨s, hs, hvalues⟩ := map_eq_some_iff.mp hrun
  obtain ⟨hquiet, hstaged, hput, hslots, hothers, hpool⟩ := of_decide_eq_true hvalues
  refine ⟨s₀, s, hs₀, hs, hquiet, hstaged, hput, fun hback => ?_⟩
  -- two buffers are out, and the reader's slot has one of them
  have hcount := hback.regained .messageBuffers
  rw [hpool, hothers, hslots] at hcount
  exact absurd (hcount (by decide)) (by decide)

end AmneziaWG.Device.Staging
