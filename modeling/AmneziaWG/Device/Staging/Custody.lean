import AmneziaWG.Device.Staging.Model
import Mathlib.Data.List.ReduceOption

/-!
# Who Holds a Container

Every object that was obtained and not put back is in one place: with the TUN reader, with a call of
`SendKeepalive`, in one of the queues of the peer, or in the hands of the thread that is moving it.
The rules below move a container from one place to the next; `SendStagedPackets` is put together
from them.

## Main results

- `State.Inv.stagePackets`, `State.Inv.deliver`, `State.Inv.putContainer`: the rules.
- `State.Inv.sendLoop`: `SendStagedPackets` loses nothing and puts nothing back twice.
-/

namespace AmneziaWG.Device.Staging

open AmneziaWG.Lib List Option

/-! ## §1 What is held, and the shape of the queues -/

def heldBy (cs : List QueueOutboundElementsContainer) : Multiset Resource :=
  (cs.flatMap QueueOutboundElementsContainer.resources : List Resource)

def Reader.held : Reader → Multiset Resource
  | .outside | .staged => 0
  | .gathered c | .running c => c.resources

/-- The objects that the reader, the calls of `SendKeepalive` and the queues of the peer hold. -/
def State.held (s : State) : Multiset Resource :=
  s.reader.held + heldBy s.keepalives + heldBy s.staged + heldBy s.outbound.reduceOption +
    (elemResources s.slots : Multiset Resource)

/-- The nil is not yet in the outbound queue of a peer that was started. -/
def State.Unsignalled (s : State) : Prop :=
  s.isRunning = true ∨ s.stop = .swapped ∨ s.stop = .inboundSignalled

/-- What holds of the queues apart from their contents: the sender exits at the nil, which is the
last entry, and nothing is staged for a peer whose `Stop` has returned. -/
structure State.Shape (s : State) : Prop where
  running_idle : s.isRunning = true → s.stop = .idle
  alive : s.Unsignalled → s.sender = true ∧ none ∉ s.outbound
  drained : s.sender = false → s.outbound = []
  nil_last : none ∉ s.outbound.dropLast
  flushed : s.Stopped → s.staged = []

/-- The invariant while a thread has some objects in its hands. -/
structure State.Inv (s : State) (inHand : Multiset Resource) : Prop where
  shape : s.Shape
  accounts : s.pools.Accounts (s.held + inHand)

@[simp]
theorem heldBy_nil : heldBy [] = 0 :=
  rfl

@[simp]
theorem heldBy_cons (c : QueueOutboundElementsContainer)
    (cs : List QueueOutboundElementsContainer) :
    heldBy (c :: cs) = (c.resources : Multiset Resource) + heldBy cs := by
  simp [heldBy]

@[simp]
theorem heldBy_append (cs cs' : List QueueOutboundElementsContainer) :
    heldBy (cs ++ cs') = heldBy cs + heldBy cs' := by
  simp [heldBy]

theorem resources_mk (container : ℕ) (elems : List QueueOutboundElement) :
    ((QueueOutboundElementsContainer.mk container elems).resources : Multiset Resource) =
      (elemResources elems : Multiset Resource) + {(.outboundElementsContainer, container)} := by
  simp [QueueOutboundElementsContainer.resources, ← Multiset.coe_add]

theorem heldBy_eraseIdx {cs : List QueueOutboundElementsContainer} {i : ℕ}
    {c : QueueOutboundElementsContainer} (h : cs[i]? = some c) :
    heldBy (cs.eraseIdx i) + (c.resources : Multiset Resource) = heldBy cs := by
  induction cs generalizing i with
  | nil => simp at h
  | cons d cs ih =>
    cases i with
    | zero =>
      cases h
      rw [eraseIdx_cons_zero, heldBy_cons, add_comm]
    | succ i =>
      rw [eraseIdx_cons_succ, heldBy_cons, heldBy_cons, ← ih h, add_assoc]

theorem elemResources_set {slots : List QueueOutboundElement} {i : ℕ}
    {elem : QueueOutboundElement} (h : slots[i]? = some elem) (e : QueueOutboundElement) :
    (elemResources (slots.set i e) : Multiset Resource) +
      (elemResources [elem] : Multiset Resource) =
      (elemResources slots : Multiset Resource) + (elemResources [e] : Multiset Resource) := by
  induction slots generalizing i with
  | nil => simp at h
  | cons d slots ih =>
    cases i with
    | zero =>
      cases h
      rw [set_cons_zero, elemResources_cons e, elemResources_cons elem slots,
        ← Multiset.coe_add, ← Multiset.coe_add]
      abel
    | succ i =>
      rw [set_cons_succ, elemResources_cons d (slots.set i e), elemResources_cons d slots,
        ← Multiset.coe_add, ← Multiset.coe_add, add_assoc, ih h, add_assoc]

/-! ## §2 Rules for moving objects -/

section Rules

variable {s t : State} {inHand : Multiset Resource}
variable {c : QueueOutboundElementsContainer}

theorem State.Shape.congr (h : s.Shape) (hrunning : t.isRunning = s.isRunning)
    (hstop : t.stop = s.stop) (hsender : t.sender = s.sender) (hout : t.outbound = s.outbound)
    (hstaged : t.staged = s.staged) : t.Shape := by
  refine ⟨?_, ?_, ?_, ?_, ?_⟩
  · rw [hrunning, hstop]
    exact h.running_idle
  · unfold State.Unsignalled
    rw [hrunning, hstop, hsender, hout]
    exact h.alive
  · rw [hsender, hout]
    exact h.drained
  · rw [hout]
    exact h.nil_last
  · unfold State.Stopped
    rw [hrunning, hstop, hstaged]
    exact h.flushed

theorem State.Shape.not_running (h : s.Shape) (hstop : s.stop ≠ .idle) : s.isRunning ≠ true :=
  fun hrun => hstop (h.running_idle hrun)

/-- Nothing is in the queue of staged containers once `Stop` has returned. -/
theorem State.Shape.not_stopped (h : s.Shape)
    {rest : List QueueOutboundElementsContainer} (hstaged : s.staged = c :: rest) :
    ¬ s.Stopped := by
  intro hstopped
  rw [h.flushed hstopped] at hstaged
  cases hstaged

theorem State.Shape.restage (h : s.Shape) (hnot : ¬ s.Stopped)
    (staged : List QueueOutboundElementsContainer) : { s with staged }.Shape :=
  ⟨h.running_idle, h.alive, h.drained, h.nil_last, fun hstopped => absurd hstopped hnot⟩

/-- A thread that only moves objects between its hands and the state. -/
theorem State.Inv.move {inHand' : Multiset Resource} (h : s.Inv inHand) (hshape : t.Shape)
    (hpools : t.pools = s.pools) (hheld : t.held + inHand' = s.held + inHand) : t.Inv inHand' :=
  ⟨hshape, by rw [hpools, hheld]; exact h.accounts⟩

/-- A container in hand is put back. -/
theorem State.Inv.putContainer (h : s.Inv (inHand + (c.resources : Multiset Resource))) :
    { s with pools := s.pools.putContainer c }.Inv inHand := by
  refine ⟨h.shape.congr rfl rfl rfl rfl rfl, Pools.Accounts.putContainer ?_⟩
  show s.pools.Accounts (s.held + inHand + _)
  rw [add_assoc]
  exact h.accounts

theorem State.Inv.unstage
    {rest : List QueueOutboundElementsContainer} {sendNonce : Option (BitVec 64)} (h : s.Inv inHand)
    (hstaged : s.staged = c :: rest) :
    { s with sendNonce, staged := rest }.Inv (inHand + (c.resources : Multiset Resource)) := by
  have hnot := h.shape.not_stopped hstaged
  refine h.move ((h.shape.restage hnot rest).congr rfl rfl rfl rfl rfl) rfl ?_
  simp only [State.held, hstaged, heldBy_cons]
  abel

/-- The loop of `StagePackets` changes nothing but where the containers are. -/
theorem stageLoop_accounts (c : QueueOutboundElementsContainer) (others : Multiset Resource)
    (staged : List QueueOutboundElementsContainer) {p : Pools}
    (h : p.Accounts (others + heldBy staged + (c.resources : Multiset Resource))) :
    (stageLoop c staged p).2.Accounts (others + heldBy (stageLoop c staged p).1) := by
  induction staged generalizing p with
  | nil => simpa [stageLoop] using h
  | cons tooOld rest ih =>
    unfold stageLoop
    split_ifs with hroom
    · simpa [add_assoc] using h
    · -- the oldest one is put back, and the loop goes on with one container less
      apply ih
      apply Pools.Accounts.putContainer
      have hheld : others + heldBy rest + (c.resources : Multiset Resource) +
          (tooOld.resources : Multiset Resource) =
          others + heldBy (tooOld :: rest) + (c.resources : Multiset Resource) := by
        rw [heldBy_cons]
        abel
      rwa [hheld]

/-- A container in hand is staged. -/
theorem State.Inv.stagePackets
    (h : s.Inv (inHand + (c.resources : Multiset Resource))) (hnot : ¬ s.Stopped) :
    (Staging.stagePackets c s).Inv inHand := by
  refine ⟨(h.shape.restage hnot _).congr rfl rfl rfl rfl rfl, ?_⟩
  have hbefore : s.held + (inHand + (c.resources : Multiset Resource)) =
      s.reader.held + heldBy s.keepalives + heldBy s.outbound.reduceOption +
        (elemResources s.slots : Multiset Resource) + inHand + heldBy s.staged +
        (c.resources : Multiset Resource) := by
    simp only [State.held]
    abel
  have hafter : (Staging.stagePackets c s).held + inHand =
      s.reader.held + heldBy s.keepalives + heldBy s.outbound.reduceOption +
        (elemResources s.slots : Multiset Resource) + inHand +
        heldBy (stageLoop c s.staged s.pools).1 := by
    simp only [State.held, Staging.stagePackets]
    abel
  rw [hafter]
  apply stageLoop_accounts
  rw [← hbefore]
  exact h.accounts

/-- A container in hand goes to the sequential sender, of a peer that is running, or back. -/
theorem State.Inv.deliver (h : s.Inv (inHand + (c.resources : Multiset Resource))) :
    (Staging.deliver c s).Inv inHand := by
  unfold Staging.deliver
  split_ifs with hempty hrunning
  · have hput : s.pools.putOutboundElementsContainer c = s.pools.putContainer c := by
      simp [Pools.putContainer, hempty, Pools.putAll]
    rw [hput]
    exact h.putContainer
  · have halive := h.shape.alive (Or.inl hrunning)
    refine h.move ⟨h.shape.running_idle, fun _ => ⟨halive.1, ?_⟩, ?_, ?_, h.shape.flushed⟩ rfl ?_
    · simpa using halive.2
    · intro hsender
      exact absurd (halive.1.symm.trans hsender) (by decide)
    · simpa using halive.2
    · simp only [State.held, reduceOption_append, reduceOption_singleton,
        toList_some, heldBy_append, heldBy_cons, heldBy_nil]
      abel
  · exact h.putContainer

end Rules

/-! ## §3 `SendStagedPackets` -/

/-- Every element keeps its place or comes too late. -/
theorem assignNonces_resources (nonce : BitVec 64) (elems : List QueueOutboundElement) :
    (elemResources (assignNonces nonce elems).2.1 : Multiset Resource) +
        (elemResources (assignNonces nonce elems).2.2 : Multiset Resource) =
      (elemResources elems : Multiset Resource) := by
  induction elems generalizing nonce with
  | nil => rfl
  | cons e es ih =>
    unfold assignNonces
    rw [elemResources_cons e es, ← Multiset.coe_add]
    dsimp only
    split_ifs with hlimit
    · rw [← ih rejectAfterMessages, elemResources_cons e, ← Multiset.coe_add]
      abel
    · rw [← ih (nonce + 1), elemResources_cons e, ← Multiset.coe_add]
      abel

@[simp]
theorem deliver_staged (c : QueueOutboundElementsContainer) (s : State) :
    (deliver c s).staged = s.staged := by
  unfold deliver
  split_ifs <;> rfl

/-- One iteration of the loop, with a container in hand whose elements got their nonces. -/
theorem State.Inv.reassign {s : State} {inHand : Multiset Resource}
    {c : QueueOutboundElementsContainer} {nonce : BitVec 64}
    (h : s.Inv (inHand + (c.resources : Multiset Resource))) :
    s.Inv (inHand + (elemResources (assignNonces nonce c.elems).2.2 : Multiset Resource) +
      ({ c with elems := (assignNonces nonce c.elems).2.1 } :
        QueueOutboundElementsContainer).resources) := by
  refine h.move h.shape rfl ?_
  have hsplit := assignNonces_resources nonce c.elems
  rw [resources_mk, show (c.resources : Multiset Resource) = _
    from resources_mk c.container c.elems, ← hsplit]
  abel

theorem State.Inv.sendLoop {expired : Bool} {staged : List QueueOutboundElementsContainer}
    {top : Bool} {s t : State} (h : s.Inv 0) (hstaged : s.staged = staged)
    (hsend : Staging.sendLoop expired top staged s = some t) : t.Inv 0 := by
  induction staged generalizing top s with
  | nil =>
    cases hsend
    exact h
  | cons c rest ih =>
    have hnot := h.shape.not_stopped hstaged
    unfold Staging.sendLoop at hsend
    split at hsend
    · cases hsend
      exact h
    · rename_i nonce hnonce
      split_ifs at hsend with hwait
      · cases hsend
        exact h
      · -- the container leaves the queue and its elements are divided
        have hdivided : ∀ sendNonce, { s with sendNonce, staged := rest }.Inv
            (0 + (elemResources (assignNonces nonce c.elems).2.2 : Multiset Resource) +
              ({ c with elems := (assignNonces nonce c.elems).2.1 } :
                QueueOutboundElementsContainer).resources) :=
          fun _ => (h.unstage hstaged).reassign
        rcases hassign : assignNonces nonce c.elems with ⟨after, kept, late⟩
        rw [hassign] at hsend hdivided
        dsimp only at hsend hdivided
        cases late with
        | nil =>
          refine ih ?_ (deliver_staged _ _) hsend
          exact (hdivided (some after)).deliver
        | cons e late =>
          obtain ⟨⟨container, pools⟩, hget, heq⟩ := map_eq_some_iff.mp hsend
          cases heq
          apply State.Inv.deliver
          rw [zero_add]
          refine State.Inv.stagePackets ?_ hnot
          -- the new container joins the late elements
          have hgot := (hdivided (some after)).accounts.getOutboundElementsContainer hget
          refine ⟨((h.shape.restage hnot rest).congr rfl rfl rfl rfl rfl), ?_⟩
          refine Eq.mp (congrArg _ ?_) hgot
          rw [resources_mk container]
          show { s with sendNonce := some after, staged := rest }.held + _ + _ =
            { s with sendNonce := some after, staged := rest }.held + _
          abel

end AmneziaWG.Device.Staging
