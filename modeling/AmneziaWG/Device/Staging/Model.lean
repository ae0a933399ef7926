import AmneziaWG.Device.Pools
import AmneziaWG.Device.Keypair
import AmneziaWG.Lib.Transition

/-!
# Staged Packets

The path of an outbound container through one peer: the TUN reader looks the peer up, gathers
packets, tests `isRunning` and stages the container; `SendStagedPackets` moves it to the outbound
queue or puts it back; the sequential sender puts it back after sending (`device/send.go`).
Beside it run `Start` and `Stop` of the peer (`device/peer.go`), one step of `Stop` at a time, the
timers that flush (`device/timers.go`), and the other callers of `SendStagedPackets` and
`SendKeepalive`.

## Main definitions

- `sendStagedPackets`, `stagePackets`, `flushStagedPackets`: the functions of the source.
- `Action`, `step`: the atomic steps of all threads.
- `State.Quiescent`, `State.AllPutBack`: a peer that was stopped and removed, and what it is then
  expected to have put back.
-/

namespace AmneziaWG.Device.Staging

open AmneziaWG.Lib

/-! ## §1 The state -/

/-- The capacity of `queue.staged`: `conn.IdealBatchSize`. -/
def queueStagedSize : ℕ := 128

/-- Where the TUN reader is in an iteration, as far as it concerns the peer. -/
inductive Reader where
  | outside
  /-- A container for the peer is in `elemsByPeer`. -/
  | gathered (c : QueueOutboundElementsContainer)
  /-- `peer.isRunning` was true. -/
  | running (c : QueueOutboundElementsContainer)
  /-- The container was staged; `SendStagedPackets` comes next. -/
  | staged
  deriving DecidableEq, Repr

/-- Where `Stop` is; `idle` when nobody holds `peer.state`. -/
inductive Phase where
  | idle
  | swapped
  | inboundSignalled
  | outboundSignalled
  | waited
  | cleared
  deriving DecidableEq, Repr

/-- The peer, the TUN reader and the pools.  A send to the inbound, outbound or encryption queue
that finds no room waits for the receiving routine, which takes from the front, so these queues
have no bound here; `staged` is only sent to without waiting, and its capacity counts. -/
structure State where
  isRunning : Bool
  /-- The peer is gone from the table of allowed IPs. -/
  removed : Bool
  isUp : Bool
  /-- The counter of the current keypair; `none` when there is no keypair. -/
  sendNonce : Option (BitVec 64)
  staged : List QueueOutboundElementsContainer
  /-- `none` is the nil that tells the sender to exit. -/
  outbound : List (Option QueueOutboundElementsContainer)
  /-- Containers that are locked until an encryption worker is done with them. -/
  encryption : List ℕ
  /-- The nil is in the inbound queue. -/
  inboundNil : Bool
  /-- `RoutineSequentialSender` has not exited. -/
  sender : Bool
  /-- `RoutineSequentialReceiver` has not exited. -/
  receiver : Bool
  reader : Reader
  /-- The reader's own `elems`, one for each packet of a batch. -/
  slots : List QueueOutboundElement
  /-- Containers of `SendKeepalive` calls that passed the test and have not staged yet. -/
  keepalives : List QueueOutboundElementsContainer
  stop : Phase
  pools : Pools

/-- The loop `elems[i] = device.NewOutboundElement()` at the start of the reader. -/
def fillSlots : ℕ → Pools → Option (List QueueOutboundElement × Pools)
  | 0, p => some ([], p)
  | n + 1, p =>
    p.newOutboundElement.bind fun (e, p) =>
      (fillSlots n p).map fun (slots, p) => (e :: slots, p)

/-- A new peer, and a reader that has filled its slots; `none` while it waits for a pool. -/
def State.init (max : BitVec 32) (batchSize : ℕ) : Option State :=
  (fillSlots batchSize (Pools.populate max)).map fun (slots, pools) =>
    { isRunning := false, removed := false, isUp := true, sendNonce := none, staged := [],
      outbound := [], encryption := [], inboundNil := false, sender := false, receiver := false,
      reader := .outside, slots, keepalives := [], stop := .idle, pools }

/-! ## §2 The functions of the source -/

/-- The loop of `StagePackets`: while there is no room, the oldest container is put back. -/
def stageLoop (c : QueueOutboundElementsContainer) :
    List QueueOutboundElementsContainer → Pools → List QueueOutboundElementsContainer × Pools
  | [], p => ([c], p)
  | tooOld :: rest, p =>
    if (tooOld :: rest).length < queueStagedSize then (tooOld :: rest ++ [c], p)
    else stageLoop c rest (p.putContainer tooOld)

def stagePackets (c : QueueOutboundElementsContainer) (s : State) : State :=
  let (staged, pools) := stageLoop c s.staged s.pools
  { s with staged, pools }

def flushStagedPackets (s : State) : State :=
  { s with staged := [], pools := s.staged.foldl Pools.putContainer s.pools }

/-- `ZeroAndFlushAll`, as far as it concerns staged packets. -/
def zeroAndFlushAll (s : State) : State :=
  flushStagedPackets { s with sendNonce := none }

/-- The loop over the elements of a container in `SendStagedPackets`: the counter after it, the
elements that keep their place and those that came too late for the keypair. -/
def assignNonces :
    BitVec 64 → List QueueOutboundElement →
      BitVec 64 × List QueueOutboundElement × List QueueOutboundElement
  | sendNonce, [] => (sendNonce, [], [])
  | sendNonce, e :: es =>
    let added := sendNonce + 1
    if added - 1 ≥ rejectAfterMessages then
      let (after, kept, late) := assignNonces rejectAfterMessages es
      (after, kept, e :: late)
    else
      let (after, kept, late) := assignNonces added es
      (after, e :: kept, late)

/-- What `SendStagedPackets` does with a container whose elements have their nonces. -/
def deliver (c : QueueOutboundElementsContainer) (s : State) : State :=
  if c.elems = [] then { s with pools := s.pools.putOutboundElementsContainer c }
  else if s.isRunning then
    { s with outbound := s.outbound ++ [some c], encryption := s.encryption ++ [c.container] }
  else { s with pools := s.pools.putContainer c }

/-- The loop of `SendStagedPackets` over `queue.staged`; `top` says that an iteration begins at
the label, where the keypair is looked at (`expired`: it is older than `RejectAfterTime`). -/
def sendLoop (expired : Bool) : Bool → List QueueOutboundElementsContainer → State → Option State
  | _, [], s => some s
  | top, c :: rest, s =>
    match s.sendNonce with
    | none => some s
    | some nonce =>
      if top ∧ (¬ s.isUp ∨ nonce ≥ rejectAfterMessages ∨ expired) then some s
      else
        match assignNonces nonce c.elems with
        | (after, kept, []) =>
          sendLoop expired kept.isEmpty rest
            (deliver { c with elems := kept } { s with sendNonce := some after, staged := rest })
        | (after, kept, late) =>
          -- the container that is staged again is followed by `goto top`, and the counter is then
          -- at the limit
          s.pools.getOutboundElementsContainer.map fun (container, pools) =>
            deliver { c with elems := kept }
              (stagePackets { container, elems := late }
                { s with sendNonce := some after, staged := rest, pools })

/-- `SendStagedPackets`; `none` while it waits for a container. -/
def sendStagedPackets (expired : Bool) (s : State) : Option State :=
  sendLoop expired true s.staged s

/-- `flushOutboundQueue`, which waits for locked containers and does not expect a nil. -/
def flushOutboundQueue (locked : List ℕ) :
    List (Option QueueOutboundElementsContainer) → Pools → Option Pools
  | [], p => some p
  | none :: _, _ => none
  | some c :: rest, p =>
    if c.container ∈ locked then none else flushOutboundQueue locked rest (p.putContainer c)

/-- One iteration of `RoutineSequentialSender`. -/
def sequentialSender (s : State) : Option State :=
  match s.outbound with
  | [] => none
  -- the nil of `Stop`
  | none :: rest => some { s with sender := false, outbound := rest }
  | some c :: rest =>
    -- the lock of the container is held until it is encrypted
    if c.container ∈ s.encryption then none
    else some { s with outbound := rest, pools := s.pools.putContainer c }

/-- One packet of a batch that is for the peer: the element of its slot goes into the peer's
container, and the slot gets a new element. -/
def gather (i : ℕ) (s : State) (c : QueueOutboundElementsContainer) : Option State :=
  match s.slots[i]? with
  | none => none
  | some elem =>
    s.pools.newOutboundElement.map fun (e, pools) =>
      { s with
        reader := .gathered { c with elems := c.elems ++ [elem] }
        slots := s.slots.set i e
        pools }

/-! ## §3 Steps -/

/-- The atomic steps of all threads. -/
inductive Action where
  | start
  /-- The steps of `Stop`, up to the two of `ZeroAndFlushAll`. -/
  | swap
  | signalInbound
  | signalOutbound
  | wait
  | clear
  | flush
  /-- `allowedips.RemoveByPeer`. -/
  | remove
  /-- The steps of `RoutineReadFromTUN`: a packet of slot `i` is for the peer, the test of
  `isRunning`, `StagePackets` and `SendStagedPackets`. -/
  | lookup (i : ℕ)
  | test
  | stage
  | send (expired : Bool)
  /-- `SendKeepalive`: its test, and the `select` that stages its container. -/
  | keepalive
  | stageKeepalive (i : ℕ)
  /-- `SendStagedPackets` by any other routine. -/
  | sendStaged (expired : Bool)
  /-- `FlushStagedPackets` by `expiredRetransmitHandshake`. -/
  | flushStaged
  /-- `ZeroAndFlushAll` by `expiredZeroKeyMaterial`.  With steps of others between its two parts it
  is `keypair none` and then `flushStaged`. -/
  | zeroAndFlushAll
  | encrypt (container : ℕ)
  | sequentialSender
  | sequentialReceiver
  | setUp (isUp : Bool)
  /-- The current keypair is replaced, or its counter is changed. -/
  | keypair (sendNonce : Option (BitVec 64))
  | otherGet (k : Pool)
  | otherPut (k : Pool)
  deriving DecidableEq, Repr

/-- One step; `none` when it is not enabled, or waits. -/
def step (s : State) : Action → Option State
  | .start =>
    if s.stop = .idle ∧ ¬ s.removed ∧ ¬ s.isRunning ∧ ¬ s.sender ∧ ¬ s.receiver ∧
        ¬ s.inboundNil then
      (flushOutboundQueue s.encryption s.outbound s.pools).map fun pools =>
        { s with outbound := [], pools, sender := true, receiver := true, isRunning := true }
    else none
  | .swap =>
    if s.stop = .idle then
      -- a peer that is not running is left as it is
      if s.isRunning then some { s with isRunning := false, stop := .swapped } else some s
    else none
  | .signalInbound =>
    if s.stop = .swapped then some { s with inboundNil := true, stop := .inboundSignalled }
    else none
  | .signalOutbound =>
    if s.stop = .inboundSignalled then
      some { s with outbound := s.outbound ++ [none], stop := .outboundSignalled }
    else none
  | .wait =>
    if s.stop = .outboundSignalled ∧ ¬ s.sender ∧ ¬ s.receiver then some { s with stop := .waited }
    else none
  | .clear => if s.stop = .waited then some { s with sendNonce := none, stop := .cleared } else none
  | .flush => if s.stop = .cleared then some { flushStagedPackets s with stop := .idle } else none
  | .remove => some { s with removed := true }
  | .lookup i =>
    -- without its routes the peer is not found
    if s.removed then none
    else
      match s.reader with
      | .outside =>
        s.pools.getOutboundElementsContainer.bind fun (container, pools) =>
          gather i { s with pools } { container, elems := [] }
      | .gathered c => gather i s c
      | _ => none
  | .test =>
    match s.reader with
    | .gathered c =>
      if s.isRunning then some { s with reader := .running c }
      else some { s with reader := .outside, pools := s.pools.putContainer c }
    | _ => none
  | .stage =>
    match s.reader with
    | .running c => some (stagePackets c { s with reader := .staged })
    | _ => none
  | .send expired =>
    match s.reader with
    | .staged => sendStagedPackets expired { s with reader := .outside }
    | _ => none
  | .keepalive =>
    if s.staged = [] ∧ s.isRunning then
      s.pools.newOutboundElement.bind fun (e, pools) =>
        pools.getOutboundElementsContainer.map fun (container, pools) =>
          { s with keepalives := { container, elems := [e] } :: s.keepalives, pools }
    else none
  | .stageKeepalive i =>
    match s.keepalives[i]? with
    | none => none
    | some c =>
      let s := { s with keepalives := s.keepalives.eraseIdx i }
      if s.staged.length < queueStagedSize then some { s with staged := s.staged ++ [c] }
      -- the default of the `select`
      else some { s with pools := s.pools.putContainer c }
  | .sendStaged expired => sendStagedPackets expired s
  | .flushStaged => some (flushStagedPackets s)
  | .zeroAndFlushAll => some (zeroAndFlushAll s)
  | .encrypt container =>
    if container ∈ s.encryption then
      some { s with encryption := s.encryption.erase container }
    else none
  | .sequentialSender => if s.sender then sequentialSender s else none
  | .sequentialReceiver =>
    if s.receiver ∧ s.inboundNil then some { s with receiver := false, inboundNil := false }
    else none
  | .setUp isUp => some { s with isUp }
  | .keypair sendNonce => some { s with sendNonce }
  | .otherGet k => (s.pools.otherGet k).map fun pools => { s with pools }
  | .otherPut k => (s.pools.otherPut k).map fun pools => { s with pools }

/-- The peer is not running and no `Stop` is under way. -/
def State.Stopped (s : State) : Prop :=
  s.isRunning = false ∧ s.stop = .idle

instance (s : State) : Decidable s.Stopped :=
  inferInstanceAs (Decidable (_ ∧ _))

/-- The peer was stopped and removed, its routines have exited, and nobody is about to stage a
container for it. -/
structure State.Quiescent (s : State) : Prop where
  stopped : s.Stopped
  removed : s.removed = true
  sender : s.sender = false
  receiver : s.receiver = false
  reader : s.reader = .outside
  keepalives : s.keepalives = []

instance (s : State) : Decidable s.Quiescent :=
  decidable_of_iff (s.Stopped ∧ s.removed = true ∧ s.sender = false ∧ s.receiver = false ∧
      s.reader = .outside ∧ s.keepalives = [])
    ⟨fun ⟨h₁, h₂, h₃, h₄, h₅, h₆⟩ => ⟨h₁, h₂, h₃, h₄, h₅, h₆⟩,
      fun h => ⟨h.stopped, h.removed, h.sender, h.receiver, h.reader, h.keepalives⟩⟩

/-- Everything but the reader's own elements was put back exactly once, and the pools with a bound
count only those elements and what others hold. -/
structure State.AllPutBack (s : State) : Prop where
  once : ∀ r ∈ s.pools.ledger.got, r ∉ elemResources s.slots →
    (s.pools.ledger.put : Multiset Resource).count r = 1
  regained : ∀ k, (s.pools.pool k).Out
    (s.pools.others k + Pools.heldOf (elemResources s.slots) k)

/-- The steps that send a container to `queue.staged` after a test of `isRunning`. -/
def Action.stages : Action → Bool
  | .stage => true
  | .stageKeepalive _ => true
  | _ => false

/-- Containers are staged before `Stop` returns. -/
def StagedInTime (s : State) (a : Action) : Prop :=
  a.stages = true → ¬ s.Stopped

instance (s : State) (a : Action) : Decidable (StagedInTime s a) :=
  inferInstanceAs (Decidable (_ → _))

end AmneziaWG.Device.Staging
