import AmneziaWG.Device.MagicHeader
import AmneziaWG.Device.Keypair
import AmneziaWG.Device.Noise.Handshake

/-!
# Handshakes and Sessions of a Device

Embedding of the handshake functions of `device/noise-protocol.go`, and of `ZeroAndFlushAll` and
`ExpireCurrentKeypairs` of `device/peer.go`.  Each locked section is a function on the whole
device: `ConsumeMessageInitiation` and `ConsumeMessageResponse` are a check under the read lock and
an update under the write lock, `ZeroAndFlushAll` clears the keypairs and then the handshake.

What the code draws at random and what it reads from the clock are arguments.  Keypairs live in a
heap; their pointers are numbers, and a new one gets the next number.
-/

namespace AmneziaWG.Device

open AmneziaWG.Lib

variable {S M : Type}

/-! ## §1 State -/

structure Keypairs where
  current : Option ℕ
  previous : Option ℕ
  next : Option ℕ
  deriving DecidableEq

def Keypairs.none : Keypairs := { current := .none, previous := .none, next := .none }

/-- What the handshake functions use of a `Peer`. -/
structure NoisePeer (S M : Type) where
  isRunning : Bool
  handshake : Handshake S M
  keypairs : Keypairs

/-- What the handshake functions use of a `Device`. -/
structure NoiseDevice (S M : Type) where
  privateKey : S
  publicKey : M
  headers : Headers
  /-- `device.peers.keyMap`. -/
  lookupPeer : M → Option ℕ
  peer : ℕ → NoisePeer S M
  indexTable : IndexTable
  keypair : ℕ → Keypair M
  nextKeypair : ℕ

/-- The peer that `NewPeer` makes, started. -/
def newPeer (c : Primitives S M) (privateKey : S) (pk presharedKey : M) : NoisePeer S M :=
  { isRunning := true
    handshake :=
      { state := .zeroed, hash := zeroed c, chainKey := zeroed c, presharedKey
        localEphemeral := c.zeroSecret, localIndex := 0, remoteIndex := 0
        -- the result of `sharedSecret` is used also when it is zero
        remoteStatic := pk, remoteEphemeral := zeroed c
        precomputedStaticStatic := c.scalarMult privateKey pk
        lastTimestamp := 0, lastInitiationConsumption := none, lastSentHandshake := none }
    keypairs := Keypairs.none }

/-- `HandshakeInitationRate`, in nanoseconds. -/
def handshakeInitiationRate : ℤ := 10 ^ 9 / 50

/-- `RekeyTimeout`, in nanoseconds. -/
def rekeyTimeout : ℤ := 5 * 10 ^ 9

namespace NoiseDevice

def handshake (d : NoiseDevice S M) (peer : ℕ) : Handshake S M := (d.peer peer).handshake

def keypairs (d : NoiseDevice S M) (peer : ℕ) : Keypairs := (d.peer peer).keypairs

def setHandshake (d : NoiseDevice S M) (peer : ℕ) (handshake : Handshake S M) : NoiseDevice S M :=
  { d with peer := Function.update d.peer peer { d.peer peer with handshake } }

def setKeypairs (d : NoiseDevice S M) (peer : ℕ) (keypairs : Keypairs) : NoiseDevice S M :=
  { d with peer := Function.update d.peer peer { d.peer peer with keypairs } }

def deleteKeypair (d : NoiseDevice S M) : Option ℕ → NoiseDevice S M
  | none => d
  | some key => { d with indexTable := d.indexTable.delete (d.keypair key).localIndex }

/-! ## §2 Initiations -/

/-- `CreateMessageInitiation`.  The outer `none` is a panic of `Generate`, or that no free index
has been drawn yet; the inner one is an error. -/
def createMessageInitiation (c : Primitives S M) (d : NoiseDevice S M) (peer : ℕ) (ephemeral : S)
    (typeDraw : ℕ) (now : ℤ) (draws : List (BitVec 32)) :
    Option (NoiseDevice S M × Option (MessageInitiation M)) := do
  let type ← d.headers.init.generate typeDraw
  match (d.handshake peer).createInitiation c d.publicKey ephemeral (tai64nStamp now) with
  | (handshake, none) => return (d.setHandshake peer handshake, none)
  | (handshake, some body) =>
    -- assign index
    let indexTable := d.indexTable.delete handshake.localIndex
    let (sender, indexTable) ← indexTable.newIndexForHandshake peer draws
    let handshake := { handshake with localIndex := sender }
    let handshake := handshake.mixHash c body.timestamp
    let handshake := { handshake with state := .initiationCreated }
    return ({ d with indexTable }.setHandshake peer handshake,
      some { type, sender, ephemeral := body.ephemeral, static := body.static,
             timestamp := body.timestamp })

/-- What `ConsumeMessageInitiation` holds between its two locked sections. -/
structure PendingInitiation (M : Type) where
  peer : ℕ
  msg : MessageInitiation M
  timestamp : BitVec 96
  transcript : Transcript M
  deriving DecidableEq

/-- `time.Since(last) <= HandshakeInitationRate`; the zero time is long ago. -/
def flood (last : Option ℤ) (now : ℤ) : Bool :=
  match last with
  | none => false
  | some last => now - last ≤ handshakeInitiationRate

/-- The peer of an initiation and the timestamp in it, with the transcript. -/
def openInitiation (c : Primitives S M) (d : NoiseDevice S M) (msg : MessageInitiation M) :
    Option (ℕ × BitVec 96 × Transcript M) := do
  let (peerPK, transcript) ← openStatic c d.privateKey d.publicKey msg
  -- lookup peer
  let peer ← d.lookupPeer peerPK
  if (d.peer peer).isRunning then do
    let (timestamp, transcript) ← (d.handshake peer).openTimestamp c transcript msg
    return (peer, timestamp, transcript)
  else none

/-- `ConsumeMessageInitiation` up to the end of its read-locked section. -/
def checkInitiation (c : Primitives S M) (d : NoiseDevice S M) (msg : MessageInitiation M)
    (now : ℤ) :
    Option (PendingInitiation M) :=
  if msg.type ≠ messageInitiationType then none
  else
    match d.openInitiation c msg with
    | none => none
    | some (peer, timestamp, transcript) =>
      -- protect against replay & flood
      let replay := ¬timestamp > (d.handshake peer).lastTimestamp
      if replay then none
      else if flood (d.handshake peer).lastInitiationConsumption now then none
      else some { peer, msg, timestamp, transcript }

/-- The write-locked section of `ConsumeMessageInitiation`. -/
def commitInitiation (d : NoiseDevice S M) (pending : PendingInitiation M) (now : ℤ) :
    NoiseDevice S M :=
  let handshake := d.handshake pending.peer
  let lastTimestamp :=
    if pending.timestamp > handshake.lastTimestamp then pending.timestamp
    else handshake.lastTimestamp
  let lastInitiationConsumption :=
    match handshake.lastInitiationConsumption with
    | none => some now
    | some last => if now > last then some now else some last
  d.setHandshake pending.peer { handshake with
    hash := pending.transcript.hash, chainKey := pending.transcript.chainKey
    remoteIndex := pending.msg.sender, remoteEphemeral := pending.msg.ephemeral
    lastTimestamp, lastInitiationConsumption, state := .initiationConsumed }

/-- `ConsumeMessageInitiation`, undisturbed. -/
def consumeMessageInitiation (c : Primitives S M) (d : NoiseDevice S M) (msg : MessageInitiation M)
    (now : ℤ) : NoiseDevice S M × Option ℕ :=
  match d.checkInitiation c msg now with
  | none => (d, none)
  | some pending => (d.commitInitiation pending now, some pending.peer)

/-! ## §3 Responses -/

/-- `CreateMessageResponse`.  The outer `none` is a panic of `Generate`, or that no free index has
been drawn yet; the inner one is an error. -/
def createMessageResponse (c : Primitives S M) (d : NoiseDevice S M) (peer : ℕ) (ephemeral : S)
    (typeDraw : ℕ) (draws : List (BitVec 32)) :
    Option (NoiseDevice S M × Option (MessageResponse M)) :=
  let handshake := d.handshake peer
  if handshake.state ≠ .initiationConsumed then some (d, none)
  else do
    -- assign index
    let indexTable := d.indexTable.delete handshake.localIndex
    let (sender, indexTable) ← indexTable.newIndexForHandshake peer draws
    let handshake := { handshake with localIndex := sender }
    let type ← d.headers.response.generate typeDraw
    let d := { d with indexTable }
    match handshake.createResponse c ephemeral with
    | (handshake, none) => return (d.setHandshake peer handshake, none)
    | (handshake, some body) =>
      return (d.setHandshake peer handshake,
        some { type, sender, receiver := handshake.remoteIndex, ephemeral := body.ephemeral,
               empty := body.empty })

/-- What `ConsumeMessageResponse` holds between its two locked sections. -/
structure PendingResponse (M : Type) where
  peer : ℕ
  msg : MessageResponse M
  transcript : Transcript M
  deriving DecidableEq

/-- `ConsumeMessageResponse` up to the end of its read-locked section. -/
def checkResponse (c : Primitives S M) (d : NoiseDevice S M) (msg : MessageResponse M) :
    Option (PendingResponse M) :=
  if msg.type ≠ messageResponseType then none
  else
    -- lookup handshake by receiver
    match (d.indexTable.lookup msg.receiver).handshake with
    | none => none
    | some peer => do
      let transcript ← (d.handshake peer).openResponse c d.privateKey msg
      return { peer, msg, transcript }

/-- The write-locked section of `ConsumeMessageResponse`. -/
def commitResponse (d : NoiseDevice S M) (pending : PendingResponse M) : NoiseDevice S M :=
  d.setHandshake pending.peer { d.handshake pending.peer with
    hash := pending.transcript.hash, chainKey := pending.transcript.chainKey
    remoteIndex := pending.msg.sender, state := .responseConsumed }

/-- `ConsumeMessageResponse`, undisturbed. -/
def consumeMessageResponse (c : Primitives S M) (d : NoiseDevice S M) (msg : MessageResponse M) :
    NoiseDevice S M × Option ℕ :=
  match d.checkResponse c msg with
  | none => (d, none)
  | some pending => (d.commitResponse pending, some pending.peer)

/-! ## §4 Sessions -/

/-- The slots behind `BeginSymmetricSession`, and the keypairs that it deletes. -/
def rotate (keypairs : Keypairs) (isInitiator : Bool) (keypair : ℕ) : Keypairs × List (Option ℕ) :=
  let previous := keypairs.previous
  let next := keypairs.next
  let current := keypairs.current
  if isInitiator then
    if next ≠ none then
      ({ next := none, previous := next, current := some keypair }, [current, previous])
    else ({ next, previous := current, current := some keypair }, [previous])
  else ({ next := some keypair, previous := none, current }, [next, previous])

/-- The new keypair of `BeginSymmetricSession`. -/
def newKeypair (handshake : Handshake S M) (keys : SessionKeys M) (now : ℕ) : Keypair M :=
  { sendNonce := 0, send := keys.send, receive := keys.receive
    replayFilter := Replay.Filter.reset { last := 0, ring := fun _ => 0 }
    isInitiator := keys.isInitiator, created := now
    localIndex := handshake.localIndex, remoteIndex := handshake.remoteIndex }

/-- `BeginSymmetricSession`; `false` is the error of a handshake without keys. -/
def beginSymmetricSession (c : Primitives S M) (d : NoiseDevice S M) (peer : ℕ) (now : ℕ) :
    NoiseDevice S M × Bool :=
  let handshake := d.handshake peer
  -- derive keys
  match handshake.deriveKeys c with
  | none => (d, false)
  | some keys =>
    let keypair := d.nextKeypair
    let d := { d with
      keypair := Function.update d.keypair keypair (newKeypair handshake keys now)
      nextKeypair := keypair + 1
      -- remap index
      indexTable := d.indexTable.swapIndexForKeypair handshake.localIndex keypair }
    let d := d.setHandshake peer (handshake.spend c)
    -- rotate key pairs
    let (keypairs, dropped) := rotate (d.keypairs peer) keys.isInitiator keypair
    (dropped.foldl deleteKeypair (d.setKeypairs peer keypairs), true)

def receivedWithKeypair (d : NoiseDevice S M) (peer : ℕ) (receivedKeypair : ℕ) :
    NoiseDevice S M × Bool :=
  let keypairs := d.keypairs peer
  if keypairs.next ≠ some receivedKeypair then (d, false)
  else
    let old := keypairs.previous
    ((d.setKeypairs peer
      { previous := keypairs.current, current := keypairs.next, next := none }).deleteKeypair old,
      true)

/-- `keypair.sendNonce.Store(RejectAfterMessages)`. -/
def rejectKeypair (d : NoiseDevice S M) : Option ℕ → NoiseDevice S M
  | none => d
  | some key =>
    { d with
      keypair := Function.update d.keypair key
        { d.keypair key with sendNonce := rejectAfterMessages } }

def expireCurrentKeypairs (c : Primitives S M) (d : NoiseDevice S M) (peer : ℕ) (now : ℤ) :
    NoiseDevice S M :=
  let handshake := d.handshake peer
  let d := { d with indexTable := d.indexTable.delete handshake.localIndex }
  let d := d.setHandshake peer { handshake.clear c with
    lastSentHandshake := some (now - (rekeyTimeout + 10 ^ 9)) }
  (d.rejectKeypair (d.keypairs peer).current).rejectKeypair (d.keypairs peer).next

/-- The first section of `ZeroAndFlushAll`. -/
def zeroKeypairs (d : NoiseDevice S M) (peer : ℕ) : NoiseDevice S M :=
  let keypairs := d.keypairs peer
  ([keypairs.previous, keypairs.current, keypairs.next].foldl deleteKeypair d).setKeypairs peer
    Keypairs.none

/-- The second section of `ZeroAndFlushAll`. -/
def zeroHandshake (c : Primitives S M) (d : NoiseDevice S M) (peer : ℕ) : NoiseDevice S M :=
  let handshake := d.handshake peer
  { d with indexTable := d.indexTable.delete handshake.localIndex }.setHandshake peer
    (handshake.clear c)

/-- `ZeroAndFlushAll`, undisturbed. -/
def zeroAndFlushAll (c : Primitives S M) (d : NoiseDevice S M) (peer : ℕ) : NoiseDevice S M :=
  (d.zeroKeypairs peer).zeroHandshake c peer

end NoiseDevice

end AmneziaWG.Device
