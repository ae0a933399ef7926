import AmneziaWG.Lib.Crypto
import AmneziaWG.Lib.Text

/-!
# The Noise Handshake

Embedding of the key schedule of `device/noise-protocol.go` and `device/noise-helpers.go`: what
each of the four handshake functions computes from a `Handshake`, before the index table, the
locks and the keypairs come in.  Functions that can fail return the handshake as it is then,
because the code works on it in place.

Secret keys and byte strings are of arbitrary types, with the primitives as a parameter.  The
random source does not fail.
-/

namespace AmneziaWG.Device

open AmneziaWG.Lib

variable {S M : Type}

/-! ## §1 Key derivation -/

section Derivation

variable (c : Primitives S M)

def noiseConstruction : Bytes := ascii "Noise_IKpsk2_25519_ChaChaPoly_BLAKE2s"

def wgIdentifier : Bytes := ascii "WireGuard v1 zx2c4 Jason@zx2c4.com"

def kdf1 (key input : M) : M :=
  let t0 := c.hmac1 key input
  c.hmac1 t0 (c.text [0x1])

def kdf2 (key input : M) : M × M :=
  let prk := c.hmac1 key input
  let t0 := c.hmac1 prk (c.text [0x1])
  let t1 := c.hmac2 prk t0 (c.text [0x2])
  (t0, t1)

def kdf3 (key input : M) : M × M × M :=
  let prk := c.hmac1 key input
  let t0 := c.hmac1 prk (c.text [0x1])
  let t1 := c.hmac2 prk t0 (c.text [0x2])
  let t2 := c.hmac2 prk t1 (c.text [0x3])
  (t0, t1, t2)

def mixKey (chainKey data : M) : M := kdf1 c chainKey data

def mixHash (hash data : M) : M := c.sum2 hash data

def initialChainKey : M := c.sum (c.text noiseConstruction)

def initialHash : M := mixHash c (initialChainKey c) (c.text wgIdentifier)

def zeroed : M := c.text (List.replicate 32 0)

/-- `sharedSecret`; `none` is `errInvalidPublicKey`. -/
def sharedSecret (sk : S) (pk : M) : Option M :=
  let ss := c.scalarMult sk pk
  if c.isZero ss then none else some ss

/-- `aead.Seal` with `ZeroNonce`. -/
def encryptZero (key plaintext ad : M) : M :=
  c.aead.encrypt key (c.text (List.replicate 12 0)) plaintext ad

/-- `aead.Open` with `ZeroNonce`. -/
def decryptZero (key ciphertext ad : M) : Option M :=
  c.aead.decrypt key (c.text (List.replicate 12 0)) ciphertext ad

/-- The hash and the key derivations are free of collisions; in particular no derived key is the
plain hash that all chains begin with. -/
structure NoCollisions : Prop where
  mixHash : ∀ h d h' d', mixHash c h d = mixHash c h' d' → h = h' ∧ d = d'
  chainKey : ∀ k i k' i', kdf1 c k i = kdf1 c k' i' → k = k' ∧ i = i'
  initialChainKey : ∀ k i, kdf1 c k i ≠ initialChainKey c
  key : ∀ k i k' i', (kdf2 c k i).2 = (kdf2 c k' i').2 → k = k' ∧ i = i'
  pskKey : ∀ k i k' i', (kdf3 c k i).2.2 = (kdf3 c k' i').2.2 → k = k' ∧ i = i'

end Derivation

theorem symbolic_noCollisions : NoCollisions symbolic where
  mixHash _ _ _ _ heq := Term.sum2.inj heq
  chainKey _ _ _ _ heq := Term.hmac1.inj (Term.hmac1.inj heq).1
  initialChainKey _ _ := nofun
  key _ _ _ _ heq := Term.hmac1.inj (Term.hmac2.inj heq).1
  pskKey _ _ _ _ heq := Term.hmac1.inj (Term.hmac2.inj heq).1

/-! ## §2 Messages and state -/

def messageInitiationType : BitVec 32 := 1

def messageResponseType : BitVec 32 := 2

/-- `MessageInitiation`, without the fields that cookies use. -/
structure MessageInitiation (M : Type) where
  type : BitVec 32
  sender : BitVec 32
  ephemeral : M
  static : M
  timestamp : M
  deriving DecidableEq

/-- `MessageResponse`, without the fields that cookies use. -/
structure MessageResponse (M : Type) where
  type : BitVec 32
  sender : BitVec 32
  receiver : BitVec 32
  ephemeral : M
  empty : M
  deriving DecidableEq

inductive HandshakeState where
  | zeroed
  | initiationCreated
  | initiationConsumed
  | responseCreated
  | responseConsumed
  deriving DecidableEq, Repr

/-- `Handshake`.  Times are in nanoseconds; `none` is the zero time. -/
structure Handshake (S M : Type) where
  state : HandshakeState
  hash : M
  chainKey : M
  presharedKey : M
  localEphemeral : S
  localIndex : BitVec 32
  remoteIndex : BitVec 32
  remoteStatic : M
  remoteEphemeral : M
  precomputedStaticStatic : M
  lastTimestamp : BitVec 96
  lastInitiationConsumption : Option ℤ
  lastSentHandshake : Option ℤ

/-- `stamp` of `tai64n`: seconds from a base, and nanoseconds with the low bits cleared.  The
clock is in nanoseconds from the epoch of Unix time. -/
def tai64nStamp (now : ℤ) : BitVec 96 :=
  let secs : BitVec 64 := 0x400000000000000a + BitVec.ofInt 64 (now / 10 ^ 9)
  let nano : BitVec 32 := BitVec.ofInt 32 (now % 10 ^ 9) &&& ~~~(0x1000000 - 1)
  secs ++ nano

/-- The fields of an initiation that the key schedule gives. -/
structure InitiationBody (M : Type) where
  ephemeral : M
  static : M
  timestamp : M

/-- The fields of a response that the key schedule gives. -/
structure ResponseBody (M : Type) where
  ephemeral : M
  empty : M

structure SessionKeys (M : Type) where
  send : M
  receive : M
  isInitiator : Bool

/-- A transcript: the hash and the chain key so far. -/
structure Transcript (M : Type) where
  hash : M
  chainKey : M
  deriving DecidableEq

namespace Handshake

def mixHash (c : Primitives S M) (h : Handshake S M) (data : M) : Handshake S M :=
  { h with hash := Device.mixHash c h.hash data }

def mixKey (c : Primitives S M) (h : Handshake S M) (data : M) : Handshake S M :=
  { h with chainKey := Device.mixKey c h.chainKey data }

def clear (c : Primitives S M) (h : Handshake S M) : Handshake S M :=
  { h with
    localEphemeral := c.zeroSecret, remoteEphemeral := zeroed c, chainKey := zeroed c
    hash := zeroed c, localIndex := 0, state := .zeroed }

def transcript (h : Handshake S M) : Transcript M := ⟨h.hash, h.chainKey⟩

/-! ## §3 The initiation -/

/-- `CreateMessageInitiation` up to the choice of an index. -/
def createInitiation (c : Primitives S M) (h : Handshake S M) (publicKey : M) (ephemeral : S)
    (timestamp : BitVec 96) : Handshake S M × Option (InitiationBody M) :=
  let h := { h with
    hash := initialHash c, chainKey := initialChainKey c, localEphemeral := ephemeral }
  let h := h.mixHash c h.remoteStatic
  let msgEphemeral := c.publicKey h.localEphemeral
  let h := h.mixKey c msgEphemeral
  let h := h.mixHash c msgEphemeral
  -- encrypt static key
  match sharedSecret c h.localEphemeral h.remoteStatic with
  | none => (h, none)
  | some ss =>
    let (chainKey, key) := kdf2 c h.chainKey ss
    let h := { h with chainKey }
    let static := encryptZero c key publicKey h.hash
    let h := h.mixHash c static
    -- encrypt timestamp
    if c.isZero h.precomputedStaticStatic then (h, none)
    else
      let (chainKey, key) := kdf2 c h.chainKey h.precomputedStaticStatic
      let h := { h with chainKey }
      let msgTimestamp := encryptZero c key (c.ofTimestamp timestamp) h.hash
      (h, some { ephemeral := msgEphemeral, static, timestamp := msgTimestamp })

end Handshake

/-- `ConsumeMessageInitiation` up to the lookup of the peer: the static key of the sender. -/
def openStatic (c : Primitives S M) (privateKey : S) (publicKey : M) (msg : MessageInitiation M) :
    Option (M × Transcript M) := do
  let hash := mixHash c (initialHash c) publicKey
  let hash := mixHash c hash msg.ephemeral
  let chainKey := mixKey c (initialChainKey c) msg.ephemeral
  -- decrypt static key
  let ss ← sharedSecret c privateKey msg.ephemeral
  let (chainKey, key) := kdf2 c chainKey ss
  let peerPK ← decryptZero c key msg.static hash
  let hash := mixHash c hash msg.static
  return (peerPK, { hash, chainKey })

namespace Handshake

/-- `ConsumeMessageInitiation` from the lookup on: the timestamp. -/
def openTimestamp (c : Primitives S M) (h : Handshake S M) (t : Transcript M)
    (msg : MessageInitiation M) : Option (BitVec 96 × Transcript M) := do
  -- verify identity
  if c.isZero h.precomputedStaticStatic then none
  else do
    let (chainKey, key) := kdf2 c t.chainKey h.precomputedStaticStatic
    let timestamp ← decryptZero c key msg.timestamp t.hash
    let hash := Device.mixHash c t.hash msg.timestamp
    return (c.toTimestamp timestamp, { hash, chainKey })

/-! ## §4 The response -/

/-- `CreateMessageResponse` behind the choice of an index. -/
def createResponse (c : Primitives S M) (h : Handshake S M) (ephemeral : S) :
    Handshake S M × Option (ResponseBody M) :=
  let h := { h with localEphemeral := ephemeral }
  let msgEphemeral := c.publicKey h.localEphemeral
  let h := h.mixHash c msgEphemeral
  let h := h.mixKey c msgEphemeral
  match sharedSecret c h.localEphemeral h.remoteEphemeral with
  | none => (h, none)
  | some ss =>
    let h := h.mixKey c ss
    match sharedSecret c h.localEphemeral h.remoteStatic with
    | none => (h, none)
    | some ss =>
      let h := h.mixKey c ss
      -- add preshared key
      let (chainKey, tau, key) := kdf3 c h.chainKey h.presharedKey
      let h := { h with chainKey }
      let h := h.mixHash c tau
      let empty := encryptZero c key (c.text []) h.hash
      let h := h.mixHash c empty
      ({ h with state := .responseCreated }, some { ephemeral := msgEphemeral, empty })

/-- The read-locked part of `ConsumeMessageResponse`. -/
def openResponse (c : Primitives S M) (h : Handshake S M) (privateKey : S)
    (msg : MessageResponse M) : Option (Transcript M) :=
  if h.state ≠ .initiationCreated then none
  else do
    -- finish 3-way DH
    let hash := Device.mixHash c h.hash msg.ephemeral
    let chainKey := Device.mixKey c h.chainKey msg.ephemeral
    let ss ← sharedSecret c h.localEphemeral msg.ephemeral
    let chainKey := Device.mixKey c chainKey ss
    let ss ← sharedSecret c privateKey msg.ephemeral
    let chainKey := Device.mixKey c chainKey ss
    -- add preshared key (psk)
    let (chainKey, tau, key) := kdf3 c chainKey h.presharedKey
    let hash := Device.mixHash c hash tau
    -- authenticate transcript
    let _ ← decryptZero c key msg.empty hash
    let hash := Device.mixHash c hash msg.empty
    return { hash, chainKey }

/-! ## §5 The session -/

/-- The keys that `BeginSymmetricSession` derives, and whether this side is the initiator; `none` is
the error of a state without keys. -/
def deriveKeys (c : Primitives S M) (h : Handshake S M) : Option (SessionKeys M) :=
  match h.state with
  | .responseConsumed =>
    let (sendKey, recvKey) := kdf2 c h.chainKey (c.text [])
    some { send := sendKey, receive := recvKey, isInitiator := true }
  | .responseCreated =>
    let (recvKey, sendKey) := kdf2 c h.chainKey (c.text [])
    some { send := sendKey, receive := recvKey, isInitiator := false }
  | _ => none

/-- The handshake after its keys have been taken. -/
def spend (c : Primitives S M) (h : Handshake S M) : Handshake S M :=
  { h with
    chainKey := zeroed c, hash := zeroed c, localEphemeral := c.zeroSecret, state := .zeroed
    localIndex := 0 }

/-! ## §6 What the functions leave alone -/

/-- `CreateMessageInitiation` changes the transcript and the ephemeral key of the handshake, and
nothing else. -/
theorem createInitiation_frame (c : Primitives S M) (h : Handshake S M) (publicKey : M) (e : S)
    (ts : BitVec 96) :
    (h.createInitiation c publicKey e ts).1 =
      { h with
        hash := (h.createInitiation c publicKey e ts).1.hash
        chainKey := (h.createInitiation c publicKey e ts).1.chainKey
        localEphemeral := e } := by
  cases hss : sharedSecret c e h.remoteStatic with
  | none => simp only [createInitiation, mixHash, mixKey, hss]
  | some ss =>
    cases hz : c.isZero h.precomputedStaticStatic with
    | true => simp only [createInitiation, mixHash, mixKey, hss, hz, if_true]
    | false => simp [createInitiation, mixHash, mixKey, hss, hz]

theorem createResponse_frame (c : Primitives S M) (h : Handshake S M) (e : S) :
    (h.createResponse c e).1 =
      { h with
        hash := (h.createResponse c e).1.hash, chainKey := (h.createResponse c e).1.chainKey
        localEphemeral := e
        state := if (h.createResponse c e).2.isSome then .responseCreated else h.state } := by
  cases hss : sharedSecret c e h.remoteEphemeral with
  | none => simp [createResponse, mixHash, mixKey, hss]
  | some ss =>
    cases hss' : sharedSecret c e h.remoteStatic with
    | none => simp [createResponse, mixHash, mixKey, hss, hss']
    | some ss' => simp [createResponse, mixHash, mixKey, hss, hss']

end Handshake

end AmneziaWG.Device
