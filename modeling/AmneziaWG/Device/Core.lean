import AmneziaWG.Device.AllowedIPs.Refinement
import AmneziaWG.Device.MagicHeader
import AmneziaWG.Device.Obf.Chain

/-!
# The Device

The part of `Device` (`device/device.go`) and `Peer` (`device/peer.go`) that is configured:
identity, peers, socket, and the obfuscation parameters, with the operations on them.

The bind, the curve and the parsers of addresses are parameters (`Env`).  A bind and the
operating system behind it are one state `B`, and every call on it may fail.
-/

set_option linter.dupNamespace false

namespace AmneziaWG.Device

open AmneziaWG.Lib

/-! ## §1 State -/

inductive DeviceState where
  | down
  | up
  | closed
  deriving DecidableEq, Repr

/-- The configuration of a peer.  `E` is the type of endpoints. -/
structure Peer (E : Type) where
  remoteStatic : Bytes
  presharedKey : Bytes
  precomputedStaticStatic : Bytes
  endpoint : Option E
  clearSrcOnTx : Bool
  disableRoaming : Bool
  persistentKeepaliveInterval : ℕ
  isRunning : Bool

def zeroKey : Bytes := List.replicate 32 0

/-- `&Peer{}`. -/
def Peer.zero {E : Type} : Peer E :=
  { remoteStatic := zeroKey
    presharedKey := zeroKey
    precomputedStaticStatic := zeroKey
    endpoint := none
    clearSrcOnTx := false
    disableRoaming := false
    persistentKeepaliveInterval := 0
    isRunning := false }

/-- `device.net`.  `receivers` counts the running `RoutineReceiveIncoming` routines. -/
structure Net (B : Type) where
  bind : B
  port : BitVec 16
  fwmark : BitVec 32
  brokenRoaming : Bool
  receivers : ℕ

/-- `device.junk`. -/
structure Junk where
  count : ℤ
  min : ℤ
  max : ℤ
  deriving DecidableEq

/-- `device.paddings`, one for each message type. -/
structure Paddings where
  init : ℤ
  response : ℤ
  cookie : ℤ
  transport : ℤ

def Paddings.get (p : Paddings) : HeaderSlot → ℤ
  | .init => p.init
  | .response => p.response
  | .cookie => p.cookie
  | .transport => p.transport

def Paddings.set (p : Paddings) (slot : HeaderSlot) (v : ℤ) : Paddings :=
  match slot with
  | .init => { p with init := v }
  | .response => { p with response := v }
  | .cookie => { p with cookie := v }
  | .transport => { p with transport := v }

theorem Paddings.get_set (p : Paddings) (slot slot' : HeaderSlot) (v : ℤ) :
    (p.set slot v).get slot' = if slot' = slot then v else p.get slot' := by
  cases slot <;> cases slot' <;> rfl

/-- The configured part of a `Device`.  Peers are pointers: `keyMap` holds the number under
which a peer is stored in `peer`.  `keepalives` records to whom `SendKeepalive` was called. -/
structure Device (B E : Type) where
  state : DeviceState
  net : Net B
  privateKey : Bytes
  publicKey : Bytes
  keyMap : List (Bytes × ℕ)
  peer : ℕ → Peer E
  nextPeer : ℕ
  allowedips : RoutingTable ℕ
  junk : Junk
  headers : Headers
  paddings : Paddings
  ipackets : Fin 5 → Option ObfChain
  imitate : ImitateProto
  keepalives : List ℕ

/-- What the device is built on: `conn.Bind`, the route listener, Curve25519, and the
parsers of endpoints and prefixes.  A call on the bind returns the new state of the bind and
whether it succeeded. -/
structure Env (B E : Type) where
  bindClose : B → B × Bool
  /-- The number of receive functions and the port that was bound. -/
  bindOpen : B → BitVec 16 → B × Option (ℕ × BitVec 16)
  bindSetMark : B → BitVec 32 → B × Bool
  startRouteListener : B → B × Bool
  parseEndpoint : Bytes → Option E
  parsePrefix : Bytes → Option Prefix
  scalarBaseMult : Bytes → Bytes
  scalarMult : Bytes → Bytes → Bytes

variable {B E : Type}

/-- `NewDevice`, with the zero values of the fields that it leaves alone. -/
def newDevice (bind : B) : Device B E :=
  { state := .down
    net := { bind, port := 0, fwmark := 0, brokenRoaming := false, receivers := 0 }
    privateKey := zeroKey
    publicKey := zeroKey
    keyMap := []
    peer := fun _ => Peer.zero
    nextPeer := 0
    allowedips := RoutingTable.empty
    junk := { count := 0, min := 0, max := 0 }
    headers := Headers.default
    paddings := { init := 0, response := 0, cookie := 0, transport := 0 }
    ipackets := fun _ => none
    imitate := .none
    keepalives := [] }

namespace Device

/-! ## §2 Peers -/

def isUp (d : Device B E) : Bool := d.state = .up

def isClosed (d : Device B E) : Bool := d.state = .closed

def modifyPeer (d : Device B E) (p : ℕ) (f : Peer E → Peer E) : Device B E :=
  { d with peer := Function.update d.peer p (f (d.peer p)) }

def lookupPeer (d : Device B E) (pk : Bytes) : Option ℕ :=
  d.keyMap.lookup pk

/-- `removePeerLocked`: the peer leaves the routes, is stopped, and leaves the map. -/
def removePeerLocked (d : Device B E) (p : ℕ) (key : Bytes) : Device B E :=
  let d := { d with allowedips := d.allowedips.removeByPeer p }
  let d := d.modifyPeer p fun peer => { peer with isRunning := false }
  { d with keyMap := d.keyMap.filter fun entry => entry.1 ≠ key }

def removePeer (d : Device B E) (key : Bytes) : Device B E :=
  match d.lookupPeer key with
  | some p => d.removePeerLocked p key
  | none => d

def removeAllPeers (d : Device B E) : Device B E :=
  let d := d.keyMap.foldl (fun d (key, p) => d.removePeerLocked p key) d
  { d with keyMap := [] }

def setPrivateKey (env : Env B E) (d : Device B E) (sk : Bytes) : Device B E :=
  if sk = d.privateKey then d
  else
    let publicKey := env.scalarBaseMult sk
    -- remove peers with matching public keys
    let d := d.keyMap.foldl
      (fun d (key, p) =>
        if (d.peer p).remoteStatic = publicKey then d.removePeerLocked p key else d) d
    let d := { d with privateKey := sk, publicKey }
    d.keyMap.foldl
      (fun d (_, p) => d.modifyPeer p fun peer =>
        { peer with precomputedStaticStatic := env.scalarMult sk peer.remoteStatic }) d

def maxPeers : ℕ := 1 <<< 16

inductive NewPeerError where
  | deviceClosed
  | tooManyPeers
  | addingExistingPeer
  deriving DecidableEq

def allocPeer (d : Device B E) (peer : Peer E) : Device B E :=
  { d with peer := Function.update d.peer d.nextPeer peer, nextPeer := d.nextPeer + 1 }

def newPeer (env : Env B E) (d : Device B E) (pk : Bytes) : Except NewPeerError (Device B E × ℕ) :=
  if d.isClosed then .error .deviceClosed
  else if d.keyMap.length ≥ maxPeers then .error .tooManyPeers
  else if (d.lookupPeer pk).isSome then .error .addingExistingPeer
  else
    let p := d.nextPeer
    let d := d.allocPeer { Peer.zero with
      precomputedStaticStatic := env.scalarMult d.privateKey pk, remoteStatic := pk }
    .ok ({ d with keyMap := d.keyMap ++ [(pk, p)] }, p)

/-- `Start`. -/
def startPeer (d : Device B E) (p : ℕ) : Device B E :=
  if d.isClosed then d else d.modifyPeer p fun peer => { peer with isRunning := true }

/-- `markEndpointSrcForClearing` on every peer. -/
def markEndpointSrcs (d : Device B E) : Device B E :=
  d.keyMap.foldl
    (fun d (_, p) => d.modifyPeer p fun peer =>
      { peer with clearSrcOnTx := if peer.endpoint.isSome then true else peer.clearSrcOnTx }) d

/-! ## §3 The socket -/

/-- `closeBindLocked`.  It waits for the receive routines to end. -/
def closeBindLocked (env : Env B E) (d : Device B E) : Device B E × Bool :=
  let (bind, ok) := env.bindClose d.net.bind
  ({ d with net := { d.net with bind, receivers := 0 } }, ok)

/-- `BindSetMark`; `false` is an error. -/
def bindSetMark (env : Env B E) (d : Device B E) (mark : BitVec 32) : Device B E × Bool :=
  if d.net.fwmark = mark then (d, true)
  else
    -- the mark is stored before the socket has taken it
    let d := { d with net := { d.net with fwmark := mark } }
    let (bind, ok) := if d.isUp then env.bindSetMark d.net.bind mark else (d.net.bind, true)
    let d := { d with net := { d.net with bind } }
    if ok then (d.markEndpointSrcs, true) else (d, false)

/-- `BindUpdate`; `false` is an error. -/
def bindUpdate (env : Env B E) (d : Device B E) : Device B E × Bool :=
  match d.closeBindLocked env with
  | (d, false) => (d, false)
  | (d, true) =>
    if !d.isUp then (d, true)
    else match env.bindOpen d.net.bind d.net.port with
      -- with an error the port is forgotten
      | (bind, none) => ({ d with net := { d.net with bind, port := 0 } }, false)
      | (bind, some (recvFns, port)) =>
        match env.startRouteListener bind with
        | (bind, false) =>
          ({ d with net := { d.net with bind := (env.bindClose bind).1, port := 0 } }, false)
        | (bind, true) =>
          let d := { d with net := { d.net with bind, port } }
          let (bind, ok) :=
            if d.net.fwmark ≠ (0 : BitVec 32) then env.bindSetMark bind d.net.fwmark
              else (bind, true)
          let d := { d with net := { d.net with bind } }
          if ok then
            let d := d.markEndpointSrcs
            ({ d with net := { d.net with receivers := recvFns } }, true)
          else (d, false)

/-! ## §4 What the operations leave alone

A relation between a device and a later one is kept by a whole operation when it is kept by the
single changes that the operation is made of. -/

variable {R : Device B E → Device B E → Prop}

/-- Kept by the changes that the socket operations are made of. -/
structure SocketRel (R : Device B E → Device B E → Prop) : Prop where
  refl : ∀ d, R d d
  trans : ∀ {d d' d''}, R d d' → R d' d'' → R d d''
  net : ∀ d net, R d { d with net }
  clearSrc : ∀ d p, R d (d.modifyPeer p fun peer =>
    { peer with clearSrcOnTx := if peer.endpoint.isSome then true else peer.clearSrcOnTx })

theorem SocketRel.foldl (h : SocketRel R) {α : Type} {f : Device B E → α → Device B E}
    (hf : ∀ d a, R d (f d a)) (l : List α) (d : Device B E) : R d (l.foldl f d) := by
  induction l generalizing d with
  | nil => exact h.refl d
  | cons a l ih => exact h.trans (hf d a) (ih (f d a))

theorem SocketRel.markEndpointSrcs (h : SocketRel R) (d : Device B E) : R d d.markEndpointSrcs := by
  unfold Device.markEndpointSrcs
  apply h.foldl
  rintro d ⟨key, p⟩
  exact h.clearSrc d p

theorem SocketRel.bindSetMark (h : SocketRel R) (env : Env B E) (d : Device B E)
    (mark : BitVec 32) :
    R d (d.bindSetMark env mark).1 := by
  unfold Device.bindSetMark
  split
  · exact h.refl d
  · dsimp only
    generalize (if isUp _ = true then env.bindSetMark d.net.bind mark else (d.net.bind, true)) = r
    obtain ⟨bind, ok⟩ := r
    cases ok with
    | false => exact h.net d _
    | true => exact h.trans (h.net d _) (h.markEndpointSrcs _)

theorem SocketRel.bindUpdate (h : SocketRel R) (env : Env B E) (d : Device B E) :
    R d (d.bindUpdate env).1 := by
  unfold Device.bindUpdate closeBindLocked
  rcases env.bindClose d.net.bind with ⟨bind, ok⟩
  cases ok with
  | false => exact h.net d _
  | true =>
    dsimp only
    split
    · exact h.net d _
    · rcases env.bindOpen bind d.net.port with ⟨bind, _ | ⟨recvFns, port⟩⟩
      · exact h.net d _
      · dsimp only
        rcases env.startRouteListener bind with ⟨bind, ok⟩
        cases ok with
        | false => exact h.net d _
        | true =>
          dsimp only
          generalize (if d.net.fwmark ≠ 0 then env.bindSetMark bind d.net.fwmark
            else (bind, true)) = r
          obtain ⟨bind, ok⟩ := r
          cases ok with
          | false => exact h.net d _
          | true => exact h.trans (h.trans (h.net d _) (h.markEndpointSrcs _)) (h.net _ _)

/-- Kept by all changes of the identity, the peers, the routes and the socket. -/
structure PeerRel (R : Device B E → Device B E → Prop) : Prop extends SocketRel R where
  stop : ∀ d p, R d (d.modifyPeer p fun peer => { peer with isRunning := false })
  secret : ∀ d p (g : Bytes → Bytes),
    R d (d.modifyPeer p fun peer => { peer with precomputedStaticStatic := g peer.remoteStatic })
  allowedips : ∀ d allowedips, R d { d with allowedips }
  keyMap : ∀ d keyMap, R d { d with keyMap }
  keys : ∀ d privateKey publicKey, R d { d with privateKey, publicKey }

theorem PeerRel.removePeerLocked (h : PeerRel R) (d : Device B E) (p : ℕ) (key : Bytes) :
    R d (d.removePeerLocked p key) :=
  h.trans (h.trans (h.allowedips d _) (h.stop _ p)) (h.keyMap _ _)

theorem PeerRel.removePeer (h : PeerRel R) (d : Device B E) (key : Bytes) :
    R d (d.removePeer key) := by
  unfold Device.removePeer
  split
  · exact h.removePeerLocked d _ key
  · exact h.refl d

theorem PeerRel.removeAllPeers (h : PeerRel R) (d : Device B E) : R d d.removeAllPeers := by
  unfold Device.removeAllPeers
  refine h.trans (h.foldl ?_ d.keyMap d) (h.keyMap _ [])
  rintro d ⟨key, p⟩
  exact h.removePeerLocked d p key

theorem PeerRel.setPrivateKey (h : PeerRel R) (env : Env B E) (d : Device B E) (sk : Bytes) :
    R d (d.setPrivateKey env sk) := by
  unfold Device.setPrivateKey
  split
  · exact h.refl d
  · refine h.trans (h.trans (h.foldl ?_ d.keyMap d) (h.keys _ sk _)) (h.foldl ?_ _ _)
    · rintro d ⟨key, p⟩
      dsimp only
      split
      · exact h.removePeerLocked d p key
      · exact h.refl d
    · rintro d ⟨key, p⟩
      exact h.secret d p (env.scalarMult sk)

end Device

end AmneziaWG.Device
