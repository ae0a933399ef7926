import AmneziaWG.Device.Core

/-!
# The UAPI Set Operation

Embedding of `IpcSetOperation` and its line handlers (`device/uapi.go`).

A handler returns the device that it leaves behind together with the error, if any: a
line that fails may have changed the device already, and the lines before it have.
-/

set_option linter.dupNamespace false

namespace AmneziaWG.Device

open AmneziaWG.Lib

/-! ## §1 Errors -/

/-- `ipc.IpcError…`. -/
inductive IpcErrorCode where
  | io
  | protocol
  | invalid
  | portInUse
  | unknown
  deriving DecidableEq, Repr

/-- The error that an `IPCError` wraps (`%w`). -/
inductive Cause where
  | num (err : NumError)
  | hex (err : HexError)
  | hexDoesNotFit
  | header (err : MagicHeaderError)
  | chain (err : ChainError)
  | unknownProtocol (name : Bytes)
  | newPeer (err : Device.NewPeerError)
  | headersOverlap
  | tokenTooLong
  | external
  deriving DecidableEq

/-- `IPCError`: the code, the format text, its arguments and the wrapped error. -/
structure IPCError where
  code : IpcErrorCode
  format : String
  args : List Bytes
  cause : Option Cause
  deriving DecidableEq

/-- An error that wraps another one. -/
def wrapError (code : IpcErrorCode) (format : String) (cause : Cause) : IPCError :=
  { code, format, args := [], cause := some cause }

/-- An error of its own, with the values that its text shows. -/
def plainError (code : IpcErrorCode) (format : String) (args : List Bytes) : IPCError :=
  { code, format, args, cause := none }

/-! ## §2 Device lines -/

/-- `loadExactHex` into a key of 32 bytes. -/
def loadExactHex (src : Bytes) : Except Cause Bytes :=
  match decodeHex src with
  | .error err => .error (.hex err)
  | .ok slice => if slice.length = 32 then .ok slice else .error .hexDoesNotFit

def clamp (sk : Bytes) : Bytes :=
  (sk.modify 0 fun b => b &&& 248).modify 31 fun b => (b &&& 127) ||| 64

def fromMaybeZeroHex (src : Bytes) : Except Cause Bytes :=
  (loadExactHex src).map fun sk => if sk = zeroKey then sk else clamp sk

/-- The cases of the switch of `handleDeviceLine`. -/
inductive DeviceKey where
  | privateKey
  | listenPort
  | fwmark
  | replacePeers
  | jc
  | jmin
  | jmax
  | padding (slot : HeaderSlot)
  | imitateProtocol
  | header (slot : HeaderSlot)
  | ipacket (i : Fin 5)
  deriving DecidableEq

instance neZero_ipackets : NeZero 5 :=
  ⟨by decide⟩

def deviceKeys : List (String × DeviceKey) :=
  [("private_key", .privateKey), ("listen_port", .listenPort), ("fwmark", .fwmark),
    ("replace_peers", .replacePeers), ("jc", .jc), ("jmin", .jmin), ("jmax", .jmax),
    ("s1", .padding .init), ("s2", .padding .response), ("s3", .padding .cookie),
    ("s4", .padding .transport), ("imitate_protocol", .imitateProtocol), ("h1", .header .init),
    ("h2", .header .response), ("h3", .header .cookie), ("h4", .header .transport),
    ("i1", .ipacket 0), ("i2", .ipacket 1), ("i3", .ipacket 2), ("i4", .ipacket 3),
    ("i5", .ipacket 4)]

def deviceKey (key : Bytes) : Option DeviceKey :=
  (deviceKeys.find? fun entry => ascii entry.1 = key).map Prod.snd

/-- The names that the messages about paddings, headers and I-packets use. -/
def paddingName : HeaderSlot → String
  | .init => "s1"
  | .response => "s2"
  | .cookie => "s3"
  | .transport => "s4"

def headerName : HeaderSlot → String
  | .init => "H1"
  | .response => "H2"
  | .cookie => "H3"
  | .transport => "H4"

def ipacketName (i : Fin 5) : String :=
  match i with
  | 0 => "I1"
  | 1 => "I2"
  | 2 => "I3"
  | 3 => "I4"
  | 4 => "I5"

namespace Device

variable {B E : Type}

/-- The lines `jc`, `jmin` and `jmax`. -/
def setPositive (d : Device B E) (name : String) (value : Bytes) (set : ℤ → Device B E) :
    Device B E × Option IPCError :=
  match atoi value with
  | .error err => (d, some (wrapError .invalid ("failed to parse " ++ name ++ ": %w") (.num err)))
  | .ok n =>
    if n ≤ 0 then (d, some (plainError .invalid (name ++ " must be a positive value") []))
    else (set n, none)

/-- The lines `s1` to `s4`. -/
def setPadding (d : Device B E) (slot : HeaderSlot) (value : Bytes) :
    Device B E × Option IPCError :=
  match atoi value with
  | .error err =>
    (d, some (wrapError .invalid ("failed to parse " ++ paddingName slot ++ ": %w") (.num err)))
  | .ok padding =>
    if padding < 0 then
      (d, some (plainError .invalid (paddingName slot ++ " must be non-negative") []))
    else ({ d with paddings := d.paddings.set slot padding }, none)

/-- The lines `h1` to `h4`. -/
def setHeader (d : Device B E) (slot : HeaderSlot) (value : Bytes) :
    Device B E × Option IPCError :=
  match newMagicHeader value with
  | .error err =>
    (d, some (wrapError .invalid ("failed to parse " ++ headerName slot ++ ": %w") (.header err)))
  | .ok header => ({ d with headers := d.headers.set slot header }, none)

/-- The lines `i1` to `i5`. -/
def setIPacket (d : Device B E) (i : Fin 5) (value : Bytes) : Device B E × Option IPCError :=
  match newObfChain value with
  | .error err =>
    (d, some (wrapError .invalid ("failed to parse " ++ ipacketName i ++ ": %w") (.chain err)))
  | .ok chain => ({ d with ipackets := Function.update d.ipackets i (some chain) }, none)

def handleDeviceLine (env : Env B E) (d : Device B E) (key value : Bytes) :
    Device B E × Option IPCError :=
  match deviceKey key with
  | some .privateKey =>
    match fromMaybeZeroHex value with
    | .error err => (d, some (wrapError .invalid "failed to set private_key: %w" err))
    | .ok sk => (d.setPrivateKey env sk, none)
  | some .listenPort =>
    match parseUint value 16 with
    | .error err => (d, some (wrapError .invalid "failed to parse listen_port: %w" (.num err)))
    | .ok port =>
      -- the port stays even when the bind cannot be updated
      let d := { d with net := { d.net with port := BitVec.ofNat 16 port } }
      match d.bindUpdate env with
      | (d, true) => (d, none)
      | (d, false) => (d, some (wrapError .portInUse "failed to set listen_port: %w" .external))
  | some .fwmark =>
    match parseUint value 32 with
    | .error err => (d, some (wrapError .invalid "invalid fwmark: %w" (.num err)))
    | .ok mark =>
      match d.bindSetMark env (BitVec.ofNat 32 mark) with
      | (d, true) => (d, none)
      | (d, false) => (d, some (wrapError .portInUse "failed to update fwmark: %w" .external))
  | some .replacePeers =>
    if value ≠ ascii "true" then
      (d, some (plainError .invalid "failed to set replace_peers, invalid value: %v" [value]))
    else (d.removeAllPeers, none)
  | some .jc => d.setPositive "jc" value fun n => { d with junk := { d.junk with count := n } }
  | some .jmin => d.setPositive "jmin" value fun n => { d with junk := { d.junk with min := n } }
  | some .jmax => d.setPositive "jmax" value fun n => { d with junk := { d.junk with max := n } }
  | some (.padding slot) => d.setPadding slot value
  | some .imitateProtocol =>
    match parseImitateProto value with
    | none =>
      (d, some (wrapError .invalid "failed to parse imitate_protocol: %w" (.unknownProtocol value)))
    | some proto => ({ d with imitate := proto }, none)
  | some (.header slot) => d.setHeader slot value
  | some (.ipacket i) => d.setIPacket i value
  | none => (d, some (plainError .invalid "invalid UAPI device key: %v" [key]))

end Device

/-! ## §3 Peer lines -/

/-- `ipcSetPeer`: the peer that the request is configuring. -/
structure IpcSetPeer where
  peer : Option ℕ
  dummy : Bool
  created : Bool
  pkaOn : Bool
  deriving DecidableEq

/-- `new(ipcSetPeer)`. -/
def IpcSetPeer.new : IpcSetPeer :=
  { peer := none, dummy := false, created := false, pkaOn := false }

namespace Device

variable {B E : Type}

def handlePostConfig (d : Device B E) (ipc : IpcSetPeer) : Device B E :=
  match ipc.peer with
  | none => d
  | some p =>
    if ipc.dummy then d
    else
      let d := if ipc.created then
          d.modifyPeer p fun peer =>
            { peer with disableRoaming := d.net.brokenRoaming && peer.endpoint.isSome }
        else d
      if d.isUp then
        let d := d.startPeer p
        -- `pkaOn` may have been set for a peer before
        if ipc.pkaOn then { d with keepalives := d.keepalives ++ [p] } else d
      else d

/-- `&Peer{}` for a peer that is not to be configured. -/
def dummyPeer (d : Device B E) (ipc : IpcSetPeer) : Device B E × IpcSetPeer :=
  (d.allocPeer Peer.zero, { ipc with peer := some d.nextPeer, dummy := true })

def handlePublicKeyLine (env : Env B E) (d : Device B E) (ipc : IpcSetPeer) (value : Bytes) :
    Device B E × IpcSetPeer × Option IPCError :=
  match loadExactHex value with
  | .error err => (d, ipc, some (wrapError .invalid "failed to get peer by public key: %w" err))
  | .ok publicKey =>
    if d.publicKey = publicKey then
      -- the lines of the device's own key are parsed for nothing
      let (d, ipc) := d.dummyPeer ipc
      (d, { ipc with created := false }, none)
    else
      match d.lookupPeer publicKey with
      | some p => (d, { ipc with peer := some p, dummy := false, created := false }, none)
      | none =>
        let ipc := { ipc with peer := none, dummy := false, created := true }
        match d.newPeer env publicKey with
        | .error err =>
            (d, ipc, some (wrapError .invalid "failed to create new peer: %w" (.newPeer err)))
        | .ok (d, p) => (d, { ipc with peer := some p }, none)

/-- The cases of the switch of `handlePeerLine`. -/
inductive PeerKey where
  | updateOnly
  | remove
  | presharedKey
  | endpoint
  | persistentKeepaliveInterval
  | replaceAllowedIPs
  | allowedIP
  | protocolVersion
  deriving DecidableEq

def peerKeys : List (String × PeerKey) :=
  [("update_only", .updateOnly), ("remove", .remove), ("preshared_key", .presharedKey),
    ("endpoint", .endpoint), ("persistent_keepalive_interval", .persistentKeepaliveInterval),
    ("replace_allowed_ips", .replaceAllowedIPs), ("allowed_ip", .allowedIP),
    ("protocol_version", .protocolVersion)]

def peerKey (key : Bytes) : Option PeerKey :=
  (peerKeys.find? fun entry => ascii entry.1 = key).map Prod.snd

/-- `handlePeerLine`, for the peer `p` that `ipc` points at. -/
def handlePeerLine (env : Env B E) (d : Device B E) (ipc : IpcSetPeer) (p : ℕ)
    (key value : Bytes) : Device B E × IpcSetPeer × Option IPCError :=
  match peerKey key with
  | some .updateOnly =>
    if value ≠ ascii "true" then
      (d, ipc, some (plainError .invalid "failed to set update only, invalid value: %v" [value]))
    else if ipc.created && !ipc.dummy then
      -- the peer has just been created by this block
      let (d, ipc) := (d.removePeer (d.peer p).remoteStatic).dummyPeer ipc
      (d, ipc, none)
    else (d, ipc, none)
  | some .remove =>
    if value ≠ ascii "true" then
      (d, ipc, some (plainError .invalid "failed to set remove, invalid value: %v" [value]))
    else
      let d := if !ipc.dummy then d.removePeer (d.peer p).remoteStatic else d
      let (d, ipc) := d.dummyPeer ipc
      (d, ipc, none)
  | some .presharedKey =>
    match loadExactHex value with
    | .error err => (d, ipc, some (wrapError .invalid "failed to set preshared key: %w" err))
    | .ok psk => (d.modifyPeer p fun peer => { peer with presharedKey := psk }, ipc, none)
  | some .endpoint =>
    match env.parseEndpoint value with
    | none =>
      (d, ipc, some { code := .invalid, format := "failed to set endpoint %v: %w", args := [value],
                      cause := some .external })
    | some endpoint =>
      (d.modifyPeer p fun peer => { peer with endpoint := some endpoint }, ipc, none)
  | some .persistentKeepaliveInterval =>
    match parseUint value 16 with
    | .error err =>
      (d, ipc, some (wrapError .invalid "failed to set persistent keepalive interval: %w"
        (.num err)))
    | .ok secs =>
      let old := (d.peer p).persistentKeepaliveInterval
      (d.modifyPeer p fun peer => { peer with persistentKeepaliveInterval := secs },
        { ipc with pkaOn := old = 0 ∧ secs ≠ 0 }, none)
  | some .replaceAllowedIPs =>
    if value ≠ ascii "true" then
      (d, ipc, some (plainError .invalid "failed to replace allowedips, invalid value: %v" [value]))
    else if ipc.dummy then (d, ipc, none)
    else ({ d with allowedips := d.allowedips.removeByPeer p }, ipc, none)
  | some .allowedIP =>
    -- a minus in front removes the prefix
    let add := value.head? ≠ some (asciiByte '-')
    let value := if add then value else value.drop 1
    match env.parsePrefix value with
    | none => (d, ipc, some (wrapError .invalid "failed to set allowed ip: %w" .external))
    | some pfx =>
      if ipc.dummy then (d, ipc, none)
      else if add then ({ d with allowedips := d.allowedips.insert pfx p }, ipc, none)
      else ({ d with allowedips := d.allowedips.remove pfx p }, ipc, none)
  | some .protocolVersion =>
    if value ≠ ascii "1" then
      (d, ipc, some (plainError .invalid "invalid protocol version: %v" [value]))
    else (d, ipc, none)
  | none => (d, ipc, some (plainError .invalid "invalid UAPI peer key: %v" [key]))

end Device

/-! ## §4 Whole requests -/

/-- `ipcSetDevice`: the headers that the request sets, to be merged at its end. -/
structure IpcSetDevice where
  init : Option MagicHeader
  response : Option MagicHeader
  cookie : Option MagicHeader
  transport : Option MagicHeader

/-- `new(ipcSetDevice)`. -/
def IpcSetDevice.new : IpcSetDevice :=
  { init := none, response := none, cookie := none, transport := none }

namespace Device

variable {B E : Type}

/-- `mergeWithDevice`; `none` is the error "headers must not overlap". -/
def mergeWithDevice (ipcDev : IpcSetDevice) (d : Device B E) : Option (Device B E) :=
  let headers : Headers :=
    { init := ipcDev.init.getD d.headers.init
      response := ipcDev.response.getD d.headers.response
      cookie := ipcDev.cookie.getD d.headers.cookie
      transport := ipcDev.transport.getD d.headers.transport }
  if anyOverlap headers.toList then none else some { d with headers }

/-- The end of a request, at a blank line or at the end of the text.  `ipcDev` is still as
`new` made it: no handler has a reference to it. -/
def finishSet (d : Device B E) (ipc : IpcSetPeer) : Device B E × Option IPCError :=
  match mergeWithDevice IpcSetDevice.new d with
  | none => (d, some (wrapError .invalid "failed to merge with device: %w" .headersOverlap))
  | some d => (d.handlePostConfig ipc, none)

/-- One line of `IpcSetOperation`: how the operation ends, or the state for the next line.
`deviceConfig` holds until the first `public_key`. -/
def setLine (env : Env B E) (line : Bytes) (deviceConfig : Bool) (d : Device B E)
    (ipc : IpcSetPeer) :
    (Device B E × Option IPCError) ⊕ (Bool × Device B E × IpcSetPeer) :=
  if line = [] then .inl (d.finishSet ipc)
  else match cutByte (asciiByte '=') line with
    | none => .inl (d, some (plainError .protocol "failed to parse line %q" [line]))
    | some (key, value) =>
      if key = ascii "public_key" then
        -- the block before ends here
        match (d.handlePostConfig ipc).handlePublicKeyLine env ipc value with
        | (d, _, some err) => .inl (d, some err)
        | (d, ipc, none) => .inr (false, d, ipc)
      else if deviceConfig then
        match d.handleDeviceLine env key value with
        | (d, some err) => .inl (d, some err)
        | (d, none) => .inr (true, d, ipc)
      else
        match ipc.peer with
        | none => .inl (d, none) -- not reached: a `public_key` line has set the peer
        | some p =>
          match d.handlePeerLine env ipc p key value with
          | (d, _, some err) => .inl (d, some err)
          | (d, ipc, none) => .inr (false, d, ipc)

/-- The loop of `IpcSetOperation`. -/
def ipcSetLines (env : Env B E) (tooLong : Bool) :
    List Bytes → Bool → Device B E → IpcSetPeer → Device B E × Option IPCError
  | [], _, d, ipc =>
    match d.finishSet ipc with
    | (d, some err) => (d, some err)
    | (d, none) =>
      (d, if tooLong then some (wrapError .io "failed to read input: %w" .tokenTooLong) else none)
  | line :: lines, deviceConfig, d, ipc =>
    match d.setLine env line deviceConfig ipc with
    | .inl out => out
    | .inr (deviceConfig, d, ipc) => ipcSetLines env tooLong lines deviceConfig d ipc

def ipcSet (env : Env B E) (d : Device B E) (uapiConf : Bytes) : Device B E × Option IPCError :=
  let (lines, tooLong) := scanLines uapiConf
  d.ipcSetLines env tooLong lines true IpcSetPeer.new

end Device

end AmneziaWG.Device
