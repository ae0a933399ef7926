import AmneziaWG.Device.Uapi.Set

/-!
# Settings

What a line of a request asks for, apart from its text: the handlers of `device/uapi.go` parse a
line and then do what it says.  A line that is parsed to nothing is refused and changes nothing;
what a line that is parsed does to the device depends on the setting alone.

## Main results

- `handleDeviceLine_of_setting`, `handleDeviceLine_refused`: a device line is its setting.
- `handlePeerLine_of_setting`, `handlePeerLine_refused`: a peer line is its setting.
-/

set_option linter.dupNamespace false

namespace AmneziaWG.Device

open AmneziaWG.Lib List Option

/-! ## §1 Settings of the device -/

inductive Setting where
  | privateKey (sk : Bytes)
  | listenPort (port : BitVec 16)
  | fwmark (mark : BitVec 32)
  | replacePeers
  | jc (n : ℤ)
  | jmin (n : ℤ)
  | jmax (n : ℤ)
  | padding (slot : HeaderSlot) (n : ℤ)
  | imitateProtocol (proto : ImitateProto)
  | header (slot : HeaderSlot) (h : MagicHeader)
  | ipacket (i : Fin 5) (chain : ObfChain)
  deriving DecidableEq

/-- The number of a line that must satisfy `ok`. -/
def readInt (ok : ℤ → Bool) (value : Bytes) : Option ℤ :=
  match atoi value with
  | .error _ => none
  | .ok n => if ok n then some n else none

def readSetting (value : Bytes) : DeviceKey → Option Setting
  | .privateKey => (fromMaybeZeroHex value).toOption.map .privateKey
  | .listenPort => (parseUint value 16).toOption.map fun port => .listenPort (BitVec.ofNat 16 port)
  | .fwmark => (parseUint value 32).toOption.map fun mark => .fwmark (BitVec.ofNat 32 mark)
  | .replacePeers => if value = ascii "true" then some .replacePeers else none
  | .jc => (readInt (0 < ·) value).map .jc
  | .jmin => (readInt (0 < ·) value).map .jmin
  | .jmax => (readInt (0 < ·) value).map .jmax
  | .padding slot => (readInt (0 ≤ ·) value).map (.padding slot)
  | .imitateProtocol => (parseImitateProto value).map .imitateProtocol
  | .header slot => (newMagicHeader value).toOption.map (.header slot)
  | .ipacket i => (newObfChain value).toOption.map (.ipacket i)

def parseSetting (key value : Bytes) : Option Setting :=
  (deviceKey key).bind (readSetting value)

def lineSetting (line : Bytes) : Option Setting :=
  (cutByte (asciiByte '=') line).bind fun (key, value) => parseSetting key value

theorem readInt_eq_some {ok : ℤ → Bool} {value : Bytes} {n : ℤ} (h : readInt ok value = some n) :
    atoi value = .ok n ∧ ok n = true := by
  unfold readInt at h
  split at h
  · cases h
  · next m hm =>
    split at h
    · next hok =>
      cases h
      exact ⟨hm, hok⟩
    · cases h

/-- What every setting that comes from a line satisfies: private keys are clamped, lengths and
counts are in their range, and an I-packet is the chain of its spec. -/
def Setting.Valid : Setting → Prop
  | .privateKey sk => sk.length = 32 ∧ (sk = zeroKey ∨ clamp sk = sk)
  | .jc n | .jmin n | .jmax n => 0 < n ∧ n < 2 ^ 63
  | .padding _ n => 0 ≤ n ∧ n < 2 ^ 63
  | .ipacket _ chain => newObfChain chain.spec = .ok chain
  | _ => True

theorem clamp_clamp (sk : Bytes) : clamp (clamp sk) = clamp sk := by
  have hlow : ∀ b : Byte, b &&& 248 &&& 248 = b &&& 248 := by decide +kernel
  have hhigh : ∀ b : Byte, (b &&& 127 ||| 64) &&& 127 ||| 64 = b &&& 127 ||| 64 := by decide +kernel
  refine ext_getElem? fun i => ?_
  simp only [clamp, getElem?_modify]
  rcases sk[i]? with _ | b
  · rfl
  · simp only [Option.map_eq_map, Option.map_some]
    split_ifs
    · omega
    · rw [hhigh]
    · rw [hlow]
    · rfl

theorem length_clamp (sk : Bytes) : (clamp sk).length = sk.length := by
  rw [clamp, length_modify, length_modify]

theorem length_of_loadExactHex {src key : Bytes} (h : loadExactHex src = .ok key) :
    key.length = 32 := by
  unfold loadExactHex at h
  split at h
  · cases h
  · split_ifs at h with hlen
    cases h
    exact hlen

theorem spec_of_newObfChain {spec : Bytes} {chain : ObfChain} (h : newObfChain spec = .ok chain) :
    chain.spec = spec := by
  unfold newObfChain at h
  cases hchain : obfChainFrom (spec.length + 1) [] [] spec with
  | error err => rw [hchain] at h; cases h
  | ok obfs => rw [hchain] at h; cases h; rfl

theorem valid_of_parse {key value : Bytes} {s : Setting} (h : parseSetting key value = some s) :
    s.Valid := by
  obtain ⟨k, -, h⟩ := bind_eq_some_iff.mp h
  have hpositive : ∀ {n}, readInt (0 < ·) value = some n → 0 < n ∧ n < 2 ^ 63 := fun hn =>
    ⟨by simpa using (readInt_eq_some hn).2, atoi_lt (readInt_eq_some hn).1⟩
  cases k <;> simp only [readSetting] at h
  case privateKey =>
    obtain ⟨sk, hsk, rfl⟩ := map_eq_some_iff.mp h
    unfold fromMaybeZeroHex at hsk
    cases hload : loadExactHex value with
    | error err => rw [hload] at hsk; cases hsk
    | ok key' =>
      have hlen := length_of_loadExactHex hload
      rw [hload] at hsk
      cases hsk
      change Setting.Valid (.privateKey (if key' = zeroKey then key' else clamp key'))
      -- only a key that is not zero is clamped, and clamping is idempotent
      split_ifs with hzero
      · exact ⟨hlen, Or.inl hzero⟩
      · exact ⟨(length_clamp key').trans hlen, Or.inr (clamp_clamp key')⟩
  case listenPort =>
    obtain ⟨port, -, rfl⟩ := map_eq_some_iff.mp h
    exact trivial
  case fwmark =>
    obtain ⟨mark, -, rfl⟩ := map_eq_some_iff.mp h
    exact trivial
  case replacePeers =>
    split_ifs at h
    cases h
    exact trivial
  case jc =>
    obtain ⟨n, hn, rfl⟩ := map_eq_some_iff.mp h
    exact hpositive hn
  case jmin =>
    obtain ⟨n, hn, rfl⟩ := map_eq_some_iff.mp h
    exact hpositive hn
  case jmax =>
    obtain ⟨n, hn, rfl⟩ := map_eq_some_iff.mp h
    exact hpositive hn
  case padding slot =>
    obtain ⟨n, hn, rfl⟩ := map_eq_some_iff.mp h
    exact ⟨by simpa using (readInt_eq_some hn).2, atoi_lt (readInt_eq_some hn).1⟩
  case imitateProtocol =>
    obtain ⟨proto, -, rfl⟩ := map_eq_some_iff.mp h
    exact trivial
  case header slot =>
    obtain ⟨header, -, rfl⟩ := map_eq_some_iff.mp h
    exact trivial
  case ipacket i =>
    obtain ⟨chain, hchain, rfl⟩ := map_eq_some_iff.mp h
    cases hnew : newObfChain value with
    | error err => rw [hnew] at hchain; cases hchain
    | ok chain' =>
      rw [hnew] at hchain
      cases hchain
      show newObfChain chain.spec = .ok chain
      rw [spec_of_newObfChain hnew, hnew]

theorem valid_of_lineSetting {line : Bytes} {s : Setting} (h : lineSetting line = some s) :
    s.Valid := by
  obtain ⟨⟨key, value⟩, -, hparse⟩ := bind_eq_some_iff.mp h
  exact valid_of_parse hparse

namespace Device

variable {B E : Type}

/-- What a setting does; `false` is an error of the bind. -/
def applySetting (env : Env B E) (d : Device B E) : Setting → Device B E × Bool
  | .privateKey sk => (d.setPrivateKey env sk, true)
  | .listenPort port => { d with net := { d.net with port } }.bindUpdate env
  | .fwmark mark => d.bindSetMark env mark
  | .replacePeers => (d.removeAllPeers, true)
  | .jc n => ({ d with junk := { d.junk with count := n } }, true)
  | .jmin n => ({ d with junk := { d.junk with min := n } }, true)
  | .jmax n => ({ d with junk := { d.junk with max := n } }, true)
  | .padding slot n => ({ d with paddings := d.paddings.set slot n }, true)
  | .imitateProtocol proto => ({ d with imitate := proto }, true)
  | .header slot h => ({ d with headers := d.headers.set slot h }, true)
  | .ipacket i chain => ({ d with ipackets := Function.update d.ipackets i (some chain) }, true)

/-- Only the final merge reports an overlap. -/
def OverlapError (err : Option IPCError) : Prop :=
  ∃ e, err = some e ∧ e.cause = some .headersOverlap

@[simp] theorem overlapError_none : ¬OverlapError none := by
  rintro ⟨e, he, -⟩
  cases he

@[simp] theorem overlapError_plain (code : IpcErrorCode) (format : String) (args : List Bytes) :
    ¬OverlapError (some (plainError code format args)) := by
  rintro ⟨e, he, hcause⟩
  cases he
  cases hcause

@[simp] theorem overlapError_wrap (code : IpcErrorCode) (format : String) (cause : Cause) :
    OverlapError (some (wrapError code format cause)) ↔ cause = .headersOverlap := by
  constructor
  · rintro ⟨e, he, hcause⟩
    cases he
    exact some.inj hcause
  · rintro rfl
    exact ⟨_, rfl, rfl⟩

theorem loadExactHex_cause {src : Bytes} {err : Cause} (h : loadExactHex src = .error err) :
    err ≠ .headersOverlap := by
  rintro rfl
  unfold loadExactHex at h
  split at h
  · cases h
  · split_ifs at h
    cases h

theorem fromMaybeZeroHex_cause {src : Bytes} {err : Cause} (h : fromMaybeZeroHex src = .error err) :
    err ≠ .headersOverlap := by
  unfold fromMaybeZeroHex at h
  cases hx : loadExactHex src with
  | error err' =>
    rw [hx] at h
    cases h
    exact loadExactHex_cause hx
  | ok sk =>
    rw [hx] at h
    cases h

/-- The answer to a line: its setting is applied, and an error is one of the bind; or there is no
setting, and the line is refused. -/
def Answers (env : Env B E) (d : Device B E) (setting : Option Setting)
    (r : Device B E × Option IPCError) : Prop :=
  match setting with
  | some s => ∃ err, r = ((d.applySetting env s).1, if (d.applySetting env s).2 then none
      else some err)
  | none => ∃ err, r = (d, some err)

section

variable (env : Env B E) (d : Device B E) (key : Bytes)

theorem setPositive_answers (name : String) (value : Bytes)
    {set : ℤ → Device B E} {mk : ℤ → Setting}
    (hmk : ∀ n, d.applySetting env (mk n) = (set n, true)) :
    d.Answers env ((readInt (0 < ·) value).map mk) (d.setPositive name value set) ∧
      ¬OverlapError (d.setPositive name value set).2 := by
  unfold readInt setPositive
  cases atoi value with
  | error err => exact ⟨⟨_, rfl⟩, by simp⟩
  | ok n =>
    by_cases hn : n ≤ 0
    · simp only [not_lt.mpr hn, decide_false, Bool.false_eq_true, if_false, if_pos hn]
      exact ⟨⟨_, rfl⟩, by simp⟩
    · simp only [not_le.mp hn, decide_true, if_true, if_neg hn]
      exact ⟨⟨plainError .invalid name [], by rw [hmk n]; rfl⟩, by simp⟩

theorem setPadding_answers (slot : HeaderSlot) (value : Bytes) :
    d.Answers env ((readInt (0 ≤ ·) value).map (.padding slot)) (d.setPadding slot value) ∧
      ¬OverlapError (d.setPadding slot value).2 := by
  unfold readInt setPadding
  cases atoi value with
  | error err => exact ⟨⟨_, rfl⟩, by simp⟩
  | ok n =>
    by_cases hn : n < 0
    · simp only [not_le.mpr hn, decide_false, Bool.false_eq_true, if_false, if_pos hn]
      exact ⟨⟨_, rfl⟩, by simp⟩
    · simp only [not_lt.mp hn, decide_true, if_true, if_neg hn]
      exact ⟨⟨plainError .invalid "" [], rfl⟩, by simp⟩

/-- **A device line is its setting.**  No line reports an overlap. -/
theorem handleDeviceLine_answers (value : Bytes) :
    d.Answers env (parseSetting key value) (d.handleDeviceLine env key value) ∧
      ¬OverlapError (d.handleDeviceLine env key value).2 := by
  -- an error for the cases in which there is none
  let unused := plainError .invalid "" []
  unfold handleDeviceLine parseSetting
  cases deviceKey key with
  | none => exact ⟨⟨_, rfl⟩, by simp⟩
  | some k =>
    cases k <;> simp only [bind_some, readSetting]
    case privateKey =>
      cases hsk : fromMaybeZeroHex value with
      | error err => exact ⟨⟨_, rfl⟩, by simpa using fromMaybeZeroHex_cause hsk⟩
      | ok sk => exact ⟨⟨unused, rfl⟩, by simp⟩
    case listenPort =>
      cases parseUint value 16 with
      | error err => exact ⟨⟨_, rfl⟩, by simp⟩
      | ok port =>
        dsimp only
        refine ⟨⟨wrapError .portInUse "failed to set listen_port: %w" .external, ?_⟩,
          by split <;> simp⟩
        rw [applySetting]
        split <;> next heq => rw [heq]; rfl
    case fwmark =>
      cases parseUint value 32 with
      | error err => exact ⟨⟨_, rfl⟩, by simp⟩
      | ok mark =>
        dsimp only
        refine ⟨⟨wrapError .portInUse "failed to update fwmark: %w" .external, ?_⟩,
          by split <;> simp⟩
        rw [applySetting]
        split <;> next heq => rw [heq]; rfl
    case replacePeers =>
      by_cases htrue : value = ascii "true"
      · rw [if_pos htrue, if_neg (not_not.mpr htrue)]
        exact ⟨⟨unused, rfl⟩, by simp⟩
      · rw [if_neg htrue, if_pos htrue]
        exact ⟨⟨_, rfl⟩, by simp⟩
    case jc | jmin | jmax => exact setPositive_answers env d _ value fun n => rfl
    case padding slot => exact setPadding_answers env d slot value
    case imitateProtocol =>
      cases parseImitateProto value with
      | none => exact ⟨⟨_, rfl⟩, by simp⟩
      | some proto => exact ⟨⟨unused, rfl⟩, by simp⟩
    case header slot =>
      unfold setHeader
      cases newMagicHeader value with
      | error err => exact ⟨⟨_, rfl⟩, by simp⟩
      | ok header => exact ⟨⟨unused, rfl⟩, by simp⟩
    case ipacket i =>
      unfold setIPacket
      cases newObfChain value with
      | error err => exact ⟨⟨_, rfl⟩, by simp⟩
      | ok chain => exact ⟨⟨unused, rfl⟩, by simp⟩

theorem setting_of_accepted {env : Env B E} {d d' : Device B E} {key value : Bytes}
    (h : d.handleDeviceLine env key value = (d', none)) :
    ∃ s, parseSetting key value = some s ∧ d.applySetting env s = (d', true) := by
  have hanswers := (handleDeviceLine_answers env d key value).1
  rw [h] at hanswers
  unfold Answers at hanswers
  split at hanswers
  · next s hs =>
    obtain ⟨err, hr⟩ := hanswers
    refine ⟨s, hs, ?_⟩
    rcases happly : d.applySetting env s with ⟨d'', ok⟩
    rw [happly] at hr
    cases ok with
    | false => cases hr
    | true => cases hr; rfl
  · obtain ⟨err, hr⟩ := hanswers
    cases hr

theorem handleDeviceLine_of_setting {env : Env B E} {d d' : Device B E} {key value : Bytes}
    {s : Setting} (hs : parseSetting key value = some s) (h : d.applySetting env s = (d', true)) :
    d.handleDeviceLine env key value = (d', none) := by
  have hanswers := (handleDeviceLine_answers env d key value).1
  rw [hs] at hanswers
  obtain ⟨err, hr⟩ := hanswers
  rw [hr, h]
  rfl

/-- Whatever the answer, the device is as before or as the setting leaves it. -/
theorem handleDeviceLine_device (value : Bytes) : (d.handleDeviceLine env key value).1 = d ∨
      ∃ s, parseSetting key value = some s ∧ (d.handleDeviceLine env key value).1 =
        (d.applySetting env s).1 := by
  have hanswers := (handleDeviceLine_answers env d key value).1
  unfold Answers at hanswers
  split at hanswers
  · next s hs =>
    obtain ⟨err, hr⟩ := hanswers
    exact Or.inr ⟨s, hs, by rw [hr]⟩
  · obtain ⟨err, hr⟩ := hanswers
    exact Or.inl (by rw [hr])

end

end Device

/-! ## §2 Settings of a peer -/

inductive PeerSetting (E : Type) where
  | updateOnly
  | remove
  | presharedKey (psk : Bytes)
  | endpoint (endpoint : E)
  | keepalive (secs : ℕ)
  | replaceAllowedIPs
  | allowedIP (add : Bool) (pfx : Prefix)
  | protocolVersion

namespace Device

variable {B E : Type}
variable {env : Env B E} {d d' : Device B E} {ipc ipc' : IpcSetPeer} {p : ℕ} {key value : Bytes}

/-- A prefix, and whether it is to be added. -/
def readAllowedIP (env : Env B E) (value : Bytes) : Option (PeerSetting E) :=
  if value.head? ≠ some (asciiByte '-') then (env.parsePrefix value).map (.allowedIP true)
  else (env.parsePrefix (value.drop 1)).map (.allowedIP false)

def readPeerSetting (env : Env B E) (value : Bytes) : PeerKey → Option (PeerSetting E)
  | .updateOnly => if value = ascii "true" then some .updateOnly else none
  | .remove => if value = ascii "true" then some .remove else none
  | .presharedKey => (loadExactHex value).toOption.map .presharedKey
  | .endpoint => (env.parseEndpoint value).map .endpoint
  | .persistentKeepaliveInterval => (parseUint value 16).toOption.map .keepalive
  | .replaceAllowedIPs => if value = ascii "true" then some .replaceAllowedIPs else none
  | .allowedIP => readAllowedIP env value
  | .protocolVersion => if value = ascii "1" then some .protocolVersion else none

def parsePeerSetting (env : Env B E) (key value : Bytes) : Option (PeerSetting E) :=
  (peerKey key).bind (readPeerSetting env value)

def linePeerSetting (env : Env B E) (line : Bytes) : Option (PeerSetting E) :=
  (cutByte (asciiByte '=') line).bind fun (key, value) => parsePeerSetting env key value

/-- What a setting does to the device and to the peer `p` that is being configured. -/
def applyPeerSetting (d : Device B E) (ipc : IpcSetPeer) (p : ℕ) : PeerSetting E → Device B E ×
    IpcSetPeer
  | .updateOnly =>
    if ipc.created && !ipc.dummy then (d.removePeer (d.peer p).remoteStatic).dummyPeer ipc
      else (d, ipc)
  | .remove => (if !ipc.dummy then d.removePeer (d.peer p).remoteStatic else d).dummyPeer ipc
  | .presharedKey psk => (d.modifyPeer p fun peer => { peer with presharedKey := psk }, ipc)
  | .endpoint endpoint => (d.modifyPeer p fun peer => { peer with endpoint := some endpoint }, ipc)
  | .keepalive secs =>
    (d.modifyPeer p fun peer => { peer with persistentKeepaliveInterval := secs },
      { ipc with pkaOn := (d.peer p).persistentKeepaliveInterval = 0 ∧ secs ≠ 0 })
  | .replaceAllowedIPs =>
    if ipc.dummy then (d, ipc) else ({ d with allowedips := d.allowedips.removeByPeer p }, ipc)
  | .allowedIP add pfx =>
    if ipc.dummy then (d, ipc)
    else if add then ({ d with allowedips := d.allowedips.insert pfx p }, ipc)
    else ({ d with allowedips := d.allowedips.remove pfx p }, ipc)
  | .protocolVersion => (d, ipc)

inductive PeerChange (d : Device B E) (ipc : IpcSetPeer) (p : ℕ) : Device B E → IpcSetPeer → Prop
  | keep : PeerChange d ipc p d ipc
  | modify (f : Peer E → Peer E) (pkaOn : Bool) (hf : ∀ peer, f peer = { peer with
      presharedKey := (f peer).presharedKey, endpoint := (f peer).endpoint
      persistentKeepaliveInterval := (f peer).persistentKeepaliveInterval }) :
      PeerChange d ipc p (d.modifyPeer p f) { ipc with pkaOn }
  | routes (allowedips : RoutingTable ℕ) (hdummy : ipc.dummy = false)
      (hroutes : allowedips = d.allowedips.removeByPeer p ∨
        ∃ pfx, allowedips = d.allowedips.insert pfx p ∨ allowedips = d.allowedips.remove pfx p) :
      PeerChange d ipc p { d with allowedips } ipc
  | dummy : PeerChange d ipc p (d.dummyPeer ipc).1 (d.dummyPeer ipc).2
  | remove (hdummy : ipc.dummy = false) : PeerChange d ipc p
      ((d.removePeer (d.peer p).remoteStatic).dummyPeer ipc).1
      ((d.removePeer (d.peer p).remoteStatic).dummyPeer ipc).2

theorem applyPeerSetting_change {d d' : Device B E} {ipc ipc' : IpcSetPeer} {p : ℕ}
    {s : PeerSetting E}
    (h : d.applyPeerSetting ipc p s = (d', ipc')) : PeerChange d ipc p d' ipc' := by
  cases s <;> simp only [applyPeerSetting] at h
  case updateOnly =>
    split_ifs at h with hcreated <;> cases h
    · exact .remove (by simpa using (Bool.and_eq_true_iff.mp hcreated).2)
    · exact .keep
  case remove =>
    split_ifs at h with hnot <;> cases h
    · exact .remove (by simpa using hnot)
    · exact .dummy
  case presharedKey | endpoint | keepalive =>
    cases h
    exact .modify _ _ fun _ => rfl
  case replaceAllowedIPs =>
    split_ifs at h with hdummy <;> cases h
    · exact .keep
    · exact .routes _ (Bool.eq_false_iff.mpr hdummy) (.inl rfl)
  case allowedIP add pfx =>
    split_ifs at h with hdummy <;> cases h
    · exact .keep
    · exact .routes _ (Bool.eq_false_iff.mpr hdummy) (.inr ⟨pfx, .inl rfl⟩)
    · exact .routes _ (Bool.eq_false_iff.mpr hdummy) (.inr ⟨pfx, .inr rfl⟩)
  case protocolVersion =>
    cases h
    exact .keep

theorem applyPeerSetting_peer (hp : ipc.peer = some p)
    (s : PeerSetting E) : ∃ q, (d.applyPeerSetting ipc p s).2.peer = some q := by
  rcases hs : d.applyPeerSetting ipc p s with ⟨d', ipc'⟩
  cases applyPeerSetting_change hs with
  | dummy => exact ⟨_, rfl⟩
  | remove => exact ⟨_, rfl⟩
  | _ => exact ⟨p, hp⟩

/-- The answer to a peer line: its setting is applied, or it has none and is refused. -/
def AnswersPeer (d : Device B E) (ipc : IpcSetPeer) (p : ℕ) (setting : Option (PeerSetting E))
    (r : Device B E × IpcSetPeer × Option IPCError) : Prop :=
  match setting with
  | some s => r = ((d.applyPeerSetting ipc p s).1, (d.applyPeerSetting ipc p s).2, none)
  | none => ∃ err, r = (d, ipc, some err)

/-- **A peer line is its setting.** -/
theorem handlePeerLine_answers (env : Env B E) (d : Device B E) (ipc : IpcSetPeer) (p : ℕ)
    (key value : Bytes) :
    d.AnswersPeer ipc p (parsePeerSetting env key value) (d.handlePeerLine env ipc p key value) ∧
      ¬OverlapError (d.handlePeerLine env ipc p key value).2.2 := by
  unfold handlePeerLine parsePeerSetting
  cases peerKey key with
  | none => exact ⟨⟨_, rfl⟩, by simp⟩
  | some k =>
    cases k <;> simp only [bind_some, readPeerSetting]
    case updateOnly | replaceAllowedIPs =>
      by_cases htrue : value = ascii "true"
      · rw [if_pos htrue, if_neg (not_not.mpr htrue)]
        simp only [AnswersPeer, applyPeerSetting]
        split <;> exact ⟨rfl, by simp⟩
      · rw [if_neg htrue, if_pos htrue]
        exact ⟨⟨_, rfl⟩, by simp⟩
    case remove =>
      by_cases htrue : value = ascii "true"
      · rw [if_pos htrue, if_neg (not_not.mpr htrue)]
        exact ⟨rfl, by simp⟩
      · rw [if_neg htrue, if_pos htrue]
        exact ⟨⟨_, rfl⟩, by simp⟩
    case presharedKey =>
      cases hpsk : loadExactHex value with
      | error err => exact ⟨⟨_, rfl⟩, by simpa using loadExactHex_cause hpsk⟩
      | ok psk => exact ⟨rfl, by simp⟩
    case endpoint =>
      cases env.parseEndpoint value with
      | none => exact ⟨⟨_, rfl⟩, fun ⟨e, he, hcause⟩ => by cases he; cases hcause⟩
      | some endpoint => exact ⟨rfl, by simp⟩
    case persistentKeepaliveInterval =>
      cases parseUint value 16 with
      | error err => exact ⟨⟨_, rfl⟩, by simp⟩
      | ok secs => exact ⟨rfl, by simp⟩
    case allowedIP =>
      unfold readAllowedIP
      -- a leading minus takes the prefix away
      by_cases hadd : value.head? ≠ some (asciiByte '-')
      · simp only [hadd, ne_eq, not_false_eq_true, if_true]
        cases env.parsePrefix value with
        | none => exact ⟨⟨_, rfl⟩, by simp⟩
        | some pfx =>
          simp only [AnswersPeer, map_some, applyPeerSetting, if_true]
          split <;> exact ⟨rfl, by simp⟩
      · simp only [not_not.mp hadd, ne_eq, not_true_eq_false, if_false]
        cases env.parsePrefix (value.drop 1) with
        | none => exact ⟨⟨_, rfl⟩, by simp⟩
        | some pfx =>
          simp only [AnswersPeer, map_some, applyPeerSetting, Bool.false_eq_true, if_false]
          split <;> exact ⟨rfl, by simp⟩
    case protocolVersion =>
      by_cases hone : value = ascii "1"
      · rw [if_pos hone, if_neg (not_not.mpr hone)]
        exact ⟨rfl, by simp⟩
      · rw [if_neg hone, if_pos hone]
        exact ⟨⟨_, rfl⟩, by simp⟩

theorem handlePeerLine_of_setting
    {s : PeerSetting E} (h : parsePeerSetting env key value = some s) :
    d.handlePeerLine env ipc p key value =
      ((d.applyPeerSetting ipc p s).1, (d.applyPeerSetting ipc p s).2, none) := by
  have hanswers := (handlePeerLine_answers env d ipc p key value).1
  rwa [h] at hanswers

theorem peerSetting_of_accepted (h : d.handlePeerLine env ipc p key value = (d', ipc', none)) :
    ∃ s, parsePeerSetting env key value = some s ∧ d.applyPeerSetting ipc p s = (d', ipc') := by
  have hanswers := (handlePeerLine_answers env d ipc p key value).1
  cases hs : parsePeerSetting env key value with
  | none =>
    rw [hs, h] at hanswers
    obtain ⟨err, hr⟩ := hanswers
    cases hr
  | some s =>
    rw [hs, h] at hanswers
    refine ⟨s, rfl, ?_⟩
    cases hanswers
    rfl

/-- A line that is refused leaves the device alone. -/
theorem handlePeerLine_refused
    {err : IPCError} (h : d.handlePeerLine env ipc p key value = (d', ipc', some err)) :
    d' = d ∧ ¬OverlapError (some err) := by
  obtain ⟨hanswers, hno⟩ := handlePeerLine_answers env d ipc p key value
  rw [h] at hanswers hno
  cases hs : parsePeerSetting env key value with
  | none =>
    rw [hs] at hanswers
    obtain ⟨err', hr⟩ := hanswers
    cases hr
    exact ⟨rfl, hno⟩
  | some s =>
    rw [hs] at hanswers
    cases hanswers

/-! ## §3 Public keys -/

/-- What a `public_key` line does when it is accepted: the own key selects a dummy, a key of the map
its peer, and another key a new peer. -/
theorem handlePublicKeyLine_accepted (h : d.handlePublicKeyLine env ipc value = (d', ipc', none)) :
    ∃ pk, loadExactHex value = .ok pk ∧ ((d.publicKey = pk ∧ d' = d.allocPeer Peer.zero ∧
          ipc' = { peer := some d.nextPeer, dummy := true, created := false, pkaOn := ipc.pkaOn }) ∨
        (d.publicKey ≠ pk ∧ ∃ p, d.lookupPeer pk = some p ∧ d' = d ∧
          ipc' = { peer := some p, dummy := false, created := false, pkaOn := ipc.pkaOn }) ∨
        (d.publicKey ≠ pk ∧ d.lookupPeer pk = none ∧ ∃ p, d.newPeer env pk = .ok (d', p) ∧
          ipc' = { peer := some p, dummy := false, created := true, pkaOn := ipc.pkaOn })) := by
  unfold handlePublicKeyLine dummyPeer at h
  cases hload : loadExactHex value with
  | error err => rw [hload] at h; cases h
  | ok pk =>
    simp only [hload] at h
    refine ⟨pk, rfl, ?_⟩
    split_ifs at h with hown
    · cases h
      exact Or.inl ⟨hown, rfl, rfl⟩
    · cases hlook : d.lookupPeer pk with
      | some p =>
        simp only [hlook] at h
        cases h
        exact Or.inr (Or.inl ⟨hown, p, rfl, rfl, rfl⟩)
      | none =>
        simp only [hlook] at h
        -- `NewPeer` fails when the device is closed or has too many peers
        cases hnew : d.newPeer env pk with
        | error err => rw [hnew] at h; cases h
        | ok r =>
          obtain ⟨d₁, p⟩ := r
          rw [hnew] at h
          cases h
          exact Or.inr (Or.inr ⟨hown, rfl, p, rfl, rfl⟩)

theorem handlePublicKeyLine_refused
    {err : IPCError} (h : d.handlePublicKeyLine env ipc value = (d', ipc', some err)) :
    d' = d ∧ ¬OverlapError (some err) := by
  unfold handlePublicKeyLine dummyPeer at h
  cases hload : loadExactHex value with
  | error err => rw [hload] at h; cases h; exact ⟨rfl, by simpa using loadExactHex_cause hload⟩
  | ok pk =>
    simp only [hload] at h
    split_ifs at h
    · cases h
    · cases hlook : d.lookupPeer pk with
      | some p => simp only [hlook] at h; cases h
      | none =>
        simp only [hlook] at h
        cases hnew : d.newPeer env pk with
        | error err => rw [hnew] at h; cases h; exact ⟨rfl, by simp⟩
        | ok r => rw [hnew] at h; cases h

/-! ## §4 Whole requests -/

/-- The lines of a request: those before its blank line. -/
def requestLines (lines : List Bytes) : List Bytes := lines.takeWhile fun line => line ≠ []

/-- The work behind a peer turns roaming off, starts the peer and sends a keepalive: a relation that
these changes keep is kept by it. -/
theorem handlePostConfig_rel {R : Device B E → Device B E → Prop} (hrefl : ∀ d, R d d)
    (htrans : ∀ {d d' d''}, R d d' → R d' d'' → R d d'')
    (hmodify : ∀ d p (f : Peer E → Peer E), ipc.peer = some p →
      (∀ peer, f peer = { peer with
        disableRoaming := (f peer).disableRoaming, isRunning := (f peer).isRunning }) →
      R d (d.modifyPeer p f))
    (hsend : ∀ d keepalives, R d { d with keepalives }) (d : Device B E) :
      R d (d.handlePostConfig ipc) := by
  unfold handlePostConfig
  cases hp : ipc.peer with
  | none => exact hrefl d
  | some p =>
    dsimp only
    split
    · exact hrefl d
    · have hroaming : R d (if ipc.created then d.modifyPeer p fun peer =>
          { peer with disableRoaming := d.net.brokenRoaming && peer.endpoint.isSome } else d) := by
        split
        · exact hmodify d p _ hp fun _ => rfl
        · exact hrefl d
      -- roaming first, and then the start and the keepalive of a device that is up
      refine htrans hroaming ?_
      generalize (if ipc.created then d.modifyPeer p fun peer =>
        { peer with disableRoaming := d.net.brokenRoaming && peer.endpoint.isSome } else d) = d₁
      split
      · have hstart : R d₁ (d₁.startPeer p) := by
          unfold startPeer
          split
          · exact hrefl d₁
          · exact hmodify d₁ p _ hp fun _ => rfl
        split
        · exact htrans hstart (hsend _ _)
        · exact hstart
      · exact hrefl d₁

theorem finishSet_cases (d : Device B E) (ipc : IpcSetPeer) :
    (∃ err, d.finishSet ipc = (d, some err)) ∨
    d.finishSet ipc = (d.handlePostConfig ipc, none) := by
  unfold finishSet mergeWithDevice
  dsimp only [IpcSetDevice.new, getD_none]
  split_ifs
  · exact Or.inl ⟨_, rfl⟩
  · exact Or.inr rfl

end Device

end AmneziaWG.Device
