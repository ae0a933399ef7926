import AmneziaWG.Lib.Base64
import AmneziaWG.Device.Uapi.Get
import AmneziaWG.Device.Uapi.Independence

/-!
# Fallback Configurations

Embedding of `genIpcString` of `outline/fallback.go`: a configuration, as a YAML file holds it, is
written as the text of a `set` request.  Strings go into the text as they are.

## Main results

- `lines_of_genIpcString`: the text is the lines of the device and then of the peers.
- `isRequest_of_accepted`: when all strings are plain and the request is accepted, these are its
  lines.
-/

namespace AmneziaWG.Outline

open AmneziaWG.Lib AmneziaWG.Device AmneziaWG.Device.Device List Option

/-! ## §1 Configurations -/

structure PeerConfig where
  publicKey : Bytes
  presharedKey : Bytes
  endpoint : Bytes
  allowedIPs : List Bytes
  persistentKeepaliveInterval : BitVec 16

/-- The fields that `genIpcString` reads.  `s` are `S1` to `S4`, `h` are `H1` to `H4`, and `i` are
`I1` to `I5`. -/
structure DeviceConfig where
  privateKey : Bytes
  jc : BitVec 64
  jmin : BitVec 64
  jmax : BitVec 64
  s : HeaderSlot → BitVec 64
  h : HeaderSlot → Bytes
  i : Fin 5 → Bytes
  peers : List PeerConfig

/-! ## §2 The text of a configuration -/

/-- The keys that may be written for the device, in their order. -/
def genKeys : List DeviceKey :=
  [.privateKey, .jc, .jmin, .jmax, .padding .init, .padding .response, .padding .cookie,
    .padding .transport, .header .init, .header .response, .header .cookie, .header .transport,
    .ipacket 0, .ipacket 1, .ipacket 2, .ipacket 3, .ipacket 4]

/-- Numbers that are zero and strings that are empty are not written. -/
def DeviceConfig.shown (cfg : DeviceConfig) : DeviceKey → Bool
  | .privateKey => true
  | .jc => cfg.jc ≠ 0
  | .jmin => cfg.jmin ≠ 0
  | .jmax => cfg.jmax ≠ 0
  | .padding slot => cfg.s slot ≠ 0
  | .header slot => cfg.h slot ≠ []
  | .ipacket i => cfg.i i ≠ []
  | _ => false

def DeviceConfig.value (cfg : DeviceConfig) (privateKeyBytes : Bytes) : DeviceKey → Bytes
  | .privateKey => encodeHex privateKeyBytes
  | .jc => itoa cfg.jc.toInt
  | .jmin => itoa cfg.jmin.toInt
  | .jmax => itoa cfg.jmax.toInt
  | .padding slot => itoa (cfg.s slot).toInt
  | .header slot => cfg.h slot
  | .ipacket i => cfg.i i
  | _ => []

def DeviceConfig.deviceLines (cfg : DeviceConfig) (privateKeyBytes : Bytes) : List Bytes :=
  (genKeys.filter cfg.shown).map fun k => uapiLine k.name (cfg.value privateKeyBytes k)

/-- `base64.StdEncoding.DecodeString`, with the message for an error. -/
def decodeOr (message : String) (s : Bytes) : Except String Bytes :=
  match decodeBase64 s with
  | some bytes => .ok bytes
  | none => .error message

def PeerConfig.presharedKeyLines (peer : PeerConfig) : Except String (List Bytes) :=
  if peer.presharedKey ≠ [] then
    (decodeOr "failed to decode preshared key: %v" peer.presharedKey).map fun presharedKeyBytes =>
      [uapiLine "preshared_key" (encodeHex presharedKeyBytes)]
  else .ok []

/-- The lines that are written for a peer. -/
def PeerConfig.block (peer : PeerConfig) : Except String Block := do
  let publicKeyBytes ← decodeOr "failed to decode public key: %v" peer.publicKey
  let presharedKey ← peer.presharedKeyLines
  return {
    value := encodeHex publicKeyBytes
    lines := uapiLine "endpoint" peer.endpoint ::
      (peer.allowedIPs.map (uapiLine "allowed_ip") ++ (presharedKey ++
      lineIf (peer.persistentKeepaliveInterval ≠ 0) "persistent_keepalive_interval"
        (itoa peer.persistentKeepaliveInterval.toNat))) }

def genIpcString (cfg : DeviceConfig) : Except String Bytes := do
  let privateKeyBytes ← decodeOr "failed to decode private key: %v" cfg.privateKey
  let blocks ← cfg.peers.mapM PeerConfig.block
  return joinLines (cfg.deviceLines privateKeyBytes ++ blocks.flatMap Block.toLines)

variable {s line : Bytes} {α β : Type}

theorem decodeOr_eq_ok {message : String} {bytes : Bytes} (h : decodeOr message s = .ok bytes) :
    decodeBase64 s = some bytes := by
  unfold decodeOr at h
  cases hs : decodeBase64 s with
  | none => rw [hs] at h; cases h
  | some bytes' => rw [hs] at h; cases h; rfl

/-! ## §3 The lines -/

/-- The preshared key of a peer, when it has one. -/
def PeerConfig.PresharedKey (peer : PeerConfig) (psk : Option Bytes) : Prop :=
  if peer.presharedKey = [] then psk = none else ∃ bytes, decodeBase64 peer.presharedKey =
    some bytes ∧ psk = some bytes

/-- The block of a peer, for its keys. -/
def PeerConfig.blockOf (peer : PeerConfig) (pk : Bytes) (psk : Option Bytes) : Block :=
  { value := encodeHex pk
    lines := uapiLine "endpoint" peer.endpoint :: (peer.allowedIPs.map (uapiLine "allowed_ip") ++
      ((psk.toList.map fun bytes => uapiLine "preshared_key" (encodeHex bytes)) ++
        lineIf (peer.persistentKeepaliveInterval ≠ 0) "persistent_keepalive_interval"
          (itoa peer.persistentKeepaliveInterval.toNat))) }

theorem of_block {peer : PeerConfig} {b : Block} (h : peer.block = .ok b) :
    ∃ pk psk, decodeBase64 peer.publicKey = some pk ∧ peer.PresharedKey psk ∧
    b = peer.blockOf pk psk := by
  obtain ⟨pk, hpk, h⟩ := exists_of_bind_eq_ok h
  obtain ⟨lines, hlines, h⟩ := exists_of_bind_eq_ok h
  cases h
  unfold PeerConfig.presharedKeyLines at hlines
  -- a key that is not there is not written; one that is there has to decode
  by_cases hempty : peer.presharedKey = []
  · rw [if_neg (not_not.mpr hempty)] at hlines
    cases hlines
    exact ⟨pk, none, decodeOr_eq_ok hpk, by rw [PeerConfig.PresharedKey, if_pos hempty], rfl⟩
  · rw [if_pos hempty] at hlines
    cases hbytes : decodeOr "failed to decode preshared key: %v" peer.presharedKey with
    | error err => rw [hbytes] at hlines; cases hlines
    | ok bytes =>
      rw [hbytes] at hlines
      cases hlines
      refine ⟨pk, some bytes, decodeOr_eq_ok hpk, ?_, rfl⟩
      rw [PeerConfig.PresharedKey, if_neg hempty]
      exact ⟨bytes, decodeOr_eq_ok hbytes, rfl⟩

/-- The strings that go into the text as they are. -/
def DeviceConfig.strings (cfg : DeviceConfig) : List Bytes :=
  [HeaderSlot.init, .response, .cookie, .transport].map cfg.h ++ ((List.finRange 5).map cfg.i ++
    cfg.peers.flatMap fun peer => peer.endpoint :: peer.allowedIPs)

section

variable (cfg : DeviceConfig)

theorem DeviceConfig.header_mem_strings (slot : HeaderSlot) : cfg.h slot ∈ cfg.strings :=
  mem_append_left _ (mem_map_of_mem (by cases slot <;> decide))

theorem DeviceConfig.ipacket_mem_strings (i : Fin 5) : cfg.i i ∈ cfg.strings :=
  mem_append_right _ (mem_append_left _ (mem_map_of_mem (mem_finRange i)))

theorem DeviceConfig.peer_mem_strings {peer : PeerConfig} (hpeer : peer ∈ cfg.peers)
    (hs : s ∈ peer.endpoint :: peer.allowedIPs) : s ∈ cfg.strings :=
  mem_append_right _ (mem_append_right _ (mem_flatMap_of_mem hpeer hs))

theorem DeviceConfig.mem_strings_iff :
    s ∈ cfg.strings ↔ (∃ slot, s = cfg.h slot) ∨ (∃ i, s = cfg.i i) ∨
      ∃ peer ∈ cfg.peers, s = peer.endpoint ∨ s ∈ peer.allowedIPs := by
  constructor
  · intro hs
    simp only [DeviceConfig.strings, List.mem_append, List.mem_map, List.mem_flatMap,
      List.mem_cons] at hs
    rcases hs with ⟨slot, -, rfl⟩ | ⟨i, -, rfl⟩ | ⟨peer, hpeer, hs⟩
    · exact Or.inl ⟨slot, rfl⟩
    · exact Or.inr (Or.inl ⟨i, rfl⟩)
    · exact Or.inr (Or.inr ⟨peer, hpeer, hs⟩)
  · rintro (⟨slot, rfl⟩ | ⟨i, rfl⟩ | ⟨peer, hpeer, hs⟩)
    · exact cfg.header_mem_strings slot
    · exact cfg.ipacket_mem_strings i
    · exact cfg.peer_mem_strings hpeer (List.mem_cons.mpr hs)

theorem DeviceConfig.value_cases (sk : Bytes) (k : DeviceKey) :
    IsPlain (cfg.value sk k) ∨ cfg.value sk k ∈ cfg.strings := by
  cases k
  case privateKey => exact Or.inl (isPlain_of_forall (plain_encodeHex sk))
  case jc | jmin | jmax | padding => exact Or.inl (isPlain_of_forall (plain_itoa _))
  case header slot => exact Or.inr (cfg.header_mem_strings slot)
  case ipacket i => exact Or.inr (cfg.ipacket_mem_strings i)
  case listenPort | fwmark | replacePeers | imitateProtocol => exact Or.inl ⟨not_mem_nil, nofun⟩

end

def peerNames : List String :=
  ["endpoint", "allowed_ip", "preshared_key", "persistent_keepalive_interval"]

theorem of_mem_blockOf {peer : PeerConfig} {pk : Bytes} {psk : Option Bytes}
    (h : line ∈ (peer.blockOf pk psk).lines) :
    ∃ name ∈ peerNames, ∃ value, line = uapiLine name value ∧
      (IsPlain value ∨ value ∈ peer.endpoint :: peer.allowedIPs) := by
  simp only [PeerConfig.blockOf, List.mem_cons, List.mem_append, List.mem_map, lineIf] at h
  rcases h with rfl | ⟨text, htext, rfl⟩ | ⟨bytes, -, rfl⟩ | h
  · exact ⟨"endpoint", by decide, peer.endpoint, rfl, Or.inr List.mem_cons_self⟩
  · exact ⟨"allowed_ip", by decide, text, rfl, Or.inr (List.mem_cons_of_mem _ htext)⟩
  · exact ⟨"preshared_key", by decide, _, rfl, Or.inl (isPlain_of_forall (plain_encodeHex bytes))⟩
  · split_ifs at h
    · rw [List.mem_singleton.mp h]
      exact ⟨"persistent_keepalive_interval", by decide, _, rfl,
        Or.inl (isPlain_of_forall (plain_itoa _))⟩
    · cases h

/-- **The text of a configuration** and the blocks of its peers. -/
theorem lines_of_genIpcString {cfg : DeviceConfig} {text : Bytes}
    (h : genIpcString cfg = .ok text) :
    ∃ sk blocks, decodeBase64 cfg.privateKey = some sk ∧
      List.Forall₂ (fun peer b => ∃ pk psk, decodeBase64 peer.publicKey = some pk ∧
        peer.PresharedKey psk ∧ b = peer.blockOf pk psk) cfg.peers blocks ∧
      text = joinLines (cfg.deviceLines sk ++ blocks.flatMap Block.toLines) := by
  obtain ⟨sk, hsk, h⟩ := exists_of_bind_eq_ok h
  obtain ⟨blocks, hblocks, h⟩ := exists_of_bind_eq_ok h
  cases h
  exact ⟨sk, blocks, decodeOr_eq_ok hsk, (forall₂_of_mapM_eq_ok hblocks).imp fun peer b hb =>
    of_block hb, rfl⟩

section Lines

variable {cfg : DeviceConfig} {sk : Bytes} {blocks : List Block}
  (hblocks : List.Forall₂ (fun peer b => ∃ pk psk, decodeBase64 peer.publicKey = some pk ∧
    peer.PresharedKey psk ∧ b = peer.blockOf pk psk) cfg.peers blocks)

include hblocks

/-- A line of the text has a name without a line end, and a value that is plain or one of the
strings. -/
theorem of_mem_lines {line : Bytes}
    (h : line ∈ cfg.deviceLines sk ++ blocks.flatMap Block.toLines) :
    ∃ name value, (0x0a : Byte) ∉ ascii name ∧ line = uapiLine name value ∧
      (IsPlain value ∨ value ∈ cfg.strings) := by
  rcases mem_append.mp h with h | h
  · obtain ⟨k, -, rfl⟩ := mem_map.mp h
    exact ⟨k.name, _, k.name_plain.2.1, rfl, cfg.value_cases sk k⟩
  · -- a block begins with the public key, in hexadecimal
    obtain ⟨b, hb, h⟩ := mem_flatMap.mp h
    obtain ⟨peer, hpeer, pk, psk, -, -, rfl⟩ := exists_of_mem_right hblocks hb
    rcases mem_cons.mp h with rfl | h
    · exact ⟨"public_key", _, by decide, rfl, Or.inl (isPlain_of_forall (plain_encodeHex pk))⟩
    · obtain ⟨name, hname, value, rfl, hvalue⟩ := of_mem_blockOf h
      have hplain : ∀ name ∈ peerNames, (0x0a : Byte) ∉ ascii name := by decide
      exact ⟨name, value, hplain name hname, rfl, hvalue.imp_right (cfg.peer_mem_strings hpeer)⟩

theorem isPlain_lines (hplain : ∀ s ∈ cfg.strings, IsPlain s) {line : Bytes}
    (h : line ∈ cfg.deviceLines sk ++ blocks.flatMap Block.toLines) : IsPlain line ∧ line ≠ [] := by
  obtain ⟨name, value, hname, rfl, hvalue⟩ := of_mem_lines hblocks h
  exact ⟨isPlain_uapiLine hname (hvalue.elim id (hplain value)), uapiLine_ne_nil name value⟩

/-- When all strings are plain, a request that is accepted has exactly the lines that were
written. -/
theorem isRequest_of_accepted {B E : Type} {env : Env B E} (hplain : ∀ s ∈ cfg.strings, IsPlain s)
    {d : Device B E}
    (haccepted : (d.ipcSet env (joinLines (cfg.deviceLines sk ++ blocks.flatMap Block.toLines))).2 =
      none) :
    IsRequest (joinLines (cfg.deviceLines sk ++ blocks.flatMap Block.toLines))
      (cfg.deviceLines sk ++ blocks.flatMap Block.toLines) := by
  have hlines : ∀ line ∈ cfg.deviceLines sk ++ blocks.flatMap Block.toLines, IsPlain line ∧
      line ≠ [] :=
    fun line hline => isPlain_lines hblocks hplain hline
  -- the scanner gives all lines, or stops at one that is too long
  rcases scanLines_joinLines_cases hlines with hscan | ⟨hlong, hblank⟩
  · rw [IsRequest, hscan]
    refine ⟨takeWhile_eq_self_iff.mpr fun line hline => ?_, Or.inr rfl⟩
    rw [decide_eq_true_iff]
    exact (hlines line hline).2
  · rw [ipcSet] at haccepted
    rcases hscan : scanLines
      (joinLines (cfg.deviceLines sk ++ blocks.flatMap Block.toLines)) with ⟨lines, tooLong⟩
    rw [hscan] at haccepted hlong hblank
    dsimp only at haccepted hlong hblank
    subst hlong
    exact absurd haccepted (ipcSetLines_tooLong hblank fun htrue => absurd htrue (by decide))

end Lines

theorem not_isKeyLine_deviceLines {cfg : DeviceConfig} {sk : Bytes}
    (h : line ∈ cfg.deviceLines sk) :
    ¬IsKeyLine line := by
  obtain ⟨k, -, rfl⟩ := mem_map.mp h
  rw [IsKeyLine, cutByte_uapiLine]
  intro hkey
  have hnone : deviceKey (ascii "public_key") = none := by decide
  rw [← some.inj hkey] at hnone
  rw [deviceKey_name] at hnone
  cases hnone

theorem cutByte_peerName {name : String} (h : name ∈ peerNames) (value : Bytes) :
    cutByte (asciiByte '=') (uapiLine name value) = some (ascii name, value) := by
  have hplain : ∀ name ∈ peerNames, asciiByte '=' ∉ ascii name := by decide
  exact cutByte_append value (hplain name h)

theorem not_isKeyLine_blockOf {peer : PeerConfig} {pk : Bytes} {psk : Option Bytes}
    (h : line ∈ (peer.blockOf pk psk).lines) : ¬IsKeyLine line := by
  obtain ⟨name, hname, value, rfl, -⟩ := of_mem_blockOf h
  rw [IsKeyLine, cutByte_peerName hname]
  have hne : ∀ name ∈ peerNames, ascii name ≠ ascii "public_key" := by decide
  intro hkey
  exact hne name hname (some.inj hkey)

end AmneziaWG.Outline
