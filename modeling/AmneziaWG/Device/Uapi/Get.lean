import AmneziaWG.Device.Uapi.Bookkeeping
import AmneziaWG.Device.Uapi.Configured

/-!
# The UAPI Get Operation

Embedding of `IpcGetOperation` (`device/uapi.go`), and the way back: the device lines that a
configured device prints configure a new device in the same way.

What a device prints is a list of settings (`dump`), each of which is read back from its line; a new
device to which they are applied prints them again.

## Main results

- `lineSetting_render`: a printed setting is read back.
- `applySettings_dump`: the printed settings restore the device.
- `Configured.dump_restores`: the printed device lines are accepted by a new device, which prints
  them again.
-/

set_option linter.dupNamespace false

namespace AmneziaWG.Device

open AmneziaWG.Lib List Option Nat Function Setting

/-! ## §1 Printing -/

def imitateProtoName : ImitateProto → Bytes
  | .quic => ascii "quic"
  | .dns => ascii "dns"
  | .stun => ascii "stun"
  | .sip => ascii "sip"
  | .none => ascii "none"

/-- What `IpcGetOperation` shows of peers besides their configuration, and how endpoints and
prefixes are printed. -/
structure Report (E : Type) where
  dstToString : E → Bytes
  prefixString : Bytes → ℕ → Bytes
  lastHandshakeNano : ℕ → ℤ
  txBytes : ℕ → ℕ
  rxBytes : ℕ → ℕ

def lineIf (shown : Bool) (name : String) (value : Bytes) : List Bytes :=
  if shown then [uapiLine name value] else []

namespace Device

variable {B E : Type}

/-- The device lines of `IpcGetOperation`. -/
def deviceLines (d : Device B E) : List Bytes :=
  lineIf (d.privateKey ≠ zeroKey) "private_key" (encodeHex d.privateKey) ++
  (lineIf (d.net.port ≠ 0) "listen_port" (decimal d.net.port.toNat) ++
  (lineIf (d.net.fwmark ≠ 0) "fwmark" (decimal d.net.fwmark.toNat) ++
  (lineIf (d.junk.count ≠ 0) "jc" (itoa d.junk.count) ++
  (lineIf (d.junk.min ≠ 0) "jmin" (itoa d.junk.min) ++
  (lineIf (d.junk.max ≠ 0) "jmax" (itoa d.junk.max) ++
  (lineIf (d.paddings.init ≠ 0) "s1" (itoa d.paddings.init) ++
  (lineIf (d.paddings.response ≠ 0) "s2" (itoa d.paddings.response) ++
  (lineIf (d.paddings.cookie ≠ 0) "s3" (itoa d.paddings.cookie) ++
  (lineIf (d.paddings.transport ≠ 0) "s4" (itoa d.paddings.transport) ++
  (lineIf (d.imitate ≠ .none) "imitate_protocol" (imitateProtoName d.imitate) ++
  ([uapiLine "h1" d.headers.init.genSpec, uapiLine "h2" d.headers.response.genSpec,
    uapiLine "h3" d.headers.cookie.genSpec, uapiLine "h4" d.headers.transport.genSpec] ++
  (List.finRange 5).filterMap fun i => (d.ipackets i).map fun ipacket =>
    uapiLine (DeviceKey.ipacket i).name ipacket.spec)))))))))))

def peerLines (report : Report E) (d : Device B E) (p : ℕ) : List Bytes :=
  let peer := d.peer p
  [uapiLine "public_key" (encodeHex peer.remoteStatic),
    uapiLine "preshared_key" (encodeHex peer.presharedKey),
    uapiLine "protocol_version" (ascii "1")] ++
  (peer.endpoint.toList.map fun endpoint => uapiLine "endpoint" (report.dstToString endpoint)) ++
  [uapiLine "last_handshake_time_sec" (itoa ((report.lastHandshakeNano p).tdiv 1000000000)),
    uapiLine "last_handshake_time_nsec" (itoa ((report.lastHandshakeNano p).tmod 1000000000)),
    uapiLine "tx_bytes" (decimal (report.txBytes p)),
    uapiLine "rx_bytes" (decimal (report.rxBytes p)),
    uapiLine "persistent_keepalive_interval" (decimal peer.persistentKeepaliveInterval)] ++
  (d.allowedips.table.trieEntries p).map fun n =>
    let node := d.allowedips.table.node n
    uapiLine "allowed_ip" (report.prefixString node.bits node.cidr)

/-- What `IpcGetOperation` writes.  The order of the peers is that of the map. -/
def ipcGet (report : Report E) (d : Device B E) : Bytes :=
  unlines (d.deviceLines ++ d.keyMap.flatMap fun (_, p) => d.peerLines report p)

end Device

/-! ## §2 Printed settings -/

def Setting.key : Setting → DeviceKey
  | .privateKey _ => .privateKey
  | .listenPort _ => .listenPort
  | .fwmark _ => .fwmark
  | .replacePeers => .replacePeers
  | .jc _ => .jc
  | .jmin _ => .jmin
  | .jmax _ => .jmax
  | .padding slot _ => .padding slot
  | .imitateProtocol _ => .imitateProtocol
  | .header slot _ => .header slot
  | .ipacket i _ => .ipacket i

/-- The value of a setting as it is printed. -/
def Setting.value : Setting → Bytes
  | .privateKey sk => encodeHex sk
  | .listenPort port => decimal port.toNat
  | .fwmark mark => decimal mark.toNat
  | .replacePeers => ascii "true"
  | .jc n | .jmin n | .jmax n | .padding _ n => itoa n
  | .imitateProtocol proto => imitateProtoName proto
  | .header _ h => h.genSpec
  | .ipacket _ chain => chain.spec

def Setting.render (s : Setting) : Bytes := uapiLine s.key.name s.value

theorem atoi_itoa_nonneg {n : ℤ} (h₀ : 0 ≤ n) (h : n < 2 ^ 63) : atoi (itoa n) = .ok n :=
  atoi_itoa (Int.le_trans (by decide) h₀) h

/-- **A printed setting is read back.** -/
theorem lineSetting_render {s : Setting} (h : s.Valid) : lineSetting s.render = some s := by
  have hpositive : ∀ {n : ℤ}, 0 < n ∧ n < 2 ^ 63 → readInt (0 < ·) (itoa n) = some n := by
    intro n hn
    simp [readInt, atoi_itoa_nonneg (Int.le_of_lt hn.1) hn.2, hn.1]
  rw [render, lineSetting_uapiLine]
  cases s <;> simp only [key, value, readSetting]
  case privateKey sk =>
    obtain ⟨hlen, hclamp⟩ := h
    have hload : loadExactHex (encodeHex sk) = .ok sk := by
      simp [loadExactHex, decodeHex_encodeHex, hlen]
    -- a key that is not zero has been clamped before, and clamping again keeps it
    have hsk : fromMaybeZeroHex (encodeHex sk) = .ok sk := by
      rw [fromMaybeZeroHex, hload]
      show Except.ok (if sk = zeroKey then sk else clamp sk) = Except.ok sk
      split_ifs with hzero
      · rfl
      · rw [hclamp.resolve_left hzero]
    rw [hsk]
    rfl
  case listenPort port =>
    rw [parseUint_decimal port.isLt]
    show some (listenPort (BitVec.ofNat 16 port.toNat)) = _
    rw [BitVec.ofNat_toNat, BitVec.setWidth_eq]
  case fwmark mark =>
    rw [parseUint_decimal mark.isLt]
    show some (fwmark (BitVec.ofNat 32 mark.toNat)) = _
    rw [BitVec.ofNat_toNat, BitVec.setWidth_eq]
  case replacePeers => rfl
  case jc n => rw [hpositive h]; rfl
  case jmin n => rw [hpositive h]; rfl
  case jmax n => rw [hpositive h]; rfl
  case padding slot n => simp [readInt, atoi_itoa_nonneg h.1 h.2, h.1]
  case imitateProtocol proto => cases proto <;> decide
  case header slot header => rw [newMagicHeader_genSpec]; rfl
  case ipacket i chain =>
    have hchain : newObfChain chain.spec = .ok chain := h
    rw [hchain]
    rfl

/-! ## §3 Printed lines -/

theorem isLine_uapiLine (k : DeviceKey) {value : Bytes} (hnewline : (0x0a : Byte) ∉ value)
    (hcr : value.getLast? ≠ some 0x0d)
    (hshort : (uapiLine k.name value).length < maxScanTokenSize) :
    IsLine (uapiLine k.name value) :=
  { isPlain_uapiLine k.name_plain.2.1 ⟨hnewline, hcr⟩ with short := hshort }

theorem isLine_of_plain (k : DeviceKey) {value : Bytes} (hplain : ∀ b ∈ value, b ≠ 0x0a ∧ b ≠ 0x0d)
    (hshort : value.length ≤ 64) : IsLine (uapiLine k.name value) := by
  refine isLine_uapiLine k (fun hmem => (hplain _ hmem).1 rfl) (fun hlast => ?_) ?_
  · exact (hplain _ (mem_of_getLast? hlast)).2 rfl
  · have hname := k.name_plain.2.2
    have hmax : maxScanTokenSize = 65536 := rfl
    rw [uapiLine, length_append, length_cons]
    omega

theorem plain_decimal (n : ℕ) : ∀ b ∈ decimal n, b ≠ 0x0a ∧ b ≠ 0x0d := by
  intro b hb
  constructor <;> rintro rfl <;> exact not_mem_decimal (by decide) hb

theorem plain_itoa (n : ℤ) : ∀ b ∈ itoa n, b ≠ 0x0a ∧ b ≠ 0x0d := by
  intro b hb
  unfold itoa at hb
  split at hb
  · rcases mem_cons.mp hb with rfl | hb
    · decide
    · exact plain_decimal _ b hb
  · exact plain_decimal _ b hb

theorem plain_encodeHex (bs : Bytes) : ∀ b ∈ encodeHex bs, b ≠ 0x0a ∧ b ≠ 0x0d := by
  intro b hb
  have hhex := hexValue_of_mem_encodeHex hb
  constructor <;> rintro rfl <;> exact absurd hhex (by decide)

theorem length_itoa {n : ℤ} (h₀ : 0 ≤ n) (h : n < 2 ^ 63) : (itoa n).length ≤ 64 := by
  rw [itoa, if_neg (Int.not_lt.mpr h₀)]
  refine le_trans (decimal_length_le (by decide : 0 < 19) ?_) (by decide)
  omega

theorem length_decimal_bitVec {w : ℕ} (hw : w ≤ 32) (v : BitVec w) :
    (decimal v.toNat).length ≤ 10 := by
  refine decimal_length_le (by decide) ?_
  have hlt := v.isLt
  have hpow : 2 ^ w ≤ 2 ^ 32 := Nat.pow_le_pow_right (by decide) hw
  omega

theorem plain_genSpec (h : MagicHeader) :
    (∀ b ∈ h.genSpec, b ≠ 0x0a ∧ b ≠ 0x0d) ∧ h.genSpec.length ≤ 64 := by
  have hstart := length_decimal_bitVec (le_refl 32) h.start
  have hlast := length_decimal_bitVec (le_refl 32) h.last
  unfold MagicHeader.genSpec
  split
  · exact ⟨plain_decimal _, by omega⟩
  · constructor
    · intro b hb
      rcases mem_append.mp hb with hb | hb
      · exact plain_decimal _ b hb
      · rcases mem_cons.mp hb with rfl | hb
        · decide
        · exact plain_decimal _ b hb
    · rw [length_append, length_cons]
      omega

theorem isLine_render {s : Setting} (hs : s.Valid)
    (hipacket : ∀ i chain, s = .ipacket i chain → IsLine s.render) :
    IsLine s.render := by
  cases s
  case ipacket i chain => exact hipacket i chain rfl
  case privateKey sk =>
    refine isLine_of_plain .privateKey (plain_encodeHex sk) ?_
    show (encodeHex sk).length ≤ 64
    rw [length_encodeHex, hs.1]
  case listenPort port =>
    exact isLine_of_plain .listenPort (plain_decimal _)
      (le_trans (length_decimal_bitVec (by decide) port) (by decide))
  case fwmark mark =>
    exact isLine_of_plain .fwmark (plain_decimal _)
      (le_trans (length_decimal_bitVec (by decide) mark) (by decide))
  case replacePeers => exact isLine_of_plain .replacePeers (by decide) (by decide)
  case jc n => exact isLine_of_plain .jc (plain_itoa n) (length_itoa (Int.le_of_lt hs.1) hs.2)
  case jmin n => exact isLine_of_plain .jmin (plain_itoa n) (length_itoa (Int.le_of_lt hs.1) hs.2)
  case jmax n => exact isLine_of_plain .jmax (plain_itoa n) (length_itoa (Int.le_of_lt hs.1) hs.2)
  case padding slot n =>
    exact isLine_of_plain (.padding slot) (plain_itoa n) (length_itoa hs.1 hs.2)
  case imitateProtocol proto =>
    cases proto <;> exact isLine_of_plain .imitateProtocol (by decide) (by decide)
  case header slot h => exact isLine_of_plain (.header slot) (plain_genSpec h).1 (plain_genSpec h).2

namespace Device

variable {B E : Type}

/-! ## §4 What a device prints -/

def settingIf (shown : Bool) (s : Setting) : List Setting := if shown then [s] else []

def dump (d : Device B E) : List Setting :=
  settingIf (d.privateKey ≠ zeroKey) (.privateKey d.privateKey) ++
  (settingIf (d.net.port ≠ 0) (.listenPort d.net.port) ++
  (settingIf (d.net.fwmark ≠ 0) (.fwmark d.net.fwmark) ++
  (settingIf (d.junk.count ≠ 0) (.jc d.junk.count) ++
  (settingIf (d.junk.min ≠ 0) (.jmin d.junk.min) ++
  (settingIf (d.junk.max ≠ 0) (.jmax d.junk.max) ++
  (settingIf (d.paddings.init ≠ 0) (.padding .init d.paddings.init) ++
  (settingIf (d.paddings.response ≠ 0) (.padding .response d.paddings.response) ++
  (settingIf (d.paddings.cookie ≠ 0) (.padding .cookie d.paddings.cookie) ++
  (settingIf (d.paddings.transport ≠ 0) (.padding .transport d.paddings.transport) ++
  (settingIf (d.imitate ≠ .none) (.imitateProtocol d.imitate) ++
  ([.header .init d.headers.init, .header .response d.headers.response,
    .header .cookie d.headers.cookie, .header .transport d.headers.transport] ++
  (List.finRange 5).filterMap fun i => (d.ipackets i).map (.ipacket i))))))))))))

theorem map_settingIf (shown : Bool) (s : Setting) :
    (settingIf shown s).map Setting.render = lineIf shown s.key.name s.value := by
  cases shown <;> rfl

theorem deviceLines_eq (d : Device B E) : d.deviceLines = d.dump.map Setting.render := by
  simp only [dump, List.map_append, map_settingIf, List.map_filterMap, Option.map_map]
  rfl

variable {s : Setting} {d : Device B E} {k : DeviceKey} {ss : List Setting} {env : Env B E}

theorem mem_settingIf {shown : Bool} {s' : Setting} (h : s' ∈ settingIf shown s) :
    shown = true ∧ s' = s := by
  cases shown with
  | false => cases h
  | true => exact ⟨rfl, mem_singleton.mp h⟩

/-- What makes the settings of a device printable. -/
structure Dumpable (d : Device B E) : Prop where
  privateKey : (Setting.privateKey d.privateKey).Valid
  settings : SettingsValid IsLine d.obfuscation

theorem Dumpable.printed (h : d.Dumpable) (hs : s ∈ d.dump) : s.Valid ∧ IsLine s.render := by
  have hpositive : ∀ {n : ℤ}, 0 ≤ n ∧ n < 2 ^ 63 → decide (n ≠ 0) = true → 0 < n ∧ n < 2 ^ 63 := by
    intro n hn hne
    have hne' : n ≠ 0 := of_decide_eq_true hne
    omega
  -- a printed I-packet is a line for another reason than the others
  have hother : ∀ {shown : Bool} {s' : Setting}, s ∈ settingIf shown s' →
    (∀ i c, s' ≠ .ipacket i c) →
      (shown = true → s'.Valid) → s.Valid ∧ IsLine s.render := by
    intro shown s' hmem hne hvalid
    obtain ⟨hshown, rfl⟩ := mem_settingIf hmem
    exact ⟨hvalid hshown, isLine_render (hvalid hshown) fun i c heq => absurd heq (hne i c)⟩
  simp only [dump, mem_append] at hs
  -- one printed setting after the other
  rcases hs with hs | hs | hs | hs | hs | hs | hs | hs | hs | hs | hs | hs | hs
  · exact hother hs nofun (fun _ => h.privateKey)
  · exact hother hs nofun (fun _ => trivial)
  · exact hother hs nofun (fun _ => trivial)
  · exact hother hs nofun (hpositive h.settings.count)
  · exact hother hs nofun (hpositive h.settings.min)
  · exact hother hs nofun (hpositive h.settings.max)
  · exact hother hs nofun (fun _ => h.settings.paddings .init)
  · exact hother hs nofun (fun _ => h.settings.paddings .response)
  · exact hother hs nofun (fun _ => h.settings.paddings .cookie)
  · exact hother hs nofun (fun _ => h.settings.paddings .transport)
  · exact hother hs nofun (fun _ => trivial)
  · simp only [mem_cons, not_mem_nil, or_false] at hs
    rcases hs with rfl | rfl | rfl | rfl <;> exact ⟨trivial, isLine_render trivial nofun⟩
  · obtain ⟨i, -, hi⟩ := mem_filterMap.mp hs
    obtain ⟨c, hc, rfl⟩ := map_eq_some_iff.mp hi
    exact h.settings.ipackets i c hc

/-! ## §5 Applying settings to a device that is down -/

/-- The part of a device that is printed. -/
structure View where
  privateKey : Bytes
  port : BitVec 16
  fwmark : BitVec 32
  obfuscation : Obfuscation

def view (d : Device B E) : View :=
  { privateKey := d.privateKey, port := d.net.port, fwmark := d.net.fwmark,
    obfuscation := d.obfuscation }

/-- The printed part with a setting applied. -/
def View.set (v : View) : Setting → View
  | .privateKey sk => { v with privateKey := sk }
  | .listenPort port => { v with port }
  | .fwmark mark => { v with fwmark := mark }
  | .replacePeers => v
  | s => { v with obfuscation := v.obfuscation.set s }

def View.Has (v : View) : Setting → Prop
  | .privateKey sk => v.privateKey = sk
  | .listenPort port => v.port = port
  | .fwmark mark => v.fwmark = mark
  | .replacePeers => True
  | .jc n => v.obfuscation.junk.count = n
  | .jmin n => v.obfuscation.junk.min = n
  | .jmax n => v.obfuscation.junk.max = n
  | .padding slot n => v.obfuscation.paddings.get slot = n
  | .imitateProtocol proto => v.obfuscation.imitate = proto
  | .header slot h => v.obfuscation.headers.get slot = h
  | .ipacket i chain => v.obfuscation.ipackets i = some chain

/-- The views have the same value under the key. -/
def View.AgreesAt (v v' : View) : DeviceKey → Prop
  | .privateKey => v.privateKey = v'.privateKey
  | .listenPort => v.port = v'.port
  | .fwmark => v.fwmark = v'.fwmark
  | .replacePeers => True
  | .jc => v.obfuscation.junk.count = v'.obfuscation.junk.count
  | .jmin => v.obfuscation.junk.min = v'.obfuscation.junk.min
  | .jmax => v.obfuscation.junk.max = v'.obfuscation.junk.max
  | .padding slot => v.obfuscation.paddings.get slot = v'.obfuscation.paddings.get slot
  | .imitateProtocol => v.obfuscation.imitate = v'.obfuscation.imitate
  | .header slot => v.obfuscation.headers.get slot = v'.obfuscation.headers.get slot
  | .ipacket i => v.obfuscation.ipackets i = v'.obfuscation.ipackets i

theorem View.AgreesAt.trans {v v' v'' : View} (h : v.AgreesAt v' k) (h' : v'.AgreesAt v'' k) :
    v.AgreesAt v'' k := by
  cases k
  case replacePeers => trivial
  all_goals exact Eq.trans h h'

theorem View.AgreesAt.has {v v' : View} (h : v.AgreesAt v' s.key) (hs : v'.Has s) : v.Has s := by
  cases s
  case replacePeers => trivial
  all_goals exact Eq.trans h hs

theorem View.has_set (v : View) (s : Setting) : (v.set s).Has s := by
  cases s
  case replacePeers => trivial
  case padding slot n => cases slot <;> rfl
  case header slot h => cases slot <;> rfl
  case ipacket i chain => exact update_self i (some chain) v.obfuscation.ipackets
  all_goals rfl

theorem View.agreesAt_set (v : View) (h : s.key ≠ k) : (v.set s).AgreesAt v k := by
  cases s <;> cases k <;> first | exact rfl | exact trivial | exact absurd rfl h | skip
  case padding.padding slot n slot' => cases slot <;> cases slot' <;>
    first | rfl | exact absurd rfl h
  case header.header slot n slot' => cases slot <;> cases slot' <;> first | rfl | exact absurd rfl h
  case ipacket.ipacket i chain j =>
    have hne : j ≠ i := fun hj => h (by rw [hj]; rfl)
    exact update_of_ne hne _ _

theorem View.agreesAt_foldl (v : View) (h : k ∉ ss.map Setting.key) :
    (ss.foldl View.set v).AgreesAt v k := by
  induction ss generalizing v with
  | nil => cases k <;> first | exact rfl | exact trivial
  | cons s ss ih =>
    rw [List.map_cons, List.mem_cons, not_or] at h
    exact (ih (v.set s) h.2).trans (v.agreesAt_set (Ne.symm h.1))

/-- Of settings with different keys each is in force at the end. -/
theorem View.has_foldl (v : View) (hkeys : (ss.map Setting.key).Nodup)
    (hs : s ∈ ss) : (ss.foldl View.set v).Has s := by
  induction ss generalizing v with
  | nil => cases hs
  | cons s' ss ih =>
    obtain ⟨hkey, hkeys⟩ := nodup_cons.mp hkeys
    rcases mem_cons.mp hs with rfl | hs
    · exact (View.agreesAt_foldl (v.set s) hkey).has (v.has_set s)
    · exact ih (v.set s') hkeys hs

theorem dump_of_view {B' E' : Type} {d' : Device B' E'} (h : d'.view = d.view) :
    d'.dump = d.dump := by
  have hprivate : d'.privateKey = d.privateKey := congrArg View.privateKey h
  have hport : d'.net.port = d.net.port := congrArg View.port h
  have hmark : d'.net.fwmark = d.net.fwmark := congrArg View.fwmark h
  have hobf : d'.obfuscation = d.obfuscation := congrArg View.obfuscation h
  have hjunk : d'.junk = d.junk := congrArg Obfuscation.junk hobf
  have hheaders : d'.headers = d.headers := congrArg Obfuscation.headers hobf
  have hpaddings : d'.paddings = d.paddings := congrArg Obfuscation.paddings hobf
  have hipackets : d'.ipackets = d.ipackets := congrArg Obfuscation.ipackets hobf
  have himitate : d'.imitate = d.imitate := congrArg Obfuscation.imitate hobf
  rw [dump, dump, hprivate, hport, hmark, hjunk, hheaders, hpaddings, hipackets, himitate]

/-- What work on peers leaves alone. -/
def base (d : Device B E) : DeviceState × Net B × Bytes := (d.state, d.net, d.privateKey)

theorem foldl_base {α : Type} {f : Device B E → α → Device B E} (hf : ∀ d a, (f d a).base = d.base)
    (l : List α) (d : Device B E) : (l.foldl f d).base = d.base := by
  induction l generalizing d with
  | nil => rfl
  | cons a l ih => rw [foldl_cons, ih, hf]

theorem removeAllPeers_base (d : Device B E) : d.removeAllPeers.base = d.base :=
  foldl_base (f := fun d (entry : Bytes × ℕ) => d.removePeerLocked entry.2 entry.1) (fun _ _ => rfl)
    d.keyMap d

theorem markEndpointSrcs_base (d : Device B E) : d.markEndpointSrcs.base = d.base := by
  apply foldl_base
  intro d entry
  rfl

theorem setPrivateKey_base (env : Env B E) (d : Device B E) (sk : Bytes) :
    (d.setPrivateKey env sk).base = (d.state, d.net, sk) := by
  unfold setPrivateKey
  split
  · next hsk => rw [base, ← hsk]
  · dsimp only
    -- the peers with the new key go, and then all others get new secrets
    have hremoved := foldl_base (f := fun (d : Device B E) (entry : Bytes × ℕ) =>
      if (d.peer entry.2).remoteStatic = env.scalarBaseMult sk then
        d.removePeerLocked entry.2 entry.1 else d)
      (fun d entry => by split <;> rfl) d.keyMap d
    simp only [base, Prod.mk.injEq] at hremoved
    rw [foldl_base]
    · show (_, _, sk) = (_, _, sk)
      rw [hremoved.1, hremoved.2.1]
    · intro d entry
      rfl

/-- On a device that is down a setting changes what is printed, and nothing else that matters here;
only `listen_port` touches the bind, by closing it. -/
theorem applySetting_down (env : Env B E) (hdown : d.state = .down) (s : Setting) :
    (d.applySetting env s).1.state = .down ∧ (d.applySetting env s).1.view = d.view.set s ∧
      ((∀ port, s ≠ .listenPort port) →
        (d.applySetting env s).2 = true ∧ (d.applySetting env s).1.net.bind = d.net.bind) ∧
      ∀ port, s = .listenPort port → (d.applySetting env s).2 = (env.bindClose d.net.bind).2 := by
  have hobf := applySetting_obfuscation env d s
  cases s <;> simp only [applySetting] at hobf ⊢
  -- work on peers changes nothing that is printed, apart from the key
  case privateKey sk =>
    have hbase := setPrivateKey_base env d sk
    simp only [base, Prod.mk.injEq] at hbase
    obtain ⟨hstate, hnet, hsk⟩ := hbase
    refine ⟨hstate.trans hdown, ?_, fun _ => ⟨trivial, by rw [hnet]⟩, fun _ hport => by cases hport⟩
    rw [view, hsk, hnet, hobf]
    rfl
  -- while the device is down, `BindUpdate` ends after the close
  case listenPort port =>
    have hup : ¬d.isUp = true := by simp [isUp, hdown]
    unfold bindUpdate closeBindLocked at hobf ⊢
    rcases hclose : env.bindClose d.net.bind with ⟨bind, ok⟩
    cases ok with
    | false => exact ⟨hdown, rfl, fun hne => absurd rfl (hne port), fun _ _ => rfl⟩
    | true =>
      have hup' : ¬isUp { d with net := { d.net with port, bind, receivers := 0 } } = true := hup
      simp only [Bool.not_eq_true] at hup'
      simp only [hup', Bool.not_false, if_true]
      exact ⟨hdown, rfl, fun hne => absurd rfl (hne port), fun _ _ => trivial⟩
  -- the mark is remembered, and no bind is asked
  case fwmark mark =>
    unfold bindSetMark at hobf ⊢
    split
    · next hsame =>
      subst hsame
      exact ⟨hdown, rfl, fun _ => ⟨rfl, rfl⟩, fun _ hport => by cases hport⟩
    · have hup : ¬isUp { d with net := { d.net with fwmark := mark } } = true := by
        simp [isUp, hdown]
      dsimp only
      rw [if_neg hup]
      simp only [if_true]
      have hbase := markEndpointSrcs_base { d with net := { d.net with fwmark := mark } }
      have hobf' :=
        peerRel_obfuscation.markEndpointSrcs { d with net := { d.net with fwmark := mark } }
      simp only [base, Prod.mk.injEq] at hbase
      obtain ⟨hstate, hnet, hsk⟩ := hbase
      refine ⟨hstate.trans hdown, ?_, fun _ => ⟨trivial, by rw [hnet]⟩,
        fun _ hport => by cases hport⟩
      rw [view, hsk, hnet, hobf']
      rfl
  case replacePeers =>
    have hbase := removeAllPeers_base d
    simp only [base, Prod.mk.injEq] at hbase
    obtain ⟨hstate, hnet, hsk⟩ := hbase
    refine ⟨hstate.trans hdown, ?_, fun _ => ⟨trivial, by rw [hnet]⟩, fun _ hport => by cases hport⟩
    rw [view, hsk, hnet, hobf]
    rfl
  case jc | jmin | jmax | padding | imitateProtocol | header | ipacket =>
    exact ⟨hdown, rfl, fun _ => ⟨trivial, trivial⟩, fun _ hport => by cases hport⟩

/-- Settings without `listen_port` are applied whatever the bind does. -/
theorem applySettings_noPort (env : Env B E) (hss : ∀ s ∈ ss, ∀ port, s ≠ .listenPort port)
    (hdown : d.state = .down) :
    ∃ d', d.applySettings env ss = some d' ∧ d'.view = ss.foldl View.set d.view := by
  induction ss generalizing d with
  | nil => exact ⟨d, rfl, rfl⟩
  | cons s ss ih =>
    obtain ⟨hs, hrest⟩ := forall_mem_cons.mp hss
    obtain ⟨hdown', hview, hother, -⟩ := applySetting_down env hdown s
    rcases happly : d.applySetting env s with ⟨d₁, ok⟩
    rw [happly] at hdown' hview hother
    obtain ⟨d', hd', hview'⟩ := ih hrest hdown'
    refine ⟨d', ?_, ?_⟩
    · rw [applySettings, happly]
      dsimp only at hother
      rw [(hother hs).1]
      exact hd'
    · rw [hview', hview, foldl_cons]

def isPort : Setting → Bool
  | .listenPort _ => true
  | _ => false

/-- With one `listen_port`, it is enough that the bind can be closed once. -/
theorem applySettings_down (env : Env B E) (hports : ss.countP isPort ≤ 1)
    (hdown : d.state = .down) (hclose : (env.bindClose d.net.bind).2 = true) :
    ∃ d', d.applySettings env ss = some d' ∧ d'.view = ss.foldl View.set d.view := by
  induction ss generalizing d with
  | nil => exact ⟨d, rfl, rfl⟩
  | cons s ss ih =>
    obtain ⟨hdown', hview, hother, hport⟩ := applySetting_down env hdown s
    rcases happly : d.applySetting env s with ⟨d₁, ok⟩
    rw [happly] at hdown' hview hother hport
    dsimp only at hother hport
    rw [countP_cons] at hports
    -- the bind is closed now, or it is as it was
    have hrest : ok = true ∧ ∃ d', d₁.applySettings env ss = some d' ∧
        d'.view = ss.foldl View.set d₁.view := by
      by_cases hs : ∃ port, s = .listenPort port
      · obtain ⟨port, rfl⟩ := hs
        have hnone : ss.countP isPort = 0 := by
          simp only [isPort, if_true] at hports
          omega
        refine ⟨(hport port rfl).trans hclose,
          applySettings_noPort env (fun s hs port => ?_) hdown'⟩
        rintro rfl
        exact countP_eq_zero.mp hnone _ hs rfl
      · obtain ⟨hok, hbind⟩ := hother (not_exists.mp hs)
        exact ⟨hok, ih (by omega) hdown' (hbind ▸ hclose)⟩
    obtain ⟨rfl, d', hd', hview'⟩ := hrest
    refine ⟨d', ?_, ?_⟩
    · rw [applySettings, happly]
      exact hd'
    · rw [hview', hview, foldl_cons]

/-! ## §6 The way back -/

theorem countP_settingIf (shown : Bool) (s : Setting) :
    (settingIf shown s).countP isPort = (shown && isPort s).toNat := by
  cases shown with
  | false => rfl
  | true => cases hs : isPort s <;> simp [settingIf, hs]

theorem countP_dump (d : Device B E) : d.dump.countP isPort ≤ 1 := by
  have hipackets :
      ((finRange 5).filterMap fun i => (d.ipackets i).map (ipacket i)).countP isPort = 0 := by
    refine countP_eq_zero.mpr fun s hs => ?_
    obtain ⟨i, -, hi⟩ := mem_filterMap.mp hs
    obtain ⟨c, -, rfl⟩ := map_eq_some_iff.mp hi
    exact Bool.false_ne_true
  simp only [dump, countP_append, countP_settingIf, hipackets, isPort, Bool.and_false,
    Bool.and_true, Bool.toNat_false]
  simpa [isPort] using Bool.toNat_le _

theorem foldl_settingIf {v : View} (v' : View) {shown : Bool} (hshown : v.set s = v')
    (hhidden : shown = false → v = v') : (settingIf shown s).foldl View.set v = v' := by
  cases shown with
  | false => exact hhidden rfl
  | true => exact hshown

def View.withIPackets (v : View) (ipackets : Fin 5 → Option ObfChain) : View :=
  { v with obfuscation := { v.obfuscation with ipackets } }

theorem foldl_ipackets (g : Fin 5 → Option ObfChain) {slots : List (Fin 5)} (hnodup : slots.Nodup)
    (v : View) (hfresh : ∀ i ∈ slots, v.obfuscation.ipackets i = none) :
    (slots.filterMap fun i => (g i).map (Setting.ipacket i)).foldl View.set v =
      v.withIPackets fun i => if i ∈ slots then g i else v.obfuscation.ipackets i := by
  -- a slot that is not printed had no I-packet before either
  induction slots generalizing v with
  | nil => rfl
  | cons j slots ih =>
    obtain ⟨hj, hnodup'⟩ := nodup_cons.mp hnodup
    obtain ⟨hfreshj, hfresh'⟩ := forall_mem_cons.mp hfresh
    cases hg : g j with
    | none =>
      rw [filterMap_cons_none (by rw [hg]; rfl), ih hnodup' v hfresh']
      refine congrArg v.withIPackets (funext fun i => ?_)
      by_cases hi : i = j
      · rw [hi, if_neg hj, if_pos mem_cons_self, hg, hfreshj]
      · simp only [mem_cons, hi, false_or]
    | some c =>
      rw [filterMap_cons_some (by rw [hg]; rfl), foldl_cons, ih hnodup' _ ?_]
      · refine congrArg v.withIPackets (funext fun i => ?_)
        show (if i ∈ slots then g i else update v.obfuscation.ipackets j (some c) i) = _
        by_cases hi : i = j
        · rw [hi, if_neg hj, if_pos mem_cons_self, hg, update_self]
        · rw [update_of_ne hi]
          simp only [mem_cons, hi, false_or]
      · intro i hi
        show update v.obfuscation.ipackets j (some c) i = none
        rw [update_of_ne (ne_of_mem_of_not_mem hi hj)]
        exact hfresh' i hi

/-- **The printed settings restore what is printed** on a new device. -/
theorem foldl_dump {B' E' : Type} (d : Device B E) (bind : B') :
    d.dump.foldl View.set (newDevice bind : Device B' E').view = d.view := by
  -- what is in force after each setting; what is not printed has its first value
  let o (junk : Junk) (paddings : Paddings) (imitate : ImitateProto) : Obfuscation :=
    { junk, headers := Headers.default, paddings, ipackets := fun _ => none, imitate }
  let v (junk : Junk) (paddings : Paddings) (imitate : ImitateProto) : View :=
    ⟨d.privateKey, d.net.port, d.net.fwmark, o junk paddings imitate⟩
  have hzero : ∀ {n : ℤ}, decide (n ≠ 0) = false → n = 0 := by
    intro n hn
    simpa using hn
  rw [dump]
  rw [foldl_append, foldl_settingIf ⟨d.privateKey, 0, 0, o ⟨0, 0, 0⟩ ⟨0, 0, 0, 0⟩ .none⟩ rfl
    fun h => by rw [show d.privateKey = zeroKey by simpa using h]; rfl]
  rw [foldl_append,
    foldl_settingIf ⟨d.privateKey, d.net.port, 0, o ⟨0, 0, 0⟩ ⟨0, 0, 0, 0⟩ .none⟩ rfl
    fun h => by rw [show d.net.port = 0 by simpa using h]]
  rw [foldl_append, foldl_settingIf (v ⟨0, 0, 0⟩ ⟨0, 0, 0, 0⟩ .none) rfl
    fun h => by simp only [v]; rw [show d.net.fwmark = 0 by simpa using h]]
  rw [foldl_append, foldl_settingIf (v ⟨d.junk.count, 0, 0⟩ ⟨0, 0, 0, 0⟩ .none)
    rfl fun h => by rw [hzero h]]
  rw [foldl_append, foldl_settingIf (v ⟨d.junk.count, d.junk.min, 0⟩ ⟨0, 0, 0, 0⟩ .none)
    rfl fun h => by rw [hzero h]]
  rw [foldl_append, foldl_settingIf (v d.junk ⟨0, 0, 0, 0⟩ .none) rfl fun h => by
    show v ⟨d.junk.count, d.junk.min, 0⟩ _ _ = v ⟨d.junk.count, d.junk.min, d.junk.max⟩ _ _
    rw [hzero h]]
  rw [foldl_append, foldl_settingIf (v d.junk ⟨d.paddings.init, 0, 0, 0⟩ .none)
    rfl fun h => by rw [hzero h]]
  rw [foldl_append,
    foldl_settingIf (v d.junk ⟨d.paddings.init, d.paddings.response, 0, 0⟩ .none) rfl
    fun h => by rw [hzero h]]
  rw [foldl_append, foldl_settingIf
    (v d.junk ⟨d.paddings.init, d.paddings.response, d.paddings.cookie, 0⟩ .none) rfl
    fun h => by rw [hzero h]]
  rw [foldl_append, foldl_settingIf (v d.junk d.paddings .none) rfl fun h => by
    show v d.junk ⟨d.paddings.init, d.paddings.response, d.paddings.cookie, 0⟩ _ =
      v d.junk ⟨d.paddings.init, d.paddings.response, d.paddings.cookie, d.paddings.transport⟩ _
    rw [hzero h]]
  rw [foldl_append, foldl_settingIf (v d.junk d.paddings d.imitate) rfl fun h => by
    rw [show d.imitate = .none by simpa using h]]
  rw [foldl_append, foldl_ipackets d.ipackets (nodup_finRange 5) _ fun _ _ => rfl]
  simp only [mem_finRange, if_true]
  rfl

/-! ## §7 Configured devices -/

/-- No value of the request ends in a carriage return. -/
def NoTrailingCR (uapiConf : Bytes) : Prop :=
  ∀ line ∈ requestLines (scanLines uapiConf).1, ∀ key value, cutByte (asciiByte '=') line =
    some (key, value) → value.getLast? ≠ some 0x0d

theorem newPeer_privateKey {d' : Device B E} {pk : Bytes} {p : ℕ}
    (h : d.newPeer env pk = .ok (d', p)) : d'.privateKey = d.privateKey := by
  unfold newPeer at h
  split_ifs at h
  cases h
  rfl

theorem removePeer_privateKey (d : Device B E) (key : Bytes) :
    (d.removePeer key).privateKey = d.privateKey := by
  unfold removePeer
  split <;> rfl

theorem applyPeerSetting_privateKey (d : Device B E) (ipc : IpcSetPeer) (p : ℕ)
    (s : PeerSetting E) :
    (d.applyPeerSetting ipc p s).1.privateKey = d.privateKey := by
  rcases hs : d.applyPeerSetting ipc p s with ⟨d', ipc'⟩
  cases applyPeerSetting_change hs with
  | remove => exact removePeer_privateKey d _
  | _ => rfl

theorem applySetting_privateKey (env : Env B E) (d : Device B E) (s : Setting) :
    (d.applySetting env s).1.privateKey = d.privateKey ∨
      s = .privateKey (d.applySetting env s).1.privateKey := by
  cases s
  case privateKey sk =>
    have hbase := setPrivateKey_base env d sk
    simp only [base, Prod.mk.injEq] at hbase
    exact Or.inr (congrArg Setting.privateKey hbase.2.2.symm)
  case listenPort port => exact Or.inl (socketRel_unbooked.bindUpdate env _).privateKey
  case fwmark mark => exact Or.inl (socketRel_unbooked.bindSetMark env d mark).privateKey
  case replacePeers =>
    have hbase := removeAllPeers_base d
    simp only [base, Prod.mk.injEq] at hbase
    exact Or.inl hbase.2.2
  case jc | jmin | jmax | padding | imitateProtocol | header | ipacket => exact Or.inl rfl

theorem Configured.privateKey_valid {ok : Bytes → Prop}
    (h : Configured env ok d) : (Setting.privateKey d.privateKey).Valid := by
  induction h with
  | new bind => exact ⟨rfl, Or.inl rfl⟩
  | @set d d' uapiConf _ _ hrun ih =>
    have hkept : (Setting.privateKey (d.ipcSet env uapiConf).1.privateKey).Valid := by
      refine ipcSetLines_rule (fun _ => True) (fun _ d _ => (Setting.privateKey d.privateKey).Valid)
        (fun d _ => (Setting.privateKey d.privateKey).Valid) (fun _ _ _ _ h _ _ => h) ?_ ?_ ?_ ?_ _
        (fun _ _ => trivial) (fun hfalse => by cases hfalse) ih
      · intro d ipc line s _ hs hd
        rcases applySetting_privateKey env d s with hsame | hsk
        · rwa [hsame]
        · have hvalid := valid_of_lineSetting hs
          rwa [hsk] at hvalid
      · intro b d ipc hd
        rwa [(Unbooked.handlePostConfig d ipc).privateKey]
      · intro b d ipc value d' ipc' hd hkey
        obtain ⟨pk, -, ⟨-, rfl, -⟩ | ⟨-, p, -, rfl, -⟩ | ⟨-, -, p, hnew, -⟩⟩ :=
          handlePublicKeyLine_accepted hkey
        · exact hd
        · exact hd
        · rwa [newPeer_privateKey hnew]
      · intro d ipc p line s _ _ _ hd
        rwa [applyPeerSetting_privateKey]
    rwa [hrun] at hkept

theorem Configured.dumpable (h : Configured env NoTrailingCR d) : d.Dumpable := by
  have hsettings :=
    h.settingsValid (L := fun line => ((0x0a : Byte) ∉ line ∧ line.length < maxScanTokenSize) ∧
    ∀ key value, cutByte (asciiByte '=') line = some (key, value) → value.getLast? ≠ some 0x0d)
    fun uapiConf hcr line hline =>
      ⟨mem_scanLinesFrom not_mem_nil (by decide) (takeWhile_subset _ hline), hcr line hline⟩
  refine ⟨h.privateKey_valid, { hsettings with ipackets := fun i c hc => ?_ }⟩
  obtain ⟨hspec, ⟨hnewline, hshort⟩, hcr⟩ := hsettings.ipackets i c hc
  refine ⟨hspec, isLine_uapiLine _ (fun hmem => hnewline ?_)
    (hcr _ _ (cutByte_uapiLine _ _)) hshort⟩
  rw [uapiLine, mem_append, mem_cons]
  exact Or.inr (Or.inr hmem)

/-- **The printed configuration restores the device.**  The device lines that a configured device
prints are accepted by another new device, which prints the same lines.  `hclose` says that a bind
that has not been opened can be closed. -/
theorem Configured.dump_restores {B' E' : Type} {env : Env B E} {d : Device B E}
    (h : Configured env NoTrailingCR d) (env' : Env B' E') (bind' : B')
    (hclose : (env'.bindClose bind').2 = true) :
    ∃ d', (newDevice bind' : Device B' E').ipcSet env' (unlines d.deviceLines) = (d', none) ∧
      d'.deviceLines = d.deviceLines := by
  have hdump := h.dumpable
  obtain ⟨d', happly, hview⟩ := applySettings_down env' (countP_dump d)
    (d := (newDevice bind' : Device B' E')) rfl hclose
  rw [foldl_dump] at hview
  refine ⟨d', ?_, ?_⟩
  · -- the lines are read, the settings applied, and the headers found disjoint
    have hlines : ∀ line ∈ d.deviceLines, IsLine line := by
      rw [deviceLines_eq]
      intro line hline
      obtain ⟨s, hs, rfl⟩ := mem_map.mp hline
      exact (hdump.printed hs).2
    have hrun := ipcSetLines_settings false [] IpcSetPeer.new
      (fun s hs => lineSetting_render (hdump.printed hs).1) happly
    have hheaders : d'.headers = d.headers := congrArg (fun v => v.obfuscation.headers) hview
    have hdisjoint : anyOverlap d'.headers.toList = false := by
      rw [hheaders, Headers.anyOverlap_eq_false_iff]
      exact h.headers_disjoint
    rw [ipcSet, scanLines_unlines hlines, deviceLines_eq]
    rw [append_nil] at hrun
    refine hrun.trans ?_
    rw [ipcSetLines, finishSet, mergeWithDevice_new, hdisjoint]
    rfl
  · rw [deviceLines_eq, deviceLines_eq, dump_of_view hview]

/-- A device with a listen port, junk packets, a range of headers and an I-packet. -/
theorem Configured.dump_restores_example :
    let r := (newDevice () : Device Unit Unit).ipcSet quietEnv
      (ascii "listen_port=51820\njc=3\njmin=8\nh1=5-9\ns1=15\nimitate_protocol=dns\ni2=<r 12>\n\n")
    r.2 = none ∧
      r.1.deviceLines = [ascii "listen_port=51820", ascii "jc=3", ascii "jmin=8", ascii "s1=15",
        ascii "imitate_protocol=dns", ascii "h1=5-9", ascii "h2=2", ascii "h3=3", ascii "h4=4",
        ascii "i2=<r 12>"] ∧
      ∃ d', (newDevice () : Device Unit Unit).ipcSet quietEnv (unlines r.1.deviceLines) =
        (d', none) ∧ d'.deviceLines = r.1.deviceLines := by
  intro r
  have haccepted : r.2 = none := by decide +kernel
  have hset : (newDevice () : Device Unit Unit).ipcSet quietEnv
      (ascii "listen_port=51820\njc=3\njmin=8\nh1=5-9\ns1=15\nimitate_protocol=dns\ni2=<r 12>\n\n")
      = (r.1, none) := Prod.ext rfl haccepted
  refine ⟨haccepted, by decide +kernel, dump_restores (.set (.new ()) ?_ hset) quietEnv () rfl⟩
  have hlines : ∀ line ∈ requestLines (scanLines <| ascii
      "listen_port=51820\njc=3\njmin=8\nh1=5-9\ns1=15\nimitate_protocol=dns\ni2=<r 12>\n\n").1,
      (((cutByte (asciiByte '=') line).map Prod.snd).bind getLast?) ≠ some 0x0d := by decide +kernel
  intro line hline key value hcut hlast
  refine hlines line hline ?_
  rw [hcut]
  exact hlast

end Device

end AmneziaWG.Device
