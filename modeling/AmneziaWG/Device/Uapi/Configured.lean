import AmneziaWG.Device.Uapi.Headers

/-!
# Configured Devices

What the settings of a device are after requests that have all been accepted: numbers are in their
ranges, and an I-packet is the chain of a line that a request had.

## Main results

- `deviceKey_eq_some_iff`: the keys of device lines and their names.
- `Configured.settingsValid`: the settings of configured devices.
-/

set_option linter.dupNamespace false

namespace AmneziaWG.Device

open AmneziaWG.Lib List Option Function

/-! ## §1 Names of settings -/

def uapiLine (name : String) (value : Bytes) : Bytes := ascii name ++ asciiByte '=' :: value

def DeviceKey.name : DeviceKey → String
  | .privateKey => "private_key"
  | .listenPort => "listen_port"
  | .fwmark => "fwmark"
  | .replacePeers => "replace_peers"
  | .jc => "jc"
  | .jmin => "jmin"
  | .jmax => "jmax"
  | .padding .init => "s1"
  | .padding .response => "s2"
  | .padding .cookie => "s3"
  | .padding .transport => "s4"
  | .imitateProtocol => "imitate_protocol"
  | .header .init => "h1"
  | .header .response => "h2"
  | .header .cookie => "h3"
  | .header .transport => "h4"
  | .ipacket 0 => "i1"
  | .ipacket 1 => "i2"
  | .ipacket 2 => "i3"
  | .ipacket 3 => "i4"
  | .ipacket 4 => "i5"

theorem deviceKey_name (k : DeviceKey) : deviceKey (ascii k.name) = some k := by
  cases k
  case padding slot => cases slot <;> decide
  case header slot => cases slot <;> decide
  case ipacket i => revert i; decide
  all_goals decide

/-- The table of keys lists each key under its name. -/
theorem deviceKey_eq_some_iff {key : Bytes} {k : DeviceKey} : deviceKey key = some k ↔
    key = ascii k.name := by
  constructor
  · intro h
    obtain ⟨entry, hfind, rfl⟩ := map_eq_some_iff.mp h
    have hname : ∀ entry ∈ deviceKeys, entry.1 = entry.2.name := by decide
    rw [← hname entry (mem_of_find?_eq_some hfind)]
    have hkey := find?_some hfind
    exact (of_decide_eq_true hkey).symm
  · rintro rfl
    exact deviceKey_name k

theorem DeviceKey.name_plain (k : DeviceKey) :
    asciiByte '=' ∉ ascii k.name ∧ (0x0a : Byte) ∉ ascii k.name ∧ (ascii k.name).length ≤ 16 := by
  cases k
  case padding slot => cases slot <;> decide
  case header slot => cases slot <;> decide
  case ipacket i => revert i; decide
  all_goals decide

theorem isPlain_uapiLine {name : String} (hname : (0x0a : Byte) ∉ ascii name) {value : Bytes}
    (h : IsPlain value) :
    IsPlain (uapiLine name value) := by
  constructor
  · rw [uapiLine, mem_append, mem_cons, not_or, not_or]
    exact ⟨hname, by decide, h.noNewline⟩
  · rw [uapiLine, getLast?_append, getLast?_cons]
    cases hlast : value.getLast? with
    | none => simp [asciiByte]
    | some b =>
      have hcr := h.noCR
      rw [hlast] at hcr
      simpa using hcr

theorem uapiLine_ne_nil (name : String) (value : Bytes) : uapiLine name value ≠ [] :=
  append_ne_nil_of_right_ne_nil _ (cons_ne_nil _ _)

theorem cutByte_uapiLine (k : DeviceKey) (value : Bytes) :
    cutByte (asciiByte '=') (uapiLine k.name value) = some (ascii k.name, value) :=
  cutByte_append value k.name_plain.1

theorem lineSetting_uapiLine (k : DeviceKey) (value : Bytes) :
    lineSetting (uapiLine k.name value) = readSetting value k := by
  rw [lineSetting, cutByte_uapiLine, bind_some]
  show (deviceKey (ascii k.name)).bind (readSetting value) = _
  rw [deviceKey_name, bind_some]

theorem line_of_ipacket {line : Bytes} {i : Fin 5} {c : ObfChain}
    (h : lineSetting line = some (.ipacket i c)) :
    line = uapiLine (DeviceKey.ipacket i).name c.spec := by
  obtain ⟨⟨key, value⟩, hcut, hparse⟩ := bind_eq_some_iff.mp h
  obtain ⟨k, hk, hread⟩ := bind_eq_some_iff.mp hparse
  -- of all keys only `i1` to `i5` make I-packets
  have hspec : k = .ipacket i ∧ c.spec = value := by
    cases k <;> simp only [readSetting] at hread
    case ipacket j =>
      obtain ⟨c', hc', heq⟩ := map_eq_some_iff.mp hread
      cases hnew : newObfChain value with
      | error err => rw [hnew] at hc'; cases hc'
      | ok c'' =>
        rw [hnew] at hc'
        cases hc'
        cases heq
        exact ⟨rfl, spec_of_newObfChain hnew⟩
    case replacePeers => split_ifs at hread; cases hread
    all_goals
      obtain ⟨x, -, heq⟩ := map_eq_some_iff.mp hread
      cases heq
  obtain ⟨rfl, hvalue⟩ := hspec
  rw [(eq_of_cutByte hcut).1, deviceKey_eq_some_iff.mp hk, hvalue]
  rfl

/-! ## §2 Runs of accepted requests -/

namespace Device

variable {B E : Type}
variable {env : Env B E} {ok L : Bytes → Prop} {d : Device B E}

/-- The devices that requests make of a new one when all of them are accepted; `ok` restricts the
requests. -/
inductive Configured (env : Env B E) (ok : Bytes → Prop) : Device B E → Prop where
  | new (bind : B) : Configured env ok (newDevice bind)
  | set {d d' : Device B E} {uapiConf : Bytes} :
      Configured env ok d → ok uapiConf → d.ipcSet env uapiConf = (d', none) → Configured env ok d'

/-- What the setting of every line keeps holds of every configured device. -/
theorem Configured.invariant {P : Obfuscation → Prop}
    (hok : ∀ uapiConf, ok uapiConf → ∀ line ∈ requestLines (scanLines uapiConf).1, L line)
    (hnew : ∀ bind : B, P (newDevice bind : Device B E).obfuscation)
    (hset : ∀ o line s, L line → lineSetting line = some s → P o → P (o.set s))
    (h : Configured env ok d) : P d.obfuscation := by
  induction h with
  | new bind => exact hnew bind
  | @set d d' uapiConf _ hconf hrun ih =>
    have hd : P (d.ipcSet env uapiConf).1.obfuscation :=
      ipcSetLines_invariant hset _ (hok uapiConf hconf) _ ih
    rwa [hrun] at hd

/-- The settings of a device whose requests had lines that satisfy `L`. -/
structure SettingsValid (L : Bytes → Prop) (o : Obfuscation) : Prop where
  count : 0 ≤ o.junk.count ∧ o.junk.count < 2 ^ 63
  min : 0 ≤ o.junk.min ∧ o.junk.min < 2 ^ 63
  max : 0 ≤ o.junk.max ∧ o.junk.max < 2 ^ 63
  paddings : ∀ slot, 0 ≤ o.paddings.get slot ∧ o.paddings.get slot < 2 ^ 63
  ipackets : ∀ i c, o.ipackets i = some c →
    newObfChain c.spec = .ok c ∧ L (uapiLine (DeviceKey.ipacket i).name c.spec)

theorem SettingsValid.set {o : Obfuscation} (ho : SettingsValid L o) {line : Bytes} {s : Setting}
    (hline : L line) (hs : lineSetting line = some s) : SettingsValid L (o.set s) := by
  have hvalid := valid_of_lineSetting hs
  cases s
  case jc n => exact { ho with count := ⟨Int.le_of_lt hvalid.1, hvalid.2⟩ }
  case jmin n => exact { ho with min := ⟨Int.le_of_lt hvalid.1, hvalid.2⟩ }
  case jmax n => exact { ho with max := ⟨Int.le_of_lt hvalid.1, hvalid.2⟩ }
  case padding slot n =>
    refine { ho with paddings := fun slot' => ?_ }
    show 0 ≤ (o.paddings.set slot n).get slot' ∧ (o.paddings.set slot n).get slot' < 2 ^ 63
    rw [Paddings.get_set]
    split_ifs
    · exact hvalid
    · exact ho.paddings slot'
  -- the text of the chain is that of the line it came in
  case ipacket i chain =>
    refine { ho with ipackets := fun j c hc => ?_ }
    change update o.ipackets i (some chain) j = some c at hc
    by_cases hj : j = i
    · subst hj
      rw [update_self] at hc
      cases hc
      exact ⟨hvalid, line_of_ipacket hs ▸ hline⟩
    · rw [update_of_ne hj] at hc
      exact ho.ipackets j c hc
  case privateKey | listenPort | fwmark | replacePeers | imitateProtocol | header =>
    exact { ho with }

theorem Configured.settingsValid (h : Configured env ok d)
    (hok : ∀ uapiConf, ok uapiConf → ∀ line ∈ requestLines (scanLines uapiConf).1, L line) :
    SettingsValid L d.obfuscation := by
  refine h.invariant hok ?_ (fun o line s hline hs ho => ho.set hline hs)
  intro bind
  have hzero : (0 : ℤ) ≤ 0 ∧ (0 : ℤ) < 2 ^ 63 := by decide
  refine ⟨hzero, hzero, hzero, fun slot => ?_, fun i c hc => by cases hc⟩
  cases slot <;> exact hzero

theorem Configured.headers_disjoint (h : Configured env ok d) : d.headers.Disjoint := by
  cases h with
  | new bind => exact Headers.default_disjoint
  | set _ _ hrun => exact ipcSet_accepted hrun

/-! ## §3 Requests made of settings -/

theorem ipcSetLines_cons_setting {tooLong : Bool} {lines : List Bytes} {d' : Device B E}
    {ipc : IpcSetPeer} {line : Bytes} {s : Setting} (hs : lineSetting line = some s)
    (happly : d.applySetting env s = (d', true)) :
    ipcSetLines env tooLong (line :: lines) true d ipc =
      ipcSetLines env tooLong lines true d' ipc := by
  obtain ⟨⟨key, value⟩, hcut, hparse⟩ := bind_eq_some_iff.mp hs
  obtain ⟨k, hk, -⟩ := bind_eq_some_iff.mp hparse
  have hline : line ≠ [] := by
    rintro rfl
    cases hcut
  have hkey : key ≠ ascii "public_key" := by
    rintro rfl
    have hnone : deviceKey (ascii "public_key") = none := by decide
    rw [hnone] at hk
    cases hk
  have hrun := handleDeviceLine_of_setting hparse happly
  rw [ipcSetLines, setLine, if_neg hline, hcut]
  simp only [if_neg hkey, if_true, hrun]

/-- Apply settings one after the other, as long as the bind allows it. -/
def applySettings (env : Env B E) (d : Device B E) : List Setting → Option (Device B E)
  | [] => some d
  | s :: rest =>
    match d.applySetting env s with
    | (d, true) => applySettings env d rest
    | (_, false) => none

theorem applySettings_rule {ss : List Setting} {d' : Device B E} (Inv : Device B E → Prop)
    (hstep : ∀ s ∈ ss, ∀ d, Inv d → Inv (d.applySetting env s).1)
    (h : d.applySettings env ss = some d') (hd : Inv d) : Inv d' := by
  induction ss generalizing d with
  | nil =>
    cases h
    exact hd
  | cons s ss ih =>
    obtain ⟨hs, hrest⟩ := forall_mem_cons.mp hstep
    have hd₁ := hs d hd
    rw [applySettings] at h
    split at h
    · next heq =>
      rw [heq] at hd₁
      exact ih hrest h hd₁
    · cases h

theorem ipcSetLines_settings (tooLong : Bool) (lines : List Bytes) (ipc : IpcSetPeer)
    {ss : List Setting} {render : Setting → Bytes}
    (hread : ∀ s ∈ ss, lineSetting (render s) = some s)
    {d' : Device B E} (happly : d.applySettings env ss = some d') :
    ipcSetLines env tooLong (ss.map render ++ lines) true d ipc =
      ipcSetLines env tooLong lines true d' ipc := by
  induction ss generalizing d with
  | nil =>
    cases happly
    rfl
  | cons s ss ih =>
    obtain ⟨hs, hrest⟩ := forall_mem_cons.mp hread
    rw [applySettings] at happly
    split at happly
    · next d₁ hd₁ =>
      rw [map_cons, cons_append, ipcSetLines_cons_setting hs hd₁]
      exact ih hrest happly
    · cases happly

end Device

end AmneziaWG.Device
