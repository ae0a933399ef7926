import AmneziaWG.Outline.Fallback

/-!
# What a Written Configuration Means

A configuration is written with `genIpcString` and set on a new device.  When its strings are plain,
its lines are read as they were written: the device lines give the settings of the device, and then
each block adds one peer.

## Main results

- `deviceMeans_of_applySettings`: what is in force after the device lines.
- `Written.block`: what one more block does.
- `Unambiguous.means`: the device has what an unambiguous configuration says.
-/

namespace AmneziaWG.Outline

open AmneziaWG.Lib AmneziaWG.Device AmneziaWG.Device.Device List Option BitVec Nat Function

variable {B E : Type} {env : Env B E}
variable {s : Setting} {peer : PeerConfig} {ipc : IpcSetPeer} {p : ℕ} {parsed : List (PeerBlock E)}

/-! ## §1 The meaning of a configuration -/

/-- The peer `p` of the device has what the configuration of a peer says. -/
structure PeerMeans (env : Env B E) (peer : PeerConfig) (d : Device B E) (p : ℕ) : Prop where
  endpoint : ∃ e, env.parseEndpoint peer.endpoint = some e ∧ (d.peer p).endpoint = some e
  presharedKey : if peer.presharedKey = [] then (d.peer p).presharedKey = zeroKey else
    decodeBase64 peer.presharedKey = some (d.peer p).presharedKey
  keepalive : (d.peer p).persistentKeepaliveInterval = peer.persistentKeepaliveInterval.toNat
  allowedIPs : ∀ text ∈ peer.allowedIPs, (env.parsePrefix text).isSome
  routes : ∀ f bits, d.allowedips.Owns f bits p ↔
    ∃ text ∈ peer.allowedIPs, ∃ pfx, env.parsePrefix text = some pfx ∧ f = pfx.family ∧
      bits = pfx.maskedBits

/-- The device has what the configuration says; what it does not say is as in a new device. -/
structure Means (env : Env B E) (cfg : DeviceConfig) (d : Device B E) : Prop where
  privateKey : decodeBase64 cfg.privateKey = some d.privateKey
  junk : d.junk = ⟨cfg.jc.toInt, cfg.jmin.toInt, cfg.jmax.toInt⟩
  paddings : ∀ slot, d.paddings.get slot = (cfg.s slot).toInt
  headers : ∀ slot, if cfg.h slot = [] then d.headers.get slot = Headers.default.get slot else
    newMagicHeader (cfg.h slot) = .ok (d.headers.get slot)
  ipackets : ∀ i, if cfg.i i = [] then d.ipackets i = none else
    ∃ chain, newObfChain (cfg.i i) = .ok chain ∧ d.ipackets i = some chain
  imitate : d.imitate = .none
  peers : ∀ k, (∃ p, (k, p) ∈ d.keyMap) ↔ ∃ peer ∈ cfg.peers, decodeBase64 peer.publicKey = some k
  peer : ∀ peer ∈ cfg.peers, ∀ k p, decodeBase64 peer.publicKey = some k → (k, p) ∈ d.keyMap →
    PeerMeans env peer d p

/-- The public key of a new device with the private key. -/
def ownKey (env : Env B E) (sk : Bytes) : Bytes :=
  if sk = zeroKey then zeroKey else env.scalarBaseMult sk

/-- The prefix of two texts is the same. -/
def SamePrefix (env : Env B E) (text text' : Bytes) : Prop :=
  ∃ pfx pfx', env.parsePrefix text = some pfx ∧ env.parsePrefix text' = some pfx' ∧
    pfx.family = pfx'.family ∧ pfx.maskedBits = pfx'.maskedBits

/-- Strings are plain and can all be had: keys that a device takes, prefixes that are added and not
removed, and each by one peer. -/
structure Unambiguous (env : Env B E) (cfg : DeviceConfig) : Prop where
  plain : ∀ s ∈ cfg.strings, IsPlain s
  added : ∀ peer ∈ cfg.peers, ∀ text ∈ peer.allowedIPs, text.head? ≠ some (asciiByte '-')
  clamped : ∀ sk, decodeBase64 cfg.privateKey = some sk → sk = zeroKey ∨ clamp sk = sk
  foreign : ∀ sk, decodeBase64 cfg.privateKey = some sk → ∀ peer ∈ cfg.peers,
    decodeBase64 peer.publicKey ≠ some (ownKey env sk)
  disjoint : cfg.peers.Pairwise fun peer peer' =>
    ∀ text ∈ peer.allowedIPs, ∀ text' ∈ peer'.allowedIPs, ¬SamePrefix env text text'

/-! ## §2 The device lines -/

theorem key_of_readSetting {value : Bytes} {k : DeviceKey} (h : readSetting value k = some s) :
    s.key = k := by
  cases k <;> simp only [readSetting] at h
  case replacePeers =>
    split_ifs at h
    cases h
    rfl
  all_goals
    obtain ⟨x, -, rfl⟩ := map_eq_some_iff.mp h
    rfl

theorem atoi_itoa_bitVec (n : BitVec 64) : atoi (itoa n.toInt) = .ok n.toInt :=
  atoi_itoa (by simpa using le_toInt n) (by simpa using toInt_lt (x := n))

variable {cfg : DeviceConfig} {sk : Bytes} {ss : List Setting}

theorem settings_of_deviceLines (h : (cfg.deviceLines sk).mapM lineSetting = some ss) :
    List.Forall₂ (fun k s => readSetting (cfg.value sk k) k = some s)
      (genKeys.filter cfg.shown) ss := by
  unfold DeviceConfig.deviceLines at h
  generalize genKeys.filter cfg.shown = keys at h
  induction keys generalizing ss with
  | nil =>
    cases h
    exact .nil
  | cons k keys ih =>
    obtain ⟨s, ss', hs, hss', rfl⟩ := exists_of_mapM_cons h
    rw [lineSetting_uapiLine] at hs
    exact .cons hs (ih hss')

theorem keys_of_settings {keys : List DeviceKey}
    (h : List.Forall₂ (fun k s => readSetting (cfg.value sk k) k = some s) keys ss) :
    ss.map Setting.key = keys := by
  induction h with
  | nil => rfl
  | cons hs _ ih => rw [map_cons, key_of_readSetting hs, ih]

/-- What is in force after the device lines: what was written, and under the other keys what was
there. -/
theorem view_of_deviceLines (h : (cfg.deviceLines sk).mapM lineSetting = some ss) (v : View) :
    (∀ k ∈ genKeys, cfg.shown k = true →
      ∃ s, readSetting (cfg.value sk k) k = some s ∧ (ss.foldl View.set v).Has s) ∧
    ∀ k, cfg.shown k = false → (ss.foldl View.set v).AgreesAt v k := by
  have hsettings := settings_of_deviceLines h
  have hkeys := keys_of_settings hsettings
  constructor
  · intro k hk hshown
    obtain ⟨s, hs, hread⟩ := exists_of_mem_right hsettings.flip (mem_filter.mpr ⟨hk, hshown⟩)
    refine ⟨s, hread, View.has_foldl v ?_ hs⟩
    rw [hkeys]
    exact List.Nodup.filter _ (by decide)
  · intro k hhidden
    refine View.agreesAt_foldl v ?_
    rw [hkeys, mem_filter, hhidden]
    exact fun hmem => Bool.false_ne_true hmem.2

/-- A setting that is not about keys, peers or the socket. -/
theorem applySetting_quiet (env : Env B E) (hs : s.key ∈ genKeys.tail) (d : Device B E) :
    (d.applySetting env s).1.state = d.state ∧ (d.applySetting env s).1.keyMap = d.keyMap ∧
      (d.applySetting env s).1.publicKey = d.publicKey := by
  cases s
  case privateKey => exact absurd hs (by decide : DeviceKey.privateKey ∉ genKeys.tail)
  case listenPort => exact absurd hs (by decide : DeviceKey.listenPort ∉ genKeys.tail)
  case fwmark => exact absurd hs (by decide : DeviceKey.fwmark ∉ genKeys.tail)
  case replacePeers => exact absurd hs (by decide : DeviceKey.replacePeers ∉ genKeys.tail)
  case jc | jmin | jmax | padding | imitateProtocol | header | ipacket => exact ⟨rfl, rfl, rfl⟩

theorem applySettings_quiet {d d' : Device B E} (hss : ∀ s ∈ ss, s.key ∈ genKeys.tail)
    (h : d.applySettings env ss = some d') :
    d'.state = d.state ∧ d'.keyMap = d.keyMap ∧ d'.publicKey = d.publicKey := by
  refine applySettings_rule (fun x => x.state = d.state ∧ x.keyMap = d.keyMap ∧
    x.publicKey = d.publicKey) ?_ h
    ⟨rfl, rfl, rfl⟩
  rintro s hs x ⟨hstate, hmap, hpublic⟩
  obtain ⟨hstate', hmap', hpublic'⟩ := applySetting_quiet env (hss s hs) x
  exact ⟨hstate'.trans hstate, hmap'.trans hmap, hpublic'.trans hpublic⟩

/-- The key that a device takes for the bytes of a private key. -/
def takenKey (sk : Bytes) : Bytes := if sk = zeroKey then sk else clamp sk

theorem readSetting_privateKey (h : readSetting (encodeHex sk) .privateKey = some s) :
    s = .privateKey (takenKey sk) := by
  simp only [readSetting, fromMaybeZeroHex, loadExactHex, decodeHex_encodeHex] at h
  split_ifs at h
  · exact (some.inj h).symm
  · cases h

theorem setPrivateKey_new (env : Env B E) (bind : B) (sk : Bytes) :
    ((newDevice bind : Device B E).setPrivateKey env sk).state = .down ∧
      ((newDevice bind : Device B E).setPrivateKey env sk).keyMap = [] ∧
      ((newDevice bind : Device B E).setPrivateKey env sk).publicKey = ownKey env sk := by
  unfold setPrivateKey ownKey
  split_ifs with hsame hzero hzero
  · exact ⟨rfl, rfl, rfl⟩
  · exact absurd hsame hzero
  · exact absurd hzero hsame
  · exact ⟨rfl, rfl, rfl⟩

/-- **The device after the device lines.** -/
structure DeviceMeans (env : Env B E) (cfg : DeviceConfig) (sk : Bytes) (d : Device B E) :
    Prop where
  state : d.state = .down
  keyMap : d.keyMap = []
  bookkept : Bookkept env d
  privateKey : d.privateKey = takenKey sk
  publicKey : d.publicKey = ownKey env (takenKey sk)
  junk : d.junk = ⟨cfg.jc.toInt, cfg.jmin.toInt, cfg.jmax.toInt⟩
  paddings : ∀ slot, d.paddings.get slot = (cfg.s slot).toInt
  headers : ∀ slot, if cfg.h slot = [] then d.headers.get slot = Headers.default.get slot else
    newMagicHeader (cfg.h slot) = .ok (d.headers.get slot)
  ipackets : ∀ i, if cfg.i i = [] then d.ipackets i = none else
    ∃ chain, newObfChain (cfg.i i) = .ok chain ∧ d.ipackets i = some chain
  imitate : d.imitate = .none

/-- A number that is written is read, and one that is not written is zero. -/
theorem int_in_force (k : DeviceKey) (n : BitVec 64) (mk : ℤ → Setting) {x : ℤ} {v v' : View}
    {ok : ℤ → Bool} (hshown : cfg.shown k = decide (n ≠ 0))
    (hread : readSetting (cfg.value sk k) k = (readInt ok (itoa n.toInt)).map mk)
    (hv' : (cfg.shown k = true → ∃ s, readSetting (cfg.value sk k) k = some s ∧ v'.Has s) ∧
      (cfg.shown k = false → v'.AgreesAt v k))
    (hhas : ∀ m, v'.Has (mk m) → x = m) (hagrees : v'.AgreesAt v k → x = 0) : x = n.toInt := by
  by_cases hn : n = 0
  · rw [hagrees (hv'.2 (by rw [hshown, hn]; rfl)), hn]
    rfl
  · obtain ⟨s, hs, hhas'⟩ := hv'.1 (by rw [hshown]; exact decide_eq_true hn)
    rw [hread] at hs
    obtain ⟨m, hm, rfl⟩ := map_eq_some_iff.mp hs
    have hatoi := (readInt_eq_some hm).1
    rw [atoi_itoa_bitVec] at hatoi
    rw [hhas m hhas']
    exact (Except.ok.inj hatoi).symm

theorem deviceMeans_of_applySettings (h : (cfg.deviceLines sk).mapM lineSetting = some ss)
    (bind : B)
    {d : Device B E} (happly : (newDevice bind : Device B E).applySettings env ss = some d) :
    DeviceMeans env cfg sk d := by
  have hsettings := settings_of_deviceLines h
  have hkeys := keys_of_settings hsettings
  -- the printed part
  have hports : ∀ s ∈ ss, ∀ port, s ≠ .listenPort port := by
    rintro s hs port rfl
    have hmem : DeviceKey.listenPort ∈ ss.map Setting.key := mem_map_of_mem hs
    rw [hkeys] at hmem
    exact absurd (mem_filter.mp hmem).2 Bool.false_ne_true
  obtain ⟨d', hd', hview⟩ :=
    applySettings_noPort env hports (d := (newDevice bind : Device B E)) rfl
  rw [happly] at hd'
  cases hd'
  obtain ⟨hwritten, hother⟩ := view_of_deviceLines h (newDevice bind : Device B E).view
  rw [← hview] at hwritten hother
  have hforce : ∀ k ∈ genKeys,
      (cfg.shown k = true → ∃ s, readSetting (cfg.value sk k) k = some s ∧ d.view.Has s) ∧
      (cfg.shown k = false → d.view.AgreesAt (newDevice bind : Device B E).view k) :=
    fun k hk => ⟨hwritten k hk, hother k⟩
  -- the keys and the peers
  have hfirst : genKeys.filter cfg.shown = .privateKey :: genKeys.tail.filter cfg.shown := rfl
  rw [hfirst] at hsettings hkeys
  cases hsettings with
  | @cons _ s _ ss' hs hrest =>
    obtain rfl := readSetting_privateKey hs
    have hquiet : ∀ s ∈ ss', s.key ∈ genKeys.tail := by
      intro s hs
      have hmem : s.key ∈ ss'.map Setting.key := mem_map_of_mem hs
      rw [keys_of_settings hrest] at hmem
      exact (mem_filter.mp hmem).1
    obtain ⟨hstate, hmap, hpublic⟩ := applySettings_quiet hquiet happly
    obtain ⟨hstate₀, hmap₀, hpublic₀⟩ := setPrivateKey_new env bind (takenKey sk)
    exact
      { state := hstate.trans hstate₀
        keyMap := hmap.trans hmap₀
        bookkept := applySettings_rule (Bookkept env) (fun s _ _ hd => hd.applySetting s) happly
          (bookkept_newDevice env bind)
        privateKey := by
          obtain ⟨s, hs, hhas⟩ := hwritten .privateKey (by decide) rfl
          obtain rfl := readSetting_privateKey hs
          exact hhas
        publicKey := hpublic.trans hpublic₀
        junk := by
          have hjc : d.junk.count = cfg.jc.toInt :=
            int_in_force .jc cfg.jc .jc rfl rfl (hforce _ (by decide)) (fun _ h => h) (fun h => h)
          have hjmin : d.junk.min = cfg.jmin.toInt :=
            int_in_force .jmin cfg.jmin .jmin rfl rfl (hforce _ (by decide)) (fun _ h => h)
              (fun h => h)
          have hjmax : d.junk.max = cfg.jmax.toInt :=
            int_in_force .jmax cfg.jmax .jmax rfl rfl (hforce _ (by decide)) (fun _ h => h)
              (fun h => h)
          rw [← hjc, ← hjmin, ← hjmax]
        paddings := fun slot =>
          int_in_force (.padding slot) (cfg.s slot) (.padding slot) rfl rfl
            (hforce _ (by cases slot <;> decide))
            (fun _ h => h) fun h => Eq.trans h (by cases slot <;> rfl)
        headers := fun slot => by
          obtain ⟨hshown, hhidden⟩ := hforce (.header slot) (by cases slot <;> decide)
          split_ifs with hempty
          · exact hhidden (decide_eq_false (not_not.mpr hempty))
          · obtain ⟨s, hs, hhas⟩ := hshown (decide_eq_true hempty)
            obtain ⟨header, hheader, rfl⟩ := map_eq_some_iff.mp hs
            have hok : newMagicHeader (cfg.h slot) = .ok header := ok_of_toOption hheader
            rw [hok]
            exact congrArg Except.ok hhas.symm
        ipackets := fun i => by
          obtain ⟨hshown, hhidden⟩ := hforce (.ipacket i) (by revert i; decide)
          split_ifs with hempty
          · exact hhidden (decide_eq_false (not_not.mpr hempty))
          · obtain ⟨s, hs, hhas⟩ := hshown (decide_eq_true hempty)
            obtain ⟨chain, hchain, rfl⟩ := map_eq_some_iff.mp hs
            exact ⟨chain, ok_of_toOption hchain, hhas⟩
        imitate := hother .imitateProtocol rfl }

/-! ## §3 The block of a peer -/

def peerSettings (e : E) (pfxs : List Prefix) (psk : Option Bytes) (interval : ℕ) :
    List (PeerSetting E) :=
  .endpoint e :: (pfxs.map (.allowedIP true) ++
    (psk.toList.map .presharedKey ++ if interval ≠ 0 then [.keepalive interval] else []))

theorem linePeerSetting_uapiLine {name : String} {k : PeerKey} (hname : name ∈ peerNames)
    (hk : peerKey (ascii name) = some k) (value : Bytes) :
    linePeerSetting env (uapiLine name value) = readPeerSetting env value k := by
  rw [linePeerSetting, cutByte_peerName hname, bind_some]
  show (peerKey (ascii name)).bind (readPeerSetting env value) = _
  rw [hk, bind_some]

theorem loadExactHex_encodeHex {bs bs' : Bytes} (h : loadExactHex (encodeHex bs) = .ok bs') :
    bs' = bs := by
  rw [loadExactHex, decodeHex_encodeHex] at h
  dsimp only at h
  split_ifs at h
  cases h
  rfl

theorem prefixes_of_mapM {texts : List Bytes} {ss : List (PeerSetting E)}
    (hadded : ∀ text ∈ texts, text.head? ≠ some (asciiByte '-'))
    (h : (texts.map (uapiLine "allowed_ip")).mapM (linePeerSetting env) = some ss) :
    ∃ pfxs, List.Forall₂ (fun text pfx => env.parsePrefix text = some pfx) texts pfxs ∧
      ss = pfxs.map (.allowedIP true) := by
  induction texts generalizing ss with
  | nil =>
    cases h
    exact ⟨[], .nil, rfl⟩
  | cons text texts ih =>
    obtain ⟨hhead, hrest⟩ := forall_mem_cons.mp hadded
    obtain ⟨s, ss', hs, hss', rfl⟩ := exists_of_mapM_cons h
    obtain ⟨pfxs, hpfxs, rfl⟩ := ih hrest hss'
    rw [linePeerSetting_uapiLine (by decide) (by decide : _ = some PeerKey.allowedIP),
      readPeerSetting, readAllowedIP, if_pos hhead] at hs
    obtain ⟨pfx, hpfx, rfl⟩ := map_eq_some_iff.mp hs
    exact ⟨pfx :: pfxs, .cons hpfx hpfxs, rfl⟩

/-- What was parsed of a peer. -/
def IsParsed (env : Env B E) (peer : PeerConfig) (pb : PeerBlock E) : Prop :=
  decodeBase64 peer.publicKey = some pb.pk ∧
    ∃ e pfxs psk, env.parseEndpoint peer.endpoint = some e ∧
      List.Forall₂ (fun text pfx => env.parsePrefix text = some pfx) peer.allowedIPs pfxs ∧
        peer.PresharedKey psk ∧
      pb.settings = peerSettings e pfxs psk peer.persistentKeepaliveInterval.toNat

theorem isParsed_of_parse {pk : Bytes} {psk : Option Bytes}
    (hadded : ∀ text ∈ peer.allowedIPs, text.head? ≠ some (asciiByte '-'))
    (hpk : decodeBase64 peer.publicKey = some pk) (hpsk : peer.PresharedKey psk) {pb : PeerBlock E}
    (h : (peer.blockOf pk psk).parse env = some pb) : IsParsed env peer pb := by
  obtain ⟨pk', hpk', h⟩ := bind_eq_some_iff.mp h
  obtain ⟨settings, hsettings, h⟩ := bind_eq_some_iff.mp h
  cases h
  obtain rfl := loadExactHex_encodeHex (ok_of_toOption hpk')
  refine ⟨hpk, ?_⟩
  -- endpoint, prefixes, preshared key, keepalive
  change (uapiLine "endpoint" peer.endpoint :: _).mapM _ = _ at hsettings
  obtain ⟨s, ss, hs, hss, rfl⟩ := exists_of_mapM_cons hsettings
  rw [linePeerSetting_uapiLine (by decide) (by decide : _ = some PeerKey.endpoint)] at hs
  obtain ⟨e, he, rfl⟩ := map_eq_some_iff.mp hs
  obtain ⟨routes, ss', hroutes, hss', rfl⟩ := exists_of_mapM_append hss
  obtain ⟨pfxs, hpfxs, rfl⟩ := prefixes_of_mapM hadded hroutes
  obtain ⟨secret, alive, hsecret, halive, rfl⟩ := exists_of_mapM_append hss'
  refine ⟨e, pfxs, psk, he, hpfxs, hpsk, ?_⟩
  -- without a preshared key there is no line for it
  have hsecret' : secret = psk.toList.map .presharedKey := by
    cases psk with
    | none =>
      cases hsecret
      rfl
    | some bytes =>
      change [uapiLine "preshared_key" (encodeHex bytes)].mapM _ = _ at hsecret
      obtain ⟨s, _, hs, ⟨⟩, rfl⟩ := exists_of_mapM_cons hsecret
      rw [linePeerSetting_uapiLine (by decide) (by decide : _ = some PeerKey.presharedKey)] at hs
      obtain ⟨bytes', hbytes', rfl⟩ := map_eq_some_iff.mp hs
      rw [loadExactHex_encodeHex (ok_of_toOption hbytes')]
      rfl
  -- an interval of zero is not written
  have halive' : alive = if peer.persistentKeepaliveInterval.toNat ≠ 0 then
      [.keepalive peer.persistentKeepaliveInterval.toNat] else [] := by
    by_cases hzero : peer.persistentKeepaliveInterval = 0
    · rw [hzero] at halive ⊢
      cases halive
      rfl
    · have hne : peer.persistentKeepaliveInterval.toNat ≠ 0 :=
        fun hnat => hzero (eq_of_toNat_eq hnat)
      rw [lineIf, if_pos (decide_eq_true hzero)] at halive
      obtain ⟨s, _, hs, ⟨⟩, rfl⟩ := exists_of_mapM_cons halive
      rw [linePeerSetting_uapiLine (by decide)
        (by decide : _ = some PeerKey.persistentKeepaliveInterval)] at hs
      obtain ⟨secs, hsecs, rfl⟩ := map_eq_some_iff.mp hs
      have hparse : parseUint (itoa peer.persistentKeepaliveInterval.toNat) 16 =
          .ok peer.persistentKeepaliveInterval.toNat := by
        rw [itoa, if_neg (Int.not_lt.mpr (Int.natCast_nonneg _)), Int.natAbs_natCast]
        exact parseUint_decimal peer.persistentKeepaliveInterval.isLt
      rw [ok_of_toOption hsecs] at hparse
      rw [if_pos hne, Except.ok.inj hparse]
      rfl
  rw [hsecret', halive']
  rfl

theorem applyPeerSettings_routes {d : Device B E} (hp : ipc.peer = some p)
    (hdummy : ipc.dummy = false) (pfxs : List Prefix) (ss : List (PeerSetting E)) :
    d.applyPeerSettings ipc (pfxs.map (.allowedIP true) ++ ss) =
      { d with
        allowedips := pfxs.foldl (fun t pfx => t.insert pfx p) d.allowedips
      }.applyPeerSettings ipc ss := by
  induction pfxs generalizing d with
  | nil => rfl
  | cons pfx pfxs ih =>
    rw [List.map_cons, List.cons_append, applyPeerSettings]
    simp only [applyPeerSetting, hdummy, hp, Bool.false_eq_true, if_false, if_true, getD_some]
    rw [ih]
    rfl

/-- The settings of a peer change its endpoint and its routes, and the rest as far as it is
written. -/
theorem applyPeerSettings_peerSettings (d : Device B E) (hp : ipc.peer = some p)
    (hdummy : ipc.dummy = false) (e : E) (pfxs : List Prefix) (psk : Option Bytes) (interval : ℕ) :
    ∃ pkaOn, d.applyPeerSettings ipc (peerSettings e pfxs psk interval) =
      ({ d.modifyPeer p (fun peer => { peer with
            endpoint := some e
            presharedKey := psk.getD peer.presharedKey
            persistentKeepaliveInterval :=
              if interval ≠ 0 then interval else peer.persistentKeepaliveInterval }) with
          allowedips := pfxs.foldl (fun t pfx => t.insert pfx p) d.allowedips },
        { ipc with pkaOn }) := by
  have hstart : d.applyPeerSettings ipc (peerSettings e pfxs psk interval) =
      { d.modifyPeer p (fun peer => { peer with endpoint := some e }) with
        allowedips := pfxs.foldl (fun t pfx => t.insert pfx p) d.allowedips }.applyPeerSettings ipc
        (psk.toList.map PeerSetting.presharedKey ++
          if interval ≠ 0 then [PeerSetting.keepalive interval] else []) := by
    rw [peerSettings, applyPeerSettings, hp]
    exact applyPeerSettings_routes hp hdummy pfxs _
  rw [hstart]
  generalize pfxs.foldl (fun t pfx => t.insert pfx p) d.allowedips = routes
  -- a key and an interval, as far as they are there
  rcases psk with _ | bytes <;> by_cases hzero : interval = 0
  · subst hzero
    exact ⟨ipc.pkaOn, rfl⟩
  all_goals
    simp only [ne_eq, hzero, not_true_eq_false, not_false_eq_true, if_false, if_true]
    refine ⟨_, Prod.ext ?_ rfl⟩
    simp only [Option.toList_none, Option.toList_some, List.map_cons, List.map_nil,
      List.cons_append, List.nil_append, applyPeerSettings, applyPeerSetting, hp,
      Option.getD_none, Option.getD_some, modifyPeer, Function.update_self, Function.update_idem]

theorem handlePostConfig_down {d : Device B E} (hdown : d.state = .down)
    (hp : ipc.peer = some p) (hdummy : ipc.dummy = false) (hcreated : ipc.created = true) :
    d.handlePostConfig ipc = d.modifyPeer p fun peer =>
      { peer with disableRoaming := d.net.brokenRoaming && peer.endpoint.isSome } := by
  have hup : ∀ f, (d.modifyPeer p f).isUp = false := fun f => by simp [isUp, modifyPeer, hdown]
  simp only [handlePostConfig, hp, hdummy, hcreated, Bool.false_eq_true, if_false, if_true, hup]

/-- **A block of a new peer**, on a device that is down. -/
theorem block_new {d d' : Device B E} {pk : Bytes} {e : E} {pfxs : List Prefix} {psk : Option Bytes}
    {interval : ℕ} (hdown : d.state = .down) (hown : d.publicKey ≠ pk)
    (hnew : d.lookupPeer pk = none)
    (hblock : d.block env { pk, settings := peerSettings e pfxs psk interval } = some (d', p)) :
    p = d.nextPeer ∧ d'.keyMap = d.keyMap ++ [(pk, p)] ∧
      d'.allowedips = pfxs.foldl (fun t pfx => t.insert pfx p) d.allowedips ∧
      ((d'.peer p).endpoint = some e ∧ (d'.peer p).presharedKey = psk.getD zeroKey ∧
        (d'.peer p).persistentKeepaliveInterval = interval) ∧
      ∀ q ≠ p, d'.peer q = d.peer q := by
  obtain ⟨⟨d₁, ipc⟩, hselect, hrest⟩ := bind_eq_some_iff.mp hblock
  -- neither the own key nor a known one, so that `NewPeer` has made the peer
  rcases selectPeer_cases hselect with ⟨heq, -, -⟩ | ⟨-, q, hq, -, -⟩ | ⟨-, -, hok, rfl⟩
  · exact absurd heq hown
  · rw [hnew] at hq
    cases hq
  · have hpeer : IpcSetPeer.peer
        { peer := some d.nextPeer, dummy := false, created := true, pkaOn := false } =
          some d.nextPeer := rfl
    obtain ⟨pkaOn, happly⟩ := applyPeerSettings_peerSettings d₁ hpeer rfl e pfxs psk interval
    dsimp only at hrest
    rw [happly] at hrest
    obtain ⟨-, hd₁⟩ := newPeer_eq hok
    have hstate : d₁.state = .down := by
      rw [hd₁]
      exact hdown
    have hmap : d₁.keyMap = d.keyMap ++ [(pk, d.nextPeer)] := by rw [hd₁]
    have hroutes : d₁.allowedips = d.allowedips := by
      rw [hd₁]
      rfl
    -- the device before the settings of the block, with the new peer in it
    have hpeer : d₁.peer = update d.peer d.nextPeer { Peer.zero with
        precomputedStaticStatic := env.scalarMult d.privateKey pk, remoteStatic := pk } := by
      rw [hd₁]
      rfl
    clear hd₁
    dsimp only at hrest
    rw [handlePostConfig_down (p := d.nextPeer) (by exact hstate) rfl rfl rfl] at hrest
    cases hrest
    refine ⟨rfl, hmap, by rw [← hroutes]; rfl, ⟨?_, ?_, ?_⟩, fun q hq => ?_⟩
    · simp only [modifyPeer, hpeer, update_self, getD_some]
    · simp only [modifyPeer, hpeer, update_self, getD_some]
      rfl
    · simp only [modifyPeer, hpeer, update_self, getD_some]
      split_ifs with hzero
      · rfl
      · exact (not_not.mp hzero).symm
    · simp only [modifyPeer, hpeer, getD_some] at hq ⊢
      rw [update_of_ne hq, update_of_ne hq, update_of_ne hq]

/-! ## §4 All blocks -/

theorem owns_foldl_insert (pfxs : List Prefix) (p : ℕ) (t : RoutingTable ℕ) (f : Family)
    (bits : List Bool) (q : ℕ) :
    (pfxs.foldl (fun t pfx => t.insert pfx p) t).Owns f bits q ↔
      if ∃ pfx ∈ pfxs, f = pfx.family ∧ bits = pfx.maskedBits then q = p else t.Owns f bits q := by
  induction pfxs generalizing t with
  | nil => simp
  | cons pfx pfxs ih =>
    rw [foldl_cons, ih, RoutingTable.owns_insert_iff]
    by_cases hrest : ∃ pfx ∈ pfxs, f = pfx.family ∧ bits = pfx.maskedBits
    · obtain ⟨pfx', hpfx', heq⟩ := hrest
      rw [if_pos ⟨pfx', hpfx', heq⟩, if_pos ⟨pfx', mem_cons_of_mem _ hpfx', heq⟩]
    · rw [if_neg hrest]
      by_cases hhead : f = pfx.family ∧ bits = pfx.maskedBits
      · rw [if_pos hhead, if_pos ⟨pfx, mem_cons_self, hhead⟩]
      · rw [if_neg hhead, if_neg]
        rintro ⟨pfx', hpfx', heq⟩
        rcases mem_cons.mp hpfx' with rfl | hpfx'
        · exact hhead heq
        · exact hrest ⟨pfx', hpfx', heq⟩

theorem exists_prefix_iff {texts : List Bytes} {pfxs : List Prefix}
    (h : List.Forall₂ (fun text pfx => env.parsePrefix text = some pfx) texts pfxs) (f : Family)
    (bits : List Bool) :
    (∃ pfx ∈ pfxs, f = pfx.family ∧ bits = pfx.maskedBits) ↔
      ∃ text ∈ texts, ∃ pfx, env.parsePrefix text = some pfx ∧ f = pfx.family ∧
        bits = pfx.maskedBits := by
  constructor
  · rintro ⟨pfx, hpfx, heq⟩
    obtain ⟨text, htext, hparse⟩ := exists_of_mem_right h hpfx
    exact ⟨text, htext, pfx, hparse, heq⟩
  · rintro ⟨text, htext, pfx, hparse, heq⟩
    obtain ⟨pfx', hpfx', hparse'⟩ := exists_of_mem_right h.flip htext
    rw [hparse] at hparse'
    cases hparse'
    exact ⟨pfx, hpfx', heq⟩

/-- The device after the blocks of some peers. -/
structure Written (env : Env B E) (own : Bytes) (done : List PeerConfig) (d : Device B E) :
    Prop where
  state : d.state = .down
  publicKey : d.publicKey = own
  bookkept : Bookkept env d
  peers : ∀ k, (∃ p, (k, p) ∈ d.keyMap) ↔ ∃ peer ∈ done, decodeBase64 peer.publicKey = some k
  peer : ∀ peer ∈ done, ∀ k p, decodeBase64 peer.publicKey = some k → (k, p) ∈ d.keyMap →
    PeerMeans env peer d p

variable {own : Bytes} {done : List PeerConfig} {d d' : Device B E}

/-- **One more peer**, with a key and prefixes of its own. -/
theorem Written.block (h : Written env own done d) {pb : PeerBlock E}
    (hparsed : IsParsed env peer pb) (hown : own ≠ pb.pk)
    (hkey : ∀ peer' ∈ done, decodeBase64 peer'.publicKey ≠ decodeBase64 peer.publicKey)
    (hpfx : ∀ peer' ∈ done, ∀ text' ∈ peer'.allowedIPs, ∀ text ∈ peer.allowedIPs,
      ¬SamePrefix env text' text)
    (hblock : d.block env pb = some (d', p)) : Written env own (done ++ [peer]) d' := by
  obtain ⟨hbookkept, hbeside, -⟩ := block_spec h.bookkept hblock
  obtain ⟨pk, settings⟩ := pb
  obtain ⟨hpk, e, pfxs, psk, he, hpfxs, hpsk, rfl⟩ := hparsed
  dsimp only at hpk hown
  -- the key is not that of an earlier peer, so the block makes a new one
  have hfresh : ∀ q, (pk, q) ∉ d.keyMap := by
    intro q hq
    obtain ⟨peer', hpeer', hpk'⟩ := (h.peers pk).mp ⟨q, hq⟩
    exact hkey peer' hpeer' (hpk'.trans hpk.symm)
  have hnew : d.lookupPeer pk = none := by
    cases hlook : d.lookupPeer pk with
    | none => rfl
    | some q => exact absurd (mem_of_lookupPeer hlook) (hfresh q)
  obtain ⟨rfl, hmap, hroutes, ⟨hendpoint, hsecret, hinterval⟩, hothers⟩ :=
    block_new h.state (h.publicKey ▸ hown) hnew hblock
  have hmem : ∀ k q, (k, q) ∈ d'.keyMap ↔ (k, q) ∈ d.keyMap ∨ (k = pk ∧ q = d.nextPeer) := by
    intro k q
    rw [hmap, mem_append, mem_singleton, Prod.mk.injEq]
  have hadded := fun f bits => exists_prefix_iff hpfxs f bits
  refine ⟨hbeside.state.trans h.state, hbeside.publicKey.trans h.publicKey, hbookkept,
    fun k => ?_, ?_⟩
  · -- the keys of the device are those of the peers so far
    constructor
    · rintro ⟨q, hq⟩
      rcases (hmem k q).mp hq with hq | ⟨rfl, -⟩
      · obtain ⟨peer', hpeer', hk⟩ := (h.peers k).mp ⟨q, hq⟩
        exact ⟨peer', mem_append_left _ hpeer', hk⟩
      · exact ⟨peer, mem_append_right _ (mem_singleton_self _), hpk⟩
    · rintro ⟨peer', hpeer', hk⟩
      rcases mem_append.mp hpeer' with hpeer' | hpeer'
      · obtain ⟨q, hq⟩ := (h.peers k).mpr ⟨peer', hpeer', hk⟩
        exact ⟨q, (hmem k q).mpr (Or.inl hq)⟩
      · rw [mem_singleton.mp hpeer', hpk] at hk
        exact ⟨d.nextPeer, (hmem k _).mpr (Or.inr ⟨(some.inj hk).symm, rfl⟩)⟩
  · intro peer' hpeer' k q hk hq
    rcases mem_append.mp hpeer' with hdone | hlast
    · -- an older peer: its fields stay, and the new prefixes are not among its own
      have hk' : k ≠ pk := by
        rintro rfl
        exact hkey peer' hdone (hk.trans hpk.symm)
      have hold : (k, q) ∈ d.keyMap := ((hmem k q).mp hq).resolve_right fun heq => hk' heq.1
      have hmeans := h.peer peer' hdone k q hk hold
      have hne : q ≠ d.nextPeer := Nat.ne_of_lt (h.bookkept.allocated k q hold)
      refine ⟨?_, ?_, ?_, hmeans.allowedIPs, fun f bits => ?_⟩
      · rw [hothers q hne]
        exact hmeans.endpoint
      · rw [hothers q hne]
        exact hmeans.presharedKey
      · rw [hothers q hne]
        exact hmeans.keepalive
      · rw [hroutes, owns_foldl_insert, ← hmeans.routes f bits]
        -- a prefix that the new peer takes was nobody's
        split_ifs with hnewer
        · refine iff_of_false hne fun howns => ?_
          obtain ⟨text, htext, pfx, hparse, hf, hbits⟩ := (hadded f bits).mp hnewer
          obtain ⟨text', htext', pfx', hparse', hf', hbits'⟩ := (hmeans.routes f bits).mp howns
          exact hpfx peer' hdone text' htext' text htext
            ⟨pfx', pfx, hparse', hparse, hf'.symm.trans hf, hbits'.symm.trans hbits⟩
        · exact Iff.rfl
    · -- the new peer
      rw [mem_singleton.mp hlast] at hk ⊢
      rw [hpk] at hk
      cases hk
      have hq' : q = d.nextPeer := (((hmem pk q).mp hq).resolve_left (hfresh q)).2
      subst hq'
      refine ⟨⟨e, he, hendpoint⟩, ?_, hinterval, fun text htext => ?_, fun f bits => ?_⟩
      · unfold PeerConfig.PresharedKey at hpsk
        split_ifs at hpsk ⊢
        · rw [hsecret, hpsk]
          rfl
        · obtain ⟨bytes, hbytes, rfl⟩ := hpsk
          rw [hsecret, hbytes]
          rfl
      · obtain ⟨pfx, -, hparse⟩ := exists_of_mem_right hpfxs.flip htext
        rw [hparse]
        rfl
      · rw [hroutes, owns_foldl_insert, ← hadded f bits]
        -- no route leads to a peer that was not there before
        split_ifs with hnewer
        · exact iff_of_true rfl hnewer
        · refine iff_of_false (fun howns => ?_) hnewer
          obtain ⟨k, hk⟩ := h.bookkept.routes f bits _ howns
          exact lt_irrefl _ (h.bookkept.allocated k _ hk)

theorem Written.blocks {peers : List PeerConfig}
    (hparsed : List.Forall₂ (IsParsed env) peers parsed) (hown : ∀ pb ∈ parsed, own ≠ pb.pk)
    (hkeys : (done ++ peers).Pairwise fun peer peer' => decodeBase64 peer.publicKey ≠
      decodeBase64 peer'.publicKey)
    (hroutes' : (done ++ peers).Pairwise fun peer peer' =>
      ∀ text ∈ peer.allowedIPs, ∀ text' ∈ peer'.allowedIPs, ¬SamePrefix env text text')
    (h : Written env own done d)
    (hrun : parsed.foldlM (fun (d : Device B E) pb => (d.block env pb).map Prod.fst) d = some d') :
    Written env own (done ++ peers) d' := by
  -- on the peers that are left; those that are done are in `Written`
  induction hparsed generalizing done d with
  | nil =>
    cases hrun
    rwa [append_nil]
  | @cons peer pb peers parsed hpeer _ ih =>
    obtain ⟨hownHead, hownRest⟩ := forall_mem_cons.mp hown
    rw [foldlM_cons] at hrun
    obtain ⟨d₁, hd₁, hrun⟩ := bind_eq_some_iff.mp hrun
    obtain ⟨⟨_, p⟩, hblock, rfl⟩ := map_eq_some_iff.mp hd₁
    have hsplit : done ++ peer :: peers = (done ++ [peer]) ++ peers := by
      rw [List.append_assoc, List.singleton_append]
    have hbefore : ∀ {R : PeerConfig → PeerConfig → Prop}, (done ++ peer :: peers).Pairwise R →
        ∀ peer' ∈ done, R peer' peer := fun hpairs peer' hpeer' =>
      (pairwise_append.mp hpairs).2.2 peer' hpeer' peer mem_cons_self
    rw [hsplit] at hkeys hroutes' ⊢
    refine ih hownRest hkeys hroutes' (h.block hpeer hownHead ?_ ?_ hblock) hrun
    · rw [← hsplit] at hkeys
      exact hbefore hkeys
    · rw [← hsplit] at hroutes'
      exact hbefore hroutes'

/-! ## §5 The run of a plain configuration -/

theorem forall₂_isParsed {peers : List PeerConfig} {blocks : List Block}
    (hblocks : List.Forall₂ (fun peer b => ∃ pk psk, decodeBase64 peer.publicKey = some pk ∧
      peer.PresharedKey psk ∧ b = peer.blockOf pk psk) peers blocks)
    (hadded : ∀ peer ∈ peers, ∀ text ∈ peer.allowedIPs, text.head? ≠ some (asciiByte '-'))
    (h : blocks.mapM (Block.parse env) = some parsed) :
    List.Forall₂ (IsParsed env) peers parsed := by
  induction hblocks generalizing parsed with
  | nil =>
    cases h
    exact .nil
  | cons hb _ ih =>
    obtain ⟨hhead, hrest⟩ := forall_mem_cons.mp hadded
    obtain ⟨pb, pbs, hpb, hpbs, rfl⟩ := exists_of_mapM_cons h
    obtain ⟨pk, psk, hpk, hpsk, rfl⟩ := hb
    exact .cons (isParsed_of_parse hhead hpk hpsk hpb) (ih hrest hpbs)

theorem foldlM_block_keys (h : Bookkept env d)
    (hrun : parsed.foldlM (fun (d : Device B E) pb => (d.block env pb).map Prod.fst) d = some d') :
    Bookkept env d' ∧ d'.privateKey = d.privateKey ∧ d'.publicKey = d.publicKey := by
  induction parsed generalizing d with
  | nil =>
    cases hrun
    exact ⟨h, rfl, rfl⟩
  | cons pb parsed ih =>
    rw [foldlM_cons] at hrun
    obtain ⟨d₁, hd₁, hrun⟩ := bind_eq_some_iff.mp hrun
    obtain ⟨⟨_, p⟩, hblock, rfl⟩ := map_eq_some_iff.mp hd₁
    obtain ⟨h₁, hbeside, -⟩ := block_spec h hblock
    obtain ⟨h', hprivate, hpublic⟩ := ih h₁ hrun
    exact ⟨h', hprivate.trans hbeside.privateKey, hpublic.trans hbeside.publicKey⟩

/-- A configuration with plain strings that is accepted: the device lines, and then the blocks. -/
theorem run_of_plain {blocks : List Block} {bind : B}
    (hblocks : List.Forall₂ (fun peer b => ∃ pk psk, decodeBase64 peer.publicKey = some pk ∧
      peer.PresharedKey psk ∧
      b = peer.blockOf pk psk) cfg.peers blocks) (hplain : ∀ s ∈ cfg.strings, IsPlain s)
    (hset : (newDevice bind : Device B E).ipcSet env
      (joinLines (cfg.deviceLines sk ++ blocks.flatMap Block.toLines)) = (d, none)) :
    ∃ d₁ parsed quiet keepalives, DeviceMeans env cfg sk d₁ ∧
      blocks.mapM (Block.parse env) = some parsed ∧
      parsed.foldlM (fun (d : Device B E) pb => (d.block env pb).map Prod.fst) d₁ = some quiet ∧
      d = quiet.withKeepalives keepalives := by
  have haccepted := congrArg Prod.snd hset
  have hrequest := isRequest_of_accepted hblocks hplain haccepted
  have hne := hrequest.ne_nil
  rw [ipcSet_of_isRequest hrequest] at hset
  -- the device lines
  obtain ⟨ss, d₁, hss, happly, hrun⟩ := ipcSetLines_deviceLines
    (fun line hline => hne line (mem_append_left _ hline))
    (fun line hline => not_isKeyLine_deviceLines hline) (congrArg Prod.snd hset)
  rw [hrun] at hset
  -- the blocks
  have hlines : ∀ b ∈ blocks, ∀ line ∈ b.lines, line ≠ [] ∧ ¬IsKeyLine line := by
    intro b hb line hline
    refine ⟨hne line (mem_append_right _ (mem_flatMap_of_mem hb (mem_cons_of_mem _ hline))), ?_⟩
    obtain ⟨peer, -, pk, psk, -, -, rfl⟩ := exists_of_mem_right hblocks hb
    exact not_isKeyLine_blockOf hline
  obtain ⟨parsed, hparsed, hshared⟩ :=
    ipcSetLines_blocks (fun b hb line hline => (hlines b hb line hline).1)
    (fun b hb line hline => (hlines b hb line hline).2) hset
  change runBlocks env true false d₁ parsed = some d at hshared
  rw [← withKeepalives_self d₁, runBlocks_eq] at hshared
  obtain ⟨quiet, hquiet, rfl⟩ := map_eq_some_iff.mp hshared
  exact ⟨d₁, parsed, quiet, _, deviceMeans_of_applySettings hss bind happly, hparsed, hquiet, rfl⟩

theorem PeerMeans.withKeepalives (h : PeerMeans env peer d p) (keepalives : List ℕ) :
    PeerMeans env peer (d.withKeepalives keepalives) p :=
  ⟨h.endpoint, h.presharedKey, h.keepalive, h.allowedIPs, h.routes⟩

theorem takenKey_of_clamped (h : sk = zeroKey ∨ clamp sk = sk) : takenKey sk = sk := by
  unfold takenKey
  split_ifs with hzero
  · rfl
  · exact h.resolve_left hzero

theorem Unambiguous.means {text : Bytes} {bind : B} (h : Unambiguous env cfg)
    (hgen : genIpcString cfg = .ok text)
    (hset : (newDevice bind : Device B E).ipcSet env text = (d, none))
    (hkeys : cfg.peers.Pairwise fun peer peer' => decodeBase64 peer.publicKey ≠
      decodeBase64 peer'.publicKey) :
    Means env cfg d := by
  obtain ⟨sk, blocks, hsk, hblocks, rfl⟩ := lines_of_genIpcString hgen
  obtain ⟨d₁, parsed, quiet, keepalives, hdevice, hparsed, hquiet, rfl⟩ :=
    run_of_plain hblocks h.plain hset
  have htaken : takenKey sk = sk := takenKey_of_clamped (h.clamped sk hsk)
  have hisParsed := forall₂_isParsed hblocks h.added hparsed
  have hown : ∀ pb ∈ parsed, ownKey env (takenKey sk) ≠ pb.pk := by
    intro pb hpb heq
    obtain ⟨peer, hpeer, hpk, -⟩ := exists_of_mem_right hisParsed hpb
    rw [htaken] at heq
    exact h.foreign sk hsk peer hpeer (by rw [hpk, heq])
  -- the device lines leave no peers, and then the blocks add one each
  have hstart : Written env (ownKey env (takenKey sk)) [] d₁ :=
    { state := hdevice.state
      publicKey := hdevice.publicKey
      bookkept := hdevice.bookkept
      peers := fun k => by simp [hdevice.keyMap]
      peer := fun _ hpeer => absurd hpeer not_mem_nil }
  have hwritten : Written env (ownKey env (takenKey sk)) ([] ++ cfg.peers) quiet :=
    Written.blocks hisParsed hown hkeys h.disjoint hstart hquiet
  obtain ⟨-, hprivate, -⟩ := foldlM_block_keys hdevice.bookkept hquiet
  -- blocks do not touch the settings of the device
  have hobf : quiet.obfuscation = d₁.obfuscation := by
    have hrun : runBlocks env false false (d₁.withKeepalives d₁.keepalives) parsed =
        some (quiet.withKeepalives (d₁.keepalives ++ sent env false false d₁ parsed)) := by
      rw [runBlocks_eq, hquiet]
      rfl
    have hsame := runBlocks_obfuscation hrun
    exact hsame
  have hjunk : quiet.junk = d₁.junk := congrArg Obfuscation.junk hobf
  have hpaddings : quiet.paddings = d₁.paddings := congrArg Obfuscation.paddings hobf
  have hheaders : quiet.headers = d₁.headers := congrArg Obfuscation.headers hobf
  have hipackets : quiet.ipackets = d₁.ipackets := congrArg Obfuscation.ipackets hobf
  have himitate : quiet.imitate = d₁.imitate := congrArg Obfuscation.imitate hobf
  exact
    { privateKey := by
        show decodeBase64 cfg.privateKey = some quiet.privateKey
        rw [hprivate, hdevice.privateKey, htaken, hsk]
      junk := hjunk.trans hdevice.junk
      paddings := fun slot => by
        show quiet.paddings.get slot = _
        rw [hpaddings, hdevice.paddings]
      headers := fun slot => by
        show if cfg.h slot = [] then quiet.headers.get slot = _
          else _ = Except.ok (quiet.headers.get slot)
        rw [hheaders]
        exact hdevice.headers slot
      ipackets := fun i => by
        show if cfg.i i = [] then quiet.ipackets i = _ else ∃ chain, _ ∧
          quiet.ipackets i = some chain
        rw [hipackets]
        exact hdevice.ipackets i
      imitate := himitate.trans hdevice.imitate
      peers := hwritten.peers
      peer := fun peer hpeer k p hk hp =>
        (hwritten.peer peer hpeer k p hk hp).withKeepalives keepalives }

end AmneziaWG.Outline
