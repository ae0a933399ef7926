import AmneziaWG.Outline.Meaning

/-!
# Strings That Add Lines

`genIpcString` writes the strings of a configuration as they are.  One with a line end adds lines of
its own, and one with an empty line ends the request before the peers are read.  Here it is shown
that nothing else goes wrong.

## Main results

- `endpointsFrom_ipcSet`: every endpoint of a device was read from a line.
- `genIpcString_means_iff`: the device has the configuration if and only if the configuration is
  unambiguous.
- `written_peers_dropped`: an I-packet with two line ends makes the device ignore all peers.
-/

namespace AmneziaWG.Outline

open AmneziaWG.Lib AmneziaWG.Device AmneziaWG.Device.Device List Option Function

variable {B E : Type} {env : Env B E} {cfg : DeviceConfig} {sk : Bytes} {d d' : Device B E}

/-! ## §1 Texts that are read -/

/-- How `netip` reads the texts of endpoints and prefixes.  A zone may hold a line end, and is then
kept; a port is a number; and a prefix is digits, letters, dots, colons and a slash. -/
structure FaithfulParsers (env : Env B E) : Prop where
  endpoint_newline : ∀ text text' e, env.parseEndpoint text = some e →
    env.parseEndpoint text' = some e → (0x0a : Byte) ∈ text → (0x0a : Byte) ∈ text'
  endpoint_end : ∀ text e, env.parseEndpoint text = some e → text.getLast? ≠ some 0x0d
  parsePrefix : ∀ text pfx, env.parsePrefix text = some pfx → IsPlain text ∧
    text.head? ≠ some (asciiByte '-')

theorem isPlain_of_newMagicHeader {spec : Bytes} {header : MagicHeader}
    (h : newMagicHeader spec = .ok header) :
    IsPlain spec := by
  -- the parts are numbers, and the dash between them is no line end
  have hparts : ∀ part ∈ splitByte (asciiByte '-') spec, ∀ b ∈ part, (digitValue b).isSome := by
    unfold newMagicHeader at h
    have hnumber : ∀ {part : Bytes} {n : ℕ},
        (parseUint part 32).mapError (MagicHeaderError.failedToParse part) = .ok n →
        ∀ b ∈ part, (digitValue b).isSome := by
      intro part n hn b hb
      cases hparse : parseUint part 32 with
      | error err => rw [hparse] at hn; cases hn
      | ok m => exact digitValue_of_parseUint hparse hb
    split at h
    · next part hsplit =>
      obtain ⟨n, hn, -⟩ := exists_of_bind_eq_ok h
      rw [hsplit]
      intro part' hpart'
      rw [mem_singleton.mp hpart']
      exact hnumber hn
    · next part part' hsplit =>
      obtain ⟨n, hn, h⟩ := exists_of_bind_eq_ok h
      obtain ⟨n', hn', -⟩ := exists_of_bind_eq_ok h
      rw [hsplit]
      intro part'' hpart''
      rcases mem_cons.mp hpart'' with rfl | hpart''
      · exact hnumber hn
      · rw [mem_singleton.mp hpart'']
        exact hnumber hn'
    · cases h
  refine isPlain_of_forall fun b hb => ?_
  rcases mem_splitByte (asciiByte '-') hb with rfl | ⟨part, hpart, hb⟩
  · decide
  · have hdigit := hparts part hpart b hb
    constructor <;> rintro rfl <;> exact absurd hdigit (by decide)

/-! ## §2 Endpoints -/

/-- Endpoints are read from lines. -/
def EndpointsFrom (env : Env B E) (L : Bytes → Prop) (d : Device B E) : Prop :=
  ∀ p e, (d.peer p).endpoint = some e → ∃ line, L line ∧
    linePeerSetting env line = some (.endpoint e)

/-- No endpoint is new. -/
def KeepsEndpoints (d d' : Device B E) : Prop :=
  ∀ p e, (d'.peer p).endpoint = some e → (d.peer p).endpoint = some e

theorem keepsEndpoints_modifyPeer (d : Device B E) (q : ℕ) {f : Peer E → Peer E}
    (hf : ∀ peer, (f peer).endpoint = peer.endpoint) : KeepsEndpoints d (d.modifyPeer q f) := by
  intro p e h
  unfold modifyPeer at h
  dsimp only at h
  by_cases hp : p = q
  · rwa [hp, update_self, hf, ← hp] at h
  · rwa [update_of_ne hp] at h

theorem keepsEndpoints_allocPeer (d : Device B E) {peer : Peer E} (hpeer : peer.endpoint = none) :
    KeepsEndpoints d (d.allocPeer peer) := by
  intro p e h
  unfold allocPeer at h
  dsimp only at h
  by_cases hp : p = d.nextPeer
  · rw [hp, update_self, hpeer] at h
    cases h
  · rwa [update_of_ne hp] at h

theorem peerRel_keepsEndpoints : PeerRel (KeepsEndpoints : Device B E → Device B E → Prop) where
  refl _ := fun _ _ h => h
  trans h h' := fun p e hp => h p e (h' p e hp)
  net _ _ := fun _ _ h => h
  clearSrc d p := keepsEndpoints_modifyPeer d p fun _ => rfl
  stop d p := keepsEndpoints_modifyPeer d p fun _ => rfl
  secret d p _ := keepsEndpoints_modifyPeer d p fun _ => rfl
  allowedips _ _ := fun _ _ h => h
  keyMap _ _ := fun _ _ h => h
  keys _ _ _ := fun _ _ h => h

theorem EndpointsFrom.kept {L : Bytes → Prop} (h : EndpointsFrom env L d)
    (hd : KeepsEndpoints d d') :
    EndpointsFrom env L d' :=
  fun p e he => h p e (hd p e he)

theorem keepsEndpoints_handlePostConfig (d : Device B E) (ipc : IpcSetPeer) :
    KeepsEndpoints d (d.handlePostConfig ipc) :=
  handlePostConfig_rel peerRel_keepsEndpoints.refl peerRel_keepsEndpoints.trans
    (fun d p _ _ hf => keepsEndpoints_modifyPeer d p fun peer => by rw [hf peer])
    (fun _ _ => fun _ _ h => h) d

/-- **The endpoints of a device** that was set once are those of the lines of the request. -/
theorem endpointsFrom_ipcSet (env : Env B E) (bind : B) (text : Bytes) :
    EndpointsFrom env (· ∈ requestLines (scanLines text).1)
      ((newDevice bind : Device B E).ipcSet env text).1 := by
  have hrel : PeerRel (KeepsEndpoints : Device B E → Device B E → Prop) := peerRel_keepsEndpoints
  refine ipcSetLines_rule (· ∈ requestLines (scanLines text).1)
    (fun _ d _ => EndpointsFrom env (· ∈ requestLines (scanLines text).1) d)
    (fun d _ => EndpointsFrom env (· ∈ requestLines (scanLines text).1) d) (fun _ _ _ _ h _ _ => h)
      ?_ ?_ ?_ ?_ _
    (fun _ hline => hline) (fun hfalse => by cases hfalse) ?_
  · -- no setting of the device makes an endpoint
    intro d ipc line s _ hs hd
    refine hd.kept ?_
    clear hs
    cases s
    case privateKey sk => exact hrel.setPrivateKey env d sk
    case listenPort port => exact hrel.trans (hrel.net d _) (hrel.bindUpdate env _)
    case fwmark mark => exact hrel.bindSetMark env d mark
    case replacePeers => exact hrel.removeAllPeers d
    case jc | jmin | jmax | padding | imitateProtocol | header | ipacket => exact fun _ _ h => h
  · intro b d ipc hd
    exact hd.kept (keepsEndpoints_handlePostConfig d ipc)
  · intro b d ipc value d' ipc' hd hkey
    obtain ⟨pk, -, hselect⟩ := handlePublicKeyLine_iff.mp hkey
    refine hd.kept ?_
    rcases selectPeer_cases hselect with ⟨-, rfl, -⟩ | ⟨-, p, -, rfl, -⟩ | ⟨-, -, hnew, -⟩
    · exact keepsEndpoints_allocPeer d rfl
    · exact hrel.refl d'
    · obtain ⟨-, rfl⟩ := newPeer_eq hnew
      exact hrel.trans (keepsEndpoints_allocPeer d rfl) (hrel.keyMap _ _)
  · intro d ipc p line s hline hs hp hd
    have hdummy : ∀ d' : Device B E, KeepsEndpoints d d' → KeepsEndpoints d (d'.dummyPeer ipc).1 :=
      fun d' hd' =>
      hrel.trans hd' (keepsEndpoints_allocPeer d' rfl)
    cases s <;> simp only [applyPeerSetting]
    case updateOnly =>
      split
      · exact hd.kept (hdummy _ (hrel.removePeer d _))
      · exact hd
    case remove =>
      refine hd.kept (hdummy _ ?_)
      split
      · exact hrel.removePeer d _
      · exact hrel.refl d
    case presharedKey => exact hd.kept (keepsEndpoints_modifyPeer d p fun _ => rfl)
    -- the one setting that does, and its line is one of the request
    case endpoint e =>
      intro q e' he'
      unfold modifyPeer at he'
      dsimp only at he'
      by_cases hq : q = p
      · rw [hq, update_self] at he'
        cases he'
        exact ⟨line, hline, hs⟩
      · rw [update_of_ne hq] at he'
        exact hd q e' he'
    case keepalive => exact hd.kept (keepsEndpoints_modifyPeer d p fun _ => rfl)
    case replaceAllowedIPs => split <;> exact hd
    case allowedIP => split_ifs <;> exact hd
    case protocolVersion => exact hd
  · intro p e he
    cases he

theorem endpoint_of_linePeerSetting {line : Bytes} {e : E}
    (h : linePeerSetting env line = some (.endpoint e)) :
    ∃ value, line = uapiLine "endpoint" value ∧ env.parseEndpoint value = some e := by
  obtain ⟨⟨key, value⟩, hcut, hparse⟩ := bind_eq_some_iff.mp h
  obtain ⟨k, hk, hread⟩ := bind_eq_some_iff.mp hparse
  -- of all keys only `endpoint` makes an endpoint
  have hendpoint : k = .endpoint ∧ env.parseEndpoint value = some e := by
    cases k <;> simp only [readPeerSetting] at hread
    case endpoint =>
      obtain ⟨e', he', heq⟩ := map_eq_some_iff.mp hread
      cases heq
      exact ⟨rfl, he'⟩
    case presharedKey | persistentKeepaliveInterval =>
      obtain ⟨x, -, heq⟩ := map_eq_some_iff.mp hread
      cases heq
    case allowedIP =>
      unfold readAllowedIP at hread
      split_ifs at hread <;>
        · obtain ⟨x, -, heq⟩ := map_eq_some_iff.mp hread
          cases heq
    all_goals
      split_ifs at hread
      cases hread
  obtain ⟨rfl, hvalue⟩ := hendpoint
  have hname : key = ascii "endpoint" := by
    obtain ⟨entry, hfind, hentry⟩ := map_eq_some_iff.mp hk
    have htable : ∀ entry ∈ peerKeys, entry.2 = .endpoint → entry.1 = "endpoint" := by decide
    rw [← htable entry (mem_of_find?_eq_some hfind) hentry]
    have hkey := find?_some hfind
    exact (of_decide_eq_true hkey).symm
  refine ⟨value, ?_, hvalue⟩
  rw [(eq_of_cutByte hcut).1, hname]
  rfl

/-! ## §3 Lines that were delivered -/

theorem not_mem_of_uapiLine {b : Byte} {name : String} {value : Bytes}
    (h : b ∉ uapiLine name value) : b ∉ value :=
  fun hmem => h (mem_append_right _ (mem_cons_of_mem _ hmem))

/-- A line that was delivered is one that was written, less a carriage return. -/
theorem exists_raw {blocks : List Block} (hblocks : List.Forall₂ (fun peer b => ∃ pk psk,
      decodeBase64 peer.publicKey = some pk ∧ peer.PresharedKey psk ∧
        b = peer.blockOf pk psk) cfg.peers blocks)
    (hnewline : ∀ s ∈ cfg.strings, (0x0a : Byte) ∉ s) {line : Bytes}
    (h : line ∈ (scanLines (joinLines (cfg.deviceLines sk ++ blocks.flatMap Block.toLines))).1) :
    ∃ raw ∈ cfg.deviceLines sk ++ blocks.flatMap Block.toLines, line = dropCR raw := by
  have hlines : ∀ raw ∈ cfg.deviceLines sk ++ blocks.flatMap Block.toLines,
      (0x0a : Byte) ∉ raw := by
    intro raw hraw
    obtain ⟨name, value, hname, rfl, hvalue⟩ := of_mem_lines hblocks hraw
    rw [uapiLine, mem_append, mem_cons, not_or, not_or]
    exact ⟨hname, by decide, hvalue.elim IsPlain.noNewline (hnewline value)⟩
  generalize cfg.deviceLines sk ++ blocks.flatMap Block.toLines = lines at h hlines ⊢
  cases lines with
  | nil => cases h
  | cons first lines =>
    obtain ⟨hfirst, hrest⟩ := forall_mem_cons.mp hlines
    exact scanLinesFrom_joinLines hfirst hrest h

theorem value_of_ipacket_line {blocks : List Block} (hblocks : List.Forall₂ (fun peer b => ∃ pk psk,
      decodeBase64 peer.publicKey = some pk ∧ peer.PresharedKey psk ∧
        b = peer.blockOf pk psk) cfg.peers blocks)
    {i : Fin 5} {value : Bytes}
    (h : uapiLine (DeviceKey.ipacket i).name value ∈ cfg.deviceLines sk ++
      blocks.flatMap Block.toLines) :
    value = cfg.i i := by
  have hcut := cutByte_uapiLine (.ipacket i) value
  rcases mem_append.mp h with h | h
  · obtain ⟨k, -, hk⟩ := mem_map.mp h
    have hcut' := cutByte_uapiLine k (cfg.value sk k)
    rw [hk, hcut] at hcut'
    obtain ⟨hname, hvalue⟩ := Prod.mk.inj (some.inj hcut')
    have hkey : DeviceKey.ipacket i = k := by
      have hsame := deviceKey_name k
      rw [← hname, deviceKey_name] at hsame
      exact some.inj hsame
    rw [hvalue, ← hkey]
    rfl
  · -- the lines of peers have other names
    obtain ⟨b, hb, h⟩ := mem_flatMap.mp h
    obtain ⟨peer, -, pk, psk, -, -, rfl⟩ := exists_of_mem_right hblocks hb
    rcases mem_cons.mp h with h | h
    · rw [h, cutByte_keyLine] at hcut
      obtain ⟨hname, -⟩ := Prod.mk.inj (some.inj hcut)
      have hother : ∀ i : Fin 5, ascii "public_key" ≠ ascii (DeviceKey.ipacket i).name := by decide
      exact absurd hname (hother i)
    · obtain ⟨name, hname, value', heq, -⟩ := of_mem_blockOf h
      rw [heq, cutByte_peerName hname] at hcut
      have hother : ∀ name ∈ peerNames, ∀ i, ascii name ≠
          ascii (DeviceKey.ipacket i).name := by decide
      exact absurd (Prod.mk.inj (some.inj hcut)).1 (hother name hname i)

/-- A string that was written under the name of an I-packet and delivered whole does not end in a
carriage return. -/
theorem noCR_of_delivered {blocks : List Block} (hblocks : List.Forall₂ (fun peer b => ∃ pk psk,
      decodeBase64 peer.publicKey = some pk ∧ peer.PresharedKey psk ∧
        b = peer.blockOf pk psk) cfg.peers blocks)
    (hnewline : ∀ s ∈ cfg.strings, (0x0a : Byte) ∉ s) {i : Fin 5}
    (h : uapiLine (DeviceKey.ipacket i).name (cfg.i i) ∈
      (scanLines (joinLines (cfg.deviceLines sk ++ blocks.flatMap Block.toLines))).1) :
    (cfg.i i).getLast? ≠ some 0x0d := by
  intro hlast
  obtain ⟨raw, hraw, hdrop⟩ := exists_raw hblocks hnewline h
  have hlast' : (uapiLine (DeviceKey.ipacket i).name (cfg.i i)).getLast? = some 0x0d := by
    rw [uapiLine, getLast?_append, getLast?_cons, hlast]
    rfl
  unfold dropCR at hdrop
  split at hdrop
  · -- the line had two carriage returns, and the string has one
    next hcr =>
    have hwhole : raw = uapiLine (DeviceKey.ipacket i).name (cfg.i i ++ [0x0d]) := by
      rw [← dropLast_append_getLast? 0x0d hcr, ← hdrop]
      simp [uapiLine]
    rw [hwhole] at hraw
    have hvalue := value_of_ipacket_line hblocks hraw
    simp at hvalue
  · next hcr =>
    rw [hdrop] at hlast'
    exact hcr hlast'

/-! ## §4 The configuration and the device -/

theorem Means.unambiguous {text : Bytes} {bind : B} (hparsers : FaithfulParsers env)
    (h : Means env cfg d)
    (hgen : genIpcString cfg = .ok text)
    (hset : (newDevice bind : Device B E).ipcSet env text = (d, none))
    (hkeys : cfg.peers.Pairwise fun peer peer' => decodeBase64 peer.publicKey ≠
      decodeBase64 peer'.publicKey) :
    Unambiguous env cfg := by
  obtain ⟨sk, blocks, hsk, hblocks, rfl⟩ := lines_of_genIpcString hgen
  generalize htext : joinLines (cfg.deviceLines sk ++ blocks.flatMap Block.toLines) = text at hset
  have hread : ∀ line ∈ requestLines (scanLines text).1, (0x0a : Byte) ∉ line := fun line hline =>
    (mem_scanLinesFrom not_mem_nil (by decide) (takeWhile_subset _ hline)).1
  have hbookkept : Bookkept env d := by
    have hbook := (bookkept_newDevice env bind).ipcSet text
    rwa [hset] at hbook
  have hconfigured : Configured env (· = text) d := .set (.new bind) rfl hset
  -- every peer of the configuration is there
  have hpeer : ∀ peer ∈ cfg.peers, ∃ k p, decodeBase64 peer.publicKey = some k ∧ (k, p) ∈ d.keyMap ∧
      PeerMeans env peer d p := by
    intro peer hpeer
    obtain ⟨b, -, k, psk, hk, -⟩ := exists_of_mem_right hblocks.flip hpeer
    obtain ⟨p, hp⟩ := (h.peers k).mpr ⟨peer, hpeer, hk⟩
    exact ⟨k, p, hk, hp, h.peer peer hpeer k p hk hp⟩
  have hroute : ∀ peer ∈ cfg.peers, ∀ text ∈ peer.allowedIPs,
      IsPlain text ∧ text.head? ≠ some (asciiByte '-') := by
    intro peer hmem text htext
    obtain ⟨k, p, -, -, hmeans⟩ := hpeer peer hmem
    obtain ⟨pfx, hpfx⟩ := isSome_iff_exists.mp (hmeans.allowedIPs text htext)
    exact hparsers.parsePrefix text pfx hpfx
  -- an I-packet stands in a line that was delivered
  have hipacket : ∀ i, cfg.i i ≠ [] →
      uapiLine (DeviceKey.ipacket i).name (cfg.i i) ∈ requestLines (scanLines text).1 := by
    intro i hne
    have hmeans := h.ipackets i
    rw [if_neg hne] at hmeans
    obtain ⟨chain, hchain, hd⟩ := hmeans
    have hvalid := hconfigured.settingsValid (L := (· ∈ requestLines (scanLines text).1))
      fun t ht line hline => ht ▸ hline
    have hline := (hvalid.ipackets i chain hd).2
    rwa [spec_of_newObfChain hchain] at hline
  have hheader : ∀ slot, IsPlain (cfg.h slot) := by
    intro slot
    have hmeans := h.headers slot
    split_ifs at hmeans with hempty
    · rw [hempty]
      exact ⟨not_mem_nil, nofun⟩
    · exact isPlain_of_newMagicHeader hmeans
  have hendpoint : ∀ peer ∈ cfg.peers, IsPlain peer.endpoint := by
    intro peer hmem
    obtain ⟨k, p, -, -, hmeans⟩ := hpeer peer hmem
    obtain ⟨e, he, hd⟩ := hmeans.endpoint
    have hfrom := endpointsFrom_ipcSet env bind text
    rw [hset] at hfrom
    obtain ⟨line, hline, hsetting⟩ := hfrom p e hd
    obtain ⟨value, rfl, hvalue⟩ := endpoint_of_linePeerSetting hsetting
    refine ⟨fun hnewline => ?_, hparsers.endpoint_end _ e he⟩
    exact not_mem_of_uapiLine (hread _ hline) (hparsers.endpoint_newline _ _ e he hvalue hnewline)
  -- a line end would have cut the string; a carriage return at its end is dropped
  have hnewline : ∀ s ∈ cfg.strings, (0x0a : Byte) ∉ s := by
    intro s hs
    rcases cfg.mem_strings_iff.mp hs with ⟨slot, rfl⟩ | ⟨i, rfl⟩ | ⟨peer, hmem, rfl | hs⟩
    · exact (hheader slot).noNewline
    · by_cases hempty : cfg.i i = []
      · rw [hempty]
        exact not_mem_nil
      · exact not_mem_of_uapiLine (hread _ (hipacket i hempty))
    · exact (hendpoint peer hmem).noNewline
    · exact (hroute peer hmem s hs).1.noNewline
  have hplain : ∀ s ∈ cfg.strings, IsPlain s := by
    intro s hs
    rcases cfg.mem_strings_iff.mp hs with ⟨slot, rfl⟩ | ⟨i, rfl⟩ | ⟨peer, hmem, rfl | hs'⟩
    · exact hheader slot
    · refine ⟨hnewline _ hs, fun hlast => ?_⟩
      have hne : cfg.i i ≠ [] := by
        intro hempty
        rw [hempty] at hlast
        cases hlast
      have hdelivered := takeWhile_subset _ (hipacket i hne)
      rw [← htext] at hdelivered
      exact noCR_of_delivered hblocks hnewline hdelivered hlast
    · exact hendpoint peer hmem
    · exact (hroute peer hmem s hs').1
  -- the key of the device
  have hsame : sk = d.privateKey := some.inj (hsk.symm.trans h.privateKey)
  have hclamped : sk = zeroKey ∨ clamp sk = sk := by
    rw [hsame]
    exact hconfigured.privateKey_valid.2
  have hpublic : d.publicKey = ownKey env sk := by
    rw [← htext] at hset
    obtain ⟨d₁, parsed, quiet, keepalives, hdevice, -, hquiet, rfl⟩ :=
      run_of_plain hblocks hplain hset
    obtain ⟨-, -, hkept⟩ := foldlM_block_keys hdevice.bookkept hquiet
    show quiet.publicKey = _
    rw [hkept, hdevice.publicKey, takenKey_of_clamped hclamped]
  refine ⟨hplain, fun peer hmem text htext => (hroute peer hmem text htext).2, fun sk' hsk' => ?_,
    fun sk' hsk' peer hmem hown => ?_, ?_⟩
  · rw [hsk] at hsk'
    cases hsk'
    exact hclamped
  · rw [hsk] at hsk'
    cases hsk'
    obtain ⟨k, p, hk, hp, -⟩ := hpeer peer hmem
    rw [hk, ← hpublic] at hown
    exact hbookkept.foreign k p hp (some.inj hown)
  · -- a prefix has one owner
    refine hkeys.imp_of_mem fun {peer peer'} hmem hmem' hne text htext text' htext' hshared =>
      hne ?_
    obtain ⟨pfx, pfx', hpfx, hpfx', hfamily, hbits⟩ := hshared
    obtain ⟨k, p, hk, hp, hmeans⟩ := hpeer peer hmem
    obtain ⟨k', p', hk', hp', hmeans'⟩ := hpeer peer' hmem'
    have howns := (hmeans.routes _ _).mpr ⟨text, htext, pfx, hpfx, rfl, rfl⟩
    have howns' := (hmeans'.routes _ _).mpr ⟨text', htext', pfx', hpfx', hfamily, hbits⟩
    have hpp : p = p' := d.allowedips.owner_unique howns howns'
    subst hpp
    have hid := (hbookkept.stored k p hp).symm.trans (hbookkept.stored k' p hp')
    rw [hk, hk', (Prod.mk.inj hid).1]

/-- **The written configuration means what it says if and only if it is unambiguous**, for every
configuration whose text is accepted by a new device and whose peers have different keys.
`hparsers` is about the parsers of endpoints and prefixes, which belong to the standard library. -/
theorem genIpcString_means_iff (hparsers : FaithfulParsers env) (cfg : DeviceConfig) {text : Bytes}
    {bind : B}
    (hgen : genIpcString cfg = .ok text)
    (hset : (newDevice bind : Device B E).ipcSet env text = (d, none))
    (hkeys : cfg.peers.Pairwise fun peer peer' => decodeBase64 peer.publicKey ≠
      decodeBase64 peer'.publicKey) :
    Means env cfg d ↔ Unambiguous env cfg :=
  ⟨fun h => h.unambiguous hparsers hgen hset hkeys, fun h => h.means hgen hset hkeys⟩

/-! ## §5 Two configurations -/

/-- Parsers that know one endpoint and one prefix. -/
def parseExampleEndpoint (text : Bytes) : Option Unit :=
  if text = ascii "192.0.2.1:51820" then some () else none

theorem examplePrefix_length : ([10, 0, 0, 0] : Bytes).length = Family.ipv4.addrLen :=
  rfl

theorem examplePrefix_bits : 8 ≤ 8 * ([10, 0, 0, 0] : Bytes).length := by
  decide

def parseExamplePrefix (text : Bytes) : Option Prefix :=
  if text = ascii "10.0.0.0/8" then
    some { family := .ipv4, addr := [10, 0, 0, 0], bits := 8, addr_len := examplePrefix_length,
           bits_le := examplePrefix_bits }
  else none

def exampleEnv : Env Unit Unit :=
  { quietEnv with parseEndpoint := parseExampleEndpoint, parsePrefix := parseExamplePrefix }

theorem faithfulParsers_exampleEnv : FaithfulParsers exampleEnv := by
  have hendpoint : ∀ text e, parseExampleEndpoint text = some e →
      text = ascii "192.0.2.1:51820" := by
    intro text e h
    unfold parseExampleEndpoint at h
    split_ifs at h with htext
    exact htext
  refine ⟨fun text text' e h _ hmem => ?_, fun text e h => ?_, fun text pfx h => ?_⟩
  · rw [hendpoint text e h] at hmem
    exact absurd hmem (by decide)
  · rw [hendpoint text e h]
    decide
  · change parseExamplePrefix text = some pfx at h
    unfold parseExamplePrefix at h
    split_ifs at h with htext
    rw [htext]
    exact ⟨⟨by decide, by decide⟩, by decide⟩

/-- A configuration with one peer; the first I-packet is given. -/
def exampleConfig (i1 : Bytes) : DeviceConfig :=
  { privateKey := List.replicate 41 (asciiByte 'A') ++ ascii "EA="
    jc := 3
    jmin := 0
    jmax := 0
    s := fun _ => 0
    h := fun slot => if slot = .init then ascii "5-9" else []
    i := fun i => if i = 0 then i1 else []
    peers := [{ publicKey := ascii "AQ" ++ List.replicate 41 (asciiByte 'A') ++ ascii "="
                presharedKey := []
                endpoint := ascii "192.0.2.1:51820"
                allowedIPs := [ascii "10.0.0.0/8"]
                persistentKeepaliveInterval := 25 }] }

private theorem eq_mk_of_snd_eq {α β : Type} {r : α × β} {b : β} (h : r.2 = b) : r = (r.1, b) :=
  Prod.ext rfl h

/-- What `genIpcString` writes for it. -/
def exampleText (i1 : Bytes) : Bytes := (genIpcString (exampleConfig i1)).toOption.getD []

theorem genIpcString_means_example :
    let cfg := exampleConfig (ascii "<b 0x01>")
    let r := (newDevice () : Device Unit Unit).ipcSet exampleEnv (exampleText (ascii "<b 0x01>"))
    genIpcString cfg = .ok (exampleText (ascii "<b 0x01>")) ∧ r.2 = none ∧
      Means exampleEnv cfg r.1 := by
  intro cfg r
  have hgen : genIpcString cfg = .ok (exampleText (ascii "<b 0x01>")) :=
    ok_of_toOption (by decide +kernel)
  have haccepted : r.2 = none := by decide +kernel
  refine ⟨hgen, haccepted, (genIpcString_means_iff faithfulParsers_exampleEnv cfg hgen
    (eq_mk_of_snd_eq haccepted) (pairwise_singleton _ _)).mpr ?_⟩
  have hstrings : ∀ s ∈ cfg.strings, (0x0a : Byte) ∉ s ∧ s.getLast? ≠ some 0x0d := by decide +kernel
  have hsk : decodeBase64 cfg.privateKey = some (replicate 31 0 ++ [64]) := by decide +kernel
  refine ⟨fun s hs => ⟨(hstrings s hs).1, (hstrings s hs).2⟩, by decide +kernel, fun sk hsk' => ?_,
    fun sk hsk' peer hpeer => ?_, pairwise_singleton _ _⟩
  · rw [hsk] at hsk'
    cases hsk'
    exact Or.inr (by decide)
  · rw [hsk] at hsk'
    cases hsk'
    rw [mem_singleton.mp hpeer]
    decide +kernel

/-- **Peers that are dropped.**  The I-packet ends with an empty line, which ends the request: it is
accepted, and the device has no peer. -/
theorem written_peers_dropped :
    let cfg := exampleConfig (ascii "<b 0x01>\n\n")
    let r := (newDevice () : Device Unit Unit).ipcSet exampleEnv
      (exampleText (ascii "<b 0x01>\n\n"))
    FaithfulParsers exampleEnv ∧ genIpcString cfg = .ok (exampleText (ascii "<b 0x01>\n\n")) ∧
      r.2 = none ∧ r.1.keyMap = [] ∧ cfg.peers.length = 1 ∧ ¬Means exampleEnv cfg r.1 := by
  intro cfg r
  have hmap : r.1.keyMap = [] := by decide +kernel
  refine ⟨faithfulParsers_exampleEnv, ok_of_toOption (by decide +kernel), by decide +kernel, hmap,
    rfl, fun h => ?_⟩
  have hpk : decodeBase64 (ascii "AQ" ++ replicate 41 (asciiByte 'A') ++ ascii "=") =
      some (1 :: replicate 31 0) := by decide +kernel
  obtain ⟨p, hp⟩ := (h.peers (1 :: replicate 31 0)).mpr ⟨_, mem_singleton_self _, hpk⟩
  rw [hmap] at hp
  cases hp

end AmneziaWG.Outline
