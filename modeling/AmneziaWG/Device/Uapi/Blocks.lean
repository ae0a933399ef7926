import Mathlib.Data.List.TakeWhile
import AmneziaWG.Device.Uapi.Configured
import AmneziaWG.Lib.Fallible

/-!
# Requests with Several Peers

A request is device lines followed by blocks, each a `public_key` line and the lines of that peer.
Here a request is taken apart: what its lines are, what each part asks for, and what the parts do
one after the other.  One `ipcSetPeer` serves all blocks of a request; all of it is set anew by a
`public_key` line but `pkaOn`.

## Main results

- `ipcSetLines_deviceLines`, `ipcSetLines_blocks`: a request that is accepted, part by part.
- `ipcSet_block`: a block as a request of its own.
-/

set_option linter.dupNamespace false

namespace AmneziaWG.Device

open AmneziaWG.Lib List Option

namespace Device

variable {B E : Type} {env : Env B E}
variable {lines rest : List Bytes} {text line pk : Bytes} {tooLong pkaOn : Bool} {d d' : Device B E}
  {ipc : IpcSetPeer} {p : ℕ}

/-! ## §1 Lines and texts of requests -/

/-- The text is a request of these lines: they end at a blank line, or with the text. -/
def IsRequest (text : Bytes) (lines : List Bytes) : Prop :=
  requestLines (scanLines text).1 = lines ∧ ([] ∈ (scanLines text).1 ∨ (scanLines text).2 = false)

def IsKeyLine (line : Bytes) : Prop :=
  (cutByte (asciiByte '=') line).map Prod.fst = some (ascii "public_key")

instance : DecidablePred IsKeyLine := fun _ => inferInstanceAs (Decidable (_ = _))

instance (text : Bytes) (lines : List Bytes) : Decidable (IsRequest text lines) :=
  inferInstanceAs (Decidable (_ ∧ _))

theorem ipcSetLines_blank (tooLong : Bool) (hblank : [] ∈ lines) (b : Bool) (d : Device B E)
    (ipc : IpcSetPeer) :
    ipcSetLines env tooLong lines b d ipc = ipcSetLines env false (requestLines lines) b d ipc := by
  induction lines generalizing b d ipc with
  | nil => cases hblank
  | cons line lines ih =>
    by_cases hline : line = []
    · rw [requestLines, takeWhile_cons_of_neg (by simpa using hline), ipcSetLines_nil, ipcSetLines,
        setLine, if_pos hline]
    · have hrest : [] ∈ lines := (mem_cons.mp hblank).resolve_left (Ne.symm hline)
      rw [requestLines, takeWhile_cons_of_pos (by simpa using hline), ipcSetLines, ipcSetLines]
      simp only [ih hrest, requestLines]

theorem ipcSet_of_isRequest (h : IsRequest text lines) (d : Device B E) :
    d.ipcSet env text = ipcSetLines env false lines true d IpcSetPeer.new := by
  obtain ⟨rfl, hend⟩ := h
  unfold ipcSet
  rcases hscan : scanLines text with ⟨lines, tooLong⟩
  rw [hscan] at hend
  dsimp only at hend ⊢
  by_cases hblank : [] ∈ lines
  · exact ipcSetLines_blank tooLong hblank true d IpcSetPeer.new
  · have hall : requestLines lines = lines := by
      refine takeWhile_eq_self_iff.mpr fun line hline => ?_
      rw [decide_eq_true_iff]
      rintro rfl
      exact hblank hline
    rw [hall, hend.resolve_left hblank]

theorem IsRequest.ne_nil (h : IsRequest text lines) : ∀ line ∈ lines, line ≠ [] := by
  obtain ⟨rfl, -⟩ := h
  intro line hline
  simpa using mem_takeWhile_imp hline

/-! ## §2 Device lines -/

theorem setting_of_ipcSetLines (hne : line ≠ []) (hkey : ¬IsKeyLine line)
    (h : (ipcSetLines env tooLong (line :: lines) true d ipc).2 = none) :
    ∃ s d', lineSetting line = some s ∧ d.applySetting env s = (d', true) := by
  rw [ipcSetLines, setLine, if_neg hne] at h
  cases hcut : cutByte (asciiByte '=') line with
  | none => rw [hcut] at h; cases h
  | some kv =>
    obtain ⟨key, value⟩ := kv
    have hname : key ≠ ascii "public_key" := by
      rintro rfl
      exact hkey (by rw [IsKeyLine, hcut]; rfl)
    simp only [hcut, if_neg hname, if_true] at h
    rcases hrun : d.handleDeviceLine env key value with ⟨d', _ | err⟩
    · obtain ⟨s, hs, happly⟩ := setting_of_accepted hrun
      exact ⟨s, d', by rw [lineSetting, hcut]; exact hs, happly⟩
    · rw [hrun] at h
      cases h

/-- The device lines of a request that is accepted do what they do whatever follows. -/
theorem ipcSetLines_deviceLines {D : List Bytes} (hne : ∀ line ∈ D, line ≠ [])
    (hkey : ∀ line ∈ D, ¬IsKeyLine line)
    (h : (ipcSetLines env tooLong (D ++ rest) true d ipc).2 = none) :
    ∃ ss d', D.mapM lineSetting = some ss ∧ d.applySettings env ss = some d' ∧
      ∀ tooLong' rest', ipcSetLines env tooLong' (D ++ rest') true d ipc =
        ipcSetLines env tooLong' rest' true d' ipc := by
  induction D generalizing d with
  | nil => exact ⟨[], d, rfl, rfl, fun _ _ => rfl⟩
  | cons line D ih =>
    obtain ⟨hline, hne'⟩ := forall_mem_cons.mp hne
    obtain ⟨hlineKey, hkey'⟩ := forall_mem_cons.mp hkey
    obtain ⟨s, d₁, hs, happly⟩ := setting_of_ipcSetLines hline hlineKey h
    rw [cons_append, ipcSetLines_cons_setting hs happly] at h
    obtain ⟨ss, d', hss, happlys, hrun⟩ := ih hne' hkey' h
    refine ⟨s :: ss, d', ?_, ?_, fun tooLong' rest' => ?_⟩
    · rw [mapM_cons, hs, hss]
      rfl
    · rw [applySettings, happly]
      exact happlys
    · rw [cons_append, ipcSetLines_cons_setting hs happly, hrun]

/-! ## §3 Blocks -/

/-- What a `public_key` line does: the own key selects a dummy, a key of the map its peer, and
another key a new peer. -/
def selectPeer (env : Env B E) (d : Device B E) (pk : Bytes) (pkaOn : Bool) :
    Option (Device B E × IpcSetPeer) :=
  if d.publicKey = pk then
    some (d.allocPeer Peer.zero,
      { peer := some d.nextPeer, dummy := true, created := false, pkaOn })
  else
    match d.lookupPeer pk with
    | some p => some (d, { peer := some p, dummy := false, created := false, pkaOn })
    | none =>
      match d.newPeer env pk with
      | .error _ => none
      | .ok (d, p) => some (d, { peer := some p, dummy := false, created := true, pkaOn })

theorem newPeer_eq (h : d.newPeer env pk = .ok (d', p)) :
    p = d.nextPeer ∧ d' =
      { d.allocPeer { Peer.zero with
          precomputedStaticStatic := env.scalarMult d.privateKey pk, remoteStatic := pk } with
        keyMap := d.keyMap ++ [(pk, d.nextPeer)] } := by
  unfold newPeer at h
  split_ifs at h
  cases h
  exact ⟨rfl, rfl⟩

theorem handlePublicKeyLine_iff {ipc' : IpcSetPeer} {value : Bytes} :
    d.handlePublicKeyLine env ipc value = (d', ipc', none) ↔
      ∃ pk, loadExactHex value = .ok pk ∧ d.selectPeer env pk ipc.pkaOn = some (d', ipc') := by
  unfold handlePublicKeyLine selectPeer dummyPeer
  cases loadExactHex value with
  | error err =>
    constructor
    · intro h
      cases h
    · rintro ⟨pk, hpk, -⟩
      cases hpk
  | ok pk =>
    simp only [Except.ok.injEq, exists_eq_left']
    split_ifs
    · simp
    · cases d.lookupPeer pk with
      | some p => simp
      | none =>
        cases d.newPeer env pk with
        | error err => simp
        | ok r => simp

def applyPeerSettings (d : Device B E) (ipc : IpcSetPeer) : List (PeerSetting E) → Device B E ×
    IpcSetPeer
  | [] => (d, ipc)
  | s :: ss =>
    let (d, ipc) := d.applyPeerSetting ipc (ipc.peer.getD 0) s
    d.applyPeerSettings ipc ss

/-- A block of lines: the value of its `public_key` line, and the lines of the peer. -/
structure Block where
  value : Bytes
  lines : List Bytes

def Block.toLines (b : Block) : List Bytes := uapiLine "public_key" b.value :: b.lines

structure PeerBlock (E : Type) where
  pk : Bytes
  settings : List (PeerSetting E)

def Block.parse (env : Env B E) (b : Block) : Option (PeerBlock E) := do
  let pk ← (loadExactHex b.value).toOption
  let settings ← b.lines.mapM (linePeerSetting env)
  return { pk, settings }

theorem cutByte_keyLine (value : Bytes) :
    cutByte (asciiByte '=') (uapiLine "public_key" value) = some (ascii "public_key", value) :=
  cutByte_append value (by decide)

theorem ipcSetLines_cons_key (tooLong : Bool) (value : Bytes) (lines : List Bytes) (b : Bool)
    (d : Device B E) (ipc : IpcSetPeer) :
    ipcSetLines env tooLong (uapiLine "public_key" value :: lines) b d ipc =
      match (d.handlePostConfig ipc).handlePublicKeyLine env ipc value with
      | (d, _, some err) => (d, some err)
      | (d, ipc, none) => ipcSetLines env tooLong lines false d ipc := by
  have hne : uapiLine "public_key" value ≠ [] := append_ne_nil_of_right_ne_nil _ (cons_ne_nil _ _)
  rw [ipcSetLines, setLine, if_neg hne, cutByte_keyLine]
  rcases hkey : (d.handlePostConfig ipc).handlePublicKeyLine env ipc value with ⟨d', ipc', _
    | err⟩ <;> simp [hkey]

theorem ipcSetLines_cons_peer {s : PeerSetting E} (hkey : ¬IsKeyLine line)
    (hs : linePeerSetting env line = some s) (hp : ipc.peer = some p) :
    ipcSetLines env tooLong (line :: lines) false d ipc =
      ipcSetLines env tooLong lines false (d.applyPeerSetting ipc p s).1
        (d.applyPeerSetting ipc p s).2 := by
  obtain ⟨⟨key, value⟩, hcut, hparse⟩ := bind_eq_some_iff.mp hs
  have hline : line ≠ [] := by
    rintro rfl
    cases hcut
  have hname : key ≠ ascii "public_key" := by
    rintro rfl
    exact hkey (by rw [IsKeyLine, hcut]; rfl)
  rw [ipcSetLines, setLine, if_neg hline, hcut]
  simp only [if_neg hname, Bool.false_eq_true, if_false, hp, handlePeerLine_of_setting hparse]

theorem peerSetting_of_ipcSetLines
    (hne : line ≠ []) (hkey : ¬IsKeyLine line) (hp : ipc.peer = some p)
    (h : (ipcSetLines env tooLong (line :: lines) false d ipc).2 = none) :
    ∃ s, linePeerSetting env line = some s := by
  rw [ipcSetLines, setLine, if_neg hne] at h
  cases hcut : cutByte (asciiByte '=') line with
  | none => rw [hcut] at h; cases h
  | some kv =>
    obtain ⟨key, value⟩ := kv
    have hname : key ≠ ascii "public_key" := by
      rintro rfl
      exact hkey (by rw [IsKeyLine, hcut]; rfl)
    simp only [hcut, if_neg hname, Bool.false_eq_true, if_false, hp] at h
    rcases hrun : d.handlePeerLine env ipc p key value with ⟨d', ipc', _ | err⟩
    · obtain ⟨s, hs, -⟩ := peerSetting_of_accepted hrun
      exact ⟨s, by rw [linePeerSetting, hcut]; exact hs⟩
    · rw [hrun] at h
      cases h

theorem ipcSetLines_settings_peer (hkey : ∀ line ∈ lines, ¬IsKeyLine line)
    {ss : List (PeerSetting E)} (hss : lines.mapM (linePeerSetting env) = some ss)
    (hp : ipc.peer = some p) : ipcSetLines env tooLong (lines ++ rest) false d ipc =
      ipcSetLines env tooLong rest false (d.applyPeerSettings ipc ss).1
        (d.applyPeerSettings ipc ss).2 := by
  induction lines generalizing ss d ipc p with
  | nil =>
    cases hss
    rfl
  | cons line lines ih =>
    obtain ⟨hline, hrest⟩ := forall_mem_cons.mp hkey
    obtain ⟨s, ss', hs, hss', rfl⟩ := exists_of_mapM_cons hss
    obtain ⟨q, hq⟩ := applyPeerSetting_peer hp s (d := d)
    rw [cons_append, ipcSetLines_cons_peer hline hs hp, ih hrest hss' hq, applyPeerSettings, hp]
    rfl

theorem settings_of_ipcSetLines (hne : ∀ line ∈ lines, line ≠ [])
    (hkey : ∀ line ∈ lines, ¬IsKeyLine line) (hp : ipc.peer = some p)
    (h : (ipcSetLines env tooLong (lines ++ rest) false d ipc).2 = none) :
    ∃ ss, lines.mapM (linePeerSetting env) = some ss := by
  induction lines generalizing d ipc p with
  | nil => exact ⟨[], rfl⟩
  | cons line lines ih =>
    obtain ⟨hline, hne'⟩ := forall_mem_cons.mp hne
    obtain ⟨hlineKey, hkey'⟩ := forall_mem_cons.mp hkey
    obtain ⟨s, hs⟩ := peerSetting_of_ipcSetLines hline hlineKey hp h
    obtain ⟨q, hq⟩ := applyPeerSetting_peer hp s (d := d)
    rw [cons_append, ipcSetLines_cons_peer hlineKey hs hp] at h
    obtain ⟨ss, hss⟩ := ih hne' hkey' hq h
    refine ⟨s :: ss, ?_⟩
    rw [mapM_cons, hs, hss]
    rfl

theorem selectPeer_cases (h : d.selectPeer env pk pkaOn = some (d', ipc)) :
    (d.publicKey = pk ∧ d' = d.allocPeer Peer.zero ∧
        ipc = { peer := some d.nextPeer, dummy := true, created := false, pkaOn }) ∨
      (d.publicKey ≠ pk ∧ ∃ p, d.lookupPeer pk = some p ∧ d' = d ∧
        ipc = { peer := some p, dummy := false, created := false, pkaOn }) ∨
      (d.publicKey ≠ pk ∧ d.lookupPeer pk = none ∧ d.newPeer env pk = .ok (d', d.nextPeer) ∧
        ipc = { peer := some d.nextPeer, dummy := false, created := true, pkaOn }) := by
  unfold selectPeer at h
  split_ifs at h with hown
  · cases h
    exact Or.inl ⟨hown, rfl, rfl⟩
  · cases hlook : d.lookupPeer pk with
    | some p =>
      rw [hlook] at h
      cases h
      exact Or.inr (Or.inl ⟨hown, p, rfl, rfl, rfl⟩)
    | none =>
      rw [hlook] at h
      rcases hnew : d.newPeer env pk with err | ⟨d₁, p⟩
      · rw [hnew] at h
        cases h
      · rw [hnew] at h
        cases h
        obtain ⟨rfl, -⟩ := newPeer_eq hnew
        exact Or.inr (Or.inr ⟨hown, rfl, rfl, rfl⟩)

theorem selectPeer_peer
    (h : d.selectPeer env pk pkaOn = some (d', ipc)) : ∃ p, ipc.peer = some p := by
  rcases selectPeer_cases h with ⟨-, -, rfl⟩ | ⟨-, p, -, -, rfl⟩ | ⟨-, -, -, rfl⟩ <;> exact ⟨_, rfl⟩

/-- A request that has no blank line and ends at a line that does not fit is refused. -/
theorem ipcSetLines_tooLong (hblank : [] ∉ lines) {b : Bool}
    (hpeer : b = false → ∃ p, ipc.peer = some p) :
    (ipcSetLines env true lines b d ipc).2 ≠ none := by
  -- a peer is selected from the first key line on, so no line finds none
  induction lines generalizing b d ipc with
  | nil =>
    rw [ipcSetLines]
    rcases d.finishSet ipc with ⟨d', _ | err⟩ <;> exact some_ne_none _
  | cons line lines ih =>
    rw [mem_cons, not_or] at hblank
    rw [ipcSetLines, setLine, if_neg (Ne.symm hblank.1)]
    cases cutByte (asciiByte '=') line with
    | none => exact some_ne_none _
    | some kv =>
      dsimp only
      split_ifs with hkey hdevice
      · rcases hrun : (d.handlePostConfig ipc).handlePublicKeyLine env ipc kv.2 with
          ⟨d', ipc', _ | err⟩
        · obtain ⟨pk, -, hselect⟩ := handlePublicKeyLine_iff.mp hrun
          exact ih hblank.2 fun _ => selectPeer_peer hselect
        · exact some_ne_none _
      · rcases d.handleDeviceLine env kv.1 kv.2 with ⟨d', _ | err⟩
        · exact ih hblank.2 fun htrue => absurd htrue (by decide)
        · exact some_ne_none _
      · obtain ⟨p, hp⟩ := hpeer (Bool.eq_false_iff.mpr hdevice)
        rw [hp]
        dsimp only
        rcases hrun : d.handlePeerLine env ipc p kv.1 kv.2 with ⟨d', ipc', _ | err⟩
        · obtain ⟨s, -, happly⟩ := peerSetting_of_accepted hrun
          have hpeer' := applyPeerSetting_peer hp s (d := d)
          rw [happly] at hpeer'
          exact ih hblank.2 fun _ => hpeer'
        · exact some_ne_none _

/-! ## §4 Runs of blocks -/

/-- What blocks do one after the other.  In one request (`shared`), `pkaOn` is that of the block
before until a line sets it. -/
def runBlocks (env : Env B E) (shared : Bool) : Bool → Device B E → List (PeerBlock E) →
    Option (Device B E)
  | _, d, [] => some d
  | pkaOn, d, b :: rest => do
    let (d, ipc) ← d.selectPeer env b.pk pkaOn
    let (d, ipc) := d.applyPeerSettings ipc b.settings
    runBlocks env shared (shared && ipc.pkaOn) (d.handlePostConfig ipc) rest

theorem runBlocks_obfuscation {shared : Bool} {blocks : List (PeerBlock E)}
    (h : runBlocks env shared pkaOn d blocks = some d') : d'.obfuscation = d.obfuscation := by
  have happly : ∀ (ss : List (PeerSetting E)) (d : Device B E) (ipc : IpcSetPeer),
      (d.applyPeerSettings ipc ss).1.obfuscation = d.obfuscation := by
    intro ss
    induction ss with
    | nil => exact fun _ _ => rfl
    | cons s ss ih => exact fun d ipc => (ih _ _).trans (applyPeerSetting_obfuscation d ipc _ s)
  induction blocks generalizing pkaOn d with
  | nil =>
    cases h
    rfl
  | cons b rest ih =>
    obtain ⟨⟨d₁, ipc⟩, hselect, hrest⟩ := bind_eq_some_iff.mp h
    have hd₁ : d₁.obfuscation = d.obfuscation := by
      rcases selectPeer_cases hselect with ⟨-, rfl, -⟩ | ⟨-, p, -, rfl, -⟩ | ⟨-, -, hnew, -⟩
      · rfl
      · rfl
      · exact newPeer_obfuscation hnew
    rw [ih hrest, handlePostConfig_obfuscation, happly, hd₁]

theorem runBlocks_separate (d : Device B E) (b : PeerBlock E) (rest : List (PeerBlock E)) :
    runBlocks env false false d (b :: rest) =
      (runBlocks env false false d [b]).bind fun d' => runBlocks env false false d' rest := by
  rw [runBlocks, runBlocks]
  cases d.selectPeer env b.pk false <;> rfl

/-- **The blocks of a request that is accepted** have been parsed and run. -/
theorem ipcSetLines_blocks {blocks : List Block} (hne : ∀ b ∈ blocks, ∀ line ∈ b.lines, line ≠ [])
    (hkey : ∀ b ∈ blocks, ∀ line ∈ b.lines, ¬IsKeyLine line) {deviceConfig : Bool}
    (h : ipcSetLines env false (blocks.flatMap Block.toLines) deviceConfig d ipc = (d', none)) :
    ∃ parsed, blocks.mapM (Block.parse env) = some parsed ∧
      runBlocks env true ipc.pkaOn (d.handlePostConfig ipc) parsed = some d' := by
  -- on the blocks; the work behind a peer is done at the next key line
  induction blocks generalizing deviceConfig d ipc with
  | nil =>
    refine ⟨[], rfl, ?_⟩
    rw [flatMap_nil, ipcSetLines_nil] at h
    rcases finishSet_cases d ipc with ⟨err, hfin⟩ | hfin
    · rw [hfin] at h
      cases h
    · rw [hfin] at h
      rw [runBlocks, (Prod.mk.inj h).1]
  | cons b blocks ih =>
    obtain ⟨hline, hne'⟩ := forall_mem_cons.mp hne
    obtain ⟨hlineKey, hkey'⟩ := forall_mem_cons.mp hkey
    rw [flatMap_cons, Block.toLines, cons_append, ipcSetLines_cons_key] at h
    rcases hrun : (d.handlePostConfig ipc).handlePublicKeyLine env ipc b.value with
      ⟨d₁, ipc₁, _ | err⟩
    · rw [hrun] at h
      dsimp only at h
      obtain ⟨pk, hpk, hselect⟩ := handlePublicKeyLine_iff.mp hrun
      obtain ⟨p, hp⟩ := selectPeer_peer hselect
      -- lines that are accepted are settings, and the peer stays selected
      obtain ⟨ss, hss⟩ := settings_of_ipcSetLines hline hlineKey hp (congrArg Prod.snd h)
      rw [ipcSetLines_settings_peer hlineKey hss hp] at h
      obtain ⟨parsed, hparsed, hblocks⟩ := ih hne' hkey' h
      refine ⟨{ pk, settings := ss } :: parsed, ?_, ?_⟩
      · have hparse : b.parse env = some { pk, settings := ss } := by
          rw [Block.parse, hpk, hss]
          rfl
        rw [mapM_cons, hparse, hparsed]
        rfl
      · rw [runBlocks, hselect]
        exact hblocks
    · rw [hrun] at h
      cases h

/-- A block as a request of its own. -/
theorem ipcSet_block {b : Block} {parsed : PeerBlock E} (hkey : ∀ line ∈ b.lines, ¬IsKeyLine line)
    (hparse : b.parse env = some parsed) (htext : IsRequest text b.toLines)
    (hrun : runBlocks env false false d [parsed] = some d') (hheaders : d.headers.Disjoint) :
    d.ipcSet env text = (d', none) := by
  rw [← headers_of_obfuscation (runBlocks_obfuscation hrun)] at hheaders
  obtain ⟨pk, hpk, hparse⟩ := bind_eq_some_iff.mp hparse
  obtain ⟨ss, hss, hparsed⟩ := bind_eq_some_iff.mp hparse
  cases hparsed
  cases hload : loadExactHex b.value with
  | error err => rw [hload] at hpk; cases hpk
  | ok pk' =>
    rw [hload] at hpk
    cases hpk
    obtain ⟨⟨d₁, ipc₁⟩, hselect, hrun⟩ := bind_eq_some_iff.mp hrun
    obtain ⟨p, hp⟩ := selectPeer_peer hselect
    dsimp only at hrun
    cases hrun
    have hkeyLine : d.handlePublicKeyLine env IpcSetPeer.new b.value = (d₁, ipc₁, none) :=
      handlePublicKeyLine_iff.mpr ⟨pk, hload, hselect⟩
    rw [ipcSet_of_isRequest htext, Block.toLines, ipcSetLines_cons_key]
    show (match d.handlePublicKeyLine env IpcSetPeer.new b.value with
      | (d, _, some err) => (d, some err)
      | (d, ipc, none) => ipcSetLines env false b.lines false d ipc) = _
    rw [hkeyLine]
    have hlines : ipcSetLines env false (b.lines ++ []) false d₁ ipc₁ =
      ipcSetLines env false [] false
        (d₁.applyPeerSettings ipc₁ ss).1 (d₁.applyPeerSettings ipc₁ ss).2 :=
      ipcSetLines_settings_peer hkey hss hp
    rw [append_nil] at hlines
    show ipcSetLines env false b.lines false d₁ ipc₁ = _
    rw [hlines, ipcSetLines_nil, finishSet, mergeWithDevice_new]
    -- settings of peers leave the headers alone, so the final merge passes
    have hdisjoint : anyOverlap (d₁.applyPeerSettings ipc₁ ss).1.headers.toList = false := by
      rw [Headers.anyOverlap_eq_false_iff]
      rwa [headers_of_obfuscation (handlePostConfig_obfuscation _ _)] at hheaders
    rw [hdisjoint]
    rfl

end Device

end AmneziaWG.Device
