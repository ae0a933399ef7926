import AmneziaWG.Device.Uapi.Settings

/-!
# Header Ranges under Configuration Requests

`handleDeviceLine` writes `h1` to `h4` into the device at once; `mergeWithDevice` compares
what is then in force and has nothing of its own to merge.  So the ranges after a request
are those before it, overlaid with every header line that the request handled before it
ended or was refused (`ipcSet_headers`), and a refusal takes nothing back.

## Main results

- `headers_disjoint_iff`: over whole runs, the ranges stay disjoint exactly when every
  request keeps them disjoint with the header lines that it handles.
- `refused_request_keeps_overlap`: a request that is refused for overlapping headers and
  leaves them in force.
-/

set_option linter.dupNamespace false

namespace AmneziaWG.Device

open AmneziaWG.Lib List Option

/-! ## §1 Header lines -/

/-- Ranges overlaid with settings, the last setting of a slot winning. -/
def Headers.overlay (hs : Headers) (settings : List (HeaderSlot × MagicHeader)) : Headers :=
  settings.foldl (fun hs (slot, h) => hs.set slot h) hs

/-- The setting of a device line, when it is one of `h1` to `h4` with a well-formed range. -/
def headerSetting (key value : Bytes) : List (HeaderSlot × MagicHeader) :=
  match deviceKey key with
  | some (.header slot) =>
    match newMagicHeader value with
    | .ok header => [(slot, header)]
    | .error _ => []
  | _ => []

namespace Device

variable {B E : Type}

/-- The header settings of the device lines that a request handles: those before its blank
line, its first `public_key` line, and the first line that is refused. -/
def handledHeaders (env : Env B E) : List Bytes → Device B E → List (HeaderSlot × MagicHeader)
  | [], _ => []
  | line :: lines, d =>
    if line = [] then []
    else match cutByte (asciiByte '=') line with
      | none => []
      | some (key, value) =>
        if key = ascii "public_key" then []
        else match d.handleDeviceLine env key value with
          | (_, some _) => []
          | (d, none) => headerSetting key value ++ handledHeaders env lines d

/-! ## §2 What the handlers leave alone -/

structure Obfuscation where
  junk : Junk
  headers : Headers
  paddings : Paddings
  ipackets : Fin 5 → Option ObfChain
  imitate : ImitateProto

def obfuscation (d : Device B E) : Obfuscation :=
  { junk := d.junk, headers := d.headers, paddings := d.paddings, ipackets := d.ipackets,
    imitate := d.imitate }

theorem peerRel_obfuscation : PeerRel fun d d' : Device B E => d'.obfuscation = d.obfuscation where
  refl _ := rfl
  trans h h' := h'.trans h
  net _ _ := rfl
  clearSrc _ _ := rfl
  stop _ _ := rfl
  secret _ _ _ := rfl
  allowedips _ _ := rfl
  keyMap _ _ := rfl
  keys _ _ _ := rfl

@[simp] theorem handlePostConfig_obfuscation (d : Device B E) (ipc : IpcSetPeer) :
    (d.handlePostConfig ipc).obfuscation = d.obfuscation :=
  handlePostConfig_rel (R := fun d d' => d'.obfuscation = d.obfuscation) (fun _ => rfl)
    (fun h h' => h'.trans h)
    (fun _ _ _ _ _ => rfl) (fun _ _ => rfl) d

variable {env : Env B E} {d d' : Device B E} {ipc ipc' : IpcSetPeer} {value : Bytes}
  {lines : List Bytes}

theorem newPeer_obfuscation {pk : Bytes} {p : ℕ}
    (h : d.newPeer env pk = .ok (d', p)) : d'.obfuscation = d.obfuscation := by
  unfold newPeer at h
  split_ifs at h
  cases h
  rfl

theorem handlePublicKeyLine_obfuscation
    (h : d.handlePublicKeyLine env ipc value = (d', ipc', none)) :
    d'.obfuscation = d.obfuscation := by
  obtain ⟨pk, -, ⟨-, rfl, -⟩ | ⟨-, p, -, rfl, -⟩ | ⟨-, -, p, hnew, -⟩⟩ :=
    handlePublicKeyLine_accepted h
  · rfl
  · rfl
  · exact newPeer_obfuscation hnew

@[simp] theorem applyPeerSetting_obfuscation (d : Device B E) (ipc : IpcSetPeer) (p : ℕ)
    (s : PeerSetting E) :
    (d.applyPeerSetting ipc p s).1.obfuscation = d.obfuscation := by
  rcases hs : d.applyPeerSetting ipc p s with ⟨d', ipc'⟩
  cases applyPeerSetting_change hs with
  | remove => exact peerRel_obfuscation.removePeer d _
  | _ => rfl

/-- The obfuscation parameters with a setting applied. -/
def Obfuscation.set (o : Obfuscation) : Setting → Obfuscation
  | .jc n => { o with junk := { o.junk with count := n } }
  | .jmin n => { o with junk := { o.junk with min := n } }
  | .jmax n => { o with junk := { o.junk with max := n } }
  | .padding slot n => { o with paddings := o.paddings.set slot n }
  | .imitateProtocol proto => { o with imitate := proto }
  | .header slot h => { o with headers := o.headers.set slot h }
  | .ipacket i chain => { o with ipackets := Function.update o.ipackets i (some chain) }
  | _ => o

theorem applySetting_obfuscation (env : Env B E) (d : Device B E) (s : Setting) :
    (d.applySetting env s).1.obfuscation = d.obfuscation.set s := by
  cases s
  case privateKey sk => exact peerRel_obfuscation.setPrivateKey env d sk
  case listenPort port => exact peerRel_obfuscation.bindUpdate env _
  case fwmark mark => exact peerRel_obfuscation.bindSetMark env d mark
  case replacePeers => exact peerRel_obfuscation.removeAllPeers d
  case jc | jmin | jmax | padding | imitateProtocol | header | ipacket => rfl

/-! ## §3 The headers after a request -/

theorem headers_of_obfuscation (h : d'.obfuscation = d.obfuscation) : d'.headers = d.headers :=
  congrArg Obfuscation.headers h

theorem headerSetting_eq (key value : Bytes) :
    headerSetting key value =
      match parseSetting key value with
      | some (.header slot h) => [(slot, h)]
      | _ => [] := by
  unfold headerSetting parseSetting
  cases deviceKey key with
  | none => rfl
  | some k =>
    cases k <;> simp only [bind_some, readSetting]
    case header slot => cases newMagicHeader value <;> rfl
    case privateKey => cases fromMaybeZeroHex value <;> rfl
    case listenPort => cases parseUint value 16 <;> rfl
    case fwmark => cases parseUint value 32 <;> rfl
    case replacePeers => split_ifs <;> rfl
    case jc | jmin | jmax => cases readInt (0 < ·) value <;> rfl
    case padding => cases readInt (0 ≤ ·) value <;> rfl
    case imitateProtocol => cases parseImitateProto value <;> rfl
    case ipacket => cases newObfChain value <;> rfl

/-- A device line changes the headers when it is a header line, and then at once. -/
theorem handleDeviceLine_headers (env : Env B E) (d : Device B E) (key value : Bytes) :
    (d.handleDeviceLine env key value).1.headers = d.headers.overlay (headerSetting key value) := by
  have hanswers := (handleDeviceLine_answers env d key value).1
  rw [headerSetting_eq]
  cases hs : parseSetting key value with
  | none =>
    rw [hs] at hanswers
    obtain ⟨err, hr⟩ := hanswers
    rw [hr]
    rfl
  | some s =>
    rw [hs] at hanswers
    obtain ⟨err, hr⟩ := hanswers
    have hheaders : (d.applySetting env s).1.headers = (d.obfuscation.set s).headers :=
      congrArg Obfuscation.headers (applySetting_obfuscation env d s)
    rw [hr]
    show (d.applySetting env s).1.headers = _
    rw [hheaders]
    cases s <;> rfl

theorem headerSetting_of_refused {key : Bytes}
    {err : IPCError} (h : (d.handleDeviceLine env key value).2 = some err) :
    headerSetting key value = [] := by
  have hanswers := (handleDeviceLine_answers env d key value).1
  rw [headerSetting_eq]
  split
  · next slot header hs =>
    rw [hs] at hanswers
    obtain ⟨err', hr⟩ := hanswers
    rw [hr] at h
    cases h
  · rfl

section

variable (d : Device B E) (ipc : IpcSetPeer)

theorem mergeWithDevice_new :
    mergeWithDevice IpcSetDevice.new d = if anyOverlap d.headers.toList then none else some d := rfl

theorem finishSet_obfuscation : (d.finishSet ipc).1.obfuscation = d.obfuscation := by
  rw [finishSet, mergeWithDevice_new]
  split_ifs
  · rfl
  · exact handlePostConfig_obfuscation d ipc

theorem finishSet_headers : (d.finishSet ipc).1.headers = d.headers :=
  headers_of_obfuscation (finishSet_obfuscation d ipc)

/-- The final merge refuses an overlap, and nothing else does. -/
theorem finishSet_disjoint :
    (OverlapError (d.finishSet ipc).2 → ¬(d.finishSet ipc).1.headers.Disjoint) ∧
      ((d.finishSet ipc).2 = none → (d.finishSet ipc).1.headers.Disjoint) := by
  rw [finishSet_headers, ← Headers.anyOverlap_eq_false_iff, finishSet, mergeWithDevice_new]
  cases anyOverlap d.headers.toList <;> simp

end

theorem handlePublicKeyLine_peer (h : d.handlePublicKeyLine env ipc value = (d', ipc', none)) :
    ipc'.peer ≠ none := by
  obtain ⟨pk, -, ⟨-, -, rfl⟩ | ⟨-, p, -, -, rfl⟩ | ⟨-, -, p, -, rfl⟩⟩ :=
    handlePublicKeyLine_accepted h
  · exact some_ne_none _
  · exact some_ne_none _
  · exact some_ne_none _

theorem ipcSetLines_nil (d : Device B E) (b : Bool) (ipc : IpcSetPeer) :
    ipcSetLines env false [] b d ipc = d.finishSet ipc := by
  rw [ipcSetLines]
  rcases d.finishSet ipc with ⟨d', _ | err⟩ <;> rfl

/-- **The rule for requests**: `Inv` is kept by every setting of the lines, by every public key and
by the work behind a peer; then the device that a request leaves behind, accepted or not, has what
follows from `Inv`.  An overlap is reported when there is one, and only then.  Nothing is asked of
lines behind the blank line. -/
theorem ipcSetLines_rule (L : Bytes → Prop) (Inv : Bool → Device B E → IpcSetPeer → Prop)
    (Q : Device B E → Option IPCError → Prop)
    (hresult : ∀ b d ipc err, Inv b d ipc → (OverlapError err → ¬d.headers.Disjoint) →
      (err = none → d.headers.Disjoint) → Q d err)
    (hsetting : ∀ d ipc line s, L line → lineSetting line = some s → Inv true d ipc →
      Inv true (d.applySetting env s).1 ipc)
    (hpost : ∀ b d ipc, Inv b d ipc → Inv b (d.handlePostConfig ipc) ipc)
    (hkey : ∀ b d ipc value d' ipc', Inv b d ipc →
      d.handlePublicKeyLine env ipc value = (d', ipc', none) → Inv false d' ipc')
    (hpeer : ∀ d ipc p line s, L line → linePeerSetting env line = some s → ipc.peer = some p →
      Inv false d ipc → Inv false (d.applyPeerSetting ipc p s).1 (d.applyPeerSetting ipc p s).2)
    (tooLong : Bool) (hlines : ∀ line ∈ requestLines lines, L line) {b : Bool}
    (hselected : b = false → ipc.peer ≠ none) (h : Inv b d ipc) :
    Q (ipcSetLines env tooLong lines b d ipc).1 (ipcSetLines env tooLong lines b d ipc).2 := by
  -- the end of the request, at a blank line or without one
  have hend : ∀ (tooLong : Bool) {b : Bool} {d : Device B E} {ipc : IpcSetPeer}, Inv b d ipc →
      Q (ipcSetLines env tooLong [] b d ipc).1 (ipcSetLines env tooLong [] b d ipc).2 := by
    intro tooLong b d ipc h
    have hdisjoint := finishSet_disjoint d ipc
    rw [ipcSetLines]
    rcases finishSet_cases d ipc with ⟨err, hfin⟩ | hfin <;> rw [hfin] at hdisjoint ⊢
    · exact hresult b d ipc _ h hdisjoint.1 hdisjoint.2
    · exact hresult b _ ipc _ (hpost b d ipc h) (by cases tooLong <;> simp) fun _ => hdisjoint.2 rfl
  have hrefused : ∀ {b d ipc err}, Inv b d ipc → ¬OverlapError (some err) → Q d (some err) :=
    fun h hno => hresult _ _ _ _ h (fun hoverlap => absurd hoverlap hno) fun hnone => by cases hnone
  -- on the lines: blank, without a separator, a key line, of the device or of a peer
  induction lines generalizing b d ipc with
  | nil => exact hend tooLong h
  | cons line lines ih =>
    rw [ipcSetLines, setLine]
    by_cases hline : line = []
    · rw [if_pos hline]
      have hblank := hend false h
      rwa [ipcSetLines_nil] at hblank
    rw [if_neg hline]
    rw [requestLines, takeWhile_cons_of_pos (by simpa using hline)] at hlines
    obtain ⟨hL, hrest⟩ := forall_mem_cons.mp hlines
    cases hcut : cutByte (asciiByte '=') line with
    | none => exact hrefused h (by simp)
    | some kv =>
      obtain ⟨key, value⟩ := kv
      dsimp only
      by_cases hpk : key = ascii "public_key"
      · rw [if_pos hpk]
        have hd := hpost b d ipc h
        rcases hrun : (d.handlePostConfig ipc).handlePublicKeyLine env ipc value with
          ⟨d', ipc', _ | err⟩
        · exact ih hrest (fun _ => handlePublicKeyLine_peer hrun)
            (hkey b _ ipc value d' ipc' hd hrun)
        · obtain ⟨rfl, hno⟩ := handlePublicKeyLine_refused hrun
          exact hrefused hd hno
      rw [if_neg hpk]
      cases b with
      | true =>
        rw [if_pos rfl]
        -- refused or not, the device is as before or as the setting leaves it
        have hd : Inv true (d.handleDeviceLine env key value).1 ipc := by
          rcases handleDeviceLine_device env d key value with hsame | ⟨s, hs, happly⟩
          · rw [hsame]
            exact h
          · rw [happly]
            exact hsetting d ipc line s hL (by rw [lineSetting, hcut]; exact hs) h
        have hno := (handleDeviceLine_answers env d key value).2
        rcases hrun : d.handleDeviceLine env key value with ⟨d', _ | err⟩ <;> rw [hrun] at hd hno
        · exact ih hrest (fun hfalse => by cases hfalse) hd
        · exact hrefused hd hno
      | false =>
        rw [if_neg Bool.false_ne_true]
        -- behind a key line there is a peer, so a peer line does not panic
        obtain ⟨p, hp⟩ := ne_none_iff_exists'.mp (hselected rfl)
        rw [hp]
        dsimp only
        rcases hrun : d.handlePeerLine env ipc p key value with ⟨d', ipc', _ | err⟩
        · obtain ⟨s, hs, happly⟩ := peerSetting_of_accepted hrun
          have hd := hpeer d ipc p line s hL (by rw [linePeerSetting, hcut]; exact hs) hp h
          obtain ⟨q, hq⟩ := applyPeerSetting_peer hp s (d := d)
          rw [happly] at hd hq
          exact ih hrest (fun _ => by rw [hq]; exact some_ne_none q) hd
        · obtain ⟨rfl, hno⟩ := handlePeerLine_refused hrun
          exact hrefused h hno

theorem ipcSetLines_obfuscation_peer (tooLong : Bool) (hpeer : ipc.peer ≠ none) :
    (ipcSetLines env tooLong lines false d ipc).1.obfuscation = d.obfuscation := by
  refine ipcSetLines_rule (fun _ => True) (fun b d' _ => b = false ∧ d'.obfuscation = d.obfuscation)
    (fun d' _ => d'.obfuscation = d.obfuscation) ?_ ?_ ?_ ?_ ?_ tooLong (fun _ _ => trivial)
      (fun _ => hpeer)
    ⟨rfl, rfl⟩
  · rintro b d' ipc' err ⟨-, hd⟩ - -
    exact hd
  · rintro d' ipc' line s - - ⟨hfalse, -⟩
    cases hfalse
  · rintro b d' ipc' ⟨hb, hd⟩
    exact ⟨hb, (handlePostConfig_obfuscation d' ipc').trans hd⟩
  · rintro b d' ipc' value d'' ipc'' ⟨-, hd⟩ hkey
    exact ⟨rfl, (handlePublicKeyLine_obfuscation hkey).trans hd⟩
  · rintro d' ipc' p line s - - - ⟨-, hd⟩
    exact ⟨rfl, (applyPeerSetting_obfuscation d' ipc' p s).trans hd⟩

/-- Only settings of the device touch the obfuscation parameters: what the setting of every line
keeps, a request keeps, whether it is accepted or not. -/
theorem ipcSetLines_invariant {L : Bytes → Prop} {P : Obfuscation → Prop}
    (hset : ∀ o line s, L line → lineSetting line = some s → P o → P (o.set s)) (tooLong : Bool)
    (hlines : ∀ line ∈ requestLines lines, L line) (ipc : IpcSetPeer)
    (hd : P d.obfuscation) : P (ipcSetLines env tooLong lines true d ipc).1.obfuscation := by
  refine ipcSetLines_rule L (fun _ d' _ => P d'.obfuscation) (fun d' _ => P d'.obfuscation)
    (fun _ _ _ _ h _ _ => h) ?_ ?_ ?_ ?_ tooLong hlines (fun hfalse => by cases hfalse) hd
  · intro d' ipc' line s hL hs hd'
    rw [applySetting_obfuscation]
    exact hset _ line s hL hs hd'
  · intro b d' ipc' hd'
    rwa [handlePostConfig_obfuscation]
  · intro b d' ipc' value d'' ipc'' hd' hkey
    rwa [handlePublicKeyLine_obfuscation hkey]
  · intro d' ipc' p line s _ _ _ hd'
    rwa [applyPeerSetting_obfuscation]

theorem ipcSet_invariant (env : Env B E) {P : Obfuscation → Prop}
    (hset : ∀ o s, Setting.Valid s → P o → P (o.set s)) (uapiConf : Bytes)
    (hd : P d.obfuscation) : P (d.ipcSet env uapiConf).1.obfuscation := by
  refine ipcSetLines_invariant (L := fun _ => True) ?_ _ (fun _ _ => trivial) _ hd
  intro o line s _ hs
  exact hset o s (valid_of_lineSetting hs)

theorem ipcSetLines_headers (env : Env B E) (tooLong : Bool) (lines : List Bytes)
    (d : Device B E) (ipc : IpcSetPeer) : (ipcSetLines env tooLong lines true d ipc).1.headers =
      d.headers.overlay (handledHeaders env lines d) := by
  induction lines generalizing d ipc with
  | nil =>
    have h := finishSet_headers d ipc
    rw [ipcSetLines]
    split <;> next heq => exact (congrArg (fun r => r.1.headers) heq).symm.trans h
  | cons line lines ih =>
    rw [ipcSetLines, setLine, handledHeaders]
    by_cases hline : line = []
    · rw [if_pos hline, if_pos hline]
      exact finishSet_headers d ipc
    rw [if_neg hline, if_neg hline]
    cases cutByte (asciiByte '=') line with
    | none => rfl
    | some kv =>
      obtain ⟨key, value⟩ := kv
      by_cases hkey : key = ascii "public_key"
      · -- from the first key line on, the headers stay
        have hpost := headers_of_obfuscation (handlePostConfig_obfuscation d ipc)
        simp only [if_pos hkey]
        rcases heq : (d.handlePostConfig ipc).handlePublicKeyLine env ipc value with
          ⟨d', ipc', _ | err⟩
        · dsimp only
          rw [headers_of_obfuscation
            (ipcSetLines_obfuscation_peer tooLong (handlePublicKeyLine_peer heq)),
            headers_of_obfuscation (handlePublicKeyLine_obfuscation heq)]
          exact hpost
        · dsimp only
          rw [(handlePublicKeyLine_refused heq).1]
          exact hpost
      · simp only [if_neg hkey, if_true]
        have h := handleDeviceLine_headers env d key value
        rcases heq : d.handleDeviceLine env key value with ⟨d', _ | err⟩
        · have h' : d'.headers = d.headers.overlay (headerSetting key value) := by
            rw [← h, heq]
          simp only [ih, h', Headers.overlay, foldl_append]
        · have hnone := headerSetting_of_refused (congrArg Prod.snd heq)
          rw [hnone, heq] at h
          exact h

/-- The headers after a request. -/
theorem ipcSet_headers (env : Env B E) (d : Device B E) (uapiConf : Bytes) :
    (d.ipcSet env uapiConf).1.headers =
      d.headers.overlay (handledHeaders env (scanLines uapiConf).1 d) :=
  ipcSetLines_headers env _ _ d _

/-! ## §4 Accepted requests -/

/-- A request that is refused for an overlap leaves the overlap in force, and one that is accepted
has passed the final merge. -/
theorem ipcSetLines_disjoint (tooLong : Bool) (ipc : IpcSetPeer) :
    (OverlapError (ipcSetLines env tooLong lines true d ipc).2 →
        ¬(ipcSetLines env tooLong lines true d ipc).1.headers.Disjoint) ∧
      ((ipcSetLines env tooLong lines true d ipc).2 = none →
        (ipcSetLines env tooLong lines true d ipc).1.headers.Disjoint) :=
  ipcSetLines_rule (fun _ => True) (fun _ _ _ => True)
    (fun d err => (OverlapError err → ¬d.headers.Disjoint) ∧ (err = none → d.headers.Disjoint))
    (fun _ _ _ _ _ hoverlap hnone => ⟨hoverlap, hnone⟩) (fun _ _ _ _ _ _ _ => trivial)
      (fun _ _ _ _ => trivial)
    (fun _ _ _ _ _ _ _ _ => trivial) (fun _ _ _ _ _ _ _ _ _ => trivial) tooLong (fun _ _ => trivial)
    (fun hfalse => by cases hfalse) trivial

theorem ipcSet_accepted {uapiConf : Bytes}
    (h : d.ipcSet env uapiConf = (d', none)) : d'.headers.Disjoint := by
  have hlines : (d.ipcSet env uapiConf).1.headers.Disjoint :=
    (ipcSetLines_disjoint _ _).2 (congrArg Prod.snd h)
  rw [h] at hlines
  exact hlines

/-! ## §5 Runs -/

def afterRequests (env : Env B E) (d : Device B E) (requests : List Bytes) : Device B E :=
  requests.foldl (fun d uapiConf => (d.ipcSet env uapiConf).1) d

theorem afterRequests_invariant (env : Env B E) {P : Obfuscation → Prop}
    (hset : ∀ o s, Setting.Valid s → P o → P (o.set s)) (requests : List Bytes)
    (hd : P d.obfuscation) : P (afterRequests env d requests).obfuscation := by
  induction requests generalizing d with
  | nil => exact hd
  | cons uapiConf requests ih => exact ih (ipcSet_invariant env hset uapiConf hd)

/-- The header lines that a request handles, laid over the ranges in force, give ranges
without a value in common. -/
def KeepsDisjoint (env : Env B E) (d : Device B E) (uapiConf : Bytes) : Prop :=
  (d.headers.overlay (handledHeaders env (scanLines uapiConf).1 d)).Disjoint

theorem afterRequests_take_succ (env : Env B E) (d : Device B E) (requests : List Bytes) {n : ℕ}
    (hn : n < requests.length) : afterRequests env d (requests.take (n + 1)) =
      ((afterRequests env d (requests.take n)).ipcSet env requests[n]).1 := by
  rw [afterRequests, take_succ_eq_append_getElem hn, foldl_append]
  rfl

/-- In every state of a run from `NewDevice` the four ranges are disjoint and not empty, and
requests that are refused for an overlap leave the headers as they were, exactly when every
request of the run keeps the ranges disjoint with the header lines that it handles. -/
theorem headers_disjoint_iff (env : Env B E) (bind : B) (requests : List Bytes) :
    (∀ n, n ≤ requests.length →
      let d := afterRequests env (newDevice bind) (requests.take n)
      (d.headers.Disjoint ∧ ∀ slot, (d.headers.get slot).start ≤ (d.headers.get slot).last) ∧
      ∀ uapiConf, requests[n]? = some uapiConf → OverlapError (d.ipcSet env uapiConf).2 →
        (d.ipcSet env uapiConf).1.headers = d.headers) ↔
    ∀ n uapiConf, requests[n]? = some uapiConf →
      KeepsDisjoint env (afterRequests env (newDevice bind) (requests.take n)) uapiConf := by
  have hstep : ∀ n uapiConf, requests[n]? = some uapiConf →
      (afterRequests env (newDevice bind) (requests.take (n + 1))).headers =
        (afterRequests env (newDevice bind) (requests.take n)).headers.overlay
          (handledHeaders env (scanLines uapiConf).1
            (afterRequests env (newDevice bind) (requests.take n))) := by
    intro n uapiConf hget
    obtain ⟨hn, rfl⟩ := List.getElem?_eq_some_iff.mp hget
    rw [afterRequests_take_succ env _ requests hn, ipcSet_headers]
  constructor
  · intro hall n uapiConf hget
    obtain ⟨hn, -⟩ := List.getElem?_eq_some_iff.mp hget
    have hdisj := (hall (n + 1) hn).1.1
    rw [hstep n uapiConf hget] at hdisj
    exact hdisj
  · intro hkeeps
    -- the ranges after `n` requests, by induction on `n`
    have hdisj : ∀ n, n ≤ requests.length →
        (afterRequests env (newDevice bind) (requests.take n)).headers.Disjoint := by
      intro n hn
      cases n with
      | zero => exact Headers.default_disjoint
      | succ n =>
        have hget : requests[n]? = some (requests[n]) := getElem?_eq_getElem hn
        rw [hstep n _ hget]
        exact hkeeps n _ hget
    intro n hn
    refine ⟨⟨hdisj n hn, fun slot => MagicHeader.start_le _⟩, ?_⟩
    intro uapiConf hget hoverlap
    have hafter := hkeeps n uapiConf hget
    rw [KeepsDisjoint, ← ipcSet_headers] at hafter
    exact absurd hafter ((ipcSetLines_disjoint _ _).1 hoverlap)

/-- A bind that is always ready, and keys that are never used. -/
def quietEnv : Env Unit Unit :=
  { bindClose := fun b => (b, true)
    bindOpen := fun b port => (b, some (1, port))
    bindSetMark := fun b _ => (b, true)
    startRouteListener := fun b => (b, true)
    parseEndpoint := fun _ => none
    parsePrefix := fun _ => none
    scalarBaseMult := id
    scalarMult := fun _ pk => pk }

/-- `h1=2` on a new device is refused because `2` is the header of responses, and is in
force from then on. -/
theorem refused_request_keeps_overlap :
    let d : Device Unit Unit := newDevice ()
    let r := d.ipcSet quietEnv (ascii "h1=2\n\n")
    r.2 = some (wrapError .invalid "failed to merge with device: %w" .headersOverlap) ∧
      r.1.headers ≠ d.headers ∧ r.1.headers.init = r.1.headers.response ∧
      ¬r.1.headers.Disjoint := by
  refine ⟨by decide, by decide, by decide, ?_⟩
  rw [← Headers.anyOverlap_eq_false_iff]
  decide

end Device

end AmneziaWG.Device
