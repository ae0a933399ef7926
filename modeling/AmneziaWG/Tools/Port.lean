import AmneziaWG.Device.Obf.Filler
import AmneziaWG.Tools.Reference

/-!
# The Go Writers are a Port of the Reference

Both sets of writers leave the same bytes.  The writers are compared stage by stage: loops
over indices with iterations over slices, saturating with clamped subtraction, and lines that
are formatted at once with lines that are formatted into the scratch buffer, which is never
too small.

## Main results

- `imitateFillPrefix_eq_applyPadding`: the two agree on every buffer.
-/

namespace AmneziaWG.Tools

open AmneziaWG.Lib AmneziaWG.Device List Option BitVec Nat

/-- The protocol of the reference, as the port names it. -/
def Reference.Protocol.imitate : Reference.Protocol → ImitateProto
  | .quic => .quic
  | .dns => .dns
  | .stun => .stun
  | .sip => .sip

/-! ## §1 Common parts -/

theorem fnv1aSeed_eq (payload : Bytes) :
    Reference.fnv1aSeed payload = Device.fnv1aSeed payload := by
  have htake : payload.take 64 =
      payload.take (if payload.length > 64 then 64 else payload.length) := by
    split_ifs with h
    · rfl
    · rw [take_length, take_of_length_le (not_lt.mp h)]
  rw [Reference.fnv1aSeed, Device.fnv1aSeed, htake]

theorem lcgStep_eq (state : BitVec 32) : Reference.lcgStep state = Device.lcgStep state := rfl

theorem quicByte_eq : Reference.quicByte = Device.quicByte := rfl

theorem stunSoftwareByte_eq : Reference.stunSoftwareByte = Device.stunSoftwareByte := rfl

variable {data : Bytes} {g : Device.SipState}

/-- Two writers that agree on every padding agree on the buffer. -/
theorem splitAtMut_eq {padSize : ℕ} {write : Bytes → Bytes → Option Bytes}
    {write' : Bytes → Option Bytes}
    (h : ∀ p : Bytes, p.length = padSize → write p (data.drop padSize) = write' p) :
    Reference.splitAtMut data padSize write = onPadding data padSize write' := by
  unfold Reference.splitAtMut onPadding
  split_ifs with hle
  · rw [h _ (by rw [length_take]; omega)]
  · rfl

/-! ## §2 QUIC -/

theorem applyQuicPaddingShort_eq (data : Bytes) (padSize : ℕ) :
    Reference.applyQuicPaddingShort data padSize =
      writeQUICShort data padSize (Device.fnv1aSeed (data.drop padSize)) := by
  apply splitAtMut_eq
  intro p hp
  rw [fnv1aSeed_eq, quicByte_eq]
  cases p with
  | nil => rfl
  | cons b rest =>
    rw [if_neg (by simp), if_neg (by simp)]
    simp only [lcgStep_eq, bind_eq_bind]
    apply Option.bind_congr
    intro p hwrite
    have hlen : p.length = rest.length + 1 := writeAt_length hwrite
    rw [writeLoop_eq_onRange _ _ (by omega), hlen, List.length_cons, Nat.add_sub_cancel, add_comm 1]

/-! ## §3 DNS -/

theorem saturatingSubU16_eq (a b : ℕ) :
    Reference.saturatingSubU16 a b = clampU16 ((a : ℤ) - (b : ℤ)) := by
  unfold Reference.saturatingSubU16 clampU16
  split_ifs with hneg hbig
  · rw [Nat.sub_eq_zero_of_le (by omega)]
    rfl
  · rw [Nat.min_eq_right (by omega)]
    rfl
  · have hcast : (a : ℤ) - (b : ℤ) = ((a - b : ℕ) : ℤ) := by omega
    rw [Nat.min_eq_left (by omega), hcast, BitVec.ofInt_natCast]

theorem writeDnsOptResponse_eq (padding : Bytes) (totalLen : ℕ) (txid : Byte × Byte)
    (question : Bytes) : Reference.writeDnsOptResponse padding totalLen txid question =
      writeDNSOptResponse padding totalLen txid question := by
  unfold Reference.writeDnsOptResponse writeDNSOptResponse
  simp only [saturatingSubU16_eq, bind_eq_bind]
  apply Option.bind_congr
  intro p₁ hwrite₁
  apply Option.bind_congr
  intro p₂ hwrite₂
  push_cast
  apply Option.bind_congr
  intro p₃ hwrite₃
  have hlen : p₃.length = padding.length :=
    (writeAt_length hwrite₃).trans ((writeAt_length hwrite₂).trans (writeAt_length hwrite₁))
  have hfits := writeAt_fits hwrite₃
  rw [← writeAt_length hwrite₃] at hfits
  exact (fillLoop_eq_onRange 0x00 hfits (by rw [hlen]; rfl)).symm

theorem applyDnsPaddingNull_eq (data : Bytes) (padSize : ℕ) :
    Reference.applyDnsPaddingNull data padSize =
      writeDNSNull data padSize (payloadTxid (data.drop padSize)) := by
  unfold Reference.applyDnsPaddingNull writeDNSNull
  apply splitAtMut_eq
  intro p hp
  by_cases hempty : p = []
  · subst hempty
    rfl
  have hlength : ¬p.length = 0 := fun h => hempty (length_eq_zero_iff.mp h)
  rw [if_neg (by simpa using hempty), if_neg hlength]
  simp only [saturatingSubU16_eq, bind_eq_bind]
  generalize (if padSize ≥ 28 then 28 else if padSize ≥ 17 then 17 else 12) = advertised
  have hcopy : min p.length advertised =
      if p.length < advertised then p.length else advertised := by
    split_ifs <;> omega
  rw [hcopy]
  apply Option.bind_congr
  intro p' hwrite
  have hlen := writeAt_length hwrite
  exact (fillLoop_eq_onRange 0x00 (by rw [hlen, ← hcopy]; exact min_le_left _ _)
    (by rw [hlen])).symm

theorem applyDnsPadding_eq {padSize : ℕ} (hle : padSize ≤ data.length) (seed : BitVec 32) :
    Reference.applyDnsPadding data padSize none = writeDNS data padSize seed := by
  have hslice : sliceFrom data (padSize : ℤ) = some (data.drop padSize) := by
    simp [sliceFrom, hle]
  unfold Reference.applyDnsPadding writeDNS
  by_cases hzero : padSize = 0
  · rw [if_pos hzero, if_pos hzero]
  rw [if_neg hzero, if_neg hzero, hslice]
  show (if padSize < dnsOptMin then _ else _) = writeDNSMsg data padSize (payloadTxid _)
  unfold writeDNSMsg
  split_ifs
  · exact applyDnsPaddingNull_eq data padSize
  · apply splitAtMut_eq
    intro p hp
    exact writeDnsOptResponse_eq p data.length _ dnsRootQuestion

/-! ## §4 STUN -/

theorem fillChunks_eq (seed : BitVec 32) : Reference.fillChunks seed 3 =
      (stunTxn seed, Device.lcgStep (Device.lcgStep (Device.lcgStep seed))) := by
  simp [Reference.fillChunks, lcgStep_eq, stunTxn]

theorem stunPutAddress_eq (p : Bytes) (body : ℕ) (state : BitVec 32) :
    Reference.stunPutAddress p body state = Device.stunPutAddress p body state := by
  unfold Reference.stunPutAddress Device.stunPutAddress
  dsimp only
  split_ifs
  · rw [putXorMappedAddress_eq, map_eq_bind]
    simp only [bind_eq_bind, lcgStep_eq]
    rw [writeAt_bind_writeAt _ _ _ (by rfl), writeAt_bind_writeAt _ _ _ (by rfl),
      writeAt_bind_writeAt _ _ _ (by rfl), writeAt_bind_writeAt _ _ _ (by rfl),
      writeAt_bind_writeAt _ _ _ (by rfl)]
    rfl
  · rfl

theorem stunPutSoftware_eq (p : Bytes) (body written : ℕ) (state : BitVec 32) :
    Reference.stunPutSoftware p body written state =
      Device.stunPutSoftware p body written state := by
  unfold Reference.stunPutSoftware Device.stunPutSoftware
  dsimp only
  split_ifs
  · have hvlen : min (body - written - 4) 124 = stunSoftwareLen (body - written) := by
      unfold stunSoftwareLen
      split_ifs <;> omega
    rw [hvlen, putSoftware, map_eq_bind, stunSoftwareByte_eq]
    simp only [bind_eq_bind, bind_assoc]
    apply Option.bind_congr
    intro p₁ hwrite₁
    apply Option.bind_congr
    intro p₂ hwrite₂
    have hfits : 20 + written + 4 ≤ p₂.length := by
      have h := writeAt_fits hwrite₂
      rw [← writeAt_length hwrite₂] at h
      exact h
    rw [writeLoop_eq_onRange _ _ hfits]
    rfl
  · rfl

theorem stunFinish_eq {p : Bytes} {written : ℕ} {txn : Bytes} (htxn : txn.length = 12) :
    Reference.stunFinish p written txn = Device.stunFinish p written txn := by
  unfold Reference.stunFinish Device.stunFinish
  dsimp only
  have hheader : (be16 0x0101 ++ be16 (BitVec.ofNat 16 written) ++ be32 Reference.stunCookie ++
      txn).length = 20 := by
    simp [htxn]
  have hcopy : min p.length 20 = if p.length > 20 then 20 else p.length := by
    split_ifs <;> omega
  rw [hheader, hcopy]
  apply Option.bind_congr
  intro p' hwrite
  have hlen := writeAt_length hwrite
  split_ifs with hfits
  · exact (fillLoop_eq_onRange 0x00 hfits (by rw [hlen])).symm
  · -- the header was cut, and the loop runs over nothing
    rw [← hlen, Nat.sub_eq_zero_of_le (by omega)]
    rfl

theorem applyStunPadding_eq (data : Bytes) (padSize : ℕ) : Reference.applyStunPadding data padSize =
      writeSTUN data padSize (Device.fnv1aSeed (data.drop padSize)) := by
  apply splitAtMut_eq
  intro p hp
  by_cases hempty : p = []
  · subst hempty
    rfl
  have hlength : ¬p.length = 0 := fun h => hempty (length_eq_zero_iff.mp h)
  rw [if_neg (by simpa using hempty), if_neg hlength, fnv1aSeed_eq, stunTransactionID_eq,
    fillChunks_eq]
  simp only [bind_eq_bind, bind_some, stunPutAddress_eq, stunPutSoftware_eq,
    stunFinish_eq (stunTxn_length _)]
  rfl

/-! ## §5 SIP -/

theorem writeAll_done (pieces : List Bytes) {done rest : Bytes}
    (hfit : pieces.flatten.length ≤ rest.length) :
    Reference.SliceWriter.writeAll ⟨done ++ rest, done.length⟩ pieces =
      (⟨(done ++ pieces.flatten) ++ rest.drop pieces.flatten.length,
        (done ++ pieces.flatten).length⟩, true) := by
  induction pieces generalizing done rest with
  | nil => simp [Reference.SliceWriter.writeAll]
  | cons s pieces ih =>
    rw [flatten_cons, length_append] at hfit
    have hstr : Reference.SliceWriter.writeStr ⟨done ++ rest, done.length⟩ s =
        some ⟨(done ++ s) ++ rest.drop s.length, (done ++ s).length⟩ := by
      have hstop : ¬done.length + s.length > (done ++ rest).length := by
        rw [length_append]
        omega
      unfold Reference.SliceWriter.writeStr
      dsimp only
      rw [if_neg hstop, writeAt_done rfl (by omega), length_append]
      rfl
    rw [Reference.SliceWriter.writeAll, hstr]
    dsimp only
    rw [ih (by rw [length_drop]; omega)]
    simp

/-- The reference and the port at the same point. -/
structure SameSip (r : Reference.SipState) (g : Device.SipState) : Prop where
  region : r.padding = g.p
  pos : r.pos = g.pos
  bound : g.pos ≤ g.p.length
  scratch : r.scratch.length = 128

/-- `SameSip`, and the same answer. -/
def SameAnswer (r : Reference.SipState × Bool) (g : Device.SipState × Bool) : Prop :=
  SameSip r.1 g.1 ∧ r.2 = g.2

theorem SameSip.putLine {r : Reference.SipState} (h : SameSip r g)
    {pieces : List Bytes} (hfit : pieces.flatten.length ≤ 128) :
    Option.Rel SameAnswer (r.putLine pieces) (g.putLine pieces.flatten) := by
  obtain ⟨padding, pos, scratch⟩ := r
  obtain ⟨p, pos'⟩ := g
  obtain ⟨rfl, rfl, hbound, hscratch⟩ := h
  -- the reference builds the line in a scratch buffer, which it fits
  have hall : Reference.SliceWriter.writeAll ⟨[] ++ scratch, ([] : Bytes).length⟩ pieces = _ :=
    writeAll_done pieces (le_trans hfit (le_of_eq hscratch.symm))
  simp only [nil_append, length_nil] at hall
  have htake : (pieces.flatten ++ scratch.drop pieces.flatten.length).take
      pieces.flatten.length = pieces.flatten := take_left
  have hlen : (pieces.flatten ++ scratch.drop pieces.flatten.length).length = 128 := by
    rw [length_append, length_drop, hscratch]
    omega
  unfold Reference.SipState.putLine Device.SipState.putLine
  dsimp only
  rw [hall]
  dsimp only
  rw [htake]
  by_cases hroom : pos + pieces.flatten.length + 2 ≤ padding.length
  · rw [if_pos ⟨rfl, hroom⟩, if_pos hroom]
    cases hwrite : writeAt padding pos pieces.flatten with
    | none => exact .none
    | some p' =>
      have hp' := writeAt_length hwrite
      exact .some ⟨⟨rfl, rfl, by dsimp only; omega, hlen⟩, rfl⟩
  · rw [if_neg (fun hc => hroom hc.2), if_neg hroom]
    exact .some ⟨⟨rfl, rfl, hbound, hlen⟩, rfl⟩

theorem SameSip.putLines {r : Reference.SipState} (h : SameSip r g)
    {lines : List (List Bytes)} (hfit : ∀ line ∈ lines, line.flatten.length ≤ 128) :
    Option.Rel SameAnswer (r.putLines lines) (g.putLines (lines.map List.flatten)) := by
  induction lines generalizing r g with
  | nil => exact .some ⟨h, rfl⟩
  | cons line lines ih =>
    refine rel_bind (h.putLine (hfit line (by simp))) ?_
    rintro ⟨r', ok⟩ ⟨g', ok'⟩ ⟨h', rfl⟩
    cases ok with
    | false => exact .some ⟨h', rfl⟩
    | true => exact ih h' fun line' hline' => hfit line' (mem_cons_of_mem _ hline')

theorem statusLine_fits : ∀ status ∈ Reference.sipStatus,
    [ascii "SIP/2.0 ", status, ascii "\r\n"].flatten.length ≤ 128 := by
  decide

theorem SameSip.putStatus {r : Reference.SipState} (h : SameSip r g) (statusIdx : ℕ) (ks : List ℕ) :
    Option.Rel SameAnswer (r.putStatus statusIdx ks) (g.putStatus statusIdx ks) := by
  induction ks generalizing r g with
  | nil => exact .some ⟨h, rfl⟩
  | cons k ks ih =>
    have hindex : indexInt sipStatus (((statusIdx : ℤ) + (k : ℤ)).tmod 3) =
        Reference.sipStatus[(statusIdx + k) % 3]? := by
      have hcast : ((statusIdx : ℤ) + (k : ℤ)).tmod 3 = (((statusIdx + k) % 3 : ℕ) : ℤ) := rfl
      rw [hcast, indexInt_natCast]
      rfl
    rw [Reference.SipState.putStatus, Device.SipState.putStatus, hindex]
    cases hstatus : Reference.sipStatus[(statusIdx + k) % 3]? with
    | none => exact .none
    | some status =>
      have hline : sipStatusLine status = [ascii "SIP/2.0 ", status, ascii "\r\n"].flatten := by
        simp [sipStatusLine]
      have hput := h.putLine (statusLine_fits status (mem_of_getElem? hstatus))
      rw [← hline] at hput
      simp only [bind_eq_bind, bind_some]
      refine rel_bind hput ?_
      rintro ⟨r', ok⟩ ⟨g', ok'⟩ ⟨h', rfl⟩
      cases ok with
      | false => exact ih h'
      | true => exact .some ⟨h', rfl⟩

theorem decimalDigitsFrom_eq (fuel value digits : ℕ) :
    Reference.decimalDigitsFrom fuel value digits = Device.decimalDigitsFrom fuel value digits := by
  induction fuel generalizing value digits with
  | zero => rfl
  | succ fuel ih => rw [Reference.decimalDigitsFrom, Device.decimalDigitsFrom, ih]

theorem decimalDigits_eq (value : ℕ) : Reference.decimalDigits value = Device.decimalDigits value :=
  decimalDigitsFrom_eq value value 1

/-- A length that an `int` can hold has at most 19 digits. -/
theorem contentLengthLine_fits {body : ℕ} (hbody : body < 2 ^ 63) (sws : ℕ) :
    (if sws = 1 then [ascii "Content-Length: ", decimal body, ascii "\r\n"]
      else [ascii "Content-Length:  ", decimal body, ascii "\r\n"]).flatten.length ≤ 128 := by
  have hdigits : (decimal body).length ≤ 19 := decimal_length_le (by decide) (by omega)
  have hone : (ascii "Content-Length: ").length = 16 := by decide
  have htwo : (ascii "Content-Length:  ").length = 17 := by decide
  have hend : (ascii "\r\n").length = 2 := by decide
  split_ifs <;> simp only [flatten_cons, flatten_nil, length_append, length_nil,
    hone, htwo, hend] <;> omega

theorem contentLengthLine_eq (sws body : ℕ) : sipContentLengthLine sws body =
      (if sws = 1 then [ascii "Content-Length: ", decimal body, ascii "\r\n"]
        else [ascii "Content-Length:  ", decimal body, ascii "\r\n"]).flatten := by
  unfold sipContentLengthLine
  split_ifs <;> simp

theorem SameSip.searchDigits {r : Reference.SipState} (h : SameSip r g)
    {totalLen : ℕ} (htotal : totalLen < 2 ^ 63) (sws left digits : ℕ) :
    Option.Rel (Option.Rel SameSip) (r.searchDigits totalLen sws left digits)
      (g.searchDigits totalLen sws left digits) := by
  induction left generalizing digits with
  | zero => exact .some .none
  | succ left ih =>
    have hhead : (ascii "Content-Length:").length = 15 := by decide
    have hend : (ascii "\r\n\r\n").length = 4 := by decide
    rw [Reference.SipState.searchDigits, Device.SipState.searchDigits]
    dsimp only
    rw [hhead, hend, h.pos, h.region, decimalDigits_eq, contentLengthLine_eq]
    generalize g.pos + 15 + sws + digits + 4 = headerEnd
    by_cases hlong : headerEnd > g.p.length
    · rw [if_pos hlong, if_pos hlong]
      exact .some .none
    rw [if_neg hlong, if_neg hlong]
    by_cases hdigits : Device.decimalDigits (totalLen - headerEnd) = digits
    · rw [if_pos hdigits, if_pos hdigits]
      have hbody : totalLen - headerEnd < 2 ^ 63 := by omega
      exact rel_map (h.putLine (contentLengthLine_fits hbody sws)) fun a b hab => .some hab.1
    · rw [if_neg hdigits, if_neg hdigits]
      exact ih (digits + 1)

theorem SameSip.putContentLength {r : Reference.SipState}
    (h : SameSip r g) {totalLen : ℕ} (htotal : totalLen < 2 ^ 63) (swss : List ℕ) :
    Option.Rel SameSip (r.putContentLength totalLen swss) (g.putContentLength totalLen swss) := by
  induction swss with
  | nil => exact .some h
  | cons sws more ih =>
    rw [Reference.SipState.putContentLength, Device.SipState.putContentLength, decimalDigits_eq]
    refine rel_bind (h.searchDigits htotal sws _ 1) ?_
    rintro a b hab
    cases hab with
    | none => exact ih
    | some hst => exact .some hst

theorem SameSip.close {r : Reference.SipState} (h : SameSip r g) : r.close = g.close := by
  unfold Reference.SipState.close Device.SipState.close
  rw [h.pos, h.region]
  dsimp only
  split_ifs with hroom
  · simp only [bind_eq_bind]
    apply Option.bind_congr
    intro p₁ hwrite₁
    apply Option.bind_congr
    intro p₂ hwrite₂
    have hlen : p₂.length = g.p.length :=
      (writeAt_length hwrite₂).trans (writeAt_length hwrite₁)
    exact (fillLoop_eq_onRange 0x20 (by rw [hlen]; exact hroom) (by rw [hlen])).symm
  · exact (fillLoop_eq_onRange 0x20 h.bound rfl).symm

theorem writeSipFragment_eq (p : Bytes) : Reference.writeSipFragment p = writeSIPFragment p := by
  unfold Reference.writeSipFragment writeSIPFragment
  dsimp only
  generalize ascii "SIP/2.0 100 Trying\r\n" = frag
  have htake : min frag.length p.length =
      if frag.length > p.length then p.length else frag.length := by
    split_ifs <;> omega
  rw [htake]
  simp only [bind_eq_bind]
  apply Option.bind_congr
  intro p' hwrite
  have hlen := writeAt_length hwrite
  rw [fillLoop_eq_onRange 0x20 (by rw [hlen, ← htake]; exact min_le_right _ _) (by rw [hlen])]

/-- The draws of the reference, as the port names them. -/
def Reference.SipDraws.port (draws : Reference.SipDraws) : Device.SipDraws :=
  { status := draws.status, host := draws.host, method := draws.method, branch := draws.branch,
    fromTag := draws.fromTag, toTag := draws.toTag, callID := draws.callId, cseq := draws.cseq }

theorem sipDraws_eq (seed : BitVec 32) : (Reference.sipDraws seed).port = Device.sipDraws seed := by
  simp only [Reference.sipDraws, Reference.SipDraws.port, Device.sipDraws, lcgStep_eq]

theorem lines_eq (draws : Reference.SipDraws) (host method : Bytes) :
    (draws.lines host method).map List.flatten = draws.port.lines host method := by
  simp [Reference.SipDraws.lines, Device.SipDraws.lines, Reference.SipDraws.port, sipViaLine,
    sipFromLine, sipToLine, sipCallIDLine, sipCSeqLine]

theorem lines_fit (draws : Reference.SipDraws) {host method : Bytes} (hhost : host.length ≤ 16)
    (hmethod : method.length ≤ 8) :
    ∀ line ∈ draws.lines host method, line.flatten.length ≤ 128 := by
  have hcseq : (decimal draws.cseq.toNat).length ≤ 10 :=
    decimal_length_le (by decide) (by have := draws.cseq.isLt; omega)
  have hcrlf : (ascii "\r\n").length = 2 := by decide
  intro line hline
  simp only [Reference.SipDraws.lines, mem_cons, not_mem_nil, or_false] at hline
  rcases hline with rfl | rfl | rfl | rfl | rfl <;>
    simp only [flatten_cons, flatten_nil, length_append, length_nil, hex8_length, hcrlf]
  · have h₁ : (ascii "Via: SIP/2.0/UDP ").length = 17 := by decide
    have h₂ : (ascii ":5060;branch=z9hG4bK").length = 20 := by decide
    have h₃ : (ascii ";rport\r\n").length = 8 := by decide
    omega
  · have h₁ : (ascii "From: <sip:caller@").length = 18 := by decide
    have h₂ : (ascii ">;tag=").length = 6 := by decide
    omega
  · have h₁ : (ascii "To: <sip:callee@").length = 16 := by decide
    have h₂ : (ascii ">;tag=").length = 6 := by decide
    omega
  · have h₁ : (ascii "Call-ID: ").length = 9 := by decide
    have h₂ : (ascii "@").length = 1 := by decide
    omega
  · have h₁ : (ascii "CSeq: ").length = 6 := by decide
    have h₂ : (ascii " ").length = 1 := by decide
    omega

theorem host_length : ∀ host ∈ Reference.sipHosts, host.length ≤ 16 := by decide

theorem method_length : ∀ method ∈ Reference.sipMethods, method.length ≤ 8 := by decide

theorem indexInt_draw_eq (l : List Bytes) (v : BitVec 32) :
    indexInt l ((drawInt 64 v).tmod 3) = l[v.toNat % 3]? := by
  rw [drawInt_tmod, indexInt_natCast]

theorem applySipPadding_eq (padSize : ℕ) (hlen : data.length < 2 ^ 63) :
    Reference.applySipPadding data padSize =
      writeSIP 64 data padSize (Device.fnv1aSeed (data.drop padSize)) := by
  unfold Reference.applySipPadding writeSIP
  apply splitAtMut_eq
  intro p hp
  rw [fnv1aSeed_eq, ← sipDraws_eq]
  generalize Reference.sipDraws _ = draws
  by_cases hempty : p = []
  · rw [if_pos (by simpa using hempty), if_pos (by simpa using hempty)]
  have hlength : ¬p.length = 0 := fun h => hempty (length_eq_zero_iff.mp h)
  rw [if_neg (by simpa using hempty), if_neg hlength]
  simp only [bind_eq_bind]
  rw [indexInt_draw_eq, indexInt_draw_eq, drawInt_tmod]
  show (Reference.sipHosts[draws.host.toNat % 3]?).bind _ =
    (Reference.sipHosts[draws.host.toNat % 3]?).bind _
  apply Option.bind_congr
  intro host hhost
  show (Reference.sipMethods[draws.method.toNat % 3]?).bind _ =
    (Reference.sipMethods[draws.method.toNat % 3]?).bind _
  apply Option.bind_congr
  intro method hmethod
  have hfit := lines_fit draws (host_length host (mem_of_getElem? hhost))
    (method_length method (mem_of_getElem? hmethod))
  have hstart : SameSip ⟨p, 0, replicate 128 0⟩ ⟨p, 0⟩ :=
    ⟨rfl, rfl, zero_le _, length_replicate⟩
  -- from here on both writers run in step, related by `SameSip`
  apply eq_of_rel
  refine rel_bind (hstart.putStatus (draws.status.toNat % 3) [0, 1, 2]) ?_
  rintro ⟨r, ok⟩ ⟨g, ok'⟩ ⟨hst, rfl⟩
  cases ok with
  | false =>
    show Option.Rel _ (Reference.writeSipFragment r.padding) (writeSIPFragment g.p)
    rw [writeSipFragment_eq, hst.region]
    exact rel_refl (fun _ => rfl) _
  | true =>
    rw [← lines_eq]
    refine rel_bind (hst.putLines hfit) ?_
    rintro ⟨r', all⟩ ⟨g', all'⟩ ⟨hst', rfl⟩
    have hclose : ∀ r g, SameSip r g → Option.Rel (· = ·) r.close g.close := by
      intro r g h
      rw [h.close]
      exact rel_refl (fun _ => rfl) _
    cases all with
    | false => exact hclose _ _ hst'
    | true => exact rel_bind (hst'.putContentLength hlen [1, 2]) hclose

/-! ## §6 The port -/

/-- The port leaves in every buffer the bytes that the reference leaves there, and neither
panics. -/
theorem imitateFillPrefix_eq_applyPadding (buf : Bytes) (padding : ℕ)
    (proto : Reference.Protocol) (hbuf : buf.length < 2 ^ 63) :
    ∃ out, imitateFillPrefix 64 buf padding proto.imitate = some out ∧
      Reference.applyPadding buf padding proto = some out := by
  by_cases hguard : padding = 0 ∨ padding ≥ buf.length
  · exact ⟨buf, if_pos hguard, if_pos hguard⟩
  have hpos : 0 < padding := by omega
  have hlt : padding < buf.length := by omega
  have hproto : proto.imitate ≠ .none := by cases proto <;> decide
  have hfill := imitateFillPrefix_eq hpos hlt hproto
  refine ⟨_, hfill, ?_⟩
  rw [← hfill]
  unfold Reference.applyPadding imitateFillPrefix
  rw [if_neg hguard, if_neg hguard]
  cases proto with
  | quic => exact applyQuicPaddingShort_eq buf padding
  | dns => exact applyDnsPadding_eq (Nat.le_of_lt hlt) (Device.fnv1aSeed (buf.drop padding))
  | stun => exact applyStunPadding_eq buf padding
  | sip => exact applySipPadding_eq padding hbuf

/-- A SIP message in front of a payload of four bytes. -/
theorem imitateFillPrefix_eq_applyPadding_sip :
    ∃ out, imitateFillPrefix 64 (List.replicate 40 0 ++ [1, 2, 3, 4]) 40 .sip = some out ∧
      Reference.applyPadding (List.replicate 40 0 ++ [1, 2, 3, 4]) 40 .sip = some out :=
  imitateFillPrefix_eq_applyPadding (List.replicate 40 0 ++ [1, 2, 3, 4]) 40 .sip (by decide)

end AmneziaWG.Tools
