import AmneziaWG.Device.Obf.Imitate

/-!
# What the Imitation Writers Write

For each protocol, the filler as a function of the seed and of lengths, and the proof that
the writer leaves the filler in front of the payload.  In particular no writer panics, what
stood in the padding before does not matter, and the payload stays.

## Main results

- `writeQUICShort_eq`, `writeSTUN_eq`, `writeDNSMsg_eq`, `writeSIP_eq`.
- `imitation_confined`: only the padding is written, and nothing that was in it before is left.
-/

namespace AmneziaWG.Device

open AmneziaWG.Lib List Option Nat

variable {buf filler rest text : Bytes} {padding n : ℕ} {st : SipState} {proto : ImitateProto}

/-- A writer whose result does not depend on the old contents of the padding. -/
theorem onPadding_eq {write : Bytes → Option Bytes} (hpadding : padding ≤ buf.length)
    (hwrite : ∀ p : Bytes, p.length = padding → write p = some filler) :
    onPadding buf padding write = some (filler ++ buf.drop padding) := by
  have hlen : (buf.take padding).length = padding := by
    rw [length_take]
    omega
  rw [onPadding, if_pos hpadding, hwrite _ hlen]
  rfl

/-! ## §1 QUIC -/

/-- The first byte of a short header: spin bit, key phase and length of the packet number. -/
def quicFirstByte (seed : BitVec 32) : Byte :=
  let spin : Byte := (seed >>> 8).setWidth 8 &&& 0x01
  let keyPhase : Byte := (lcgStep seed >>> 8).setWidth 8 &&& 0x01
  let pnLenBits : Byte := (lcgStep (lcgStep seed)).setWidth 8 &&& 0x03
  0x40 ||| (spin <<< 5) ||| (keyPhase <<< 2) ||| pnLenBits

def quicFiller (seed : BitVec 32) : ℕ → Bytes
  | 0 => []
  | n + 1 => quicFirstByte seed :: generate quicByte n (lcgStep (lcgStep (lcgStep seed)))

theorem writeQUICShort_eq (hpadding : padding ≤ buf.length) (seed : BitVec 32) :
    writeQUICShort buf padding seed = some (quicFiller seed padding ++ buf.drop padding) := by
  apply onPadding_eq hpadding
  intro p hp
  cases p with
  | nil =>
    subst hp
    rfl
  | cons b rest =>
    subst hp
    have hfirst : writeAt ([b] ++ rest) 0 [quicFirstByte seed] =
        some (quicFirstByte seed :: rest) :=
      writeAt_zero rfl
    have hloop : writeLoop quicByte rest.length (lcgStep (lcgStep (lcgStep seed))) 1
        ([quicFirstByte seed] ++ rest) = _ := writeLoop_done _ _ rfl (le_refl _)
    rw [if_neg (by simp)]
    show (writeAt ([b] ++ rest) 0 [quicFirstByte seed]).bind _ = _
    rw [hfirst, bind_some]
    show writeLoop quicByte rest.length _ 1 ([quicFirstByte seed] ++ rest) = _
    rw [hloop, drop_length, append_nil]
    rfl

/-! ## §2 STUN -/

def stunTxn (seed : BitVec 32) : Bytes :=
  be32 seed ++ be32 (lcgStep seed) ++ be32 (lcgStep (lcgStep seed))

theorem stunTransactionID_eq (seed : BitVec 32) :
    stunTransactionID seed = some (stunTxn seed, lcgStep (lcgStep (lcgStep seed))) := rfl

/-- The attribute XOR-MAPPED-ADDRESS. -/
def stunXorMappedAddress (port : BitVec 16) (addr : BitVec 32) : Bytes :=
  be16 0x0020 ++ be16 8 ++ ([0x00] : Bytes) ++ ([0x01] : Bytes) ++
    be16 (port ^^^ (stunCookie >>> 16).setWidth 16) ++ be32 (addr ^^^ stunCookie)

/-- The attribute SOFTWARE with a value of `vlen` bytes. -/
def stunSoftware (vlen : ℕ) (state : BitVec 32) : Bytes :=
  be16 0x8022 ++ be16 (BitVec.ofNat 16 vlen) ++ generate stunSoftwareByte vlen state

theorem putXorMappedAddress_eq (p : Bytes) (off : ℕ) (port : BitVec 16) (addr : BitVec 32) :
    putXorMappedAddress p off port addr = writeAt p off (stunXorMappedAddress port addr) := by
  unfold putXorMappedAddress stunXorMappedAddress
  simp only [bind_eq_bind]
  -- the six writes are consecutive
  rw [writeAt_bind_writeAt, writeAt_bind_writeAt, writeAt_bind_writeAt, writeAt_bind_writeAt,
    writeAt_writeAt] <;> rfl

theorem stunXorMappedAddress_length (port : BitVec 16) (addr : BitVec 32) :
    (stunXorMappedAddress port addr).length = 12 := rfl

theorem stunSoftware_length (vlen : ℕ) (state : BitVec 32) :
    (stunSoftware vlen state).length = 4 + vlen := by
  simp [stunSoftware]
  omega

theorem putSoftware_done {done : Bytes} {off vlen : ℕ} (state : BitVec 32)
    (hoff : off = done.length) (hrest : 4 + vlen ≤ rest.length) :
    putSoftware (done ++ rest) off vlen state =
      some ((done ++ stunSoftware vlen state) ++ rest.drop (4 + vlen)) := by
  let head := be16 0x8022 ++ be16 (BitVec.ofNat 16 vlen)
  have hhead : writeAt (done ++ rest) off head = some ((done ++ head) ++ rest.drop 4) :=
    writeAt_done hoff (by simp [head]; omega)
  unfold putSoftware
  simp only [bind_eq_bind]
  rw [writeAt_bind_writeAt _ _ _ (by rfl), hhead, bind_some,
    writeLoop_done _ _ (by simp [head, hoff]) (by simp; omega), drop_drop]
  simp [stunSoftware, head]

theorem stunBody_le (padding : ℕ) : stunBody padding ≤ padding - 20 := by
  unfold stunBody
  split_ifs
  · exact andNot_le _ _
  · exact zero_le _

/-- The first attribute, when there is room. -/
def stunAddress (body : ℕ) (state : BitVec 32) : Bytes :=
  if body ≥ 12 then stunXorMappedAddress ((state >>> 16).setWidth 16) (lcgStep state) else []

/-- The state of the generator behind the first attribute. -/
def stunAddressState (body : ℕ) (state : BitVec 32) : BitVec 32 :=
  if body ≥ 12 then lcgStep (lcgStep state) else state

theorem stunSoftwareLen_le {room : ℕ} (h : room ≥ 4) : 4 + stunSoftwareLen room ≤ room := by
  unfold stunSoftwareLen
  split_ifs <;> omega

/-- The second attribute, when there is room. -/
def stunRest (room : ℕ) (state : BitVec 32) : Bytes :=
  if room ≥ 4 then stunSoftware (stunSoftwareLen room) state else []

def stunAttributes (body : ℕ) (state : BitVec 32) : Bytes :=
  stunAddress body state ++
    stunRest (body - (stunAddress body state).length) (stunAddressState body state)

def stunFiller (seed : BitVec 32) (padding : ℕ) : Bytes :=
  let attributes := stunAttributes (stunBody padding) (lcgStep (lcgStep (lcgStep seed)))
  ((stunHeader attributes.length (stunTxn seed)).take padding ++ attributes) ++
    List.replicate (padding - (20 + attributes.length)) 0x00

section

variable (body : ℕ) (state : BitVec 32)

theorem stunAddress_length_le : (stunAddress body state).length ≤ body := by
  unfold stunAddress
  split_ifs with h
  · exact h
  · exact zero_le _

theorem stunRest_length_le (room : ℕ) (state : BitVec 32) :
    (stunRest room state).length ≤ room := by
  unfold stunRest
  split_ifs with h
  · rw [stunSoftware_length]
    exact stunSoftwareLen_le h
  · exact zero_le _

theorem stunAttributes_length_le : (stunAttributes body state).length ≤ body := by
  have haddress := stunAddress_length_le body state
  have hrest := stunRest_length_le (body - (stunAddress body state).length)
    (stunAddressState body state)
  rw [stunAttributes, length_append]
  omega

theorem stunPutAddress_done {front : Bytes} {body : ℕ}
    (hfront : front.length = 20) (hbody : body ≤ rest.length) :
    stunPutAddress (front ++ rest) body state =
      some ((front ++ stunAddress body state) ++ rest.drop (stunAddress body state).length,
        stunAddressState body state, (stunAddress body state).length) := by
  unfold stunPutAddress stunAddress stunAddressState
  dsimp only
  split_ifs with h
  · rw [putXorMappedAddress_eq, writeAt_done hfront.symm (le_trans h hbody)]
    rfl
  · simp

theorem stunPutSoftware_done {done : Bytes} {body written : ℕ}
    (hdone : done.length = 20 + written) (hbody : body - written ≤ rest.length) :
    stunPutSoftware (done ++ rest) body written state =
      some ((done ++ stunRest (body - written) state) ++
          rest.drop (stunRest (body - written) state).length,
        written + (stunRest (body - written) state).length) := by
  unfold stunPutSoftware stunRest
  dsimp only
  split_ifs with h
  · have hlen : 4 + stunSoftwareLen (body - written) ≤ rest.length :=
      le_trans (stunSoftwareLen_le h) hbody
    rw [putSoftware_done state hdone.symm hlen, stunSoftware_length]
    rfl
  · simp

end

theorem stunFinish_done {front attributes txn : Bytes} (hfront : front.length = 20)
    (htxn : txn.length = 12) : stunFinish (front ++ (attributes ++ rest)) attributes.length txn =
      some (stunHeader attributes.length txn ++ attributes ++ List.replicate rest.length 0x00) := by
  have hheader : (stunHeader attributes.length txn).length = 20 := by simp [stunHeader, htxn]
  have hcopy : (if (front ++ (attributes ++ rest)).length > 20 then 20
      else (front ++ (attributes ++ rest)).length) = 20 := by
    rw [length_append, hfront]
    split_ifs <;> omega
  have hwrite : writeAt (front ++ (attributes ++ rest)) 0 (stunHeader attributes.length txn) =
      some (stunHeader attributes.length txn ++ (attributes ++ rest)) :=
    writeAt_zero (hheader.trans hfront.symm)
  have hzeros : (front ++ (attributes ++ rest)).length - (20 + attributes.length) =
      rest.length := by
    simp only [length_append, hfront]
    omega
  unfold stunFinish
  dsimp only
  rw [hcopy, take_of_length_le (le_of_eq hheader), bind_eq_bind, hwrite,
    bind_some, hzeros, ← append_assoc,
    fillLoop_done 0x00 (by rw [length_append, hheader]) (le_refl _), drop_length,
    append_nil]

theorem stunTxn_length (seed : BitVec 32) : (stunTxn seed).length = 12 := rfl

/-- Below a full header there is no attribute, and the header is cut. -/
theorem stunFinish_short {p txn : Bytes} (hp : p.length ≤ 20) (htxn : txn.length = 12) :
    stunFinish p 0 txn = some ((stunHeader 0 txn).take p.length) := by
  have hcopy : (if p.length > 20 then 20 else p.length) = p.length := if_neg (Nat.not_lt.mpr hp)
  have hheader : ((stunHeader 0 txn).take p.length).length = p.length := by
    simp [stunHeader, htxn]
    omega
  have hwrite : writeAt (p ++ []) 0 ((stunHeader 0 txn).take p.length) = _ := writeAt_zero hheader
  unfold stunFinish
  dsimp only
  rw [List.append_nil, List.append_nil] at hwrite
  rw [hcopy, Option.bind_eq_bind, hwrite, Option.bind_some, Nat.sub_eq_zero_of_le (by omega)]
  rfl

theorem writeSTUN_eq (hpadding : padding ≤ buf.length) (seed : BitVec 32) :
    writeSTUN buf padding seed = some (stunFiller seed padding ++ buf.drop padding) := by
  apply onPadding_eq hpadding
  intro p hp
  by_cases hempty : p.length = 0
  · rw [if_pos hempty, length_eq_zero_iff.mp hempty, ← hp, hempty]
    rfl
  rw [if_neg hempty, stunTransactionID_eq]
  simp only [bind_eq_bind, bind_some]
  by_cases hshort : padding ≤ 20
  · -- no room for attributes
    have hbody : stunBody padding = 0 := if_neg (not_lt.mpr hshort)
    have hnone : padding - (20 + 0) = 0 := by omega
    rw [stunFiller, hbody]
    show stunFinish p 0 (stunTxn seed) = some ((_ ++ []) ++ replicate (padding - (20 + 0)) 0)
    rw [stunFinish_short (hp ▸ hshort) (stunTxn_length seed), hnone, append_nil, hp]
    exact (congrArg some (append_nil _)).symm
  · obtain ⟨front, rest, rfl, hfront⟩ : ∃ front rest : Bytes, p = front ++ rest ∧
        front.length = 20 :=
      ⟨p.take 20, p.drop 20, (take_append_drop 20 p).symm, by
        rw [length_take]
        omega⟩
    have hbody : stunBody padding ≤ rest.length := by
      have := stunBody_le padding
      rw [length_append] at hp
      omega
    rw [stunPutAddress_done _ hfront hbody, bind_some]
    dsimp only
    have haddress := stunAddress_length_le (stunBody padding) (lcgStep (lcgStep (lcgStep seed)))
    rw [stunPutSoftware_done _ (by rw [length_append, hfront])
      (by rw [length_drop]; omega), bind_some]
    dsimp only
    rw [append_assoc front, append_assoc front, ← length_append,
      stunFinish_done hfront (stunTxn_length seed)]
    -- what is left of the padding behind the attributes
    have hheader : (stunHeader (stunAttributes (stunBody padding)
        (lcgStep (lcgStep (lcgStep seed)))).length (stunTxn seed)).length ≤ padding := by
      show 20 ≤ padding
      omega
    unfold stunFiller
    dsimp only
    rw [take_of_length_le hheader]
    unfold stunAttributes
    simp only [length_append, length_drop] at hp ⊢
    congr 3
    omega

/-! ## §3 DNS -/

/-- A message that fits less than the OPT framing. -/
def dnsNullFiller (txid : Byte × Byte) (padding total : ℕ) : Bytes :=
  let advertised := if padding ≥ 28 then 28 else if padding ≥ 17 then 17 else 12
  let copyLen := if padding < advertised then padding else advertised
  (dnsNullFixed txid (if padding ≥ 17 then 1 else 0) (if padding ≥ 28 then 1 else 0)
    (clampU16 (total - 28))).take copyLen ++ List.replicate (padding - copyLen) 0x00

/-- A message with an OPT record that covers the datagram. -/
def dnsOptFiller (txid : Byte × Byte) (question : Bytes) (padding total : ℕ) : Bytes :=
  let optOff := dnsHeaderLen + question.length
  let opt := dnsOpt (clampU16 (total - (optOff + dnsOptFixedLen)))
    (clampU16 (total - (optOff + dnsOptFixedLen + dnsOptOptionHdrLen)))
  dnsHeader txid ++ question ++ opt ++ List.replicate (padding - (optOff + opt.length)) 0x00

def dnsFiller (txid : Byte × Byte) (padding total : ℕ) : Bytes :=
  if padding < dnsOptMin then dnsNullFiller txid padding total
  else dnsOptFiller txid dnsRootQuestion padding total

theorem writeDNSOptResponse_eq {p : Bytes} (total : ℕ) (txid : Byte × Byte) {question : Bytes}
    (hp : dnsHeaderLen + question.length + 15 ≤ p.length) :
    writeDNSOptResponse p total txid question =
      some (dnsOptFiller txid question p.length total) := by
  unfold writeDNSOptResponse dnsOptFiller
  dsimp only
  generalize hopt : dnsOpt _ _ = opt
  have hlen : opt.length = 15 := hopt ▸ rfl
  have hsum : dnsHeaderLen + question.length + opt.length =
      (dnsHeader txid ++ question ++ opt).length := by
    rw [length_append, length_append]
    rfl
  -- header, question and record are consecutive
  simp only [bind_eq_bind]
  rw [writeAt_bind_writeAt _ _ _ (by rfl), writeAt_bind_writeAt _ _ _ (by simp; rfl), hsum,
    writeAt_fillLoop 0x00 (by rw [← hsum, hlen]; exact hp)]

theorem writeDNSNull_eq (hpadding : padding ≤ buf.length) (txid : Byte × Byte) :
    writeDNSNull buf padding txid =
      some (dnsNullFiller txid padding buf.length ++ buf.drop padding) := by
  unfold writeDNSNull
  apply onPadding_eq hpadding
  intro p hp
  by_cases hempty : p.length = 0
  · rw [if_pos hempty, length_eq_zero_iff.mp hempty, ← hp, hempty]
    rfl
  rw [if_neg hempty]
  unfold dnsNullFiller
  dsimp only
  rw [hp]
  generalize hadvertised : (if padding ≥ 28 then 28 else if padding ≥ 17 then 17 else 12) =
    advertised
  generalize hcopy : (if padding < advertised then padding else advertised) = copyLen
  generalize hfixed : dnsNullFixed _ _ _ _ = fixed
  -- the fixed part is cut to the padding, and zeros fill the rest
  have hle : copyLen ≤ padding ∧ copyLen ≤ 28 := by
    split_ifs at hadvertised hcopy <;> omega
  have hlen : (fixed.take copyLen).length = copyLen := by
    have hall : fixed.length = 28 := hfixed ▸ rfl
    rw [length_take]
    omega
  have hfits : (fixed.take copyLen).length ≤ p.length := by omega
  have h := writeAt_fillLoop 0x00 hfits
  rw [hlen, hp] at h
  exact h

theorem writeDNSMsg_eq (hpadding : padding ≤ buf.length) (txid : Byte × Byte) :
    writeDNSMsg buf padding txid =
      some (dnsFiller txid padding buf.length ++ buf.drop padding) := by
  unfold writeDNSMsg dnsFiller
  split_ifs with hmin
  · exact writeDNSNull_eq hpadding txid
  · apply onPadding_eq hpadding
    intro p hp
    have hroom : dnsHeaderLen + dnsRootQuestion.length + 15 ≤ p.length := by
      rw [hp]
      exact not_lt.mp hmin
    rw [writeDNSOptResponse_eq _ txid hroom, hp]

/-! ## §4 SIP -/

/-- Lines packed greedily behind `text`, with room for a blank line in `n` bytes; and whether
all of them fit. -/
def packLines (n : ℕ) : Bytes → List Bytes → Bytes × Bool
  | text, [] => (text, true)
  | text, line :: lines =>
    if text.length + line.length + 2 ≤ n then packLines n (text ++ line) lines else (text, false)

/-- The first status line that fits, of those that `ks` counts from `statusIdx`. -/
def sipStatusText (n statusIdx : ℕ) : List ℕ → Option Bytes
  | [] => none
  | k :: ks =>
    let line := sipStatusLine (sipStatus[(statusIdx + k) % 3]?.getD [])
    if line.length + 2 ≤ n then some line else sipStatusText n statusIdx ks

/-- The header lines, with the texts that the draws select. -/
def sipHeaderLines (draws : SipDraws) : List Bytes :=
  draws.lines (sipHosts[draws.host.toNat % 3]?.getD [])
    (sipMethods[draws.method.toNat % 3]?.getD [])

/-- The body length that counts its own digits right, with `sws` spaces behind the colon. -/
def findContentLength (n total pos sws : ℕ) : ℕ → ℕ → Option ℕ
  | 0, _ => none
  | left + 1, digits =>
    let headerEnd := pos + 15 + sws + digits + 4
    if headerEnd > n then none
    else if decimalDigits (total - headerEnd) = digits then some (total - headerEnd)
    else findContentLength n total pos sws left (digits + 1)

/-- The `Content-Length` line, when there is one. -/
def sipContentLengthLines (n total pos : ℕ) : List ℕ → List Bytes
  | [] => []
  | sws :: more =>
    match findContentLength n total pos sws (decimalDigits total) 1 with
    | some body => [sipContentLengthLine sws body]
    | none => sipContentLengthLines n total pos more

/-- The lines behind the status line: the given header lines and `Content-Length`. -/
def sipTextOf (lines : List Bytes) (n total : ℕ) (status : Bytes) : Bytes :=
  let packed := packLines n status lines
  if packed.2 then
    (packLines n packed.1 (sipContentLengthLines n total packed.1.length [1, 2])).1
  else packed.1

/-- The blank line behind the text, and spaces. -/
def sipClose (n : ℕ) (text : Bytes) : Bytes :=
  text ++ (ascii "\r" ++ ascii "\n") ++ List.replicate (n - (text.length + 2)) 0x20

/-- A cut status line, with a line end. -/
def sipFragment (n : ℕ) : Bytes :=
  let frag := ascii "SIP/2.0 100 Trying\r\n"
  let take := if frag.length > n then n else frag.length
  let line := frag.take take ++ List.replicate (n - take) 0x20
  if n ≥ 2 then line.take (n - 2) ++ (ascii "\r" ++ ascii "\n") else line

def sipFillerOf (draws : SipDraws) (n total : ℕ) : Bytes :=
  match sipStatusText n (draws.status.toNat % 3) [0, 1, 2] with
  | none => sipFragment n
  | some status => sipClose n (sipTextOf (sipHeaderLines draws) n total status)

def sipFiller (seed : BitVec 32) (n total : ℕ) : Bytes :=
  sipFillerOf (sipDraws seed) n total

/-- A region of `n` bytes of which `text` is filled. -/
def Packed (n : ℕ) (text : Bytes) (st : SipState) : Prop :=
  ∃ rest, st = ⟨text ++ rest, text.length⟩ ∧ (text ++ rest).length = n

theorem Packed.putLine (h : Packed n text st) (line : Bytes) :
    ∃ st', st.putLine line = some (st', decide (text.length + line.length + 2 ≤ n)) ∧
      Packed n (if text.length + line.length + 2 ≤ n then text ++ line else text) st' := by
  obtain ⟨rest, rfl, hn⟩ := h
  unfold SipState.putLine
  by_cases hfit : text.length + line.length + 2 ≤ n
  · have hline : line.length ≤ rest.length := by
      rw [length_append] at hn
      omega
    refine ⟨⟨(text ++ line) ++ rest.drop line.length, text.length + line.length⟩, ?_, ?_⟩
    · rw [if_pos (by rw [hn]; exact hfit), writeAt_done rfl hline]
      simp [hfit]
    · rw [if_pos hfit]
      refine ⟨rest.drop line.length, by rw [length_append], ?_⟩
      simp only [length_append, length_drop] at hn ⊢
      omega
  · refine ⟨⟨text ++ rest, text.length⟩, ?_, ?_⟩
    · rw [if_neg (by rw [hn]; exact hfit)]
      simp [hfit]
    · rw [if_neg hfit]
      exact ⟨rest, rfl, hn⟩

theorem Packed.putLines (h : Packed n text st) (lines : List Bytes) :
    ∃ st', st.putLines lines = some (st', (packLines n text lines).2) ∧
      Packed n (packLines n text lines).1 st' := by
  induction lines generalizing text st with
  | nil => exact ⟨st, rfl, h⟩
  | cons line lines ih =>
    obtain ⟨st', hput, hst'⟩ := h.putLine line
    rw [SipState.putLines, hput, packLines]
    by_cases hfit : text.length + line.length + 2 ≤ n
    · rw [if_pos hfit] at hst' ⊢
      simpa [hfit] using ih hst'
    · rw [if_neg hfit] at hst' ⊢
      exact ⟨st', by simp [hfit], hst'⟩

theorem packLines_room (h : text.length + 2 ≤ n) (lines : List Bytes) :
    (packLines n text lines).1.length + 2 ≤ n := by
  induction lines generalizing text with
  | nil => exact h
  | cons line lines ih =>
    rw [packLines]
    split_ifs with hfit
    · exact ih (by rw [length_append]; exact hfit)
    · exact h

theorem drawInt_tmod (v : BitVec 32) : (drawInt 64 v).tmod 3 = ((v.toNat % 3 : ℕ) : ℤ) := by
  have hlt : (v.toNat : ℤ) < 2 ^ 63 := by
    have := v.isLt
    omega
  rw [drawInt, wrapInt_of_lt (Int.natCast_nonneg _) hlt]
  rfl

theorem indexInt_natCast {α : Type} (l : List α) (i : ℕ) : indexInt l (i : ℤ) = l[i]? := by
  simp [indexInt]

theorem indexInt_draw {l : List Bytes} (hl : l.length = 3) (v : BitVec 32) :
    indexInt l ((drawInt 64 v).tmod 3) = some (l[v.toNat % 3]?.getD []) := by
  have hlt : v.toNat % 3 < l.length := by omega
  rw [drawInt_tmod, indexInt_natCast, getElem?_eq_getElem hlt]
  rfl

theorem sipStatusText_room {statusIdx : ℕ} {ks : List ℕ} {line : Bytes}
    (h : sipStatusText n statusIdx ks = some line) : line.length + 2 ≤ n := by
  induction ks with
  | nil => cases h
  | cons k ks ih =>
    rw [sipStatusText] at h
    split_ifs at h with hfit
    · cases h
      exact hfit
    · exact ih h

theorem Packed.searchDigits (h : Packed n text st)
    (total sws left digits : ℕ) :
    st.searchDigits total sws left digits =
      match findContentLength n total text.length sws left digits with
      | none => some none
      | some body => (st.putLine (sipContentLengthLine sws body)).map fun r => some r.1 := by
  obtain ⟨rest, rfl, hn⟩ := h
  induction left generalizing digits with
  | zero => rfl
  | succ left ih =>
    rw [SipState.searchDigits, findContentLength]
    dsimp only
    rw [hn]
    split_ifs
    · rfl
    · rfl
    · exact ih (digits + 1)

theorem Packed.putContentLength (h : Packed n text st) (total : ℕ) (swss : List ℕ) :
    ∃ st', st.putContentLength total swss = some st' ∧
      Packed n (packLines n text (sipContentLengthLines n total text.length swss)).1 st' := by
  induction swss with
  | nil => exact ⟨st, rfl, h⟩
  | cons sws more ih =>
    rw [SipState.putContentLength, h.searchDigits, sipContentLengthLines]
    cases findContentLength n total text.length sws (decimalDigits total) 1 with
    | none => exact ih
    | some body =>
      obtain ⟨st', hput, hst'⟩ := h.putLine (sipContentLengthLine sws body)
      refine ⟨st', by simp [hput], ?_⟩
      dsimp only
      rw [packLines]
      split_ifs at hst' ⊢ <;> exact hst'

theorem Packed.close (h : Packed n text st) (hroom : text.length + 2 ≤ n) :
    st.close = some (sipClose n text) := by
  obtain ⟨rest, rfl, hn⟩ := h
  have hrest : rest.length = n - text.length := by
    rw [length_append] at hn
    omega
  have hblank : writeAt (text ++ rest) text.length (ascii "\r" ++ ascii "\n") =
      some (text ++ (ascii "\r" ++ ascii "\n") ++ rest.drop 2) :=
    writeAt_done rfl (by rw [hrest]; exact Nat.le_sub_of_add_le' hroom)
  have hlen : (rest.drop 2).length = n - (text.length + 2) := by
    rw [length_drop]
    omega
  unfold SipState.close sipClose
  dsimp only
  rw [hn, if_pos hroom]
  simp only [bind_eq_bind]
  rw [writeAt_bind_writeAt _ _ _ (by rfl), hblank, bind_some, ← hlen,
    fillLoop_done 0x20 (by rw [length_append]; rfl) (le_refl _), drop_length,
    append_nil]

theorem writeSIPFragment_eq (p : Bytes) : writeSIPFragment p = some (sipFragment p.length) := by
  unfold writeSIPFragment sipFragment
  dsimp only
  generalize ascii "SIP/2.0 100 Trying\r\n" = frag
  generalize htake : (if frag.length > p.length then p.length else frag.length) = take
  have hle : take ≤ p.length ∧ take ≤ frag.length := by
    split_ifs at htake <;> omega
  have hlen : (frag.take take).length = take := by
    rw [length_take]
    omega
  have hfits : (frag.take take).length ≤ p.length := by omega
  have hfill := writeAt_fillLoop 0x20 hfits
  rw [hlen] at hfill
  simp only [bind_eq_bind]
  rw [← bind_assoc, hfill, bind_some]
  generalize hline : frag.take take ++ replicate (p.length - take) 0x20 = line
  split_ifs with htwo
  · -- the line end replaces the last two bytes
    have hlast : (line.drop (p.length - 2)).length = 2 := by
      rw [length_drop, ← hline, length_append, hlen, length_replicate]
      omega
    have hsplit : line.take (p.length - 2) ++ line.drop (p.length - 2) = line :=
      take_append_drop _ _
    have hoff : p.length - 2 = (line.take (p.length - 2)).length := by
      rw [length_drop] at hlast
      rw [length_take]
      omega
    have hwrite : writeAt (line.take (p.length - 2) ++ line.drop (p.length - 2)) (p.length - 2)
        (ascii "\r" ++ ascii "\n") = _ := writeAt_done hoff (le_of_eq hlast.symm)
    have hnone : (line.drop (p.length - 2)).drop (ascii "\r" ++ ascii "\n").length = [] :=
      drop_eq_nil_of_le (le_of_eq hlast)
    rw [hsplit, hnone, append_nil] at hwrite
    rw [writeAt_writeAt _ _ _ (by show p.length - 1 = p.length - 2 + 1; omega), hwrite]
  · rfl

theorem Packed.finish {status : Bytes} (h : Packed n status st)
    (hroom : status.length + 2 ≤ n) (lines : List Bytes) (total : ℕ) :
    ((st.putLines lines).bind fun r =>
        if r.2 then (r.1.putContentLength total [1, 2]).bind SipState.close else r.1.close) =
      some (sipClose n (sipTextOf lines n total status)) := by
  obtain ⟨st', hlines, hst'⟩ := h.putLines lines
  have hroom' := packLines_room hroom lines
  rw [hlines, bind_some, sipTextOf]
  dsimp only
  -- from here on it does not matter how the lines were packed
  generalize packLines n status lines = packed at hst' hroom' ⊢
  obtain ⟨text, all⟩ := packed
  cases all with
  | false => exact hst'.close hroom'
  | true =>
    obtain ⟨st'', hcontent, hst''⟩ := hst'.putContentLength total [1, 2]
    show (st'.putContentLength total [1, 2]).bind SipState.close = _
    rw [hcontent]
    exact hst''.close (packLines_room hroom' _)

theorem sipFillerOf_zero (draws : SipDraws) (total : ℕ) : sipFillerOf draws 0 total = [] := by
  have hnone : sipStatusText 0 (draws.status.toNat % 3) [0, 1, 2] = none := by
    simp [sipStatusText]
  rw [sipFillerOf, hnone]
  rfl

/-- The status loop for an index that may be negative; `none` is a panic. -/
def sipStatusTextAt (n : ℕ) (statusIdx : ℤ) : List ℕ → Option (Option Bytes)
  | [] => some none
  | k :: ks => do
    let s ← indexInt sipStatus ((statusIdx + k).tmod 3)
    if (sipStatusLine s).length + 2 ≤ n then some (some (sipStatusLine s))
    else sipStatusTextAt n statusIdx ks

/-- What `writeSIP` writes with an `int` of `w` bits; `none` is a panic. -/
def sipFillerAt (w : ℕ) (seed : BitVec 32) (n total : ℕ) : Option Bytes :=
  if n = 0 then some []
  else do
    let draws := sipDraws seed
    let host ← indexInt sipHosts ((drawInt w draws.host).tmod 3)
    let method ← indexInt sipMethods ((drawInt w draws.method).tmod 3)
    match ← sipStatusTextAt n ((drawInt w draws.status).tmod 3) [0, 1, 2] with
    | none => some (sipFragment n)
    | some status => some (sipClose n (sipTextOf (draws.lines host method) n total status))

theorem Packed.putStatusAt (h : Packed n [] st) (statusIdx : ℤ) (ks : List ℕ) :
    (st.putStatus statusIdx ks = none ∧ sipStatusTextAt n statusIdx ks = none) ∨
      ∃ st' text, st.putStatus statusIdx ks = some (st', text.isSome) ∧
        sipStatusTextAt n statusIdx ks = some text ∧ Packed n (text.getD []) st' ∧
        ∀ line, text = some line → line.length + 2 ≤ n := by
  induction ks generalizing st with
  | nil => exact Or.inr ⟨st, none, rfl, rfl, h, fun _ hline => by cases hline⟩
  | cons k ks ih =>
    rw [SipState.putStatus, sipStatusTextAt]
    cases indexInt sipStatus ((statusIdx + (k : ℤ)).tmod 3) with
    | none => exact Or.inl ⟨rfl, rfl⟩
    | some s =>
      obtain ⟨st', hput, hst'⟩ := h.putLine (sipStatusLine s)
      rw [bind_eq_bind, bind_some, hput]
      dsimp only
      rw [length_nil, zero_add] at hst' ⊢
      by_cases hfit : (sipStatusLine s).length + 2 ≤ n
      · rw [if_pos hfit] at hst'
        refine Or.inr ⟨st', some (sipStatusLine s), by simp [hfit], by simp [hfit], hst', ?_⟩
        rintro line ⟨⟩
        exact hfit
      · rw [if_neg hfit] at hst'
        simpa [hfit] using ih hst'

theorem sipStatusTextAt_natCast (n statusIdx : ℕ) (ks : List ℕ) :
    sipStatusTextAt n statusIdx ks = some (sipStatusText n statusIdx ks) := by
  induction ks with
  | nil => rfl
  | cons k ks ih =>
    have hindex : indexInt sipStatus (((statusIdx : ℤ) + (k : ℤ)).tmod 3) =
        some (sipStatus[(statusIdx + k) % 3]?.getD []) := by
      have hcast : ((statusIdx : ℤ) + (k : ℤ)).tmod 3 = (((statusIdx + k) % 3 : ℕ) : ℤ) := rfl
      have hlt : (statusIdx + k) % 3 < sipStatus.length := mod_lt _ (by decide)
      rw [hcast, indexInt_natCast, getElem?_eq_getElem hlt]
      rfl
    rw [sipStatusTextAt, sipStatusText, hindex, bind_eq_bind, bind_some, ih]
    split_ifs <;> rfl

theorem writeSIP_eq_map (w : ℕ) (hpadding : padding ≤ buf.length) (seed : BitVec 32) :
    writeSIP w buf padding seed =
      (sipFillerAt w seed padding buf.length).map (· ++ buf.drop padding) := by
  have hp : (buf.take padding).length = padding := by
    rw [length_take]
    omega
  unfold writeSIP sipFillerAt onPadding
  rw [if_pos hpadding]
  generalize sipDraws seed = draws
  generalize buf.take padding = p at hp
  congr 1
  dsimp only
  rw [hp]
  by_cases hempty : padding = 0
  · rw [if_pos hempty, if_pos hempty, length_eq_zero_iff.mp (hp.trans hempty)]
  rw [if_neg hempty, if_neg hempty]
  simp only [bind_eq_bind]
  -- a draw that is negative as an `int` panics, in the same place on both sides
  cases indexInt sipHosts ((drawInt w draws.host).tmod 3) with
  -- no status line fits
  | none => rw [bind_none, bind_none]
  | some host =>
    cases indexInt sipMethods ((drawInt w draws.method).tmod 3) with
    | none => rw [bind_some, bind_some, bind_none, bind_none]
    | some method =>
      have hstart : Packed padding [] ⟨p, 0⟩ := ⟨p, rfl, hp⟩
      obtain ⟨hput, htext⟩ | ⟨st, text, hput, htext, hst, hroom⟩ :=
        hstart.putStatusAt ((drawInt w draws.status).tmod 3) [0, 1, 2]
      · simp only [bind_some, hput, htext, bind_none]
      · simp only [bind_some, hput, htext]
        cases text with
        | none =>
          obtain ⟨rest, rfl, hrest⟩ := hst
          show writeSIPFragment rest = some (sipFragment padding)
          rw [writeSIPFragment_eq, ← hrest]
          rfl
        | some status => exact hst.finish (hroom status rfl) (draws.lines host method) buf.length

theorem sipFillerAt_64 (seed : BitVec 32) (n total : ℕ) :
    sipFillerAt 64 seed n total = some (sipFiller seed n total) := by
  unfold sipFillerAt sipFiller
  generalize sipDraws seed = draws
  split_ifs with hzero
  · rw [hzero, sipFillerOf_zero]
  · dsimp only
    rw [indexInt_draw rfl, indexInt_draw rfl, drawInt_tmod, sipStatusTextAt_natCast, sipFillerOf]
    cases sipStatusText n (draws.status.toNat % 3) [0, 1, 2] <;> rfl

theorem writeSIP_eq (hpadding : padding ≤ buf.length) (seed : BitVec 32) :
    writeSIP 64 buf padding seed =
      some (sipFiller seed padding buf.length ++ buf.drop padding) := by
  rw [writeSIP_eq_map 64 hpadding, sipFillerAt_64]
  rfl

/-! ## §5 In front of a payload -/

/-- The transaction ID that a DNS message takes from the payload. -/
def payloadTxid (payload : Bytes) : Byte × Byte := (payload[0]?.getD 0, payload[1]?.getD 0)

theorem writeDNS_eq (hpos : 0 < padding) (hpadding : padding ≤ buf.length) (seed : BitVec 32) :
    writeDNS buf padding seed =
      some (dnsFiller (payloadTxid (buf.drop padding)) padding buf.length ++ buf.drop padding) := by
  have hslice : sliceFrom buf (padding : ℤ) = some (buf.drop padding) := by
    simp [sliceFrom, hpadding]
  rw [writeDNS, if_neg (by omega), hslice]
  exact writeDNSMsg_eq hpadding _

/-- What is put in front of a payload: it depends on the protocol, the size of the padding and
the payload alone. -/
def prefixFiller (padding : ℕ) (payload : Bytes) : ImitateProto → Bytes
  | .quic => quicFiller (fnv1aSeed payload) padding
  | .dns => dnsFiller (payloadTxid payload) padding (padding + payload.length)
  | .stun => stunFiller (fnv1aSeed payload) padding
  | .sip => sipFiller (fnv1aSeed payload) padding (padding + payload.length)
  | .none => []

theorem imitateFillPrefix_eq (hpos : 0 < padding)
    (hlt : padding < buf.length) (hproto : proto ≠ .none) : imitateFillPrefix 64 buf padding proto =
      some (prefixFiller padding (buf.drop padding) proto ++ buf.drop padding) := by
  have hle : padding ≤ buf.length := le_of_lt hlt
  have htotal : padding + (buf.drop padding).length = buf.length := by
    rw [length_drop]
    omega
  rw [imitateFillPrefix, if_neg (by omega)]
  cases proto with
  | none => exact absurd rfl hproto
  | quic => exact writeQUICShort_eq hle _
  | stun => exact writeSTUN_eq hle _
  | dns => rw [imitateFill, prefixFiller, htotal, writeDNS_eq hpos hle]
  | sip =>
    rw [prefixFiller, htotal]
    exact writeSIP_eq hle _

/-! ## §6 Sizes -/

theorem quicFiller_length (seed : BitVec 32) (padding : ℕ) :
    (quicFiller seed padding).length = padding := by
  cases padding with
  | zero => rfl
  | succ n => simp [quicFiller]

theorem stunFiller_length (seed : BitVec 32) (padding : ℕ) :
    (stunFiller seed padding).length = padding := by
  have hattributes := (stunAttributes_length_le (stunBody padding)
    (lcgStep (lcgStep (lcgStep seed)))).trans (stunBody_le padding)
  unfold stunFiller
  generalize stunAttributes (stunBody padding) (lcgStep (lcgStep (lcgStep seed))) = attributes
    at hattributes ⊢
  have hheader : (stunHeader attributes.length (stunTxn seed)).length = 20 := rfl
  simp only [length_append, length_take, length_replicate, hheader]
  omega

theorem dnsFiller_length (txid : Byte × Byte) (padding total : ℕ) :
    (dnsFiller txid padding total).length = padding := by
  unfold dnsFiller
  split_ifs with hmin
  · have hfixed : ∀ q a rd, (dnsNullFixed txid q a rd).length = 28 := fun _ _ _ => rfl
    simp only [dnsNullFiller, length_append, length_take, length_replicate, hfixed]
    split_ifs <;> omega
  · have hquestion : dnsRootQuestion.length = 5 := rfl
    have hopt : ∀ rd len, (dnsOpt rd len).length = 15 := fun _ _ => rfl
    have hheader : (dnsHeader txid).length = 12 := rfl
    simp only [dnsOptFiller, length_append, length_replicate, hopt, hheader, hquestion,
      dnsHeaderLen]
    have : 32 ≤ padding := not_lt.mp hmin
    omega

theorem sipFragment_length (n : ℕ) : (sipFragment n).length = n := by
  have hfrag : (ascii "SIP/2.0 100 Trying\r\n").length = 20 := rfl
  have hend : (ascii "\r" ++ ascii "\n").length = 2 := rfl
  simp only [sipFragment, hfrag]
  split_ifs <;>
    simp only [length_append, length_take, length_replicate, hfrag, hend] <;> omega

theorem sipClose_length (hroom : text.length + 2 ≤ n) : (sipClose n text).length = n := by
  have hend : (ascii "\r" ++ ascii "\n").length = 2 := rfl
  rw [sipClose, length_append, length_append, length_replicate, hend]
  omega

theorem sipTextOf_room {status : Bytes} (hroom : status.length + 2 ≤ n)
    (lines : List Bytes) (total : ℕ) : (sipTextOf lines n total status).length + 2 ≤ n := by
  have hpacked := packLines_room hroom lines
  unfold sipTextOf
  dsimp only
  split_ifs
  · exact packLines_room hpacked _
  · exact hpacked

theorem sipFillerOf_length (draws : SipDraws) (n total : ℕ) :
    (sipFillerOf draws n total).length = n := by
  unfold sipFillerOf
  split
  · exact sipFragment_length n
  · next status hstatus =>
    exact sipClose_length (sipTextOf_room (sipStatusText_room hstatus) _ total)

theorem prefixFiller_length (padding : ℕ) (payload : Bytes)
    (hproto : proto ≠ .none) : (prefixFiller padding payload proto).length = padding := by
  cases proto with
  | none => exact absurd rfl hproto
  | quic => exact quicFiller_length _ _
  | dns => exact dnsFiller_length _ _ _
  | stun => exact stunFiller_length _ _
  | sip => exact sipFillerOf_length _ _ _

/-- Whatever the protocol, the padding is overwritten and the rest of the buffer stays. -/
theorem fillPadding_eq (proto : ImitateProto) (random : ℕ → Byte)
    (hpos : 0 < padding) (hlt : padding < buf.length) : ∃ filler, filler.length = padding ∧
      fillPadding 64 proto random buf padding = some (filler ++ buf.drop padding) := by
  unfold fillPadding
  by_cases hproto : proto = .none
  · refine ⟨randRead random padding, by simp [randRead], ?_⟩
    rw [if_neg (not_not.mpr hproto)]
    exact onPadding_eq (le_of_lt hlt) fun p hp => by rw [hp]
  · refine ⟨_, prefixFiller_length padding (buf.drop padding) hproto, ?_⟩
    rw [if_pos hproto, imitateFillPrefix_eq hpos hlt hproto]

/-! ## §7 What the filler depends on -/

theorem sipStatusTextAt_room {statusIdx : ℤ} {ks : List ℕ} {line : Bytes}
    (h : sipStatusTextAt n statusIdx ks = some (some line)) : line.length + 2 ≤ n := by
  induction ks with
  | nil => cases h
  | cons k ks ih =>
    rw [sipStatusTextAt] at h
    obtain ⟨s, -, h⟩ := bind_eq_some_iff.mp h
    split_ifs at h with hfit
    · cases h
      exact hfit
    · exact ih h

theorem sipFillerAt_length {w : ℕ} {seed : BitVec 32} {total : ℕ}
    (h : sipFillerAt w seed n total = some filler) : filler.length = n := by
  unfold sipFillerAt at h
  generalize sipDraws seed = draws at h
  split_ifs at h with hzero
  · cases h
    exact hzero.symm
  · obtain ⟨host, -, h⟩ := bind_eq_some_iff.mp h
    obtain ⟨method, -, h⟩ := bind_eq_some_iff.mp h
    obtain ⟨text, htext, h⟩ := bind_eq_some_iff.mp h
    cases text with
    | none =>
      cases h
      exact sipFragment_length n
    | some status =>
      cases h
      exact sipClose_length (sipTextOf_room (sipStatusTextAt_room htext) _ total)

/-- What is put in front of a payload, with an `int` of `w` bits; `none` is a panic. -/
def prefixFillerAt (w padding : ℕ) (payload : Bytes) : ImitateProto → Option Bytes
  | .sip => sipFillerAt w (fnv1aSeed payload) padding (padding + payload.length)
  | proto => some (prefixFiller padding payload proto)

/-- A whole datagram, with an `int` of `w` bits; `none` is a panic. -/
def wholeFillerAt (w n : ℕ) (seed : BitVec 32) : ImitateProto → Option Bytes
  | .quic => some (quicFiller seed n)
  | .dns => some (dnsFiller ((seed >>> 8).setWidth 8, seed.setWidth 8) n n)
  | .stun => some (stunFiller seed n)
  | .sip => sipFillerAt w seed n n
  | .none => some []

theorem imitateFillPrefix_eq_map (w : ℕ) (hpos : 0 < padding)
    (hlt : padding < buf.length) (hproto : proto ≠ .none) : imitateFillPrefix w buf padding proto =
      (prefixFillerAt w padding (buf.drop padding) proto).map (· ++ buf.drop padding) := by
  cases proto with
  | none => exact absurd rfl hproto
  | quic | dns | stun => exact imitateFillPrefix_eq hpos hlt hproto
  | sip =>
    have htotal : padding + (buf.drop padding).length = buf.length := by
      rw [length_drop]
      omega
    rw [imitateFillPrefix, if_neg (by omega), prefixFillerAt, htotal]
    exact writeSIP_eq_map w (le_of_lt hlt) _

theorem prefixFillerAt_length {w : ℕ} {payload : Bytes} (hproto : proto ≠ .none)
    (h : prefixFillerAt w padding payload proto = some filler) : filler.length = padding := by
  cases proto with
  | none => exact absurd rfl hproto
  | quic | dns | stun =>
    cases h
    exact prefixFiller_length padding payload hproto
  | sip => exact sipFillerAt_length h

theorem imitateFillWhole_eq (w : ℕ) (buf : Bytes) (seed : BitVec 32) (hproto : proto ≠ .none) :
    imitateFillWhole w buf seed proto = wholeFillerAt w buf.length seed proto := by
  have hnothing : buf.drop buf.length = [] := drop_length
  cases proto with
  | none => exact absurd rfl hproto
  | quic =>
    rw [imitateFillWhole, writeQUICShort_eq (le_refl _), hnothing, append_nil]
    rfl
  | stun =>
    rw [imitateFillWhole, writeSTUN_eq (le_refl _), hnothing, append_nil]
    rfl
  | dns =>
    rw [imitateFillWhole, writeDNSWhole]
    split_ifs with hempty
    · rw [length_eq_zero_iff.mp hempty]
      rfl
    · rw [writeDNSMsg_eq (le_refl _), hnothing, append_nil]
      rfl
  | sip =>
    rw [imitateFillWhole, writeSIP_eq_map w (le_refl _), hnothing, wholeFillerAt]
    simp

/-- Imitation changes nothing behind the padding, and what it writes depends on the protocol, the
sizes, and the payload or the seed alone, whatever was in the buffer before. -/
theorem imitation_confined (w : ℕ) (proto : ImitateProto) (hproto : proto ≠ .none) :
    (∀ buf padding, 0 < padding → padding < buf.length →
      (∀ out, imitateFillPrefix w buf padding proto = some out →
        out.length = buf.length ∧ out.drop padding = buf.drop padding) ∧
      (w = 64 → (imitateFillPrefix w buf padding proto).isSome)) ∧
    (∀ buf buf' padding, 0 < padding → padding < buf.length → buf.length = buf'.length →
      buf.drop padding = buf'.drop padding →
      imitateFillPrefix w buf padding proto = imitateFillPrefix w buf' padding proto) ∧
    (∀ buf buf' seed, buf.length = buf'.length →
      imitateFillWhole w buf seed proto = imitateFillWhole w buf' seed proto) := by
  refine ⟨?_, ?_, ?_⟩
  · intro buf padding hpos hlt
    constructor
    · intro out hout
      rw [imitateFillPrefix_eq_map w hpos hlt hproto] at hout
      obtain ⟨filler, hfiller, rfl⟩ := map_eq_some_iff.mp hout
      have hlen := prefixFillerAt_length hproto hfiller
      refine ⟨?_, drop_left' hlen⟩
      rw [length_append, hlen, length_drop]
      omega
    · rintro rfl
      rw [imitateFillPrefix_eq hpos hlt hproto]
      rfl
  · -- the seed and the transaction ID come from the bytes behind the padding
    intro buf buf' padding hpos hlt hlen htail
    rw [imitateFillPrefix_eq_map w hpos hlt hproto,
      imitateFillPrefix_eq_map w hpos (hlen ▸ hlt) hproto, htail]
  · intro buf buf' seed hlen
    rw [imitateFillWhole_eq w buf seed hproto, imitateFillWhole_eq w buf' seed hproto, hlen]

/-- Two buffers that differ in the padding only give one STUN datagram. -/
theorem imitation_confined_stun :
    imitateFillPrefix 64 (List.replicate 24 0xAA ++ [1, 2, 3, 4]) 24 .stun =
      imitateFillPrefix 64 (List.replicate 24 0x55 ++ [1, 2, 3, 4]) 24 .stun :=
  (imitation_confined 64 .stun (by decide)).2.1 _ _ 24 (by decide) (by decide) rfl rfl

end AmneziaWG.Device
