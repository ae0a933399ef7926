import AmneziaWG.Device.Obf.Chain
import AmneziaWG.Lib.Buffer

/-!
# Protocol Imitation

Embedding of the padding writers of `device/obf_imitate.go`.  A writer fills the first
`padding` bytes of a buffer; `none` is a panic (an index or a slice out of range).

`int` has `w` bits.  All lengths and positions are far from its bounds; the width matters in
one place, where `writeSIP` converts a 32-bit draw to `int` before it takes a remainder.
-/

namespace AmneziaWG.Device

open AmneziaWG.Lib

/-! ## §1 Seeds and draws -/

/-- `fnv1aSeed`: FNV-1a over the first 64 bytes. -/
def fnv1aSeed (payload : Bytes) : BitVec 32 :=
  let n := if payload.length > 64 then 64 else payload.length
  (payload.take n).foldl (fun state b => (state ^^^ b.setWidth 32) * 0x01000193) 0x811c9dc5

def imitateJunkSeed (n : BitVec 64) : BitVec 32 :=
  fnv1aSeed (leBytes 8 n.toNat)

def lcgStep (state : BitVec 32) : BitVec 32 :=
  state * 1103515245 + 12345

/-- Run a writer on `buf[:padding]`. -/
def onPadding (buf : Bytes) (padding : ℕ) (write : Bytes → Option Bytes) : Option Bytes :=
  if padding ≤ buf.length then (write (buf.take padding)).map (· ++ buf.drop padding) else none

/-! ## §2 QUIC -/

/-- The bytes behind the first: the middle byte of each state, not the low byte. -/
def quicByte (state : BitVec 32) : Byte × BitVec 32 :=
  ((state >>> 16).setWidth 8, lcgStep state)

def writeQUICShort (buf : Bytes) (padding : ℕ) (seed : BitVec 32) : Option Bytes :=
  onPadding buf padding fun p =>
    if p.length = 0 then some p
    else do
      let state := seed
      -- short header first byte: 0 1 S R R K P P
      let spin : Byte := (state >>> 8).setWidth 8 &&& 0x01
      let state := lcgStep state
      let keyPhase : Byte := (state >>> 8).setWidth 8 &&& 0x01
      let state := lcgStep state
      let pnLenBits : Byte := state.setWidth 8 &&& 0x03
      let state := lcgStep state
      let n := p.length
      let p ← writeAt p 0 [0x40 ||| (spin <<< 5) ||| (keyPhase <<< 2) ||| pnLenBits]
      writeLoop quicByte (n - 1) state 1 p

/-! ## §3 STUN -/

def stunCookie : BitVec 32 := 0x2112A442

/-- The transaction ID: three draws, written into twelve bytes. -/
def stunTransactionID (seed : BitVec 32) : Option (Bytes × BitVec 32) :=
  [0, 4, 8].foldlM
    (fun (txn, state) i => (writeAt txn i (be32 state)).map fun txn => (txn, lcgStep state))
    (List.replicate 12 0, seed)

/-- The attribute XOR-MAPPED-ADDRESS at `off`. -/
def putXorMappedAddress (p : Bytes) (off : ℕ) (port : BitVec 16) (addr : BitVec 32) :
    Option Bytes := do
  let xport := port ^^^ (stunCookie >>> 16).setWidth 16
  let xaddr := addr ^^^ stunCookie
  let p ← writeAt p off (be16 0x0020)
  let p ← writeAt p (off + 2) (be16 8)
  let p ← writeAt p (off + 4) [0x00]
  let p ← writeAt p (off + 5) [0x01]
  let p ← writeAt p (off + 6) (be16 xport)
  writeAt p (off + 8) (be32 xaddr)

/-- A printable character for each draw. -/
def stunSoftwareByte (state : BitVec 32) : Byte × BitVec 32 :=
  (0x20 + (state % 0x5F).setWidth 8, lcgStep state)

/-- The attribute SOFTWARE at `off`, with a value of `vlen` bytes. -/
def putSoftware (p : Bytes) (off vlen : ℕ) (state : BitVec 32) : Option Bytes := do
  let p ← writeAt p off (be16 0x8022)
  let p ← writeAt p (off + 2) (be16 (BitVec.ofNat 16 vlen))
  writeLoop stunSoftwareByte vlen state (off + 4) p

/-- The room for attributes; the length of a message is a multiple of four. -/
def stunBody (padding : ℕ) : ℕ :=
  if padding > 20 then andNot (padding - 20) 0b11 else 0

/-- XOR-MAPPED-ADDRESS, when there is room; also the bytes written. -/
def stunPutAddress (p : Bytes) (body : ℕ) (state : BitVec 32) :
    Option (Bytes × BitVec 32 × ℕ) :=
  if body ≥ 12 then
    let port := (state >>> 16).setWidth 16
    let addr := lcgStep state
    (putXorMappedAddress p 20 port addr).map fun p => (p, lcgStep addr, 12)
  else some (p, state, 0)

/-- The length of the value of SOFTWARE in `remaining` bytes, which RFC 5389 bounds. -/
def stunSoftwareLen (remaining : ℕ) : ℕ :=
  if remaining - 4 > 124 then 124 else remaining - 4

/-- SOFTWARE fills the rest of the body. -/
def stunPutSoftware (p : Bytes) (body written : ℕ) (state : BitVec 32) : Option (Bytes × ℕ) :=
  let remaining := body - written
  if remaining ≥ 4 then
    let vlen := stunSoftwareLen remaining
    (putSoftware p (20 + written) vlen state).map fun p => (p, written + (4 + vlen))
  else some (p, written)

def stunHeader (written : ℕ) (txn : Bytes) : Bytes :=
  be16 0x0101 ++ be16 (BitVec.ofNat 16 written) ++ be32 stunCookie ++ txn

/-- The header, which advertises what was written and never `body`, and zeros behind. -/
def stunFinish (p : Bytes) (written : ℕ) (txn : Bytes) : Option Bytes := do
  let n := p.length
  let copyLen := if n > 20 then 20 else n
  let p ← writeAt p 0 ((stunHeader written txn).take copyLen)
  fillLoop 0x00 (n - (20 + written)) (20 + written) p

def writeSTUN (buf : Bytes) (padding : ℕ) (seed : BitVec 32) : Option Bytes :=
  onPadding buf padding fun p =>
    if p.length = 0 then some p
    else do
      let (txn, state) ← stunTransactionID seed
      let body := stunBody padding
      let (p, state, written) ← stunPutAddress p body state
      let (p, written) ← stunPutSoftware p body written state
      stunFinish p written txn

/-! ## §4 DNS -/

def dnsHeaderLen : ℕ := 12

def dnsRootQuestionLen : ℕ := 5

def dnsOptFixedLen : ℕ := 11

def dnsOptOptionHdrLen : ℕ := 4

def dnsOptMin : ℕ := dnsHeaderLen + dnsRootQuestionLen + dnsOptFixedLen + dnsOptOptionHdrLen

def dnsOptUDPSize : BitVec 16 := 1232

def dnsOptCoverCode : BitVec 16 := 0xFDE9

def clampU16 (v : ℤ) : BitVec 16 :=
  if v < 0 then 0 else if v > 0xFFFF then 0xFFFF else BitVec.ofInt 16 v

/-- The header of a response: one question, no answer, one additional record. -/
def dnsHeader (txid : Byte × Byte) : Bytes :=
  [txid.1, txid.2, 0x81, 0x80, 0x00, 0x01, 0x00, 0x00, 0x00, 0x00, 0x00, 0x01]

/-- The OPT record up to its option data. -/
def dnsOpt (rdlength optLen : BitVec 16) : Bytes :=
  [0x00, 0x00, 0x29] ++ be16 dnsOptUDPSize ++ [0x00, 0x00, 0x00, 0x00] ++ be16 rdlength ++
    be16 dnsOptCoverCode ++ be16 optLen

def writeDNSOptResponse (p : Bytes) (total : ℕ) (txid : Byte × Byte) (question : Bytes) :
    Option Bytes := do
  let optOff := dnsHeaderLen + question.length
  let rdlength := clampU16 (total - (optOff + dnsOptFixedLen))
  let optLen := clampU16 (total - (optOff + dnsOptFixedLen + dnsOptOptionHdrLen))
  let n := p.length
  let p ← writeAt p 0 (dnsHeader txid)
  let p ← writeAt p dnsHeaderLen question
  let opt := dnsOpt rdlength optLen
  let p ← writeAt p optOff opt
  fillLoop 0x00 (n - (optOff + opt.length)) (optOff + opt.length) p

/-- The legacy message with a record of type NULL. -/
def dnsNullFixed (txid : Byte × Byte) (qdcount ancount : Byte) (rdlength : BitVec 16) : Bytes :=
  [txid.1, txid.2, 0x81, 0x80, 0x00, qdcount, 0x00, ancount, 0x00, 0x00, 0x00, 0x00] ++
    [0x00, 0x00, 0x01, 0x00, 0x01] ++
    [0x00, 0x00, 0x0a, 0x00, 0x01, 0x00, 0x00, 0x00, 0x3c] ++ be16 rdlength

def writeDNSNull (buf : Bytes) (padding : ℕ) (txid : Byte × Byte) : Option Bytes :=
  let total := buf.length
  onPadding buf padding fun p =>
    if p.length = 0 then some p
    else do
      let qdcount : Byte := if padding ≥ 17 then 1 else 0
      let ancount : Byte := if padding ≥ 28 then 1 else 0
      let rdlength := clampU16 (total - 28)
      let fixed := dnsNullFixed txid qdcount ancount rdlength
      -- only sections that fit are advertised
      let advertised := if padding ≥ 28 then 28 else if padding ≥ 17 then 17 else 12
      let n := p.length
      let copyLen := if n < advertised then n else advertised
      let p ← writeAt p 0 (fixed.take copyLen)
      fillLoop 0x00 (n - copyLen) copyLen p

def dnsRootQuestion : Bytes := [0x00, 0x00, 0x01, 0x00, 0x01]

def writeDNSMsg (buf : Bytes) (padding : ℕ) (txid : Byte × Byte) : Option Bytes :=
  if padding < dnsOptMin then writeDNSNull buf padding txid
  else
    let total := buf.length
    onPadding buf padding fun p => writeDNSOptResponse p total txid dnsRootQuestion

/-- `writeDNS`: the transaction ID comes from the payload. -/
def writeDNS (buf : Bytes) (padding : ℕ) (_seed : BitVec 32) : Option Bytes :=
  if padding = 0 then some buf
  else do
    let payload ← sliceFrom buf padding
    let txid := (payload[0]?.getD 0, payload[1]?.getD 0)
    writeDNSMsg buf padding txid

/-- `writeDNSWhole`: the transaction ID comes from the seed. -/
def writeDNSWhole (buf : Bytes) (seed : BitVec 32) : Option Bytes :=
  let padding := buf.length
  if padding = 0 then some buf
  else writeDNSMsg buf padding ((seed >>> 8).setWidth 8, seed.setWidth 8)

/-! ## §5 SIP -/

/-- The loop of `decimalDigits`; every iteration divides the value by ten. -/
def decimalDigitsFrom : ℕ → ℕ → ℕ → ℕ
  | 0, _, digits => digits
  | fuel + 1, value, digits =>
    if value ≥ 10 then decimalDigitsFrom fuel (value / 10) (digits + 1) else digits

def decimalDigits (value : ℕ) : ℕ := decimalDigitsFrom value value 1

def sipStatus : List Bytes := [ascii "100 Trying", ascii "180 Ringing", ascii "200 OK"]

def sipHosts : List Bytes :=
  [ascii "sip.example.com", ascii "pbx.example.net", ascii "voip.example.org"]

def sipMethods : List Bytes := [ascii "INVITE", ascii "OPTIONS", ascii "REGISTER"]

def drawInt (w : ℕ) (v : BitVec 32) : ℤ := wrapInt w v.toNat

def indexInt {α : Type} (l : List α) (i : ℤ) : Option α :=
  if 0 ≤ i then l[i.toNat]? else none

/-- The region that is filled, and how far. -/
structure SipState where
  p : Bytes
  pos : ℕ

/-- `putLine`: write a line when it and the closing blank line still fit. -/
def SipState.putLine (st : SipState) (line : Bytes) : Option (SipState × Bool) :=
  if st.pos + line.length + 2 ≤ st.p.length then
    (writeAt st.p st.pos line).map fun p => (⟨p, st.pos + line.length⟩, true)
  else some (st, false)

/-- A chain `putLine(…) && putLine(…) && …`. -/
def SipState.putLines (st : SipState) : List Bytes → Option (SipState × Bool)
  | [] => some (st, true)
  | line :: lines => do
    let (st, ok) ← st.putLine line
    if ok then st.putLines lines else some (st, false)

def sipStatusLine (status : Bytes) : Bytes :=
  ascii "SIP/2.0 " ++ status ++ ascii "\r\n"

def sipViaLine (host : Bytes) (branch : BitVec 32) : Bytes :=
  ascii "Via: SIP/2.0/UDP " ++ host ++ ascii ":5060;branch=z9hG4bK" ++ hex8 branch ++
    ascii ";rport\r\n"

def sipFromLine (host : Bytes) (fromTag : BitVec 32) : Bytes :=
  ascii "From: <sip:caller@" ++ host ++ ascii ">;tag=" ++ hex8 fromTag ++ ascii "\r\n"

def sipToLine (host : Bytes) (toTag : BitVec 32) : Bytes :=
  ascii "To: <sip:callee@" ++ host ++ ascii ">;tag=" ++ hex8 toTag ++ ascii "\r\n"

def sipCallIDLine (callID : BitVec 32) (host : Bytes) : Bytes :=
  ascii "Call-ID: " ++ hex8 callID ++ ascii "@" ++ host ++ ascii "\r\n"

def sipCSeqLine (cseq : BitVec 32) (method : Bytes) : Bytes :=
  ascii "CSeq: " ++ decimal cseq.toNat ++ ascii " " ++ method ++ ascii "\r\n"

/-- The draws of a message, in the order of the source. -/
structure SipDraws where
  status : BitVec 32
  host : BitVec 32
  method : BitVec 32
  branch : BitVec 32
  fromTag : BitVec 32
  toTag : BitVec 32
  callID : BitVec 32
  cseq : BitVec 32

/-- Seven draws; the last value reads the state that is left. -/
def sipDraws (seed : BitVec 32) : SipDraws :=
  let st₁ := lcgStep seed
  let st₂ := lcgStep st₁
  let st₃ := lcgStep st₂
  let st₄ := lcgStep st₃
  let st₅ := lcgStep st₄
  let st₆ := lcgStep st₅
  let st₇ := lcgStep st₆
  { status := seed, host := st₁, method := st₂, branch := st₃, fromTag := st₄, toTag := st₅,
    callID := st₆, cseq := 1 + st₇ % 100000 }

def SipDraws.lines (draws : SipDraws) (host method : Bytes) : List Bytes :=
  [sipViaLine host draws.branch, sipFromLine host draws.fromTag, sipToLine host draws.toTag,
    sipCallIDLine draws.callID host, sipCSeqLine draws.cseq method]

/-- The line with one space behind the colon, or with two. -/
def sipContentLengthLine (sws body : ℕ) : Bytes :=
  (if sws = 1 then ascii "Content-Length: " else ascii "Content-Length:  ") ++ decimal body ++
    ascii "\r\n"

/-- The status loop: the first status line, from `statusIdx` on, that fits. -/
def SipState.putStatus (st : SipState) (statusIdx : ℤ) : List ℕ → Option (SipState × Bool)
  | [] => some (st, false)
  | k :: ks => do
    let s ← indexInt sipStatus ((statusIdx + k).tmod 3)
    let (st, ok) ← st.putLine (sipStatusLine s)
    if ok then some (st, true) else st.putStatus statusIdx ks

/-- The fragment for regions that no status line fits. -/
def writeSIPFragment (p : Bytes) : Option Bytes := do
  let length := p.length
  let frag := ascii "SIP/2.0 100 Trying\r\n"
  let take := if frag.length > length then length else frag.length
  let p ← writeAt p 0 (frag.take take)
  let p ← fillLoop 0x20 (length - take) take p
  if length ≥ 2 then do
    let p ← writeAt p (length - 2) (ascii "\r")
    writeAt p (length - 1) (ascii "\n")
  else some p

/-- The inner loop of the search, with `left` iterations to go.  The result is `some` when the
line has been found and written. -/
def SipState.searchDigits (st : SipState) (totalLen sws : ℕ) :
    ℕ → ℕ → Option (Option SipState)
  | 0, _ => some none
  | left + 1, digits =>
    let headerEnd := st.pos + 15 + sws + digits + 4
    if headerEnd > st.p.length then some none
    else if decimalDigits (totalLen - headerEnd) = digits then
      (st.putLine (sipContentLengthLine sws (totalLen - headerEnd))).map fun r => some r.1
    else st.searchDigits totalLen sws left (digits + 1)

/-- The search for a `Content-Length` that counts its own digits right. -/
def SipState.putContentLength (st : SipState) (totalLen : ℕ) : List ℕ → Option SipState
  | [] => some st
  | sws :: more => do
    match ← st.searchDigits totalLen sws (decimalDigits totalLen) 1 with
    | some st => some st
    | none => st.putContentLength totalLen more

/-- The closing blank line, and spaces. -/
def SipState.close (st : SipState) : Option Bytes := do
  let length := st.p.length
  if st.pos + 2 ≤ length then do
    let p ← writeAt st.p st.pos (ascii "\r")
    let p ← writeAt p (st.pos + 1) (ascii "\n")
    fillLoop 0x20 (length - (st.pos + 2)) (st.pos + 2) p
  else fillLoop 0x20 (length - st.pos) st.pos st.p

def writeSIP (w : ℕ) (buf : Bytes) (padding : ℕ) (seed : BitVec 32) : Option Bytes :=
  let totalLen := buf.length
  onPadding buf padding fun p =>
    if p.length = 0 then some p
    else do
      let draws := sipDraws seed
      let statusIdx := (drawInt w draws.status).tmod 3
      let host ← indexInt sipHosts ((drawInt w draws.host).tmod 3)
      let method ← indexInt sipMethods ((drawInt w draws.method).tmod 3)
      let (st, statusWritten) ← (SipState.mk p 0).putStatus statusIdx [0, 1, 2]
      if !statusWritten then writeSIPFragment st.p
      else do
        let (st, allMandatory) ← st.putLines (draws.lines host method)
        let st ← if allMandatory then st.putContentLength totalLen [1, 2] else some st
        st.close

/-! ## §6 Dispatch -/

def imitateFill (w : ℕ) (buf : Bytes) (padding : ℕ) (seed : BitVec 32) :
    ImitateProto → Option Bytes
  | .quic => writeQUICShort buf padding seed
  | .dns => writeDNS buf padding seed
  | .stun => writeSTUN buf padding seed
  | .sip => writeSIP w buf padding seed
  | .none => some buf

def imitateFillPrefix (w : ℕ) (buf : Bytes) (padding : ℕ) (p : ImitateProto) : Option Bytes :=
  if padding = 0 ∨ padding ≥ buf.length then some buf
  else imitateFill w buf padding (fnv1aSeed (buf.drop padding)) p

def imitateFillWhole (w : ℕ) (buf : Bytes) (seed : BitVec 32) : ImitateProto → Option Bytes
  | .quic => writeQUICShort buf buf.length seed
  | .dns => writeDNSWhole buf seed
  | .stun => writeSTUN buf buf.length seed
  | .sip => writeSIP w buf buf.length seed
  | .none => some buf

/-- `rand.Read` on a buffer of `n` bytes; `random` holds the bytes that the source delivers. -/
def randRead (random : ℕ → Byte) (n : ℕ) : Bytes := (List.range n).map random

def fillPadding (w : ℕ) (proto : ImitateProto) (random : ℕ → Byte) (buf : Bytes) (padding : ℕ) :
    Option Bytes :=
  if proto ≠ .none then imitateFillPrefix w buf padding proto
  else onPadding buf padding fun p => some (randRead random p.length)

/-- `fillJunk`; `counter` is the junk counter after its increment. -/
def fillJunk (w : ℕ) (proto : ImitateProto) (random : ℕ → Byte) (counter : BitVec 64)
    (buf : Bytes) : Option Bytes :=
  if proto ≠ .none then imitateFillWhole w buf (imitateJunkSeed counter) proto
  else some (randRead random buf.length)

end AmneziaWG.Device
