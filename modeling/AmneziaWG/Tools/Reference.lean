import AmneziaWG.Lib.Buffer
import AmneziaWG.Lib.Text

/-!
# The Reference Padding Writers

Embedding of `apply_padding` and its writers, in Rust, from
`tools/imitate-vectors/src/reference.rs`.  `none` is a panic.

Lines of the SIP writer are formatted into a scratch buffer of 128 bytes first, and a line
that does not fit there is not written.
-/

namespace AmneziaWG.Tools.Reference

open AmneziaWG.Lib

inductive Protocol where
  | quic
  | dns
  | stun
  | sip
  deriving DecidableEq, Repr

/-- `DnsEcho`: the query that a response mirrors. -/
structure DnsEcho where
  txid : Byte × Byte
  qname : Bytes
  qtype : Byte × Byte

/-! ## §1 Seeds and draws -/

def fnv1aSeed (payload : Bytes) : BitVec 32 :=
  (payload.take 64).foldl (fun state b => (state ^^^ b.setWidth 32) * 0x01000193) 0x811c9dc5

def lcgStep (state : BitVec 32) : BitVec 32 :=
  state * 1103515245 + 12345

/-- `data.split_at_mut(pad_size)`, and a writer for the left half that may read the right one. -/
def splitAtMut (data : Bytes) (padSize : ℕ) (write : Bytes → Bytes → Option Bytes) :
    Option Bytes :=
  if padSize ≤ data.length then
    (write (data.take padSize) (data.drop padSize)).map (· ++ data.drop padSize)
  else none

/-! ## §2 QUIC -/

def quicByte (state : BitVec 32) : Byte × BitVec 32 :=
  ((state >>> 16).setWidth 8, lcgStep state)

def applyQuicPaddingShort (data : Bytes) (padSize : ℕ) : Option Bytes :=
  splitAtMut data padSize fun padding payload =>
    if padding.isEmpty then some padding
    else do
      let state := fnv1aSeed payload
      let spin : Byte := (state >>> 8).setWidth 8 &&& 0x01
      let state := lcgStep state
      let keyPhase : Byte := (state >>> 8).setWidth 8 &&& 0x01
      let state := lcgStep state
      let pnLenBits : Byte := state.setWidth 8 &&& 0x03
      let state := lcgStep state
      let padding ← writeAt padding 0 [0x40 ||| (spin <<< 5) ||| (keyPhase <<< 2) ||| pnLenBits]
      onRange padding 1 padding.length (iterMut quicByte state)

/-! ## §3 DNS -/

def dnsHeaderLen : ℕ := 12

def dnsRootQuestionLen : ℕ := 5

def dnsOptFixedLen : ℕ := 11

def dnsOptOptionHdrLen : ℕ := 4

def dnsOptMin : ℕ := dnsHeaderLen + dnsRootQuestionLen + dnsOptFixedLen + dnsOptOptionHdrLen

def dnsOptUdpSize : BitVec 16 := 1232

def dnsOptCoverCode : BitVec 16 := 0xFDE9

/-- `a.saturating_sub(b).min(u16::MAX as usize) as u16`. -/
def saturatingSubU16 (a b : ℕ) : BitVec 16 := BitVec.ofNat 16 (min (a - b) 0xFFFF)

def writeDnsOptResponse (padding : Bytes) (totalLen : ℕ) (txid : Byte × Byte)
    (question : Bytes) : Option Bytes := do
  let optOff := dnsHeaderLen + question.length
  let rdlength := saturatingSubU16 totalLen (optOff + dnsOptFixedLen)
  let optLen := saturatingSubU16 totalLen (optOff + dnsOptFixedLen + dnsOptOptionHdrLen)
  let padding ← writeAt padding 0
    [txid.1, txid.2, 0x81, 0x80, 0x00, 0x01, 0x00, 0x00, 0x00, 0x00, 0x00, 0x01]
  let padding ← writeAt padding dnsHeaderLen question
  let opt := [0x00, 0x00, 0x29] ++ be16 dnsOptUdpSize ++ [0x00, 0x00, 0x00, 0x00] ++
    be16 rdlength ++ be16 dnsOptCoverCode ++ be16 optLen
  let padding ← writeAt padding optOff opt
  onRange padding (optOff + opt.length) padding.length (iterFill 0x00)

def applyDnsPaddingNull (data : Bytes) (padSize : ℕ) : Option Bytes :=
  let totalLen := data.length
  splitAtMut data padSize fun padding payload =>
    if padding.isEmpty then some padding
    else do
      let txHi := payload[0]?.getD 0
      let txLo := payload[1]?.getD 0
      let qdcount : Byte := if padSize ≥ 17 then 1 else 0
      let ancount : Byte := if padSize ≥ 28 then 1 else 0
      let rdlength := saturatingSubU16 totalLen 28
      let fixed := [txHi, txLo, 0x81, 0x80, 0x00, qdcount, 0x00, ancount, 0x00, 0x00, 0x00, 0x00] ++
        [0x00, 0x00, 0x01, 0x00, 0x01] ++
        [0x00, 0x00, 0x0a, 0x00, 0x01, 0x00, 0x00, 0x00, 0x3c] ++ be16 rdlength
      let advertisedLen := if padSize ≥ 28 then 28 else if padSize ≥ 17 then 17 else 12
      let copyLen := min padding.length advertisedLen
      let padding ← writeAt padding 0 (fixed.take copyLen)
      onRange padding copyLen padding.length (iterFill 0x00)

def applyDnsPadding (data : Bytes) (padSize : ℕ) (echo : Option DnsEcho) : Option Bytes :=
  if padSize = 0 then some data
  else if padSize < dnsOptMin then applyDnsPaddingNull data padSize
  else
    let totalLen := data.length
    splitAtMut data padSize fun padding payload =>
      let root := ([0x00, 0x00, 0x01, 0x00, 0x01], (payload[0]?.getD 0, payload[1]?.getD 0))
      let (question, txid) : Bytes × Byte × Byte :=
        match echo with
        | some e =>
          -- the name is echoed when it fits the buffer for questions and the padding
          if e.qname.length + 4 ≤ 259 ∧
              dnsHeaderLen + e.qname.length + 4 + dnsOptFixedLen + dnsOptOptionHdrLen ≤ padSize then
            (e.qname ++ [e.qtype.1, e.qtype.2] ++ [0x00, 0x01], e.txid)
          else root
        | none => root
      writeDnsOptResponse padding totalLen txid question

/-! ## §4 STUN -/

def stunCookie : BitVec 32 := 0x2112A442

def stunSoftwareByte (state : BitVec 32) : Byte × BitVec 32 :=
  (0x20 + (state % 0x5F).setWidth 8, lcgStep state)

/-- The loop over the three chunks of the transaction ID. -/
def fillChunks (state : BitVec 32) : ℕ → Bytes × BitVec 32
  | 0 => ([], state)
  | chunks + 1 =>
    let (rest, final) := fillChunks (lcgStep state) chunks
    (be32 state ++ rest, final)

/-- The attribute area: `body`. -/
def stunBody (padSize : ℕ) : ℕ :=
  if padSize > 20 then andNot (padSize - 20) 0b11 else 0

/-- XOR-MAPPED-ADDRESS, when there is room; also the bytes written. -/
def stunPutAddress (padding : Bytes) (body : ℕ) (state : BitVec 32) :
    Option (Bytes × BitVec 32 × ℕ) :=
  if body ≥ 12 then do
    let port : BitVec 16 := (state >>> 16).setWidth 16
    let addr := lcgStep state
    let xport := port ^^^ (stunCookie >>> 16).setWidth 16
    let xaddr := addr ^^^ stunCookie
    let off := 20
    let padding ← writeAt padding off (be16 0x0020)
    let padding ← writeAt padding (off + 2) (be16 8)
    let padding ← writeAt padding (off + 4) [0x00]
    let padding ← writeAt padding (off + 5) [0x01]
    let padding ← writeAt padding (off + 6) (be16 xport)
    let padding ← writeAt padding (off + 8) (be32 xaddr)
    some (padding, lcgStep addr, 12)
  else some (padding, state, 0)

/-- SOFTWARE, when there is room for its header. -/
def stunPutSoftware (padding : Bytes) (body written : ℕ) (state : BitVec 32) :
    Option (Bytes × ℕ) :=
  let remaining := body - written
  if remaining ≥ 4 then do
    let vlen := min (remaining - 4) 124
    let off := 20 + written
    let padding ← writeAt padding off (be16 0x8022)
    let padding ← writeAt padding (off + 2) (be16 (BitVec.ofNat 16 vlen))
    let padding ← onRange padding (off + 4) (off + 4 + vlen) (iterMut stunSoftwareByte state)
    some (padding, written + (4 + vlen))
  else some (padding, written)

/-- The header, and zeros behind the message. -/
def stunFinish (padding : Bytes) (written : ℕ) (txn : Bytes) : Option Bytes := do
  let header := be16 0x0101 ++ be16 (BitVec.ofNat 16 written) ++ be32 stunCookie ++ txn
  let copyLen := min padding.length header.length
  let padding ← writeAt padding 0 (header.take copyLen)
  -- `get_mut` is `None` when the header itself did not fit
  if 20 + written ≤ padding.length then
    onRange padding (20 + written) padding.length (iterFill 0x00)
  else some padding

def applyStunPadding (data : Bytes) (padSize : ℕ) : Option Bytes :=
  splitAtMut data padSize fun padding payload =>
    if padding.isEmpty then some padding
    else do
      let (txn, state) := fillChunks (fnv1aSeed payload) 3
      let body := stunBody padSize
      let (padding, state, written) ← stunPutAddress padding body state
      let (padding, written) ← stunPutSoftware padding body written state
      stunFinish padding written txn

/-! ## §5 SIP -/

/-- The loop of `decimal_digits`. -/
def decimalDigitsFrom : ℕ → ℕ → ℕ → ℕ
  | 0, _, digits => digits
  | fuel + 1, value, digits =>
    if value ≥ 10 then decimalDigitsFrom fuel (value / 10) (digits + 1) else digits

def decimalDigits (value : ℕ) : ℕ := decimalDigitsFrom value value 1

structure SliceWriter where
  buf : Bytes
  len : ℕ

/-- `write_str`; `none` is `Err`. -/
def SliceWriter.writeStr (w : SliceWriter) (s : Bytes) : Option SliceWriter :=
  let stop := w.len + s.length
  if stop > w.buf.length then none
  else (writeAt w.buf w.len s).map fun buf => ⟨buf, stop⟩

/-- `write!`: the pieces of the format, in turn; what was written before an error stays. -/
def SliceWriter.writeAll (w : SliceWriter) : List Bytes → SliceWriter × Bool
  | [] => (w, true)
  | s :: rest =>
    match w.writeStr s with
    | none => (w, false)
    | some w => w.writeAll rest

/-- The region that is filled, how far, and the scratch buffer. -/
structure SipState where
  padding : Bytes
  pos : ℕ
  scratch : Bytes

/-- `put_line!`. -/
def SipState.putLine (st : SipState) (pieces : List Bytes) : Option (SipState × Bool) :=
  let (w, isOk) := SliceWriter.writeAll ⟨st.scratch, 0⟩ pieces
  let st := { st with scratch := w.buf }
  if isOk ∧ st.pos + w.len + 2 ≤ st.padding.length then
    (writeAt st.padding st.pos (st.scratch.take w.len)).map fun padding =>
      ({ st with padding, pos := st.pos + w.len }, true)
  else some (st, false)

/-- A chain `put_line!(…) && put_line!(…) && …`. -/
def SipState.putLines (st : SipState) : List (List Bytes) → Option (SipState × Bool)
  | [] => some (st, true)
  | line :: lines => do
    let (st, ok) ← st.putLine line
    if ok then st.putLines lines else some (st, false)

def sipStatus : List Bytes := [ascii "100 Trying", ascii "180 Ringing", ascii "200 OK"]

def sipHosts : List Bytes :=
  [ascii "sip.example.com", ascii "pbx.example.net", ascii "voip.example.org"]

def sipMethods : List Bytes := [ascii "INVITE", ascii "OPTIONS", ascii "REGISTER"]

/-- The status loop. -/
def SipState.putStatus (st : SipState) (statusIdx : ℕ) : List ℕ → Option (SipState × Bool)
  | [] => some (st, false)
  | k :: ks => do
    let status ← sipStatus[(statusIdx + k) % 3]?
    let (st, ok) ← st.putLine [ascii "SIP/2.0 ", status, ascii "\r\n"]
    if ok then some (st, true) else st.putStatus statusIdx ks

/-- The fragment for regions that no status line fits. -/
def writeSipFragment (padding : Bytes) : Option Bytes := do
  let len := padding.length
  let frag := ascii "SIP/2.0 100 Trying\r\n"
  let take := min frag.length len
  let padding ← writeAt padding 0 (frag.take take)
  let padding ← onRange padding take padding.length (iterFill 0x20)
  if len ≥ 2 then do
    let padding ← writeAt padding (len - 2) (ascii "\r")
    writeAt padding (len - 1) (ascii "\n")
  else some padding

/-- The loop over the digits, with `left` iterations to go.  The result is `some` when the
line has been found. -/
def SipState.searchDigits (st : SipState) (totalLen sws : ℕ) : ℕ → ℕ → Option (Option SipState)
  | 0, _ => some none
  | left + 1, digits =>
    let headerEnd := st.pos + (ascii "Content-Length:").length + sws + digits +
      (ascii "\r\n\r\n").length
    if headerEnd > st.padding.length then some none
    else if decimalDigits (totalLen - headerEnd) = digits then
      let body := totalLen - headerEnd
      (st.putLine (if sws = 1 then [ascii "Content-Length: ", decimal body, ascii "\r\n"]
        else [ascii "Content-Length:  ", decimal body, ascii "\r\n"])).map fun r => some r.1
    else st.searchDigits totalLen sws left (digits + 1)

/-- The search for the `Content-Length`. -/
def SipState.putContentLength (st : SipState) (totalLen : ℕ) : List ℕ → Option SipState
  | [] => some st
  | sws :: more => do
    match ← st.searchDigits totalLen sws (decimalDigits totalLen) 1 with
    | some st => some st
    | none => st.putContentLength totalLen more

/-- The closing blank line, and spaces. -/
def SipState.close (st : SipState) : Option Bytes := do
  let (padding, pos) ←
    if st.pos + 2 ≤ st.padding.length then do
      let padding ← writeAt st.padding st.pos (ascii "\r")
      let padding ← writeAt padding (st.pos + 1) (ascii "\n")
      pure (padding, st.pos + 2)
    else pure (st.padding, st.pos)
  onRange padding pos padding.length (iterFill 0x20)

/-- The values drawn for a message, in the order of the source. -/
structure SipDraws where
  status : BitVec 32
  host : BitVec 32
  method : BitVec 32
  branch : BitVec 32
  fromTag : BitVec 32
  toTag : BitVec 32
  callId : BitVec 32
  cseq : BitVec 32

/-- Seven draws; the last value reads the state directly. -/
def sipDraws (st : BitVec 32) : SipDraws :=
  let st₁ := lcgStep st
  let st₂ := lcgStep st₁
  let st₃ := lcgStep st₂
  let st₄ := lcgStep st₃
  let st₅ := lcgStep st₄
  let st₆ := lcgStep st₅
  let st₇ := lcgStep st₆
  { status := st, host := st₁, method := st₂, branch := st₃, fromTag := st₄, toTag := st₅,
    callId := st₆, cseq := 1 + st₇ % 100000 }

/-- The mandatory header lines, as the pieces that `write!` is given. -/
def SipDraws.lines (draws : SipDraws) (host method : Bytes) : List (List Bytes) :=
  [[ascii "Via: SIP/2.0/UDP ", host, ascii ":5060;branch=z9hG4bK", hex8 draws.branch,
      ascii ";rport\r\n"],
    [ascii "From: <sip:caller@", host, ascii ">;tag=", hex8 draws.fromTag, ascii "\r\n"],
    [ascii "To: <sip:callee@", host, ascii ">;tag=", hex8 draws.toTag, ascii "\r\n"],
    [ascii "Call-ID: ", hex8 draws.callId, ascii "@", host, ascii "\r\n"],
    [ascii "CSeq: ", decimal draws.cseq.toNat, ascii " ", method, ascii "\r\n"]]

def applySipPadding (data : Bytes) (padSize : ℕ) : Option Bytes :=
  let totalLen := data.length
  splitAtMut data padSize fun padding payload =>
    if padding.isEmpty then some padding
    else do
      let draws := sipDraws (fnv1aSeed payload)
      let statusIdx := draws.status.toNat % 3
      let host ← sipHosts[draws.host.toNat % 3]?
      let method ← sipMethods[draws.method.toNat % 3]?
      let (sip, statusWritten) ←
        (SipState.mk padding 0 (List.replicate 128 0)).putStatus statusIdx [0, 1, 2]
      if !statusWritten then writeSipFragment sip.padding
      else do
        let (sip, allMandatory) ← sip.putLines (draws.lines host method)
        let sip ← if allMandatory then sip.putContentLength totalLen [1, 2] else some sip
        sip.close

/-! ## §6 Dispatch -/

def applyPadding (data : Bytes) (padSize : ℕ) (proto : Protocol) : Option Bytes :=
  if padSize = 0 ∨ padSize ≥ data.length then some data
  else match proto with
    | .quic => applyQuicPaddingShort data padSize
    | .dns => applyDnsPadding data padSize none
    | .stun => applyStunPadding data padSize
    | .sip => applySipPadding data padSize

end AmneziaWG.Tools.Reference
