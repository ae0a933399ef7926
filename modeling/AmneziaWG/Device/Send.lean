import AmneziaWG.Device.Classify
import AmneziaWG.Device.Keypair
import AmneziaWG.Device.Obf.Filler

/-!
# Sending Transport Messages

Embedding of the outbound data path (`device/send.go`): `RoutineReadFromTUN`,
`calculatePaddingSize`, `RoutineEncryption` and `RoutineSequentialSender`, for one packet.

All stages work on one message buffer.  A packet is a slice of that buffer until an `append`
finds no room there; from then on it is an array of its own.  `none` is a panic.

## Main results

- `calculatePaddingSize_bounds`: between 0 and 15 zero bytes are added.
- `transmit_eq`: when the datagram fits the buffer it is a padding followed by the header and
  the sealed content.
-/

set_option linter.dupNamespace false

namespace AmneziaWG.Device

open AmneziaWG.Lib List Option Nat

/-! ## §1 Slices of a message buffer -/

def maxMessageSize : ℕ := 2 ^ 16 - 1

/-- `MessageTransportSize`, the size of an empty transport message. -/
def messageTransportSize : ℕ := messageTransportHeaderSize + tagSize

def paddingMultiple : ℕ := 16

/-- A slice `buffer[off:off+len]`. -/
structure Span where
  off : ℕ
  len : ℕ
  deriving DecidableEq, Repr

def Span.bytes (s : Span) (buffer : Bytes) : Bytes :=
  (buffer.drop s.off).take s.len

/-- `packet[low:high]`, which may reach up to the end of the buffer. -/
def Span.slice (s : Span) (buffer : Bytes) (low high : ℕ) : Option Bytes :=
  if low ≤ high ∧ s.off + high ≤ buffer.length then
    some ((buffer.drop (s.off + low)).take (high - low))
  else none

theorem Span.bytes_middle {front middle rest : Bytes} {off len : ℕ} (hoff : off = front.length)
    (hlen : len = middle.length) : Span.bytes ⟨off, len⟩ (front ++ (middle ++ rest)) = middle := by
  rw [Span.bytes, hoff, drop_left, hlen, take_left]

/-- A packet on its way out. -/
inductive PacketSlice where
  | inBuffer (span : Span)
  | allocated (data : Bytes)
  deriving DecidableEq

/-- `QueueOutboundElement`. -/
structure OutboundElement where
  buffer : Bytes
  packet : PacketSlice
  nonce : BitVec 64
  deriving DecidableEq

namespace OutboundElement

/-- The contents of `elem.packet`. -/
def packetBytes (elem : OutboundElement) : Bytes :=
  match elem.packet with
  | .inBuffer span => span.bytes elem.buffer
  | .allocated data => data

/-- `len(elem.packet)`. -/
def packetLen (elem : OutboundElement) : ℕ :=
  match elem.packet with
  | .inBuffer span => span.len
  | .allocated data => data.length

/-- `elem.packet = append(elem.packet, zeros...)`. -/
def append (elem : OutboundElement) (zeros : Bytes) : Option OutboundElement :=
  match elem.packet with
  | .inBuffer span =>
    if span.off + span.len + zeros.length ≤ elem.buffer.length then do
      let buffer ← writeAt elem.buffer (span.off + span.len) zeros
      return { elem with buffer, packet := .inBuffer { span with len := span.len + zeros.length } }
    else some { elem with packet := .allocated (elem.packetBytes ++ zeros) }
  | .allocated data => some { elem with packet := .allocated (data ++ zeros) }

/-- The plaintext overlaps the place of the ciphertext without starting there. -/
def inexactOverlap (elem : OutboundElement) (sealedLen : ℕ) : Bool :=
  match elem.packet with
  | .inBuffer span =>
    span.len ≠ 0 ∧ span.off ≠ messageTransportHeaderSize ∧
      span.off < messageTransportHeaderSize + sealedLen ∧
      messageTransportHeaderSize < span.off + span.len
  | .allocated _ => false

/-- `elem.packet = Seal(header, nonce, elem.packet, nil)`, where `header` is the front of the
buffer: the ciphertext is put behind it when there is room. -/
def sealPacket {K : Type} (aead : AEAD K Bytes) (key : K) (nonce : Bytes)
    (elem : OutboundElement) : Option OutboundElement :=
  let sealedText := aead.encrypt key nonce elem.packetBytes []
  let total := messageTransportHeaderSize + sealedText.length
  if total ≤ elem.buffer.length then
    if elem.inexactOverlap sealedText.length then none
    else do
      let buffer ← writeAt elem.buffer messageTransportHeaderSize sealedText
      return { elem with buffer, packet := .inBuffer ⟨0, total⟩ }
  else
    some { elem with
      packet := .allocated (elem.buffer.take messageTransportHeaderSize ++ sealedText) }

end OutboundElement

/-! ## §2 The stages -/

/-- `tun.Read` into `buffer` and the slice that is taken of it. -/
def readPacket (buffer packet : Bytes) (nonce : BitVec 64) : Option OutboundElement := do
  let buffer ← writeAt buffer messageTransportHeaderSize packet
  return { buffer, packet := .inBuffer ⟨messageTransportHeaderSize, packet.length⟩, nonce }

/-- The IP version of a packet that is not empty. -/
def ipVersion (packet : Bytes) : Option ℕ :=
  packet.head?.map fun b => b.toNat / 16

def calculatePaddingSize (packetSize mtu : ℕ) : ℤ :=
  let roundUp := fun n => andNot (n + paddingMultiple - 1) (paddingMultiple - 1)
  if mtu = 0 then (roundUp packetSize : ℤ) - packetSize
  else
    let lastUnit := if packetSize > mtu then packetSize % mtu else packetSize
    let paddedSize := if roundUp lastUnit > mtu then mtu else roundUp lastUnit
    (paddedSize : ℤ) - lastUnit

/-- `paddingZeros[:paddingSize]`. -/
def zerosTo (paddingSize : ℤ) : Option Bytes :=
  if 0 ≤ paddingSize ∧ paddingSize ≤ paddingMultiple then
    some (List.replicate paddingSize.toNat 0)
  else none

def nonceBytes (counter : BitVec 64) : Bytes :=
  List.replicate 4 0 ++ leBytes 8 counter.toNat

/-- The backward loop `buffer[i+padding] = buffer[i]` over `i < n`. -/
def shiftLoop (padding : ℕ) : ℕ → Bytes → Option Bytes
  | 0, buffer => some buffer
  | n + 1, buffer => do
    let b ← buffer[n]?
    let buffer ← writeAt buffer (n + padding) [b]
    shiftLoop padding n buffer

namespace Device

variable {B E : Type}

/-- `RoutineEncryption`, for one element. -/
def encryptElement {K : Type} (aead : AEAD K Bytes) (d : Device B E) (mtu draw : ℕ)
    (keypair : Keypair K) (elem : OutboundElement) : Option OutboundElement := do
  let msgType ← d.headers.transport.generate draw
  let buffer ← writeAt elem.buffer 0 (leBytes 4 msgType.toNat)
  let buffer ← writeAt buffer 4 (leBytes 4 keypair.remoteIndex.toNat)
  let buffer ← writeAt buffer 8 (leBytes 8 elem.nonce.toNat)
  let zeros ← zerosTo (calculatePaddingSize elem.packetLen mtu)
  let elem ← { elem with buffer }.append zeros
  elem.sealPacket aead keypair.send (nonceBytes elem.nonce)

/-- `RoutineSequentialSender`, for one element: the datagram that it sends. -/
def sendElement (d : Device B E) (random : ℕ → Byte) (elem : OutboundElement) : Option Bytes :=
  let padding := d.paddings.transport
  if padding > 0 then do
    let buffer ← shiftLoop padding.toNat elem.packetLen elem.buffer
    let datagram ← Span.slice ⟨0, 0⟩ buffer 0 (padding.toNat + elem.packetLen)
    fillPadding 64 d.imitate random datagram padding.toNat
  else some elem.packetBytes

/-- All stages, from the packet read to the datagram sent. -/
def transmit {K : Type} (aead : AEAD K Bytes) (d : Device B E) (mtu draw : ℕ) (random : ℕ → Byte)
    (keypair : Keypair K) (nonce : BitVec 64) (buffer packet : Bytes) : Option Bytes := do
  let elem ← readPacket buffer packet nonce
  let elem ← d.encryptElement aead mtu draw keypair elem
  d.sendElement random elem

end Device

/-! ## §3 The padding of the content -/

theorem andNot_fifteen (n : ℕ) : andNot n 15 = n - n % 16 := by
  rw [andNot, and_two_pow_sub_one_eq_mod n 4]

/-- Never more than 15 zero bytes are added, whatever the MTU. -/
theorem calculatePaddingSize_bounds (packetSize mtu : ℕ) :
    0 ≤ calculatePaddingSize packetSize mtu ∧ calculatePaddingSize packetSize mtu < 16 := by
  have hround : ∀ n, andNot (n + paddingMultiple - 1) (paddingMultiple - 1) =
      n + 15 - (n + 15) % 16 := fun n => andNot_fifteen (n + 15)
  simp only [calculatePaddingSize, hround]
  by_cases hmtu : mtu = 0
  · rw [if_pos hmtu]
    omega
  · -- the last unit is at most the MTU, so that cutting at the MTU does not go below it
    have hunit : (if packetSize > mtu then packetSize % mtu else packetSize) ≤ mtu := by
      split_ifs with hgt
      · exact le_of_lt (mod_lt _ (pos_of_ne_zero hmtu))
      · exact not_lt.mp hgt
    rw [if_neg hmtu]
    generalize (if packetSize > mtu then packetSize % mtu else packetSize) = lastUnit at hunit ⊢
    split_ifs <;> omega

def contentPadding (packetSize mtu : ℕ) : ℕ := (calculatePaddingSize packetSize mtu).toNat

theorem zerosTo_calculatePaddingSize (packetSize mtu : ℕ) :
    zerosTo (calculatePaddingSize packetSize mtu) =
      some (List.replicate (contentPadding packetSize mtu) 0) := by
  obtain ⟨hnonneg, hlt⟩ := calculatePaddingSize_bounds packetSize mtu
  exact if_pos ⟨hnonneg, Int.le_of_lt hlt⟩

/-! ## §4 The shift -/

/-- Behind a padding that is not empty, the loop moves the front of the buffer without reading
a byte that it has overwritten. -/
theorem shiftLoop_eq {padding n : ℕ} {buffer : Bytes} (hpos : 0 < padding)
    (hfit : n + padding ≤ buffer.length) : shiftLoop padding n buffer =
      some (buffer.take padding ++ (buffer.take n ++ buffer.drop (n + padding))) := by
  -- from the last byte to the first, as the loop runs
  induction n generalizing buffer with
  | zero => simp [shiftLoop]
  | succ n ih =>
    have hn : n < buffer.length := by omega
    have hread : buffer[n]? = some buffer[n] := getElem?_eq_getElem hn
    -- the write is behind everything that is still to be read
    let front := buffer.take (n + padding)
    let rest := buffer.drop (n + 1 + padding)
    have hfront : front.length = n + padding := by
      simp only [front, length_take]
      omega
    have hwrite : writeAt buffer (n + padding) [buffer[n]] =
        some (front ++ (buffer[n] :: rest)) := by
      have hone : n + padding + [buffer[n]].length = n + 1 + padding := by
        simp only [length_singleton]
        omega
      rw [writeAt, if_pos (by rw [hone]; exact hfit), hone]
      rfl
    have hlen : n + padding ≤ (front ++ (buffer[n] :: rest)).length := by
      rw [length_append, hfront]
      omega
    have htakePadding : (front ++ (buffer[n] :: rest)).take padding = buffer.take padding := by
      rw [take_append_of_le_length (by omega), take_take, min_eq_left (by omega)]
    have htake : (front ++ (buffer[n] :: rest)).take n = buffer.take n := by
      rw [take_append_of_le_length (by omega), take_take, min_eq_left (by omega)]
    have hdrop : (front ++ (buffer[n] :: rest)).drop (n + padding) = buffer[n] :: rest := by
      rw [← hfront, drop_left]
    rw [shiftLoop, hread, bind_eq_bind, bind_some, hwrite, bind_eq_bind,
      bind_some, ih hlen, htakePadding, htake, hdrop, take_succ_eq_append_getElem hn,
      append_assoc]
    rfl

/-! ## §5 The datagram -/

def transportHeader (msgType remoteIndex : BitVec 32) (nonce : BitVec 64) : Bytes :=
  leBytes 4 msgType.toNat ++ (leBytes 4 remoteIndex.toNat ++ leBytes 8 nonce.toNat)

theorem transportHeader_length (msgType remoteIndex : BitVec 32) (nonce : BitVec 64) :
    (transportHeader msgType remoteIndex nonce).length = messageTransportHeaderSize := by
  simp [transportHeader, messageTransportHeaderSize]

/-- The content of a message: the packet and zeros. -/
def paddedContent (packet : Bytes) (mtu : ℕ) : Bytes :=
  packet ++ List.replicate (contentPadding packet.length mtu) 0

theorem readPacket_eq {buffer packet : Bytes} (nonce : BitVec 64)
    (hfit : messageTransportHeaderSize + packet.length ≤ buffer.length) :
    ∃ front rest : Bytes, front.length = messageTransportHeaderSize ∧
      (front ++ (packet ++ rest)).length = buffer.length ∧ readPacket buffer packet nonce = some
        { buffer := front ++ (packet ++ rest)
          packet := .inBuffer ⟨messageTransportHeaderSize, packet.length⟩, nonce } := by
  let front := buffer.take messageTransportHeaderSize
  let rest := buffer.drop (messageTransportHeaderSize + packet.length)
  have hwrite : writeAt buffer messageTransportHeaderSize packet =
      some (front ++ (packet ++ rest)) := if_pos hfit
  refine ⟨front, rest, ?_, writeAt_length hwrite, ?_⟩
  · simp only [front, length_take]
    omega
  · rw [readPacket, hwrite]
    rfl

theorem OutboundElement.append_eq (front packet : Bytes) {rest zeros : Bytes} (nonce : BitVec 64)
    (hzeros : zeros.length ≤ rest.length) : OutboundElement.append
        { buffer := front ++ (packet ++ rest), packet := .inBuffer ⟨front.length, packet.length⟩,
          nonce } zeros =
      some
        { buffer := front ++ ((packet ++ zeros) ++ rest.drop zeros.length)
          packet := .inBuffer ⟨front.length, (packet ++ zeros).length⟩, nonce } := by
  have hwrite : writeAt ((front ++ packet) ++ rest) (front.length + packet.length) zeros =
      some (((front ++ packet) ++ zeros) ++ rest.drop zeros.length) :=
    writeAt_done (length_append).symm hzeros
  have hfit : front.length + packet.length + zeros.length ≤ (front ++ (packet ++ rest)).length := by
    simp only [length_append]
    omega
  simp only [append_assoc] at hwrite
  simp only [OutboundElement.append, if_pos hfit, hwrite]
  simp

theorem OutboundElement.sealPacket_eq {K : Type} {aead : AEAD K Bytes} (haead : aead.Correct)
    (key : K) (nonce : BitVec 64) (nonce' : Bytes) {front : Bytes} (content : Bytes) {rest : Bytes}
    (hfront : front.length = messageTransportHeaderSize) (hroom : tagSize ≤ rest.length) :
    OutboundElement.sealPacket aead key nonce'
        { buffer := front ++ (content ++ rest), packet := .inBuffer ⟨front.length, content.length⟩,
          nonce } =
      some
        { buffer := (front ++ aead.encrypt key nonce' content []) ++ rest.drop tagSize
          packet := .inBuffer ⟨0, (front ++ aead.encrypt key nonce' content []).length⟩,
          nonce } := by
  have hbytes : Span.bytes ⟨front.length, content.length⟩ (front ++ (content ++ rest)) = content :=
    Span.bytes_middle rfl rfl
  have hsealed := haead.encrypt_length key nonce' content []
  have hwrite : writeAt (front ++ (content ++ rest)) messageTransportHeaderSize
      (aead.encrypt key nonce' content []) =
      some ((front ++ aead.encrypt key nonce' content []) ++
        (content ++ rest).drop (aead.encrypt key nonce' content []).length) := by
    apply writeAt_done hfront.symm
    rw [hsealed, length_append]
    omega
  have hdrop : (content ++ rest).drop (aead.encrypt key nonce' content []).length =
      rest.drop tagSize := by
    rw [hsealed, drop_append, drop_eq_nil_of_le (by omega), nil_append, Nat.add_sub_cancel_left]
  rw [hdrop] at hwrite
  have hfit : messageTransportHeaderSize + (aead.encrypt key nonce' content []).length ≤
      (front ++ (content ++ rest)).length := by
    rw [hsealed, length_append, length_append]
    omega
  -- `Seal` writes where it reads from, which is the overlap that it allows
  have hexact : OutboundElement.inexactOverlap
      { buffer := front ++ (content ++ rest), packet := .inBuffer ⟨front.length, content.length⟩,
        nonce } (aead.encrypt key nonce' content []).length = false := by
    simp [OutboundElement.inexactOverlap, hfront]
  simp only [OutboundElement.sealPacket, OutboundElement.packetBytes, hbytes, if_pos hfit, hexact,
    Bool.false_eq_true, if_false, hwrite]
  simp [hfront]

namespace Device

variable {B E : Type}

/-- The message that `RoutineEncryption` leaves at the front of the buffer. -/
theorem encryptElement_eq {K : Type} {aead : AEAD K Bytes} (haead : aead.Correct)
    {d : Device B E} {mtu draw : ℕ} {msgType : BitVec 32}
    (hgen : d.headers.transport.generate draw = some msgType) (keypair : Keypair K)
    (nonce : BitVec 64) {front packet rest : Bytes}
    (hfront : front.length = messageTransportHeaderSize)
    (hroom : contentPadding packet.length mtu + tagSize ≤ rest.length) :
    let message := transportHeader msgType keypair.remoteIndex nonce ++
      aead.encrypt keypair.send (nonceBytes nonce) (paddedContent packet mtu) []
    ∃ rest', message.length + rest'.length = (front ++ (packet ++ rest)).length ∧
      d.encryptElement aead mtu draw keypair
          { buffer := front ++ (packet ++ rest)
            packet := .inBuffer ⟨messageTransportHeaderSize, packet.length⟩, nonce } =
        some { buffer := message ++ rest', packet := .inBuffer ⟨0, message.length⟩, nonce } := by
  intro message
  -- zeros up to a multiple of 16, but not beyond the MTU
  let zeros : Bytes := replicate (contentPadding packet.length mtu) 0
  let header := transportHeader msgType keypair.remoteIndex nonce
  have hheader : header.length = messageTransportHeaderSize := transportHeader_length _ _ _
  have hzeros : zeros.length = contentPadding packet.length mtu := length_replicate
  refine ⟨(rest.drop zeros.length).drop tagSize, ?_, ?_⟩
  · have hsealed :=
      haead.encrypt_length keypair.send (nonceBytes nonce) (paddedContent packet mtu) []
    have hmessage : message.length = header.length +
        (aead.encrypt keypair.send (nonceBytes nonce) (paddedContent packet mtu) []).length :=
      length_append
    rw [hmessage, hsealed, paddedContent]
    simp only [length_append, length_drop, length_replicate]
    omega
  · -- the three fields of the header are one write over the front
    have hwrite : writeAt (front ++ (packet ++ rest)) 0 header =
        some (header ++ (packet ++ rest)) := writeAt_zero (hheader.trans hfront.symm)
    have hbuffer : ∀ k : Bytes → Option OutboundElement,
        ((writeAt (front ++ (packet ++ rest)) 0 (leBytes 4 msgType.toNat)).bind fun buffer =>
          (writeAt buffer 4 (leBytes 4 keypair.remoteIndex.toNat)).bind fun buffer =>
            (writeAt buffer 8 (leBytes 8 nonce.toNat)).bind k) =
              k (header ++ (packet ++ rest)) := by
      intro k
      rw [writeAt_bind_writeAt _ _ _ (by simp), writeAt_bind_writeAt _ _ _ (by simp), append_assoc]
      show (writeAt _ 0 header).bind k = _
      rw [hwrite, bind_some]
    have hlen : (OutboundElement.packetLen
        { buffer := front ++ (packet ++ rest)
          packet := .inBuffer ⟨messageTransportHeaderSize, packet.length⟩, nonce }) =
        packet.length := rfl
    have happend := OutboundElement.append_eq header packet nonce
      (by omega : zeros.length ≤ rest.length)
    have htag : tagSize ≤ (rest.drop zeros.length).length := by
      rw [length_drop]
      omega
    have hseal := OutboundElement.sealPacket_eq haead keypair.send nonce (nonceBytes nonce)
      (paddedContent packet mtu) hheader htag
    simp only [encryptElement, bind_eq_bind, hgen, bind_some]
    rw [hbuffer, hlen, zerosTo_calculatePaddingSize, bind_some, ← hheader]
    show (OutboundElement.append _ zeros).bind _ = _
    rw [happend, bind_some]
    exact hseal

/-- The message goes out behind a padding of `S4` bytes. -/
theorem sendElement_eq {d : Device B E} (hpadding : 0 ≤ d.paddings.transport) (random : ℕ → Byte)
    {message rest : Bytes} (nonce : BitVec 64) (hmessage : message ≠ [])
    (hfit : d.paddings.transport + message.length ≤ (message ++ rest).length) :
    ∃ filler : Bytes, (filler.length : ℤ) = d.paddings.transport ∧ d.sendElement random
          { buffer := message ++ rest, packet := .inBuffer ⟨0, message.length⟩, nonce } =
        some (filler ++ message) := by
  unfold sendElement
  obtain ⟨padding, hcast⟩ := Int.eq_ofNat_of_zero_le hpadding
  rw [hcast] at hfit ⊢
  by_cases hpos : 0 < padding
  · have hfit' : message.length + padding ≤ (message ++ rest).length := by omega
    -- the message is moved behind the first bytes of the buffer, whatever they are
    let old := (message ++ rest).take padding
    have hold : old.length = padding := by
      simp only [old, List.length_take]
      omega
    have hshift := shiftLoop_eq hpos hfit'
    rw [List.take_left] at hshift
    have hslice : Span.slice ⟨0, 0⟩ (old ++ (message ++ (message ++ rest).drop
        (message.length + padding))) 0 (padding + message.length) = some (old ++ message) := by
      have hle : 0 + (padding + message.length) ≤ (old ++ (message ++ (message ++ rest).drop
          (message.length + padding))).length := by
        simp only [List.length_append, hold]
        omega
      rw [Span.slice, if_pos ⟨Nat.zero_le _, hle⟩, ← List.append_assoc]
      simp only [Nat.sub_zero, Nat.add_zero, List.drop_zero]
      rw [← hold, ← List.length_append, List.take_left]
    have hlt : padding < (old ++ message).length := by
      rw [List.length_append, hold]
      have := List.length_pos_iff.mpr hmessage
      omega
    -- the old bytes in front are overwritten by the filler of the protocol
    obtain ⟨filler, hfiller, hfill⟩ := fillPadding_eq d.imitate random hpos hlt
    refine ⟨filler, by rw [hfiller], ?_⟩
    rw [if_pos (by simpa using hpos)]
    show ((shiftLoop padding message.length (message ++ rest)).bind _) = _
    rw [hshift, Option.bind_some]
    show ((Span.slice ⟨0, 0⟩ _ 0 (padding + message.length)).bind _) = _
    rw [hslice, Option.bind_some]
    show fillPadding 64 d.imitate random (old ++ message) padding = _
    rw [hfill]
    nth_rewrite 1 [← hold]
    rw [List.drop_left]
  · have hzero : padding = 0 := by omega
    subst hzero
    refine ⟨[], rfl, ?_⟩
    rw [if_neg (by simp)]
    simp [OutboundElement.packetBytes, Span.bytes]

/-- The size of the datagram that carries a packet. -/
def datagramSize (d : Device B E) (mtu packetSize : ℕ) : ℤ :=
  d.paddings.transport + (messageTransportHeaderSize +
    (packetSize + contentPadding packetSize mtu + tagSize) : ℕ)

/-- When it fits the buffer, the datagram is a padding of `S4` bytes, the header and the
sealed content. -/
theorem transmit_eq {K : Type} {aead : AEAD K Bytes} (haead : aead.Correct) {d : Device B E}
    (hpadding : 0 ≤ d.paddings.transport) {mtu draw : ℕ} {msgType : BitVec 32}
    (hgen : d.headers.transport.generate draw = some msgType) (random : ℕ → Byte)
    (keypair : Keypair K) (nonce : BitVec 64) {buffer packet : Bytes}
    (hbuffer : buffer.length = maxMessageSize)
    (hfit : d.datagramSize mtu packet.length ≤ maxMessageSize) :
    ∃ filler : Bytes, (filler.length : ℤ) = d.paddings.transport ∧
      d.transmit aead mtu draw random keypair nonce buffer packet =
        some (filler ++ (transportHeader msgType keypair.remoteIndex nonce ++
          aead.encrypt keypair.send (nonceBytes nonce) (paddedContent packet mtu) [])) := by
  unfold datagramSize at hfit
  obtain ⟨front, rest, hfront, hlen, hread⟩ := readPacket_eq nonce
    (by omega : messageTransportHeaderSize + packet.length ≤ buffer.length)
  -- the buffer has room for the zeros and the tag behind the packet
  have hroom : contentPadding packet.length mtu + tagSize ≤ rest.length := by
    simp only [length_append] at hlen
    omega
  obtain ⟨rest', hrest', hencrypt⟩ :=
    encryptElement_eq haead hgen keypair nonce hfront hroom
  have hmessage : (transportHeader msgType keypair.remoteIndex nonce ++
      aead.encrypt keypair.send (nonceBytes nonce) (paddedContent packet mtu) []).length =
      messageTransportHeaderSize +
        (packet.length + contentPadding packet.length mtu + tagSize) := by
    rw [length_append, transportHeader_length, haead.encrypt_length, paddedContent,
      length_append, length_replicate]
  generalize transportHeader msgType keypair.remoteIndex nonce ++
      aead.encrypt keypair.send (nonceBytes nonce) (paddedContent packet mtu) [] = message
    at hrest' hencrypt hmessage ⊢
  have hne : message ≠ [] := by
    intro hnil
    rw [hnil, messageTransportHeaderSize, length_nil] at hmessage
    omega
  -- and for the padding, which is what `datagramSize` counts in
  have hfits : d.paddings.transport + message.length ≤ (message ++ rest').length := by
    rw [length_append, hrest', hlen, hbuffer, hmessage]
    exact hfit
  obtain ⟨filler, hfiller, hsend⟩ := sendElement_eq hpadding random nonce hne hfits
  refine ⟨filler, hfiller, ?_⟩
  simp only [transmit, hread, bind_eq_bind, bind_some, hencrypt, hsend]

end Device

end AmneziaWG.Device
