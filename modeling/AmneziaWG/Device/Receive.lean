import AmneziaWG.Device.Send

/-!
# Receiving Transport Messages

Embedding of the inbound data path (`device/receive.go`): `RoutineReceiveIncoming`,
`RoutineDecryption` and `RoutineSequentialReceiver`, for one datagram, up to the write to the
TUN device.  `none` is a panic.

## Main results

- `determine_transport`: a datagram of no handshake size is classified by its header.
- `deliver_eq`: a decrypted packet is cut to the length that its IP header gives.
- `data_round_trip`: what one device sends, a device with the matching keypair writes to its
  TUN unchanged.
-/

set_option linter.dupNamespace false

namespace AmneziaWG.Device

open AmneziaWG.Lib List Option Nat

/-! ## §1 The stages -/

/-- `QueueInboundElement`.  `packet` is `nil` after a decryption that failed. -/
structure InboundElement where
  buffer : Bytes
  packet : Option Span
  keypair : ℕ
  counter : BitVec 64

/-- What `RoutineReceiveIncoming` does with a datagram. -/
inductive Received where
  | dropped
  | transport (peer : Option ℕ) (elem : InboundElement)
  | handshake (msgType : MessageType) (buffer : Bytes) (span : Span)

/-- `MinMessageSize`, the size of a keepalive. -/
def minMessageSize : ℕ := messageTransportSize

/-- `binary.BigEndian.Uint16`. -/
def beUint16 (data : Bytes) : Option (BitVec 16) :=
  match data with
  | hi :: lo :: _ => some (hi ++ lo)
  | _ => none

/-- Strip the padding: `copy(packet, packet[padding:])` and the slice that is left. -/
def stripPadding (buffer : Bytes) (size : ℕ) (padding : ℤ) : Option (Bytes × ℕ) :=
  if padding > 0 then do
    let tail ← sliceFrom (buffer.take size) padding
    let buffer ← writeAt buffer 0 tail
    return (buffer, size - padding.toNat)
  else some (buffer, size)

/-- `RoutineDecryption`, for one element: the content is opened in place. -/
def decryptElement {K : Type} (aead : AEAD K Bytes) (keypair : ℕ → Keypair K)
    (elem : InboundElement) : Option InboundElement := do
  let span ← elem.packet
  let counter ← leUint64 (← span.slice elem.buffer 8 messageTransportHeaderSize)
  let content ← span.slice elem.buffer messageTransportHeaderSize span.len
  match aead.decrypt (keypair elem.keypair).receive (nonceBytes counter) content [] with
  | none => return { elem with packet := none, counter }
  | some plaintext =>
    let off := span.off + messageTransportHeaderSize
    let buffer ← writeAt elem.buffer off plaintext
    return { elem with buffer, packet := some ⟨off, plaintext.length⟩, counter }

namespace Device

variable {B E : Type}

/-- `RoutineReceiveIncoming`, for a datagram in `buffer[:size]`. -/
def receiveIncoming {K : Type} (d : Device B E) (table : IndexTable) (keypair : ℕ → Keypair K)
    (now : ℕ) (buffer : Bytes) (size : ℕ) : Option Received := do
  if size < minMessageSize then return .dropped
  let (msgType, padding) ← d.determinePacketTypeAndPadding (buffer.take size) .unknown
  let (buffer, len) ← stripPadding buffer size padding
  let span : Span := ⟨0, len⟩
  match msgType with
  | .transport =>
    if len < messageTransportSize then return .dropped
    let receiver ← leUint32 (← span.slice buffer 4 8)
    let value := table.lookup receiver
    match value.keypair with
    | none => return .dropped
    | some k =>
      if (keypair k).created + rejectAfterTime < now then return .dropped
      return .transport value.peer { buffer, packet := some span, keypair := k, counter := 0 }
  | .initiation =>
    return if len ≠ messageInitiationSize then .dropped else .handshake msgType buffer span
  | .response =>
    return if len ≠ messageResponseSize then .dropped else .handshake msgType buffer span
  | .cookieReply =>
    return if len ≠ messageCookieReplySize then .dropped else .handshake msgType buffer span
  | .unknown => return .dropped

/-- The slice of a decrypted packet that goes to the TUN device; `some none` when the packet
is not delivered.  The length of an IPv6 packet is computed in 16 bits. -/
def deliverable (d : Device B E) (peer : ℕ) (buffer : Bytes) (span : Span) :
    Option (Option Span) := do
  if span.len = 0 then return none
  match ipVersion (span.bytes buffer) with
  | some 4 =>
    if span.len < 20 then return none
    let length ← beUint16 (← span.slice buffer 2 4)
    if length.toNat > span.len ∨ length.toNat < 20 then return none
    let src ← span.slice buffer 12 16
    return if (← d.allowedips.table.lookup src) ≠ some peer then none
      else some { span with len := length.toNat }
  | some 6 =>
    if span.len < 40 then return none
    let length := (← beUint16 (← span.slice buffer 4 6)) + 40
    if length.toNat > span.len then return none
    let src ← span.slice buffer 8 24
    return if (← d.allowedips.table.lookup src) ≠ some peer then none
      else some { span with len := length.toNat }
  | _ => return none

/-- `RoutineSequentialReceiver`, for one element: the replay filter of its keypair, and the
buffer for the TUN device, if any. -/
def receiveElement (d : Device B E) (peer : ℕ) (filter : Replay.Filter) (elem : InboundElement) :
    Option (Replay.Filter × Option Bytes) :=
  match elem.packet with
  | none => some (filter, none)
  | some span =>
    match filter.validateCounter elem.counter rejectAfterMessages with
    | (false, filter) => some (filter, none)
    | (true, filter) => do
      match ← d.deliverable peer elem.buffer span with
      | none => return (filter, none)
      | some span =>
        return (filter, ← Span.slice ⟨0, 0⟩ elem.buffer 0 (messageTransportHeaderSize + span.len))

/-- All stages, from the datagram received into `buffer` to the packet that `tun.Write` is
given: the buffer from the offset of the content on. -/
def receive {K : Type} (aead : AEAD K Bytes) (d : Device B E) (table : IndexTable)
    (keypair : ℕ → Keypair K) (now : ℕ) (buffer datagram : Bytes) : Option (Option Bytes) := do
  let buffer ← writeAt buffer 0 datagram
  match ← d.receiveIncoming table keypair now buffer datagram.length with
  | .transport (some peer) elem =>
    let elem ← decryptElement aead keypair elem
    let (_, written) ← d.receiveElement peer (keypair elem.keypair).replayFilter elem
    return written.map (List.drop messageTransportHeaderSize)
  | _ => return none

end Device

/-! ## §2 Reading a slice -/

theorem Span.slice_middle {front content rest : Bytes} {off len low high : ℕ}
    (hoff : off = front.length) (hlow : low ≤ high) (hhigh : high ≤ content.length) :
    Span.slice ⟨off, len⟩ (front ++ (content ++ rest)) low high =
      some ((content.drop low).take (high - low)) := by
  have hfit : low ≤ high ∧ off + high ≤ (front ++ (content ++ rest)).length := by
    simp only [length_append]
    omega
  have hdrop : (front ++ (content ++ rest)).drop (off + low) = content.drop low ++ rest := by
    rw [hoff, drop_append, drop_append_of_le_length (by omega)]
    simp
  rw [Span.slice, if_pos hfit]
  show some ((drop (off + low) _).take _) = _
  rw [hdrop, take_append_of_le_length (by rw [length_drop]; omega)]

theorem Span.slice_front {content rest : Bytes} {len low high : ℕ} (hlow : low ≤ high)
    (hhigh : high ≤ content.length) :
    Span.slice ⟨0, len⟩ (content ++ rest) low high =
      some ((content.drop low).take (high - low)) := by
  have h : Span.slice ⟨0, len⟩ ([] ++ (content ++ rest)) low high = _ :=
    slice_middle rfl hlow hhigh
  rwa [nil_append] at h

theorem transportHeader_fields (msgType remoteIndex : BitVec 32) (nonce : BitVec 64)
    (content : Bytes) :
    let message := transportHeader msgType remoteIndex nonce ++ content
    leUint32 message = some msgType ∧ leUint32 ((message.drop 4).take 4) = some remoteIndex ∧
      leUint64 ((message.drop 8).take 8) = some nonce ∧ message.drop 16 = content := by
  intro message
  have hsplit : message = leBytes 4 msgType.toNat ++ (leBytes 4 remoteIndex.toNat ++
      (leBytes 8 nonce.toNat ++ content)) := by
    simp [message, transportHeader]
  have hdrop4 : message.drop 4 = leBytes 4 remoteIndex.toNat ++
      (leBytes 8 nonce.toNat ++ content) := by
    rw [hsplit, drop_left' (leBytes_length _ _)]
  have hdrop8 : message.drop 8 = leBytes 8 nonce.toNat ++ content := by
    rw [← drop_drop (i := 4) (j := 4), hdrop4, drop_left' (leBytes_length _ _)]
  refine ⟨hsplit ▸ leUint32_leBytes _ _, ?_, ?_, ?_⟩
  · rw [hdrop4, take_left' (leBytes_length _ _)]
    simpa using leUint32_leBytes remoteIndex []
  · rw [hdrop8, take_left' (leBytes_length _ _)]
    simpa using leUint64_leBytes nonce []
  · rw [← drop_drop (i := 8) (j := 8), hdrop8, drop_left' (leBytes_length _ _)]

theorem beUint16_take (data : Bytes) : beUint16 (data.take 2) = beUint16 data := by
  match data with
  | [] => rfl
  | [_] => rfl
  | _ :: _ :: _ => rfl

/-! ## §3 Classification and stripping -/

namespace Device

variable {B E : Type}

/-- A datagram of no handshake size is read at the offset of transport messages alone. -/
theorem determine_transport {d : Device B E} (hd : PaddingsValid d.obfuscation)
    {filler message : Bytes} {val : BitVec 32}
    (hfiller : (filler.length : ℤ) = d.paddings.transport)
    (hmessage : messageTransportHeaderSize ≤ message.length) (hval : leUint32 message = some val)
    (hvalid : d.headers.transport.validate val = true) (hlen : (filler ++ message).length < 2 ^ 63)
    (hsize : ∀ slot, slot ≠ .transport → ((filler ++ message).length : ℤ) ≠ d.paddedSize slot) :
    d.determinePacketTypeAndPadding (filler ++ message) .unknown =
      some (.transport, d.paddings.transport) := by
  -- no handshake type has that size, and then the last test is the right one
  have hskip : ∀ slot, slot ≠ .transport → d.sizeFits slot (filler ++ message).length = false := by
    intro slot hslot
    rw [← Bool.not_eq_true, sizeFits_iff hd hslot hlen]
    exact hsize slot hslot
  have hfits : d.sizeFits .transport (filler ++ message).length = true := by
    have hsum : d.paddings.transport + (messageTransportHeaderSize : ℤ) ≤
        ((filler ++ message).length : ℤ) := by
      rw [length_append]
      omega
    show decide (((filler ++ message).length : ℤ) ≥
      wrapInt 64 (d.paddings.transport + (messageTransportHeaderSize : ℤ))) = true
    rw [wrapInt_of_lt (by omega) (by omega), decide_eq_true_eq]
    exact hsum
  have hheader : d.headerValid .transport (filler ++ message) = some true := by
    rw [headerValid_append hfiller hval]
    exact congrArg some hvalid
  rw [determinePacketTypeAndPadding, determineAmong_skip (hskip .init (by decide)),
    determineAmong_skip (hskip .response (by decide)),
    determineAmong_skip (hskip .cookie (by decide)), determineAmong_hit hfits hheader]
  rfl

end Device

theorem stripPadding_eq (filler message rest : Bytes) :
    ∃ rest', (message ++ rest').length = ((filler ++ message) ++ rest).length ∧
      stripPadding ((filler ++ message) ++ rest) (filler ++ message).length filler.length =
        some (message ++ rest', message.length) := by
  cases filler with
  | nil => exact ⟨rest, rfl, by simp [stripPadding]⟩
  | cons b filler =>
    have htail : sliceFrom (b :: filler ++ message) (b :: filler).length = some message :=
      sliceFrom_append _ _
    have hwrite : writeAt (b :: filler ++ message ++ rest) 0 message =
        some (message ++ (b :: filler ++ message ++ rest).drop message.length) := by
      rw [writeAt, if_pos (by simp only [length_append, length_cons]; omega)]
      simp
    refine ⟨(b :: filler ++ message ++ rest).drop message.length, writeAt_length hwrite, ?_⟩
    have hlen : (b :: filler ++ message).length - ((b :: filler).length : ℤ).toNat =
        message.length := by
      rw [length_append, Int.toNat_natCast]
      omega
    rw [stripPadding, if_pos (by simp only [length_cons]; omega), take_left, htail, hlen]
    simp only [bind_eq_bind, bind_some, hwrite]
    rfl

/-! ## §4 Delivery -/

/-- A well-formed IP packet: the length in its header is its length. -/
def WellFormed (packet : Bytes) : Prop :=
  (ipVersion packet = some 4 ∧ 20 ≤ packet.length ∧
    ∃ length, beUint16 (packet.drop 2) = some length ∧ length.toNat = packet.length) ∨
  (ipVersion packet = some 6 ∧
    ∃ length, beUint16 (packet.drop 4) = some length ∧ 40 + length.toNat = packet.length)

def sourceAddress (packet : Bytes) : Bytes :=
  match ipVersion packet with
  | some 6 => (packet.drop 8).take 16
  | _ => (packet.drop 12).take 4

theorem WellFormed.ne_nil {packet : Bytes} (h : WellFormed packet) : packet ≠ [] := by
  rintro rfl
  obtain ⟨hversion, -⟩ | ⟨hversion, -⟩ := h <;> cases hversion

theorem ipVersion_append {packet : Bytes} (h : packet ≠ []) (zeros : Bytes) :
    ipVersion (packet ++ zeros) = ipVersion packet := by
  cases packet with
  | nil => exact absurd rfl h
  | cons b packet => rfl

/-- The zeros behind a well-formed packet are cut off. -/
theorem Device.deliverable_eq {B E : Type} {d : Device B E} {peer : ℕ} {front packet : Bytes}
    (zeros rest : Bytes) (hpacket : WellFormed packet) (hlen : packet.length < 2 ^ 16)
    (hroute : d.allowedips.table.lookup (sourceAddress packet) = some (some peer)) :
    d.deliverable peer (front ++ ((packet ++ zeros) ++ rest))
        ⟨front.length, (packet ++ zeros).length⟩ = some (some ⟨front.length, packet.length⟩) := by
  have hne := hpacket.ne_nil
  have hbytes : Span.bytes ⟨front.length, (packet ++ zeros).length⟩
      (front ++ ((packet ++ zeros) ++ rest)) = packet ++ zeros := Span.bytes_middle rfl rfl
  -- every field is read within the packet
  have hslice : ∀ low high, low ≤ high → high ≤ packet.length →
      Span.slice ⟨front.length, (packet ++ zeros).length⟩ (front ++ ((packet ++ zeros) ++ rest))
        low high = some ((packet.drop low).take (high - low)) := by
    intro low high hlow hhigh
    rw [Span.slice_middle rfl hlow (by rw [List.length_append]; omega),
      List.drop_append_of_le_length (by omega),
      List.take_append_of_le_length (by rw [List.length_drop]; omega)]
  have hpos : 0 < packet.length := List.length_pos_iff.mpr hne
  have htotal : packet.length ≤ (packet ++ zeros).length := by
    rw [List.length_append]
    exact Nat.le_add_right _ _
  have hnonempty : ¬(packet ++ zeros).length = 0 := by omega
  rw [deliverable, if_neg hnonempty, hbytes, ipVersion_append hne]
  obtain ⟨hversion, h20, length, hfield, hlength⟩ | ⟨hversion, length, hfield, hlength⟩ := hpacket
  · have hfield' := hslice 2 4 (by omega) (by omega)
    have hsrc := hslice 12 16 (by omega) (by omega)
    have hroute' : d.allowedips.table.lookup ((packet.drop 12).take 4) = some (some peer) := by
      simpa [sourceAddress, hversion] using hroute
    rw [← hlength] at htotal h20
    simp only [hversion, hfield', beUint16_take, hfield, hsrc, hroute', Option.bind_eq_bind,
      Option.bind_some, Option.pure_def, Nat.reduceSub]
    rw [if_neg (by omega), if_neg (by omega), if_neg (by simp), hlength]
  · have hfield' := hslice 4 6 (by omega) (by omega)
    have hsrc := hslice 8 24 (by omega) (by omega)
    -- the sum does not wrap, because the packet has that length
    have hsum : (length + 40).toNat = packet.length := by
      rw [BitVec.toNat_add, Nat.add_comm]
      show (40 + length.toNat) % 2 ^ 16 = _
      rw [hlength]
      exact Nat.mod_eq_of_lt hlen
    have hroute' : d.allowedips.table.lookup ((packet.drop 8).take 16) = some (some peer) := by
      simpa [sourceAddress, hversion] using hroute
    simp only [hversion, hfield', beUint16_take, hfield, hsrc, hroute', hsum, Option.bind_eq_bind,
      Option.bind_some, Option.pure_def, Nat.reduceSub]
    rw [if_neg (by omega), if_neg (by omega), if_neg (by simp)]

/-! ## §5 The round trip -/

/-- The receiver holds the keypair that matches `sender`: it is registered for `peer` under
the index that the sender puts into its messages, and it has not expired. -/
structure HoldsMatching {K : Type} (table : IndexTable) (keypair : ℕ → Keypair K) (now : ℕ)
    (sender : Keypair K) (peer k : ℕ) : Prop where
  registered_peer : (table.lookup sender.remoteIndex).peer = some peer
  registered_keypair : (table.lookup sender.remoteIndex).keypair = some k
  same_key : (keypair k).receive = sender.send
  not_expired : now ≤ (keypair k).created + rejectAfterTime

namespace Device

variable {B E K : Type}

theorem receiveIncoming_eq {d : Device B E} (hd : PaddingsValid d.obfuscation) {table : IndexTable}
    {keypair : ℕ → Keypair K} {now peer k : ℕ} {sender : Keypair K}
    (hholds : HoldsMatching table keypair now sender peer k) {filler sealedText : Bytes}
    {msgType : BitVec 32} (nonce : BitVec 64) (rest : Bytes)
    (hfiller : (filler.length : ℤ) = d.paddings.transport)
    (hvalid : d.headers.transport.validate msgType = true) (hsealed : tagSize ≤ sealedText.length)
    {message : Bytes}
    (hmessage : message = transportHeader msgType sender.remoteIndex nonce ++ sealedText)
    (hlen : (filler ++ message).length < 2 ^ 63)
    (hsize : ∀ slot, slot ≠ .transport → ((filler ++ message).length : ℤ) ≠ d.paddedSize slot) :
    ∃ rest', (message ++ rest').length = ((filler ++ message) ++ rest).length ∧
      d.receiveIncoming table keypair now ((filler ++ message) ++ rest) (filler ++ message).length =
        some (.transport (some peer)
          { buffer := message ++ rest', packet := some ⟨0, message.length⟩, keypair := k,
            counter := 0 }) := by
  have hheader := transportHeader_length msgType sender.remoteIndex nonce
  have hlong : messageTransportSize ≤ message.length := by
    rw [hmessage, length_append, hheader]
    exact Nat.add_le_add_left hsealed _
  obtain ⟨hval, hindex, -⟩ := transportHeader_fields msgType sender.remoteIndex nonce sealedText
  rw [← hmessage] at hval hindex
  have hdetermine := determine_transport hd hfiller
    ((le_add_right _ tagSize).trans hlong) hval hvalid hlen hsize
  obtain ⟨rest', hrest', hstrip⟩ := stripPadding_eq filler message rest
  rw [hfiller] at hstrip
  -- the index is read after the padding has been stripped
  have hreceiver : Span.slice ⟨0, message.length⟩ (message ++ rest') 4 8 =
      some ((message.drop 4).take 4) :=
    Span.slice_front (by omega) ((by decide : 8 ≤ messageTransportSize).trans hlong)
  have hmin : ¬(filler ++ message).length < minMessageSize := by
    rw [length_append, minMessageSize]
    omega
  refine ⟨rest', hrest', ?_⟩
  unfold receiveIncoming
  simp only [if_neg hmin, take_left, hdetermine, bind_eq_bind, bind_some, hstrip,
    if_neg (not_lt.mpr hlong), hreceiver, hindex, hholds.registered_keypair,
    hholds.registered_peer, if_neg (not_lt.mpr hholds.not_expired)]
  rfl

end Device

theorem decryptElement_eq {K : Type} {aead : AEAD K Bytes} (haead : aead.Correct)
    {keypair : ℕ → Keypair K} {k : ℕ} {sender : Keypair K}
    (hkey : (keypair k).receive = sender.send) (msgType : BitVec 32) (nonce : BitVec 64)
    (content rest : Bytes) {header message : Bytes}
    (hheader : header = transportHeader msgType sender.remoteIndex nonce)
    (hmessage : message = header ++ aead.encrypt sender.send (nonceBytes nonce) content []) :
    ∃ rest', (header ++ (content ++ rest')).length = (message ++ rest).length ∧
      decryptElement aead keypair
          { buffer := message ++ rest, packet := some ⟨0, message.length⟩, keypair := k,
            counter := 0 } =
        some { buffer := header ++ (content ++ rest'),
               packet := some ⟨header.length, content.length⟩, keypair := k,
               counter := nonce } := by
  have hlen : header.length = messageTransportHeaderSize :=
    hheader ▸ transportHeader_length _ _ _
  have hsealed := haead.encrypt_length sender.send (nonceBytes nonce) content []
  have hopen := haead.decrypt_encrypt sender.send (nonceBytes nonce) content []
  generalize aead.encrypt sender.send (nonceBytes nonce) content [] = sealedText
    at hsealed hopen hmessage
  obtain ⟨-, -, hcounter, hcontent⟩ :=
    transportHeader_fields msgType sender.remoteIndex nonce sealedText
  rw [← hheader, ← hmessage] at hcounter hcontent
  have htotal : message.length = messageTransportHeaderSize + sealedText.length := by
    rw [hmessage, length_append, hlen]
  have hfield : Span.slice ⟨0, message.length⟩ (message ++ rest) 8 messageTransportHeaderSize =
      some ((message.drop 8).take 8) :=
    Span.slice_front (by decide) (by omega)
  have hbody : Span.slice ⟨0, message.length⟩ (message ++ rest) messageTransportHeaderSize
      message.length = some sealedText := by
    rw [Span.slice_front (by omega) (le_refl _)]
    show some ((message.drop 16).take _) = _
    rw [hcontent, htotal, Nat.add_sub_cancel_left, List.take_length]
  -- the plaintext overwrites the ciphertext
  have hwrite : writeAt (message ++ rest) messageTransportHeaderSize content =
      some ((header ++ content) ++ (sealedText ++ rest).drop content.length) := by
    rw [hmessage, append_assoc]
    apply writeAt_done hlen.symm
    rw [length_append]
    omega
  refine ⟨(sealedText ++ rest).drop content.length, ?_, ?_⟩
  · rw [← writeAt_length hwrite, append_assoc]
  · simp only [decryptElement, bind_eq_bind, bind_some, hfield, hcounter, hbody, hkey,
      hopen, zero_add, hwrite, hlen, append_assoc]
    rfl

namespace Device

variable {B E K : Type}

/-- What one device sends, a device that holds the matching keypair writes to its TUN device
unchanged: for all MTUs, protocols of imitation, nonces that the replay filter accepts, and
well-formed packets whose datagram fits and has no handshake size. -/
theorem data_round_trip {aead : AEAD K Bytes} (haead : aead.Correct) {envA envB : Env B E}
    {dA dB : Device B E} (hA : dA.Accepted envA) (hB : dB.Accepted envB)
    (hS4 : dA.paddings.transport = dB.paddings.transport)
    (hH4 : dA.headers.transport = dB.headers.transport) (mtu draw : ℕ) (random : ℕ → Byte)
    {table : IndexTable} {keypair : ℕ → Keypair K} {now peer k : ℕ} {sender : Keypair K}
    (hholds : HoldsMatching table keypair now sender peer k) {nonce : BitVec 64}
    (hnonce : ((keypair k).replayFilter.validateCounter nonce rejectAfterMessages).1 = true)
    {bufferA bufferB : Bytes} (hbufferA : bufferA.length = maxMessageSize)
    (hbufferB : bufferB.length = maxMessageSize) {packet : Bytes} (hpacket : WellFormed packet)
    (hroute : dB.allowedips.table.lookup (sourceAddress packet) = some (some peer))
    (hfit : dA.datagramSize mtu packet.length ≤ maxMessageSize)
    (hsize : ∀ slot, slot ≠ .transport → dA.datagramSize mtu packet.length ≠ dB.paddedSize slot) :
    ∃ datagram, dA.transmit aead mtu draw random sender nonce bufferA packet = some datagram ∧
      dB.receive aead table keypair now bufferB datagram = some (some packet) := by
  obtain ⟨msgType, hgen, hvalid⟩ := hA.headers_disjoint.generate_validate .transport draw
  obtain ⟨filler, hfiller, htransmit⟩ := transmit_eq haead (hA.paddingsValid .transport).1 hgen
    random sender nonce hbufferA hfit
  refine ⟨_, htransmit, ?_⟩
  -- the datagram has the announced size
  generalize hheader : transportHeader msgType sender.remoteIndex nonce = header
  generalize hmessage : header ++ aead.encrypt sender.send (nonceBytes nonce)
    (paddedContent packet mtu) [] = message
  have hsealed := haead.encrypt_length sender.send (nonceBytes nonce) (paddedContent packet mtu) []
  have hcontent : (paddedContent packet mtu).length =
      packet.length + contentPadding packet.length mtu := by
    simp [paddedContent]
  have hheaderLen : header.length = messageTransportHeaderSize :=
    hheader ▸ transportHeader_length _ _ _
  have hlen : ((filler ++ message).length : ℤ) = dA.datagramSize mtu packet.length := by
    rw [← hmessage, length_append, length_append, hheaderLen, hsealed, hcontent, cast_add,
      hfiller, datagramSize]
  have hshort : (filler ++ message).length ≤ maxMessageSize := by omega
  rw [← hlen] at hsize
  -- through the stages of the receiver
  have hrecv : writeAt bufferB 0 (filler ++ message) =
      some ((filler ++ message) ++ bufferB.drop (filler ++ message).length) := by
    have hdone : writeAt ([] ++ bufferB) 0 (filler ++ message) = _ :=
      writeAt_done rfl (by rw [hbufferB]; exact hshort)
    rwa [nil_append, nil_append] at hdone
  have hvalid' : dB.headers.transport.validate msgType = true := by
    rw [← hH4]
    exact hvalid
  have htag : tagSize ≤ (aead.encrypt sender.send (nonceBytes nonce) (paddedContent packet mtu)
      []).length := by omega
  obtain ⟨rest₁, hrest₁, hincoming⟩ := receiveIncoming_eq hB.paddingsValid hholds nonce
    (bufferB.drop (filler ++ message).length) (hfiller.trans hS4) hvalid' htag
    (by rw [hheader]; exact hmessage.symm)
    (lt_of_le_of_lt hshort (by decide)) hsize
  obtain ⟨rest₂, hrest₂, hdecrypt⟩ := decryptElement_eq haead hholds.same_key msgType nonce
    (paddedContent packet mtu) rest₁ hheader.symm hmessage.symm
  have hpacketLen : packet.length < 2 ^ 16 := by
    rw [length_append, ← hmessage, length_append, hsealed, hcontent, maxMessageSize] at hshort
    omega
  -- the length in the IP header cuts the zeros of the content off
  have hdeliver : dB.deliverable peer (header ++ (paddedContent packet mtu ++ rest₂))
      ⟨header.length, (paddedContent packet mtu).length⟩ = _ :=
    deliverable_eq _ rest₂ hpacket hpacketLen hroute
  have hslice : Span.slice ⟨0, 0⟩ (header ++ (paddedContent packet mtu ++ rest₂)) 0
      (messageTransportHeaderSize + packet.length) = some (header ++ packet) := by
    rw [paddedContent, append_assoc, ← append_assoc header, ← hheaderLen,
      ← length_append, Span.slice_front (zero_le _) (le_refl _), drop_zero,
      Nat.sub_zero, List.take_length]
  have helement : dB.receiveElement peer (keypair k).replayFilter
      { buffer := header ++ (paddedContent packet mtu ++ rest₂)
        packet := some ⟨header.length, (paddedContent packet mtu).length⟩, keypair := k,
        counter := nonce } =
      some (((keypair k).replayFilter.validateCounter nonce rejectAfterMessages).2,
        some (header ++ packet)) := by
    rcases hfilter :
      (keypair k).replayFilter.validateCounter nonce rejectAfterMessages with ⟨ok, filter⟩
    rw [hfilter] at hnonce
    cases hnonce
    simp only [receiveElement, hfilter, hdeliver, bind_eq_bind, bind_some, hslice]
    rfl
  simp only [receive, bind_eq_bind, hrecv, bind_some, hincoming, hdecrypt, helement, map_some]
  rw [drop_left' hheaderLen]
  rfl

/-- An environment in which every prefix is `0.0.0.0/0`. -/
def openEnv : Env Unit Unit :=
  { quietEnv with
    parsePrefix := fun _ => some
      { family := .ipv4, addr := [0, 0, 0, 0], bits := 0, addr_len := rfl, bits_le := by decide } }

/-- A device with a padding of eight bytes in front of transport messages, which imitates
QUIC, and with one peer that may use every address. -/
def tunnelConf : Bytes :=
  ascii "s4=8\nimitate_protocol=quic\n" ++
    (ascii "public_key=" ++ List.replicate 64 (asciiByte '1')) ++
    ascii "\nallowed_ip=0.0.0.0/0\n\n"

/-- An IPv4 header without payload. -/
def bareIPv4 : Bytes :=
  [0x45, 0, 0, 20, 0, 0, 0, 0, 64, 59, 0, 0, 10, 0, 0, 1, 10, 0, 0, 2]

/-- Both keypairs of a session with one key, with no message received yet. -/
def freshKeypair : Keypair Unit :=
  { sendNonce := 0, send := (), receive := (), replayFilter := { last := 0, ring := fun _ => 0 }
    isInitiator := true, created := 0, localIndex := 7, remoteIndex := 7 }

theorem data_round_trip_bareIPv4 :
    let d := ((newDevice () : Device Unit Unit).ipcSet openEnv tunnelConf).1
    ∃ datagram,
      d.transmit plainAEAD 1420 0 (fun _ => 0) freshKeypair 0 (replicate maxMessageSize 0)
          bareIPv4 = some datagram ∧
        d.receive plainAEAD (IndexTable.empty.set 7 ⟨some 0, none, some 0⟩)
          (fun _ => freshKeypair) 0
          (replicate maxMessageSize 0) datagram = some (some bareIPv4) := by
  intro d
  have hset : (newDevice () : Device Unit Unit).ipcSet openEnv tunnelConf = (d, none) :=
    Prod.ext rfl (by decide)
  have hd : d.Accepted openEnv := ⟨(), [], _, hset⟩
  have hroute : d.allowedips.table.lookup (sourceAddress bareIPv4) = some (some 0) := by decide
  refine data_round_trip plainAEAD_correct hd hd rfl rfl 1420 0 (fun _ => 0)
    ⟨rfl, rfl, rfl, by decide⟩ (by decide) length_replicate length_replicate
    (.inl ⟨rfl, by decide, 20, rfl, rfl⟩) hroute (by decide) (by decide)

end Device

end AmneziaWG.Device
