import AmneziaWG.Device.Uapi.Headers

/-!
# Classification of Datagrams

Embedding of `DeterminePacketTypeAndPadding` (`device/receive.go`).  Four tests are tried in
turn; each compares the size of the datagram with a padding and a message size, and then
reads four bytes behind that padding.

A datagram whose size fits an earlier test is read at the offset of that test, and this
offset can lie within its own padding.

## Main results

- `handshake_recognised_iff`: handshake messages are recognised whatever their padding holds
  exactly when no two handshake types have the same padded size.
- `padding_read_as_header`: a response that is taken for an initiation.
- `classification_unambiguous`: no datagram of any type is misclassified when types of one
  padded size have one padding.
-/

set_option linter.dupNamespace false

namespace AmneziaWG.Device

open AmneziaWG.Lib List Nat

/-! ## §1 The tests -/

/-- `MessageUnknownType` to `MessageTransportType`. -/
inductive MessageType where
  | unknown
  | initiation
  | response
  | cookieReply
  | transport
  deriving DecidableEq, Repr

def messageInitiationSize : ℕ := 148

def messageResponseSize : ℕ := 92

def messageCookieReplySize : ℕ := 64

def messageTransportHeaderSize : ℕ := 16

/-- The type of message that a padding and a header range belong to. -/
def HeaderSlot.messageType : HeaderSlot → MessageType
  | .init => .initiation
  | .response => .response
  | .cookie => .cookieReply
  | .transport => .transport

/-- The size of a handshake message; of a transport message, that of its header. -/
def HeaderSlot.messageSize : HeaderSlot → ℕ
  | .init => messageInitiationSize
  | .response => messageResponseSize
  | .cookie => messageCookieReplySize
  | .transport => messageTransportHeaderSize

/-- Handshake messages of two types differ in size by more than a header. -/
theorem HeaderSlot.messageSize_gap : ∀ slot slot' : HeaderSlot, slot ≠ .transport →
    slot' ≠ .transport → slot ≠ slot' → slot.messageSize + 4 ≤ slot'.messageSize ∨
      slot'.messageSize + 4 ≤ slot.messageSize := by
  decide

namespace Device

variable {B E : Type}
variable {d : Device B E} {packet p m : Bytes} {slot : HeaderSlot}

/-- The size test of a type.  The sum is an `int` and wraps. -/
def sizeFits (d : Device B E) (slot : HeaderSlot) (size : ℤ) : Bool :=
  let expected := wrapInt 64 (d.paddings.get slot + slot.messageSize)
  match slot with
  | .init | .response | .cookie => size = expected
  | .transport => size ≥ expected

/-- The header test of a type, on the four bytes behind its padding; `none` is a panic. -/
def headerValid (d : Device B E) (slot : HeaderSlot) (packet : Bytes) : Option Bool := do
  let data ← sliceFrom packet (d.paddings.get slot)
  let val ← leUint32 data
  return (d.headers.get slot).validate val

/-- The tests of the types in `slots`, in turn. -/
def determineAmong (d : Device B E) (packet : Bytes) (expectedType : MessageType) :
    List HeaderSlot → Option (MessageType × ℤ)
  | [] => some (.unknown, 0)
  | slot :: slots =>
    if (expectedType = .unknown ∨ expectedType = slot.messageType) ∧
        d.sizeFits slot packet.length then
      match d.headerValid slot packet with
      | none => none
      | some true => some (slot.messageType, d.paddings.get slot)
      | some false => d.determineAmong packet expectedType slots
    else d.determineAmong packet expectedType slots

/-- `DeterminePacketTypeAndPadding`; `none` is a panic. -/
def determinePacketTypeAndPadding (d : Device B E) (packet : Bytes) (expectedType : MessageType) :
    Option (MessageType × ℤ) :=
  d.determineAmong packet expectedType [.init, .response, .cookie, .transport]

/-! ## §2 Rules for the tests -/

theorem determineAmong_skip
    (hsize : d.sizeFits slot packet.length = false) (slots : List HeaderSlot) :
    d.determineAmong packet .unknown (slot :: slots) = d.determineAmong packet .unknown slots := by
  simp [determineAmong, hsize]

theorem determineAmong_hit (hsize : d.sizeFits slot packet.length = true)
    (hheader : d.headerValid slot packet = some true) (slots : List HeaderSlot) :
    d.determineAmong packet .unknown (slot :: slots) =
      some (slot.messageType, d.paddings.get slot) := by
  simp [determineAmong, hsize, hheader]

theorem determineAmong_cons (d : Device B E) (packet : Bytes) (slot : HeaderSlot)
    (slots : List HeaderSlot) : d.determineAmong packet .unknown (slot :: slots) = none ∨
      d.determineAmong packet .unknown (slot :: slots) =
        some (slot.messageType, d.paddings.get slot) ∨
      d.determineAmong packet .unknown (slot :: slots) =
        d.determineAmong packet .unknown slots := by
  cases hsize : d.sizeFits slot packet.length with
  | false => exact .inr (.inr (determineAmong_skip hsize slots))
  | true =>
    cases hheader : d.headerValid slot packet with
    | none => exact .inl (by simp [determineAmong, hsize, hheader])
    | some valid =>
      cases valid with
      | true => exact .inr (.inl (determineAmong_hit hsize hheader slots))
      | false => exact .inr (.inr (by simp [determineAmong, hsize, hheader]))

/-- The header test reads the four bytes that follow a prefix as long as the padding. -/
theorem headerValid_append {rest : Bytes} {val : BitVec 32}
    (hp : (p.length : ℤ) = d.paddings.get slot) (hval : leUint32 rest = some val) :
    d.headerValid slot (p ++ rest) = some ((d.headers.get slot).validate val) := by
  simp [headerValid, ← hp, sliceFrom_append, hval]

/-! ## §3 Paddings in force -/

/-- The paddings of a device are `int`s that are not negative. -/
def PaddingsValid (o : Obfuscation) : Prop :=
  ∀ slot, 0 ≤ o.paddings.get slot ∧ o.paddings.get slot < 2 ^ 63

theorem PaddingsValid.set {o : Obfuscation} {s : Setting} (hs : s.Valid) (ho : PaddingsValid o) :
    PaddingsValid (o.set s) := by
  cases s
  case padding slot n =>
    intro slot'
    show 0 ≤ (o.paddings.set slot n).get slot' ∧ (o.paddings.set slot n).get slot' < 2 ^ 63
    rw [Paddings.get_set]
    split_ifs
    · exact hs
    · exact ho slot'
  case privateKey | listenPort | fwmark | replacePeers | jc | jmin | jmax | imitateProtocol | header
    | ipacket =>
    exact ho

/-- A configuration that `IpcSet` accepts, after any requests on a new device. -/
def Accepted (env : Env B E) (d : Device B E) : Prop :=
  ∃ bind requests uapiConf, (afterRequests env (newDevice bind) requests).ipcSet env uapiConf =
    (d, none)

theorem Accepted.paddingsValid {env : Env B E} (h : d.Accepted env) :
    PaddingsValid d.obfuscation := by
  obtain ⟨bind, requests, uapiConf, hset⟩ := h
  have hnew : PaddingsValid (newDevice bind : Device B E).obfuscation := by
    intro slot
    have hzero : (newDevice bind : Device B E).obfuscation.paddings.get slot = 0 := by
      cases slot <;> rfl
    rw [hzero]
    decide
  have hkept : ∀ o s, Setting.Valid s → PaddingsValid o → PaddingsValid (o.set s) :=
    fun _ _ => PaddingsValid.set
  have hlast :=
    ipcSet_invariant env hkept uapiConf (afterRequests_invariant env hkept requests hnew)
  rw [hset] at hlast
  exact hlast

theorem Accepted.headers_disjoint {env : Env B E} (h : d.Accepted env) : d.headers.Disjoint := by
  obtain ⟨bind, requests, uapiConf, hset⟩ := h
  exact ipcSet_accepted hset

/-! ## §4 Handshake messages -/

/-- The size of a datagram that carries a handshake message. -/
def paddedSize (d : Device B E) (slot : HeaderSlot) : ℤ :=
  d.paddings.get slot + slot.messageSize

/-- On datagrams that exist, the sum in the size test does not wrap where it matters. -/
theorem sizeFits_iff (hd : PaddingsValid d.obfuscation)
    (hslot : slot ≠ .transport) {size : ℕ} (hsize : size < 2 ^ 63) :
    d.sizeFits slot size = true ↔ (size : ℤ) = d.paddedSize slot := by
  have hpadding : 0 ≤ d.paddings.get slot ∧ d.paddings.get slot < 2 ^ 63 := hd slot
  have hmessage : slot.messageSize ≤ 148 := by cases slot <;> decide
  have hfits : d.sizeFits slot size = decide ((size : ℤ) = wrapInt 64 (d.paddedSize slot)) := by
    cases slot <;> first | rfl | exact absurd rfl hslot
  rw [hfits, decide_eq_true_eq]
  unfold paddedSize
  by_cases hlt : d.paddings.get slot + slot.messageSize < 2 ^ 63
  · rw [wrapInt_of_lt (by omega) hlt]
  · have hneg := wrapInt_neg (not_lt.mp hlt) (by omega)
    omega

/-- A message of a type, with a header value of its range. -/
structure IsMessage (d : Device B E) (slot : HeaderSlot) (m : Bytes) : Prop where
  size : m.length = slot.messageSize
  header : ∃ val, leUint32 m = some val ∧ (d.headers.get slot).validate val = true

/-- Classification and stripping return the message whatever is in front of it. -/
def Recognised (d : Device B E) (slot : HeaderSlot) : Prop :=
  ∀ m p : Bytes, d.IsMessage slot m → (p.length : ℤ) = d.paddings.get slot →
    (p ++ m).length < 2 ^ 63 →
    d.determinePacketTypeAndPadding (p ++ m) .unknown =
        some (slot.messageType, d.paddings.get slot) ∧
      sliceFrom (p ++ m) (d.paddings.get slot) = some m

/-- Two handshake types whose datagrams have one size. -/
def Collide (d : Device B E) (slot slot' : HeaderSlot) : Prop :=
  d.paddedSize slot = d.paddedSize slot' ∧ d.paddedSize slot < 2 ^ 63

/-- A datagram of its own size is classified by the test of its type, when no other handshake
type has that size. -/
theorem recognised_of_no_collision (hd : PaddingsValid d.obfuscation) (hslot : slot ≠ .transport)
    (hfree : ∀ slot', slot' ≠ .transport → slot' ≠ slot → ¬d.Collide slot slot') :
    d.Recognised slot := by
  rintro m p ⟨hm, val, hval, hvalid⟩ hp hlen
  have hsize : ((p ++ m).length : ℤ) = d.paddedSize slot := by
    rw [length_append, cast_add, hp, hm]
    rfl
  have hhit : d.sizeFits slot (p ++ m).length = true := (sizeFits_iff hd hslot hlen).mpr hsize
  have hheader : d.headerValid slot (p ++ m) = some true := by
    rw [headerValid_append hp hval, hvalid]
  have hskip : ∀ slot', slot' ≠ .transport → slot' ≠ slot →
      d.sizeFits slot' (p ++ m).length = false := by
    intro slot' htransport hne
    rw [← Bool.not_eq_true, sizeFits_iff hd htransport hlen]
    intro hsize'
    exact hfree slot' htransport hne ⟨hsize.symm.trans hsize', by omega⟩
  refine ⟨?_, by rw [← hp, sliceFrom_append]⟩
  unfold determinePacketTypeAndPadding
  -- the tests in front of that of the type are skipped for the size
  cases slot with
  | init => rw [determineAmong_hit hhit hheader]
  | response =>
    rw [determineAmong_skip (hskip .init (by decide) (by decide)), determineAmong_hit hhit hheader]
  | cookie =>
    rw [determineAmong_skip (hskip .init (by decide) (by decide)),
      determineAmong_skip (hskip .response (by decide) (by decide)),
      determineAmong_hit hhit hheader]
  | transport => exact absurd rfl hslot

/-- The smallest message of a type: its lowest header value and zeros. -/
def blankMessage (d : Device B E) (slot : HeaderSlot) : Bytes :=
  leBytes 4 (d.headers.get slot).start.toNat ++ List.replicate (slot.messageSize - 4) 0

theorem blankMessage_isMessage (d : Device B E) (slot : HeaderSlot) :
    d.IsMessage slot (d.blankMessage slot) := by
  refine ⟨?_, (d.headers.get slot).start, leUint32_leBytes _ _, MagicHeader.validate_start _⟩
  have : 4 ≤ slot.messageSize := by cases slot <;> decide
  simp [blankMessage]
  omega

/-- When two types have one padded size, a padding of the smaller message can hold a header of
the larger one where the test for the larger one looks. -/
theorem exists_misread (hd : PaddingsValid d.obfuscation)
    {slot' : HeaderSlot} (hslot' : slot' ≠ .transport)
    (hgap : slot.messageSize + 4 ≤ slot'.messageSize) (hcollide : d.Collide slot slot') :
    ∃ p : Bytes, (p.length : ℤ) = d.paddings.get slot ∧ (p ++ d.blankMessage slot).length < 2 ^ 63 ∧
      d.sizeFits slot' (p ++ d.blankMessage slot).length = true ∧
      d.headerValid slot' (p ++ d.blankMessage slot) = some true := by
  obtain ⟨hsame, hlt⟩ := hcollide
  have hpadding : 0 ≤ d.paddings.get slot := (hd slot).1
  have hpadding' : 0 ≤ d.paddings.get slot' := (hd slot').1
  unfold paddedSize at hsame hlt
  -- up to the offset of the other test, its header, and what is left of the padding
  let front : Bytes := replicate (d.paddings.get slot').toNat 0
  let back : Bytes :=
    replicate ((d.paddings.get slot).toNat - (d.paddings.get slot').toNat - 4) 0
  have hfront : (front.length : ℤ) = d.paddings.get slot' := by
    simpa [front] using hpadding'
  let p : Bytes := front ++ (leBytes 4 (d.headers.get slot').start.toNat ++ back)
  have hp : (p.length : ℤ) = d.paddings.get slot := by
    simp only [p, front, back, length_append, length_replicate, leBytes_length]
    omega
  have hsize : ((p ++ d.blankMessage slot).length : ℤ) = d.paddedSize slot := by
    rw [length_append, cast_add, hp, (d.blankMessage_isMessage slot).size]
    rfl
  have hlen : (p ++ d.blankMessage slot).length < 2 ^ 63 := by
    unfold paddedSize at hsize
    omega
  refine ⟨p, hp, hlen, ?_, ?_⟩
  · rw [sizeFits_iff hd hslot' hlen, hsize]
    exact hsame
  · -- the other test looks where its header has been put
    have hsplit : p ++ d.blankMessage slot = front ++
        (leBytes 4 (d.headers.get slot').start.toNat ++ (back ++ d.blankMessage slot)) := by
      simp [p]
    rw [hsplit, headerValid_append hfront (leUint32_leBytes _ _), MagicHeader.validate_start]

/-- A collision with the test of a larger message breaks recognition of the smaller one. -/
theorem not_recognised_of_collision (hd : PaddingsValid d.obfuscation)
    {slot' : HeaderSlot} (hslot : slot ≠ .transport) (hslot' : slot' ≠ .transport)
    (hgap : slot.messageSize + 4 ≤ slot'.messageSize) (hcollide : d.Collide slot slot') :
    ¬d.Recognised slot := by
  intro hrec
  obtain ⟨p, hp, hlen, hfits, hheader⟩ := exists_misread hd hslot' hgap hcollide
  have heq := (hrec _ p (d.blankMessage_isMessage slot) hp hlen).1
  unfold determinePacketTypeAndPadding at heq
  -- larger messages are tested first
  match slot, slot' with
  | .response, .init | .cookie, .init =>
    rw [determineAmong_hit hfits hheader] at heq
    simp [HeaderSlot.messageType] at heq
  | .cookie, .response =>
    obtain h | h | h := determineAmong_cons d (p ++ d.blankMessage .cookie) .init
      [.response, .cookie, .transport]
    · rw [h] at heq
      cases heq
    · rw [h] at heq
      simp [HeaderSlot.messageType] at heq
    · rw [h, determineAmong_hit hfits hheader] at heq
      simp [HeaderSlot.messageType] at heq
  | .init, .init | .init, .response | .init, .cookie | .response, .response
  | .response, .cookie | .cookie, .cookie => exact absurd hgap (by decide)
  | .transport, _ => exact hslot rfl
  | _, .transport => exact hslot' rfl

/-- With a configuration that `IpcSet` accepts, handshake messages of all three types are
recognised and stripped whatever their padding holds, exactly when no two of the types have
datagrams of one size. -/
theorem handshake_recognised_iff (env : Env B E) (d : Device B E) (hd : d.Accepted env) :
    (∀ slot, slot ≠ .transport → d.Recognised slot) ↔
      ∀ slot slot', slot ≠ .transport → slot' ≠ .transport → slot ≠ slot' →
        ¬d.Collide slot slot' := by
  constructor
  · intro hrec slot slot' hslot hslot' hne hcollide
    -- the smaller of the two messages is the one that is misread
    rcases HeaderSlot.messageSize_gap slot slot' hslot hslot' hne with hgap | hgap
    · exact not_recognised_of_collision hd.paddingsValid hslot hslot' hgap hcollide
        (hrec slot hslot)
    · exact not_recognised_of_collision hd.paddingsValid hslot' hslot hgap
        ⟨hcollide.1.symm, hcollide.1 ▸ hcollide.2⟩ (hrec slot' hslot')
  · intro hfree slot hslot
    exact recognised_of_no_collision hd.paddingsValid hslot fun slot' hslot' hne =>
      hfree slot slot' hslot hslot' hne.symm

/-- Paddings of 15, 18 and 20 bytes keep the three sizes apart. -/
theorem handshake_recognised_apart :
    let d := ((newDevice () : Device Unit Unit).ipcSet quietEnv (ascii "s1=15\ns2=18\ns3=20\n\n")).1
    ∀ slot, slot ≠ .transport → d.Recognised slot := by
  intro d
  have hset : (newDevice () : Device Unit Unit).ipcSet quietEnv
      (ascii "s1=15\ns2=18\ns3=20\n\n") = (d, none) := Prod.ext rfl (by decide)
  refine (handshake_recognised_iff quietEnv d ⟨(), [], _, hset⟩).mpr ?_
  have happart : ∀ slot slot', slot ≠ .transport → slot' ≠ .transport → slot ≠ slot' →
      d.paddedSize slot ≠ d.paddedSize slot' := by decide
  exact fun slot slot' hslot hslot' hne hcollide => happart slot slot' hslot hslot' hne hcollide.1

/-- A response with a padding of 56 bytes, which `s2=56` asks for, has the size of an
initiation without padding, and is taken for one when its padding starts like one. -/
theorem padding_read_as_header :
    let r := (newDevice () : Device Unit Unit).ipcSet quietEnv (ascii "s2=56\n\n")
    let m : Bytes := [2, 0, 0, 0] ++ replicate 88 0
    let p : Bytes := [1, 0, 0, 0] ++ replicate 52 0
    r.2 = none ∧ r.1.IsMessage .response m ∧ (p.length : ℤ) = r.1.paddings.get .response ∧
      r.1.determinePacketTypeAndPadding (p ++ m) .unknown = some (.initiation, 0) := by
  refine ⟨by decide, ⟨by decide, 2, by decide, by decide⟩, by decide, by decide⟩

/-! ## §5 Sizes that collide at one offset only -/

/-- A message of a type as it is sent: handshake messages have one size, a transport message
has at least that of a keepalive. -/
structure IsSent (d : Device B E) (slot : HeaderSlot) (m : Bytes) : Prop where
  handshake : slot ≠ .transport → m.length = slot.messageSize
  transport : slot = .transport → 32 ≤ m.length
  header : ∃ val, leUint32 m = some val ∧ (d.headers.get slot).validate val = true

/-- The datagram of `p` and `m` has the size of another handshake type only if the paddings of
the two types are equal. -/
def CollidesAtOneOffset (d : Device B E) (slot : HeaderSlot) (size : ℕ) : Prop :=
  ∀ u, u ≠ .transport → u ≠ slot → d.paddings.get u + u.messageSize = (size : ℤ) →
    d.paddings.get u = d.paddings.get slot

theorem determineAmong_append {us : List HeaderSlot}
    (hpass : ∀ u ∈ us, ∀ slots, d.determineAmong packet .unknown (u :: slots) =
      d.determineAmong packet .unknown slots) (slots : List HeaderSlot) :
    d.determineAmong packet .unknown (us ++ slots) = d.determineAmong packet .unknown slots := by
  induction us with
  | nil => rfl
  | cons u us ih =>
    rw [cons_append, hpass u mem_cons_self]
    exact ih fun v hv => hpass v (mem_cons_of_mem u hv)

/-- The test of another handshake type hands over: its size does not fit, or it reads the header
of the message itself. -/
theorem determineAmong_other (hd : PaddingsValid d.obfuscation)
    (hdisjoint : d.headers.Disjoint) {u : HeaderSlot} (hu : u ≠ .transport) (hne : u ≠ slot)
    {val : BitVec 32} (hval : leUint32 m = some val)
    (hvalid : (d.headers.get slot).validate val = true)
    (hp : (p.length : ℤ) = d.paddings.get slot) (hlen : (p ++ m).length < 2 ^ 63)
    (hoffset : d.CollidesAtOneOffset slot (p ++ m).length) (slots : List HeaderSlot) :
    d.determineAmong (p ++ m) .unknown (u :: slots) = d.determineAmong (p ++ m) .unknown slots := by
  cases hsize : d.sizeFits u (p ++ m).length with
  | false => exact determineAmong_skip hsize slots
  | true =>
    have hpadded := (sizeFits_iff hd hu hlen).mp hsize
    have hsame : (p.length : ℤ) = d.paddings.get u := by
      rw [hp, hoffset u hu hne hpadded.symm]
    have hinvalid : (d.headers.get u).validate val = false := by
      rw [← Bool.not_eq_true]
      exact fun hboth => hdisjoint u slot hne val ⟨hboth, hvalid⟩
    have hheader : d.headerValid u (p ++ m) = some false := by
      rw [headerValid_append hsame hval, hinvalid]
    simp [determineAmong, hheader]

theorem IsSent.sizeFits (hd : PaddingsValid d.obfuscation)
    (hm : d.IsSent slot m) (hp : (p.length : ℤ) = d.paddings.get slot)
    (hlen : (p ++ m).length < 2 ^ 63) : d.sizeFits slot (p ++ m).length = true := by
  by_cases hslot : slot = .transport
  · have hlong := hm.transport hslot
    subst hslot
    rw [length_append] at hlen
    have hsum : d.paddings.get .transport + (messageTransportHeaderSize : ℤ) ≤
        ((p ++ m).length : ℤ) := by
      rw [length_append, messageTransportHeaderSize]
      omega
    show decide (((p ++ m).length : ℤ) ≥
      wrapInt 64 (d.paddings.get .transport + (messageTransportHeaderSize : ℤ))) = true
    rw [wrapInt_of_lt (by rw [← hp]; omega) (by rw [length_append] at hsum; omega),
      decide_eq_true_eq]
    exact hsum
  · rw [sizeFits_iff hd hslot hlen, length_append, cast_add, hp, hm.handshake hslot]
    rfl

/-- A message is classified by the test of its own type, whatever its padding and its content
are, when the tests of equal size read at one offset. -/
theorem determine_of_one_offset (hd : PaddingsValid d.obfuscation)
    (hdisjoint : d.headers.Disjoint) (hm : d.IsSent slot m)
    (hp : (p.length : ℤ) = d.paddings.get slot) (hlen : (p ++ m).length < 2 ^ 63)
    (hoffset : d.CollidesAtOneOffset slot (p ++ m).length) :
    d.determinePacketTypeAndPadding (p ++ m) .unknown =
      some (slot.messageType, d.paddings.get slot) := by
  obtain ⟨val, hval, hvalid⟩ := hm.header
  have hheader : d.headerValid slot (p ++ m) = some true := by
    rw [headerValid_append hp hval, hvalid]
  -- the tests up to the one of the type itself
  obtain ⟨before, after, horder, hbefore⟩ : ∃ before after,
      [.init, .response, .cookie, .transport] = before ++ slot :: after ∧
        ∀ u ∈ before, u ≠ .transport ∧ u ≠ slot := by
    cases slot with
    | init => exact ⟨[], [.response, .cookie, .transport], rfl, by decide⟩
    | response => exact ⟨[.init], [.cookie, .transport], rfl, by decide⟩
    | cookie => exact ⟨[.init, .response], [.transport], rfl, by decide⟩
    | transport => exact ⟨[.init, .response, .cookie], [], rfl, by decide⟩
  have hpass : ∀ u ∈ before, ∀ slots, d.determineAmong (p ++ m) .unknown (u :: slots) =
      d.determineAmong (p ++ m) .unknown slots := by
    intro u hu
    obtain ⟨htransport, hne⟩ := hbefore u hu
    exact determineAmong_other hd hdisjoint htransport hne hval hvalid hp hlen hoffset
  rw [determinePacketTypeAndPadding, horder, determineAmong_append hpass,
    determineAmong_hit (hm.sizeFits hd hp hlen) hheader]

/-- With disjoint header ranges a datagram of any type is classified as that type, whatever its
padding and its content are, when every handshake type whose padded size it has uses the same
padding; and always when all paddings are equal. -/
theorem classification_unambiguous (d : Device B E) (hd : PaddingsValid d.obfuscation)
    (hdisjoint : d.headers.Disjoint) :
    (∀ slot m p, d.IsSent slot m → (p.length : ℤ) = d.paddings.get slot →
      (p ++ m).length < 2 ^ 63 → d.CollidesAtOneOffset slot (p ++ m).length →
      d.determinePacketTypeAndPadding (p ++ m) .unknown =
        some (slot.messageType, d.paddings.get slot)) ∧
    ((∀ u, d.paddings.get u = d.paddings.get .init) →
      ∀ slot m p, d.IsSent slot m → (p.length : ℤ) = d.paddings.get slot →
        (p ++ m).length < 2 ^ 63 → d.determinePacketTypeAndPadding (p ++ m) .unknown =
          some (slot.messageType, d.paddings.get slot)) := by
  refine ⟨fun slot m p hm hp hlen => determine_of_one_offset hd hdisjoint hm hp hlen, ?_⟩
  intro hequal slot m p hm hp hlen
  refine determine_of_one_offset hd hdisjoint hm hp hlen fun u _ _ _ => ?_
  rw [hequal u, hequal slot]

/-- A transport message of the size of an initiation, with the header of an initiation in its
padding. -/
theorem classification_unambiguous_transport :
    let d := { (newDevice () : Device Unit Unit) with
      paddings := { init := 8, response := 8, cookie := 8, transport := 8 } }
    d.determinePacketTypeAndPadding ([1, 0, 0, 0, 0, 0, 0, 0] ++ ([4, 0, 0, 0] ++ replicate 144 0))
      .unknown = some (.transport, 8) := by
  intro d
  have hpaddings : ∀ u, d.paddings.get u = 8 := by decide
  have hvalid : PaddingsValid d.obfuscation := by
    intro slot
    have height : d.obfuscation.paddings.get slot = 8 := hpaddings slot
    rw [height]
    decide
  refine (classification_unambiguous d hvalid Headers.default_disjoint).1 .transport _
    [1, 0, 0, 0, 0, 0, 0, 0]
    ⟨(absurd rfl ·), fun _ => by simp, 4, leUint32_leBytes 4 _, by decide⟩ rfl (by simp) ?_
  intro u _ _ _
  rw [hpaddings, hpaddings]

end Device

end AmneziaWG.Device
