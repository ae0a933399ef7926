import AmneziaWG.Device.Obf.Filler
import AmneziaWG.Lib.Render
import AmneziaWG.Lib.WireFormats
import Mathlib.Data.Nat.Log

/-!
# The Filler Is a Message

The imitation writers are read back with the parsers of the formats: STUN and DNS messages by their
own lengths and counts, SIP messages by their lines.

## Main results

- `writeSTUN_bindingResponse`: a Binding Success Response with zeros behind.
- `writeDNS_message`: one DNS message that ends with the datagram.
- `writeSIP_message`: header lines in order, and a `Content-Length` that is that of the body.
-/

namespace AmneziaWG.Device

open AmneziaWG.Lib List Nat

/-! ## §1 STUN -/

section Stun

/-- The attributes that fit `body` bytes, as values. -/
def stunAttributeList (body : ℕ) (state : BitVec 32) : List StunAttribute :=
  (if body ≥ 12 then
    [{ type := 0x0020
       value := ([0x00, 0x01] : Bytes) ++ be16
         ((state >>> 16).setWidth 16 ^^^ (stunCookie >>> 16).setWidth 16) ++
        be32 (lcgStep state ^^^ stunCookie) }]
  else []) ++
  (if body - (stunAddress body state).length ≥ 4 then
    [{ type := 0x8022
       value := generate stunSoftwareByte (stunSoftwareLen (body - (stunAddress body state).length))
        (stunAddressState body state) }]
  else [])

theorem stunAttributes_eq (body : ℕ) (state : BitVec 32) :
    stunAttributes body state =
      ((stunAttributeList body state).map StunAttribute.bytes).flatten := by
  rw [stunAttributes, stunAttributeList, map_append, flatten_append]
  congr 1
  · rw [stunAddress]
    split_ifs
    · simp [StunAttribute.bytes, stunXorMappedAddress]
    · rfl
  · generalize body - (stunAddress body state).length = room
    rw [stunRest]
    split_ifs
    · simp [StunAttribute.bytes, stunSoftware]
    · rfl

theorem stunBody_mod_four (padding : ℕ) : stunBody padding % 4 = 0 := by
  unfold stunBody
  split_ifs
  · have hmask : padding - 20 &&& 3 = (padding - 20) % 4 := and_two_pow_sub_one_eq_mod _ 2
    rw [andNot, hmask]
    omega
  · rfl

theorem stunSoftwareLen_spec {room : ℕ} (h : room % 4 = 0) (hroom : room ≥ 4) :
    stunSoftwareLen room % 4 = 0 ∧ stunSoftwareLen room ≤ 124 := by
  unfold stunSoftwareLen
  split_ifs <;> omega

theorem stunSoftwareByte_printable {n : ℕ} {state : BitVec 32} {c : Byte}
    (h : c ∈ generate stunSoftwareByte n state) :
    0x20 ≤ c.toNat ∧ c.toNat ≤ 0x7e := by
  induction n generalizing state with
  | zero => cases h
  | succ n ih =>
    rcases mem_cons.mp h with rfl | h
    · have hmod : (state % 0x5F).toNat < 0x5F := by
        rw [BitVec.toNat_umod]
        exact mod_lt _ (by decide)
      have hvalue : (stunSoftwareByte state).1.toNat = 0x20 + (state % 0x5F).toNat := by
        show (0x20 + (state % 0x5F).setWidth 8 : Byte).toNat = _
        rw [BitVec.toNat_add, BitVec.toNat_setWidth]
        have h20 : (0x20 : Byte).toNat = 0x20 := rfl
        omega
      omega
    · exact ih h

/-- What the attributes are like: lengths that are multiples of four, and printable SOFTWARE. -/
theorem stunAttributeList_spec {body : ℕ} (hbody : body % 4 = 0) (state : BitVec 32)
    {a : StunAttribute}
    (h : a ∈ stunAttributeList body state) : a.value.length ≤ 124 ∧ a.value.length % 4 = 0 ∧
      (a.type = 0x8022 → ∀ c ∈ a.value, 0x20 ≤ c.toNat ∧ c.toNat ≤ 0x7e) := by
  have hroom : (body - (stunAddress body state).length) % 4 = 0 := by
    unfold stunAddress
    split_ifs
    · rw [stunXorMappedAddress_length]
      omega
    · rw [length_nil]
      omega
  rcases mem_append.mp h with h | h
  · split_ifs at h
    · have htype : a.type = 0x0020 := by rw [mem_singleton.mp h]
      have hlen : a.value.length = 8 := by
        rw [mem_singleton.mp h]
        simp
      exact ⟨by omega, by omega, fun hsoftware => absurd (htype.symm.trans hsoftware) (by decide)⟩
    · cases h
  · -- the value of SOFTWARE is clamped, and rounded down to a multiple of four
    split_ifs at h with hsize
    · obtain ⟨hfour, hclamp⟩ := stunSoftwareLen_spec hroom hsize
      rw [mem_singleton.mp h]
      dsimp only
      rw [generate_length]
      exact ⟨hclamp, hfour, fun _ c hc => stunSoftwareByte_printable hc⟩
    · cases h

theorem stunAttributeList_length (body : ℕ) (state : BitVec 32) :
    (stunAttributeList body state).length ≤ 2 := by
  unfold stunAttributeList
  split_ifs <;> simp

theorem stunAttributes_length {body : ℕ} (hbody : body % 4 = 0) (state : BitVec 32) :
    (stunAttributes body state).length % 4 = 0 ∧ (stunAttributes body state).length < 2 ^ 16 := by
  have hspec := fun a => stunAttributeList_spec hbody state (a := a)
  have hfew := stunAttributeList_length body state
  rw [stunAttributes_eq]
  have hsum : ∀ l : List StunAttribute, (∀ a ∈ l, a.value.length ≤ 124 ∧ a.value.length % 4 = 0) →
      (l.map StunAttribute.bytes).flatten.length % 4 = 0 ∧
        (l.map StunAttribute.bytes).flatten.length ≤ 128 * l.length := by
    intro l hl
    induction l with
    | nil => exact ⟨rfl, zero_le _⟩
    | cons a l ih =>
      obtain ⟨hlen, hfour⟩ := hl a mem_cons_self
      obtain ⟨ih₁, ih₂⟩ := ih fun b hb => hl b (mem_cons_of_mem a hb)
      have hbytes : a.bytes.length = 4 + a.value.length := by
        simp [StunAttribute.bytes]
        omega
      rw [map_cons, flatten_cons, length_append, length_cons, hbytes]
      omega
  obtain ⟨hfour, hlen⟩ := hsum _ fun a ha => ⟨(hspec a ha).1, (hspec a ha).2.1⟩
  exact ⟨hfour, by omega⟩

/-- **A STUN filler is a Binding Success Response.**  For every buffer and padding of at least 20
bytes, the padding is a message that its own lengths describe, with printable SOFTWARE and zeros
behind; and the transaction ID depends on the seed alone. -/
theorem writeSTUN_bindingResponse (seed : BitVec 32) :
    ∃ transactionID, ∀ (buf : Bytes) (padding : ℕ),
    20 ≤ padding → padding ≤ buf.length → ∃ out msg zeros,
      writeSTUN buf padding seed = some out ∧ out.drop padding = buf.drop padding ∧
      stunMessage.run (out.take padding) = some (msg, List.replicate zeros 0x00) ∧
      msg.type = 0x0101 ∧ msg.cookie = [0x21, 0x12, 0xa4, 0x42] ∧
        msg.transactionID = transactionID ∧
      msg.length.toNat % 4 = 0 ∧ 20 + msg.length.toNat + zeros = padding ∧
      ∀ a ∈ msg.attributes, a.type = 0x8022 →
        a.value.length ≤ 124 ∧ ∀ c ∈ a.value, 0x20 ≤ c.toNat ∧ c.toNat ≤ 0x7e := by
  refine ⟨stunTxn seed, fun buf padding h20 hpadding => ?_⟩
  have hbody := stunBody_mod_four padding
  have hfits := stunAttributes_length_le (stunBody padding) (lcgStep (lcgStep (lcgStep seed)))
  have hle := stunBody_le padding
  obtain ⟨hfour, hlen⟩ := stunAttributes_length hbody (lcgStep (lcgStep (lcgStep seed)))
  have hspec := fun a => stunAttributeList_spec hbody (lcgStep (lcgStep (lcgStep seed))) (a := a)
  have hfiller := stunFiller_length seed padding
  have hmessage := consumes_stunMessage 0x0101 (be32 stunCookie) (stunTxn seed)
    (stunAttributeList (stunBody padding) (lcgStep (lcgStep (lcgStep seed)))) rfl
      (stunTxn_length seed)
    (fun a ha => ⟨by have := (hspec a ha).1; omega, (hspec a ha).2.1⟩)
      (by rw [← stunAttributes_eq]; exact hlen)
  rw [← stunAttributes_eq] at hmessage
  generalize hattributes : stunAttributes (stunBody padding) (lcgStep (lcgStep (lcgStep seed))) =
    attributes at *
  -- the filler is the message that the grammar reads, with zeros behind it
  have hwords : stunFiller seed padding =
      be16 0x0101 ++ (be16 (BitVec.ofNat 16 attributes.length) ++
        (be32 stunCookie ++ (stunTxn seed ++ attributes))) ++
        replicate (padding - (20 + attributes.length)) 0x00 := by
    have hheader : (stunHeader attributes.length (stunTxn seed)).take padding =
        stunHeader attributes.length (stunTxn seed) := take_of_length_le h20
    rw [stunFiller, hattributes, hheader, stunHeader]
    simp only [append_assoc]
  have hstated : (BitVec.ofNat 16 attributes.length).toNat = attributes.length := by
    rw [BitVec.toNat_ofNat, mod_eq_of_lt hlen]
  refine ⟨_, _, padding - (20 + attributes.length), writeSTUN_eq hpadding seed, drop_left' hfiller,
    by rw [take_left' hfiller, hwords]; exact hmessage _, rfl, rfl, rfl, ?_, ?_,
    fun a ha htype => ⟨(hspec a ha).1, (hspec a ha).2.2 htype⟩⟩
  · rw [hstated]
    exact hfour
  · rw [hstated]
    omega

theorem writeSTUN_bindingResponse_example : ∃ transactionID, ∃ out msg zeros,
    writeSTUN (List.replicate 50 0) 45 7 = some out ∧
      stunMessage.run (out.take 45) = some (msg, List.replicate zeros 0x00) ∧
        msg.transactionID = transactionID ∧
      20 + msg.length.toNat + zeros = 45 := by
  obtain ⟨transactionID, h⟩ := writeSTUN_bindingResponse 7
  obtain ⟨out, msg, zeros, hout, -, hrun, -, -, hid, -, hlen, -⟩ :=
    h (replicate 50 0) 45 (by decide) (by decide)
  exact ⟨transactionID, out, msg, zeros, hout, hrun, hid, hlen⟩

end Stun

/-! ## §2 DNS -/

section Dns

theorem clampU16_natCast {n : ℕ} (h : n ≤ 0xFFFF) : clampU16 (n : ℤ) = BitVec.ofNat 16 n := by
  rw [clampU16, if_neg (by omega), if_neg (by omega)]
  exact BitVec.ofInt_natCast 16 n

theorem consumes_dnsRootQuestion :
    Consumes dnsQuestion dnsRootQuestion { name := [], type := 1, cls := 1 } :=
  consumes_dnsQuestion_root 1 1

/-- A message with the question and one record, which is an answer or an additional record. -/
theorem consumes_oneRecord (txid : Byte × Byte) (additional : Bool) {b : Bytes} {r : DnsRecord}
    (h : Consumes dnsRecord b r) : ∃ msg, Consumes dnsMessage
      ([txid.1, txid.2] ++
        (be16 0x8180 ++ (be16 1 ++ (be16 (if additional then 0 else 1) ++ (be16 0 ++
        (be16 (if additional then 1 else 0) ++ (dnsRootQuestion ++ b))))))) msg := by
  have hquestion : ∀ x ∈ [(dnsRootQuestion, ({ name := [], type := 1, cls := 1 } : DnsQuestion))],
      Consumes dnsQuestion x.1 x.2 := by
    intro x hx
    rw [mem_singleton.mp hx]
    exact consumes_dnsRootQuestion
  have hrecord : ∀ x ∈ [(b, r)], Consumes dnsRecord x.1 x.2 := by
    intro x hx
    rw [mem_singleton.mp hx]
    exact h
  have hnone : ∀ x ∈ ([] : List (Bytes × DnsRecord)), Consumes dnsRecord x.1 x.2 :=
    fun x hx => nomatch hx
  -- the record stands in the section that the counts of the header name
  cases additional with
  | false =>
    have hmessage :=
      consumes_dnsMessage [txid.1, txid.2] 0x8180 _ _ _ _ rfl hquestion hrecord hnone hnone
      (Nat.one_lt_two_pow (by decide)) (Nat.one_lt_two_pow (by decide)) (Nat.two_pow_pos _)
        (Nat.two_pow_pos _)
    simp only [map_cons, map_nil, flatten_cons, flatten_nil, append_nil] at hmessage
    exact ⟨_, hmessage⟩
  | true =>
    have hmessage :=
      consumes_dnsMessage [txid.1, txid.2] 0x8180 _ _ _ _ rfl hquestion hnone hnone hrecord
      (Nat.one_lt_two_pow (by decide)) (Nat.two_pow_pos _) (Nat.two_pow_pos _)
        (Nat.one_lt_two_pow (by decide))
    simp only [map_cons, map_nil, flatten_cons, flatten_nil, append_nil, nil_append] at hmessage
    exact ⟨_, hmessage⟩

/-- The data of the NULL record reaches to the end of the datagram. -/
theorem consumes_dnsNull (txid : Byte × Byte) (rdata : Bytes) (hlen : rdata.length < 2 ^ 16) :
    ∃ msg, Consumes dnsMessage
      (dnsNullFixed txid 1 1 (BitVec.ofNat 16 rdata.length) ++ rdata) msg := by
  have hrecord := consumes_dnsRecord_root 0x0a 1 [0x00, 0x00, 0x00, 0x3c] rdata rfl hlen
    (Consumes.pure [])
  obtain ⟨msg, hmsg⟩ := consumes_oneRecord txid false hrecord
  exact ⟨msg, hmsg⟩

/-- The OPT record has one option, which reaches to the end of the datagram too. -/
theorem consumes_dnsOpt (txid : Byte × Byte) (data : Bytes) (hlen : data.length + 4 < 2 ^ 16) :
    ∃ msg, Consumes dnsMessage (dnsHeader txid ++ dnsRootQuestion ++
      dnsOpt (BitVec.ofNat 16 (data.length + 4)) (BitVec.ofNat 16 data.length) ++ data) msg := by
  have hrdata : (be16 dnsOptCoverCode ++ (be16 (BitVec.ofNat 16 data.length) ++ data)).length =
      data.length + 4 := by
    simp
    omega
  have hoption : ∀ x ∈ [(be16 dnsOptCoverCode ++ (be16 (BitVec.ofNat 16 data.length) ++ data),
    (dnsOptCoverCode, data))],
      Consumes dnsOption x.1 x.2 ∧ x.1 ≠ [] := by
    intro x hx
    rw [mem_singleton.mp hx]
    exact ⟨consumes_dnsOption dnsOptCoverCode (by omega), by simp [be16]⟩
  have hoptions := consumes_items hoption
  simp only [map_cons, map_nil, flatten_cons, flatten_nil, append_nil] at hoptions
  have hrecord := consumes_dnsRecord_root dnsTypeOPT dnsOptUDPSize [0x00, 0x00, 0x00, 0x00] _ rfl
    (by rw [hrdata]; exact hlen) (by rw [dnsOptions, if_pos rfl]; exact hoptions)
  rw [hrdata] at hrecord
  obtain ⟨msg, hmsg⟩ := consumes_oneRecord txid true hrecord
  exact ⟨msg, hmsg⟩

/-- The filler in front of anything that ends with the datagram. -/
theorem dnsFiller_message (txid : Byte × Byte) (padding : ℕ) (payload : Bytes) (hmin : 28 ≤ padding)
    (hmax : padding + payload.length ≤ 65535) :
    ∃ msg, dnsMessage.run (dnsFiller txid padding (padding + payload.length) ++ payload) =
      some (msg, []) := by
  unfold dnsFiller
  -- too small for the OPT framing: the data of a NULL record takes the payload in
  by_cases hopt : padding < dnsOptMin
  · have hdata : (replicate (padding - 28) 0x00 ++ payload).length =
        padding + payload.length - 28 := by
      rw [length_append, length_replicate]
      omega
    obtain ⟨msg, hmsg⟩ :=
      consumes_dnsNull txid (replicate (padding - 28) 0x00 ++ payload) (by omega)
    refine ⟨msg, ?_⟩
    have hfill : dnsNullFiller txid padding (padding + payload.length) ++ payload =
        dnsNullFixed txid 1 1
          (BitVec.ofNat 16 (replicate (padding - 28) (0x00 : Byte) ++ payload).length) ++
          (replicate (padding - 28) 0x00 ++ payload) := by
      have hclamp : clampU16 (((padding + payload.length : ℕ) : ℤ) - 28) =
          BitVec.ofNat 16 (padding + payload.length - 28) := by
        rw [← clampU16_natCast (by omega)]
        congr 1
        omega
      unfold dnsNullFiller
      dsimp only
      rw [if_pos hmin, if_neg (by omega), if_pos (by omega), if_pos hmin, hclamp, hdata,
        append_assoc]
      rfl
    rw [if_pos hopt, hfill]
    exact hmsg.run
  · -- the payload is the end of the option data, and both lengths count it
    have hbig : 32 ≤ padding := not_lt.mp hopt
    have hdata : (replicate (padding - 32) (0x00 : Byte) ++ payload).length =
        padding + payload.length - 32 := by
      rw [length_append, length_replicate]
      omega
    obtain ⟨msg, hmsg⟩ := consumes_dnsOpt txid (replicate (padding - 32) 0x00 ++ payload) (by omega)
    refine ⟨msg, ?_⟩
    have hfill : dnsOptFiller txid dnsRootQuestion padding (padding + payload.length) ++ payload =
        dnsHeader txid ++ dnsRootQuestion ++
          dnsOpt (BitVec.ofNat 16 ((replicate (padding - 32) (0x00 : Byte) ++ payload).length + 4))
            (BitVec.ofNat 16 (replicate (padding - 32) (0x00 : Byte) ++ payload).length) ++
          (replicate (padding - 32) 0x00 ++ payload) := by
      have hlong : clampU16 (((padding + payload.length : ℕ) : ℤ) - ((12 + 5 + 11 : ℕ) : ℤ)) =
          BitVec.ofNat 16 (padding + payload.length - 32 + 4) := by
        rw [← clampU16_natCast (by omega)]
        congr 1
        omega
      have hshort : clampU16 (((padding + payload.length : ℕ) : ℤ) - ((12 + 5 + 11 + 4 : ℕ) : ℤ)) =
          BitVec.ofNat 16 (padding + payload.length - 32) := by
        rw [← clampU16_natCast (by omega)]
        congr 1
        omega
      rw [hdata, ← hlong, ← hshort]
      exact append_assoc ..
    rw [if_neg hopt, hfill]
    exact hmsg.run

/-- **A DNS filler is a message that ends with the datagram.**  For every datagram of at most 65535
bytes and padding of at least 28, in front of a payload and as a whole datagram, what is written
parses by its own counts and lengths to the last byte. -/
theorem writeDNS_message {buf : Bytes} {padding : ℕ} (hmin : 28 ≤ padding)
    (hpadding : padding ≤ buf.length) (hmax : buf.length ≤ 65535) (seed : BitVec 32) :
    (∃ out msg, writeDNS buf padding seed = some out ∧ out.length = buf.length ∧
      out.drop padding = buf.drop padding ∧ dnsMessage.run out = some (msg, [])) ∧
    ∃ out msg, writeDNSWhole buf seed = some out ∧ out.length = buf.length ∧
      dnsMessage.run out = some (msg, []) := by
  have hsplit : padding + (buf.drop padding).length = buf.length := by
    rw [length_drop]
    omega
  -- the two callers differ in the transaction ID and in what follows the filler
  constructor
  · obtain ⟨msg, hmsg⟩ :=
      dnsFiller_message (payloadTxid (buf.drop padding)) padding (buf.drop padding) hmin (by omega)
    have hlen := dnsFiller_length (payloadTxid (buf.drop padding)) padding buf.length
    rw [hsplit] at hmsg
    exact ⟨_, msg, writeDNS_eq (by omega) hpadding seed, by rw [length_append, hlen, hsplit],
      drop_left' hlen, hmsg⟩
  · obtain ⟨msg, hmsg⟩ := dnsFiller_message ((seed >>> 8).setWidth 8, seed.setWidth 8) buf.length []
      (by omega) (by rw [length_nil]; omega)
    have hlen := dnsFiller_length ((seed >>> 8).setWidth 8, seed.setWidth 8) buf.length buf.length
    have hwrite : writeDNSWhole buf seed =
        some
          (dnsFiller ((seed >>> 8).setWidth 8, seed.setWidth 8) buf.length buf.length ++ []) := by
      unfold writeDNSWhole
      dsimp only
      rw [if_neg (by omega), writeDNSMsg_eq (le_refl _), drop_length]
    exact ⟨_, msg, hwrite, by rw [append_nil, hlen], hmsg⟩

theorem writeDNS_message_example :
    (∃ out msg, writeDNS (List.replicate 40 0xff) 35 0 = some out ∧
      dnsMessage.run out = some (msg, [])) ∧
      ∃ out msg, writeDNSWhole (List.replicate 40 0xff) 0 = some out ∧
        dnsMessage.run out = some (msg, []) := by
  obtain ⟨⟨out, msg, hout, -, -, hrun⟩, out', msg', hout', -, hrun'⟩ :=
    writeDNS_message (show 28 ≤ 35 by decide)
      (show 35 ≤ (replicate 40 (0xff : Byte)).length by decide)
      (by decide) 0
  exact ⟨⟨out, msg, hout, hrun⟩, out', msg', hout', hrun'⟩

end Dns

/-! ## §3 SIP -/

section Sip

theorem decimalDigitsFrom_eq_log {fuel value : ℕ} (h : value ≤ fuel) (digits : ℕ) :
    decimalDigitsFrom fuel value digits = digits + Nat.log 10 value := by
  induction fuel generalizing value digits with
  | zero =>
    rw [le_zero.mp h]
    simp [decimalDigitsFrom]
  | succ fuel ih =>
    rw [decimalDigitsFrom]
    split_ifs with hten
    · have hless : value / 10 ≤ fuel := by omega
      rw [ih hless, log_of_one_lt_of_le (by decide) hten]
      omega
    · rw [Nat.log_of_lt (Nat.lt_of_not_le hten)]
      rfl

theorem decimalDigits_eq_log (n : ℕ) : decimalDigits n = Nat.log 10 n + 1 := by
  rw [decimalDigits, decimalDigitsFrom_eq_log (le_refl n), add_comm]

theorem decimal_length (n : ℕ) : (decimal n).length = decimalDigits n := by
  rw [decimalDigits_eq_log]
  induction n using Nat.strong_induction_on with
  | _ n ih =>
    rw [decimal_eq]
    split_ifs with hten
    · rw [log_of_lt hten]
      rfl
    · have hge : 10 ≤ n := Nat.le_of_not_lt hten
      rw [length_append, ih (n / 10) (by omega), log_of_one_lt_of_le (by decide) hge]
      rfl

/-- A number of digits that counts itself right exists for one space or for two: when no number does
for one space, the length steps over a power of ten between two candidates. -/
theorem exists_digits (x : ℕ) {bound : ℕ} (hbound : decimalDigits x ≤ bound) :
    ∃ digits, 1 ≤ digits ∧ digits ≤ bound ∧
      (decimalDigits (x - digits) = digits ∨ decimalDigits (x - 1 - digits) = digits) := by
  simp only [decimalDigits_eq_log] at hbound ⊢
  have hexists : ∃ d, 1 ≤ d ∧ Nat.log 10 (x - d) + 1 ≤ d := by
    refine ⟨bound, by omega, ?_⟩
    have := Nat.log_mono_right (b := 10) (Nat.sub_le x bound)
    omega
  -- the least candidate that has room for the digits of what it leaves
  have hfirst := Nat.find_spec hexists
  have hmin : ∀ d, d < Nat.find hexists → ¬(1 ≤ d ∧ Nat.log 10 (x - d) + 1 ≤ d) :=
    fun d => Nat.find_min hexists
  have hle : Nat.find hexists ≤ bound := by
    apply Nat.find_min' hexists
    have := Nat.log_mono_right (b := 10) (Nat.sub_le x bound)
    omega
  generalize Nat.find hexists = d at hfirst hmin hle
  obtain ⟨hpos, hdigits⟩ := hfirst
  by_cases heq : Nat.log 10 (x - d) + 1 = d
  · exact ⟨d, hpos, hle, Or.inl heq⟩
  · -- the candidate before has too many digits, this one too few
    have hbefore := hmin (d - 1) (by omega)
    have hmany : d - 1 ≤ Nat.log 10 (x - (d - 1)) := by omega
    have hpow : 10 ^ (d - 1) ≤ x - (d - 1) := by
      have hne : x - (d - 1) ≠ 0 := by
        intro hzero
        rw [hzero, Nat.log_zero_right] at hmany
        omega
      exact (Nat.le_log_iff_pow_le (by decide) hne).mp hmany
    have hlt : x - d < 10 ^ (d - 1) := Nat.lt_pow_of_log_lt (by decide) (by omega)
    have hstep : x - 1 - (d - 1) = 10 ^ (d - 1) - 1 := by omega
    have hlog : Nat.log 10 (10 ^ (d - 1) - 1) + 1 = d - 1 := by
      obtain ⟨k, rfl⟩ : ∃ k, d = k + 2 := ⟨d - 2, by omega⟩
      have hlow : 10 ^ k ≤ 10 ^ (k + 1) - 1 := by
        have := Nat.pow_pos (n := k) (show 0 < 10 by decide)
        rw [Nat.pow_succ]
        omega
      have hhigh : 10 ^ (k + 1) - 1 < 10 ^ (k + 1) :=
        Nat.sub_lt (Nat.pow_pos (by decide)) (by decide)
      show Nat.log 10 (10 ^ (k + 1) - 1) + 1 = k + 1
      rw [Nat.log_eq_of_pow_le_of_lt_pow hlow hhigh]
    exact ⟨d - 1, by omega, by omega, Or.inr (by rw [hstep]; exact hlog)⟩

theorem findContentLength_some {n total pos sws left digits body : ℕ}
    (h : findContentLength n total pos sws left digits = some body) :
    pos + 15 + sws + decimalDigits body + 4 ≤ n ∧
    body = total - (pos + 15 + sws + decimalDigits body + 4) := by
  induction left generalizing digits with
  | zero => cases h
  | succ left ih =>
    rw [findContentLength] at h
    split_ifs at h with hlong hright
    · cases h
      rw [hright]
      exact ⟨Nat.le_of_not_lt hlong, rfl⟩
    · exact ih h

theorem findContentLength_isSome {n total pos sws left digits d : ℕ} (hlow : digits ≤ d)
    (hhigh : d < digits + left)
    (hroom : pos + 15 + sws + d + 4 ≤ n)
    (hright : decimalDigits (total - (pos + 15 + sws + d + 4)) = d) :
    ∃ body, findContentLength n total pos sws left digits = some body := by
  induction left generalizing digits with
  | zero => omega
  | succ left ih =>
    rw [findContentLength, if_neg (by omega)]
    split_ifs with hfound
    · exact ⟨_, rfl⟩
    · have hne : digits ≠ d := fun heq => hfound (by rw [heq]; exact hright)
      exact ih (by omega) (by omega)

theorem packLines_spec (n : ℕ) (text : Bytes) (lines : List Bytes) :
    ∃ done, done <+: lines ∧ (packLines n text lines).1 = text ++ done.flatten ∧
      ((packLines n text lines).2 = true → done = lines) := by
  induction lines generalizing text with
  | nil => exact ⟨[], prefix_refl _, by simp [packLines], fun _ => rfl⟩
  | cons line lines ih =>
    rw [packLines]
    split_ifs with hfit
    · obtain ⟨done, hprefix, htext, hall⟩ := ih (text ++ line)
      refine ⟨line :: done, cons_prefix_cons.mpr ⟨rfl, hprefix⟩, ?_, fun h => by rw [hall h]⟩
      rw [htext, flatten_cons, append_assoc]
    · exact ⟨[], nil_prefix, by simp, fun h => by cases h⟩

theorem packLines_fits {n : ℕ} {text : Bytes} {lines : List Bytes}
    (h : text.length + lines.flatten.length + 2 ≤ n) : (packLines n text lines).2 = true := by
  induction lines generalizing text with
  | nil => rfl
  | cons line lines ih =>
    rw [flatten_cons, length_append] at h
    rw [packLines, if_pos (by omega)]
    exact ih (by rw [length_append]; omega)

/-! ### The texts of the lines -/

theorem isTextLine_append {text : Bytes} (hne : text ≠ []) (hcr : 0x0d ∉ text) :
    IsTextLine (text ++ ascii "\r\n") :=
  ⟨text, rfl, hne, hcr⟩

theorem not_mem_hex8 (v : BitVec 32) : (0x0d : Byte) ∉ hex8 v := by
  have hdigit : ∀ n, n < 16 → hexDigit n ≠ 0x0d := by decide
  intro h
  obtain ⟨shift, -, heq⟩ := mem_map.mp h
  refine hdigit _ ?_ heq
  rw [BitVec.toNat_and]
  exact lt_of_le_of_lt and_le_right (by decide)

theorem sipStatus_not_mem : ∀ s ∈ sipStatus, (0x0d : Byte) ∉ s := by decide

theorem sipHosts_not_mem (i : ℕ) : (0x0d : Byte) ∉ sipHosts[i % 3]?.getD [] := by
  have hall : ∀ j < 3, (0x0d : Byte) ∉ sipHosts[j]?.getD [] := by decide
  exact hall _ (mod_lt i (by decide))

theorem sipMethods_not_mem (i : ℕ) : (0x0d : Byte) ∉ sipMethods[i % 3]?.getD [] := by
  have hall : ∀ j < 3, (0x0d : Byte) ∉ sipMethods[j]?.getD [] := by decide
  exact hall _ (mod_lt i (by decide))

theorem isTextLine_status {status : Bytes} (h : status ∈ sipStatus) :
    IsTextLine (sipStatusLine status) := by
  refine isTextLine_append (by simp [ascii]) fun hmem => ?_
  rcases mem_append.mp hmem with hmem | hmem
  · exact absurd hmem (by decide)
  · exact sipStatus_not_mem status h hmem

theorem isTextLine_contentLength (sws body : ℕ) : IsTextLine (sipContentLengthLine sws body) := by
  unfold sipContentLengthLine
  refine isTextLine_append ?_ fun hmem => ?_
  · split_ifs <;> simp [ascii]
  · rcases mem_append.mp hmem with hmem | hmem
    · split_ifs at hmem <;> exact absurd hmem (by decide)
    · exact not_mem_decimal (by decide) hmem

theorem isTextLine_header (draws : SipDraws) : ∀ line ∈ sipHeaderLines draws, IsTextLine line := by
  have hhost := sipHosts_not_mem draws.host.toNat
  have hmethod := sipMethods_not_mem draws.method.toNat
  unfold sipHeaderLines SipDraws.lines
  -- the tables of texts matter only in that they have no line end
  generalize sipHosts[draws.host.toNat % 3]?.getD [] = host at hhost
  generalize sipMethods[draws.method.toNat % 3]?.getD [] = method at hmethod
  have hvia : IsTextLine (sipViaLine host draws.branch) := by
    have hsplit : sipViaLine host draws.branch =
      (ascii "Via: SIP/2.0/UDP " ++ host ++ ascii ":5060;branch=z9hG4bK" ++
        hex8 draws.branch ++ ascii ";rport") ++ ascii "\r\n" := by
      rw [sipViaLine, append_assoc _ (ascii ";rport")]
      rfl
    rw [hsplit]
    refine isTextLine_append (by simp [ascii]) ?_
    simp only [mem_append, not_or]
    exact ⟨⟨⟨⟨by decide, hhost⟩, by decide⟩, not_mem_hex8 _⟩, by decide⟩
  have hfrom : IsTextLine (sipFromLine host draws.fromTag) := by
    refine isTextLine_append (by simp [ascii]) ?_
    simp only [mem_append, not_or]
    exact ⟨⟨⟨by decide, hhost⟩, by decide⟩, not_mem_hex8 _⟩
  have hto : IsTextLine (sipToLine host draws.toTag) := by
    refine isTextLine_append (by simp [ascii]) ?_
    simp only [mem_append, not_or]
    exact ⟨⟨⟨by decide, hhost⟩, by decide⟩, not_mem_hex8 _⟩
  have hcall : IsTextLine (sipCallIDLine draws.callID host) := by
    refine isTextLine_append (by simp [ascii]) ?_
    simp only [mem_append, not_or]
    exact ⟨⟨⟨by decide, not_mem_hex8 _⟩, by decide⟩, hhost⟩
  have hcseq : IsTextLine (sipCSeqLine draws.cseq method) := by
    refine isTextLine_append (by simp [ascii]) ?_
    simp only [mem_append, not_or]
    exact ⟨⟨⟨by decide, not_mem_decimal (by decide)⟩, by decide⟩, hmethod⟩
  intro line hline
  simp only [mem_cons, not_mem_nil, or_false] at hline
  rcases hline with rfl | rfl | rfl | rfl | rfl
  · exact hvia
  · exact hfrom
  · exact hto
  · exact hcall
  · exact hcseq

/-! ### The message -/

/-- A line `SIP/2.0 200 OK` fits 18 bytes, and every start of the search comes to it. -/
theorem sipStatusText_some {n : ℕ} (h : 18 ≤ n) (statusIdx : ℕ) :
    ∃ status ∈ sipStatus, sipStatusText n statusIdx [0, 1, 2] = some (sipStatusLine status) := by
  have hmem : ∀ j, sipStatus[j % 3]?.getD [] ∈ sipStatus := by
    intro j
    have hall : ∀ i < 3, sipStatus[i]?.getD [] ∈ sipStatus := by decide
    exact hall _ (mod_lt j (by decide))
  have hok : ∀ j, j % 3 = 2 → (sipStatusLine (sipStatus[j % 3]?.getD [])).length + 2 ≤ n := by
    intro j hj
    rw [hj]
    exact h
  unfold sipStatusText
  dsimp only
  split_ifs with h₀
  · exact ⟨_, hmem _, rfl⟩
  · unfold sipStatusText
    dsimp only
    split_ifs with h₁
    · exact ⟨_, hmem _, rfl⟩
    · unfold sipStatusText
      dsimp only
      -- the two before were not the short one
      rw [if_pos (hok _ (by
        by_contra hne
        have h₀' := mt (hok (statusIdx + 0)) h₀
        have h₁' := mt (hok (statusIdx + 1)) h₁
        omega))]
      exact ⟨_, hmem _, rfl⟩

theorem sipContentLengthLine_length {sws : ℕ} (h : sws = 1 ∨ sws = 2) (body : ℕ) :
    (sipContentLengthLine sws body).length = 15 + sws + decimalDigits body + 2 := by
  have hone : (ascii "Content-Length: ").length = 16 := rfl
  have htwo : (ascii "Content-Length:  ").length = 17 := rfl
  have hend : (ascii "\r\n").length = 2 := rfl
  rcases h with rfl | rfl
  · rw [sipContentLengthLine, if_pos rfl, length_append, length_append, hone, decimal_length, hend]
  · rw [sipContentLengthLine, if_neg (by decide), length_append, length_append, htwo,
      decimal_length, hend]

/-- The line that the search makes: none, or one that fits and counts the bytes behind the blank
line. -/
theorem sipContentLengthLines_spec (n total pos : ℕ) :
    (sipContentLengthLines n total pos [1, 2] = [] ∧
      ¬(pos + 15 + 2 + decimalDigits total + 4 ≤ n)) ∨
    ∃ sws body, (sws = 1 ∨ sws = 2) ∧ sipContentLengthLines n total pos [1, 2] =
      [sipContentLengthLine sws body] ∧ pos + (sipContentLengthLine sws body).length + 2 ≤ n ∧
      body = total - (pos + (sipContentLengthLine sws body).length + 2) := by
  have hfound : ∀ sws body, sws = 1 ∨ sws = 2 →
      findContentLength n total pos sws (decimalDigits total) 1 = some body →
      pos + (sipContentLengthLine sws body).length + 2 ≤ n ∧
        body = total - (pos + (sipContentLengthLine sws body).length + 2) := by
    intro sws body hsws h
    obtain ⟨hfits, hbody⟩ := findContentLength_some h
    have hend : pos + (sipContentLengthLine sws body).length + 2 =
        pos + 15 + sws + decimalDigits body + 4 := by
      rw [sipContentLengthLine_length hsws]
      omega
    rw [hend]
    exact ⟨hfits, hbody⟩
  unfold sipContentLengthLines
  cases h₁ : findContentLength n total pos 1 (decimalDigits total) 1 with
  | some body =>
    obtain ⟨hfits, hbody⟩ := hfound 1 body (Or.inl rfl) h₁
    exact Or.inr ⟨1, body, Or.inl rfl, rfl, hfits, hbody⟩
  | none =>
    unfold sipContentLengthLines
    cases h₂ : findContentLength n total pos 2 (decimalDigits total) 1 with
    | some body =>
      obtain ⟨hfits, hbody⟩ := hfound 2 body (Or.inr rfl) h₂
      exact Or.inr ⟨2, body, Or.inr rfl, rfl, hfits, hbody⟩
    | none =>
      refine Or.inl ⟨rfl, fun hroom => ?_⟩
      -- with room for all candidates one of the two searches succeeds
      have hbound : decimalDigits (total - (pos + 20)) ≤ decimalDigits total := by
        rw [decimalDigits_eq_log, decimalDigits_eq_log]
        exact succ_le_succ (log_mono_right (sub_le _ _))
      obtain ⟨d, hlow, hhigh, hright⟩ := exists_digits (total - (pos + 20)) hbound
      rcases hright with hright | hright
      · have hlast : total - (pos + 15 + 1 + d + 4) = total - (pos + 20) - d := by omega
        have hsome : ∃ body, findContentLength n total pos 1 (decimalDigits total) 1 = some body :=
          findContentLength_isSome hlow (by omega) (by omega) (by rw [hlast]; exact hright)
        obtain ⟨body, hbody⟩ := hsome
        exact absurd (h₁.symm.trans hbody) (by simp)
      · have hlast : total - (pos + 15 + 2 + d + 4) = total - (pos + 20) - 1 - d := by omega
        have hsome : ∃ body, findContentLength n total pos 2 (decimalDigits total) 1 = some body :=
          findContentLength_isSome hlow (by omega) (by omega) (by rw [hlast]; exact hright)
        obtain ⟨body, hbody⟩ := hsome
        exact absurd (h₂.symm.trans hbody) (by simp)

/-- The lines behind the status line: header lines in order, and then a `Content-Length` that counts
the bytes from the blank line to the end of the buffer. -/
theorem sipTextOf_spec (five : List Bytes) (n total : ℕ) (status : Bytes) :
    ∃ lines sws, (sws = 1 ∨ sws = 2) ∧ sipTextOf five n total status = status ++ lines.flatten ∧
      lines <+: five ++
        [sipContentLengthLine sws (total - ((sipTextOf five n total status).length + 2))] ∧
      (status.length + five.flatten.length + 15 + 2 + decimalDigits total + 4 ≤ n →
        lines.length = five.length + 1) := by
  obtain ⟨done, hprefix, htext, hall⟩ := packLines_spec n status five
  unfold sipTextOf
  dsimp only
  -- `Content-Length` is tried only when all header lines have been packed
  cases hpacked : (packLines n status five).2 with
  | false =>
    rw [if_neg (by decide)]
    refine ⟨done, 1, Or.inl rfl, htext, hprefix.trans (prefix_append _ _), fun hfits => ?_⟩
    rw [packLines_fits (by omega)] at hpacked
    cases hpacked
  | true =>
    cases hall hpacked
    rw [if_pos rfl, htext]
    rcases sipContentLengthLines_spec n total (status ++ five.flatten).length with
      ⟨hnone, hlong⟩ | ⟨sws, body, hsws, hone, hfits, hbody⟩
    · rw [hnone]
      refine ⟨five, 1, Or.inl rfl, rfl, prefix_append _ _, fun hshort => absurd ?_ hlong⟩
      rw [length_append]
      exact hshort
    · have hline : (packLines n (status ++ five.flatten) [sipContentLengthLine sws body]).1 =
          status ++ five.flatten ++ sipContentLengthLine sws body := by
        rw [packLines, if_pos hfits, packLines]
      refine ⟨five ++ [sipContentLengthLine sws body], sws, hsws, ?_, ?_, fun _ => by simp⟩
      · rw [hone, hline]
        simp
      · have hend : (status ++ five.flatten ++ sipContentLengthLine sws body).length =
            (status ++ five.flatten).length + (sipContentLengthLine sws body).length :=
              length_append
        simp only [hone, hline, hend, ← hbody, prefix_refl]

/-- **A SIP filler is a message with a true `Content-Length`.**  For every buffer and padding of at
least 18 bytes, the padding is a status line, header lines in order, a blank line and spaces.  The
sixth header line can only be a `Content-Length` of what stands behind the first blank line, and it
is there whenever it must fit. -/
theorem writeSIP_message {buf : Bytes} {padding : ℕ} (hmin : 18 ≤ padding)
    (hpadding : padding ≤ buf.length) (seed : BitVec 32) : ∃ out status lines sws body spaces,
      writeSIP 64 buf padding seed = some out ∧ out.length = buf.length ∧
        out.drop padding = buf.drop padding ∧
      status ∈ sipStatus ∧ (sws = 1 ∨ sws = 2) ∧ afterBlankLine out = some body ∧
      lines <+: sipHeaderLines (sipDraws seed) ++ [sipContentLengthLine sws body.length] ∧
      out.take padding =
        sipStatusLine status ++ lines.flatten ++ [0x0d, 0x0a] ++ List.replicate spaces 0x20 ∧
      ((sipStatusLine status ++ (sipHeaderLines (sipDraws seed)).flatten).length + 15 + 2 +
        decimalDigits buf.length + 4 ≤ padding → lines.length = 6) := by
  obtain ⟨status, hstatus, htext⟩ := sipStatusText_some hmin ((sipDraws seed).status.toNat % 3)
  have hroom := sipStatusText_room htext
  have hfiller : sipFiller seed padding buf.length =
      sipClose padding (sipTextOf (sipHeaderLines (sipDraws seed)) padding buf.length
        (sipStatusLine status)) := by
    rw [sipFiller, sipFillerOf, htext]
  have hfits := sipTextOf_room hroom (sipHeaderLines (sipDraws seed)) buf.length
  obtain ⟨lines, sws, hsws, hlines, hprefix, hcontent⟩ :=
    sipTextOf_spec (sipHeaderLines (sipDraws seed)) padding buf.length (sipStatusLine status)
  generalize sipTextOf (sipHeaderLines (sipDraws seed)) padding buf.length (sipStatusLine status) =
    text at *
  have hlen : (sipClose padding text).length = padding := sipClose_length hfits
  have hwrite := writeSIP_eq hpadding seed
  rw [hfiller] at hwrite
  -- no line is empty, so the first blank line is the one behind the text
  have hbody : afterBlankLine (sipClose padding text ++ buf.drop padding) =
      some (replicate (padding - (text.length + 2)) 0x20 ++ buf.drop padding) := by
    have htextLines : ∀ l ∈ lines, IsTextLine l := by
      intro l hl
      have hmem := hprefix.subset hl
      rcases mem_append.mp hmem with hheader | hlast
      · exact isTextLine_header _ l hheader
      · rw [mem_singleton.mp hlast]
        exact isTextLine_contentLength _ _
    have h := afterBlankLine_lines (isTextLine_status hstatus) htextLines
      (replicate (padding - (text.length + 2)) 0x20 ++ buf.drop padding)
    rw [flatten_cons, ← hlines] at h
    rw [sipClose, append_assoc, append_assoc]
    exact h
  -- what follows the blank line is what `Content-Length` counts
  have hlast : (replicate (padding - (text.length + 2)) (0x20 : Byte) ++ buf.drop padding).length =
      buf.length - (text.length + 2) := by
    rw [length_append, length_replicate, length_drop]
    omega
  refine ⟨_, status, lines, sws, _, padding - (text.length + 2), hwrite, ?_, drop_left' hlen,
    hstatus, hsws, hbody,
    by rw [hlast]; exact hprefix, ?_, fun hshort =>
      hcontent (by rw [length_append] at hshort; exact hshort)⟩
  · rw [length_append, hlen, length_drop]
    omega
  · rw [take_left' hlen, sipClose, hlines]
    rfl

/-- In 300 bytes all six lines fit. -/
theorem writeSIP_message_example : ∃ out status lines sws body spaces,
    writeSIP 64 (List.replicate 400 0xff) 300 0 = some out ∧ afterBlankLine out = some body ∧
      lines <+: sipHeaderLines (sipDraws 0) ++ [sipContentLengthLine sws body.length] ∧
        lines.length = 6 ∧
      out.take 300 = sipStatusLine status ++ lines.flatten ++ [0x0d, 0x0a] ++
        List.replicate spaces 0x20 := by
  have hlen : (replicate 400 (0xff : Byte)).length = 400 := length_replicate
  obtain ⟨out, status, lines, sws, body, spaces, hout, -, -, hstatus, -, hbody, hlines, htake,
      hsix⟩ :=
    writeSIP_message (show 18 ≤ 300 by decide)
      (show 300 ≤ (replicate 400 (0xff : Byte)).length by omega) 0
  have hshort : ∀ s ∈ sipStatus, (sipStatusLine s ++ (sipHeaderLines (sipDraws 0)).flatten).length +
    15 + 2 +
      decimalDigits 400 + 4 ≤ 300 := by decide +kernel
  rw [hlen] at hsix
  exact ⟨out, status, lines, sws, body, spaces, hout, hbody, hlines,
    hsix (hshort status hstatus), htake⟩

end Sip

end AmneziaWG.Device
